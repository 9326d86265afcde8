import Smos.Inspect.Snapshot

/-!
A snapshot that is returned is the VMO at one moment.

Between two moments of a run the generation count grows by two for each outermost transaction that
was opened, up to the transaction that is still open at one of them.  If both moments have the same
even count and fewer than `2 ^ 63` transactions were opened, then none was, and the VMO did not
change in between.  The reader's two headers are such moments, and all bytes of the buffer were read
between them.
-/
namespace Smos.Inspect

open Lib.Bytes Reader List

namespace Container

variable {c c' : Container} {pos n : ℕ}

theorem isLocked_iff : c.isLocked = true ↔ c.generationCount.toNat % 2 = 1 := by
  rw [isLocked, beq_iff_eq, ← BitVec.toNat_inj, BitVec.toNat_and, BitVec.toNat_ofNat,
    Nat.and_one_is_mod]

theorem generationCount_eq (h : 16 ≤ c.length) :
    c.generationCount = BitVec.ofNat 64 (ofLE (slice c 8 8)) := by
  have hoff : payloadOffset headerIndex = 8 := rfl
  rw [generationCount, payloadValue, hoff, getU64_eq (by omega), Option.getD_some]

theorem generationCount_congr (h : 16 ≤ c.length) (h' : 16 ≤ c'.length)
    (hword : slice c 8 8 = slice c' 8 8) : c.generationCount = c'.generationCount := by
  rw [generationCount_eq h, generationCount_eq h', hword]

theorem isLocked_congr (h : c.generationCount = c'.generationCount) :
    c.isLocked = c'.isLocked := by
  rw [isLocked, isLocked, h]

@[simp] theorem length_incrementGenerationCount :
    c.incrementGenerationCount.length = c.length :=
  length_setU64

theorem generationCount_increment (h : 16 ≤ c.length) :
    c.incrementGenerationCount.generationCount = c.generationCount + 1#64 := by
  have hoff : payloadOffset headerIndex + 8 ≤ c.length := h
  rw [generationCount, payloadValue, incrementGenerationCount, setPayloadValue,
    getU64_setU64_self hoff, Option.getD_some]

theorem slice_increment (hdisj : pos + n ≤ 8 ∨ 16 ≤ pos) :
    slice c.incrementGenerationCount pos n = slice c pos n :=
  slice_setU64 hdisj

/-- The size in the header depends on its first word and on its size field only. -/
theorem vmoSize_congr (h : 32 ≤ c.length) (h' : 32 ≤ c'.length)
    (hword : slice c 0 8 = slice c' 0 8) (hfield : slice c 16 4 = slice c' 16 4) :
    c.vmoSize = c'.vmoSize := by
  have hfirst : c.getU64 (headerOffset headerIndex) = c'.getU64 (headerOffset headerIndex) := by
    have hoff : headerOffset headerIndex = 0 := rfl
    rw [hoff, getU64_eq (by omega), getU64_eq (by omega), hword]
  have hsize : c.getU32 (headerOffset (headerIndex + 1)) =
      c'.getU32 (headerOffset (headerIndex + 1)) := by
    have hoff : headerOffset (headerIndex + 1) = 16 := rfl
    rw [hoff, getU32, getU32, getSliceAt, getSliceAt, if_neg (by omega), if_neg (by omega), hfield]
  rw [vmoSize, vmoSize, order, order, headerField, headerField, hfirst, hsize]

end Container

open Container

variable {c : Container}

/-- A copied header gives the same size as the VMO it was copied from. -/
theorem snapshotSize_take {n : ℕ} (h : 32 ≤ c.length) :
    snapshotSize (c.take 32) n = snapshotSize c n := by
  have hlen : 32 ≤ (c.take 32).length := by
    rw [length_take]
    omega
  rw [snapshotSize, snapshotSize, vmoSize_congr hlen h (slice_take (by omega))
    (slice_take (by omega))]

/-- The size that is read is not larger than the VMO. -/
theorem SizeFits.snapshotSize_le {size : ℕ} (h : SizeFits c)
    (hsize : snapshotSize c c.length = .ok size) : size ≤ c.length := by
  unfold snapshotSize at hsize
  split at hsize
  · cases hsize
  · next vmoSize hvmo =>
    cases hsize
    exact (Nat.min_le_left _ _).trans (h vmoSize hvmo)
  · cases hsize
    exact Nat.min_le_left _ _

namespace InnerState

variable {w w' : InnerState} {b : ℕ}

structure Ok (w : InnerState) : Prop where
  header_fits : 32 ≤ w.container.length
  locked_iff : w.container.isLocked = true ↔ w.transactionCount ≠ 0
  size_fits : SizeFits w.container

def openBit (w : InnerState) : BitVec 64 := if w.transactionCount = 0 then 0#64 else 1#64

structure Advances (b : ℕ) (w w' : InnerState) : Prop where
  ok : Ok w'
  first_word : slice w'.container 0 8 = slice w.container 0 8
  generation : w'.container.generationCount + w'.openBit =
    w.container.generationCount + w.openBit + BitVec.ofNat 64 (2 * b)
  unchanged : b = 0 → w.transactionCount = 0 → w' = w

theorem Advances.refl (h : Ok w) : Advances 0 w w :=
  ⟨h, rfl, by simp, fun _ _ => rfl⟩

theorem isLocked_increment (h : 16 ≤ c.length) :
    c.incrementGenerationCount.isLocked = true ↔ ¬c.isLocked = true := by
  rw [isLocked_iff, isLocked_iff, generationCount_increment h, BitVec.toNat_add]
  have hone : (1#64).toNat = 1 := rfl
  omega

theorem sizeFits_increment (hlen : 32 ≤ c.length) (h : SizeFits c) :
    SizeFits c.incrementGenerationCount := by
  intro size hsize
  rw [vmoSize_congr (by rwa [length_incrementGenerationCount]) hlen (slice_increment (by omega))
    (slice_increment (by omega))] at hsize
  rw [length_incrementGenerationCount]
  exact h size hsize

/-- Incrementing the count when the outermost transaction opens or closes. -/
theorem Ok.increment (h : Ok w) {count : ℕ} (hcount : count = 0 ↔ w.transactionCount ≠ 0) :
    Ok ⟨w.container.incrementGenerationCount, count⟩ where
  header_fits := by
    rw [length_incrementGenerationCount]
    exact h.header_fits
  locked_iff := by
    rw [isLocked_increment (by have := h.header_fits; omega), h.locked_iff]
    exact (not_congr hcount).symm
  size_fits := sizeFits_increment h.header_fits h.size_fits

theorem Ok.lockHeader (h : Ok w) (hlock : w.lockHeader = some w') :
    Advances (if w.transactionCount = 0 then 1 else 0) w w' := by
  unfold InnerState.lockHeader at hlock
  split at hlock
  · next hzero =>
    have hunlocked : w.container.isLocked = false := by
      rw [← Bool.not_eq_true, h.locked_iff, not_not]
      exact hzero
    rw [lock, hunlocked] at hlock
    cases hlock
    refine ⟨h.increment (by omega), slice_increment (by omega), ?_, by simp [hzero]⟩
    simp only [openBit, hzero, if_pos, Nat.zero_add, Nat.one_ne_zero, if_false]
    rw [generationCount_increment (by have := h.header_fits; omega), BitVec.add_zero,
      BitVec.add_assoc]
    rfl
  · next hpos =>
    cases hlock
    refine ⟨⟨h.header_fits, ?_, h.size_fits⟩, rfl, ?_, fun _ hzero => absurd hzero hpos⟩
    · rw [h.locked_iff]
      simp only [ne_eq, hpos, not_false_eq_true, Nat.add_eq_zero_iff, false_and]
    · simp [openBit, hpos]

theorem Ok.unlockHeader (h : Ok w) (hunlock : w.unlockHeader = some w') : Advances 0 w w' := by
  unfold InnerState.unlockHeader at hunlock
  split at hunlock
  · cases hunlock
  next hpos =>
  have hlocked : w.container.isLocked = true := h.locked_iff.mpr hpos
  split at hunlock
  · next hlast =>
    rw [unlock, hlocked] at hunlock
    cases hunlock
    refine ⟨h.increment (by omega), slice_increment (by omega), ?_,
      fun _ hzero => absurd hzero hpos⟩
    simp only [openBit, hlast, if_pos, hpos, if_false]
    rw [generationCount_increment (by have := h.header_fits; omega)]
  · next hmore =>
    cases hunlock
    refine ⟨⟨h.header_fits, ?_, h.size_fits⟩, rfl, ?_, fun _ hzero => absurd hzero hpos⟩
    · rw [h.locked_iff]
      simp only [ne_eq, hpos, hmore]
    · simp [openBit, hpos, hmore]

theorem Ok.store (h : Ok w) {offset : ℕ} {bytes : List UInt8} (hopen : w.transactionCount ≠ 0)
    (hoffset : 16 ≤ offset) (hsize : SizeFits (w.store offset bytes).container) :
    Advances 0 w (w.store offset bytes) := by
  unfold InnerState.store at hsize ⊢
  split at hsize
  · next hout =>
    rw [if_pos hout]
    exact Advances.refl h
  next hin =>
  rw [if_neg hin]
  have hlen : (splice w.container offset bytes).length = w.container.length :=
    length_splice (by omega)
  have hgen : generationCount (splice w.container offset bytes) = w.container.generationCount :=
    generationCount_congr (by omega) (by omega)
      (slice_splice_of_disjoint (by omega) (by omega))
  refine ⟨⟨?_, ?_, hsize⟩, slice_splice_of_disjoint (by omega) (by omega), ?_,
    fun _ hzero => absurd hzero hopen⟩
  · rw [hlen]
    exact h.header_fits
  · rw [isLocked_congr hgen]
    exact h.locked_iff
  · change generationCount (splice w.container offset bytes) + w.openBit = _
    rw [hgen]
    simp

end InnerState

namespace Reader

variable {source : Container} {dst copied : List UInt8} {chunk size : ℕ}

section

variable (hdst : dst.length = size) (hpos : 0 < source.length) (h : size ≤ source.length)
include hdst hpos h

/-- A copy from a source that is long enough goes on where it is. -/
theorem copyNext_eq : copyNext source dst copied chunk =
      copied ++ slice source copied.length (min chunk (size - copied.length)) := by
  have hslice : (source.getSliceAt 0 size).isNone = false := by
    rw [getSliceAt, if_neg (by omega), Option.isNone_some]
  rw [copyNext, hdst, hslice, if_neg Bool.false_ne_true]

/-- A copy that has all bytes so far has all bytes after the next chunk. -/
theorem copyNext_take {m : ℕ} (hm : m ≤ size) :
    copyNext source dst (source.take m) chunk = source.take (m + min chunk (size - m)) := by
  have hlen : (source.take m).length = m := by
    rw [length_take]
    omega
  rw [copyNext_eq hdst hpos h, hlen, slice, ← take_add]

theorem length_copyNext (hcopied : copied.length ≤ size) :
    (copyNext source dst copied chunk).length =
      copied.length + min chunk (size - copied.length) := by
  rw [copyNext_eq hdst hpos h, length_append, length_slice (by omega)]

end

theorem length_copyNext_le (hdst : dst.length = size) (hcopied : copied.length ≤ size) :
    (copyNext source dst copied chunk).length ≤ size := by
  unfold copyNext
  split
  · exact hdst.le
  · simp only [slice, length_append, length_take]
    omega

/-- Once the generation count is copied, the rest of the header does not change it. -/
theorem generationCount_copyNext (hdst : dst.length = 32) (hlen : 32 ≤ source.length)
    (h16 : 16 ≤ copied.length) :
    generationCount (copyNext source dst copied chunk) = generationCount copied := by
  rw [copyNext_eq hdst (by omega) hlen]
  exact generationCount_congr (by rw [length_append]; omega) h16
    (slice_append_left (by omega))

/-- The count is copied as it is in the source at that moment. -/
theorem generationCount_copyNext_now (hdst : dst.length = 32) (hlen : 32 ≤ source.length)
    (h8 : copied.length = 8) :
    generationCount (copyNext source dst copied 8) = generationCount source := by
  have hword : (slice source 8 8).length = 8 := length_slice (by omega)
  rw [copyNext_eq hdst (by omega) hlen, h8, Nat.min_eq_left (by omega)]
  refine generationCount_congr (by rw [length_append]; omega) (by omega) ?_
  have hright : slice (copied ++ slice source 8 8) copied.length (slice source 8 8).length =
      slice source 8 8 := slice_append_right _
  rwa [h8, hword] at hright

/-- A snapshot is returned only for an even generation count that is the one read before. -/
theorem afterReadAgain_ok {gen : BitVec 64} {buf header : List UInt8} {result : BackingBuffer}
    (h : afterReadAgain gen buf header = .ok result) :
    generationCount header = gen ∧ isLocked header = false ∧ result = .bytes buf := by
  unfold afterReadAgain at h
  split at h
  · cases h
  next newGeneration hsome =>
  split at h
  · cases h
  next hne =>
  cases h
  unfold headerGenerationCount at hsome
  split at hsome
  · cases hsome
  split at hsome
  · cases hsome
  split at hsome
  · next hvalid =>
    cases hsome
    simp only [Bool.and_eq_true, Bool.not_eq_true'] at hvalid
    exact ⟨not_not.mp hne, hvalid.2, rfl⟩
  · cases hsome

end Reader

namespace System

variable {s s' t : System} {visited before : List System} {gen : BitVec 64}
  {P Q : Container → Prop} {b : ℕ} {copied headerBytes : List UInt8} {mapped : Bool}

structure Since (t s : System) : Prop where
  begun_le : t.begun ≤ s.begun
  generation : s.vmo.generationCount + s.writer.openBit + BitVec.ofNat 64 (2 * t.begun) =
    t.vmo.generationCount + t.writer.openBit + BitVec.ofNat 64 (2 * s.begun)
  unchanged : t.Closed → s.begun = t.begun → s.writer = t.writer

theorem Since.advances (h : Since t s) (hadv : s.writer.Advances b s'.writer)
    (hbegun : s'.begun = s.begun + b) : Since t s' where
  begun_le := by
    have := h.begun_le
    omega
  generation := by
    have hold := h.generation
    have hnew := hadv.generation
    change s'.writer.container.generationCount + _ + _ = _
    rw [hnew, hbegun, Nat.mul_add, BitVec.ofNat_add, ← BitVec.add_assoc, ← hold]
    ac_rfl
  unchanged := by
    intro hclosed hsame
    have hle := h.begun_le
    have hwriter := h.unchanged hclosed (by omega)
    have hstill : s.writer.transactionCount = 0 := by
      rw [hwriter]
      exact hclosed
    rw [hadv.unchanged (by omega) hstill, hwriter]

/-- Two moments with the same even count have no transaction between them. -/
theorem Since.of_generationCount_eq (h : Since t s) (ht : t.writer.Ok) (hs : s.writer.Ok)
    (hgen : s.vmo.generationCount = t.vmo.generationCount) (heven : s.vmo.isLocked = false)
    (hfew : s.begun < 2 ^ 63) : t.Closed ∧ s.begun = t.begun := by
  have hsclosed : s.writer.transactionCount = 0 := by
    by_contra hopen
    exact Bool.false_ne_true (heven.symm.trans (hs.locked_iff.mpr hopen))
  have htclosed : t.writer.transactionCount = 0 := by
    by_contra hopen
    have hlocked : t.vmo.isLocked = true := ht.locked_iff.mpr hopen
    rw [isLocked_congr hgen.symm, heven] at hlocked
    exact Bool.false_ne_true hlocked
  refine ⟨htclosed, ?_⟩
  have hsum := h.generation
  rw [InnerState.openBit, InnerState.openBit, if_pos hsclosed, if_pos htclosed, hgen,
    BitVec.add_right_inj, ← BitVec.toNat_inj, BitVec.toNat_ofNat, BitVec.toNat_ofNat] at hsum
  have hle := h.begun_le
  omega

/-- The count `gen` was read at a moment of this read, and as long as the VMO has not changed since,
`P` holds of it. -/
def Observed (visited : List System) (s : System) (gen : BitVec 64) (P : Container → Prop) : Prop :=
  ∃ t ∈ visited, t.reader.isReading = true ∧ t.writer.Ok ∧ Since t s ∧
    t.vmo.generationCount = gen ∧ (t.Closed → s.begun = t.begun → P t.vmo)

theorem Observed.advances (h : Observed visited s gen P)
    (hadv : s.writer.Advances b s'.writer) (hbegun : s'.begun = s.begun + b) :
    Observed (s' :: visited) s' gen P := by
  obtain ⟨t, ht, hreading, hok, hsince, hgen, hP⟩ := h
  have hle := hsince.begun_le
  exact ⟨t, mem_cons_of_mem _ ht, hreading, hok, hsince.advances hadv hbegun, hgen,
    fun hclosed hsame => hP hclosed (by omega)⟩

/-- As long as the VMO has not changed, it is what it was. -/
theorem Observed.imp (h : Observed visited s gen P) (himp : P s.vmo → Q s.vmo) :
    Observed visited s gen Q := by
  obtain ⟨t, ht, hreading, hok, hsince, hgen, hP⟩ := h
  refine ⟨t, ht, hreading, hok, hsince, hgen, fun hclosed hsame => ?_⟩
  have hvmo : s.vmo = t.vmo := congrArg InnerState.container (hsince.unchanged hclosed hsame)
  rw [← hvmo]
  apply himp
  rw [hvmo]
  exact hP hclosed hsame

/-- The buffer holds as many bytes of the VMO as the header tells to read. -/
def IsSnapshot (c : Container) (buffer : List UInt8) : Prop :=
  ∃ vmoSize, snapshotSize c c.length = .ok vmoSize ∧ vmoSize ≤ c.length ∧ buffer = c.take vmoSize

/-- The buffer is the VMO at a moment of the read with no transaction open. -/
def Consistent (visited : List System) (buffer : List UInt8) : Prop :=
  ∃ t ∈ visited, t.reader.isReading = true ∧ t.Closed ∧ IsSnapshot t.vmo buffer

theorem Consistent.cons {buffer : List UInt8} (h : Consistent visited buffer) :
    Consistent (s :: visited) buffer := by
  obtain ⟨t, ht, hrest⟩ := h
  exact ⟨t, mem_cons_of_mem _ ht, hrest⟩

/-- A second header with the same even count confirms what was observed. -/
theorem Observed.consistent {buffer : List UInt8}
    (h : Observed visited s gen fun c => IsSnapshot c buffer) (hs : s.writer.Ok)
    (hgen : s.vmo.generationCount = gen) (heven : s.vmo.isLocked = false)
    (hfew : s.begun < 2 ^ 63) : Consistent visited buffer := by
  obtain ⟨t, ht, hreading, hok, hsince, htgen, hP⟩ := h
  obtain ⟨hclosed, hsame⟩ :=
    hsince.of_generationCount_eq hok hs (hgen.trans htgen.symm) heven hfew
  exact ⟨t, ht, hreading, hclosed, hP hclosed hsame⟩

def ReaderInv (visited : List System) (s : System) : Prop :=
  match s.reader with
  | .idle => True
  | .readHeader copied =>
    copied = [] ∨ copied = s.vmo.take 8 ∨
      (copied.length = 16 ∨ copied.length = 24) ∧
        Observed visited s (generationCount copied) fun c => copied = c.take copied.length
  | .readBuffer headerBytes gen vmoSize copied =>
    headerBytes.length = 32 ∧ copied.length ≤ vmoSize ∧
      Observed visited s gen fun c => snapshotSize c c.length = .ok vmoSize ∧
        vmoSize ≤ c.length ∧ copied = c.take copied.length
  | .readAgain headerBytes gen buffer copied =>
    headerBytes.length = 32 ∧
      ((copied = [] ∨ copied.length = 8) ∧ Observed visited s gen (fun c => IsSnapshot c buffer) ∨
        (copied.length = 16 ∨ copied.length = 24) ∧
          (s.begun < 2 ^ 63 → generationCount copied = gen → isLocked copied = false →
            Consistent visited buffer))
  | .done result =>
    (∀ buffer, result = .ok (.bytes buffer) → s.begun < 2 ^ 63 → Consistent visited buffer) ∧
      (result = .ok .container → ∃ t ∈ visited, t.vmo.generationCount = Constants.vmoFrozen)

structure Inv (visited : List System) (s : System) : Prop where
  writer : s.writer.Ok
  reader : ReaderInv visited s

/-- A step of the writer keeps what the reader knows. -/
theorem ReaderInv.advances (h : ReaderInv visited s)
    (hadv : s.writer.Advances b s'.writer) (hreader : s'.reader = s.reader)
    (hreading : s.reader.isReading = true → s'.begun = s.begun + b)
    (hquiet : s.reader.isReading = false → s'.begun = s.begun) :
    ReaderInv (s' :: visited) s' := by
  unfold ReaderInv at h ⊢
  rw [hreader]
  cases hr : s.reader with
  | idle => trivial
  | readHeader copied =>
    rw [hr] at h
    have hbegun := hreading (by rw [hr]; rfl)
    rcases h with hnil | hword | ⟨hlen, hobs⟩
    · exact .inl hnil
    · refine .inr (.inl (hword.trans ?_))
      exact hadv.first_word.symm
    · exact .inr (.inr ⟨hlen, hobs.advances hadv hbegun⟩)
  | readBuffer headerBytes gen vmoSize copied =>
    rw [hr] at h
    have hbegun := hreading (by rw [hr]; rfl)
    exact ⟨h.1, h.2.1, h.2.2.advances hadv hbegun⟩
  | readAgain headerBytes gen buffer copied =>
    rw [hr] at h
    have hbegun := hreading (by rw [hr]; rfl)
    rcases h with ⟨hheader, ⟨hlen, hobs⟩ | ⟨hlen, hcons⟩⟩
    · exact ⟨hheader, .inl ⟨hlen, hobs.advances hadv hbegun⟩⟩
    · exact ⟨hheader, .inr ⟨hlen, fun hfew hgen heven =>
        (hcons (by omega) hgen heven).cons⟩⟩
  | done result =>
    rw [hr] at h
    have hbegun := hquiet (by rw [hr]; rfl)
    refine ⟨fun buffer hok hfew => (h.1 buffer hok (by omega)).cons, fun hok => ?_⟩
    obtain ⟨t, ht, hfrozen⟩ := h.2 hok
    exact ⟨t, mem_cons_of_mem _ ht, hfrozen⟩

def withReader (s : System) (r : Reader) : System := ⟨s.writer, r, s.begun⟩

theorem Observed.withReader {r : Reader} (h : Observed visited s gen P) (hok : s.writer.Ok) :
    Observed (s.withReader r :: visited) (s.withReader r) gen P :=
  h.advances (InnerState.Advances.refl hok) rfl

/-- The count is observed at the moment it is read. -/
theorem observed_now {r : Reader} (hok : s.writer.Ok) (hs : s ∈ visited)
    (hreading : s.reader.isReading = true) (hP : P s.vmo) :
    Observed (s.withReader r :: visited) (s.withReader r) s.vmo.generationCount P := by
  have hsince : Since s s := ⟨Nat.le_refl _, rfl, fun _ _ => rfl⟩
  exact Observed.withReader ⟨s, hs, hreading, hok, hsince, rfl, fun _ _ => hP⟩ hok

/-- An observed part of the header with the next word. -/
theorem Observed.copyHeader (hok : s.writer.Ok) (h16 : 16 ≤ copied.length)
    (h24 : copied.length ≤ 24)
    (h : Observed visited s (generationCount copied) fun c => copied = c.take copied.length) :
    Observed visited s
      (generationCount (copyNext s.vmo (replicate 32 0) copied 8))
      fun c => copyNext s.vmo (replicate 32 0) copied 8 =
        c.take (copied.length + 8) := by
  have hfits : 32 ≤ s.vmo.length := hok.header_fits
  rw [generationCount_copyNext length_replicate hfits h16]
  apply h.imp
  intro hcopied
  have hnext : copyNext s.vmo (replicate 32 0) (s.vmo.take copied.length) 8 =
      s.vmo.take (copied.length + min 8 (32 - copied.length)) :=
    copyNext_take length_replicate (by omega) hfits (by omega)
  rwa [← hcopied, Nat.min_eq_left (by omega)] at hnext

/-- The whole header is read: what it tells about the VMO. -/
theorem readerInv_afterReadHeader
    (hok : s.writer.Ok) (hlen : headerBytes.length = 32)
    (hobs : Observed visited s (generationCount headerBytes) fun c => headerBytes = c.take 32) :
    ReaderInv (s.withReader (afterReadHeader mapped s.vmo headerBytes) :: visited)
      (s.withReader (afterReadHeader mapped s.vmo headerBytes)) := by
  obtain ⟨t, ht, -, -, -, hgen, -⟩ := id hobs
  unfold afterReadHeader
  split
  · exact ⟨nofun, nofun⟩
  split
  · next hfrozen =>
    rw [Bool.and_eq_true, beq_iff_eq] at hfrozen
    exact ⟨nofun, fun _ =>
      ⟨t, mem_cons_of_mem _ ht, hgen.trans hfrozen.1⟩⟩
  split
  · exact ⟨nofun, nofun⟩
  · next vmoSize hsize =>
    refine ⟨hlen, Nat.zero_le _, Observed.withReader (hobs.imp ?_) hok⟩
    intro hheader
    have hfits : 32 ≤ s.vmo.length := hok.header_fits
    rw [hheader, snapshotSize_take hfits] at hsize
    exact ⟨hsize, hok.size_fits.snapshotSize_le hsize, rfl⟩

section

variable (hinv : Inv (s :: before) s)
include hinv

theorem readerInv_readHeader (hr : s.reader = .readHeader copied) :
    ReaderInv (s.withReader (s.reader.step mapped s.vmo) :: s :: before)
      (s.withReader (s.reader.step mapped s.vmo)) := by
  obtain ⟨hok, hread⟩ := hinv
  have hfits : 32 ≤ s.vmo.length := hok.header_fits
  have hreading : s.reader.isReading = true := by rw [hr]; rfl
  unfold ReaderInv at hread
  rw [hr] at hread ⊢
  simp only [step]
  rcases hread with rfl | rfl | ⟨hlen, hobs⟩
  · -- the first word
    have hnext : copyNext s.vmo (replicate 32 0) [] 8 = s.vmo.take 8 :=
      copyNext_take (m := 0) length_replicate (by omega) hfits (by omega)
    rw [hnext, if_pos (by rw [length_take]; omega)]
    exact .inr (.inl rfl)
  · -- the generation count is read now
    have hnext : copyNext s.vmo (replicate 32 0) (s.vmo.take 8) 8 = s.vmo.take 16 :=
      copyNext_take length_replicate (by omega) hfits (by omega)
    have hlen : (s.vmo.take 16).length = 16 := by
      rw [length_take]
      omega
    have hgen : generationCount (s.vmo.take 16) = s.vmo.generationCount :=
      generationCount_congr hlen.ge (by omega) (slice_take (by omega))
    rw [hnext, if_pos (by omega)]
    refine .inr (.inr ⟨.inl hlen, ?_⟩)
    rw [hgen, hlen]
    exact observed_now hok (mem_cons_self ..) hreading rfl
  · have hnext := Observed.copyHeader hok (by omega) (by omega) hobs
    have hlength : (copyNext s.vmo (replicate 32 0) copied 8).length =
        copied.length + 8 := by
      rw [length_copyNext length_replicate (by omega) hfits (by omega),
        Nat.min_eq_left (by omega)]
    rcases hlen with h16 | h24
    · rw [if_pos (by omega)]
      refine .inr (.inr ⟨.inr (by omega), ?_⟩)
      rw [← hlength] at hnext
      exact hnext.withReader hok
    · rw [if_neg (by omega)]
      rw [h24] at hnext
      exact readerInv_afterReadHeader hok (by omega) hnext

theorem readerInv_readBuffer {vmoSize : ℕ}
    (hr : s.reader = .readBuffer headerBytes gen vmoSize copied) :
    ReaderInv (s.withReader (s.reader.step mapped s.vmo) :: s :: before)
      (s.withReader (s.reader.step mapped s.vmo)) := by
  obtain ⟨hok, hread⟩ := hinv
  have hfits : 32 ≤ s.vmo.length := hok.header_fits
  unfold ReaderInv at hread
  rw [hr] at hread ⊢
  obtain ⟨hheader, hlen, hobs⟩ := hread
  have hle : (copyNext s.vmo (replicate vmoSize 0) copied 1).length ≤ vmoSize :=
    length_copyNext_le length_replicate hlen
  have hnext : Observed (s :: before) s gen fun c => snapshotSize c c.length = .ok vmoSize ∧
      vmoSize ≤ c.length ∧ copyNext s.vmo (replicate vmoSize 0) copied 1 =
        c.take (copyNext s.vmo (replicate vmoSize 0) copied 1).length := by
    apply hobs.imp
    rintro ⟨hsize, hvmo, hcopied⟩
    refine ⟨hsize, hvmo, ?_⟩
    have htake : copyNext s.vmo (replicate vmoSize 0) (s.vmo.take copied.length) 1 =
        s.vmo.take (copied.length + min 1 (vmoSize - copied.length)) :=
      copyNext_take length_replicate (by omega) hvmo hlen
    rw [← hcopied] at htake
    rw [length_copyNext length_replicate (by omega) hvmo hlen]
    exact htake
  simp only [step]
  split
  · exact ⟨hheader, hle, hnext.withReader hok⟩
  · next hdone =>
    have hall : (copyNext s.vmo (replicate vmoSize 0) copied 1).length = vmoSize := by
      omega
    refine ⟨hheader, .inl ⟨.inl rfl, Observed.withReader (hnext.imp ?_) hok⟩⟩
    rintro ⟨hsize, hvmo, hcopied⟩
    rw [hall] at hcopied
    exact ⟨vmoSize, hsize, hvmo, hcopied⟩

theorem readerInv_readAgain {buf : List UInt8}
    (hr : s.reader = .readAgain headerBytes gen buf copied) :
    ReaderInv (s.withReader (s.reader.step mapped s.vmo) :: s :: before)
      (s.withReader (s.reader.step mapped s.vmo)) := by
  obtain ⟨hok, hread⟩ := hinv
  have hfits : 32 ≤ s.vmo.length := hok.header_fits
  unfold ReaderInv at hread
  rw [hr] at hread ⊢
  obtain ⟨hheader, hread⟩ := hread
  have hlength : copied.length ≤ 24 → (copyNext s.vmo headerBytes copied 8).length =
      copied.length + 8 := by
    intro h24
    rw [length_copyNext hheader (by omega) hfits (by omega), Nat.min_eq_left (by omega)]
  simp only [step]
  rcases hread with ⟨rfl | h8, hobs⟩ | ⟨hlen, hcons⟩
  · rw [if_pos (by rw [hlength (Nat.zero_le _), length_nil]; omega)]
    exact ⟨hheader, .inl ⟨.inr (hlength (Nat.zero_le _)), hobs.withReader hok⟩⟩
  · -- the second generation count is read now
    have hgen := generationCount_copyNext_now hheader hfits h8
    rw [if_pos (by omega)]
    refine ⟨hheader, .inr ⟨.inl (by rw [hlength (by omega), h8]), fun hfew hsame heven => ?_⟩⟩
    rw [hgen] at hsame
    rw [isLocked_congr hgen] at heven
    exact (hobs.consistent hok hsame heven hfew).cons
  · have hgen : generationCount (copyNext s.vmo headerBytes copied 8) =
        generationCount copied := generationCount_copyNext hheader hfits (by omega)
    rw [← hgen, ← isLocked_congr hgen] at hcons
    rcases hlen with h16 | h24
    · rw [if_pos (by omega)]
      exact ⟨hheader, .inr ⟨.inr (by rw [hlength (by omega), h16]),
        fun hfew hsame heven => (hcons hfew hsame heven).cons⟩⟩
    · rw [if_neg (by omega)]
      constructor
      · intro buffer hresult hfew
        obtain ⟨hsame, heven, hbuf⟩ := afterReadAgain_ok hresult
        cases hbuf
        exact (hcons hfew hsame heven).cons
      · intro hresult
        obtain ⟨-, -, hbuf⟩ := afterReadAgain_ok hresult
        cases hbuf

/-- Every step keeps the invariant. -/
theorem Inv.step (hstep : Step s s') :
    Inv (s' :: s :: before) s' := by
  cases hstep with
  | lockHeader hlock =>
    have hadv := hinv.writer.lockHeader hlock
    refine ⟨hadv.ok, hinv.reader.advances hadv rfl (fun hreading => ?_) (fun hquiet => ?_)⟩
    · by_cases hclosed : s.writer.transactionCount = 0
      · rw [if_pos ⟨hclosed, hreading⟩, if_pos hclosed]
      · rw [if_neg fun h => hclosed h.1, if_neg hclosed, Nat.add_zero]
    · rw [if_neg]
      rintro ⟨-, hreading⟩
      rw [hquiet] at hreading
      exact Bool.false_ne_true hreading
  | unlockHeader hunlock =>
    have hadv := hinv.writer.unlockHeader hunlock
    exact ⟨hadv.ok, hinv.reader.advances hadv rfl (fun _ => rfl) (fun _ => rfl)⟩
  | store hopen hoffset hsize =>
    have hadv := hinv.writer.store hopen hoffset hsize
    exact ⟨hadv.ok, hinv.reader.advances hadv rfl (fun _ => rfl) (fun _ => rfl)⟩
  | startRead _ => exact ⟨hinv.writer, .inl rfl⟩
  | read mapped hreading =>
    refine ⟨hinv.writer, ?_⟩
    cases hr : s.reader with
    | idle => rw [hr] at hreading; cases hreading
    | readHeader copied => exact hr ▸ readerInv_readHeader hinv hr
    | readBuffer headerBytes gen vmoSize copied => exact hr ▸ readerInv_readBuffer hinv hr
    | readAgain headerBytes gen buffer copied => exact hr ▸ readerInv_readAgain hinv hr
    | done result => rw [hr] at hreading; cases hreading

end

/-- The invariant holds along every run. -/
theorem Run.inv (hc : NewVmo c) (hrun : Run c visited) :
    ∃ s before, visited = s :: before ∧ Inv (s :: before) s := by
  induction hrun with
  | init =>
    refine ⟨System.init c, [], rfl, ⟨⟨hc.header_fits, ?_, hc.size_fits⟩, trivial⟩⟩
    change c.isLocked = true ↔ 0 ≠ 0
    rw [hc.unlocked]
    simp
  | step _ hstep ih =>
    obtain ⟨s, before, hvisited, hinv⟩ := ih
    cases hvisited
    exact ⟨_, _, rfl, hinv.step hstep⟩

/-- If a read of a VMO that is never frozen returns a snapshot, and fewer than `2 ^ 63` transactions
were opened during the read, then the snapshot holds the first bytes of the VMO, as many as its
header tells, at one moment of the read at which no transaction was open. -/
theorem snapshot_consistent (c : Container) (hc : NewVmo c) (s : System) (before : List System)
    (hrun : Run c (s :: before)) (snapshot : BackingBuffer)
    (hdone : s.reader = .done (.ok snapshot))
    (hfrozen : ∀ t ∈ s :: before, t.vmo.generationCount ≠ Constants.vmoFrozen)
    (hfew : s.begun < 2 ^ 63) :
    ∃ t ∈ s :: before, t.reader.isReading = true ∧ t.Closed ∧
      ∃ vmoSize, snapshotSize t.vmo t.vmo.length = .ok vmoSize ∧ vmoSize ≤ t.vmo.length ∧
        snapshot = .bytes (t.vmo.take vmoSize) := by
  obtain ⟨s, before, hvisited, hinv⟩ := hrun.inv hc
  cases hvisited
  have hread := hinv.reader
  unfold ReaderInv at hread
  rw [hdone] at hread
  cases snapshot with
  | container =>
    obtain ⟨t, ht, hgen⟩ := hread.2 rfl
    exact absurd hgen (hfrozen t ht)
  | bytes buffer =>
    obtain ⟨t, ht, hreading, hclosed, vmoSize, hsize, hle, hbuffer⟩ := hread.1 buffer rfl hfew
    exact ⟨t, ht, hreading, hclosed, vmoSize, hsize, hle, congrArg _ hbuffer⟩

/-- A `HEADER` block of order 1 and version 2 that tells to read four bytes. -/
def headerOnly : Container :=
  [1, 2, 2, 0, 0x49, 0x4e, 0x53, 0x50, 0, 0, 0, 0, 0, 0, 0, 0] ++ [4, 0, 0, 0] ++
    List.replicate 12 0

theorem headerOnly_newVmo : NewVmo headerOnly where
  header_fits := by decide
  unlocked := by decide
  size_fits := by
    intro size hsize
    cases hsize
    decide

/-- A read after one transaction returns the four bytes. -/
theorem snapshot_consistent_after_transaction : ∃ s before, Run headerOnly (s :: before) ∧
    s.reader = .done (.ok (.bytes [1, 2, 2, 0])) ∧
      ∃ t ∈ s :: before, t.reader.isReading = true ∧ t.Closed ∧
        ∃ vmoSize, snapshotSize t.vmo t.vmo.length = .ok vmoSize ∧ vmoSize ≤ t.vmo.length ∧
          BackingBuffer.bytes [1, 2, 2, 0] = .bytes (t.vmo.take vmoSize) := by
  have hstart := Run.step (.step (.step (.init (c := headerOnly)) (.lockHeader rfl))
    (.unlockHeader rfl)) (.startRead rfl)
  have hheader := Run.step (.step (.step (.step hstart (.read true rfl)) (.read true rfl))
    (.read true rfl)) (.read true rfl)
  have hbuffer := Run.step (.step (.step (.step hheader (.read true rfl)) (.read true rfl))
    (.read true rfl)) (.read true rfl)
  have hagain := Run.step (.step (.step (.step hbuffer (.read true rfl)) (.read true rfl))
    (.read true rfl)) (.read true rfl)
  exact ⟨_, _, hagain, rfl,
    snapshot_consistent headerOnly headerOnly_newVmo _ _ hagain _ rfl (by decide) (by decide)⟩

end System

end Smos.Inspect
