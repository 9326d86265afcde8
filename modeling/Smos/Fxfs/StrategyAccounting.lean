import Mathlib
import Smos.Fxfs.Strategy

/-!
What the best-fit strategy tracks.  Both indexes describe one set of disjoint ranges; freeing adds
bytes to it, unless a bucket overflows, and nothing but freeing does.
-/
namespace Smos.Fxfs.Allocator.BestFit

open Lib.OrderedMap Option Set
open List hiding getElem?_insert

variable {s s' s'' : BestFit} {range r : Range} {B C : Set ℕ} {l : List Range} {x : ℕ}

def Tracks (s : BestFit) (range : Range) : Prop := s.byEnd[range.stop]? = some range.start

def bytes (s : BestFit) : Set ℕ := {x | ∃ range, s.Tracks range ∧ range.start ≤ x ∧ x < range.stop}

/-- Both indexes describe the same disjoint, non-empty ranges of at most the maximum size, and a
bucket is empty only if it carries a marker. -/
structure Inv (s : BestFit) : Prop where
  nonempty : ∀ {r}, s.Tracks r → r.start < r.stop
  disjoint : ∀ {r t}, s.Tracks r → s.Tracks t → r = t ∨ r.stop ≤ t.start ∨ t.stop ≤ r.start
  indexed : ∀ {len start}, (∃ bucket, s.ranges[len]? = some bucket ∧ start ∈ bucket.offsets) ↔
    s.Tracks ⟨start, start + len⟩
  key : ∀ {len bucket}, s.ranges[len]? = some bucket → 0 < len ∧ len ≤ defaultMaxExtentSize ∧
    (bucket.offsets = ∅ → bucket.overflow = true)

def Linked (s : BestFit) : Prop :=
  ∀ len start, (∃ bucket, s.ranges[len]? = some bucket ∧ start ∈ bucket.offsets) ↔
    s.Tracks ⟨start, start + len⟩

theorem Inv.linked (h : s.Inv) : s.Linked := fun _ _ => h.indexed

theorem inv_empty : Inv {} :=
  ⟨by simp [Tracks], by simp [Tracks], by simp [Tracks], by simp⟩

theorem mem_bytes :
    x ∈ s.bytes ↔ ∃ range, s.Tracks range ∧ range.start ≤ x ∧ x < range.stop := Iff.rfl

theorem bytes_empty : ({} : BestFit).bytes = ∅ := by
  ext x
  simp [mem_bytes, Tracks]

theorem Tracks.subset (h : s.Tracks range) : Set.Ico range.start range.stop ⊆ s.bytes :=
  fun _ hx => ⟨range, h, hx⟩

theorem Tracks.eq_of_stop {t : Range} (hr : s.Tracks r) (ht : s.Tracks t)
    (h : r.stop = t.stop) : r = t := by
  obtain ⟨start, stop⟩ := r
  obtain ⟨start', stop'⟩ := t
  obtain rfl : stop = stop' := h
  have hstart : start = start' := some.inj (hr.symm.trans ht)
  rw [hstart]

/-- Every tracked range is in its bucket. -/
theorem Inv.exists_bucket (h : s.Inv) (hr : s.Tracks range) :
    ∃ bucket, s.ranges[range.stop - range.start]? = some bucket ∧ range.start ∈ bucket.offsets := by
  have hlt := h.nonempty hr
  apply h.indexed.mpr
  rwa [Nat.add_sub_cancel' hlt.le]

section Drop

variable {len start : ℕ} {bucket : SizeBucket}

theorem dropOffset_tracks (h : s.Linked) (hb : s.ranges[len]? = some bucket)
    (hs : start ∈ bucket.offsets) (r : Range) :
    (s.dropOffset len bucket start).Tracks r ↔ s.Tracks r ∧ r ≠ ⟨start, start + len⟩ := by
  have hdrop : s.Tracks ⟨start, start + len⟩ := (h len start).mp ⟨bucket, hb, hs⟩
  unfold Tracks dropOffset
  rw [getElem?_erase]
  by_cases hstop : start + len = r.stop
  · rw [if_pos hstop]
    refine ⟨nofun, fun ⟨hr, hne⟩ => absurd ?_ hne⟩
    exact Tracks.eq_of_stop hr hdrop hstop.symm
  · rw [if_neg hstop]
    refine ⟨fun hr => ⟨hr, fun heq => hstop (by rw [heq])⟩, fun hr => hr.1⟩

theorem dropOffset_ranges (s : BestFit) (len : ℕ) (bucket : SizeBucket) (start len' : ℕ) :
    (s.dropOffset len bucket start).ranges[len']? =
      if len = len' then
        if bucket.offsets.erase start = ∅ ∧ bucket.overflow = false then none
        else some { bucket with offsets := bucket.offsets.erase start }
      else s.ranges[len']? := by
  dsimp only [dropOffset]
  by_cases hempty : bucket.offsets.erase start = ∅ ∧ bucket.overflow = false
  · rw [if_pos hempty, if_pos hempty, getElem?_erase]
  · rw [if_neg hempty, if_neg hempty, getElem?_insert]

theorem dropOffset_linked (h : s.Linked) (hb : s.ranges[len]? = some bucket)
    (hs : start ∈ bucket.offsets) : (s.dropOffset len bucket start).Linked := by
  intro len' start'
  rw [dropOffset_tracks h hb hs, ← h, dropOffset_ranges]
  by_cases hlen : len = len'
  · subst hlen
    have hrest : start' ∈ bucket.offsets.erase start ↔
        (∃ b, s.ranges[len]? = some b ∧ start' ∈ b.offsets) ∧
          (⟨start', start' + len⟩ : Range) ≠ ⟨start, start + len⟩ := by
      simp [hb, and_comm]
    rw [if_pos rfl, ← hrest]
    split_ifs with hempty
    · simp [hempty.1]
    · simp
  · rw [if_neg hlen]
    refine ⟨fun h => ⟨h, fun heq => hlen ?_⟩, fun h => h.1⟩
    simp only [Range.mk.injEq] at heq
    omega

theorem dropOffset_inv (h : s.Inv) (hb : s.ranges[len]? = some bucket)
    (hs : start ∈ bucket.offsets) : (s.dropOffset len bucket start).Inv := by
  have htracks := dropOffset_tracks h.linked hb hs
  refine ⟨?_, ?_, dropOffset_linked h.linked hb hs _ _, ?_⟩
  · intro r hr
    exact h.nonempty ((htracks r).mp hr).1
  · intro r t hr ht
    exact h.disjoint ((htracks r).mp hr).1 ((htracks t).mp ht).1
  · intro len' bucket' hb'
    rw [dropOffset_ranges] at hb'
    split_ifs at hb' with hlen hempty
    · subst hlen
      cases hb'
      refine ⟨(h.key hb).1, (h.key hb).2.1, fun hnil => ?_⟩
      by_contra hoverflow
      exact hempty ⟨hnil, by simpa using hoverflow⟩
    · exact h.key hb'

end Drop

/-- Removing a tracked range succeeds and takes its bytes away. -/
theorem removeRange_spec (h : s.Inv) (hr : s.Tracks range) :
    ∃ s', s.removeRange range = some s' ∧ s'.Inv ∧ s'.overflows = s.overflows ∧
      ∀ r, s'.Tracks r ↔ s.Tracks r ∧ r ≠ range := by
  obtain ⟨bucket, hb, hs⟩ := h.exists_bucket hr
  have hlt := h.nonempty hr
  refine ⟨s.dropOffset (range.stop - range.start) bucket range.start, ?_,
    dropOffset_inv h hb hs, rfl, ?_⟩
  · have hr' : s.byEnd[range.stop]? = some range.start := hr
    simp [removeRange, hb, hr']
  · intro r
    rw [dropOffset_tracks h.linked hb hs, Nat.add_sub_cancel' hlt.le]

/-- Only what the two maps return matters. -/
theorem Inv.congr (h : s.Inv) (hranges : ∀ len : ℕ, s'.ranges[len]? = s.ranges[len]?)
    (hbyEnd : ∀ stop : ℕ, s'.byEnd[stop]? = s.byEnd[stop]?) : s'.Inv := by
  have htracks : ∀ r, s'.Tracks r ↔ s.Tracks r := fun r => by rw [Tracks, Tracks, hbyEnd]
  refine ⟨?_, ?_, ?_, ?_⟩
  · intro r hr
    exact h.nonempty ((htracks r).mp hr)
  · intro r t hr ht
    exact h.disjoint ((htracks r).mp hr) ((htracks t).mp ht)
  · intro len start
    rw [htracks, ← h.indexed, hranges]
  · intro len bucket hb
    rw [hranges] at hb
    exact h.key hb

theorem bytes_of_added (h : ∀ r, s'.Tracks r ↔ s.Tracks r ∨ r = range) :
    s'.bytes = s.bytes ∪ Ico range.start range.stop := by
  ext x
  simp only [mem_bytes, h, mem_union, mem_Ico]
  constructor
  · rintro ⟨r, hr | rfl, hx⟩
    · exact .inl ⟨r, hr, hx⟩
    · exact .inr hx
  · rintro (⟨r, hr, hx⟩ | hx)
    · exact ⟨r, .inl hr, hx⟩
    · exact ⟨range, .inr rfl, hx⟩

theorem bytes_of_removed (hinv : s.Inv) (hr : s.Tracks range)
    (h : ∀ r, s'.Tracks r ↔ s.Tracks r ∧ r ≠ range) :
    s'.bytes = s.bytes \ Ico range.start range.stop := by
  ext x
  simp only [mem_bytes, h, mem_sdiff, mem_Ico]
  constructor
  · rintro ⟨r, ⟨hr', hne⟩, hx⟩
    refine ⟨⟨r, hr', hx⟩, ?_⟩
    rcases hinv.disjoint hr' hr with heq | hle | hle
    · exact absurd heq hne
    · omega
    · omega
  · rintro ⟨⟨r, hr', hx⟩, hnot⟩
    exact ⟨r, ⟨hr', fun heq => hnot (heq ▸ hx)⟩, hx⟩

/-- What freeing bytes does: the bytes are tracked afterwards, unless a bucket has overflowed. -/
structure Freed (s s' : BestFit) (B : Set ℕ) : Prop where
  inv : s'.Inv
  subset : s'.bytes ⊆ s.bytes ∪ B
  overflows_le : s.overflows ≤ s'.overflows
  bytes_eq : s'.overflows = s.overflows → s'.bytes = s.bytes ∪ B

theorem Freed.trans (h : Freed s s' B) (h' : Freed s' s'' C) : Freed s s'' (B ∪ C) := by
  refine ⟨h'.inv, ?_, h.overflows_le.trans h'.overflows_le, ?_⟩
  · rw [← union_assoc]
    exact h'.subset.trans (union_subset_union_left C h.subset)
  · intro heq
    have hle := h.overflows_le
    have hle' := h'.overflows_le
    rw [h'.bytes_eq (by omega), h.bytes_eq (by omega), union_assoc]

theorem Freed.refl (h : s.Inv) : Freed s s ∅ :=
  ⟨h, by simp, le_rfl, by simp⟩

theorem Freed.disjoint (h : Freed s s' B) (hs : Disjoint s.bytes C) (hB : Disjoint B C) :
    Disjoint s'.bytes C :=
  (disjoint_union_left.mpr ⟨hs, hB⟩).mono_left h.subset

/-- Bytes that were tracked may be taken out first and freed together with the others. -/
theorem Freed.of_removed (h : Freed s' s'' (B ∪ C)) (hbytes : s'.bytes = s.bytes \ C)
    (hover : s'.overflows = s.overflows) (hC : C ⊆ s.bytes) : Freed s s'' B := by
  have hunion : s'.bytes ∪ (B ∪ C) = s.bytes ∪ B := by
    rw [hbytes, union_comm B C, ← union_assoc, sdiff_union_of_subset hC]
  refine ⟨h.inv, hunion ▸ h.subset, hover ▸ h.overflows_le, ?_⟩
  intro heq
  rw [← hunion]
  exact h.bytes_eq (heq.trans hover.symm)

section Insert

variable {overflow : Bool}

def addRange (s : BestFit) (range : Range) (overflow : Bool) : BestFit :=
  { s with
    ranges := s.ranges.insert (range.stop - range.start)
      { overflow := overflow
        offsets := insert range.start (s.ranges[range.stop - range.start]?.getD {}).offsets }
    byEnd := s.byEnd.insert range.stop range.start }

theorem mem_offsets {len start : ℕ} : start ∈ (s.ranges[len]?.getD {}).offsets ↔
    ∃ bucket, s.ranges[len]? = some bucket ∧ start ∈ bucket.offsets := by
  cases s.ranges[len]? <;> simp

/-- No tracked range ends where a range of other bytes ends. -/
theorem not_tracks_stop (h : s.Inv) (hne : range.start < range.stop)
    (hdisj : Disjoint s.bytes (Ico range.start range.stop)) :
    s.byEnd[range.stop]? = none := by
  by_contra hsome
  obtain ⟨start, hstart⟩ := ne_none_iff_exists'.mp hsome
  have ht : s.Tracks ⟨start, range.stop⟩ := hstart
  have hlt : start < range.stop := h.nonempty ht
  have hmem : range.stop - 1 ∈ s.bytes := ⟨_, ht, by dsimp only; omega, by dsimp only; omega⟩
  exact disjoint_left.mp hdisj hmem (mem_Ico.mpr (by omega))

theorem addRange_tracks (overflow : Bool) (hstop : s.byEnd[range.stop]? = none) (r : Range) :
    (s.addRange range overflow).Tracks r ↔ s.Tracks r ∨ r = range := by
  unfold Tracks addRange
  rw [getElem?_insert]
  by_cases h : range.stop = r.stop
  · rw [if_pos h, ← h, hstop]
    obtain ⟨start, stop⟩ := r
    obtain rfl : range.stop = stop := h
    simp only [some.injEq, reduceCtorEq, false_or]
    exact ⟨fun h => by rw [← h], fun h => by rw [← h]⟩
  · rw [if_neg h]
    exact ⟨.inl, fun hr => hr.resolve_right fun heq => h (by rw [heq])⟩

theorem addRange_linked (h : s.Linked) (hle : range.start ≤ range.stop)
    (hstop : s.byEnd[range.stop]? = none) : (s.addRange range overflow).Linked := by
  intro len start
  rw [addRange_tracks overflow hstop, ← h]
  dsimp only [addRange]
  rw [getElem?_insert]
  by_cases hlen : range.stop - range.start = len
  · rw [if_pos hlen]
    subst hlen
    simp only [some.injEq, exists_eq_left', Finset.mem_insert]
    rw [mem_offsets, or_comm]
    refine or_congr_right ⟨fun heq => ?_, fun heq => ?_⟩
    · rw [heq, Nat.add_sub_cancel' hle]
    · rw [← heq]
  · rw [if_neg hlen]
    refine ⟨.inl, fun hr => hr.resolve_right fun heq => hlen ?_⟩
    rw [← heq, Nat.add_sub_cancel_left]

theorem addRange_inv (h : s.Inv) (hne : range.start < range.stop)
    (hmax : range.stop - range.start ≤ defaultMaxExtentSize)
    (hdisj : Disjoint s.bytes (Ico range.start range.stop)) :
    (s.addRange range overflow).Inv := by
  have hstop := not_tracks_stop h hne hdisj
  have htracks := addRange_tracks overflow hstop
  have hapart : ∀ r, s.Tracks r → r.stop ≤ range.start ∨ range.stop ≤ r.start := by
    intro r hr
    by_contra hover
    have hlt := h.nonempty hr
    have hmem : max r.start range.start ∈ s.bytes := ⟨r, hr, by omega⟩
    exact disjoint_left.mp hdisj hmem (mem_Ico.mpr (by omega))
  refine ⟨?_, ?_, addRange_linked h.linked hne.le hstop _ _, ?_⟩
  · intro r hr
    rcases (htracks r).mp hr with hr | rfl
    · exact h.nonempty hr
    · exact hne
  · intro r t hr ht
    rcases (htracks r).mp hr with hr' | hr'
    · rcases (htracks t).mp ht with ht' | ht'
      · exact h.disjoint hr' ht'
      · exact .inr (ht' ▸ hapart r hr')
    · rcases (htracks t).mp ht with ht' | ht'
      · exact .inr (hr' ▸ (hapart t ht').symm)
      · exact .inl (hr'.trans ht'.symm)
  · intro len bucket hb
    dsimp only [addRange] at hb
    rw [getElem?_insert] at hb
    split_ifs at hb with hlen
    · cases hb
      refine ⟨by omega, by omega, fun hempty => ?_⟩
      exact absurd hempty (Finset.insert_ne_empty _ _)
    · exact h.key hb

theorem exists_maxEntries {len : ℕ} (hpos : 0 < len) : ∃ max, maxEntries len = some max := by
  unfold maxEntries
  split_ifs with hlt hzero
  · omega
  · exact ⟨_, rfl⟩
  · exact ⟨_, rfl⟩

/-- A range with an end of its own is added.  If its bucket is full then, that is marked and loses
its last range. -/
theorem insertRange_linked (h : s.Linked) (range : Range) (hne : range.start < range.stop)
    (hstop : s.byEnd[range.stop]? = none) :
    ∃ s', s.insertRange range = some (.ok (), s') ∧
      ((∃ overflow, s' = s.addRange range overflow) ∨
      ∃ bucket, ∃ last ∈ bucket.offsets, s'.overflows = s.overflows + 1 ∧
        (s.addRange range true).ranges[range.stop - range.start]? = some bucket ∧
        let dropped := (s.addRange range true).dropOffset (range.stop - range.start) bucket last
        (∀ len : ℕ, s'.ranges[len]? = dropped.ranges[len]?) ∧ s'.byEnd = dropped.byEnd) := by
  have hnot : range.start ∉ (s.ranges[range.stop - range.start]?.getD {}).offsets := by
    rw [mem_offsets, h, Nat.add_sub_cancel' hne.le]
    intro ht
    exact absurd (hstop.symm.trans ht) (by simp)
  obtain ⟨max, hentries⟩ := exists_maxEntries (Nat.sub_pos_of_lt hne)
  by_cases hfull : max < (insert range.start
      (s.ranges[range.stop - range.start]?.getD {}).offsets).card
  swap
  · refine ⟨s.addRange range (s.ranges[range.stop - range.start]?.getD {}).overflow, ?_,
      .inl ⟨_, rfl⟩⟩
    simp only [insertRange, if_neg hnot, hstop, hentries, bind_eq_bind, bind_some,
      if_neg hfull]
    rfl
  · let full : SizeBucket := ⟨true,
      insert range.start (s.ranges[range.stop - range.start]?.getD {}).offsets⟩
    have hnonempty : full.offsets.Nonempty := Finset.insert_nonempty _ _
    have hget : (s.addRange range true).ranges[range.stop - range.start]? = some full := by
      simp [addRange, full]
    have hlast := Finset.max'_mem full.offsets hnonempty
    have htracks : (s.byEnd.insert range.stop range.start)[full.offsets.max' hnonempty +
        (range.stop - range.start)]? = some (full.offsets.max' hnonempty) :=
      (addRange_linked h hne.le hstop _ _).mp ⟨full, hget, hlast⟩
    have hpop : popLast full.offsets = some (full.offsets.max' hnonempty,
        full.offsets.erase (full.offsets.max' hnonempty)) := dif_pos hnonempty
    refine ⟨{
        ranges := (s.ranges.insert (range.stop - range.start)
          { (s.ranges[range.stop - range.start]?.getD {}) with offsets := full.offsets }).insert
            (range.stop - range.start) ⟨true, full.offsets.erase (full.offsets.max' hnonempty)⟩
        byEnd := (s.byEnd.insert range.stop range.start).erase
          (full.offsets.max' hnonempty + (range.stop - range.start))
        overflows := s.overflows + 1 }, ?_, .inr ⟨full, _, hlast, rfl, hget, ?_, rfl⟩⟩
    · simp only [insertRange, if_neg hnot, hstop, hentries, bind_eq_bind, bind_some,
        if_pos hfull]
      rw [hpop, bind_some]
      simp only [htracks, ne_eq, not_true_eq_false, if_false]
      rfl
    · intro len
      rw [dropOffset_ranges]
      simp only [addRange, full, getElem?_insert, Bool.true_eq_false, and_false, if_false]
      split_ifs <;> rfl

/-- Inserting a range of bytes that are not tracked. -/
theorem insertRange_spec (h : s.Inv) (range : Range) (hne : range.start < range.stop)
    (hmax : range.stop - range.start ≤ defaultMaxExtentSize)
    (hdisj : Disjoint s.bytes (Ico range.start range.stop)) :
    ∃ s', s.insertRange range = some (.ok (), s') ∧
      Freed s s' (Ico range.start range.stop) := by
  have hstop := not_tracks_stop h hne hdisj
  have hbytes : ∀ overflow, (s.addRange range overflow).bytes =
      s.bytes ∪ Ico range.start range.stop := fun _ => bytes_of_added (addRange_tracks _ hstop)
  have hinv : ∀ overflow, (s.addRange range overflow).Inv := fun _ => addRange_inv h hne hmax hdisj
  obtain ⟨s', hrun, ⟨overflow, rfl⟩ | ⟨bucket, last, hlast, hover, hget, hranges, hbyEnd⟩⟩ :=
    insertRange_linked h.linked range hne hstop
  · exact ⟨_, hrun, hinv _, (hbytes _).subset, le_rfl, fun _ => hbytes _⟩
  · refine ⟨s', hrun, (dropOffset_inv (hinv true) hget hlast).congr hranges (by simp [hbyEnd]), ?_,
      by omega, by omega⟩
    rw [← hbytes true]
    rintro x ⟨r, hr, hx⟩
    rw [Tracks, hbyEnd] at hr
    exact ⟨r, ((dropOffset_tracks (hinv true).linked hget hlast r).mp hr).1, hx⟩

end Insert

/-- A tracked range next to new bytes may be taken out first and freed together with them. -/
theorem removeRange_adjacent (h : s.Inv) (hr : s.Tracks range) (hdisj : Disjoint s.bytes B)
    (hsplit : B ∪ Ico range.start range.stop = C) :
    ∃ s₁, s.removeRange range = some s₁ ∧ s₁.Inv ∧ Disjoint s₁.bytes C ∧
      ∀ s', Freed s₁ s' C → Freed s s' B := by
  obtain ⟨s₁, hrun, hinv, hover, htracks⟩ := removeRange_spec h hr
  have hbytes := bytes_of_removed h hr htracks
  refine ⟨s₁, hrun, hinv, ?_, fun s' hfreed => ?_⟩
  · rw [← hsplit, hbytes]
    exact disjoint_union_right.mpr ⟨hdisj.mono_left sdiff_subset, disjoint_sdiff_left⟩
  · exact Freed.of_removed (hsplit ▸ hfreed) hbytes hover hr.subset

section Free

variable (range) (h : s.Inv) (hle : range.start ≤ range.stop)
  (hdisj : Disjoint s.bytes (Set.Ico range.start range.stop))
include h hle hdisj

/-- A range shorter than the maximum is added as it is, whatever the fuel. -/
theorem insertPieces_short {fuel : ℕ} (hlt : ¬ range.stop - range.start ≥ defaultMaxExtentSize) :
    ∃ s', insertPieces fuel s range = some (.ok (), s') ∧
      Freed s s' (Ico range.start range.stop) := by
  rw [insertPieces.eq_def, if_neg hlt]
  rcases hle.lt_or_eq with hne | heq
  · obtain ⟨s', hrun, hfreed⟩ := insertRange_spec h range hne (by omega) hdisj
    exact ⟨s', by rw [if_pos hne, hrun], hfreed⟩
  · refine ⟨s, by rw [if_neg (by omega)], ?_⟩
    rw [heq, Ico_self]
    exact .refl h

/-- Adding a range of bytes that are not tracked, piece by piece from its end. -/
theorem insertPieces_spec {fuel : ℕ}
    (hfuel : (range.stop - range.start) / defaultMaxExtentSize ≤ fuel) :
    ∃ s', insertPieces fuel s range = some (.ok (), s') ∧
      Freed s s' (Ico range.start range.stop) := by
  induction fuel generalizing s range with
  | zero =>
    refine insertPieces_short range h hle hdisj ?_
    unfold defaultMaxExtentSize at hfuel ⊢
    omega
  | succ fuel ih =>
    by_cases hlong : range.stop - range.start ≥ defaultMaxExtentSize
    swap
    · exact insertPieces_short range h hle hdisj hlong
    have hpos : 0 < defaultMaxExtentSize := by decide
    obtain ⟨s₁, hrun, hfreed⟩ := insertRange_spec h
      ⟨range.stop - defaultMaxExtentSize, range.stop⟩ (by dsimp only; omega)
      (by dsimp only; omega) (hdisj.mono_right (Ico_subset_Ico_left (by dsimp only; omega)))
    have hsplit : Set.Ico (range.stop - defaultMaxExtentSize) range.stop ∪
        Ico range.start (range.stop - defaultMaxExtentSize) =
          Set.Ico range.start range.stop := by
      rw [union_comm, Ico_union_Ico_eq_Ico (by omega) (by omega)]
    have hdisj' : Disjoint s₁.bytes (Ico range.start (range.stop - defaultMaxExtentSize)) :=
      hfreed.disjoint (hdisj.mono_right (Ico_subset_Ico_right (Nat.sub_le _ _)))
        (disjoint_left.mpr fun x hx hx' => not_lt.mpr hx.1 hx'.2)
    obtain ⟨s', hrun', hfreed'⟩ := ih ⟨range.start, range.stop - defaultMaxExtentSize⟩
      hfreed.inv (by dsimp only; omega) hdisj' (by
        unfold defaultMaxExtentSize at hfuel hlong ⊢
        dsimp only
        omega)
    refine ⟨s', ?_, hsplit ▸ hfreed.trans hfreed'⟩
    rw [insertPieces, if_pos hlong]
    simp only [hrun]
    exact hrun'

/-- Adding a range together with a tracked one behind it. -/
theorem freeBefore_spec (nextItem : Option (ℕ × ℕ))
    (hnext : ∀ stop start, nextItem = some (stop, start) → s.Tracks ⟨start, stop⟩) :
    ∃ s', s.freeBefore range nextItem = some (.ok (), s') ∧
      Freed s s' (Ico range.start range.stop) := by
  have hadd := insertPieces_spec range h hle hdisj le_rfl
  cases nextItem with
  | none => exact hadd
  | some item =>
    obtain ⟨stop, start⟩ := item
    by_cases hstart : start = range.stop
    swap
    · simpa only [freeBefore, if_neg hstart] using hadd
    subst hstart
    have ht := hnext stop range.stop rfl
    have hlt : range.stop < stop := h.nonempty ht
    obtain ⟨s₁, hrun, hinv, hdisj₁, hback⟩ := removeRange_adjacent h ht hdisj
      (Ico_union_Ico_eq_Ico hle hlt.le)
    obtain ⟨s', hrun', hfreed⟩ :=
      insertPieces_spec ⟨range.start, stop⟩ hinv (hle.trans hlt.le) hdisj₁ le_rfl
    exact ⟨s', by simp [freeBefore, hrun, hrun'], hback s' hfreed⟩

/-- Freeing bytes that are not tracked.  Only an empty range can be refused. -/
theorem free_spec :
    ∃ result s', s.free range = some (result, s') ∧ Freed s s' (Ico range.start range.stop) ∧
      (range.start < range.stop → result = .ok ()) := by
  cases hhead : (rangeFrom s.byEnd range.start).head? with
  | none =>
    obtain ⟨s', hrun, hfreed⟩ := freeBefore_spec range h hle hdisj none (by simp)
    exact ⟨.ok (), s', by simp [free, hhead, hrun], hfreed, fun _ => rfl⟩
  | some item =>
    obtain ⟨stop, start⟩ := item
    obtain ⟨ht, hge, -⟩ := le_of_head?_rangeFrom hhead
    have ht : s.Tracks ⟨start, stop⟩ := ht
    have hlt : start < stop := h.nonempty ht
    by_cases hstop : stop = range.start
    · subst hstop
      obtain ⟨s₁, hrun, hinv, hdisj₁, hback⟩ := removeRange_adjacent h ht hdisj
        ((union_comm _ _).trans (Ico_union_Ico_eq_Ico hlt.le hle))
      obtain ⟨s', hrun', hfreed⟩ := freeBefore_spec ⟨start, range.stop⟩ hinv (hlt.le.trans hle)
        hdisj₁ (rangeFrom s₁.byEnd (start + 1)).head?
        fun stop' start' hnext => (le_of_head?_rangeFrom hnext).1
      exact ⟨.ok (), s', by simp [free, hhead, hrun, hrun'], hback s' hfreed, fun _ => rfl⟩
    · by_cases hover : start < range.stop
      · have hempty : range.start = range.stop := by
          by_contra hne
          have hmem : max start range.start ∈ s.bytes := ⟨_, ht, by dsimp only; omega⟩
          exact disjoint_left.mp hdisj hmem (mem_Ico.mpr (by omega))
        refine ⟨.error ⟨.inconsistent, ["overlapping free"]⟩, s,
          by simp [free, hhead, hstop, hover], ?_, fun hne => by omega⟩
        rw [hempty, Ico_self]
        exact .refl h
      · obtain ⟨s', hrun, hfreed⟩ := freeBefore_spec range h hle hdisj (some (stop, start)) (by
          rintro stop' start' ⟨⟩
          exact ht)
        exact ⟨.ok (), s', by simp [free, hhead, hstop, hover, hrun], hfreed, fun _ => rfl⟩

end Free

def bytesOf (l : List Range) : Set ℕ := {x | ∃ r ∈ l, r.start ≤ x ∧ x < r.stop}

theorem mem_bytesOf :
    x ∈ bytesOf l ↔ ∃ r ∈ l, r.start ≤ x ∧ x < r.stop := Iff.rfl

@[simp] theorem bytesOf_nil : bytesOf [] = ∅ := by
  ext x
  simp [mem_bytesOf]

@[simp] theorem bytesOf_cons (r : Range) (l : List Range) :
    bytesOf (r :: l) = Set.Ico r.start r.stop ∪ bytesOf l := by
  ext x
  simp [mem_bytesOf]

@[simp] theorem bytesOf_append (l l' : List Range) :
    bytesOf (l ++ l') = bytesOf l ∪ bytesOf l' := by
  ext x
  simp [mem_bytesOf, or_and_right, exists_or]

structure InOrder (l : List Range) : Prop where
  nonempty : ∀ r ∈ l, r.start < r.stop
  sorted : l.Pairwise fun r t => r.stop ≤ t.start

theorem InOrder.tail (h : InOrder (r :: l)) : InOrder l :=
  ⟨fun t ht => h.nonempty t (mem_cons_of_mem r ht), (pairwise_cons.mp h.sorted).2⟩

theorem InOrder.disjoint (h : InOrder (r :: l)) :
    Disjoint (Set.Ico r.start r.stop) (bytesOf l) := by
  refine disjoint_left.mpr fun x hx => ?_
  rintro ⟨t, ht, hlo, -⟩
  have hle := (pairwise_cons.mp h.sorted).1 t ht
  have hlt := hx.2
  omega

theorem freeAll_spec (h : s.Inv) (hl : InOrder l)
    (hdisj : Disjoint s.bytes (bytesOf l)) :
    ∃ s', s.freeAll l = some (.ok (), s') ∧ Freed s s' (bytesOf l) := by
  induction l generalizing s with
  | nil => exact ⟨s, rfl, by simpa using Freed.refl h⟩
  | cons r l ih =>
    have hne := hl.nonempty r mem_cons_self
    rw [bytesOf_cons, disjoint_union_right] at hdisj
    obtain ⟨result, s₁, hrun, hfreed, hok⟩ := free_spec r h hne.le hdisj.1
    obtain rfl := hok hne
    obtain ⟨s', hrun', hfreed'⟩ := ih hfreed.inv hl.tail (hfreed.disjoint hdisj.2 hl.disjoint)
    refine ⟨s', by simp [freeAll, hrun, hrun'], ?_⟩
    rw [bytesOf_cons]
    exact hfreed.trans hfreed'

structure EntriesInOrder (l : List (ℕ × ℕ)) : Prop where
  nonempty : ∀ e ∈ l, e.2 < e.1
  sorted : l.Pairwise fun d e => d.1 ≤ e.2

theorem EntriesInOrder.tail {e : ℕ × ℕ} {l : List (ℕ × ℕ)} (h : EntriesInOrder (e :: l)) :
    EntriesInOrder l :=
  ⟨fun d hd => h.nonempty d (mem_cons_of_mem e hd), (pairwise_cons.mp h.sorted).2⟩

theorem Inv.entriesInOrder (h : s.Inv) (k : ℕ) : EntriesInOrder (rangeFrom s.byEnd k) := by
  have htracks : ∀ e ∈ rangeFrom s.byEnd k, s.Tracks ⟨e.2, e.1⟩ :=
    fun e he => (mem_rangeFrom.mp he).1
  refine ⟨fun e he => h.nonempty (htracks e he), ?_⟩
  refine (rangeFrom_sorted s.byEnd k).imp_of_mem fun {d e} hd he hlt => ?_
  have hne := h.nonempty (htracks d hd)
  rcases h.disjoint (htracks d hd) (htracks e he) with heq | hle | hle
  · exact absurd (congrArg Range.stop heq) hlt.ne
  · exact hle
  · dsimp only at hle hne
    omega

/-- The gaps between the entries from `last` on. -/
theorem gaps_spec (range : Range) {l : List (ℕ × ℕ)} (hl : EntriesInOrder l)
    (hstart : ∀ e ∈ l, range.start < e.1) {last : ℕ} (hlast : ∀ e ∈ l, last < e.1) :
    ∃ toAdd, gaps range l last = some toAdd ∧ InOrder toAdd ∧ (∀ r ∈ toAdd, last ≤ r.start) ∧
      ∀ x, x ∈ bytesOf toAdd ↔
        last ≤ x ∧ x < range.stop ∧ ∀ e ∈ l, ¬ (e.2 ≤ x ∧ x < e.1) := by
  have hend : ∀ {l : List (ℕ × ℕ)} {last : ℕ}, (∀ e ∈ l, range.stop ≤ e.2) →
      let toAdd : List Range := if last < range.stop then [⟨last, range.stop⟩] else []
      InOrder toAdd ∧ (∀ r ∈ toAdd, last ≤ r.start) ∧ ∀ x, x ∈ bytesOf toAdd ↔
        last ≤ x ∧ x < range.stop ∧ ∀ e ∈ l, ¬ (e.2 ≤ x ∧ x < e.1) := by
    intro l last hafter
    have hnone : ∀ x, x < range.stop → ∀ e ∈ l, ¬ (e.2 ≤ x ∧ x < e.1) := by
      intro x hx e he hcovers
      have := hafter e he
      omega
    split_ifs with hlt
    · refine ⟨⟨by simpa using hlt, pairwise_singleton _ _⟩, by simp, fun x => ?_⟩
      simp only [bytesOf_cons, bytesOf_nil, union_empty, mem_Ico]
      exact ⟨fun hx => ⟨hx.1, hx.2, hnone x hx.2⟩, fun hx => ⟨hx.1, hx.2.1⟩⟩
    · refine ⟨⟨by simp, .nil⟩, by simp, fun x => ?_⟩
      simp only [bytesOf_nil, mem_empty_iff_false, false_iff]
      omega
  induction l generalizing last with
  | nil => exact ⟨_, rfl, hend (by simp)⟩
  | cons e l ih =>
    obtain ⟨stop, offset⟩ := e
    have hne : offset < stop := hl.nonempty _ mem_cons_self
    have hnext := (pairwise_cons.mp hl.sorted).1
    by_cases hbreak : offset ≥ range.stop
    · refine ⟨_, by rw [gaps, if_pos hbreak], hend ?_⟩
      refine forall_mem_cons.mpr ⟨hbreak, fun d hd => ?_⟩
      have : stop ≤ d.2 := hnext d hd
      omega
    · have hstop : stop > range.start := hstart _ mem_cons_self
      have hlt : last < stop := hlast _ mem_cons_self
      have hafter : ∀ d ∈ l, stop < d.1 := by
        intro d hd
        have hle : stop ≤ d.2 := hnext d hd
        have hlt := hl.tail.nonempty d hd
        omega
      obtain ⟨toAdd, hrun, horder, hfrom, hbytes⟩ := ih hl.tail
        (forall_mem_cons.mp hstart).2 hafter
      refine ⟨if offset > last then ⟨last, offset⟩ :: toAdd else toAdd,
        by simp [gaps, hbreak, hstop, hrun], ?_⟩
      split_ifs with hgap
      · refine ⟨⟨?_, ?_⟩, ?_, fun x => ?_⟩
        · exact forall_mem_cons.mpr ⟨hgap, horder.nonempty⟩
        · refine pairwise_cons.mpr ⟨fun r hr => ?_, horder.sorted⟩
          exact hne.le.trans (hfrom r hr)
        · exact forall_mem_cons.mpr ⟨le_rfl, fun r hr => hlt.le.trans (hfrom r hr)⟩
        · rw [bytesOf_cons, mem_union, hbytes, forall_mem_cons]
          dsimp only
          constructor
          · rintro (⟨hlo, hhi⟩ | ⟨hlo, hhi, hrest⟩)
            · refine ⟨hlo, by omega, by omega, fun d hd => ?_⟩
              have hle : stop ≤ d.2 := hnext d hd
              omega
            · exact ⟨by omega, hhi, by omega, hrest⟩
          · rintro ⟨hlo, hhi, hfirst, hrest⟩
            rcases Nat.lt_or_ge x offset with hx | hx
            · exact .inl ⟨hlo, hx⟩
            · exact .inr ⟨by omega, hhi, hrest⟩
      · refine ⟨horder, fun r hr => hlt.le.trans (hfrom r hr), fun x => ?_⟩
        rw [hbytes, forall_mem_cons]
        constructor
        · rintro ⟨hlo, hhi, hrest⟩
          exact ⟨by omega, hhi, by omega, hrest⟩
        · rintro ⟨hlo, hhi, hfirst, hrest⟩
          exact ⟨by omega, hhi, hrest⟩

/-- Within a range, a byte is tracked exactly if one of the entries from the start on covers it. -/
theorem mem_bytes_iff_rangeFrom {k : ℕ} (hx : k ≤ x) :
    x ∈ s.bytes ↔ ∃ e ∈ rangeFrom s.byEnd (k + 1), e.2 ≤ x ∧ x < e.1 := by
  constructor
  · rintro ⟨r, hr, hlo, hhi⟩
    exact ⟨(r.stop, r.start), mem_rangeFrom.mpr ⟨hr, by omega⟩, hlo, hhi⟩
  · rintro ⟨e, he, hx⟩
    exact ⟨⟨e.2, e.1⟩, (mem_rangeFrom.mp he).1, hx⟩

theorem Freed.congr (h : Freed s s' B) (hB : s.bytes ∪ B = s.bytes ∪ C) : Freed s s' C :=
  ⟨h.inv, hB ▸ h.subset, h.overflows_le, fun heq => hB ▸ h.bytes_eq heq⟩

/-- Forcing a range to be free succeeds, and tells whether the whole range was tracked already. -/
theorem forceFree_spec (h : s.Inv) (range : Range) :
    ∃ changed s', s.forceFree range = some (.ok changed, s') ∧
      Freed s s' (Ico range.start range.stop) ∧
      (changed = false ↔ Set.Ico range.start range.stop ⊆ s.bytes) := by
  have hstart : ∀ e ∈ rangeFrom s.byEnd (range.start + 1), range.start < e.1 :=
    fun e he => (mem_rangeFrom.mp he).2
  obtain ⟨toAdd, hrun, horder, -, hmem⟩ :=
    gaps_spec range (h.entriesInOrder (range.start + 1)) hstart hstart
  have hbytes : bytesOf toAdd = Set.Ico range.start range.stop \ s.bytes := by
    ext x
    rw [hmem, mem_sdiff, mem_Ico, and_assoc]
    refine and_congr_right fun hx => ?_
    rw [mem_bytes_iff_rangeFrom hx]
    simp only [not_exists, not_and]
  have hdisj : Disjoint s.bytes (bytesOf toAdd) := hbytes ▸ disjoint_sdiff_right
  cases toAdd with
  | nil =>
    have hsubset : Set.Ico range.start range.stop ⊆ s.bytes := by
      rw [bytesOf_nil] at hbytes
      exact sdiff_eq_empty.mp hbytes.symm
    refine ⟨false, s, by simp [forceFree, hrun], ?_, by simpa using hsubset⟩
    exact (Freed.refl h).congr (by rw [union_empty, union_eq_left.mpr hsubset])
  | cons r l =>
    obtain ⟨s', hrun', hfreed⟩ := freeAll_spec h horder hdisj
    refine ⟨true, s', by simp [forceFree, hrun, hrun', Except.map], ?_, ?_⟩
    · exact hfreed.congr (by rw [hbytes, union_sdiff_self])
    · simp only [Bool.true_eq_false, false_iff]
      intro hsubset
      have hne := horder.nonempty r mem_cons_self
      have hmem : r.start ∈ bytesOf (r :: l) := ⟨r, mem_cons_self, le_rfl, hne⟩
      rw [hbytes, sdiff_eq_empty.mpr hsubset] at hmem
      exact hmem

/-- What taking bytes away does: the others are still tracked, unless a bucket has overflowed. -/
structure Taken (s s' : BestFit) (B : Set ℕ) : Prop where
  inv : s'.Inv
  subset : s'.bytes ⊆ s.bytes \ B
  overflows_le : s.overflows ≤ s'.overflows
  bytes_eq : s'.overflows = s.overflows → s'.bytes = s.bytes \ B

/-- Taking more away and giving the rest back. -/
theorem Freed.taken (h : Freed s' s'' B) (hover : s'.overflows = s.overflows)
    (hbytes : s'.bytes ∪ B = s.bytes \ C) : Taken s s'' C :=
  ⟨h.inv, hbytes ▸ h.subset, hover ▸ h.overflows_le,
    fun heq => hbytes ▸ h.bytes_eq (heq.trans hover.symm)⟩

/-- What of one entry sticks out of the range. -/
theorem leftover_spec {range : Range} {offset stop : ℕ} (hle : range.start ≤ range.stop)
    (hlo : offset < range.stop) (hhi : range.start < stop) :
    let left : List Range := (if offset < range.start then [⟨offset, range.start⟩] else []) ++
      (if stop > range.stop then [⟨range.stop, stop⟩] else [])
    InOrder left ∧ (∀ r ∈ left, r.stop ≤ stop) ∧
      bytesOf left = Set.Ico offset stop \ Ico range.start range.stop := by
  refine ⟨⟨?_, ?_⟩, ?_, ?_⟩
  · intro r hr
    split_ifs at hr <;> simp at hr
    · rcases hr with rfl | rfl <;> assumption
    · exact hr ▸ by assumption
    · exact hr ▸ by assumption
  · split_ifs <;> simp [hle]
  · intro r hr
    split_ifs at hr <;> simp at hr
    · rcases hr with rfl | rfl
      · exact hhi.le
      · exact le_rfl
    · exact hr ▸ hhi.le
    · exact hr ▸ le_rfl
  · ext x
    split_ifs <;> simp <;> omega

/-- The entries that overlap the range, and what sticks out of it. -/
theorem overlaps_spec (range : Range) (hle : range.start ≤ range.stop) {l : List (ℕ × ℕ)}
    (hl : EntriesInOrder l) (hstart : ∀ e ∈ l, range.start < e.1) :
    ∃ toRemove toAdd, overlaps range l = some (toRemove, toAdd) ∧ InOrder toRemove ∧
      (∀ r, r ∈ toRemove ↔ (r.stop, r.start) ∈ l ∧ r.start < range.stop) ∧ InOrder toAdd ∧
      bytesOf toAdd = bytesOf toRemove \ Ico range.start range.stop := by
  induction l with
  | nil => exact ⟨[], [], rfl, ⟨by simp, .nil⟩, by simp, ⟨by simp, .nil⟩, by simp⟩
  | cons e l ih =>
    obtain ⟨stop, offset⟩ := e
    have hne : offset < stop := hl.nonempty _ mem_cons_self
    have hnext := (pairwise_cons.mp hl.sorted).1
    by_cases hbreak : offset ≥ range.stop
    · refine ⟨[], [], by rw [overlaps, if_pos hbreak], ⟨by simp, .nil⟩, fun r => ?_,
        ⟨by simp, .nil⟩, by simp⟩
      simp only [not_mem_nil, mem_cons, Prod.mk.injEq, false_iff, not_and, not_lt]
      rintro (⟨-, h⟩ | hr)
      · omega
      · have hle : stop ≤ r.start := hnext _ hr
        omega
    · have hstop : stop > range.start := hstart _ mem_cons_self
      obtain ⟨toRemove, toAdd, hrun, horder, hmem, horder', hbytes⟩ :=
        ih hl.tail (forall_mem_cons.mp hstart).2
      obtain ⟨hleft, hleftStop, hleftBytes⟩ := leftover_spec hle (not_le.mp hbreak) hstop
      have hafter : ∀ r ∈ toRemove, stop ≤ r.start := fun r hr => hnext _ ((hmem r).mp hr).1
      have hafter' : ∀ r ∈ toAdd, stop ≤ r.start := by
        intro r hr
        have hx : r.start ∈ bytesOf toAdd := ⟨r, hr, le_rfl, horder'.nonempty r hr⟩
        rw [hbytes] at hx
        obtain ⟨⟨t, ht, hlo, -⟩, -⟩ := hx
        exact (hafter t ht).trans hlo
      refine ⟨_, _, by simp only [overlaps, if_neg hbreak, if_pos hstop, hrun]; rfl, ⟨?_, ?_⟩, ?_,
        ⟨?_, ?_⟩, ?_⟩
      · exact forall_mem_cons.mpr ⟨hne, horder.nonempty⟩
      · exact pairwise_cons.mpr ⟨hafter, horder.sorted⟩
      · intro r
        rw [mem_cons, mem_cons, hmem, Prod.mk.injEq]
        constructor
        · rintro (rfl | hr)
          · exact ⟨.inl ⟨rfl, rfl⟩, not_le.mp hbreak⟩
          · exact ⟨.inr hr.1, hr.2⟩
        · rintro ⟨⟨hs, ho⟩ | hr, hlt⟩
          · subst hs ho
            exact .inl rfl
          · exact .inr ⟨hr, hlt⟩
      · exact forall_mem_append.mpr ⟨hleft.nonempty, horder'.nonempty⟩
      · refine pairwise_append.mpr ⟨hleft.sorted, horder'.sorted, fun r hr t ht => ?_⟩
        exact (hleftStop r hr).trans (hafter' t ht)
      · rw [bytesOf_append, hleftBytes, hbytes, bytesOf_cons, union_sdiff_distrib]

theorem removeAll_spec (h : s.Inv) (hl : InOrder l)
    (htracks : ∀ r ∈ l, s.Tracks r) :
    ∃ s', s.removeAll l = some s' ∧ s'.Inv ∧ s'.overflows = s.overflows ∧
      s'.bytes = s.bytes \ bytesOf l := by
  induction l generalizing s with
  | nil => exact ⟨s, rfl, h, rfl, by simp⟩
  | cons r l ih =>
    obtain ⟨s₁, hrun, hinv, hover, htracks₁⟩ :=
      removeRange_spec h (htracks r mem_cons_self)
    have hrest : ∀ t ∈ l, s₁.Tracks t := by
      intro t ht
      refine (htracks₁ t).mpr ⟨htracks t (mem_cons_of_mem r ht), fun heq => ?_⟩
      have hle := (pairwise_cons.mp hl.sorted).1 t ht
      have hlt := hl.nonempty r mem_cons_self
      rw [heq] at hle
      omega
    obtain ⟨s', hrun', hinv', hover', hbytes⟩ := ih hinv hl.tail hrest
    refine ⟨s', by simp [removeAll, hrun, hrun'], hinv', hover'.trans hover, ?_⟩
    rw [hbytes, bytes_of_removed h (htracks r mem_cons_self) htracks₁, bytesOf_cons,
      sdiff_sdiff]

/-- Removing a range succeeds. -/
theorem remove_spec (h : s.Inv) (hle : range.start ≤ range.stop) :
    ∃ s', s.remove range = some s' ∧ Taken s s' (Ico range.start range.stop) := by
  obtain ⟨toRemove, toAdd, hrun, horder, hmem, horder', hbytes⟩ :=
    overlaps_spec range hle (h.entriesInOrder (range.start + 1))
      fun e he => (mem_rangeFrom.mp he).2
  have htracks : ∀ r ∈ toRemove, s.Tracks r :=
    fun r hr => (mem_rangeFrom.mp ((hmem r).mp hr).1).1
  have hsubset : bytesOf toRemove ⊆ s.bytes := fun x ⟨r, hr, hx⟩ => ⟨r, htracks r hr, hx⟩
  have hcovered : s.bytes ∩ Ico range.start range.stop ⊆ bytesOf toRemove := by
    rintro x ⟨⟨r, hr, hlo, hhi⟩, hx⟩
    have hx := mem_Ico.mp hx
    exact ⟨r, (hmem r).mpr ⟨mem_rangeFrom.mpr ⟨hr, by omega⟩, by omega⟩, hlo, hhi⟩
  obtain ⟨s₁, hrun₁, hinv, hover, hbytes₁⟩ := removeAll_spec h horder htracks
  have hdisj : Disjoint s₁.bytes (bytesOf toAdd) := by
    rw [hbytes₁, hbytes]
    exact disjoint_sdiff_left.mono_right sdiff_subset
  obtain ⟨s', hrun', hfreed⟩ := freeAll_spec hinv horder' hdisj
  refine ⟨s', by simp [remove, hrun, hrun₁, hrun'], hfreed.taken hover ?_⟩
  rw [hbytes₁, hbytes]
  ext x
  have hsub := @hsubset x
  have hcov := @hcovered x
  simp only [mem_union, mem_sdiff, mem_inter_iff] at hsub hcov ⊢
  tauto

end Smos.Fxfs.Allocator.BestFit
