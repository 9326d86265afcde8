import Smos.Block.CopyOnWrite

/-!
The copy-on-write backend against a single plain disk.

A read request is split where the target changes, and the parts tile it.  The splitting leaves
empty ranges at the end of a request over and then finds no sector for them, and the copied disk
may be smaller than the backing disk: the backend agrees with a plain disk exactly when no read
ends with an empty range and no write reaches beyond the copied disk.
-/
namespace Smos.Block

open Lib.Result CopyOnWriteBackend
open List hiding count

section Ranges

variable {ranges v1 v2 : List DeviceRange} {range : DeviceRange} {request : Request} {count x : ℕ}

def EndsFull (ranges : List DeviceRange) : Prop :=
  ∀ range, ranges.getLast? = some range → range.len ≠ 0

@[simp] theorem totalBytes_nil : totalBytes [] = 0 := rfl

@[simp] theorem totalBytes_cons : totalBytes (range :: ranges) = range.len + totalBytes ranges := by
  simp [totalBytes]

@[simp] theorem addresses_cons :
    addresses (range :: ranges) = range' range.start range.len ++ addresses ranges := by
  simp [addresses]

theorem length_addresses : (addresses ranges).length = totalBytes ranges := by
  induction ranges with
  | nil => rfl
  | cons range ranges ih => simp [ih]

theorem endsFull_cons (h : ranges ≠ []) : EndsFull (range :: ranges) ↔ EndsFull ranges := by
  cases ranges with
  | nil => exact absurd rfl h
  | cons r rs => simp [EndsFull, getLast?_cons_cons]

/-- A range that is not empty does not matter for how the ranges end. -/
theorem endsFull_cons_of_pos (h : range.len ≠ 0) :
    EndsFull (range :: ranges) ↔ EndsFull ranges := by
  cases ranges with
  | nil => simp [EndsFull, h]
  | cons r rs => exact endsFull_cons (cons_ne_nil _ _)

/-- A split inside the ranges tiles them and leaves their end as it is. -/
theorem splitRanges_spec {offset before : ℕ} (hlt : before < offset)
    (hle : offset ≤ before + totalBytes ranges) :
    ∃ v1 v2, splitRanges offset before ranges = some (v1, v2) ∧
      before + totalBytes v1 = offset ∧ addresses v1 ++ addresses v2 = addresses ranges ∧
      (EndsFull v2 ↔ EndsFull ranges) := by
  induction ranges generalizing before with
  | nil =>
    simp only [totalBytes_nil] at hle
    omega
  | cons range ranges ih =>
    rw [totalBytes_cons] at hle
    simp only [splitRanges]
    split
    case isTrue heq =>
      refine ⟨[range], ranges, rfl, ?_, ?_, ?_⟩
      · simp only [totalBytes_cons, totalBytes_nil]
        omega
      · simp [addresses]
      · exact (endsFull_cons_of_pos (by omega)).symm
    case isFalse hne =>
      split
      case isTrue hge =>
        have hfits : ¬ range.len < offset - before := by omega
        simp only [DeviceRange.splitAt, if_neg hfits]
        refine ⟨_, _, rfl, ?_, ?_, ?_⟩
        · simp only [totalBytes_cons, totalBytes_nil]
          omega
        · simp only [addresses_cons, ← append_assoc]
          congr 1
          simp only [addresses, flatMap_nil, append_nil]
          rw [range'_append_1]
          congr 1
          omega
        · rw [endsFull_cons_of_pos (by simp only; omega), endsFull_cons_of_pos (by omega)]
      case isFalse hlt' =>
        obtain ⟨v1, v2, hsplit, htotal, haddresses, hends⟩ :=
          @ih (before + range.len) (by omega) (by omega)
        have hne : ranges ≠ [] := by
          rintro rfl
          simp only [totalBytes_nil] at hle
          omega
        rw [hsplit]
        refine ⟨range :: v1, v2, rfl, ?_, ?_, ?_⟩
        · rw [totalBytes_cons]
          omega
        · rw [addresses_cons, addresses_cons, append_assoc, haddresses]
        · rw [hends, endsFull_cons hne]

theorem splitRanges_none {offset before : ℕ} (h : before + totalBytes ranges < offset) :
    splitRanges offset before ranges = none := by
  induction ranges generalizing before with
  | nil => rfl
  | cons range ranges ih =>
    rw [totalBytes_cons] at h
    simp only [splitRanges]
    rw [if_neg (by omega), if_neg (by omega), ih (by omega)]

end Ranges

section Transfers

variable {data data' : ℕ → UInt8}

theorem transfers_append (x : ℕ) (a b : List ℕ) :
    transfers data x (a ++ b) = transfers data x a ++ transfers data (x + a.length) b := by
  induction a generalizing x with
  | nil => rfl
  | cons address a ih =>
    simp only [cons_append, transfers, ih, length_cons]
    rw [Nat.add_assoc, Nat.add_comm 1]

theorem transfers_congr {a : List ℕ}
    (h : ∀ y, x ≤ y → y < x + a.length → data y = data' y) :
    transfers data x a = transfers data' x a := by
  induction a generalizing x with
  | nil => rfl
  | cons address a ih =>
    rw [length_cons] at h
    rw [transfers, transfers, h x (Nat.le_refl x) (by omega), ih]
    intro y hge hlt
    exact h y (by omega) (by omega)

end Transfers

namespace Bitmap

variable {bitmap : Bitmap} {capacity sector other : ℕ}

def Covers (bitmap : Bitmap) (capacity : ℕ) : Prop := bitmap.bytes.length = (capacity + 7) / 8

theorem exists_byte (h : bitmap.Covers capacity) (hlt : sector < capacity) :
    ∃ byte, bitmap.bytes[sector / 8]? = some byte := by
  have hindex : sector / 8 < bitmap.bytes.length := by
    rw [h]
    omega
  exact ⟨_, getElem?_eq_getElem hindex⟩

theorem and_bit_ne_zero (byte k : ℕ) : byte &&& (1 <<< k) ≠ 0 ↔ byte.testBit k = true := by
  rw [Nat.one_shiftLeft, Nat.and_two_pow]
  cases byte.testBit k <;> simp

theorem backend_of_byte {byte : ℕ} (h : bitmap.bytes[sector / 8]? = some byte) :
    bitmap.backend sector =
      some (if byte.testBit (sector % 8) then .copied else .backing) := by
  rw [backend, h]
  simp only [and_bit_ne_zero]

theorem withSize_covers : (withSize capacity).Covers capacity := length_replicate

theorem backend_withSize (h : sector < capacity) :
    (withSize capacity).backend sector = some .backing := by
  obtain ⟨byte, hbyte⟩ := exists_byte (withSize_covers : (withSize capacity).Covers capacity) h
  have hzero : byte = 0 := eq_of_mem_replicate (mem_of_getElem? hbyte)
  rw [backend_of_byte hbyte, hzero, Nat.zero_testBit]
  rfl

/-- Marking one sector changes that sector only. -/
theorem setCopied_spec (h : bitmap.Covers capacity) (hlt : sector < capacity) :
    ∃ bitmap', bitmap.setCopied sector = some bitmap' ∧ bitmap'.Covers capacity ∧
      ∀ other < capacity, bitmap'.backend other =
        if other = sector then some .copied else bitmap.backend other := by
  obtain ⟨byte, hbyte⟩ := exists_byte h hlt
  refine ⟨⟨bitmap.bytes.set (sector / 8) (byte ||| (1 <<< (sector % 8)))⟩, ?_, ?_, ?_⟩
  · rw [setCopied, hbyte]
  · rw [Covers, length_set]
    exact h
  · intro other hother
    obtain ⟨old, hold⟩ := exists_byte h hother
    rcases eq_or_ne (other / 8) (sector / 8) with hsame | hdiff
    · have hset : (bitmap.bytes.set (sector / 8) (byte ||| (1 <<< (sector % 8))))[other / 8]? =
          some (byte ||| (1 <<< (sector % 8))) := by
        rw [hsame, getElem?_set_self']
        simp [hbyte]
      rw [hsame] at hold
      rw [hbyte] at hold
      cases hold
      rw [backend_of_byte hset, backend_of_byte (hsame ▸ hbyte), Nat.testBit_or,
        Nat.one_shiftLeft]
      rcases eq_or_ne other sector with rfl | hne
      · simp
      · have hbit : sector % 8 ≠ other % 8 := by
          intro hbit
          apply hne
          omega
        simp [hne, hbit]
    · have hset : (bitmap.bytes.set (sector / 8) (byte ||| (1 <<< (sector % 8))))[other / 8]? =
          some old := by
        rw [getElem?_set_ne (Ne.symm hdiff), hold]
      have hne : other ≠ sector := fun heq => hdiff (heq ▸ rfl)
      rw [backend_of_byte hset, backend_of_byte hold, if_neg hne]

theorem setCopiedFrom_spec (h : bitmap.Covers capacity)
    (hle : count = 0 ∨ sector + count ≤ capacity) :
    ∃ bitmap', bitmap.setCopiedFrom sector count = some bitmap' ∧ bitmap'.Covers capacity ∧
      ∀ other < capacity, bitmap'.backend other =
        if sector ≤ other ∧ other < sector + count then some .copied
        else bitmap.backend other := by
  induction count generalizing bitmap sector with
  | zero =>
    refine ⟨bitmap, rfl, h, ?_⟩
    intro other _
    rw [if_neg (by omega)]
  | succ count ih =>
    obtain ⟨bitmap₁, hset, hcovers, hone⟩ := setCopied_spec h (by omega : sector < capacity)
    obtain ⟨bitmap', hrest, hcovers', hall⟩ := @ih bitmap₁ (sector + 1) hcovers (by omega)
    refine ⟨bitmap', ?_, hcovers', ?_⟩
    · simp only [setCopiedFrom, hset, hrest]
    · intro other hother
      rw [hall other hother, hone other hother]
      split_ifs <;> first | rfl | omega

end Bitmap

def Request.Valid (request : Request) (capacity : ℕ) : Prop :=
  sectorSize ∣ totalBytes request.ranges ∧
    (totalBytes request.ranges = 0 ∨
      request.sector + totalBytes request.ranges / sectorSize ≤ capacity)

/-- The operations that the backend serves: reads that do not end with an empty range and writes
within the copied disk. -/
def Operation.Served (copiedCapacity : ℕ) : Operation → Prop
  | .read request => EndsFull request.ranges
  | .write _ request => request.Within copiedCapacity

theorem Request.within_iff {request : Request} {count capacity : ℕ}
    (hcount : totalBytes request.ranges = count * sectorSize) :
    request.Within capacity ↔ count = 0 ∨ request.sector + count ≤ capacity := by
  simp only [Within, hcount, sectorSize]
  omega

section Parts

variable {targetResolver : ℕ → Option TargetBackend} {request : Request} {count : ℕ}

theorem contiguous_spec {target : TargetBackend} {start remaining sector : ℕ}
    (hdefined : ∀ j < sector + remaining, ∃ t, targetResolver (start + j) = some t)
    (hsame : ∀ j < sector, targetResolver (start + j) = some target) :
    ∃ found, contiguous targetResolver target start remaining sector = some found ∧
      sector ≤ found ∧ found ≤ sector + remaining ∧
      ∀ j < found, targetResolver (start + j) = some target := by
  induction remaining generalizing sector with
  | zero => exact ⟨sector, rfl, Nat.le_refl _, Nat.le_refl _, hsame⟩
  | succ remaining ih =>
    obtain ⟨other, hother⟩ := hdefined sector (by omega)
    simp only [contiguous, hother]
    split
    case isTrue heq =>
      subst heq
      obtain ⟨found, hfound, hge, hle, hall⟩ := @ih (sector + 1)
        (fun j hj => hdefined j (by omega)) (by
          intro j hj
          rcases Nat.lt_or_ge j sector with hlt | hge
          · exact hsame j hlt
          · rw [Nat.le_antisymm (Nat.le_of_lt_succ hj) hge]
            exact hother)
      exact ⟨found, hfound, by omega, by omega, hall⟩
    case isFalse => exact ⟨sector, rfl, Nat.le_refl _, by omega, hsame⟩

/-- The next part of a request with `count + 1` sectors. -/
theorem nextByBackend_spec (hcount : totalBytes request.ranges = (count + 1) * sectorSize)
    (hdefined : ∀ j < count + 1, ∃ t, targetResolver (request.sector + j) = some t) :
    ∃ target sector r rest,
      nextByBackend targetResolver request = some (some ((target, r), rest)) ∧
      0 < sector ∧ sector ≤ count + 1 ∧
      (∀ j < sector, targetResolver (request.sector + j) = some target) ∧
      r.sector = request.sector ∧ rest.sector = request.sector + sector ∧
      totalBytes r.ranges = sector * sectorSize ∧
      totalBytes rest.ranges = (count + 1 - sector) * sectorSize ∧
      addresses r.ranges ++ addresses rest.ranges = addresses request.ranges ∧
      (EndsFull rest.ranges ↔ EndsFull request.ranges) := by
  have hne : request.ranges.isEmpty = false := by
    rw [isEmpty_eq_false_iff]
    intro hranges
    simp [hranges, sectorSize] at hcount
  have hlen : totalBytes request.ranges / sectorSize - 1 = count := by
    rw [hcount, Nat.mul_div_cancel _ (by decide)]
    rfl
  obtain ⟨target, htarget⟩ := hdefined 0 (Nat.succ_pos _)
  obtain ⟨sector, hscan, hge, hle, hsame⟩ := @contiguous_spec targetResolver target
    request.sector count 1 (fun j hj => hdefined j (by omega)) (by
      intro j hj
      rw [Nat.lt_one_iff.mp hj]
      exact htarget)
  have hbytes : sector * sectorSize ≤ 0 + totalBytes request.ranges := by
    rw [hcount, Nat.zero_add]
    exact Nat.mul_le_mul_right _ (by omega)
  obtain ⟨v1, v2, hsplit, htotal, haddresses, hends⟩ :=
    splitRanges_spec (Nat.mul_pos hge (by decide)) hbytes
  have hrest := congrArg length haddresses
  simp only [length_append, length_addresses] at hrest
  refine ⟨target, sector, ⟨request.sector, v1⟩, ⟨request.sector + sector, v2⟩, ?_, hge,
    by omega, hsame, rfl, rfl, (Nat.zero_add _).symm.trans htotal, ?_, haddresses, hends⟩
  · simp only [nextByBackend, hne, htarget, hlen, hscan, Request.splitAt, hsplit]
    rfl
  · change totalBytes v2 = _
    rw [Nat.sub_mul]
    omega

/-- Nothing can be split off a request without sectors. -/
theorem nextByBackend_none (hranges : request.ranges ≠ [])
    (htotal : totalBytes request.ranges = 0) : nextByBackend targetResolver request = none := by
  simp only [nextByBackend, isEmpty_eq_false_iff.mpr hranges, htotal]
  cases targetResolver (request.sector + 0) with
  | none => rfl
  | some target =>
    have hsplit : splitRanges (1 * sectorSize) 0 request.ranges = none := by
      apply splitRanges_none
      rw [htotal]
      decide
    simp only [Nat.zero_div, Nat.zero_sub, contiguous, Request.splitAt, hsplit]
    rfl

theorem eq_nil_of_total (h : totalBytes request.ranges = 0) (hends : EndsFull request.ranges) :
    request.ranges = [] := by
  rcases eq_nil_or_concat request.ranges with hnil | ⟨front, last, hlast⟩
  · exact hnil
  · rw [hlast, concat_eq_append] at h hends
    have hzero : last.len = 0 := by
      simp only [totalBytes, map_append, sum_append, map_singleton,
        sum_singleton] at h
      omega
    exact absurd hzero (hends last (by simp))

/-- A request that ends with an empty range makes the iterator panic. -/
theorem byBackend_none (fuel : ℕ) (hcount : totalBytes request.ranges = count * sectorSize)
    (hdefined : ∀ j < count, ∃ t, targetResolver (request.sector + j) = some t)
    (hends : ¬ EndsFull request.ranges) : byBackend targetResolver fuel request = none := by
  induction fuel generalizing request count with
  | zero => rfl
  | succ fuel ih =>
    cases count with
    | zero =>
      have hranges : request.ranges ≠ [] := by
        intro hnil
        apply hends
        rw [hnil]
        intro range hrange
        cases hrange
      rw [byBackend, nextByBackend_none hranges (by rw [hcount, Nat.zero_mul])]
    | succ count =>
      obtain ⟨target, sector, r, rest, hnext, -, -, -, -, hsector, -, hcount', -, hends'⟩ :=
        nextByBackend_spec hcount hdefined
      have hnone := @ih rest (count + 1 - sector) hcount' (by
        intro j hj
        rw [hsector, Nat.add_assoc]
        exact hdefined (sector + j) (by omega)) (fun h => hends (hends'.mp h))
      simp only [byBackend, hnext, hnone, Option.map_none]

end Parts

/-- The backend and a plain disk: the bitmap says for each sector which of the two disks has its
bytes. -/
structure Mirrors (cow : CopyOnWriteBackend) (plain : Disk) : Prop where
  capacity : plain.capacity = cow.backing.capacity
  covers : cow.bitmap.Covers cow.backing.capacity
  targets : ∀ sector < cow.backing.capacity, ∃ target,
    cow.bitmap.backend sector = some target ∧ sector < (cow.disk target).capacity ∧
    ∀ x, x / sectorSize = sector → plain.data x = (cow.disk target).data x

section Read

variable {cow : CopyOnWriteBackend} {plain : Disk} {request : Request}

/-- A part of a read whose sectors have one target reads what the plain disk has. -/
theorem Mirrors.read_part (h : Mirrors cow plain) {target : TargetBackend} {sector : ℕ}
    (hpos : 0 < sector) (htotal : totalBytes request.ranges = sector * sectorSize)
    (hcapacity : request.sector + sector ≤ cow.backing.capacity)
    (hsame : ∀ j < sector, cow.bitmap.backend (request.sector + j) = some target) :
    (cow.disk target).read request =
      .ok (transfers plain.data (request.sector * sectorSize) (addresses request.ranges)) := by
  have htargets {s : ℕ} (hge : request.sector ≤ s) (hlt : s < request.sector + sector) :
      s < (cow.disk target).capacity ∧
        ∀ x, x / sectorSize = s → plain.data x = (cow.disk target).data x := by
    obtain ⟨t, ht, hrest⟩ := h.targets s (by omega)
    have hsame' := hsame (s - request.sector) (by omega)
    rw [Nat.add_sub_cancel' hge] at hsame'
    rw [hsame'] at ht
    cases ht
    exact hrest
  have hlast := (htargets (s := request.sector + (sector - 1)) (by omega) (by omega)).1
  rw [Disk.read, if_pos ((Request.within_iff htotal).mpr (.inr (by omega)))]
  congr 1
  apply transfers_congr
  intro x hge hlt
  rw [length_addresses, htotal, ← Nat.add_mul] at hlt
  exact ((htargets ((Nat.le_div_iff_mul_le (by decide)).mpr hge)
    (Nat.div_lt_of_lt_mul (Nat.mul_comm _ _ ▸ hlt))).2 x rfl).symm

theorem Mirrors.defined (h : Mirrors cow plain)
    (hcapacity : count = 0 ∨ request.sector + count ≤ cow.backing.capacity) :
    ∀ j < count, ∃ t, cow.bitmap.backend (request.sector + j) = some t := by
  intro j hj
  obtain ⟨t, ht, -⟩ := h.targets (request.sector + j) (by omega)
  exact ⟨t, ht⟩

/-- The parts of a read, put together, read what the plain disk has. -/
theorem Mirrors.read_parts (h : Mirrors cow plain) {fuel : ℕ} (hfuel : count < fuel)
    (hcount : totalBytes request.ranges = count * sectorSize)
    (hcapacity : count = 0 ∨ request.sector + count ≤ cow.backing.capacity)
    (hends : EndsFull request.ranges) :
    ∃ parts, byBackend cow.bitmap.backend fuel request = some parts ∧
      cow.readParts parts =
        .ok (transfers plain.data (request.sector * sectorSize) (addresses request.ranges)) := by
  induction fuel generalizing request count with
  | zero => omega
  | succ fuel ih =>
    cases count with
    | zero =>
      have hnil := eq_nil_of_total (by rw [hcount, Nat.zero_mul]) hends
      refine ⟨[], ?_, ?_⟩
      · simp [byBackend, nextByBackend, hnil]
      · rw [hnil]
        rfl
    | succ count =>
      obtain ⟨target, sector, r, rest, hnext, hpos, hle, hsame, hr, hsector, htotal, hcount',
        haddresses, hends'⟩ := nextByBackend_spec hcount (h.defined hcapacity)
      obtain ⟨parts, hparts, hread⟩ := @ih rest (count + 1 - sector) (by omega) hcount'
        (by omega) (hends'.mpr hends)
      have hpart := @Mirrors.read_part cow plain r h target sector hpos htotal
        (by omega) (hr ▸ hsame)
      refine ⟨(target, r) :: parts, ?_, ?_⟩
      · simp only [byBackend, hnext, hparts, Option.map_some]
      · simp only [readParts, hpart, hread]
        rw [← haddresses, transfers_append, length_addresses, htotal, hr, hsector, ← Nat.add_mul]
        rfl

/-- The number of sectors of a valid request. -/
theorem Request.Valid.sectors {capacity : ℕ} (h : request.Valid capacity) :
    ∃ count, totalBytes request.ranges = count * sectorSize ∧
      totalBytes request.ranges / sectorSize = count ∧
      (count = 0 ∨ request.sector + count ≤ capacity) := by
  obtain ⟨⟨count, hcount⟩, hcapacity⟩ := h
  simp only [sectorSize] at hcount hcapacity ⊢
  exact ⟨count, by omega, by omega, by omega⟩

theorem Request.Valid.within {capacity : ℕ} (h : request.Valid capacity) :
    request.Within capacity := by
  obtain ⟨count, hcount, -, hcapacity⟩ := h.sectors
  exact (Request.within_iff hcount).mpr hcapacity

theorem Mirrors.read_served (h : Mirrors cow plain) (hvalid : request.Valid cow.backing.capacity)
    (hends : EndsFull request.ranges) :
    ∃ bytes, cow.read request = some (.ok bytes) ∧ plain.read request = .ok bytes := by
  obtain ⟨count, hcount, hdiv, hcapacity⟩ := hvalid.sectors
  obtain ⟨parts, hparts, hread⟩ := h.read_parts (by omega : count < count + 2) hcount hcapacity
    hends
  refine ⟨_, ?_, if_pos (h.capacity ▸ hvalid.within)⟩
  simp only [CopyOnWriteBackend.read, hdiv, hparts, hread]

theorem Mirrors.read_panics (h : Mirrors cow plain) (hvalid : request.Valid cow.backing.capacity)
    (hends : ¬ EndsFull request.ranges) : cow.read request = none := by
  obtain ⟨count, hcount, -, hcapacity⟩ := hvalid.sectors
  simp only [CopyOnWriteBackend.read, byBackend_none _ hcount (h.defined hcapacity) hends]

end Read

section Write

variable {cow : CopyOnWriteBackend} {plain : Disk} {request : Request} {memory : ℕ → UInt8}

/-- Inside the request the old bytes do not matter. -/
theorem overwrite_inside {data data' : ℕ → UInt8}
    (hge : request.sector * sectorSize ≤ x)
    (hlt : x < request.sector * sectorSize + totalBytes request.ranges) :
    request.overwrite memory data x = request.overwrite memory data' x := by
  have hindex : x - request.sector * sectorSize < (addresses request.ranges).length := by
    rw [length_addresses]
    omega
  simp only [Request.overwrite, getElem?_eq_getElem hindex, if_pos hge]

theorem overwrite_outside {data : ℕ → UInt8}
    (h : x < request.sector * sectorSize ∨
      request.sector * sectorSize + totalBytes request.ranges ≤ x) :
    request.overwrite memory data x = data x := by
  unfold Request.overwrite
  split
  case h_1 address haddress =>
    obtain ⟨hindex, -⟩ := List.getElem?_eq_some_iff.mp haddress
    rw [length_addresses] at hindex
    rw [if_neg (by omega)]
  case h_2 => rfl

theorem Mirrors.write_served (h : Mirrors cow plain) (hvalid : request.Valid cow.backing.capacity)
    (hwithin : request.Within cow.copied.capacity) :
    ∃ cow' plain', cow.write memory request = some (.ok cow') ∧
      plain.write memory request = .ok plain' ∧ Mirrors cow' plain' ∧
      cow'.backing = cow.backing ∧ cow'.copied.capacity = cow.copied.capacity := by
  obtain ⟨count, hcount, hdiv, hcapacity⟩ := hvalid.sectors
  obtain ⟨bitmap', hset, hcovers, hbackend⟩ := Bitmap.setCopiedFrom_spec h.covers hcapacity
  have hcopied : cow.copied.write memory request =
      .ok { cow.copied with data := request.overwrite memory cow.copied.data } := if_pos hwithin
  refine ⟨{ cow with
      copied := { cow.copied with data := request.overwrite memory cow.copied.data }
      bitmap := bitmap' },
    { plain with data := request.overwrite memory plain.data }, ?_,
    if_pos (h.capacity ▸ hvalid.within), ⟨h.capacity, hcovers, ?_⟩, rfl, rfl⟩
  · simp only [write, hcopied, hdiv, hset]
  · intro sector hsector
    by_cases hin : request.sector ≤ sector ∧ sector < request.sector + count
    · refine ⟨.copied, ?_, ?_, ?_⟩
      · rw [hbackend sector hsector, if_pos hin]
      · change sector < cow.copied.capacity
        have hle := (Request.within_iff hcount).mp hwithin
        omega
      · intro x hx
        apply overwrite_inside
        · exact (Nat.le_div_iff_mul_le (by decide)).mp (hx ▸ hin.1)
        · rw [hcount, ← Nat.add_mul]
          exact (Nat.div_lt_iff_lt_mul (by decide)).mp (hx ▸ hin.2)
    · obtain ⟨target, htarget, hlt, hdata⟩ := h.targets sector hsector
      refine ⟨target, ?_, ?_, ?_⟩
      · rw [hbackend sector hsector, if_neg hin, htarget]
      · cases target with
        | backing => exact hlt
        | copied => exact hlt
      · intro x hx
        have hout : x < request.sector * sectorSize ∨
            request.sector * sectorSize + totalBytes request.ranges ≤ x := by
          simp only [hcount, sectorSize] at hx ⊢
          omega
        change request.overwrite memory plain.data x = _
        rw [overwrite_outside hout, hdata x hx]
        cases target with
        | backing => rfl
        | copied => exact (overwrite_outside hout).symm

end Write

theorem new_mirrors {backing copied : Disk} {cow : CopyOnWriteBackend}
    (h : new backing copied = .ok cow) :
    Mirrors cow backing ∧ cow.backing = backing ∧ cow.copied = copied := by
  unfold new at h
  split at h
  · cases h
  · cases h
    refine ⟨⟨rfl, Bitmap.withSize_covers, ?_⟩, rfl, rfl⟩
    intro sector hsector
    exact ⟨.backing, Bitmap.backend_withSize hsector, hsector, fun _ _ => rfl⟩

/-- All operations complete, the reads return what a plain disk returns and the backing disk is
left as it is. -/
def Agrees (cow : CopyOnWriteBackend) (plain : Disk) (operations : List Operation) : Prop :=
  ∃ replies cow', cow.run operations = some (.ok (replies, cow')) ∧
    plain.run operations = .ok replies ∧ cow'.backing = cow.backing

section Agrees

variable {cow : CopyOnWriteBackend} {plain : Disk} {request : Request} {memory : ℕ → UInt8}
  {operations : List Operation}

/-- A served read leaves it to the other operations whether the backend agrees. -/
theorem Mirrors.agrees_read (h : Mirrors cow plain) (hvalid : request.Valid cow.backing.capacity)
    (hends : EndsFull request.ranges) :
    Agrees cow plain (.read request :: operations) ↔ Agrees cow plain operations := by
  obtain ⟨bytes, hcow, hplain⟩ := h.read_served hvalid hends
  constructor
  · rintro ⟨replies, cow', hrun, hdisk, hbacking⟩
    simp only [run, hcow] at hrun
    obtain ⟨_, -, hdisk⟩ := bind_eq_ok.mp hdisk
    obtain ⟨replies', hreplies', hdisk⟩ := bind_eq_ok.mp hdisk
    cases pure_eq_ok.mp hdisk
    split at hrun
    case h_1 => cases hrun
    case h_2 => cases hrun
    case h_3 hrun₁ =>
      cases hrun
      exact ⟨replies', cow', hrun₁, hreplies', hbacking⟩
  · rintro ⟨replies, cow', hrun, hdisk, hbacking⟩
    refine ⟨bytes :: replies, cow', ?_, ?_, hbacking⟩
    · simp only [run, hcow, hrun]
    · simp only [Disk.run, hplain, hdisk]
      rfl

theorem not_agrees_write (hwithin : ¬ request.Within cow.copied.capacity) :
    ¬ Agrees cow plain (.write memory request :: operations) := by
  have herror : cow.copied.write memory request = .error .outOfRange := if_neg hwithin
  rintro ⟨replies, cow', hrun, -⟩
  simp only [run, write, herror] at hrun
  cases hrun

theorem Mirrors.agrees_iff (h : Mirrors cow plain)
    (hvalid : ∀ op ∈ operations, op.request.Valid cow.backing.capacity) :
    Agrees cow plain operations ↔ ∀ op ∈ operations, op.Served cow.copied.capacity := by
  induction operations generalizing cow plain with
  | nil =>
    constructor
    · intro _ op hop
      cases hop
    · intro _
      exact ⟨[], cow, rfl, rfl, rfl⟩
  | cons op operations ih =>
    have hop := hvalid op mem_cons_self
    have hrest : ∀ op ∈ operations, op.request.Valid cow.backing.capacity :=
      (forall_mem_cons.mp hvalid).2
    rw [forall_mem_cons]
    cases op with
    | read request =>
      change request.Valid _ at hop
      change _ ↔ EndsFull request.ranges ∧ _
      by_cases hends : EndsFull request.ranges
      · rw [h.agrees_read hop hends, ih h hrest, and_iff_right hends]
      · refine iff_of_false ?_ fun hserved => hends hserved.1
        rintro ⟨replies, cow', hrun, -⟩
        simp only [run, h.read_panics hop hends] at hrun
        cases hrun
    | write memory request =>
      change _ ↔ request.Within cow.copied.capacity ∧ _
      by_cases hwithin : request.Within cow.copied.capacity
      · obtain ⟨cow₁, plain₁, hcow, hplain, hmirrors, hbacking, hcapacity⟩ :=
          @Mirrors.write_served cow plain request memory h hop hwithin
        have hiff := ih hmirrors (hbacking ▸ hrest)
        rw [hcapacity] at hiff
        rw [← hiff, and_iff_right hwithin]
        simp only [Agrees, run, hcow, Disk.run, hplain, hbacking]
        rfl
      · exact iff_of_false (not_agrees_write hwithin) (fun hserved => hwithin hserved.1)

end Agrees

/-- A backend over two disks agrees with a plain disk that starts as the backing disk exactly on
the runs in which no read ends with an empty range and no write reaches beyond the copied disk. -/
theorem cow_agrees_iff {backing copied : Disk} {cow : CopyOnWriteBackend}
    (hnew : new backing copied = .ok cow) {operations : List Operation}
    (hvalid : ∀ op ∈ operations, op.request.Valid backing.capacity) :
    Agrees cow backing operations ↔ ∀ op ∈ operations, op.Served copied.capacity := by
  obtain ⟨hmirrors, hbacking, hcopied⟩ := new_mirrors hnew
  rw [hmirrors.agrees_iff (hbacking ▸ hvalid), hcopied]

def blank (capacity : ℕ) : Disk := ⟨capacity, fun _ => 0⟩

theorem cow_agrees_iff_blank :
    new (blank 2) (blank 1) =
        .ok ⟨blank 2, blank 1, Bitmap.withSize 2⟩ ∧
      Agrees ⟨blank 2, blank 1, Bitmap.withSize 2⟩ (blank 2)
        [.write (fun _ => 7) ⟨0, [⟨0, 0⟩, ⟨16, 512⟩]⟩,
          .read ⟨0, [⟨0, 700⟩, ⟨0, 0⟩, ⟨900, 324⟩]⟩] := by
  have hnew : new (blank 2) (blank 1) =
      .ok ⟨blank 2, blank 1, Bitmap.withSize 2⟩ := rfl
  refine ⟨hnew, (cow_agrees_iff hnew ?_).mpr ?_⟩
  · intro op hop
    rcases mem_pair.mp hop with rfl | rfl
    · exact ⟨⟨1, rfl⟩, .inr (by decide)⟩
    · exact ⟨⟨2, rfl⟩, .inr (by decide)⟩
  · intro op hop
    rcases mem_pair.mp hop with rfl | rfl
    · exact .inr (by decide)
    · intro range hrange
      cases hrange
      decide

/-- Two accepted pairs of disks on which a request fails: the second of two disks has one sector
less and a write to the last sector fails; and a read of one sector with an empty range after it
panics. -/
theorem cow_fails :
    (∃ cow, new (blank 2) (blank 1) = .ok cow ∧
      Request.Valid ⟨1, [⟨0, 512⟩]⟩ 2 ∧
      cow.run [.write (fun _ => 7) ⟨1, [⟨0, 512⟩]⟩] = some (.error .outOfRange)) ∧
    ∃ cow, new (blank 2) (blank 2) = .ok cow ∧
      Request.Valid ⟨0, [⟨0, 512⟩, ⟨0, 0⟩]⟩ 2 ∧
      cow.run [.read ⟨0, [⟨0, 512⟩, ⟨0, 0⟩]⟩] = none := by
  have hvalid : Request.Valid ⟨0, [⟨0, 512⟩, ⟨0, 0⟩]⟩ 2 := ⟨⟨1, rfl⟩, .inr (by decide)⟩
  have hnew : new (blank 2) (blank 2) =
      .ok ⟨blank 2, blank 2, Bitmap.withSize 2⟩ := rfl
  have hpanics := (new_mirrors hnew).1.read_panics hvalid (fun hends => hends ⟨0, 0⟩ rfl rfl)
  have herror : (blank 1).write (fun _ => 7) ⟨1, [⟨0, 512⟩]⟩ = .error .outOfRange :=
    if_neg (by decide)
  refine ⟨⟨⟨blank 2, blank 1, Bitmap.withSize 2⟩, rfl, ⟨⟨1, rfl⟩, .inr (by decide)⟩, ?_⟩,
    ⟨_, hnew, hvalid, ?_⟩⟩
  · simp only [run, write, herror]
  · simp only [run, hpanics]

end Smos.Block
