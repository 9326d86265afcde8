import Smos.Fxfs.ChecksumVerify
import Smos.Lib.Bytes

/-!
The checksum list as it follows the journal.

First writes of new blocks make one entry each.  A deallocation goes through the entries in the
order of the device; block by block, it sets the end of every checksum in its range.
-/
namespace Smos.Fxfs

open Std (TreeMap)
open List hiding after map_map
open Lib ChecksumEntry ChecksumList OrderedMap Option

variable {c d start stop : ℕ} {entry : ChecksumEntry} {entries : List ChecksumEntry}
  {list list' : ChecksumList} {map : TreeMap ℕ ℕ}

section Deallocate

def ChecksumEntry.deallocate (c d : ℕ) (range : Range) (entry : ChecksumEntry) : ChecksumEntry :=
  { entry with
    checksums := entry.checksums.mapIdx fun m s =>
      if range.start ≤ entry.deviceRange.start + c * m ∧
        entry.deviceRange.start + c * m < range.stop then (s.1, d) else s }

theorem ChecksumEntry.Aligned.deallocate (h : entry.Aligned c) (range : Range) :
    (entry.deallocate c d range).Aligned c := by
  refine ⟨h.dvd, ?_, ?_⟩
  · rw [ChecksumEntry.deallocate, length_mapIdx]
    exact h.stop_eq
  · rw [ChecksumEntry.deallocate, length_mapIdx]
    exact h.nonempty

theorem ChecksumEntry.deallocate_congr {range range' : Range}
    (h : ∀ m, m < entry.checksums.length →
      (range.start ≤ entry.deviceRange.start + c * m ∧
        entry.deviceRange.start + c * m < range.stop ↔
      range'.start ≤ entry.deviceRange.start + c * m ∧
        entry.deviceRange.start + c * m < range'.stop)) :
    entry.deallocate c d range = entry.deallocate c d range' := by
  rw [deallocate]
  congr 1
  apply ext_getElem?
  intro m
  rw [getElem?_mapIdx, getElem?_mapIdx]
  rcases Nat.lt_or_ge m entry.checksums.length with hlt | hge
  · simp only [h m hlt]
  · rw [getElem?_eq_none hge]
    rfl

/-- A deallocation outside the range of an entry. -/
theorem ChecksumEntry.deallocate_of_disjoint (h : entry.Aligned c) (hc : 0 < c) {range : Range}
    (hdisjoint : entry.deviceRange.stop ≤ range.start ∨ range.stop ≤ entry.deviceRange.start) :
    entry.deallocate c d range = entry := by
  have hempty : entry.deallocate c d ⟨0, 0⟩ = entry := by simp [deallocate, mapIdx_eq_zipIdx_map]
  refine (deallocate_congr fun m hm => ?_).trans hempty
  have hlast : c * m < c * entry.checksums.length := Nat.mul_lt_mul_of_pos_left hm hc
  have hstop := h.stop_eq
  dsimp only
  omega

theorem getElem?_updateSlice {α : Type} {l : List α} {first last : ℕ} (f : α → α)
    (hle : first ≤ last) (hlast : last ≤ l.length) (m : ℕ) :
    (l.take first ++ ((l.take last).drop first).map f ++ l.drop last)[m]? =
      if first ≤ m ∧ m < last then l[m]?.map f else l[m]? := by
  have hslice : first + (((l.take last).drop first).map f).length = last := by
    rw [length_map, length_drop, length_take_of_le hlast, Nat.add_sub_cancel' hle]
  have hget := Bytes.getElem?_splice (hslice.trans_le hlast) m
  rw [Bytes.splice, hslice] at hget
  rw [hget]
  split_ifs with hout hin
  · omega
  · rfl
  · rw [getElem?_map, getElem?_drop, Nat.add_sub_cancel' (by omega), getElem?_take_of_lt (by omega)]
  · omega

/-- Setting the end of the checksums in an index range is a deallocation of the range it stands
for. -/
theorem updateSlice_eq_deallocate {first last : ℕ} {range : Range} (hle : first ≤ last)
    (hlast : last ≤ entry.checksums.length)
    (h : ∀ m, m < entry.checksums.length → (first ≤ m ∧ m < last ↔
      range.start ≤ entry.deviceRange.start + c * m ∧
        entry.deviceRange.start + c * m < range.stop)) :
    entry.updateSlice first last (endAt d) = .ok (entry.deallocate c d range) := by
  rw [updateSlice, if_neg (by omega)]
  change Except.ok _ = Except.ok _
  congr 1
  congr 1
  apply ext_getElem?
  intro m
  rw [getElem?_updateSlice _ hle hlast, getElem?_mapIdx]
  rcases Nat.lt_or_ge m entry.checksums.length with hlt | hge
  · rw [getElem?_eq_getElem hlt, map_some, map_some]
    by_cases hin : first ≤ m ∧ m < last
    · rw [if_pos hin, if_pos ((h m hlt).mp hin)]
    · rw [if_neg hin, if_neg fun hrange => hin ((h m hlt).mpr hrange)]
  · rw [getElem?_eq_none hge]
    split_ifs <;> rfl

section

variable (h : entry.Aligned c) (hc : 0 < c)
include h hc

/-- The index that `mark_deallocated` starts at. -/
theorem ChecksumEntry.Aligned.indexFrom (hstart : c ∣ start) :
    ∃ first, entry.indexFrom start c = .ok first ∧
      ∀ m, first ≤ m ↔ start ≤ entry.deviceRange.start + c * m := by
  obtain ⟨a, ha⟩ := h.dvd
  obtain ⟨x, hx⟩ := hstart
  refine ⟨x - a, ?_, ?_⟩
  · rw [ChecksumEntry.indexFrom, checkedDiv, if_neg hc.ne']
    split_ifs with hbefore
    · rw [hx, ha] at hbefore
      rw [Nat.sub_eq_zero_of_le (Nat.lt_of_mul_lt_mul_left hbefore).le]
    · rw [hx, ha, ← Nat.mul_sub, Nat.mul_div_cancel_left _ hc]
  · intro m
    rw [ha, hx, ← Nat.mul_add, Nat.mul_le_mul_left_iff hc]
    omega

/-- The index that `mark_deallocated` ends at, in the entry that covers the end of the range. -/
theorem ChecksumEntry.Aligned.indexTo (hstop : c ∣ stop) :
    ∃ last, checkedDiv (stop - entry.deviceRange.start) c = .ok last ∧
      ∀ m, m < last ↔ entry.deviceRange.start + c * m < stop := by
  obtain ⟨a, ha⟩ := h.dvd
  obtain ⟨y, hy⟩ := hstop
  refine ⟨y - a, ?_, ?_⟩
  · rw [checkedDiv, if_neg hc.ne', hy, ha, ← Nat.mul_sub, Nat.mul_div_cancel_left _ hc]
  · intro m
    rw [ha, hy, ← Nat.mul_add, Nat.mul_lt_mul_left hc]
    omega

/-- An entry that covers the remainder of the range. -/
theorem ChecksumEntry.Aligned.deallocate_covers
    (hstart : c ∣ start) (hstop : c ∣ stop) (hle : start ≤ stop)
    (hcovers : stop ≤ entry.deviceRange.stop) :
    ∃ first last, entry.indexFrom start c = .ok first ∧
      checkedDiv (stop - entry.deviceRange.start) c = .ok last ∧
      entry.updateSlice first last (endAt d) =
        .ok (entry.deallocate c d ⟨start, stop⟩) := by
  obtain ⟨first, hfirst, hfrom⟩ := h.indexFrom hc hstart
  obtain ⟨last, hlast, hto⟩ := h.indexTo hc hstop
  have hstop_eq := h.stop_eq
  have horder : first ≤ last := by
    have hself := hto last
    rw [hfrom]
    omega
  have hend : last ≤ entry.checksums.length := by
    by_contra hgt
    have hlt := (hto entry.checksums.length).mp (Nat.lt_of_not_le hgt)
    omega
  exact ⟨first, last, hfirst, hlast,
    updateSlice_eq_deallocate horder hend fun m _ => and_congr (hfrom m) (hto m)⟩

/-- An entry that ends inside the range. -/
theorem ChecksumEntry.Aligned.deallocate_rest
    (hstart : c ∣ start) (hlt : start < entry.deviceRange.stop)
    (hinside : entry.deviceRange.stop < stop) :
    ∃ first, entry.indexFrom start c = .ok first ∧
      entry.updateSlice first entry.checksums.length (endAt d) =
        .ok (entry.deallocate c d ⟨start, stop⟩) := by
  obtain ⟨first, hfirst, hfrom⟩ := h.indexFrom hc hstart
  have hstop_eq := h.stop_eq
  have horder : first ≤ entry.checksums.length := by
    rw [hfrom]
    omega
  refine ⟨first, hfirst, updateSlice_eq_deallocate horder (Nat.le_refl _) ?_⟩
  intro m hm
  refine and_congr (hfrom m) (iff_of_true hm ?_)
  have hin : c * m < c * entry.checksums.length := Nat.mul_lt_mul_of_pos_left hm hc
  change entry.deviceRange.start + c * m < stop
  omega

end

end Deallocate

section List

variable {positions : List (ℕ × ℕ)} {range : Range}

def ChecksumEntry.Disjoint (entry entry' : ChecksumEntry) : Prop :=
  entry.deviceRange.stop ≤ entry'.deviceRange.start ∨
    entry'.deviceRange.stop ≤ entry.deviceRange.start

def Apart (entries : List ChecksumEntry) : Prop :=
  ∀ (i j : ℕ) (e e' : ChecksumEntry), entries[i]? = some e → entries[j]? = some e' → i ≠ j →
    e.Disjoint e'

/-- The entries are aligned and apart from each other, and each is found by where it ends. -/
structure Indexed (c : ℕ) (map : TreeMap ℕ ℕ) (entries : List ChecksumEntry) : Prop where
  aligned : ∀ e ∈ entries, e.Aligned c
  apart : Apart entries
  mem_map : ∀ k i, map[k]? = some i ↔
    ∃ e : ChecksumEntry, entries[i]? = some e ∧ e.deviceRange.stop = k

theorem ChecksumEntry.Aligned.lt (h : entry.Aligned c) (hc : 0 < c) :
    entry.deviceRange.start < entry.deviceRange.stop := by
  rw [h.stop_eq]
  exact Nat.lt_add_of_pos_right (Nat.mul_pos hc h.nonempty)

/-- Entries that end in the order of a list of positions. -/
structure Ahead (start : ℕ) (positions : List (ℕ × ℕ)) (entries : List ChecksumEntry) :
    Prop where
  sorted : positions.Pairwise fun p q => p.1 < q.1
  entry : ∀ p ∈ positions, start < p.1 ∧
    ∃ e : ChecksumEntry, entries[p.2]? = some e ∧ e.deviceRange.stop = p.1

/-- The entries after the first are behind its end. -/
theorem Ahead.behind {k index : ℕ} (hc : 0 < c)
    (h : Ahead start ((k, index) :: positions) entries) (hindexed : Indexed c map entries)
    {q : ℕ × ℕ} (hq : q ∈ positions) :
    q.2 ≠ index ∧ k < q.1 ∧ ∃ e, entries[q.2]? = some e ∧ e.deviceRange.stop = q.1 ∧
      k ≤ e.deviceRange.start := by
  obtain ⟨-, e, he, hk⟩ := h.entry _ mem_cons_self
  obtain ⟨-, e', he', hq'⟩ := h.entry q (mem_cons_of_mem _ hq)
  have hkq : k < q.1 := (pairwise_cons.mp h.sorted).1 q hq
  have hne : q.2 ≠ index := by
    intro heq
    rw [heq, he] at he'
    cases he'
    omega
  refine ⟨hne, hkq, e', he', hq', ?_⟩
  have hnonempty := (hindexed.aligned e (mem_of_getElem? he)).lt hc
  rcases hindexed.apart index q.2 e e' he he' (Ne.symm hne) with hbefore | hafter
  · omega
  · omega

/-- The entries may change, if they stay aligned and where they are. -/
theorem Indexed.congr (h : Indexed c map entries) {entries' : List ChecksumEntry}
    (hlength : entries'.length = entries.length)
    (hget : ∀ (i : ℕ) (e e' : ChecksumEntry), entries[i]? = some e → entries'[i]? = some e' →
      e'.Aligned c ∧ e'.deviceRange = e.deviceRange) : Indexed c map entries' := by
  have hold : ∀ (i : ℕ) (e' : ChecksumEntry), entries'[i]? = some e' →
      ∃ e, entries[i]? = some e ∧ e'.Aligned c ∧ e'.deviceRange = e.deviceRange := by
    intro i e' he'
    obtain ⟨hi, -⟩ := List.getElem?_eq_some_iff.mp he'
    have he := getElem?_eq_getElem (hlength ▸ hi)
    exact ⟨_, he, hget i _ e' he he'⟩
  refine ⟨?_, ?_, ?_⟩
  · intro e' he'
    obtain ⟨i, hi⟩ := mem_iff_getElem?.mp he'
    obtain ⟨-, -, haligned, -⟩ := hold i e' hi
    exact haligned
  · intro i j e₁ e₂ h₁ h₂ hij
    obtain ⟨e₁', h₁', -, hr₁⟩ := hold i e₁ h₁
    obtain ⟨e₂', h₂', -, hr₂⟩ := hold j e₂ h₂
    rw [ChecksumEntry.Disjoint, hr₁, hr₂]
    exact h.apart i j e₁' e₂' h₁' h₂' hij
  · intro k i
    rw [h.mem_map k i]
    constructor
    · rintro ⟨e, he, hk⟩
      obtain ⟨hi, -⟩ := List.getElem?_eq_some_iff.mp he
      have he' := getElem?_eq_getElem (hlength.symm ▸ hi)
      exact ⟨_, he', (congrArg Range.stop (hget i e _ he he').2).trans hk⟩
    · rintro ⟨e', he', hk⟩
      obtain ⟨e, he, -, hr⟩ := hold i e' he'
      exact ⟨e, he, hr ▸ hk⟩

/-- Entries behind the end of a range stay as they are. -/
theorem Indexed.deallocate_behind (h : Indexed c map entries) (hc : 0 < c) {i : ℕ}
    {e : ChecksumEntry} (he : entries[i]? = some e) (hafter : stop ≤ e.deviceRange.start) :
    entries[i]?.map (·.deallocate c d ⟨start, stop⟩) = entries[i]? := by
  rw [he, map_some, deallocate_of_disjoint (h.aligned e (mem_of_getElem? he)) hc (.inr hafter)]

/-- So do the entries after one that covers the end of the range. -/
theorem Ahead.deallocate_tail {k index : ℕ} (hc : 0 < c)
    (h : Ahead start ((k, index) :: positions) entries) (hindexed : Indexed c map entries)
    (hcovers : stop ≤ k) {i : ℕ} (hi : i ∈ positions.map Prod.snd) :
    entries[i]?.map (·.deallocate c d ⟨start, stop⟩) = entries[i]? := by
  obtain ⟨q, hq, rfl⟩ := mem_map.mp hi
  obtain ⟨-, -, e, he, -, hbehind⟩ := h.behind hc hindexed hq
  exact hindexed.deallocate_behind hc he (hcovers.trans hbehind)

theorem Indexed.set_deallocate {index : ℕ} {e : ChecksumEntry} (h : Indexed c map entries)
    (he : entries[index]? = some e) (range : Range) :
    Indexed c map (entries.set index (e.deallocate c d range)) := by
  refine h.congr length_set ?_
  intro i e₁ e₂ h₁ h₂
  rw [getElem?_set] at h₂
  split_ifs at h₂ with hi
  · subst hi
    cases h₁.symm.trans he
    cases h₂
    exact ⟨(h.aligned _ (mem_of_getElem? h₁)).deallocate _, rfl⟩
  · cases h₁.symm.trans h₂
    exact ⟨h.aligned _ (mem_of_getElem? h₁), rfl⟩

theorem Ahead.tail_set {k index : ℕ} (hc : 0 < c)
    (h : Ahead start ((k, index) :: positions) entries) (hindexed : Indexed c map entries)
    (e : ChecksumEntry) : Ahead k positions (entries.set index e) := by
  refine ⟨(pairwise_cons.mp h.sorted).2, ?_⟩
  intro q hq
  obtain ⟨hne, hlt, e', he', hq', -⟩ := h.behind hc hindexed hq
  refine ⟨hlt, e', ?_, hq'⟩
  rw [getElem?_set_ne (Ne.symm hne)]
  exact he'

section Iteration

variable {k index : ℕ} {e : ChecksumEntry} (hc : 0 < c) (he : entries[index]? = some e)
  (hok : e.Aligned c) (hstart : c ∣ start) (hbegins : ¬ stop ≤ e.deviceRange.start)
include hc he hok hstart hbegins

/-- The iteration for the entry that covers the end of the range. -/
theorem deallocateLoop_covers (hstop : c ∣ stop) (hle : start ≤ stop)
    (hcovers : stop ≤ e.deviceRange.stop) :
    deallocateLoop d stop ((k, index) :: positions) start entries =
      .ok (entries.set index (e.deallocate c d ⟨start, stop⟩)) := by
  obtain ⟨first, last, hfirst, hlast, hslice⟩ :=
    hok.deallocate_covers (d := d) hc hstart hstop hle hcovers
  rw [deallocateLoop, he]
  dsimp only
  rw [if_neg hbegins, hok.chunkSize]
  change (e.indexFrom start c >>= _) = _
  rw [hfirst]
  change (if stop ≤ e.deviceRange.stop then _ else _) = _
  rw [if_pos hcovers, hlast]
  change (e.updateSlice first last (endAt d) >>= _) = _
  rw [hslice]
  rfl

/-- The iteration for an entry that ends inside the range. -/
theorem deallocateLoop_rest (hlt : start < e.deviceRange.stop)
    (hinside : ¬ stop ≤ e.deviceRange.stop) :
    deallocateLoop d stop ((k, index) :: positions) start entries =
      deallocateLoop d stop positions e.deviceRange.stop
        (entries.set index (e.deallocate c d ⟨start, stop⟩)) := by
  obtain ⟨first, hfirst, hslice⟩ :=
    hok.deallocate_rest (d := d) hc hstart hlt (Nat.lt_of_not_le hinside)
  rw [deallocateLoop, he]
  dsimp only
  rw [if_neg hbegins, hok.chunkSize]
  change (e.indexFrom start c >>= _) = _
  rw [hfirst]
  change (if stop ≤ e.deviceRange.stop then _ else _) = _
  rw [if_neg hinside, hslice]
  rfl

end Iteration

/-- The loop deallocates the entries ahead of it, block by block. -/
theorem deallocateLoop_spec (hc : 0 < c)
    (h : Indexed c map entries) (hahead : Ahead start positions entries) (hstart : c ∣ start)
    (hstop : c ∣ stop) (hle : start ≤ stop) :
    ∃ entries', deallocateLoop d stop positions start entries = .ok entries' ∧
      ∀ i, entries'[i]? = if i ∈ positions.map Prod.snd then
        entries[i]?.map (·.deallocate c d ⟨start, stop⟩) else entries[i]? := by
  induction positions generalizing start entries with
  | nil => exact ⟨entries, rfl, fun i => by simp⟩
  | cons p positions ih =>
    obtain ⟨k, index⟩ := p
    obtain ⟨hlt, e, he, hk⟩ := hahead.entry _ mem_cons_self
    subst hk
    have hok := h.aligned e (mem_of_getElem? he)
    have hnonempty := hok.lt hc
    have hindex := (List.getElem?_eq_some_iff.mp he).1
    by_cases hbegins : stop ≤ e.deviceRange.start
    · refine ⟨entries, by rw [deallocateLoop, he]; exact if_pos hbegins, ?_⟩
      intro i
      split_ifs with hi
      · rcases mem_cons.mp hi with rfl | hi
        · exact (h.deallocate_behind hc he hbegins).symm
        · exact (hahead.deallocate_tail hc h (by omega) hi).symm
      · rfl
    by_cases hcovers : stop ≤ e.deviceRange.stop
    · refine ⟨_, deallocateLoop_covers hc he hok hstart hbegins hstop hle hcovers, ?_⟩
      intro i
      by_cases hi : i = index
      · subst hi
        rw [getElem?_set_self hindex, if_pos (by simp), he]
        rfl
      · rw [getElem?_set_ne (Ne.symm hi)]
        split_ifs with hin
        · exact (hahead.deallocate_tail hc h hcovers ((mem_cons.mp hin).resolve_left hi)).symm
        · rfl
    · have hdvd : c ∣ e.deviceRange.stop := by
        rw [hok.stop_eq]
        exact Nat.dvd_add hok.dvd (Nat.dvd_mul_right _ _)
      obtain ⟨entries', hrun, hentries'⟩ := ih (h.set_deallocate he ⟨start, stop⟩)
        (hahead.tail_set hc h _) hdvd (Nat.le_of_not_le hcovers)
      refine ⟨entries',
        (deallocateLoop_rest hc he hok hstart hbegins hlt hcovers).trans hrun, ?_⟩
      intro i
      rw [hentries' i, map_cons]
      by_cases hi : i = index
      · subst hi
        have hnot : i ∉ positions.map Prod.snd := by
          intro hin
          obtain ⟨q, hq, heq⟩ := mem_map.mp hin
          exact (hahead.behind hc h hq).1 heq
        rw [if_neg hnot, getElem?_set_self hindex, if_pos mem_cons_self, he]
        rfl
      · rw [getElem?_set_ne (Ne.symm hi)]
        by_cases hin : i ∈ positions.map Prod.snd
        · obtain ⟨q, hq, rfl⟩ := mem_map.mp hin
          obtain ⟨-, -, e', he', -, hbehind⟩ := hahead.behind hc h hq
          rw [if_pos hin, if_pos (mem_cons_of_mem _ hin), he', map_some]
          congr 1
          refine deallocate_congr ?_
          intro m _
          dsimp only
          omega
        · rw [if_neg hin, if_neg fun hmem => (mem_cons.mp hmem).elim hi hin]

/-- A deallocation of an aligned range. -/
theorem ChecksumList.markDeallocated_spec (hc : 0 < c)
    (h : Indexed c list.deviceOffsetToChecksumEntry list.checksumEntries)
    (hflushed : list.flushedOffset ≤ d) (hstart : c ∣ range.start) (hstop : c ∣ range.stop)
    (hle : range.start ≤ range.stop) :
    list.markDeallocated d range = .ok { list with
      checksumEntries := list.checksumEntries.map (·.deallocate c d range) } := by
  have hahead : Ahead range.start
      (rangeFrom list.deviceOffsetToChecksumEntry (range.start + 1))
      list.checksumEntries := by
    refine ⟨rangeFrom_sorted _ _, ?_⟩
    rintro ⟨k, i⟩ hmem
    obtain ⟨hget, hlt⟩ := mem_rangeFrom.mp hmem
    exact ⟨hlt, (h.mem_map k i).mp hget⟩
  obtain ⟨entries', hrun, hentries'⟩ :=
    deallocateLoop_spec (d := d) hc h hahead hstart hstop hle
  have hmap : entries' = list.checksumEntries.map (·.deallocate c d range) := by
    apply ext_getElem?
    intro i
    rw [hentries' i, getElem?_map]
    split_ifs with hin
    · rfl
    · cases he : list.checksumEntries[i]? with
      | none => rfl
      | some e =>
        -- an entry that is not ahead ends before the range
        have hbefore : e.deviceRange.stop ≤ range.start := by
          by_contra hgt
          refine hin (mem_map.mpr ⟨(e.deviceRange.stop, i), ?_, rfl⟩)
          exact mem_rangeFrom.mpr
            ⟨(h.mem_map _ i).mpr ⟨e, he, rfl⟩, Nat.lt_of_not_le hgt⟩
        rw [map_some, deallocate_of_disjoint
          (h.aligned e (mem_of_getElem? he)) hc (.inl hbefore)]
  rw [markDeallocated, if_neg (Nat.not_lt.mpr hflushed), hrun, ← hmap]
  rfl

theorem Indexed.deallocate (h : Indexed c map entries) (range : Range) :
    Indexed c map (entries.map (·.deallocate c d range)) := by
  refine h.congr (by simp) ?_
  intro i e e' he he'
  rw [getElem?_map, he] at he'
  cases he'
  exact ⟨(h.aligned e (mem_of_getElem? he)).deallocate range, rfl⟩

/-- The loop has nothing to do if the range is apart from all entries. -/
theorem pushLoop_of_apart {st : PushState} {firstWrite : Bool}
    {journalOffset : ℕ}
    (h : ∀ p ∈ positions, ∃ e : ChecksumEntry, st.entries[p.2]? = some e ∧
      stop ≤ e.deviceRange.start) :
    pushLoop journalOffset stop c firstWrite positions st = .ok st := by
  cases positions with
  | nil => rfl
  | cons p rest =>
    obtain ⟨e, he, hle⟩ := h _ mem_cons_self
    rw [pushLoop, he]
    exact if_pos hle

/-- The first write of new blocks. -/
theorem ChecksumList.push_spec (hc : 0 < c) {checksums : List ℕ}
    (h : Indexed c list.deviceOffsetToChecksumEntry list.checksumEntries)
    (hflushed : list.flushedOffset ≤ d) (hdvd : c ∣ range.start)
    (hstop : range.stop = range.start + c * checksums.length) (hne : checksums ≠ [])
    (hnew : ∀ e ∈ list.checksumEntries,
      e.Disjoint (ofChecksums d range checksums)) :
    ∃ list', list.push d range checksums true = .ok list' ∧
      list'.flushedOffset = list.flushedOffset ∧
      list'.checksumEntries =
        list.checksumEntries ++ [ofChecksums d range checksums] ∧
      Indexed c list'.deviceOffsetToChecksumEntry list'.checksumEntries := by
  have hpos : 0 < checksums.length := length_pos_of_ne_nil hne
  have haligned : (ofChecksums d range checksums).Aligned c := by
    refine ⟨hdvd, ?_, ?_⟩
    · rw [ofChecksums, length_map]
      exact hstop
    · rw [ofChecksums, length_map]
      exact hpos
  have hlength : range.checkedLength = .ok (c * checksums.length) := by
    rw [Range.checkedLength, if_neg (by omega), hstop, Nat.add_sub_cancel_left]
  have hchunk : checkedDiv (c * checksums.length) checksums.length = .ok c := by
    rw [checkedDiv, if_neg hpos.ne', Nat.mul_div_cancel c hpos]
  have hlt : range.start < range.stop := by
    rw [hstop]
    exact Nat.lt_add_of_pos_right (Nat.mul_pos hc hpos)
  have hloop := @pushLoop_of_apart c range.stop
    (rangeFrom list.deviceOffsetToChecksumEntry (range.start + 1))
    ⟨list.checksumEntries, range.start, checksums, []⟩ true d (by
      rintro ⟨k, i⟩ hmem
      obtain ⟨hget, hk⟩ := mem_rangeFrom.mp hmem
      obtain ⟨e, he, hstop'⟩ := (h.mem_map k i).mp hget
      refine ⟨e, he, ?_⟩
      rcases hnew e (mem_of_getElem? he) with hbefore | hafter
      · change e.deviceRange.stop ≤ range.start at hbefore
        omega
      · exact hafter)
  refine ⟨{ list with
    checksumEntries := list.checksumEntries ++ [.ofChecksums d range checksums]
    deviceOffsetToChecksumEntry :=
      list.deviceOffsetToChecksumEntry.insert range.stop list.checksumEntries.length
    maxChunkSize := max list.maxChunkSize c }, ?_, rfl, rfl, ?_, ?_, ?_⟩
  · rw [push, if_neg (Nat.not_lt.mpr hflushed), hlength]
    change (checkedDiv (c * checksums.length) checksums.length >>= _) = _
    rw [hchunk]
    change (pushLoop d range.stop c true _ _ >>= _) = _
    rw [hloop]
    exact if_pos ⟨hlt, rfl⟩
  · exact forall_mem_append.mpr
      ⟨h.aligned, forall_mem_singleton.mpr haligned⟩
  · intro i j e e' he he' hij
    rcases Lib.Bytes.getElem?_concat.mp he with he | ⟨rfl, rfl⟩ <;>
      rcases Lib.Bytes.getElem?_concat.mp he' with he' | ⟨rfl, rfl⟩
    · exact h.apart i j e e' he he' hij
    · exact hnew e (mem_of_getElem? he)
    · exact (hnew e' (mem_of_getElem? he')).symm
    · exact absurd rfl hij
  · intro k i
    rw [OrderedMap.getElem?_insert]
    split_ifs with hk
    · subst hk
      constructor
      · intro heq
        rw [← some.inj heq]
        exact ⟨_, getElem?_concat_length, rfl⟩
      · rintro ⟨e, he, hstop'⟩
        rcases Lib.Bytes.getElem?_concat.mp he with he | ⟨rfl, -⟩
        · -- an entry that ends with the new range would overlap it
          have hmem := mem_of_getElem? he
          have hnonempty := (h.aligned e hmem).lt hc
          rcases hnew e hmem with hbefore | hafter
          · change e.deviceRange.stop ≤ range.start at hbefore
            omega
          · change range.stop ≤ e.deviceRange.start at hafter
            omega
        · rfl
    · rw [h.mem_map k i]
      constructor
      · rintro ⟨e, he, hk'⟩
        exact ⟨e, Lib.Bytes.getElem?_concat.mpr (.inl he), hk'⟩
      · rintro ⟨e, he, hk'⟩
        rcases Lib.Bytes.getElem?_concat.mp he with he | ⟨-, rfl⟩
        · exact ⟨e, he, hk'⟩
        · exact absurd hk' hk

end List

section Journal

variable {ops : List ChecksumOp}

inductive ChecksumOp
  | push (journalOffset : ℕ) (deviceRange : Range) (checksums : List ℕ)
  | deallocate (journalOffset : ℕ) (deviceRange : Range)

namespace ChecksumOp

def journalOffset : ChecksumOp → ℕ
  | .push journalOffset _ _ => journalOffset
  | .deallocate journalOffset _ => journalOffset

def Aligned (c : ℕ) : ChecksumOp → Prop
  | .push _ range checksums => c ∣ range.start ∧
      range.stop = range.start + c * checksums.length ∧ checksums ≠ []
  | .deallocate _ range => c ∣ range.start ∧ c ∣ range.stop ∧ range.start ≤ range.stop

def Disjoint : ChecksumOp → ChecksumOp → Prop
  | .push _ range _, .push _ range' _ => range.stop ≤ range'.start ∨ range'.stop ≤ range.start
  | _, _ => True

end ChecksumOp

structure JournalOk (c flushedOffset : ℕ) (ops : List ChecksumOp) : Prop where
  sorted : ops.Pairwise fun op op' => op.journalOffset ≤ op'.journalOffset
  offset : ∀ op ∈ ops, flushedOffset ≤ op.journalOffset ∧ op.journalOffset ≤ u64Max
  aligned : ∀ op ∈ ops, op.Aligned c
  firstWrites : ops.Pairwise ChecksumOp.Disjoint

def ChecksumList.apply (list : ChecksumList) : ChecksumOp → Except ChecksumError ChecksumList
  | .push journalOffset range checksums => list.push journalOffset range checksums true
  | .deallocate journalOffset range => list.markDeallocated journalOffset range

def ChecksumList.run : List ChecksumOp → ChecksumList → Except ChecksumError ChecksumList
  | [], list => .ok list
  | op :: ops, list => do
    let list ← list.apply op
    run ops list

def ChecksumEntry.after (c : ℕ) : List ChecksumOp → ChecksumEntry → ChecksumEntry
  | [], entry => entry
  | .push _ _ _ :: ops, entry => after c ops entry
  | .deallocate journalOffset range :: ops, entry =>
    after c ops (entry.deallocate c journalOffset range)

def entriesOf (c : ℕ) : List ChecksumOp → List ChecksumEntry
  | [] => []
  | .push journalOffset range checksums :: ops =>
    (ChecksumEntry.ofChecksums journalOffset range checksums).after c ops :: entriesOf c ops
  | .deallocate _ _ :: ops => entriesOf c ops

/-- Later calls change neither where an entry starts in the journal nor its range. -/
theorem ChecksumEntry.after_eq (ops : List ChecksumOp) :
    (entry.after c ops).startJournalOffset = entry.startJournalOffset ∧
      (entry.after c ops).deviceRange = entry.deviceRange := by
  induction ops generalizing entry with
  | nil => exact ⟨rfl, rfl⟩
  | cons op ops ih =>
    cases op with
    | push journalOffset range checksums => exact ih
    | deallocate journalOffset range => exact ih

/-- The calls of a journal succeed, and make its entries. -/
theorem ChecksumList.run_spec (hc : 0 < c) (hops : JournalOk c d ops)
    (h : Indexed c list.deviceOffsetToChecksumEntry list.checksumEntries)
    (hflushed : list.flushedOffset = d)
    (hnew : ∀ e ∈ list.checksumEntries, ∀ journalOffset range checksums,
      .push journalOffset range checksums ∈ ops →
      e.Disjoint (.ofChecksums journalOffset range checksums)) :
    ∃ list', run ops list = .ok list' ∧
      list'.checksumEntries = list.checksumEntries.map (·.after c ops) ++ entriesOf c ops ∧
      ∀ e ∈ list'.checksumEntries, e.Aligned c := by
  induction ops generalizing list with
  | nil => exact ⟨list, rfl, by simp [after, entriesOf], h.aligned⟩
  | cons op ops ih =>
    obtain ⟨hoffset, hsorted⟩ := pairwise_cons.mp hops.sorted
    obtain ⟨hdisjoint, hfirst⟩ := pairwise_cons.mp hops.firstWrites
    have hrest : JournalOk c d ops :=
      ⟨hsorted, fun op' hop' => hops.offset op' (mem_cons_of_mem op hop'),
        fun op' hop' => hops.aligned op' (mem_cons_of_mem op hop'), hfirst⟩
    have hge := (hops.offset op mem_cons_self).1
    have haligned := hops.aligned op mem_cons_self
    cases op with
    | push journalOffset range checksums =>
      obtain ⟨hdvd, hstop, hne⟩ := haligned
      obtain ⟨list₁, hrun₁, hflushed₁, hentries₁, hindexed₁⟩ :=
        push_spec hc h (by rw [hflushed]; exact hge) hdvd hstop hne
          (fun e he => hnew e he journalOffset range checksums mem_cons_self)
      obtain ⟨list₂, hrun₂, hentries₂, haligned₂⟩ := ih hrest hindexed₁ (hflushed₁.trans hflushed)
        (by
          intro e he journalOffset' range' checksums' hmem
          rw [hentries₁] at he
          rcases mem_append.mp he with he | he
          · exact hnew e he _ _ _ (mem_cons_of_mem _ hmem)
          · rw [mem_singleton.mp he]
            exact hdisjoint _ hmem)
      refine ⟨list₂, ?_, ?_, haligned₂⟩
      · change (list.push journalOffset range checksums true >>= _) = _
        rw [hrun₁]
        exact hrun₂
      · rw [hentries₂, hentries₁, map_append, append_assoc]
        rfl
    | deallocate journalOffset range =>
      obtain ⟨hdvd, hdvd', hle⟩ := haligned
      have hrun₁ := markDeallocated_spec (d := journalOffset) hc h
        (by rw [hflushed]; exact hge) hdvd hdvd' hle
      obtain ⟨list₂, hrun₂, hentries₂, haligned₂⟩ := @ih { list with
          checksumEntries := list.checksumEntries.map (·.deallocate c journalOffset range) } hrest
        (h.deallocate range) hflushed
        (by
          intro e he journalOffset' range' checksums' hmem
          obtain ⟨e', he', rfl⟩ := mem_map.mp he
          exact hnew e' he' _ _ _ (mem_cons_of_mem _ hmem))
      refine ⟨list₂, ?_, ?_, haligned₂⟩
      · change (list.markDeallocated journalOffset range >>= _) = _
        rw [hrun₁]
        exact hrun₂
      · rw [hentries₂, List.map_map]
        rfl

def lastDeallocation (x : ℕ) : List ChecksumOp → ℕ → ℕ
  | [], last => last
  | .push _ _ _ :: ops, last => lastDeallocation x ops last
  | .deallocate journalOffset range :: ops, last =>
    lastDeallocation x ops (if range.start ≤ x ∧ x < range.stop then journalOffset else last)

theorem ChecksumEntry.getElem?_checksums_after (ops : List ChecksumOp) (m : ℕ) :
    (entry.after c ops).checksums[m]? = entry.checksums[m]?.map fun s =>
      (s.1, lastDeallocation (entry.deviceRange.start + c * m) ops s.2) := by
  induction ops generalizing entry with
  | nil =>
    rw [after]
    cases entry.checksums[m]? with
    | none => rfl
    | some s => rfl
  | cons op ops ih =>
    cases op with
    | push journalOffset range checksums => exact ih
    | deallocate journalOffset range =>
      rw [after, ih, ChecksumEntry.deallocate, getElem?_mapIdx,
        map_map]
      cases entry.checksums[m]? with
      | none => rfl
      | some s =>
        rw [map_some, map_some, lastDeallocation]
        split_ifs <;> rfl

theorem mem_entriesOf_cons {op : ChecksumOp} {e : ChecksumEntry} :
    e ∈ entriesOf c (op :: ops) ↔ (∃ journalOffset range checksums,
      op = .push journalOffset range checksums ∧
      e = (ofChecksums journalOffset range checksums).after c ops) ∨
      e ∈ entriesOf c ops := by
  cases op with
  | push journalOffset range checksums => simp [entriesOf]
  | deallocate journalOffset range => simp [entriesOf]

theorem mem_entriesOf {e : ChecksumEntry} : e ∈ entriesOf c ops ↔
    ∃ (i : ℕ) (journalOffset : ℕ) (range : Range) (checksums : List ℕ),
      ops[i]? = some (.push journalOffset range checksums) ∧
      e = (ofChecksums journalOffset range checksums).after c (ops.drop (i + 1)) := by
  induction ops with
  | nil => simp [entriesOf]
  | cons op ops ih =>
    rw [mem_entriesOf_cons, ih]
    constructor
    · rintro (⟨journalOffset, range, checksums, rfl, he⟩ | ⟨i, hmade⟩)
      · exact ⟨0, journalOffset, range, checksums, rfl, he⟩
      · exact ⟨i + 1, hmade⟩
    · rintro ⟨i, journalOffset, range, checksums, hget, he⟩
      cases i with
      | zero => exact .inl ⟨journalOffset, range, checksums, Option.some.inj hget, he⟩
      | succ i => exact .inr ⟨i, journalOffset, range, checksums, hget, he⟩

theorem sorted_entriesOf
    (h : ops.Pairwise fun op op' => op.journalOffset ≤ op'.journalOffset) :
    (entriesOf c ops).Pairwise fun e e' => e.startJournalOffset ≤ e'.startJournalOffset := by
  induction ops with
  | nil => exact .nil
  | cons op ops ih =>
    obtain ⟨hfirst, hsorted⟩ := pairwise_cons.mp h
    cases op with
    | push journalOffset range checksums =>
      refine pairwise_cons.mpr ⟨?_, ih hsorted⟩
      intro e he
      obtain ⟨i, journalOffset', range', checksums', hget, rfl⟩ := mem_entriesOf.mp he
      rw [(after_eq ops).1, (after_eq _).1]
      exact hfirst _ (mem_of_getElem? hget)
    | deallocate journalOffset range => exact ih hsorted

/-- The calls of a journal succeed on a new list, and make the entries of the journal. -/
theorem ChecksumList.run_new (hc : 0 < c) (hops : JournalOk c d ops) :
    ∃ list, run ops (.new d) = .ok list ∧ list.checksumEntries = entriesOf c ops ∧
      EntriesOk c list.checksumEntries := by
  have hindexed : Indexed c (new d).deviceOffsetToChecksumEntry
      (new d).checksumEntries := by
    refine ⟨by simp [new], ?_, ?_⟩
    · intro i j e e' he
      cases he
    · intro k i
      simp [new]
  obtain ⟨list, hrun, hentries, haligned⟩ :=
    run_spec hc hops hindexed rfl (by simp [new])
  have hentries' : list.checksumEntries = entriesOf c ops := hentries
  refine ⟨list, hrun, hentries', haligned, ?_⟩
  rw [hentries']
  exact sorted_entriesOf hops.sorted

end Journal

section Safe

variable {device : ℕ → ℕ → ℕ} {ops : List ChecksumOp} {i offset : ℕ} {journalOffset x : ℕ}
  {range : Range} {checksums : List ℕ}

/-- A block is deallocated at an offset by a call after some number of calls. -/
def DeallocatedAfter (ops : List ChecksumOp) (i x journalOffset : ℕ) : Prop :=
  ∃ j range, i < j ∧ ops[j]? = some (.deallocate journalOffset range) ∧
    range.start ≤ x ∧ x < range.stop

/-- The journal can be replayed up to an offset: each block that is pushed before it, and not
deallocated before it, has the checksum that was pushed for it. -/
def Safe (device : ℕ → ℕ → ℕ) (c : ℕ) (ops : List ChecksumOp) (offset : ℕ) : Prop :=
  ∀ (i journalOffset : ℕ) (range : Range) (checksums : List ℕ) (m checksum : ℕ),
    ops[i]? = some (.push journalOffset range checksums) → checksums[m]? = some checksum →
    journalOffset < offset →
    (¬ ∃ deallocated < offset, DeallocatedAfter ops i (range.start + c * m) deallocated) →
    device (range.start + c * m) c = checksum

/-- No block is deallocated at two offsets after it is pushed. -/
def DeallocatedOnce (c : ℕ) (ops : List ChecksumOp) : Prop :=
  ∀ (i journalOffset : ℕ) (range : Range) (checksums : List ℕ) (m : ℕ),
    ops[i]? = some (.push journalOffset range checksums) → m < checksums.length →
    ∀ offset offset', DeallocatedAfter ops i (range.start + c * m) offset →
      DeallocatedAfter ops i (range.start + c * m) offset' → offset = offset'

/-- An entry blocks an offset if a block whose last deallocation is not before it is wrong. -/
theorem blocks_ofChecksums_after {later : List ChecksumOp} :
    ((ChecksumEntry.ofChecksums journalOffset range checksums).after c later).Blocks device c
        offset ↔
      journalOffset < offset ∧ ∃ (m checksum : ℕ), checksums[m]? = some checksum ∧
        offset ≤ lastDeallocation (range.start + c * m) later u64Max ∧
        device (range.start + c * m) c ≠ checksum := by
  have hget : ∀ m, (ChecksumEntry.verified device c
      ((ChecksumEntry.ofChecksums journalOffset range checksums).after c later)).checksums[m]? =
      checksums[m]?.map fun checksum =>
        ((ChecksumState.unverified [checksum]).verify device (range.start + c * m) c,
          lastDeallocation (range.start + c * m) later u64Max) := by
    intro m
    rw [ChecksumEntry.verified, getElem?_verified, getElem?_checksums_after,
      (after_eq later).2, ChecksumEntry.ofChecksums, getElem?_map]
    cases checksums[m]? with
    | none => rfl
    | some checksum => rfl
  rw [ChecksumEntry.Blocks, (after_eq later).1]
  refine and_congr Iff.rfl ?_
  constructor
  · rintro ⟨dependency, hle, hmem⟩
    obtain ⟨m, hm⟩ := mem_iff_getElem?.mp hmem
    rw [hget m] at hm
    obtain ⟨checksum, hchecksum, heq⟩ := map_eq_some_iff.mp hm
    obtain ⟨hstate, hlast⟩ := Prod.mk.inj heq
    refine ⟨m, checksum, hchecksum, by rw [hlast]; exact hle, ?_⟩
    rw [ChecksumState.verify] at hstate
    split_ifs at hstate with hvalid
    intro hsum
    exact hvalid (by rw [hsum]; exact mem_singleton_self _)
  · rintro ⟨m, checksum, hchecksum, hle, hwrong⟩
    refine ⟨_, hle, mem_of_getElem? (i := m) ?_⟩
    rw [hget m, hchecksum, map_some, ChecksumState.verify,
      if_neg (by rw [mem_singleton]; exact hwrong)]

def DeallocatedBy (ops : List ChecksumOp) (j x journalOffset : ℕ) : Prop :=
  ∃ range, ops[j]? = some (.deallocate journalOffset range) ∧ range.start ≤ x ∧ x < range.stop

theorem deallocatedAfter_iff : DeallocatedAfter ops i x journalOffset ↔
    ∃ j, DeallocatedBy (ops.drop (i + 1)) j x journalOffset := by
  constructor
  · rintro ⟨j, range, hj, hget, hcovers⟩
    refine ⟨j - (i + 1), range, ?_, hcovers⟩
    rw [getElem?_drop, Nat.add_sub_cancel' hj]
    exact hget
  · rintro ⟨j, range, hget, hcovers⟩
    rw [getElem?_drop] at hget
    exact ⟨i + 1 + j, range, by omega, hget, hcovers⟩

/-- The last deallocation of a block is by the last call that deallocates it, if there is one. -/
theorem lastDeallocation_spec (later : List ChecksumOp) (x last : ℕ) :
    ((∀ j offset, ¬ DeallocatedBy later j x offset) ∧ lastDeallocation x later last = last) ∨
    ∃ j, DeallocatedBy later j x (lastDeallocation x later last) ∧
      ∀ j' offset, DeallocatedBy later j' x offset → j' ≤ j := by
  induction later generalizing last with
  | nil =>
    left
    refine ⟨?_, rfl⟩
    rintro j offset ⟨range, hget, -⟩
    cases hget
  | cons op later ih =>
    have hsucc : ∀ j, (∀ j' offset, DeallocatedBy later j' x offset → j' ≤ j) →
        ∀ j' offset, DeallocatedBy (op :: later) j' x offset → j' ≤ j + 1 := by
      intro j hmax j' offset hby
      cases j' with
      | zero => exact Nat.zero_le _
      | succ j' => exact Nat.succ_le_succ (hmax j' offset hby)
    by_cases hfirst : ∃ offset, DeallocatedBy (op :: later) 0 x offset
    · obtain ⟨offset, range, hget, hcovers⟩ := hfirst
      cases hget
      right
      rw [lastDeallocation, if_pos hcovers]
      rcases ih offset with ⟨hnone, hlast⟩ | ⟨j, hj, hmax⟩
      · refine ⟨0, ?_, ?_⟩
        · rw [hlast]
          exact ⟨range, rfl, hcovers⟩
        · intro j' offset' hby
          cases j' with
          | zero => exact Nat.le_refl 0
          | succ j' => exact absurd hby (hnone j' offset')
      · exact ⟨j + 1, hj, hsucc j hmax⟩
    · have heq : lastDeallocation x (op :: later) last = lastDeallocation x later last := by
        cases op with
        | push journalOffset range checksums => rfl
        | deallocate journalOffset range =>
          rw [lastDeallocation, if_neg fun hcovers => hfirst ⟨_, range, rfl, hcovers⟩]
      rw [heq]
      rcases ih last with ⟨hnone, hlast⟩ | ⟨j, hj, hmax⟩
      · refine .inl ⟨?_, hlast⟩
        intro j offset hby
        cases j with
        | zero => exact hfirst ⟨offset, hby⟩
        | succ j => exact hnone j offset hby
      · exact .inr ⟨j + 1, hj, hsucc j hmax⟩

/-- With one deallocation a block counts until it is deallocated. -/
theorem le_lastDeallocation_iff (honce : DeallocatedOnce c ops) {m : ℕ}
    (hoffset : offset ≤ u64Max) (hget : ops[i]? = some (.push journalOffset range checksums))
    (hm : m < checksums.length) :
    offset ≤ lastDeallocation (range.start + c * m) (ops.drop (i + 1)) u64Max ↔
      ¬ ∃ deallocated < offset, DeallocatedAfter ops i (range.start + c * m) deallocated := by
  rcases lastDeallocation_spec (ops.drop (i + 1)) (range.start + c * m) u64Max with
    ⟨hnone, heq⟩ | ⟨j, hj, -⟩
  · rw [heq]
    refine iff_of_true hoffset ?_
    rintro ⟨deallocated, -, hafter⟩
    obtain ⟨j, hby⟩ := deallocatedAfter_iff.mp hafter
    exact hnone j deallocated hby
  · have hafter := deallocatedAfter_iff.mpr ⟨j, hj⟩
    constructor
    · rintro hle ⟨deallocated, hlt, hafter'⟩
      have heq := honce i journalOffset range checksums m hget hm _ _ hafter hafter'
      omega
    · intro hnot
      by_contra hgt
      exact hnot ⟨_, Nat.lt_of_not_le hgt, hafter⟩

/-- With one deallocation the entries block just the offsets that are not safe. -/
theorem unblocked_iff_safe (honce : DeallocatedOnce c ops) (hoffset : offset ≤ u64Max) :
    (∀ e ∈ entriesOf c ops, ¬ e.Blocks device c offset) ↔ Safe device c ops offset := by
  constructor
  · intro hnone i journalOffset range checksums m checksum hget hchecksum hlt hnot
    by_contra hwrong
    have hm := (List.getElem?_eq_some_iff.mp hchecksum).1
    refine hnone _ (mem_entriesOf.mpr ⟨i, journalOffset, range, checksums, hget, rfl⟩) ?_
    exact blocks_ofChecksums_after.mpr ⟨hlt, m, checksum, hchecksum,
      (le_lastDeallocation_iff honce hoffset hget hm).mpr hnot, hwrong⟩
  · intro hsafe e he hblocks
    obtain ⟨i, journalOffset, range, checksums, hget, rfl⟩ := mem_entriesOf.mp he
    obtain ⟨hlt, m, checksum, hchecksum, hle, hwrong⟩ := blocks_ofChecksums_after.mp hblocks
    have hm := (List.getElem?_eq_some_iff.mp hchecksum).1
    exact hwrong (hsafe i journalOffset range checksums m checksum hget hchecksum hlt
      ((le_lastDeallocation_iff honce hoffset hget hm).mp hle))

theorem pairwise_getElem? {α : Type} {r : α → α → Prop} {l : List α} (h : l.Pairwise r)
    {i j : ℕ} {a b : α} (ha : l[i]? = some a) (hb : l[j]? = some b) (hij : i < j) : r a b := by
  obtain ⟨hi, rfl⟩ := List.getElem?_eq_some_iff.mp ha
  obtain ⟨hj, rfl⟩ := List.getElem?_eq_some_iff.mp hb
  exact List.pairwise_iff_getElem.mp h i j hi hj hij

section

variable (h : JournalOk c d ops)
include h

/-- A block is pushed by one call. -/
theorem JournalOk.push_unique (hc : 0 < c) {i' m m' journalOffset' : ℕ}
    {range' : Range} {checksums' : List ℕ}
    (hget : ops[i]? = some (.push journalOffset range checksums)) (hm : m < checksums.length)
    (hget' : ops[i']? = some (.push journalOffset' range' checksums'))
    (hm' : m' < checksums'.length) (heq : range.start + c * m = range'.start + c * m') :
    i = i' ∧ m = m' := by
  have hlt : c * m < c * checksums.length := Nat.mul_lt_mul_of_pos_left hm hc
  have hlt' : c * m' < c * checksums'.length := Nat.mul_lt_mul_of_pos_left hm' hc
  obtain ⟨-, hstop, -⟩ := h.aligned _ (mem_of_getElem? hget)
  obtain ⟨-, hstop', -⟩ := h.aligned _ (mem_of_getElem? hget')
  rcases Nat.lt_trichotomy i i' with hii | rfl | hii
  · rcases pairwise_getElem? h.firstWrites hget hget' hii with hle | hle
    · omega
    · omega
  · rw [hget] at hget'
    cases hget'
    exact ⟨rfl, Nat.eq_of_mul_eq_mul_left hc (Nat.add_left_cancel heq)⟩
  · rcases pairwise_getElem? h.firstWrites hget' hget hii with hle | hle
    · omega
    · omega

theorem JournalOk.le_lastDeallocation
    (hafter : DeallocatedAfter ops i x offset) :
    offset ≤ lastDeallocation x (ops.drop (i + 1)) u64Max := by
  obtain ⟨j, hby⟩ := deallocatedAfter_iff.mp hafter
  rcases lastDeallocation_spec (ops.drop (i + 1)) x u64Max with ⟨hnone, -⟩ | ⟨j', hby', hmax⟩
  · exact absurd hby (hnone j offset)
  · have hle := hmax j offset hby
    obtain ⟨range, hget, -⟩ := hby
    obtain ⟨range', hget', -⟩ := hby'
    rcases Nat.eq_or_lt_of_le hle with rfl | hlt
    · rw [hget] at hget'
      cases hget'
      exact Nat.le_refl _
    · have hsorted := h.sorted.sublist (drop_sublist (i + 1) ops)
      exact pairwise_getElem? hsorted hget hget' hlt

def Pushed (c : ℕ) (ops : List ChecksumOp) (x checksum : ℕ) : Prop :=
  ∃ (i journalOffset : ℕ) (range : Range) (checksums : List ℕ) (m : ℕ),
    ops[i]? = some (.push journalOffset range checksums) ∧ checksums[m]? = some checksum ∧
      range.start + c * m = x

theorem Pushed.unique (hc : 0 < c) {checksum checksum' : ℕ}
    (hpushed : Pushed c ops x checksum) (hpushed' : Pushed c ops x checksum') :
    checksum = checksum' := by
  obtain ⟨i, journalOffset, range, checksums, m, hget, hchecksum, hx⟩ := hpushed
  obtain ⟨i', journalOffset', range', checksums', m', hget', hchecksum', hx'⟩ := hpushed'
  obtain ⟨rfl, rfl⟩ := h.push_unique hc hget (List.getElem?_eq_some_iff.mp hchecksum).1 hget'
    (List.getElem?_eq_some_iff.mp hchecksum').1 (hx.trans hx'.symm)
  rw [hget] at hget'
  cases hget'
  rw [hchecksum] at hchecksum'
  exact some.inj hchecksum'

/-- A device on which only one block is wrong. -/
theorem JournalOk.exists_device (hc : 0 < c) (x checksum : ℕ) :
    ∃ device : ℕ → ℕ → ℕ, device x c ≠ checksum ∧
      ∀ y checksum', Pushed c ops y checksum' → y ≠ x → device y c = checksum' := by
  refine ⟨fun y _ => if y = x then checksum + 1 else Classical.epsilon (Pushed c ops y), ?_, ?_⟩
  · beta_reduce
    rw [if_pos rfl]
    exact Nat.succ_ne_self checksum
  · intro y checksum' hpushed hne
    beta_reduce
    rw [if_neg hne]
    exact (Classical.epsilon_spec ⟨checksum', hpushed⟩).unique h hc hpushed

end

/-- A journal that pushes each block once is verified up to the greatest safe offset, whatever is on
the device, if and only if no block is deallocated at two offsets after its push. -/
theorem verify_greatest_iff (hc : 0 < c) (h : JournalOk c d ops) :
    (∃ list, run ops (.new d) = .ok list ∧
      ∀ device journalOffset, journalOffset ≤ u64Max →
        ∃ offset list', list.verify device journalOffset = some (.ok (offset, list')) ∧
          IsGreatest {offset | offset ≤ journalOffset ∧ Safe device c ops offset} offset) ↔
      DeallocatedOnce c ops := by
  obtain ⟨list, hrun, hentries, hok⟩ := run_new hc h
  constructor
  · rintro ⟨list₁, hrun₁, hverify⟩
    rw [hrun] at hrun₁
    cases hrun₁
    intro i journalOffset range checksums m hget hm offset offset' hafter hafter'
    by_contra hne
    -- the earlier of two deallocations is forgotten
    wlog hlt : offset < offset' generalizing offset offset'
    · exact this offset' offset hafter' hafter (Ne.symm hne) (by omega)
    obtain ⟨checksum, hchecksum⟩ : ∃ checksum, checksums[m]? = some checksum :=
      ⟨_, getElem?_eq_getElem hm⟩
    obtain ⟨device, hwrong, hright⟩ := h.exists_device hc (range.start + c * m) checksum
    have hbound : offset' ≤ u64Max := by
      obtain ⟨j', range', -, hget', -⟩ := hafter'
      exact (h.offset _ (mem_of_getElem? hget')).2
    obtain ⟨result, list', hrun', hresult, hgreatest⟩ := hverify device offset' hbound
    have hsafe : Safe device c ops offset' := by
      intro i₁ journalOffset₁ range₁ checksums₁ m₁ checksum₁ hget₁ hchecksum₁ _ hnot
      refine hright _ _ ⟨i₁, journalOffset₁, range₁, checksums₁, m₁, hget₁, hchecksum₁, rfl⟩ ?_
      intro heq
      obtain ⟨rfl, rfl⟩ := h.push_unique hc hget₁ (List.getElem?_eq_some_iff.mp hchecksum₁).1
        hget hm heq
      rw [heq] at hnot
      exact hnot ⟨offset, hlt, hafter⟩
    have heq : result = offset' :=
      Nat.le_antisymm hresult.1 (hgreatest ⟨Nat.le_refl _, hsafe⟩)
    obtain ⟨result₁, list₁', hrun₁', hunblocked, -⟩ :=
      verify_spec device hok offset'
    rw [hrun'] at hrun₁'
    cases hrun₁'
    have hmem : (ofChecksums journalOffset range checksums).after c
        (ops.drop (i + 1)) ∈ list.checksumEntries := by
      rw [hentries]
      exact mem_entriesOf.mpr ⟨i, journalOffset, range, checksums, hget, rfl⟩
    refine hunblocked.2 _ hmem (blocks_ofChecksums_after.mpr ?_)
    obtain ⟨j, range', hij, hget', -⟩ := hafter
    have hpush : journalOffset ≤ offset := pairwise_getElem? h.sorted hget hget' hij
    refine ⟨by omega, m, checksum, hchecksum, ?_, hwrong⟩
    rw [heq]
    exact h.le_lastDeallocation hafter'
  · intro honce
    refine ⟨list, hrun, ?_⟩
    intro device journalOffset hbound
    obtain ⟨offset, list', hverify, hgreatest⟩ :=
      verify_spec device hok journalOffset
    refine ⟨offset, list', hverify, ?_⟩
    have hset : unblocked device c list.checksumEntries journalOffset =
        {offset | offset ≤ journalOffset ∧ Safe device c ops offset} := by
      ext offset'
      refine and_congr_right ?_
      intro hle
      rw [hentries]
      exact unblocked_iff_safe honce (hle.trans hbound)
    rw [← hset]
    exact hgreatest

def deallocatedBlock : List ChecksumOp :=
  [.push 1 ⟨512, 1024⟩ [7], .deallocate 2 ⟨512, 1024⟩]

def deallocatedTwice : List ChecksumOp :=
  [.push 1 ⟨512, 1024⟩ [7], .deallocate 2 ⟨512, 1024⟩, .deallocate 5 ⟨512, 1024⟩]

theorem journalOk_deallocatedTwice : JournalOk 512 0 deallocatedTwice := by
  refine ⟨?_, ?_, ?_, ?_⟩
  · simp [deallocatedTwice, ChecksumOp.journalOffset]
  · simp [deallocatedTwice, ChecksumOp.journalOffset, u64Max]
  · simp [deallocatedTwice, ChecksumOp.Aligned]
  · simp [deallocatedTwice, ChecksumOp.Disjoint]

theorem journalOk_deallocatedBlock : JournalOk 512 0 deallocatedBlock := by
  have hshort : deallocatedBlock.Sublist deallocatedTwice :=
    take_sublist 2 deallocatedTwice
  have h := journalOk_deallocatedTwice
  exact ⟨h.sorted.sublist hshort, fun op hop => h.offset op (hshort.subset hop),
    fun op hop => h.aligned op (hshort.subset hop), h.firstWrites.sublist hshort⟩

theorem deallocatedOnce_deallocatedBlock : DeallocatedOnce 512 deallocatedBlock := by
  have hoffset : ∀ i x offset, DeallocatedAfter deallocatedBlock i x offset → offset = 2 := by
    rintro i x offset ⟨j, range, hij, hget, -⟩
    match j, hij with
    | 1, _ =>
      cases hget
      rfl
  intro i journalOffset range checksums m _ _ offset offset' hafter hafter'
  rw [hoffset _ _ offset hafter, hoffset _ _ offset' hafter']

theorem verify_greatest_iff_deallocatedBlock :
    ∃ list, run deallocatedBlock (.new 0) = .ok list ∧
      ∀ device journalOffset, journalOffset ≤ u64Max →
        ∃ offset list', list.verify device journalOffset = some (.ok (offset, list')) ∧
          IsGreatest {offset | offset ≤ journalOffset ∧ Safe device 512 deallocatedBlock offset}
            offset :=
  (verify_greatest_iff (by decide) journalOk_deallocatedBlock).mpr deallocatedOnce_deallocatedBlock

/-- A second deallocation hides the first one: the journal is replayed up to offset 1 only, though
the block that is wrong is deallocated at offset 2. -/
theorem verify_deallocatedTwice : ∃ list, run deallocatedTwice (.new 0) = .ok list ∧
    ∃ list', list.verify (fun _ _ => 0) 4 = some (.ok (1, list')) ∧
      Safe (fun _ _ => 0) 512 deallocatedTwice 4 := by
  obtain ⟨list, hrun, hentries, hok⟩ :=
    run_new (by decide) journalOk_deallocatedTwice
  obtain ⟨offset, list', hverify, hgreatest⟩ :=
    verify_spec (fun _ _ => 0) hok 4
  have hentry : list.checksumEntries = [(ofChecksums 1 ⟨512, 1024⟩ [7]).after 512
      [.deallocate 2 ⟨512, 1024⟩, .deallocate 5 ⟨512, 1024⟩]] := hentries
  have hone : IsGreatest (unblocked (fun _ _ => 0) 512 list.checksumEntries 4) 1 := by
    rw [hentry]
    refine ⟨⟨by decide, ?_⟩, ?_⟩
    · intro e he hblocks
      rw [mem_singleton.mp he] at hblocks
      exact absurd (blocks_ofChecksums_after.mp hblocks).1 (Nat.lt_irrefl 1)
    · rintro offset' ⟨hle, hnone⟩
      by_contra hgt
      refine hnone _ (mem_singleton_self _) (blocks_ofChecksums_after.mpr
        ⟨Nat.lt_of_not_le hgt, 0, 7, rfl, ?_, by decide⟩)
      change offset' ≤ 5
      omega
  have heq := hgreatest.unique hone
  subst heq
  refine ⟨list, hrun, list', hverify, ?_⟩
  intro i journalOffset range checksums m checksum hget hchecksum _ hnot
  exfalso
  match i with
  | 0 =>
    cases hget
    match m with
    | 0 => exact hnot ⟨2, by decide, 1, ⟨512, 1024⟩, by decide, rfl, by decide, by decide⟩
  | 1 => cases hget
  | 2 => cases hget

end Safe

end Smos.Fxfs
