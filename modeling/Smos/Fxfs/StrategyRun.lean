import Smos.Fxfs.StrategyAccounting

/-!
Runs of the best-fit strategy from the empty one, together with the bytes that have been freed and
not since been allocated or removed.
-/
namespace Smos.Fxfs.Allocator.BestFit

open Lib.OrderedMap Set Relation

variable {s s' : BestFit} {bytes size : ℕ} {bucket : SizeBucket} {p q : BestFit × Set ℕ}

/-- Allocating from a bucket with ranges in it. -/
theorem allocate_of_bucket (h : s.Inv)
    (hchosen : ((rangeFrom s.ranges bytes).head? <|> s.ranges.toList.getLast?) =
      some (size, bucket))
    (hget : s.ranges[size]? = some bucket) (hne : bucket.offsets.Nonempty) :
    ∃ r t s', s.allocate bytes = some (.ok r, s') ∧ s.Tracks t ∧ r.start = t.start ∧
      r.stop = r.start + min bytes size ∧ t.stop = t.start + size ∧
      Taken s s' (Ico r.start r.stop) := by
  have hmem := Finset.min'_mem bucket.offsets hne
  have ht := h.indexed.mp ⟨bucket, hget, hmem⟩
  have hbytes := bytes_of_removed h ht (dropOffset_tracks h.linked hget hmem)
  have hinv := dropOffset_inv h hget hmem
  have hpop : popFirst bucket.offsets =
      some (bucket.offsets.min' hne, bucket.offsets.erase (bucket.offsets.min' hne)) := dif_pos hne
  have hempty : ¬ (bucket.offsets = ∅ ∧ bucket.overflow = true) := fun hh => hne.ne_empty hh.1
  by_cases hsize : size > bytes
  · have hrest : Ico (bucket.offsets.min' hne + bytes) (bucket.offsets.min' hne + size) ⊆
        Ico (bucket.offsets.min' hne) (bucket.offsets.min' hne + size) :=
      Ico_subset_Ico_left (Nat.le_add_right _ _)
    have hlt : bucket.offsets.min' hne + bytes < bucket.offsets.min' hne + size := by omega
    obtain ⟨result, s', hrun, hfreed, hok⟩ := free_spec
      ⟨bucket.offsets.min' hne + bytes, bucket.offsets.min' hne + size⟩ hinv hlt.le (by
        rw [hbytes]
        exact disjoint_sdiff_left.mono_right hrest)
    obtain rfl := hok hlt
    refine ⟨⟨_, bucket.offsets.min' hne + bytes⟩, ⟨_, bucket.offsets.min' hne + size⟩, s', ?_, ht,
      rfl, by dsimp only; omega, rfl, hfreed.taken rfl ?_⟩
    · simp [allocate, hchosen, hempty, hpop, hsize, hrun]
    · rw [hbytes]
      have hsub := ht.subset
      ext x
      have hx := @hsub x
      simp only [mem_union, mem_sdiff, mem_Ico] at hx ⊢
      constructor
      · rintro (⟨hs, hnot⟩ | hx')
        · exact ⟨hs, by omega⟩
        · exact ⟨hx (by omega), by omega⟩
      · rintro ⟨hs, hnot⟩
        by_cases hx' : x < bucket.offsets.min' hne + size
        · by_cases hlo : bucket.offsets.min' hne ≤ x
          · exact .inr (by omega)
          · exact .inl ⟨hs, by omega⟩
        · exact .inl ⟨hs, by omega⟩
  · refine ⟨⟨_, bucket.offsets.min' hne + size⟩, ⟨_, bucket.offsets.min' hne + size⟩,
      s.dropOffset size bucket (bucket.offsets.min' hne), ?_, ht, rfl, by dsimp only; omega, rfl,
      hinv, hbytes.subset, le_rfl, fun _ => hbytes⟩
    simp [allocate, hchosen, hempty, hpop, hsize]

/-- The three outcomes of an allocation. -/
theorem allocate_spec (h : s.Inv) (bytes : ℕ) :
    (s.allocate bytes = some (.error .noSpace, s) ∧ ∀ len : ℕ, s.ranges[len]? = none) ∨
    s.allocate bytes = some (.error .notFound, s) ∨
    ∃ r t s', s.allocate bytes = some (.ok r, s') ∧ s.Tracks t ∧ r.start = t.start ∧
      r.start ≤ r.stop ∧ r.stop ≤ t.stop ∧ r.stop - r.start ≤ bytes ∧
      Taken s s' (Ico r.start r.stop) := by
  cases hchosen : (rangeFrom s.ranges bytes).head? <|> s.ranges.toList.getLast? with
  | none =>
    refine .inl ⟨by simp [allocate, hchosen], getElem?_of_getLast?_eq_none ?_⟩
    cases hhead : (rangeFrom s.ranges bytes).head? with
    | none => simpa [hhead] using hchosen
    | some item => simp [hhead] at hchosen
  | some item =>
    obtain ⟨size, bucket⟩ := item
    have hget : s.ranges[size]? = some bucket := by
      cases hhead : (rangeFrom s.ranges bytes).head? with
      | none =>
        refine Std.TreeMap.mem_toList_iff_getElem?_eq_some.mp (List.mem_of_getLast? ?_)
        simpa [hhead] using hchosen
      | some item =>
        obtain rfl : item = (size, bucket) := by simpa [hhead] using hchosen
        exact (le_of_head?_rangeFrom hhead).1
    rcases bucket.offsets.eq_empty_or_nonempty with hempty | hne
    · refine .inr (.inl ?_)
      simp [allocate, hchosen, hempty, (h.key hget).2.2 hempty]
    · obtain ⟨r, t, s', hrun, ht, hstart, hstop, htstop, htaken⟩ :=
        allocate_of_bucket h hchosen hget hne
      exact .inr (.inr ⟨r, t, s', hrun, ht, hstart, by omega, by omega, by omega, htaken⟩)

/-- The smallest bucket that is large enough serves the whole request. -/
theorem allocate_full (h : s.Inv) (hget : s.ranges[size]? = some bucket) (hle : bytes ≤ size)
    (hleast : ∀ len b, s.ranges[len]? = some b → bytes ≤ len → size ≤ len)
    (hne : bucket.offsets.Nonempty) :
    ∃ r s', s.allocate bytes = some (.ok r, s') ∧ r.stop - r.start = bytes := by
  have hhead : (rangeFrom s.ranges bytes).head? = some (size, bucket) := by
    cases hhead : (rangeFrom s.ranges bytes).head? with
    | none => exact absurd (lt_of_head?_rangeFrom hhead hget) (not_lt.mpr hle)
    | some item =>
      obtain ⟨size', bucket'⟩ := item
      obtain ⟨hget', hle', hleast'⟩ := le_of_head?_rangeFrom hhead
      obtain rfl : size' = size :=
        le_antisymm (hleast' hget hle) (hleast size' bucket' hget' hle')
      rw [Option.some.inj (hget.symm.trans hget')]
  have hchosen : ((rangeFrom s.ranges bytes).head? <|> s.ranges.toList.getLast?) =
      some (size, bucket) := by simp [hhead]
  obtain ⟨r, t, s', hrun, -, -, hstop, -⟩ := allocate_of_bucket h hchosen hget hne
  exact ⟨r, s', hrun, by omega⟩

theorem resetOverflowMarkers_inv (h : s.Inv) : s.resetOverflowMarkers.Inv := by
  have hget : ∀ len : ℕ, s.resetOverflowMarkers.ranges[len]? =
      s.ranges[len]?.bind fun bucket : SizeBucket =>
        if bucket.offsets = ∅ then none else some { bucket with overflow := false } :=
    fun len => Std.TreeMap.getElem?_filterMap'
  have htracks : ∀ r, s.resetOverflowMarkers.Tracks r ↔ s.Tracks r := fun r => Iff.rfl
  refine ⟨h.nonempty, h.disjoint, ?_, ?_⟩
  · intro len start
    rw [htracks, ← h.indexed, hget]
    cases s.ranges[len]? with
    | none => simp
    | some bucket =>
      by_cases hempty : bucket.offsets = ∅
      · simp [hempty]
      · simp [hempty]
  · intro len bucket hb
    rw [hget] at hb
    obtain ⟨bucket', hb', hsome⟩ := Option.bind_eq_some_iff.mp hb
    split_ifs at hsome with hempty
    cases hsome
    exact ⟨(h.key hb').1, (h.key hb').2.1, fun hnil => absurd hnil hempty⟩

/-- One operation on the strategy, and on the bytes that have been freed and not since been
allocated or removed.  What is freed must not be tracked yet. -/
inductive Step : BestFit × Set ℕ → BestFit × Set ℕ → Prop where
  | free {s s' F range result} (hle : range.start ≤ range.stop)
      (hdisj : Disjoint s.bytes (Ico range.start range.stop))
      (hrun : s.free range = some (result, s')) :
      Step (s, F) (s', F ∪ Ico range.start range.stop)
  | forceFree {s s' F range result} (hrun : s.forceFree range = some (result, s')) :
      Step (s, F) (s', F ∪ Ico range.start range.stop)
  | remove {s s' F range} (hle : range.start ≤ range.stop) (hrun : s.remove range = some s') :
      Step (s, F) (s', F \ Ico range.start range.stop)
  | allocate {s s' F bytes range} (hrun : s.allocate bytes = some (.ok range, s')) :
      Step (s, F) (s', F \ Ico range.start range.stop)
  | refuse {s s' F bytes error} (hrun : s.allocate bytes = some (.error error, s')) :
      Step (s, F) (s', F)
  | resetOverflowMarkers {s F} : Step (s, F) (s.resetOverflowMarkers, F)

/-- What one step does to the tracked bytes: it changes them as it changes the free ones, or less is
tracked because a bucket has overflowed. -/
structure Accounts (p q : BestFit × Set ℕ) : Prop where
  inv : q.1.Inv
  subset : p.1.bytes ⊆ p.2 → q.1.bytes ⊆ q.2
  overflows_le : p.1.overflows ≤ q.1.overflows
  eq : q.1.overflows = p.1.overflows → p.1.bytes = p.2 → q.1.bytes = q.2

theorem Freed.accounts {F B : Set ℕ} (h : Freed s s' B) : Accounts (s, F) (s', F ∪ B) where
  inv := h.inv
  subset hF := h.subset.trans (union_subset_union_left B hF)
  overflows_le := h.overflows_le
  eq hover hF := by
    rw [h.bytes_eq hover, hF]

theorem Taken.accounts {F B : Set ℕ} (h : Taken s s' B) : Accounts (s, F) (s', F \ B) where
  inv := h.inv
  subset hF := h.subset.trans (sdiff_subset_sdiff_left hF)
  overflows_le := h.overflows_le
  eq hover hF := by
    rw [h.bytes_eq hover, hF]

theorem accounts_refl (s : BestFit) (h : s'.Inv) (hbytes : s'.bytes = s.bytes)
    (hover : s'.overflows = s.overflows) (F : Set ℕ) : Accounts (s, F) (s', F) :=
  ⟨h, fun hF => hbytes ▸ hF, hover.ge, fun _ hF => hbytes.trans hF⟩

theorem Step.accounts (h : p.1.Inv) (hstep : Step p q) : Accounts p q := by
  cases hstep with
  | free hle hdisj hrun =>
    obtain ⟨result, s', hrun', hfreed, -⟩ := free_spec _ h hle hdisj
    cases hrun.symm.trans hrun'
    exact hfreed.accounts
  | @forceFree _ _ _ range _ hrun =>
    obtain ⟨changed, s', hrun', hfreed, -⟩ := forceFree_spec h range
    cases hrun.symm.trans hrun'
    exact hfreed.accounts
  | remove hle hrun =>
    obtain ⟨s', hrun', htaken⟩ := remove_spec h hle
    cases hrun.symm.trans hrun'
    exact htaken.accounts
  | @allocate _ _ _ bytes _ hrun =>
    rcases allocate_spec h bytes with ⟨hrun', -⟩ | hrun' | ⟨r, t, s', hrun', -, -, -, -, -, htaken⟩
    · cases hrun.symm.trans hrun'
    · cases hrun.symm.trans hrun'
    · cases hrun.symm.trans hrun'
      exact htaken.accounts
  | @refuse _ _ F bytes _ hrun =>
    rcases allocate_spec h bytes with ⟨hrun', -⟩ | hrun' | ⟨r, t, s', hrun', -⟩
    · cases hrun.symm.trans hrun'
      exact accounts_refl _ h rfl rfl F
    · cases hrun.symm.trans hrun'
      exact accounts_refl _ h rfl rfl F
    · cases hrun.symm.trans hrun'
  | @resetOverflowMarkers s F => exact accounts_refl s (resetOverflowMarkers_inv h) rfl rfl F

theorem Accounts.trans {r : BestFit × Set ℕ} (h : Accounts p q) (h' : Accounts q r) :
    Accounts p r := by
  have hle := h.overflows_le
  have hle' := h'.overflows_le
  refine ⟨h'.inv, fun hp => h'.subset (h.subset hp), hle.trans hle', fun hover hp => ?_⟩
  exact h'.eq (by omega) (h.eq (by omega) hp)

theorem run_accounts (h : p.1.Inv) (hrun : ReflTransGen Step p q) :
    Accounts p q := by
  induction hrun with
  | refl => exact accounts_refl p.1 h rfl rfl p.2
  | tail _ hstep ih => exact ih.trans (hstep.accounts ih.inv)

theorem overflowMarkers_eq_nil (h : ∀ len : ℕ, s.ranges[len]? = none) : s.overflowMarkers = [] := by
  refine List.filterMap_eq_nil_iff.mpr fun e he => ?_
  have hget := Std.TreeMap.mem_toList_iff_getElem?_eq_some.mp (show (e.1, e.2) ∈ _ from he)
  rw [h] at hget
  cases hget

/-- In every run from the empty strategy no operation panics, the two indexes agree, every tracked
byte is free, and all free bytes are tracked as long as no bucket overflows after a time when they
were.  An allocation comes from the start of a tracked range and is not longer than asked for; it is
as long as asked for if the smallest sufficient bucket has a range, and there is no space only if
nothing is tracked and no bucket is marked. -/
theorem run_accounting {F : Set ℕ} (hrun : ReflTransGen Step ({}, ∅) (s, F)) :
    s.Inv ∧ s.bytes ⊆ F ∧
    ((∀ range : Range, range.start ≤ range.stop →
        Disjoint s.bytes (Ico range.start range.stop) → (s.free range).isSome) ∧
      (∀ range : Range, (s.forceFree range).isSome) ∧
      (∀ range : Range, range.start ≤ range.stop → (s.remove range).isSome) ∧
      ∀ bytes, (s.allocate bytes).isSome) ∧
    (∀ s' F', ReflTransGen Step (s, F) (s', F') → s.bytes = F →
      s'.overflows = s.overflows → s'.bytes = F') ∧
    (∀ bytes r s', s.allocate bytes = some (.ok r, s') →
      ∃ t, s.Tracks t ∧ r.start = t.start ∧ r.start ≤ r.stop ∧ r.stop ≤ t.stop ∧
        r.stop - r.start ≤ bytes) ∧
    (∀ bytes size bucket, s.ranges[size]? = some bucket → bytes ≤ size →
      (∀ len b, s.ranges[len]? = some b → bytes ≤ len → size ≤ len) → bucket.offsets.Nonempty →
      ∃ r s', s.allocate bytes = some (.ok r, s') ∧ r.stop - r.start = bytes) ∧
    ∀ bytes s', s.allocate bytes = some (.error .noSpace, s') →
      (∀ range, ¬ s.Tracks range) ∧ s.overflowMarkers = [] := by
  have hstart := run_accounts inv_empty hrun
  have h : s.Inv := hstart.inv
  refine ⟨h, hstart.subset bytes_empty.subset, ⟨?_, ?_, ?_, ?_⟩, ?_, ?_, ?_, ?_⟩
  · intro range hle hdisj
    obtain ⟨result, s', hfree, -⟩ := free_spec range h hle hdisj
    simp [hfree]
  · intro range
    obtain ⟨changed, s', hforce, -⟩ := forceFree_spec h range
    simp [hforce]
  · intro range hle
    obtain ⟨s', hremove, -⟩ := remove_spec h hle
    simp [hremove]
  · intro bytes
    rcases allocate_spec h bytes with ⟨halloc, -⟩ | halloc | ⟨r, t, s', halloc, -⟩
    all_goals simp [halloc]
  · intro s' F' hrun' hF hover
    exact (run_accounts h hrun').eq hover hF
  · intro bytes r s' halloc
    rcases allocate_spec h bytes with ⟨halloc', -⟩ | halloc' |
      ⟨r', t, s'', halloc', ht, hstart, hle, hstop, hlen, -⟩
    · cases halloc.symm.trans halloc'
    · cases halloc.symm.trans halloc'
    · cases halloc.symm.trans halloc'
      exact ⟨t, ht, hstart, hle, hstop, hlen⟩
  · intro bytes size bucket hget hle hleast hne
    exact allocate_full h hget hle hleast hne
  · intro bytes s' halloc
    rcases allocate_spec h bytes with ⟨-, hnone⟩ | halloc' | ⟨r', t, s'', halloc', -⟩
    · refine ⟨fun range hr => ?_, overflowMarkers_eq_nil hnone⟩
      obtain ⟨bucket, hb, -⟩ := h.exists_bucket hr
      rw [hnone] at hb
      cases hb
    · cases halloc.symm.trans halloc'
    · cases halloc.symm.trans halloc'

theorem run_accounting_free_allocate :
    ∃ s F r s', ReflTransGen Step ({}, ∅) (s, F) ∧ s.bytes ⊆ F ∧
      s.allocate 10 = some (.ok r, s') ∧ r.stop - r.start ≤ 10 := by
  have hdisj : Disjoint ({} : BestFit).bytes (Ico 0 100) := by simp [bytes_empty]
  obtain ⟨s, r, s', hfree, halloc⟩ : ∃ s r s', ({} : BestFit).free ⟨0, 100⟩ = some (.ok (), s) ∧
      s.allocate 10 = some (.ok r, s') := ⟨_, _, _, rfl, rfl⟩
  have hrun : ReflTransGen Step ({}, ∅) (s, ∅ ∪ Ico 0 100) :=
    .single (Step.free (Nat.zero_le 100) hdisj hfree)
  obtain ⟨-, hbytes, -, -, hallocate, -⟩ := run_accounting hrun
  obtain ⟨t, -, -, -, -, hlen⟩ := hallocate 10 r s' halloc
  exact ⟨s, _, r, s', hrun, hbytes, halloc, hlen⟩

end Smos.Fxfs.Allocator.BestFit
