import Smos.Component.ShutdownMaps
import Mathlib.Order.WellFoundedSet

/-!
Shutdown in dependency order.

Under every schedule the loop keeps an invariant that links both maps with the running and the
completed shutdowns: a source waits exactly for those of its targets that have not completed.  An
acyclic map never gets stuck, so every key is shut down once and after all of its targets.
-/
namespace Smos.Component.Shutdown

open ShutdownInfo List AList Relation

variable {R E : Type*} [DecidableEq R] {deps : DependencyMap R} {x x' : Execution R}
  {fails : R → Option E}

/-- Every event of a log comes after the completion of all targets of its node. -/
def Ordered (deps : DependencyMap R) (log : List (Event R)) : Prop :=
  ∀ n e, log[n]? = some e → ∀ t ∈ targets deps e.ref, .completed t ∈ log.take n

theorem Ordered.append {log events : List (Event R)} (h : Ordered deps log)
    (hevents : ∀ e ∈ events, ∀ t ∈ targets deps e.ref, .completed t ∈ log) :
    Ordered deps (log ++ events) := by
  intro n e he t ht
  rcases Nat.lt_or_ge n log.length with hlt | hge
  · rw [getElem?_append_left hlt] at he
    rw [take_append_of_le_length hlt.le]
    exact h n e he t ht
  · rw [getElem?_append_right hge] at he
    have hmem := hevents e (mem_of_getElem? he) t ht
    rw [take_append]
    rw [take_of_length_le hge]
    exact mem_append_left _ hmem

/-- In an ordered log the indirect targets of a node complete first as well. -/
theorem Ordered.transGen {log : List (Event R)} (h : Ordered deps log) {r t : R}
    (hpath : TransGen (WaitsFor deps) r t) {n : ℕ} {e : Event R} (he : log[n]? = some e)
    (href : e.ref = r) : .completed t ∈ log.take n := by
  induction hpath with
  | single hdirect => exact h n e he _ (href ▸ hdirect)
  | tail _ hlast ih =>
    obtain ⟨m, hm⟩ := mem_iff_getElem?.mp ih
    have hlt : m < n := by
      rcases Nat.lt_or_ge m n with hlt | hge
      · exact hlt
      · rw [getElem?_take, if_neg (Nat.not_lt_of_ge hge)] at hm
        cases hm
    rw [getElem?_take_of_lt hlt] at hm
    have htarget := h m _ hm _ hlast
    exact (take_subset_take_left log hlt.le) htarget

/-- What links the maps, the running and the completed shutdowns. -/
structure Inv (deps : DependencyMap R) (x : Execution R) : Prop where
  keys : (x.job.sourceToTargets.keys ++ x.stopTargets.map ref ++
    (x.futs.map ref ++ completedRefs x.log)).Perm deps.keys
  started : (startedRefs x.log).Perm (x.futs.map ref ++ completedRefs x.log)
  waiting : ∀ s info, x.job.sourceToTargets.lookup s = some info → info.ref = s ∧
    info.dependents.1 = (targets deps s).filter (· ∉ completedRefs x.log) ∧
    info.dependents.1 ≠ []
  ready : ∀ s, s ∈ x.stopTargets.map ref ∨ s ∈ x.futs.map ref ∨
    s ∈ completedRefs x.log → ∀ t ∈ targets deps s, t ∈ completedRefs x.log
  sources : ∀ t, t ∉ completedRefs x.log → (sourcesOf x.job.targetToSources t).Nodup ∧
    ∀ s, s ∈ sourcesOf x.job.targetToSources t ↔ t ∈ targets deps s
  ordered : Ordered deps x.log

theorem Inv.start (h : Inv deps x) : Inv deps x.start := by
  have hcompleted : completedRefs x.start.log = completedRefs x.log :=
    completedRefs_append_started
  have hfuts : x.start.futs.map ref =
      x.futs.map ref ++ x.stopTargets.map ref := map_append
  have hswap : (x.start.futs.map ref ++ completedRefs x.log).Perm
      (x.stopTargets.map ref ++
        (x.futs.map ref ++ completedRefs x.log)) := by
    rw [hfuts, ← append_assoc]
    exact perm_append_comm.append_right _
  constructor
  · rw [hcompleted]
    refine List.Perm.trans ?_ h.keys
    change (x.job.sourceToTargets.keys ++ [] ++ _).Perm _
    rw [append_nil, append_assoc]
    exact hswap.append_left _
  · rw [hcompleted]
    refine List.Perm.trans ?_ hswap.symm
    have hnew : startedRefs x.start.log = startedRefs x.log ++ x.stopTargets.map ref := by
      simp [startedRefs, Execution.start]
    rw [hnew]
    exact (h.started.append_right _).trans perm_append_comm
  · rw [hcompleted]
    exact h.waiting
  · rw [hcompleted, hfuts]
    intro s hs
    apply h.ready s
    rcases hs with hs | hs | hs
    · cases hs
    · rcases mem_append.mp hs with hs | hs
      · exact .inr (.inl hs)
      · exact .inl hs
    · exact .inr (.inr hs)
  · rw [hcompleted]
    exact h.sources
  · refine h.ordered.append ?_
    intro e he t ht
    obtain ⟨info, hinfo, rfl⟩ := mem_map.mp he
    exact mem_completedRefs.mp (h.ready info.ref (.inl (mem_map_of_mem hinfo)) t ht)

theorem mem_of_target {s t : R} (h : t ∈ targets deps s) : s ∈ deps.keys := by
  unfold targets at h
  cases hlookup : deps.lookup s with
  | none =>
    rw [hlookup] at h
    cases h
  | some refs => exact AList.mem_keys.mp (mem_of_lookup hlookup)

/-- A source of a target that has not completed still waits in the map. -/
theorem Inv.source_waits (h : Inv deps x) {s t : R} (ht : t ∉ completedRefs x.log)
    (hs : t ∈ targets deps s) : ∃ info, x.job.sourceToTargets.lookup s = some info ∧
      info.ref = s := by
  have hmem := h.keys.mem_iff.mpr (mem_of_target hs)
  simp only [mem_append] at hmem
  have hmap : s ∈ x.job.sourceToTargets := by
    rcases hmem with (hmem | hmem) | hmem
    · exact AList.mem_keys.mpr hmem
    · exact absurd (h.ready s (.inl hmem) t hs) ht
    · exact absurd (h.ready s (.inr hmem) t hs) ht
  obtain ⟨info, hinfo⟩ := exists_lookup hmap
  exact ⟨info, hinfo, (h.waiting s info hinfo).1⟩

theorem finish_eq {job : ShutdownJob R} {ref : R}
    {map' : AList fun _ : R => ShutdownInfo R} {stop' : List (ShutdownInfo R)}
    (h : release ref (sourcesOf job.targetToSources ref) job.sourceToTargets [] =
      some (map', stop')) :
    ∃ job', job.finish ref = some (job', stop') ∧ job'.sourceToTargets = map' ∧
      ∀ t, t ≠ ref → sourcesOf job'.targetToSources t = sourcesOf job.targetToSources t := by
  unfold ShutdownJob.finish
  cases hlookup : job.targetToSources.lookup ref with
  | none =>
    rw [sourcesOf, hlookup] at h
    cases h
    exact ⟨job, rfl, rfl, fun _ _ => rfl⟩
  | some sources =>
    rw [sourcesOf, hlookup, Option.getD_some] at h
    simp only [h]
    refine ⟨_, rfl, rfl, ?_⟩
    intro t ht
    rw [sourcesOf, lookup_erase_ne ht]
    rfl

section Release

variable {r : R} {map' : AList fun _ : R => ShutdownInfo R} {stop' : List (ShutdownInfo R)}

/-- A source that is kept waits for the targets that are left without the completed one. -/
theorem Inv.waiting_released (h : Inv deps x)
    (hiff : ∀ s, s ∈ sourcesOf x.job.targetToSources r ↔ r ∈ targets deps s)
    (hmoves : Moves (fun refs => refs.remove r) (sourcesOf x.job.targetToSources r)
      x.job.sourceToTargets map' [] stop') (s : R) (info : ShutdownInfo R)
    (hlookup : map'.lookup s = some info) :
    info.ref = s ∧
      info.dependents.1 = (targets deps s).filter (· ∉ completedRefs x.log ++ [r]) ∧
      info.dependents.1 ≠ [] := by
  obtain ⟨old, hold, href, hcases⟩ := hmoves.kept s info hlookup
  obtain ⟨holdref, holddeps, holdsome⟩ := h.waiting s old hold
  refine ⟨href.trans holdref, ?_⟩
  rcases hcases with ⟨-, hdeps, hsome⟩ | ⟨hs, hdeps⟩
  · refine ⟨?_, hsome⟩
    rw [hdeps]
    change old.dependents.1.erase r = _
    rw [old.dependents.2.erase_eq_filter, holddeps, filter_filter]
    apply filter_congr
    intro t _
    by_cases hlast : t = r <;> by_cases hold' : t ∈ completedRefs x.log <;> simp [hlast, hold']
  · refine ⟨?_, hdeps ▸ holdsome⟩
    rw [hdeps, holddeps]
    apply filter_congr
    intro t ht
    have hne : t ≠ r := by
      rintro rfl
      exact hs ((hiff s).mpr ht)
    simp [hne]

/-- A source that has moved has no targets that are left. -/
theorem Inv.ready_released (h : Inv deps x)
    (hmoves : Moves (fun refs => refs.remove r) (sourcesOf x.job.targetToSources r)
      x.job.sourceToTargets map' [] stop') {s t : R} (hs : s ∈ stop'.map ref)
    (ht : t ∈ targets deps s) : t ∈ completedRefs x.log ++ [r] := by
  rcases hmoves.moved s hs with hs | ⟨-, old, hold, hnil⟩
  · cases hs
  · obtain ⟨-, holddeps, -⟩ := h.waiting s old hold
    by_cases hold' : t ∈ completedRefs x.log
    · exact mem_append_left _ hold'
    · have hwaits : t ∈ old.dependents.1 := by
        rw [holddeps]
        exact mem_filter.mpr ⟨ht, by simpa using hold'⟩
      rcases eq_or_ne t r with rfl | hne
      · exact mem_append_right _ mem_cons_self
      · have hleft : t ∈ old.dependents.1.erase r := (mem_erase_of_ne hne).mpr hwaits
        change t ∈ (old.dependents.remove r).1 at hleft
        rw [hnil] at hleft
        cases hleft

end Release

/-- The completion of one of the outstanding shutdowns. -/
theorem Inv.complete (h : Inv deps x) (hstop : x.stopTargets = []) {index : ℕ}
    {info : ShutdownInfo R} (hinfo : x.futs[index]? = some info) :
    ∃ job' stop', x.job.finish info.ref = some (job', stop') ∧
      Inv deps
        { job := job'
          stopTargets := stop'
          futs := x.futs.eraseIdx index
          log := x.log ++ [.completed info.ref] } := by
  have hnodup := h.keys.nodup_iff.mpr (keys_nodup deps)
  have hfuts : (x.futs.map ref).Perm
      (info.ref :: (x.futs.eraseIdx index).map ref) := by
    obtain ⟨hlt, rfl⟩ := List.getElem?_eq_some_iff.mp hinfo
    exact ((getElem_cons_eraseIdx_perm hlt).map ref).symm
  have hmem : info.ref ∈ x.futs.map ref :=
    hfuts.mem_iff.mpr mem_cons_self
  have hnew : info.ref ∉ completedRefs x.log := by
    have hdisj := (nodup_append.mp (nodup_append.mp hnodup).2.1).2.2
    intro hold
    exact hdisj info.ref hmem info.ref hold rfl
  obtain ⟨hsources, hiff⟩ := h.sources info.ref hnew
  obtain ⟨map', stop', hrelease, hmoves⟩ := @release_moves R _ x.job.sourceToTargets [] _ info.ref
    hsources (fun s hs => h.source_waits hnew ((hiff s).mp hs))
  obtain ⟨job', hfinish, rfl, hsame⟩ := finish_eq hrelease
  refine ⟨job', stop', hfinish, ?_⟩
  have hcompleted : completedRefs (x.log ++ [.completed info.ref]) =
      completedRefs x.log ++ [info.ref] := completedRefs_append_completed
  have hperm : (x.futs.map ref ++ completedRefs x.log).Perm
      ((x.futs.eraseIdx index).map ref ++ (completedRefs x.log ++ [info.ref])) := by
    refine (hfuts.append_right _).trans ?_
    rw [← append_assoc]
    exact (perm_append_singleton _ _).symm
  constructor
  · rw [hcompleted]
    refine ((hmoves.perm.append hperm.symm)).trans ?_
    have hkeys := h.keys
    rw [hstop] at hkeys
    exact hkeys
  · rw [hcompleted]
    refine List.Perm.trans ?_ hperm
    rw [startedRefs, filterMap_append]
    exact (append_nil _).symm ▸ h.started
  · rw [hcompleted]
    exact h.waiting_released hiff hmoves
  · rw [hcompleted]
    intro s hs t ht
    rcases hs with hs | hs | hs
    · exact h.ready_released hmoves hs ht
    · have hs' : s ∈ x.futs.map ref :=
        hfuts.mem_iff.mpr (mem_cons_of_mem _ hs)
      exact mem_append_left _ (h.ready s (.inr (.inl hs')) t ht)
    · rcases mem_append.mp hs with hs | hs
      · exact mem_append_left _ (h.ready s (.inr (.inr hs)) t ht)
      · cases mem_singleton.mp hs
        exact mem_append_left _ (h.ready info.ref (.inr (.inl hmem)) t ht)
  · rw [hcompleted]
    intro t ht
    rw [mem_append, not_or, mem_singleton] at ht
    rw [hsame t ht.2]
    exact h.sources t ht.1
  · refine h.ordered.append ?_
    intro e he t ht
    cases mem_singleton.mp he
    exact mem_completedRefs.mp (h.ready info.ref (.inr (.inl hmem)) t ht)

/-- One round of the loop completes one more shutdown. -/
theorem Inv.round (h : Inv deps x) (hfails : ∀ r ∈ deps, fails r = none)
    (hbusy : (x.stopTargets.isEmpty && x.futs.isEmpty) = false) (choice : ℕ) :
    ∃ x', x.start.select fails choice = some (.ok x') ∧ Inv deps x' ∧
      (completedRefs x'.log).length = (completedRefs x.log).length + 1 := by
  have hstart := h.start
  have hpos : 0 < x.start.futs.length := by
    change 0 < (x.futs ++ x.stopTargets).length
    rw [length_append]
    cases hstop : x.stopTargets with
    | cons _ _ => exact Nat.lt_of_lt_of_le (Nat.succ_pos _) (Nat.le_add_left _ _)
    | nil =>
      cases hfuts : x.futs with
      | cons _ _ => exact Nat.lt_of_lt_of_le (Nat.succ_pos _) (Nat.le_add_right _ _)
      | nil =>
        rw [hstop, hfuts] at hbusy
        cases hbusy
  obtain ⟨info, hget⟩ : ∃ info, x.start.futs[choice % x.start.futs.length]? = some info :=
    ⟨_, getElem?_eq_getElem (Nat.mod_lt choice hpos)⟩
  obtain ⟨job', stop', hfinish, hinv⟩ := hstart.complete rfl hget
  have hkey : info.ref ∈ deps := by
    apply AList.mem_keys.mpr
    apply hstart.keys.mem_iff.mp
    exact mem_append_right _ (mem_append_left _
      (mem_map_of_mem (mem_of_getElem? hget)))
  refine ⟨_, ?_, hinv, ?_⟩
  · unfold Execution.select
    simp only [hget, hfails _ hkey, hfinish]
  · rw [completedRefs_append_completed, length_append]
    change (completedRefs (x.log ++ _)).length + 1 = _
    rw [completedRefs_append_started]

/-- When nothing runs and nothing is to be stopped, everything has completed. -/
theorem Inv.all_completed (h : Inv deps x)
    (hclosed : ∀ s, ∀ t ∈ targets deps s, t ∈ deps)
    (hacyclic : ∀ r, ¬ TransGen (WaitsFor deps) r r)
    (hidle : (x.stopTargets.isEmpty && x.futs.isEmpty) = true) :
    x.job.sourceToTargets.keys = [] := by
  obtain ⟨hstop, hfuts⟩ := (Bool.and_eq_true _ _).mp hidle
  rw [List.isEmpty_iff] at hstop hfuts
  have hkeys := h.keys
  rw [hstop, hfuts] at hkeys
  simp only [map_nil, append_nil, nil_append] at hkeys
  let before : R → R → Prop := fun t s => TransGen (WaitsFor deps) s t
  have horder : IsStrictOrder R before :=
    { irrefl := hacyclic, trans := fun _ _ _ hab hbc => hbc.trans hab }
  have hfounded : (x.job.sourceToTargets.keys.toFinset : Set R).WellFoundedOn before :=
    (Finset.finite_toSet _).wellFoundedOn
  by_contra hne
  obtain ⟨s, hs⟩ := exists_mem_of_ne_nil _ hne
  have hmem : s ∈ (x.job.sourceToTargets.keys.toFinset : Set R) := by simpa using hs
  -- a waiting source waits for another one, down an endless chain
  refine hfounded.induction (P := fun _ => False) hmem (fun s hs ih => ?_)
  have hs : s ∈ x.job.sourceToTargets.keys := by simpa using hs
  obtain ⟨info, hlookup⟩ := exists_lookup (AList.mem_keys.mpr hs)
  obtain ⟨-, hdeps, hsome⟩ := h.waiting s info hlookup
  obtain ⟨t, ht⟩ := exists_mem_of_ne_nil _ hsome
  rw [hdeps, mem_filter] at ht
  obtain ⟨htarget, hopen⟩ := ht
  have hkey := hkeys.mem_iff.mpr (AList.mem_keys.mp (hclosed s t htarget))
  rcases mem_append.mp hkey with hkey | hkey
  · exact ih t (by simpa using hkey) (.single htarget)
  · simp [hkey] at hopen

theorem Inv.loop (hfails : ∀ r ∈ deps, fails r = none)
    (schedule : ℕ → ℕ) {fuel : ℕ} (round : ℕ) (h : Inv deps x)
    (hfuel : deps.keys.length < fuel + (completedRefs x.log).length) :
    ∃ x', x.loop fails schedule fuel round = some (.ok x') ∧ Inv deps x' ∧
      (x'.stopTargets.isEmpty && x'.futs.isEmpty) = true := by
  induction fuel generalizing x round with
  | zero =>
    have hlength := h.keys.length_eq
    simp only [length_append, length_map] at hlength
    omega
  | succ fuel ih =>
    unfold Execution.loop
    cases hidle : x.stopTargets.isEmpty && x.futs.isEmpty with
    | true => exact ⟨x, rfl, h, hidle⟩
    | false =>
      obtain ⟨x₁, hround, hinv, hlength⟩ := h.round hfails hidle (schedule round)
      obtain ⟨x', hloop, hrest⟩ := ih (round + 1) hinv (by omega)
      refine ⟨x', ?_, hrest⟩
      simp only [hround, hloop]
      rfl

/-- The state in which the loop starts. -/
theorem new_inv (deps : DependencyMap R) :
    ∃ map stop, takeReady (ShutdownJob.new deps).sourceToTargets.keys
        (ShutdownJob.new deps).sourceToTargets [] = some (map, stop) ∧
      Inv deps
        { job := { ShutdownJob.new deps with sourceToTargets := map }
          stopTargets := stop
          futs := []
          log := [] } := by
  have hlookup (s : R) : (ShutdownJob.new deps).sourceToTargets.lookup s =
      (deps.lookup s).map fun refs => { ref := s, dependents := refs } := lookup_sourceToTargets s
  have hentry {s : R} {info : ShutdownInfo R}
      (h : (ShutdownJob.new deps).sourceToTargets.lookup s = some info) :
      info.ref = s ∧ info.dependents.1 = targets deps s := by
    rw [hlookup, Option.map_eq_some_iff] at h
    obtain ⟨refs, hrefs, rfl⟩ := h
    rw [targets, hrefs]
    exact ⟨rfl, rfl⟩
  obtain ⟨map, stop, htake, hmoves⟩ := @takeReady_moves R _
    (ShutdownJob.new deps).sourceToTargets [] _ (keys_nodup _) (by
      intro s hs
      obtain ⟨info, hinfo⟩ := exists_lookup (AList.mem_keys.mpr hs)
      exact ⟨info, hinfo, (hentry hinfo).1⟩)
  refine ⟨map, stop, htake, ?_⟩
  constructor
  · refine List.Perm.trans ?_ keys_sourceToTargets_perm
    simpa [completedRefs] using hmoves.perm
  · exact .refl _
  · intro s info hinfo
    obtain ⟨old, hold, href, hcases⟩ := hmoves.kept s info hinfo
    obtain ⟨holdref, holddeps⟩ := hentry hold
    refine ⟨href.trans holdref, ?_⟩
    rcases hcases with ⟨-, hdeps, hsome⟩ | ⟨hs, -⟩
    · refine ⟨?_, hsome⟩
      rw [hdeps, id, holddeps]
      exact (filter_eq_self.mpr (by simp [completedRefs])).symm
    · exact absurd (AList.mem_keys.mp (mem_of_lookup hold)) hs
  · intro s hs t ht
    rcases hs with hs | hs | hs
    · rcases hmoves.moved s hs with hs | ⟨-, old, hold, hnil⟩
      · cases hs
      · rw [id, (hentry hold).2] at hnil
        rw [hnil] at ht
        cases ht
    · cases hs
    · cases hs
  · intro t _
    exact sourcesOf_new t
  · intro n e he
    cases he

/-- For every acyclic map in which every target is a key, and under every order of completion of
shutdowns that do not fail, the job returns with a log in which the shutdown of every key starts
exactly once, after the shutdowns of all its direct and indirect targets have completed, and in
which all have completed. -/
theorem execute_in_order (deps : DependencyMap R) {fails : R → Option E}
    (hfails : ∀ r ∈ deps, fails r = none) (hclosed : ∀ s, ∀ t ∈ targets deps s, t ∈ deps)
    (hacyclic : ∀ r, ¬ TransGen (WaitsFor deps) r r) (schedule : ℕ → ℕ) {fuel : ℕ}
    (hfuel : deps.keys.length < fuel) :
    ∃ log, (ShutdownJob.new deps).execute fails schedule fuel = some (.ok log) ∧
      (∀ r, log.count (.started r) = if r ∈ deps then 1 else 0) ∧
      (∀ n r, log[n]? = some (.started r) →
        ∀ t, TransGen (WaitsFor deps) r t → .completed t ∈ log.take n) ∧
      ∀ r ∈ deps, .completed r ∈ log := by
  obtain ⟨map, stop, htake, hinv⟩ := new_inv deps
  obtain ⟨x, hloop, hx, hidle⟩ := hinv.loop hfails schedule 0
    (Nat.lt_add_right _ hfuel)
  have hempty := hx.all_completed hclosed hacyclic hidle
  obtain ⟨hstop, hfuts⟩ := (Bool.and_eq_true _ _).mp hidle
  rw [List.isEmpty_iff] at hstop hfuts
  have hkeys := hx.keys
  have hstarted := hx.started
  rw [hempty, hstop, hfuts] at hkeys
  rw [hfuts] at hstarted
  refine ⟨x.log, ?_, ?_, ?_, ?_⟩
  · unfold ShutdownJob.execute
    simp only [htake, hloop, hempty, if_true]
  · intro r
    rw [← count_startedRefs, (hstarted.trans hkeys).count_eq,
      (keys_nodup deps).count]
    simp only [AList.mem_keys]
  · intro n r he t hpath
    exact hx.ordered.transGen hpath he rfl
  · intro r hr
    exact mem_completedRefs.mp (hkeys.mem_iff.mpr (AList.mem_keys.mp hr))

/-- A child that offers to another one, and the component itself that offers to both. -/
def threeNodes : DependencyMap ℕ :=
  insert 0 ⟨[1, 2], by decide⟩
    (insert 1 ⟨[2], by decide⟩ (singleton 2 ⟨[], by decide⟩))

theorem threeNodes_lt {s t : ℕ} (h : TransGen (WaitsFor threeNodes) s t) : s < t := by
  have hdirect : ∀ a b, WaitsFor threeNodes a b → a < b := by
    intro a b hab
    have hall : ∀ a ∈ threeNodes.keys, ∀ b ∈ targets threeNodes a, a < b := by decide
    exact hall a (mem_of_target hab) b hab
  induction h with
  | single h => exact hdirect _ _ h
  | tail _ h ih => exact ih.trans (hdirect _ _ h)

theorem execute_in_order_threeNodes :
    ∃ log, (ShutdownJob.new threeNodes).execute (fun _ => (none : Option Unit)) id 4 =
        some (.ok log) ∧
      (∀ r, log.count (.started r) = if r ∈ threeNodes then 1 else 0) ∧
      (∀ n r, log[n]? = some (.started r) →
        ∀ t, TransGen (WaitsFor threeNodes) r t → .completed t ∈ log.take n) ∧
      ∀ r ∈ threeNodes, .completed r ∈ log := by
  apply execute_in_order threeNodes
  · intro r _
    rfl
  · intro s t ht
    have hall : ∀ s ∈ threeNodes.keys, ∀ t ∈ targets threeNodes s, t ∈ threeNodes := by decide
    exact hall s (mem_of_target ht) t ht
  · intro r hr
    exact absurd (threeNodes_lt hr) (Nat.lt_irrefl r)
  · decide

end Smos.Component.Shutdown
