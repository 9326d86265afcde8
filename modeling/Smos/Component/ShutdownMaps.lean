import Smos.Component.Shutdown
import Mathlib.Data.List.Perm.Basic

/-!
The two maps of a shutdown job.

The map of targets that a new job builds is the inverse of its map of sources.  The loops over
some sources either keep a source in its map or move it to the stop targets, and nothing is lost.
-/
namespace Smos.Component.Shutdown

open List AList

variable {R : Type*}

def completedRefs (log : List (Event R)) : List R :=
  log.filterMap fun
    | .started _ => none
    | .completed ref => some ref

def startedRefs (log : List (Event R)) : List R :=
  log.filterMap fun
    | .started ref => some ref
    | .completed _ => none

section Lists

variable {log : List (Event R)} {infos : List (ShutdownInfo R)} {ref : R}

theorem mem_completedRefs : ref ∈ completedRefs log ↔ .completed ref ∈ log := by
  simp only [completedRefs, mem_filterMap]
  constructor
  · rintro ⟨e, he, hsome⟩
    cases e with
    | started r => cases hsome
    | completed r =>
      cases hsome
      exact he
  · intro h
    exact ⟨_, h, rfl⟩

theorem count_startedRefs [DecidableEq R] :
    (startedRefs log).count ref = log.count (.started ref) := by
  induction log with
  | nil => rfl
  | cons e log ih =>
    cases e with
    | started r =>
      change (r :: startedRefs log).count ref = _
      rw [count_cons, count_cons, ih]
      simp
    | completed r =>
      change (startedRefs log).count ref = _
      rw [ih]
      simp

theorem completedRefs_append_started :
    completedRefs (log ++ infos.map fun info => .started info.ref) = completedRefs log := by
  simp [completedRefs]

theorem completedRefs_append_completed :
    completedRefs (log ++ [.completed ref]) = completedRefs log ++ [ref] := by
  rw [completedRefs, filterMap_append]
  rfl

end Lists

variable [DecidableEq R]

def targets (deps : DependencyMap R) (source : R) : List R :=
  ((deps.lookup source).map fun refs => refs.1).getD []

def WaitsFor (deps : DependencyMap R) (source target : R) : Prop := target ∈ targets deps source

section Maps

variable {map : AList fun _ : R => ShutdownInfo R} {stop : List (ShutdownInfo R)} {ref : R}
  {info info₁ : ShutdownInfo R}

theorem exists_lookup {β : R → Type*} {m : AList β} (h : ref ∈ m) :
    ∃ b, m.lookup ref = some b :=
  Option.isSome_iff_exists.mp (lookup_isSome.mpr h)

theorem mem_of_lookup {β : R → Type*} {m : AList β} {b : β ref} (h : m.lookup ref = some b) :
    ref ∈ m :=
  lookup_isSome.mp (Option.isSome_of_eq_some h)

theorem keys_perm_cons_erase (h : map.lookup ref = some info) :
    (ref :: map.keys.erase ref).Perm map.keys :=
  (perm_cons_erase (AList.mem_keys.mp (mem_of_lookup h))).symm

/-- What a loop over some sources does with the map: each of them keeps its entry as `f` changes
it, or it moves to the stop targets if nothing is left of its dependents. -/
structure Moves (f : Refs R → Refs R) (sources : List R)
    (map map' : AList fun _ : R => ShutdownInfo R) (stop stop' : List (ShutdownInfo R)) : Prop where
  perm : (map'.keys ++ stop'.map ShutdownInfo.ref).Perm (map.keys ++ stop.map ShutdownInfo.ref)
  kept : ∀ s info', map'.lookup s = some info' → ∃ info, map.lookup s = some info ∧
    info'.ref = info.ref ∧
    (s ∈ sources ∧ info'.dependents = f info.dependents ∧ info'.dependents.1 ≠ [] ∨
      s ∉ sources ∧ info'.dependents = info.dependents)
  moved : ∀ s ∈ stop'.map ShutdownInfo.ref, s ∈ stop.map ShutdownInfo.ref ∨
    s ∈ sources ∧ ∃ info, map.lookup s = some info ∧ (f info.dependents).1 = []

theorem Moves.refl (f : Refs R → Refs R) : Moves f [] map map stop stop where
  perm := .refl _
  kept := by
    intro s info h
    exact ⟨info, h, rfl, .inr ⟨not_mem_nil, rfl⟩⟩
  moved := by
    intro s h
    exact .inl h

variable {f : Refs R → Refs R} {sources : List R} {map' : AList fun _ : R => ShutdownInfo R}
  {stop' : List (ShutdownInfo R)}

/-- The first source moves to the stop targets. -/
theorem Moves.cons_move (h : Moves f sources (map.erase ref) map' (stop ++ [info₁]) stop')
    (hnodup : ref ∉ sources) (hlookup : map.lookup ref = some info)
    (hempty : (f info.dependents).1 = []) (href : info₁.ref = ref) :
    Moves f (ref :: sources) map map' stop stop' where
  perm := by
    refine h.perm.trans ?_
    rw [map_append, map_singleton, href, ← append_assoc, keys_erase]
    refine perm_append_singleton _ _ |>.trans ?_
    exact (keys_perm_cons_erase hlookup).append_right _
  kept := by
    intro s info' hs
    obtain ⟨old, hold, hsame, hcases⟩ := h.kept s info' hs
    have hne : s ≠ ref := by
      rintro rfl
      rw [lookup_erase] at hold
      cases hold
    rw [lookup_erase_ne hne] at hold
    refine ⟨old, hold, hsame, ?_⟩
    simp only [mem_cons, hne, false_or]
    exact hcases
  moved := by
    intro s hs
    rcases h.moved s hs with hs | ⟨hs, old, hold, hnil⟩
    · rw [map_append, mem_append] at hs
      rcases hs with hs | hs
      · exact .inl hs
      · rw [map_singleton, mem_singleton, href] at hs
        subst hs
        exact .inr ⟨mem_cons_self, info, hlookup, hempty⟩
    · have hne : s ≠ ref := fun heq => hnodup (heq ▸ hs)
      rw [lookup_erase_ne hne] at hold
      exact .inr ⟨mem_cons_of_mem _ hs, old, hold, hnil⟩

/-- The first source stays in the map with its dependents as `f` changes them. -/
theorem Moves.cons_keep {map₁ : AList fun _ : R => ShutdownInfo R}
    (h : Moves f sources map₁ map' stop stop') (hnodup : ref ∉ sources)
    (hlookup : map.lookup ref = some info) (hsome : (f info.dependents).1 ≠ [])
    (hperm : map₁.keys.Perm map.keys)
    (hself : map₁.lookup ref = some { info with dependents := f info.dependents })
    (hother : ∀ s ≠ ref, map₁.lookup s = map.lookup s) :
    Moves f (ref :: sources) map map' stop stop' where
  perm := h.perm.trans (hperm.append_right _)
  kept := by
    intro s info' hs
    obtain ⟨old, hold, hsame, hcases⟩ := h.kept s info' hs
    rcases eq_or_ne s ref with rfl | hne
    · rw [hself] at hold
      cases hold
      rcases hcases with ⟨hs, -⟩ | ⟨-, hdeps⟩
      · exact absurd hs hnodup
      · refine ⟨info, hlookup, hsame, .inl ⟨mem_cons_self, hdeps, ?_⟩⟩
        rw [hdeps]
        exact hsome
    · rw [hother s hne] at hold
      refine ⟨old, hold, hsame, ?_⟩
      simp only [mem_cons, hne, false_or]
      exact hcases
  moved := by
    intro s hs
    rcases h.moved s hs with hs | ⟨hs, old, hold, hnil⟩
    · exact .inl hs
    · rw [hother s fun heq => hnodup (heq ▸ hs)] at hold
      exact .inr ⟨mem_cons_of_mem _ hs, old, hold, hnil⟩

theorem release_moves (componentRef : R) (hnodup : sources.Nodup)
    (hinfo : ∀ s ∈ sources, ∃ info, map.lookup s = some info ∧ info.ref = s) :
    ∃ map' stop', release componentRef sources map stop = some (map', stop') ∧
      Moves (fun refs => refs.remove componentRef) sources map map' stop stop' := by
  induction sources generalizing map stop with
  | nil => exact ⟨map, stop, rfl, .refl _⟩
  | cons source sources ih =>
    obtain ⟨hnotin, hnodup⟩ := nodup_cons.mp hnodup
    obtain ⟨info, hlookup, href⟩ := hinfo source mem_cons_self
    have hrest : ∀ s ∈ sources, s ≠ source := fun s hs heq => hnotin (heq ▸ hs)
    simp only [release, hlookup]
    split
    case isTrue hempty =>
      obtain ⟨map', stop', hrun, hmoves⟩ := @ih (map.erase source) (stop ++ [_]) hnodup (by
        intro s hs
        rw [lookup_erase_ne (hrest s hs)]
        exact hinfo s (mem_cons_of_mem _ hs))
      exact ⟨map', stop', hrun, hmoves.cons_move hnotin hlookup hempty href⟩
    case isFalse hsome =>
      obtain ⟨map', stop', hrun, hmoves⟩ := @ih (map.insert source
        { info with dependents := info.dependents.remove componentRef }) stop hnodup (by
        intro s hs
        rw [lookup_insert_ne (hrest s hs)]
        exact hinfo s (mem_cons_of_mem _ hs))
      exact ⟨map', stop', hrun, hmoves.cons_keep hnotin hlookup hsome
        (by rw [keys_insert]; exact keys_perm_cons_erase hlookup) (lookup_insert _)
        fun _ hne => lookup_insert_ne hne⟩

theorem takeReady_moves (hnodup : sources.Nodup)
    (hinfo : ∀ s ∈ sources, ∃ info, map.lookup s = some info ∧ info.ref = s) :
    ∃ map' stop', takeReady sources map stop = some (map', stop') ∧
      Moves id sources map map' stop stop' := by
  induction sources generalizing map stop with
  | nil => exact ⟨map, stop, rfl, .refl _⟩
  | cons source sources ih =>
    obtain ⟨hnotin, hnodup⟩ := nodup_cons.mp hnodup
    obtain ⟨info, hlookup, href⟩ := hinfo source mem_cons_self
    have hrest : ∀ s ∈ sources, s ≠ source := fun s hs heq => hnotin (heq ▸ hs)
    simp only [takeReady, hlookup]
    split
    case isTrue hempty =>
      obtain ⟨map', stop', hrun, hmoves⟩ := @ih (map.erase source) (stop ++ [info]) hnodup (by
        intro s hs
        rw [lookup_erase_ne (hrest s hs)]
        exact hinfo s (mem_cons_of_mem _ hs))
      exact ⟨map', stop', hrun, hmoves.cons_move hnotin hlookup hempty href⟩
    case isFalse hsome =>
      obtain ⟨map', stop', hrun, hmoves⟩ := @ih map stop hnodup fun s hs =>
        hinfo s (mem_cons_of_mem _ hs)
      exact ⟨map', stop', hrun, hmoves.cons_keep hnotin hlookup hsome (.refl _) hlookup
        fun _ _ => rfl⟩

end Maps

section New

variable {deps : DependencyMap R}

/-- What building the map of sources does with the entries of the dependency map. -/
theorem lookup_foldl_insert (entries : List (Sigma fun _ : R => Refs R))
    (hnodup : entries.NodupKeys)
    (map : AList fun _ : R => ShutdownInfo R) (s : R) :
    (entries.foldl (fun map entry =>
      map.insert entry.1 { ref := entry.1, dependents := entry.2 }) map).lookup s =
      match entries.dlookup s with
      | some refs => some { ref := s, dependents := refs }
      | none => map.lookup s := by
  induction entries generalizing map with
  | nil => rfl
  | cons entry entries ih =>
    obtain ⟨key, refs⟩ := entry
    obtain ⟨hnotin, hnodup⟩ := nodupKeys_cons.mp hnodup
    rw [foldl_cons, ih hnodup]
    rcases eq_or_ne s key with rfl | hne
    · rw [dlookup_cons_eq, dlookup_eq_none.mpr hnotin]
      exact lookup_insert _
    · rw [dlookup_cons_ne _ _ hne]
      split
      · rfl
      · exact lookup_insert_ne hne

theorem lookup_sourceToTargets (s : R) :
    (ShutdownJob.new deps).sourceToTargets.lookup s =
      (deps.lookup s).map fun refs => { ref := s, dependents := refs } := by
  change AList.lookup s (deps.entries.foldl _ _) = _
  rw [lookup_foldl_insert deps.entries deps.nodupKeys]
  change (match deps.lookup s with | some refs => _ | none => _) = _
  cases deps.lookup s with
  | none => rfl
  | some refs => rfl

theorem keys_sourceToTargets_perm :
    (ShutdownJob.new deps).sourceToTargets.keys.Perm deps.keys := by
  rw [perm_ext_iff_of_nodup (keys_nodup _) (keys_nodup _)]
  intro s
  rw [← AList.mem_keys, ← AList.mem_keys, ← lookup_isSome, ← lookup_isSome,
    lookup_sourceToTargets, Option.isSome_map]

def sourcesOf (map : AList fun _ : R => List R) (target : R) : List R := (map.lookup target).getD []

theorem sourcesOf_addSource (map : AList fun _ : R => List R) (provider consumer target : R) :
    sourcesOf (addSource map provider consumer) target =
      sourcesOf map target ++ if target = consumer then [provider] else [] := by
  rcases eq_or_ne target consumer with rfl | hne
  · rw [sourcesOf, addSource, lookup_insert, if_pos rfl]
    rfl
  · rw [sourcesOf, addSource, lookup_insert_ne hne, if_neg hne, append_nil]
    rfl

theorem sourcesOf_foldl_addSource (consumers : List R) (hnodup : consumers.Nodup)
    (map : AList fun _ : R => List R) (provider target : R) :
    sourcesOf (consumers.foldl (fun map consumer => addSource map provider consumer) map) target =
      sourcesOf map target ++ if target ∈ consumers then [provider] else [] := by
  induction consumers generalizing map with
  | nil => simp
  | cons consumer consumers ih =>
    obtain ⟨hnotin, hnodup⟩ := nodup_cons.mp hnodup
    rw [foldl_cons, ih hnodup, sourcesOf_addSource]
    rcases eq_or_ne target consumer with rfl | hne
    · simp [hnotin]
    · simp [hne]

theorem sourcesOf_foldl (entries : List (Sigma fun _ : R => ShutdownInfo R))
    (map : AList fun _ : R => List R) (target : R) :
    sourcesOf (entries.foldl (fun map provider => provider.2.dependents.1.foldl
        (fun map consumer => addSource map provider.2.ref consumer) map) map) target =
      sourcesOf map target ++
        (entries.filter fun e => target ∈ e.2.dependents.1).map fun e => e.2.ref := by
  induction entries generalizing map with
  | nil => simp
  | cons entry entries ih =>
    rw [foldl_cons, ih, sourcesOf_foldl_addSource _ entry.2.dependents.2, append_assoc]
    by_cases hmem : target ∈ entry.2.dependents.1
    · rw [if_pos hmem, filter_cons_of_pos (by simpa using hmem)]
      rfl
    · rw [if_neg hmem, filter_cons_of_neg (by simpa using hmem)]
      rfl

theorem entry_new {s : R} {info : ShutdownInfo R}
    (h : ⟨s, info⟩ ∈ (ShutdownJob.new deps).sourceToTargets.entries) :
    info.ref = s ∧ deps.lookup s = some info.dependents := by
  have hlookup : (ShutdownJob.new deps).sourceToTargets.lookup s = some info :=
    mem_lookup_iff.mpr h
  rw [lookup_sourceToTargets, Option.map_eq_some_iff] at hlookup
  obtain ⟨refs, hrefs, rfl⟩ := hlookup
  exact ⟨rfl, hrefs⟩

theorem sourcesOf_new_eq (target : R) :
    sourcesOf (ShutdownJob.new deps).targetToSources target =
      ((ShutdownJob.new deps).sourceToTargets.entries.filter
        fun e => target ∈ e.2.dependents.1).map fun e => e.1 := by
  have hfold := sourcesOf_foldl (ShutdownJob.new deps).sourceToTargets.entries ∅ target
  refine hfold.trans ?_
  apply map_congr_left
  intro e he
  exact (entry_new (mem_of_mem_filter he)).1

/-- The inverse map lists each source of a target once. -/
theorem sourcesOf_new (target : R) :
    (sourcesOf (ShutdownJob.new deps).targetToSources target).Nodup ∧
    ∀ s, s ∈ sourcesOf (ShutdownJob.new deps).targetToSources target ↔
      target ∈ targets deps s := by
  rw [sourcesOf_new_eq]
  constructor
  · exact (keys_nodup (ShutdownJob.new deps).sourceToTargets).sublist
      (filter_sublist.map _)
  · intro s
    simp only [mem_map, mem_filter, decide_eq_true_eq, targets]
    constructor
    · rintro ⟨⟨s', info⟩, ⟨hentry, htarget⟩, rfl⟩
      rw [(entry_new hentry).2]
      exact htarget
    · intro htarget
      cases hlookup : deps.lookup s with
      | none =>
        rw [hlookup] at htarget
        cases htarget
      | some refs =>
        rw [hlookup] at htarget
        refine ⟨⟨s, { ref := s, dependents := refs }⟩, ⟨?_, htarget⟩, rfl⟩
        apply mem_lookup_iff.mp
        rw [lookup_sourceToTargets, hlookup]
        rfl

end New

end Smos.Component.Shutdown
