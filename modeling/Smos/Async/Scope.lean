import Mathlib.Data.Fintype.EquivFin
import Mathlib.Data.List.Infix

/-!
Scopes of tasks (`fuchsia-async/src/runtime/fuchsia/executor/scope.rs`) and what closing one stops.

A scope is named by its place in the tree: a number among the children of its parent, and then the
place of the parent.  What is done under the lock of a scope is one step, with all that it does to
the ancestors.  A scope that was dropped keeps its place; nothing is called on it any more.
-/
namespace Smos.Async

open List

inductive Status
  | opened
  | closed
  | finished
deriving DecidableEq

def Status.canSpawn : Status → Bool
  | .opened => true
  | .closed | .finished => false

theorem Status.canSpawn_iff {status : Status} : status.canSpawn = true ↔ status = .opened := by
  cases status <;> decide

/-- What is at a place: whether there is a scope, and its state.  Tasks are their identifiers. -/
structure ScopeState where
  created : Bool
  allTasks : Finset ℕ
  subscopesWithTasks : ℕ
  status : Status

namespace ScopeState

def new (status : Status) : ScopeState where
  created := true
  allTasks := ∅
  subscopesWithTasks := 0
  status := status

def close (self : ScopeState) : ScopeState := { self with status := .closed }

def markFinished (self : ScopeState) : ScopeState := { self with status := .finished }

def hasTasks (self : ScopeState) : Bool := 0 < self.subscopesWithTasks

def Quiet (self : ScopeState) : Prop := self.allTasks = ∅ ∧ self.subscopesWithTasks = 0

structure Settles (state state' : ScopeState) : Prop where
  created : state'.created = state.created
  status : state'.status = .opened → state.status = .opened
  quiet : state.Quiet → state'.Quiet

theorem Settles.refl (state : ScopeState) : state.Settles state := ⟨rfl, id, id⟩

theorem Settles.trans {a b c : ScopeState} (h : a.Settles b) (h' : b.Settles c) : a.Settles c :=
  ⟨h'.created.trans h.created, h.status ∘ h'.status, h'.quiet ∘ h.quiet⟩

end ScopeState

abbrev Scopes := List ℕ → ScopeState

/-- What is called on a scope.  `takeTask` is any removal of a task, and `cancel` is one turn of the
loop of `cancel_all_tasks`; a turn of `drop_all_tasks` is a `close` and the removals. -/
inductive ScopeCall
  | insertTask (id : ℕ)
  | newChild (n : ℕ)
  | close
  | pollJoin
  | takeTask (id : ℕ)
  | cancel

namespace Scopes

def root : Scopes := fun q => { ScopeState.new .opened with created := q = [] }

def modify (s : Scopes) (q : List ℕ) (f : ScopeState → ScopeState) : Scopes :=
  Function.update s q (f (s q))

/-- The scope counts one more child with tasks, or its own. -/
def addSubscope (s : Scopes) (q : List ℕ) : Scopes :=
  s.modify q fun state => { state with subscopesWithTasks := state.subscopesWithTasks + 1 }

/-- `none` if the scope is not allowed to accept a task. -/
def registerFirstTask (s : Scopes) : List ℕ → Option Scopes
  | [] => if (s []).status.canSpawn then some (s.addSubscope []) else none
  | n :: p =>
    if (s (n :: p)).status.canSpawn then
      -- a parent that already knows of tasks here is not asked
      let asked := if (s (n :: p)).hasTasks then some s else s.registerFirstTask p
      asked.map (·.addSubscope (n :: p))
    else none

/-- Whether the scope accepts the task, `none` if its identifier is in use. -/
def insertTask (s : Scopes) (q : List ℕ) (id : ℕ) : Option (Scopes × Bool) :=
  if (s q).status.canSpawn then
    match if (s q).allTasks = ∅ then s.registerFirstTask q else some s with
    | none => some (s, false)
    | some s =>
      if id ∈ (s q).allTasks then none
      else some (s.modify q fun state => { state with allTasks := insert id state.allTasks }, true)
  else some (s, false)

def onLastTaskRemoved (s : Scopes) (q : List ℕ) : Scopes :=
  let s := s.modify q fun state =>
    { state with subscopesWithTasks := state.subscopesWithTasks - 1 }
  if (s q).hasTasks then s
  else match q with
    | [] => s
    | _ :: p => s.onLastTaskRemoved p

def takeTask (s : Scopes) (q : List ℕ) (id : ℕ) : Scopes :=
  if id ∈ (s q).allTasks then
    let s := s.modify q fun state => { state with allTasks := state.allTasks.erase id }
    if (s q).allTasks = ∅ then s.onLastTaskRemoved q else s
  else s

def pollJoin (s : Scopes) (q : List ℕ) : Scopes :=
  if (s q).hasTasks then s else s.modify q .markFinished

/-- A call on a scope that there is.  A child gets a place that is not in use. -/
def step (s : Scopes) (q : List ℕ) (call : ScopeCall) : Option Scopes :=
  if (s q).created then
    match call with
    | .insertTask id => (s.insertTask q id).map Prod.fst
    | .newChild n =>
      if (s (n :: q)).created then none else some (s.modify (n :: q) fun _ => .new (s q).status)
    | .close => some (s.modify q .close)
    | .pollJoin => some (s.pollJoin q)
    | .takeTask id => some (s.takeTask q id)
    | .cancel => some (s.modify q .markFinished)
  else none

def run (s : Scopes) : List (List ℕ × ScopeCall) → Option Scopes
  | [] => some s
  | (q, call) :: rest => do (← s.step q call).run rest

variable {s s' : Scopes} {p q r : List ℕ} {id : ℕ} {f : ScopeState → ScopeState} {call : ScopeCall}

theorem modify_of_ne (h : r ≠ q) : s.modify q f r = s r := Function.update_of_ne h _ _

@[simp] theorem modify_self : s.modify q f q = f (s q) := Function.update_self ..

theorem settles_modify (h : (s q).Settles (f (s q))) (r : List ℕ) :
    (s r).Settles (s.modify q f r) := by
  by_cases hr : r = q
  · subst hr
    rwa [modify_self]
  · rw [modify_of_ne hr]
    exact .refl _

theorem settles_status {status : Status} (h : status ≠ .opened) (q r : List ℕ) :
    (s r).Settles (s.modify q (fun state => { state with status := status }) r) :=
  settles_modify ⟨rfl, fun heq => absurd heq h, fun hquiet => hquiet⟩ r

theorem settles_onLastTaskRemoved (s : Scopes) (q r : List ℕ) :
    (s r).Settles (s.onLastTaskRemoved q r) := by
  have hstep (s : Scopes) (q : List ℕ) : (s r).Settles (s.modify q (fun state =>
      { state with subscopesWithTasks := state.subscopesWithTasks - 1 }) r) :=
    settles_modify ⟨rfl, fun h => h, fun h => ⟨h.1, by simp [h.2]⟩⟩ r
  induction q generalizing s with
  | nil =>
    rw [onLastTaskRemoved, ite_self]
    exact hstep s []
  | cons n p ih =>
    rw [onLastTaskRemoved]
    split
    · exact hstep s (n :: p)
    · exact (hstep s (n :: p)).trans (ih _)

theorem settles_takeTask (s : Scopes) (q : List ℕ) (id : ℕ) (r : List ℕ) :
    (s r).Settles (s.takeTask q id r) := by
  have herase : (s r).Settles
      (s.modify q (fun state => { state with allTasks := state.allTasks.erase id }) r) :=
    settles_modify ⟨rfl, fun h => h, fun h => ⟨by simp [h.1], h.2⟩⟩ r
  unfold takeTask
  split
  · dsimp only
    split
    · exact herase.trans (settles_onLastTaskRemoved _ q r)
    · exact herase
  · exact .refl _

/-- Registration changes scopes on the way to the root only. -/
theorem registerFirstTask_frame (h : s.registerFirstTask q = some s') (hr : ¬ r <:+ q) :
    s' r = s r := by
  have hne : r ≠ q := fun heq => hr (heq ▸ suffix_rfl)
  induction q generalizing s' with
  | nil =>
    rw [registerFirstTask] at h
    split_ifs at h
    cases h
    exact modify_of_ne hne
  | cons n p ih =>
    rw [registerFirstTask] at h
    split at h
    · obtain ⟨s₁, hs₁, rfl⟩ := Option.map_eq_some_iff.mp h
      rw [addSubscope, modify_of_ne hne]
      split at hs₁
      · cases hs₁
        rfl
      · have hp : ¬ r <:+ p := fun hr' => hr (hr'.trans (suffix_cons n p))
        exact ih hs₁ hp fun heq => hp (heq ▸ suffix_rfl)
    · cases h

/-- The scope `p` and those below it refuse every task. -/
structure Shut (s : Scopes) (p : List ℕ) : Prop where
  created : (s p).created
  status : (s p).status ≠ .opened
  quiet : ∀ q, p <:+ q → (s q).status = .opened → (s q).Quiet

namespace Shut

variable (h : Shut s p)
include h

theorem registerFirstTask_eq_none (hpq : p <:+ q) : s.registerFirstTask q = none := by
  induction q with
  | nil =>
    rw [registerFirstTask, if_neg]
    rw [Status.canSpawn_iff, ← suffix_nil.mp hpq]
    exact h.status
  | cons n q ih =>
    rw [registerFirstTask]
    split
    case isTrue hopen =>
      rw [Status.canSpawn_iff] at hopen
      rcases suffix_cons_iff.mp hpq with rfl | hpq'
      · exact absurd hopen h.status
      -- it counts no tasks and has to ask its parent
      · simp [ScopeState.hasTasks, (h.quiet _ hpq hopen).2, ih hpq']
    case isFalse => rfl

theorem insertTask_eq (hpq : p <:+ q) : s.insertTask q id = some (s, false) := by
  rw [insertTask]
  split
  case isTrue hopen =>
    have hquiet := h.quiet q hpq (Status.canSpawn_iff.mp hopen)
    simp [hquiet.1, h.registerFirstTask_eq_none hpq]
  case isFalse => rfl

theorem of_settles (hs : ∀ q, p <:+ q → (s q).Settles (s' q)) : Shut s' p where
  created := (hs p suffix_rfl).created.trans h.created
  status := mt (hs p suffix_rfl).status h.status
  quiet q hpq hopen := (hs q hpq).quiet (h.quiet q hpq ((hs q hpq).status hopen))

theorem insertTask {b : Bool} (hs : s.insertTask q id = some (s', b)) : Shut s' p := by
  by_cases hpq : p <:+ q
  · rw [h.insertTask_eq hpq] at hs
    cases hs
    exact h
  unfold Scopes.insertTask at hs
  split at hs
  case isFalse =>
    cases hs
    exact h
  case isTrue =>
  split at hs
  · cases hs
    exact h
  next s₁ hs₁ =>
  split_ifs at hs
  cases hs
  refine h.of_settles fun r hpr => ?_
  have hr : ¬ r <:+ q := fun hr => hpq (hpr.trans hr)
  have hne : r ≠ q := fun heq => hr (heq ▸ suffix_rfl)
  have hsame : s₁ r = s r := by
    split at hs₁
    · exact registerFirstTask_frame hs₁ hr
    · cases hs₁
      rfl
  rw [modify_of_ne hne, hsame]
  exact .refl _

theorem newChild {n : ℕ} (hcreated : (s (n :: q)).created = false) :
    Shut (s.modify (n :: q) fun _ => .new (s q).status) p := by
  have hp : p ≠ n :: q := by
    rintro rfl
    exact absurd h.created (Bool.eq_false_iff.mp hcreated)
  constructor
  · rw [modify_of_ne hp]
    exact h.created
  · rw [modify_of_ne hp]
    exact h.status
  · intro r hpr hopen
    by_cases hr : r = n :: q
    · rw [hr, modify_self]
      exact ⟨rfl, rfl⟩
    · rw [modify_of_ne hr] at hopen ⊢
      exact h.quiet r hpr hopen

theorem step (hs : s.step q call = some s') : Shut s' p := by
  unfold Scopes.step at hs
  split at hs
  case isFalse => cases hs
  case isTrue =>
  cases call with
  | insertTask id =>
    obtain ⟨⟨s₁, b⟩, hs₁, rfl⟩ := Option.map_eq_some_iff.mp hs
    exact h.insertTask hs₁
  | newChild n =>
    dsimp only at hs
    split at hs
    · cases hs
    next hcreated =>
    cases hs
    exact h.newChild (Bool.eq_false_iff.mpr hcreated)
  | close =>
    cases hs
    exact h.of_settles fun r _ => settles_status (by decide) q r
  | pollJoin =>
    cases hs
    unfold pollJoin
    split
    · exact h
    · exact h.of_settles fun r _ => settles_status (by decide) q r
  | takeTask id =>
    cases hs
    exact h.of_settles fun r _ => settles_takeTask s q id r
  | cancel =>
    cases hs
    exact h.of_settles fun r _ => settles_status (by decide) q r

theorem run {calls : List (List ℕ × ScopeCall)} (hs : s.run calls = some s') : Shut s' p := by
  induction calls generalizing s with
  | nil =>
    cases hs
    exact h
  | cons call calls ih =>
    obtain ⟨s₁, hs₁, hs⟩ := Option.bind_eq_some_iff.mp hs
    exact ih (h.step hs₁) hs

end Shut

/-- An open scope accepts another task if it has one or counts some below. -/
theorem exists_insertTask (hopen : (s q).status = .opened) (hq : ¬ (s q).Quiet) :
    ∃ id, (s.insertTask q id).map Prod.snd = some true := by
  have hspawn := Status.canSpawn_iff.mpr hopen
  by_cases hempty : (s q).allTasks = ∅
  · have htasks : (s q).hasTasks := by
      simpa [ScopeState.hasTasks, Nat.pos_iff_ne_zero] using fun hzero => hq ⟨hempty, hzero⟩
    have hregister : s.registerFirstTask q = some (s.addSubscope q) := by
      cases q with
      | nil => simp [registerFirstTask, hspawn]
      | cons n p => simp [registerFirstTask, hspawn, htasks]
    exact ⟨0, by simp [insertTask, hspawn, hempty, hregister, addSubscope]⟩
  · obtain ⟨id, hid⟩ := Infinite.exists_notMem_finset (s q).allTasks
    exact ⟨id, by simp [insertTask, hspawn, hempty, hid]⟩

/-- After closing a scope, no insertion there or below ever succeeds if and only if no open scope
below it has tasks or counts some at that time. -/
theorem close_transitive_iff (s : Scopes) (p : List ℕ) :
    (∀ calls s', s.run ((p, .close) :: calls) = some s' → ∀ q, p <:+ q →
      ∀ id, (s'.insertTask q id).map Prod.snd ≠ some true) ↔
    ((s p).created → ∀ q, p <:+ q → q ≠ p → (s q).status = .opened → (s q).Quiet) := by
  constructor
  · intro h hp q hpq hne hopen
    by_contra hquiet
    have hclose : s.modify p .close q = s q := modify_of_ne hne
    obtain ⟨id, hinsert⟩ := exists_insertTask (hclose ▸ hopen) (hclose ▸ hquiet)
    exact h [] (s.modify p .close) (by simp [run, step, hp]) q hpq id hinsert
  · intro h calls s' hs q hpq id
    obtain ⟨s₁, hs₁, hs⟩ := Option.bind_eq_some_iff.mp hs
    unfold step at hs₁
    split at hs₁
    case isFalse => cases hs₁
    case isTrue hp =>
    cases hs₁
    have hshut : Shut (s.modify p .close) p := by
      refine ⟨(settles_status (by decide) p p).created.trans hp, by simp [ScopeState.close], ?_⟩
      intro q hpq hopen
      by_cases hne : q = p
      · rw [hne, modify_self] at hopen
        cases hopen
      · rw [modify_of_ne hne] at hopen ⊢
        exact h hp q hpq hne hopen
    rw [(hshut.run hs).insertTask_eq hpq]
    simp

/-- A child with a task goes on after its parent is closed. -/
theorem insertTask_below_closed :
    ((root.run [([], .newChild 0), ([0], .newChild 0), ([0, 0], .insertTask 0), ([0], .close)]).bind
      fun s => (s.insertTask [0, 0] 1).map Prod.snd) = some true := by
  decide

end Scopes

end Smos.Async
