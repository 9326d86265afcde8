import Mathlib.Logic.Relation
import Mathlib.Data.List.Basic

/-!
The actions of a component: registering them and running their tasks.

A task is numbered in the order of registration, and its notifier has the same number.  The phases
of a task are those of the future that `register_inner` builds and of the task that sends its
result.  The component, the warning timer and the passive waiters, which nothing adds to, are not
part of the model; an abort handle is the number of the task that it aborts.
-/
namespace Smos.Component.ActionSet

inductive ActionKey where
  | resolve
  | unresolve
  | start
  | stop
  | shutdown
  | destroy
deriving DecidableEq, Repr

def ActionKey.serialized : ActionKey → Bool
  | .start | .stop | .shutdown => true
  | _ => false

structure ActionController where
  notifier : ℕ
  maybeAbortHandle : Option ℕ

/-- How far a task has come: it was registered, it has aborted what it may abort and waits for its
prerequisites, its handler runs, its handler has returned, it was removed from the set, or its
result was sent. -/
inductive Phase (ρ : Type*) where
  | registered
  | waiting
  | running
  | returned (res : ρ)
  | finished (res : ρ)
  | notified (res : ρ)

structure ActionTask (ρ : Type*) where
  key : ActionKey
  prereqs : List ℕ
  abortHandles : List ℕ
  phase : Phase ρ

/-- The set of actions, the tasks registered in it, and what the run has shown so far: the tasks
that were aborted, the handlers that began, the results of handlers and the results sent. -/
structure State (ρ : Type*) where
  rep : ActionKey → Option ActionController
  tasks : List (ActionTask ρ)
  aborted : List ℕ
  begun : List (ℕ × ActionKey)
  results : List (ℕ × ρ)
  sent : ℕ → Option ρ

namespace State

variable {ρ : Type*}

def new : State ρ where
  rep := fun _ => none
  tasks := []
  aborted := []
  begun := []
  results := []
  sent := fun _ => none

def wait (s : State ρ) (key : ActionKey) : Option ℕ := (s.rep key).map ActionController.notifier

def finish (s : State ρ) (key : ActionKey) : State ρ :=
  { s with rep := Function.update s.rep key none }

def getPrereqAction (s : State ρ) (key : ActionKey) : List ℕ :=
  match key with
  | .shutdown => (s.wait .stop).toList ++ (s.wait .start).toList
  | .stop => (s.wait .shutdown).toList ++ (s.wait .start).toList
  | .start => (s.wait .stop).toList ++ (s.wait .shutdown).toList
  | _ => []

def getAbortAction (s : State ρ) (key : ActionKey) : List ℕ :=
  match key with
  | .shutdown | .stop => ((s.rep .start).bind ActionController.maybeAbortHandle).toList
  | _ => []

def registerInner (s : State ρ) (key : ActionKey) (abortable : Bool) :
    State ρ × Option (ActionTask ρ) × ℕ :=
  match s.rep key with
  | some actionController => (s, none, actionController.notifier)
  | none =>
    let id := s.tasks.length
    let task : ActionTask ρ :=
      { key := key
        prereqs := s.getPrereqAction key
        abortHandles := s.getAbortAction key
        phase := .registered }
    let controller : ActionController :=
      { notifier := id, maybeAbortHandle := if abortable then some id else none }
    ({ s with rep := Function.update s.rep key (some controller) }, some task, id)

def registerNoWait (s : State ρ) (key : ActionKey) (abortable : Bool) : State ρ × ℕ :=
  match s.registerInner key abortable with
  | (s, none, rx) => (s, rx)
  | (s, some task, rx) => ({ s with tasks := s.tasks ++ [task] }, rx)

def setPhase (s : State ρ) (i : ℕ) (phase : Phase ρ) : State ρ :=
  { s with tasks := s.tasks.modify i fun task => { task with phase := phase } }

def PrereqsDone (s : State ρ) (task : ActionTask ρ) : Prop :=
  ∀ p ∈ task.prereqs, (s.sent p).isSome

inductive Step : State ρ → State ρ → Prop
  | register (s : State ρ) (key : ActionKey) (abortable : Bool) :
      Step s (s.registerNoWait key abortable).1
  | abort {s : State ρ} {i : ℕ} {task : ActionTask ρ} (htask : s.tasks[i]? = some task)
      (hphase : task.phase = .registered) :
      Step s { s.setPhase i .waiting with aborted := s.aborted ++ task.abortHandles }
  | handle {s : State ρ} {i : ℕ} {task : ActionTask ρ} (htask : s.tasks[i]? = some task)
      (hphase : task.phase = .waiting) (hdone : s.PrereqsDone task) :
      Step s { s.setPhase i .running with begun := s.begun ++ [(i, task.key)] }
  | handled {s : State ρ} {i : ℕ} {task : ActionTask ρ} (htask : s.tasks[i]? = some task)
      (hphase : task.phase = .running) (res : ρ) :
      Step s { s.setPhase i (.returned res) with results := s.results ++ [(i, res)] }
  | finish {s : State ρ} {i : ℕ} {task : ActionTask ρ} {res : ρ}
      (htask : s.tasks[i]? = some task) (hphase : task.phase = .returned res) :
      Step s ((s.setPhase i (.finished res)).finish task.key)
  | notify {s : State ρ} {i : ℕ} {task : ActionTask ρ} {res : ρ}
      (htask : s.tasks[i]? = some task) (hphase : task.phase = .finished res) :
      Step s { s.setPhase i (.notified res) with sent := Function.update s.sent i (some res) }

def Reachable (s : State ρ) : Prop := Relation.ReflTransGen Step new s

end State

end Smos.Component.ActionSet
