import Mathlib.Data.List.Basic

/-!
The lock-free future of the executor (`fuchsia-async/src/atomic_future.rs`), as a system of threads
that take one step for each atomic operation on the state word.

The inner future is polled and dropped by the thread that gained exclusive access.  What the inner
future does is up to it: a poll may be pending, ready or panic, and take as long as it likes.
-/
namespace Smos.Async

structure Bits where
  inactive : Bool := false
  ready : Bool := false
  done : Bool := false
  detached : Bool := false
  cancelled : Bool := false
  resultTaken : Bool := false
deriving DecidableEq

namespace Bits

def or (self mask : Bits) : Bits where
  inactive := self.inactive || mask.inactive
  ready := self.ready || mask.ready
  done := self.done || mask.done
  detached := self.detached || mask.detached
  cancelled := self.cancelled || mask.cancelled
  resultTaken := self.resultTaken || mask.resultTaken

def clear (self mask : Bits) : Bits where
  inactive := self.inactive && !mask.inactive
  ready := self.ready && !mask.ready
  done := self.done && !mask.done
  detached := self.detached && !mask.detached
  cancelled := self.cancelled && !mask.cancelled
  resultTaken := self.resultTaken && !mask.resultTaken

end Bits

inductive AttemptPollResult
  | busy
  | pending
  | iFinished
  | someoneElseFinished
  | yield
  | cancelled
deriving DecidableEq

inductive CancelAndDetachResult
  | done
  | addToRunQueue
  | pending
deriving DecidableEq

inductive Call
  | tryPoll
  | markReady
  | cancel
  | cancelAndDetach
  | detach
  | tryDrop
  | takeResult
deriving DecidableEq

variable {R : Type}

inductive Ret (R : Type)
  | tryPoll (result : AttemptPollResult)
  | markReady (needed : Bool)
  | cancel (needed : Bool)
  | cancelAndDetach (result : CancelAndDetachResult)
  | detach
  | tryDrop (success : Bool)
  | takeResult (result : Option R)
  | drop
deriving DecidableEq

/-- Where a thread is: before the atomic operation of this name, or inside the inner future.  A
`try_poll` carries whether the task was cancelled when it began, and a drop what the call
returns after it. -/
inductive Pc (R : Type)
  | idle
  | tryPoll (late : Bool)
  | tryPollBusy (late : Bool)
  | poll (late : Bool)
  | polling
  | pollDropping (result : R)
  | pollReady
  | pollPending
  | dropFutureUnchecked (ret : Ret R)
  | dropFuture (ret : Ret R)
  | dropping (ret : Ret R)
  | markReady
  | cancel
  | cancelAndDetach
  | detach
  | tryDrop
  | takeResultLoad
  | takeResultTake
  | takeResultRead
deriving DecidableEq

/-- The union `FutureOrResult`: what it holds and, when that is gone, what became of it. -/
inductive Contents (R : Type)
  | future
  | completing (result : R)
  | result (result : R)
  | consumed (result : R)
  | dropped
deriving DecidableEq

inductive Event (R : Type)
  | tryPoll (late : Bool)
  | poll (late : Bool)
  | ready (result : R)
  | dropFuture
  | dropResult (result : R)
  | invalidRead
  | returned (ret : Ret R)
deriving DecidableEq

/-- The future, the threads that use it and what has happened, the last event first. -/
structure State (R : Type) where
  bits : Bits
  contents : Contents R
  threads : List (Pc R)
  closed : Bool
  aborted : Bool
  history : List (Event R)
deriving DecidableEq

/-- What lets a thread go on: it begins a call, it executes its next operation, or the inner future
returns from its poll or its destructor.  A panic in a poll aborts the process.  A destructor
that panics is left, as one that returns. -/
inductive Move (R : Type)
  | call (call : Call)
  | drop
  | next
  | pollReturns (result : Option R)
  | pollPanics
  | destructorReturns
deriving DecidableEq

namespace State

def new (detached : Bool) (threads : ℕ) : State R where
  bits := { inactive := true, detached := detached }
  contents := .future
  threads := List.replicate threads .idle
  closed := false
  aborted := false
  history := []

def goto (s : State R) (t : ℕ) (pc : Pc R) : State R := { s with threads := s.threads.set t pc }

def log (s : State R) (e : Event R) : State R := { s with history := e :: s.history }

def ret (s : State R) (t : ℕ) (r : Ret R) : State R := (s.goto t .idle).log (.returned r)

def fetchOr (s : State R) (mask : Bits) : State R := { s with bits := s.bits.or mask }

def fetchAndNot (s : State R) (mask : Bits) : State R := { s with bits := s.bits.clear mask }

def enter (s : State R) (t : ℕ) : Call → State R
  | .tryPoll => (s.goto t (.tryPoll s.bits.cancelled)).log (.tryPoll s.bits.cancelled)
  | .markReady => s.goto t .markReady
  | .cancel => s.goto t .cancel
  | .cancelAndDetach => s.goto t .cancelAndDetach
  | .detach => s.goto t .detach
  | .tryDrop => s.goto t .tryDrop
  | .takeResult => s.goto t .takeResultLoad

/-- `(INACTIVE | READY | DONE) == INACTIVE`. -/
def needsQueue (old : Bits) : Bool := old.inactive && !old.ready && !old.done

def next (s : State R) (t : ℕ) : Pc R → Option (State R)
  | .tryPoll late =>
    let old := s.bits
    let s := s.fetchAndNot { inactive := true, ready := true }
    if old.done then some (s.ret t (.tryPoll .someoneElseFinished))
    else if old.inactive then
      if old.cancelled then some (s.goto t (.dropFutureUnchecked (.tryPoll .cancelled)))
      else some (s.goto t (.poll late))
    else some (s.goto t (.tryPollBusy late))
  | .tryPollBusy late =>
    let old := s.bits
    let s := s.fetchOr { ready := true }
    if old.inactive = false ∨ old.ready = true then some (s.ret t (.tryPoll .pending))
    else some (s.goto t (.tryPoll late))
  | .poll late => some ((s.goto t .polling).log (.poll late))
  | .pollReady => some ((s.fetchOr { done := true }).ret t (.tryPoll .iFinished))
  | .pollPending =>
    let old := s.bits
    some ((s.fetchOr { inactive := true }).ret t
      (.tryPoll (if old.ready then .yield else .pending)))
  | .dropFutureUnchecked r =>
    let old := s.bits
    let s := s.fetchOr { done := true, resultTaken := true }
    -- the assertion unwinds the call
    if old.done then some (s.goto t .idle) else some (s.goto t (.dropFuture r))
  | .dropFuture r =>
    some (({ s with contents := .dropped }.goto t (.dropping r)).log .dropFuture)
  | .markReady => some ((s.fetchOr { ready := true }).ret t (.markReady (needsQueue s.bits)))
  | .cancel =>
    some ((s.fetchOr { cancelled := true, ready := true }).ret t (.cancel (needsQueue s.bits)))
  | .cancelAndDetach =>
    let old := s.bits
    some ((s.fetchOr { cancelled := true, detached := true, ready := true }).ret t
      (.cancelAndDetach (if old.done then .done
        else if old.inactive ∧ old.ready = false then .addToRunQueue else .pending)))
  | .detach => some ((s.fetchOr { detached := true }).ret t .detach)
  | .tryDrop =>
    let old := s.bits
    let s := s.fetchAndNot { inactive := true }
    if old.done then some (s.ret t (.tryDrop true))
    else if old.inactive then some (s.goto t (.dropFutureUnchecked (.tryDrop true)))
    else some (s.ret t (.tryDrop false))
  | .takeResultLoad =>
    if s.bits.done ∧ s.bits.resultTaken = false then some (s.goto t .takeResultTake)
    else some (s.ret t (.takeResult none))
  | .takeResultTake =>
    let old := s.bits
    let s := s.fetchOr { resultTaken := true }
    if old.resultTaken then some (s.ret t (.takeResult none))
    else some (s.goto t .takeResultRead)
  | .takeResultRead =>
    match s.contents with
    | .result r => some ({ s with contents := .consumed r }.ret t (.takeResult (some r)))
    -- there is no result to read
    | _ => some ((s.goto t .idle).log .invalidRead)
  | .idle | .polling | .pollDropping _ | .dropping _ => none

def drop (s : State R) (t : ℕ) : Option (State R) :=
  if s.threads.all (· matches .idle) = false then none
  else
    let s := { s with closed := true }
    if s.bits.done = false then
      some (({ s with contents := .dropped }.goto t (.dropping .drop)).log .dropFuture)
    else if s.bits.resultTaken = false then
      match s.contents with
      | .result r => some ({ s with contents := .consumed r }.log (.dropResult r))
      | _ => some (s.log .invalidRead)
    else some s

def step (s : State R) (t : ℕ) (m : Move R) : Option (State R) := do
  let pc ← s.threads[t]?
  if s.aborted then none
  else match m, pc with
  | .call c, .idle => if s.closed then none else some (s.enter t c)
  | .drop, .idle => if s.closed then none else s.drop t
  | .next, pc => s.next t pc
  | .pollReturns none, .polling => some (s.goto t .pollPending)
  | .pollReturns (some r), .polling =>
    some (({ s with contents := .completing r }.goto t (.pollDropping r)).log
      (.ready r) |>.log .dropFuture)
  | .destructorReturns, .pollDropping r =>
    some ({ s with contents := .result r }.goto t .pollReady)
  | .destructorReturns, .dropping r => some (s.ret t r)
  | .pollPanics, .polling => some { s with aborted := true }
  | .pollPanics, .pollDropping _ => some { s with aborted := true }
  | _, _ => none

def run (s : State R) : List (ℕ × Move R) → Option (State R)
  | [] => some s
  | (t, m) :: rest => do (← s.step t m).run rest

end State

end Smos.Async
