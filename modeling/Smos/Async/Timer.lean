import Mathlib.Data.Int.Notation
import Mathlib.Logic.Relation

/-!
A timer future of the executor (`fuchsia-async/src/runtime/fuchsia/timer.rs`): its owner polls and
resets it while other threads call `wake_timers`.

A step is one access to what the threads share; what the owner does to a timer that is not in the
heap goes with the load that found it so.  The heap is seen from this timer: a thread may pop it
once the time that the thread has read is its deadline or later.
-/
namespace Smos.Async.Timers

open Relation

inductive State
  | unregistered
  | registered
  | fired
  | terminated
deriving DecidableEq

/-- Where the owner is: in no call, before this operation of a poll, or before it takes the lock in
`try_reset_timer`. -/
inductive Owner (W : Type)
  | idle
  | push (waker : W)
  | register (waker : W)
  | load (waker : W)
  | tryResetTimer (nanos : ℤ)

/-- `TimerState`, where the index says whether the heap holds it, with its owner and the clock.  A
thread that has popped it holds the lock until it has taken the waker. -/
structure Timer (W : Type) where
  nanos : ℤ
  state : State
  waker : Option W
  index : Bool
  owner : Owner W
  popped : Bool
  now : ℤ

inductive Step (W : Type)
  | poll (waker : W)
  | reset (nanos : ℤ)
  | next
  | tick (now : ℤ)
  | pop (now : ℤ)
  | take

inductive Event (W : Type)
  | ready
  | pending (waker : W)
  | wake (waker : Option W)

variable {W : Type}

namespace Timer

def newTimer (nanos now : ℤ) : Timer W := ⟨nanos, .unregistered, none, false, .idle, false, now⟩

def isTerminated (self : Timer W) : Bool := self.state = .terminated

/-- `poll`, to the first point where the timer can be in the heap. -/
def poll (self : Timer W) (waker : W) : Timer W × Option (Event W) :=
  match self.state with
  | .terminated => (self, some .ready)
  | .fired => ({ self with state := .terminated }, some .ready)
  | .unregistered =>
    if self.nanos ≤ self.now then ({ self with state := .fired }, some .ready)
    else ({ self with owner := .push waker }, none)
  | .registered => ({ self with owner := .register waker }, none)

def reset (self : Timer W) (nanos : ℤ) : Timer W :=
  if self.state = .registered then { self with owner := .tryResetTimer nanos }
  else { self with nanos := nanos, state := .unregistered }

def next (self : Timer W) : Option (Timer W × Option (Event W)) :=
  match self.owner with
  | .idle => none
  | .push waker =>
    if self.popped then none
    else some ({ self with index := true, state := .registered, owner := .register waker }, none)
  | .register waker => some ({ self with waker := some waker, owner := .load waker }, none)
  | .load waker =>
    match self.state with
    | .fired => some ({ self with state := .terminated, owner := .idle }, some .ready)
    | .registered => some ({ self with owner := .idle }, some (.pending waker))
    -- `unreachable!`
    | _ => none
  | .tryResetTimer nanos =>
    let state := if self.index then .registered else .unregistered
    if self.popped then none
    else some ({ self with nanos := nanos, state := state, owner := .idle }, none)

def step (self : Timer W) : Step W → Option (Timer W × Option (Event W))
  | .poll waker => if self.owner matches .idle then some (self.poll waker) else none
  | .reset nanos => if self.owner matches .idle then some (self.reset nanos, none) else none
  | .next => self.next
  | .tick now => if self.now ≤ now then some ({ self with now := now }, none) else none
  -- `into_waker` marks the timer that `wake_timers` popped, then takes its waker
  | .pop now =>
    if self.index ∧ self.nanos ≤ now ∧ now ≤ self.now then
      some ({ self with index := false, state := .fired, popped := true }, none)
    else none
  | .take =>
    if self.popped then some ({ self with waker := none, popped := false }, some (.wake self.waker))
    else none

end Timer

def deadline (d : ℤ) : Step W → ℤ
  | .reset nanos => nanos
  | _ => d

/-- What an interleaving leads to, with the deadline that was given last. -/
inductive Reachable : ℤ → Timer W → Prop
  | newTimer (nanos now : ℤ) : Reachable nanos (.newTimer nanos now)
  | step {d : ℤ} {t : Timer W} {a : Step W} {r : Timer W × Option (Event W)} :
    Reachable d t → t.step a = some r → Reachable (deadline d a) r.1

def Avoids (bad : Step W → Prop) (t u : Timer W) : Prop := ∃ a e, ¬ bad a ∧ t.step a = some (u, e)

abbrev UntilReset (t u : Timer W) : Prop := ReflTransGen (Avoids (· matches .reset _)) t u

abbrev UntilPoll (t u : Timer W) : Prop := ReflTransGen (Avoids (· matches .poll _)) t u

/-- What a poll promises with its result: the deadline has passed, and until a reset the timer is
not in the heap and every poll is ready; or if the timer fires before the next poll, the waker of
this one is woken. -/
def Promises (d : ℤ) (t : Timer W) : Event W → Prop
  | .ready => d ≤ t.now ∧ ∀ u, UntilReset t u →
      u.index = false ∧ ∀ w, ∃ v, u.step (.poll w) = some (v, some .ready)
  | .pending w => ∀ u r, UntilPoll t u → u.step .take = some r → r.2 = some (.wake (some w))
  | .wake _ => True

variable {t t' u : Timer W} {d : ℤ} {a : Step W} {w : W} {e : Event W}
  {r : Timer W × Option (Event W)}

structure Inv (d : ℤ) (t : Timer W) : Prop where
  index : t.index = true ↔ t.state = .registered
  popped : t.index = true → t.popped = false
  due : t.state = .fired ∨ t.state = .terminated → t.nanos ≤ t.now
  nanos : (∀ n, t.owner ≠ .tryResetTimer n) → t.nanos = d
  reset : ∀ n, t.owner = .tryResetTimer n → n = d
  push : ∀ w, t.owner = .push w → t.state = .unregistered
  load : ∀ w, t.owner = .load w → t.index = true → t.waker = some w

section Step

variable {n : ℤ}

theorem step_poll : t.step (.poll w) = some r ↔ t.owner = .idle ∧ t.poll w = r := by
  cases howner : t.owner <;> simp [Timer.step, howner]

theorem step_reset : t.step (.reset n) = some r ↔ t.owner = .idle ∧ (t.reset n, none) = r := by
  cases howner : t.owner <;> simp [Timer.step, howner]

theorem step_tick : t.step (.tick n) = some r ↔ t.now ≤ n ∧ ({ t with now := n }, none) = r := by
  simp [Timer.step]

theorem step_pop : t.step (.pop n) = some r ↔
    (t.index = true ∧ t.nanos ≤ n ∧ n ≤ t.now) ∧
      ({ t with index := false, state := .fired, popped := true }, none) = r := by
  simp [Timer.step]

theorem step_take : t.step .take = some r ↔
    t.popped = true ∧ ({ t with waker := none, popped := false }, some (.wake t.waker)) = r := by
  simp [Timer.step]

theorem Inv.idle (howner : t.owner = .idle) (hindex : t.index = true ↔ t.state = .registered)
    (hpopped : t.index = true → t.popped = false)
    (hdue : t.state = .fired ∨ t.state = .terminated → t.nanos ≤ t.now) (hnanos : t.nanos = d) :
    Inv d t where
  index := hindex
  popped := hpopped
  due := hdue
  nanos _ := hnanos
  reset n hn := by simp [howner] at hn
  push w hw := by simp [howner] at hw
  load w hw := by simp [howner] at hw

theorem Inv.poll (h : Inv d t) (howner : t.owner = .idle) (w : W) : Inv d (t.poll w).1 := by
  have hnanos : t.nanos = d := h.nanos (by simp [howner])
  unfold Timer.poll
  split
  next => exact h
  next hstate =>
    exact .idle howner (by simp [h.index, hstate]) h.popped (fun _ => h.due (.inl hstate)) hnanos
  next hstate =>
    split
    next hle => exact .idle howner (by simp [h.index, hstate]) h.popped (fun _ => hle) hnanos
    next =>
      exact { h with
        nanos := fun _ => hnanos, reset := nofun, push := fun _ _ => hstate, load := nofun }
  next =>
    exact { h with nanos := fun _ => hnanos, reset := nofun, push := nofun, load := nofun }

theorem Inv.reset_call (h : Inv d t) (howner : t.owner = .idle) (n : ℤ) : Inv n (t.reset n) := by
  unfold Timer.reset
  split
  next =>
    exact { h with
      nanos := fun hne => absurd rfl (hne n)
      reset := fun m hm => (Owner.tryResetTimer.inj hm).symm
      push := nofun, load := nofun }
  next hne => exact .idle howner (by simp [h.index, hne]) h.popped (by simp) rfl

theorem Inv.next (h : Inv d t) (hr : t.next = some r) : Inv d r.1 := by
  unfold Timer.next at hr
  split at hr
  next => cases hr
  next w howner =>
    have hnanos : t.nanos = d := h.nanos (by simp [howner])
    split at hr
    next => cases hr
    next hpopped =>
      cases hr
      exact ⟨by simp, fun _ => Bool.eq_false_iff.mpr hpopped, by simp, fun _ => hnanos,
        nofun, nofun, nofun⟩
  next w howner =>
    have hnanos : t.nanos = d := h.nanos (by simp [howner])
    cases hr
    exact { h with
      nanos := fun _ => hnanos, reset := nofun, push := nofun
      load := fun w' hw' _ => congrArg some (Owner.load.inj hw') }
  next w howner =>
    have hnanos : t.nanos = d := h.nanos (by simp [howner])
    split at hr
    next hstate =>
      cases hr
      exact .idle rfl (by simp [h.index, hstate]) h.popped (fun _ => h.due (.inl hstate)) hnanos
    next =>
      cases hr
      exact .idle rfl h.index h.popped h.due hnanos
    next => cases hr
  next n howner =>
    dsimp only at hr
    split at hr
    next => cases hr
    next =>
      cases hr
      exact .idle rfl (by cases t.index <;> simp) h.popped (by cases t.index <;> simp)
        (h.reset n howner)

/-- A timer that is popped was in the heap, and no push of it was under way. -/
theorem Inv.pop (h : Inv d t) (hindex : t.index = true) (hdue : t.nanos ≤ t.now) :
    Inv d { t with index := false, state := .fired, popped := true } where
  index := by simp
  popped := nofun
  due _ := hdue
  nanos := h.nanos
  reset := h.reset
  push w hw := by
    have hstate := h.index.mp hindex
    rw [h.push w hw] at hstate
    cases hstate
  load := nofun

theorem Inv.step (h : Inv d t) (hr : t.step a = some r) : Inv (deadline d a) r.1 := by
  cases a with
  | poll w =>
    obtain ⟨howner, rfl⟩ := step_poll.mp hr
    exact h.poll howner w
  | reset n =>
    obtain ⟨howner, rfl⟩ := step_reset.mp hr
    exact h.reset_call howner n
  | next => exact h.next hr
  | tick n =>
    obtain ⟨hle, rfl⟩ := step_tick.mp hr
    exact { h with due := fun hstate => Int.le_trans (h.due hstate) hle }
  | pop n =>
    obtain ⟨⟨hindex, hdue, hle⟩, rfl⟩ := step_pop.mp hr
    exact h.pop hindex (Int.le_trans hdue hle)
  | take =>
    obtain ⟨hpopped, rfl⟩ := step_take.mp hr
    exact { h with
      popped := fun _ => rfl
      load := fun w hw hindex => by simp [h.popped hindex] at hpopped }

end Step

theorem Reachable.inv (h : Reachable d t) : Inv d t := by
  induction h with
  | newTimer nanos now => constructor <;> simp [Timer.newTimer]
  | step _ hr ih => exact ih.step hr

section Ready

structure Spent (t : Timer W) : Prop where
  state : t.state = .fired ∨ t.state = .terminated
  index : t.index = false
  owner : t.owner = .idle

theorem Spent.poll (h : Spent t) (w : W) :
    t.poll w = ({ t with state := .terminated }, some .ready) := by
  obtain ⟨hstate, -, -⟩ := h
  obtain ⟨nanos, state, waker, index, owner, popped, now⟩ := t
  rcases hstate with hstate | hstate
  all_goals
    cases hstate
    rfl

theorem Spent.step (h : Spent t) (hstep : Avoids (· matches .reset _) t u) :
    Spent u ∧ (t.state = .terminated → u.state = .terminated) := by
  obtain ⟨a, e, ha, hr⟩ := hstep
  cases a with
  | reset n => exact absurd rfl ha
  | poll w =>
    obtain ⟨-, hpoll⟩ := step_poll.mp hr
    cases (h.poll w).symm.trans hpoll
    exact ⟨⟨.inr rfl, h.index, h.owner⟩, fun _ => rfl⟩
  | next => simp [Timer.step, Timer.next, h.owner] at hr
  | tick n =>
    cases (step_tick.mp hr).2
    exact ⟨⟨h.state, h.index, h.owner⟩, id⟩
  | pop n =>
    obtain ⟨⟨hindex, -⟩, -⟩ := step_pop.mp hr
    rw [h.index] at hindex
    cases hindex
  | take =>
    cases (step_take.mp hr).2
    exact ⟨⟨h.state, h.index, h.owner⟩, id⟩

theorem Spent.run (h : Spent t) (hrun : UntilReset t u) :
    Spent u ∧ (t.state = .terminated → u.state = .terminated) := by
  induction hrun with
  | refl => exact ⟨h, id⟩
  | tail _ hstep ih =>
    obtain ⟨hspent, hterm⟩ := ih.1.step hstep
    exact ⟨hspent, hterm ∘ ih.2⟩

theorem Spent.promises (h : Spent t) (hdue : d ≤ t.now) : Promises d t .ready := by
  refine ⟨hdue, fun u hrun => ?_⟩
  have hu := (h.run hrun).1
  exact ⟨hu.index, fun w => ⟨_, step_poll.mpr ⟨hu.owner, hu.poll w⟩⟩⟩

/-- A timer stays terminated until it is reset, and only then if a poll has made it so. -/
theorem Spent.terminated_iff (h : Spent t) :
    (∀ u, UntilReset t u → u.isTerminated = true) ↔ t.state = .terminated := by
  unfold Timer.isTerminated
  constructor
  · intro hall
    exact of_decide_eq_true (hall t .refl)
  · intro hstate u hrun
    exact decide_eq_true ((h.run hrun).2 hstate)

theorem poll_event (h : t.poll w = (t', some e)) : e = .ready ∧ t'.owner = t.owner ∧
    t'.state = if t.state = .unregistered then .fired else .terminated := by
  unfold Timer.poll at h
  split at h
  next hstate =>
    cases h
    simp [hstate]
  next hstate =>
    cases h
    simp [hstate]
  next hstate =>
    split at h
    all_goals cases h
    simp [hstate]
  next => cases h

theorem next_event (h : t.next = some (t', some e)) : ∃ w, t.owner = .load w ∧
    (t.state = .fired ∧ e = .ready ∧ t' = { t with state := .terminated, owner := .idle } ∨
      t.state = .registered ∧ e = .pending w ∧ t' = { t with owner := .idle }) := by
  unfold Timer.next at h
  split at h
  next => cases h
  next => split at h <;> cases h
  next => cases h
  next w howner =>
    refine ⟨w, howner, ?_⟩
    split at h
    next hstate =>
      cases h
      exact .inl ⟨hstate, rfl, rfl⟩
    next hstate =>
      cases h
      exact .inr ⟨hstate, rfl, rfl⟩
    next => cases h
  next =>
    dsimp only at h
    split at h <;> cases h

/-- A timer whose deadline has passed before it was ever in the heap is left `FIRED`. -/
theorem step_ready (h : t.step a = some (t', some .ready)) : deadline d a = d ∧ t'.owner = .idle ∧
    t'.state = if t.state = .unregistered then .fired else .terminated := by
  cases a with
  | poll w =>
    obtain ⟨howner, hpoll⟩ := step_poll.mp h
    obtain ⟨-, howner', hstate⟩ := poll_event hpoll
    exact ⟨rfl, howner'.trans howner, hstate⟩
  | next =>
    obtain ⟨w, -, ⟨hstate, -, rfl⟩ | ⟨-, he, -⟩⟩ := next_event h
    · simp [deadline, hstate]
    · cases he
  | reset n => cases (step_reset.mp h).2
  | tick n => cases (step_tick.mp h).2
  | pop n => cases (step_pop.mp h).2
  | take => cases (step_take.mp h).2

theorem Inv.spent (h : Inv d t') (howner : t'.owner = .idle)
    (hstate : t'.state = .fired ∨ t'.state = .terminated) : Spent t' ∧ d ≤ t'.now := by
  refine ⟨⟨hstate, ?_, howner⟩, ?_⟩
  · rw [← Bool.not_eq_true, h.index]
    rcases hstate with hstate | hstate <;> simp [hstate]
  · rw [← h.nanos (by simp [howner])]
    exact h.due hstate

end Ready

section Pending

structure Wakes (w : W) (t : Timer W) : Prop where
  owner : t.owner = .idle ∨ ∃ n, t.owner = .tryResetTimer n
  popped : t.index = true → t.popped = false
  waker : t.index = true ∨ t.popped = true → t.waker = some w

theorem Wakes.step (h : Wakes w t) (hstep : Avoids (· matches .poll _) t u) : Wakes w u := by
  obtain ⟨a, e, ha, hr⟩ := hstep
  cases a with
  | poll w => exact absurd rfl ha
  | reset n =>
    obtain ⟨howner, hreset⟩ := step_reset.mp hr
    cases hreset
    unfold Timer.reset
    split
    · exact ⟨.inr ⟨n, rfl⟩, h.popped, h.waker⟩
    · exact ⟨.inl howner, h.popped, h.waker⟩
  | next =>
    rcases h.owner with howner | ⟨n, howner⟩
    · simp [Timer.step, Timer.next, howner] at hr
    · simp only [Timer.step, Timer.next, howner] at hr
      split at hr
      all_goals cases hr
      exact ⟨.inl rfl, h.popped, h.waker⟩
  | tick n =>
    cases (step_tick.mp hr).2
    exact ⟨h.owner, h.popped, h.waker⟩
  | pop n =>
    obtain ⟨⟨hindex, -⟩, hpop⟩ := step_pop.mp hr
    cases hpop
    exact ⟨h.owner, nofun, fun _ => h.waker (.inl hindex)⟩
  | take =>
    obtain ⟨hpopped, htake⟩ := step_take.mp hr
    cases htake
    refine ⟨h.owner, fun _ => rfl, ?_⟩
    rintro (hindex | hfalse)
    · rw [h.popped hindex] at hpopped
      cases hpopped
    · cases hfalse

theorem Wakes.run (h : Wakes w t) (hrun : UntilPoll t u) : Wakes w u := by
  induction hrun with
  | refl => exact h
  | tail _ hstep ih => exact ih.step hstep

theorem Wakes.promises (h : Wakes w t) : Promises d t (.pending w) := by
  intro u r hrun htake
  obtain ⟨hpopped, rfl⟩ := step_take.mp htake
  simp [(h.run hrun).waker (.inr hpopped)]

theorem step_pending (h : t.step a = some (t', some (.pending w))) :
    t.owner = .load w ∧ t.state = .registered ∧ t' = { t with owner := .idle } := by
  cases a with
  | poll w => cases (poll_event (step_poll.mp h).2).1
  | next =>
    obtain ⟨w, howner, ⟨-, he, -⟩ | ⟨hstate, he, rfl⟩⟩ := next_event h
    all_goals cases he
    exact ⟨howner, hstate, rfl⟩
  | reset n => cases (step_reset.mp h).2
  | tick n => cases (step_tick.mp h).2
  | pop n => cases (step_pop.mp h).2
  | take => cases (step_take.mp h).2

end Pending

/-- A poll keeps what it promises.  After it was ready the timer is terminated until it is reset,
unless the poll has found the deadline passed before the timer was ever in the heap. -/
theorem poll_promises (h : Reachable d t) (hstep : t.step a = some (t', some e)) :
    Promises d t' e ∧ (e = .ready →
      ((∀ u, UntilReset t' u → u.isTerminated = true) ↔ t.state ≠ .unregistered)) := by
  cases e with
  | ready =>
    obtain ⟨ha, howner, hstate⟩ := step_ready hstep
    have hinv := h.inv.step hstep
    rw [ha] at hinv
    have hfired : t'.state = .fired ∨ t'.state = .terminated := by
      rw [hstate]
      split <;> simp
    obtain ⟨hspent, hdue⟩ := hinv.spent howner hfired
    refine ⟨hspent.promises hdue, fun _ => ?_⟩
    rw [hspent.terminated_iff, hstate]
    split <;> simp [*]
  | pending w =>
    obtain ⟨howner, hstate, rfl⟩ := step_pending hstep
    have hwaker := h.inv.load w howner (h.inv.index.mpr hstate)
    exact ⟨Wakes.promises ⟨.inl rfl, h.inv.popped, fun _ => hwaker⟩, nofun⟩
  | wake w => exact ⟨trivial, nofun⟩

/-- A poll has put the timer in the heap, and it has fired since. -/
def firedInHeap : Timer Unit := ⟨1, .fired, some (), false, .idle, true, 2⟩

theorem poll_promises_firedInHeap : ∃ t, firedInHeap.step (.poll ()) = some (t, some .ready) ∧
    Promises 1 t .ready ∧ ∀ u, UntilReset t u → u.isTerminated = true := by
  have h : Reachable 1 firedInHeap :=
    .step (a := .pop 1) (.step (a := .tick 2) (.step (a := .next) (.step (a := .next)
      (.step (a := .next) (.step (a := .poll ()) (.newTimer 1 0) rfl) rfl) rfl) rfl) rfl) rfl
  obtain ⟨hready, hterm⟩ := poll_promises h (a := .poll ()) rfl
  exact ⟨_, rfl, hready, (hterm rfl).mpr nofun⟩

/-- A timer whose deadline has passed when it is made is ready, but not terminated. -/
theorem ready_not_terminated : ∃ t : Timer Unit,
    (Timer.newTimer 0 0).step (.poll ()) = some (t, some .ready) ∧ t.isTerminated = false :=
  ⟨_, rfl, rfl⟩

end Smos.Async.Timers
