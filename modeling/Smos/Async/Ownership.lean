import Smos.Async.AtomicFuture

/-!
Who may touch the inner future of an `AtomicFuture`, and when.

At any time the future is in one phase: free, held by the one thread that gained access, finished,
read by the one thread that takes the result, consumed or destroyed.  Each operation of a thread
either leaves the phase alone or moves it on.
-/
namespace Smos.Async

open List

variable {R : Type}

inductive Phase (R : Type)
  | free
  | held (t : ℕ) (pc : Pc R)
  | finished (result : R)
  | reading (t : ℕ) (result : R)
  | consumed (result : R)
  | destroyed

def Pc.Holds : Pc R → Prop
  | .poll late => late = false
  | .polling | .pollDropping _ | .pollReady | .pollPending => True
  | .dropFutureUnchecked r | .dropFuture r | .dropping r => ∀ x, r ≠ .takeResult (some x)
  | _ => False

def Pc.marked : Pc R → Bool
  | .dropFuture _ | .dropping _ => true
  | _ => false

def Pc.Sees : Pc R → Contents R → Prop
  | .pollDropping r, c => c = .completing r
  | .pollReady, c => ∃ r, c = .result r
  | .dropping _, c => c = .dropped
  | _, c => c = .future

/-- The places of the other threads.  Only the result of a completed future is tried to be taken,
and a `try_poll` that began late finds the future cancelled. -/
def Pc.Quiet (cancelled completed : Bool) : Pc R → Prop
  | .tryPoll late | .tryPollBusy late => late = true → cancelled = true
  | .takeResultTake => completed = true
  | .idle | .markReady | .cancel | .cancelAndDetach | .detach | .tryDrop | .takeResultLoad => True
  | _ => False

inductive Part
  | holder
  | reader
  | none

def Pc.part : Pc R → Part
  | .poll _ | .polling | .pollDropping _ | .pollReady | .pollPending | .dropFutureUnchecked _
  | .dropFuture _ | .dropping _ => .holder
  | .takeResultRead => .reader
  | _ => .none

theorem Pc.Holds.part {pc : Pc R} (h : pc.Holds) : pc.part = .holder := by
  cases pc <;> first | rfl | cases h

theorem Pc.Quiet.part {pc : Pc R} {cancelled completed : Bool} (h : pc.Quiet cancelled completed) :
    pc.part = .none := by
  cases pc <;> first | rfl | cases h

/-- A word that says the same about the phase, and of a cancelled task that it is one. -/
structure Bits.Agree (b b' : Bits) : Prop where
  inactive : b'.inactive = b.inactive
  done : b'.done = b.done
  resultTaken : b'.resultTaken = b.resultTaken
  cancelled : b.cancelled = true → b'.cancelled = true

theorem Bits.agree_or {b mask : Bits} (hi : mask.inactive = false) (hd : mask.done = false)
    (hr : mask.resultTaken = true → b.resultTaken = true) : b.Agree (b.or mask) := by
  refine ⟨?_, ?_, ?_, fun hc => ?_⟩
  · simp [Bits.or, hi]
  · simp [Bits.or, hd]
  · simpa [Bits.or] using hr
  · simp [Bits.or, hc]

theorem Bits.agree_clear {b mask : Bits} (hi : b.inactive = false) (hd : mask.done = false)
    (hr : mask.resultTaken = false) (hc : mask.cancelled = false) : b.Agree (b.clear mask) := by
  constructor <;> simp [Bits.clear, hi, hd, hr, hc]

namespace Phase

def Word : Phase R → Bits → Prop
  | .free, b => b.inactive = true ∧ b.done = false ∧ b.resultTaken = false
  | .held _ pc, b => b.inactive = false ∧ b.done = pc.marked ∧ b.resultTaken = pc.marked
  | .finished _, b => b.inactive = false ∧ b.done = true ∧ b.resultTaken = false
  | _, b => b.inactive = false ∧ b.done = true ∧ b.resultTaken = true

def Holds : Phase R → Contents R → Prop
  | .free, c => c = .future
  | .held _ pc, c => pc.Sees c
  | .finished r, c | .reading _ r, c => c = .result r
  | .consumed r, c => c = .consumed r
  | .destroyed, c => c = .dropped

def worker : Phase R → Option (ℕ × Pc R)
  | .held t pc => some (t, pc)
  | .reading t _ => some (t, .takeResultRead)
  | _ => none

def completed : Phase R → Bool
  | .finished _ | .reading _ _ | .consumed _ => true
  | _ => false

structure Describes (ph : Phase R) (s : State R) : Prop where
  word : ph.Word s.bits
  contents : ph.Holds s.contents
  worker : ∀ t pc, ph.worker = some (t, pc) → s.threads[t]? = some pc
  holds : ∀ t pc, ph = .held t pc → pc.Holds
  quiet : ∀ u pc, s.threads[u]? = some pc → (∀ pc', ph.worker ≠ some (u, pc')) →
    pc.Quiet s.bits.cancelled ph.completed

namespace Describes

variable {ph : Phase R} {s : State R} {t : ℕ} {pc : Pc R} (h : ph.Describes s)
include h

/-- A thread has a part in the phase or is one of the others. -/
theorem thread (ht : s.threads[t]? = some pc) :
    ph.worker = some (t, pc) ∨ (∀ pc', ph.worker ≠ some (t, pc')) ∧
      pc.Quiet s.bits.cancelled ph.completed := by
  by_cases hworker : ∃ pc', ph.worker = some (t, pc')
  · obtain ⟨pc', hpc'⟩ := hworker
    have heq := h.worker t pc' hpc'
    rw [ht, Option.some.injEq] at heq
    exact .inl (heq ▸ hpc')
  · have hnone : ∀ pc', ph.worker ≠ some (t, pc') := fun pc' heq => hworker ⟨pc', heq⟩
    exact .inr ⟨hnone, h.quiet t pc ht hnone⟩

theorem free_of_inactive (hi : s.bits.inactive = true) : ph = .free := by
  have hword := h.word
  cases ph with
  | free => rfl
  | _ => simp [Word, hi] at hword

theorem inactive_of_done (hd : s.bits.done = true) :
    s.bits.inactive = false := by
  by_contra hne
  have hfree := h.free_of_inactive (eq_true_of_ne_false hne)
  subst hfree
  have hword := h.word
  rw [Word, hd] at hword
  cases hword.2.1

/-- Only a finished future is marked as done with a result that is not taken. -/
theorem finished_of_bits (hd : s.bits.done = true)
    (hr : s.bits.resultTaken = false) : ∃ r, ph = .finished r := by
  have hword := h.word
  cases ph with
  | finished r => exact ⟨r, rfl⟩
  | held t pc =>
    obtain ⟨-, hdone, htaken⟩ := hword
    rw [hd] at hdone
    rw [hr, ← hdone] at htaken
    cases htaken
  | _ => simp [Word, hd, hr] at hword

/-- The bits that say nothing about the phase may change, if a cancelled task stays cancelled. -/
theorem setBits {b : Bits} (hb : s.bits.Agree b) :
    ph.Describes { s with bits := b } where
  word := by
    have hword := h.word
    cases ph <;> simpa only [Word, hb.inactive, hb.done, hb.resultTaken] using hword
  contents := h.contents
  worker := h.worker
  holds := h.holds
  quiet := by
    intro u pc hu hnone
    have hquiet := h.quiet u pc hu hnone
    have hcancelled := hb.cancelled
    cases pc <;> simp_all [Pc.Quiet]

/-- A thread that has no part in the phase goes to another place where it has none. -/
theorem goto (ht : t < s.threads.length)
    (hnone : ∀ pc', ph.worker ≠ some (t, pc'))
    (hquiet : pc.Quiet s.bits.cancelled ph.completed) : ph.Describes (s.goto t pc) where
  word := h.word
  contents := h.contents
  worker := by
    intro u pc' hworker
    have hne : t ≠ u := by
      rintro rfl
      exact hnone pc' hworker
    rw [State.goto, getElem?_set_ne hne]
    exact h.worker u pc' hworker
  holds := h.holds
  quiet := by
    intro u pc' hu hnone'
    change (s.threads.set t pc)[u]? = some pc' at hu
    rcases eq_or_ne t u with rfl | hne
    · rw [getElem?_set_self ht] at hu
      cases hu
      exact hquiet
    · rw [getElem?_set_ne hne] at hu
      exact h.quiet u pc' hu hnone'

theorem log (e : Event R) : ph.Describes (s.log e) :=
  { h with }

/-- The phase moves on with a thread. -/
theorem move {ph' : Phase R} {s' : State R} (ht : t < s.threads.length)
    (hother : ∀ u pc', u ≠ t → ph.worker ≠ some (u, pc'))
    (hthreads : s'.threads = s.threads.set t pc)
    (hc : s.bits.cancelled = true → s'.bits.cancelled = true)
    (hcompleted : ph.completed = true → ph'.completed = true)
    (hword : ph'.Word s'.bits) (hcontents : ph'.Holds s'.contents)
    (hworker : ph'.worker = some (t, pc) ∨
      ph'.worker = none ∧ pc.Quiet s'.bits.cancelled ph'.completed)
    (hholds : ∀ u pc', ph' = .held u pc' → pc'.Holds) : ph'.Describes s' where
  word := hword
  contents := hcontents
  worker := by
    intro u pc' hu
    rcases hworker with heq | ⟨heq, -⟩
    · rw [heq] at hu
      cases hu
      rw [hthreads, getElem?_set_self ht]
    · rw [heq] at hu
      cases hu
  holds := hholds
  quiet := by
    intro u pc' hu hnone
    rw [hthreads] at hu
    rcases eq_or_ne t u with rfl | hne
    · rw [getElem?_set_self ht] at hu
      cases hu
      rcases hworker with heq | ⟨-, hquiet⟩
      · exact absurd heq (hnone pc)
      · exact hquiet
    · rw [getElem?_set_ne hne] at hu
      have hquiet := h.quiet u pc' hu (fun p => hother u p (Ne.symm hne))
      cases pc' <;> simp_all [Pc.Quiet]

/-- Who has a part in a phase holds the future or reads the result. -/
theorem worker_cases (hworker : ph.worker = some (t, pc)) :
    ph = .held t pc ∧ pc.Holds ∨ ∃ r, ph = .reading t r ∧ pc = .takeResultRead := by
  cases ph with
  | held t' pc' =>
    cases hworker
    exact .inl ⟨rfl, h.holds t pc rfl⟩
  | reading t' r =>
    cases hworker
    exact .inr ⟨r, rfl, rfl⟩
  | _ => cases hworker

/-- A thread at a place where it has no part in the phase. -/
theorem quiet_of (ht : s.threads[t]? = some pc) (hpart : pc.part = .none) :
    (∀ pc', ph.worker ≠ some (t, pc')) ∧ pc.Quiet s.bits.cancelled ph.completed := by
  rcases h.thread ht with hworker | hquiet
  · rcases h.worker_cases hworker with ⟨-, hholds⟩ | ⟨r, -, rfl⟩
    · cases hholds.part.symm.trans hpart
    · cases hpart
  · exact hquiet

theorem held_of (ht : s.threads[t]? = some pc) (hpart : pc.part = .holder) :
    ph = .held t pc ∧ pc.Holds := by
  rcases h.thread ht with hworker | ⟨-, hquiet⟩
  · rcases h.worker_cases hworker with hheld | ⟨r, -, rfl⟩
    · exact hheld
    · cases hpart
  · cases hquiet.part.symm.trans hpart

theorem reading_of (ht : s.threads[t]? = some .takeResultRead) :
    ∃ r, ph = .reading t r := by
  rcases h.thread ht with hworker | ⟨-, hquiet⟩
  · rcases h.worker_cases hworker with ⟨-, hholds⟩ | ⟨r, heq, -⟩
    · cases hholds
    · exact ⟨r, heq⟩
  · cases hquiet

end Describes

end Phase

section History

def drops (h : List (Event R)) : ℕ := h.countP (· matches .dropFuture)

def readies (h : List (Event R)) : List R :=
  h.filterMap fun
    | .ready r => some r
    | _ => none

def consumptions (h : List (Event R)) : List R :=
  h.filterMap fun
    | .returned (.takeResult (some r)) => some r
    | .dropResult r => some r
    | _ => none

/-- The events that neither the inner future nor its result is concerned with. -/
def Event.Silent : Event R → Prop
  | .tryPoll _ => True
  | .returned r => ∀ x, r ≠ .takeResult (some x)
  | _ => False

def Contents.Records : Contents R → List (Event R) → Prop
  | .future, h => drops h = 0 ∧ readies h = [] ∧ consumptions h = []
  | .completing r, h | .result r, h => drops h = 1 ∧ readies h = [r] ∧ consumptions h = []
  | .consumed r, h => drops h = 1 ∧ readies h = [r] ∧ consumptions h = [r]
  | .dropped, h => drops h = 1 ∧ readies h = [] ∧ consumptions h = []

/-- Each poll was made by a `try_poll` that began before the task was cancelled, of a future that
had neither been dropped nor been ready. -/
def PollsOk : List (Event R) → Prop
  | [] => True
  | .poll late :: h => (late = false ∧ drops h = 0 ∧ readies h = []) ∧ PollsOk h
  | _ :: h => PollsOk h

structure Logged (s : State R) : Prop where
  contents : s.contents.Records s.history
  polls : PollsOk s.history
  reads : Event.invalidRead ∉ s.history

variable {s : State R}

theorem drops_dropFuture (h : List (Event R)) : drops (.dropFuture :: h) = drops h + 1 :=
  countP_cons_of_pos rfl

theorem Event.Silent.records {e : Event R} (he : e.Silent) (h : List (Event R)) :
    drops (e :: h) = drops h ∧ readies (e :: h) = readies h ∧
      consumptions (e :: h) = consumptions h := by
  cases e with
  | tryPoll late => exact ⟨rfl, rfl, rfl⟩
  | returned r =>
    refine ⟨rfl, rfl, ?_⟩
    cases r with
    | takeResult x =>
      cases x with
      | none => rfl
      | some x => exact absurd rfl (he x)
    | _ => rfl
  | _ => cases he

/-- The log goes on with an event that says nothing. -/
theorem Logged.silent {s' : State R} (h : Logged s) {e : Event R} (he : e.Silent)
    (hc : s'.contents = s.contents) (hh : s'.history = e :: s.history) : Logged s' := by
  obtain ⟨hdrops, hreadies, hconsumptions⟩ := he.records s.history
  refine ⟨?_, ?_, ?_⟩
  · have hcontents := h.contents
    rw [hc, hh]
    cases hc : s.contents <;>
      simpa only [hc, Contents.Records, hdrops, hreadies, hconsumptions] using hcontents
  · rw [hh]
    cases e with
    | tryPoll late => exact h.polls
    | returned r => exact h.polls
    | _ => cases he
  · rw [hh]
    intro hmem
    rcases List.mem_cons.mp hmem with rfl | hmem
    · cases he
    · exact h.reads hmem

end History

end Smos.Async
