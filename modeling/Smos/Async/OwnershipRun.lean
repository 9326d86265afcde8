import Smos.Async.Ownership

/-!
Every step of every thread keeps the phases of an `AtomicFuture`, and what follows for whole runs.
-/
namespace Smos.Async

open List Bits

variable {R : Type} {c : Contents R}

def Sound (s : State R) : Prop :=
  s.closed = false ∧ Logged s ∧ ∃ ph : Phase R, ph.Describes s

section Steps

open Phase

variable {s s' : State R} {t : ℕ} {ph : Phase R} {pc pc' : Pc R} {b : Bits} {late : Bool}
  {m : Move R} {r : Ret R}

@[simp] theorem bits_goto (pc : Pc R) : (s.goto t pc).bits = s.bits := rfl

@[simp] theorem bits_ret (r : Ret R) : (s.ret t r).bits = s.bits := rfl

@[simp] theorem bits_fetchOr (mask : Bits) : (s.fetchOr mask).bits = s.bits.or mask := rfl

theorem lt_of_getElem? (ht : s.threads[t]? = some pc) : t < s.threads.length :=
  (List.getElem?_eq_some_iff.mp ht).1

/-- The history and the union go on together. -/
theorem Logged.cons {e : Event R} (h : Logged s) (hc : s'.contents = c)
    (hh : s'.history = e :: s.history) (hrecords : c.Records (e :: s.history))
    (hpolls : PollsOk (e :: s.history)) (he : Event.invalidRead ≠ e) : Logged s' :=
  ⟨hc ▸ hh ▸ hrecords, hh ▸ hpolls, hh ▸ not_mem_cons_of_ne_of_not_mem he h.reads⟩

theorem Logged.congr (h : Logged s) (hc : s'.contents = s.contents)
    (hh : s'.history = s.history) : Logged s' :=
  ⟨hc ▸ hh ▸ h.contents, hh ▸ h.polls, hh ▸ h.reads⟩

theorem Logged.ret (h : Logged s) (hret : ∀ x, r ≠ .takeResult (some x))
    (hc : s'.contents = s.contents) (hh : s'.history = .returned r :: s.history) : Logged s' :=
  h.silent (e := .returned r) hret hc hh

theorem Logged.records (h : Logged s) (hc : s.contents = c) :
    c.Records s.history :=
  hc ▸ h.contents

structure Outsider (s : State R) (t : ℕ) (pc : Pc R) (ph : Phase R) : Prop where
  closed : s.closed = false
  logged : Logged s
  describes : ph.Describes s
  lt : t < s.threads.length
  part : ∀ pc', ph.worker ≠ some (t, pc')
  quiet : pc.Quiet s.bits.cancelled ph.completed

theorem Sound.outsider (h : Sound s) (ht : s.threads[t]? = some pc) (hpart : pc.part = .none) :
    ∃ ph, Outsider s t pc ph := by
  obtain ⟨hclosed, hlogged, ph, hph⟩ := h
  obtain ⟨hnone, hquiet⟩ := hph.quiet_of ht hpart
  exact ⟨ph, hclosed, hlogged, hph, lt_of_getElem? ht, hnone, hquiet⟩

namespace Outsider

/-- It changes bits that say nothing about the phase and returns. -/
theorem ret (h : Outsider s t pc ph) (hb : s.bits.Agree b)
    (hret : ∀ x, r ≠ .takeResult (some x)) : Sound ({ s with bits := b }.ret t r) := by
  refine ⟨h.closed, h.logged.ret hret rfl rfl, ph, ?_⟩
  have hbits : ph.Describes { s with bits := b } := h.describes.setBits hb
  have hidle : ph.Describes ({ s with bits := b }.goto t .idle) := hbits.goto h.lt h.part trivial
  exact hidle.log _

/-- The same, going to another place. -/
theorem goto (h : Outsider s t pc ph) (hb : s.bits.Agree b)
    (hquiet : pc'.Quiet b.cancelled ph.completed) : Sound ({ s with bits := b }.goto t pc') := by
  refine ⟨h.closed, h.logged.congr rfl rfl, ph, ?_⟩
  have hbits : ph.Describes { s with bits := b } := h.describes.setBits hb
  exact hbits.goto h.lt h.part hquiet

/-- A free future is held by the thread that clears its bit. -/
theorem acquire (h : Outsider s t pc .free) {mask : Bits}
    (hi : mask.inactive = true) (hc : mask.cancelled = false) (hpc : pc'.Holds)
    (hmarked : pc'.marked = false) (hsees : pc'.Sees .future) :
    Sound ({ s with bits := s.bits.clear mask }.goto t pc') := by
  obtain ⟨-, hdone, htaken⟩ := h.describes.word
  refine ⟨h.closed, h.logged.congr rfl rfl, .held t pc', ?_⟩
  refine h.describes.move h.lt (fun u pc' _ => by simp [worker]) rfl (fun hcancelled => ?_)
    (by simp [completed]) ⟨?_, ?_, ?_⟩ ?_ (.inl rfl) ?_
  · simp [Bits.clear, hc, hcancelled]
  · simp [Bits.clear, hi]
  · simp [Bits.clear, hdone, hmarked]
  · simp [Bits.clear, htaken, hmarked]
  · rw [show s.contents = .future from h.describes.contents]
    exact hsees
  · rintro u p heq
    cases heq
    exact hpc

end Outsider

theorem Sound.tryPoll (h : Sound s) (ht : s.threads[t]? = some (.tryPoll late))
    (hn : s.next t (.tryPoll late) = some s') : Sound s' := by
  obtain ⟨ph, ho⟩ := h.outsider ht rfl
  simp only [State.next] at hn
  split at hn
  case isTrue hdone =>
    cases hn
    have hinactive := ho.describes.inactive_of_done hdone
    exact ho.ret (agree_clear hinactive rfl rfl rfl) nofun
  case isFalse hdone =>
    split at hn
    case isTrue hinactive =>
      have hfree := ho.describes.free_of_inactive hinactive
      subst hfree
      split at hn
      case isTrue hcancelled =>
        cases hn
        exact ho.acquire rfl rfl nofun rfl rfl
      case isFalse hcancelled =>
        cases hn
        have hlate : late = false := by
          by_contra hne
          exact hcancelled (ho.quiet (eq_true_of_ne_false hne))
        exact ho.acquire rfl rfl hlate rfl rfl
    case isFalse hinactive =>
      cases hn
      exact ho.goto (agree_clear (eq_false_of_ne_true hinactive) rfl rfl rfl)
        (fun hlate => by simpa [Bits.clear] using ho.quiet hlate)

theorem Sound.tryPollBusy (h : Sound s)
    (ht : s.threads[t]? = some (.tryPollBusy late))
    (hn : s.next t (.tryPollBusy late) = some s') : Sound s' := by
  obtain ⟨ph, ho⟩ := h.outsider ht rfl
  simp only [State.next] at hn
  split at hn
  case isTrue =>
    cases hn
    exact ho.ret (agree_or rfl rfl (by simp)) nofun
  case isFalse =>
    cases hn
    exact ho.goto (agree_or rfl rfl (by simp))
      (fun hlate => by simpa [Bits.or] using ho.quiet hlate)

theorem Sound.tryDrop (h : Sound s) (ht : s.threads[t]? = some .tryDrop)
    (hn : s.next t .tryDrop = some s') : Sound s' := by
  obtain ⟨ph, ho⟩ := h.outsider ht rfl
  simp only [State.next] at hn
  split at hn
  case isTrue hdone =>
    cases hn
    have hinactive := ho.describes.inactive_of_done hdone
    exact ho.ret (agree_clear hinactive rfl rfl rfl) nofun
  case isFalse hdone =>
    split at hn
    case isTrue hinactive =>
      cases hn
      have hfree := ho.describes.free_of_inactive hinactive
      subst hfree
      exact ho.acquire rfl rfl nofun rfl rfl
    case isFalse hinactive =>
      cases hn
      exact ho.ret (agree_clear (eq_false_of_ne_true hinactive) rfl rfl rfl)
        nofun

structure Holder (s : State R) (t : ℕ) (pc : Pc R) : Prop where
  closed : s.closed = false
  logged : Logged s
  describes : (Phase.held t pc).Describes s
  lt : t < s.threads.length
  holds : pc.Holds

theorem Sound.holder (h : Sound s) (ht : s.threads[t]? = some pc) (hpart : pc.part = .holder) :
    Holder s t pc := by
  obtain ⟨hclosed, hlogged, ph, hph⟩ := h
  obtain ⟨rfl, hholds⟩ := hph.held_of ht hpart
  exact ⟨hclosed, hlogged, hph, lt_of_getElem? ht, hholds⟩

/-- It goes on to another place where it holds the future. -/
theorem Holder.advance (h : Holder s t pc) (hclosed : s'.closed = s.closed)
    (hlogged : Logged s') (hthreads : s'.threads = s.threads.set t pc')
    (hbits : s'.bits.inactive = false ∧ s'.bits.done = pc'.marked ∧
      s'.bits.resultTaken = pc'.marked)
    (hc : s.bits.cancelled = true → s'.bits.cancelled = true) (hsees : pc'.Sees s'.contents)
    (hholds : pc'.Holds) : Sound s' := by
  refine ⟨hclosed.trans h.closed, hlogged, .held t pc', ?_⟩
  refine h.describes.move h.lt (fun u p hne heq => ?_) hthreads hc (fun hcompleted => ?_) hbits
    hsees (.inl rfl) ?_
  · cases heq
    exact hne rfl
  · cases hcompleted
  · rintro u p heq
    cases heq
    exact hholds

/-- It lets the future go and returns. -/
theorem Holder.release (h : Holder s t pc) (ph' : Phase R)
    (hret : ∀ x, r ≠ .takeResult (some x)) (hc : s.bits.cancelled = true → b.cancelled = true)
    (hword : ph'.Word b) (hcontents : ph'.Holds s.contents) (hworker : ph'.worker = none) :
    Sound ({ s with bits := b }.ret t r) := by
  refine ⟨h.closed, h.logged.ret hret rfl rfl, ph', ?_⟩
  refine h.describes.move h.lt (fun u p hne heq => ?_) rfl hc (fun hcompleted => ?_) hword hcontents
    (.inr ⟨hworker, trivial⟩) ?_
  · cases heq
    exact hne rfl
  · cases hcompleted
  · rintro u p rfl
    cases hworker

section

variable (h : Sound s)
include h

theorem Sound.poll (ht : s.threads[t]? = some (.poll late))
    (hn : s.next t (.poll late) = some s') : Sound s' := by
  have hh := h.holder ht rfl
  have hcontents : s.contents = .future := hh.describes.contents
  have hrecords := hh.logged.records hcontents
  cases hn
  refine hh.advance rfl ?_ rfl hh.describes.word (fun hc => hc) hcontents trivial
  exact hh.logged.cons hcontents rfl hrecords
    ⟨⟨hh.holds, hrecords.1, hrecords.2.1⟩, hh.logged.polls⟩ nofun

theorem Sound.pollReady (ht : s.threads[t]? = some .pollReady)
    (hn : s.next t .pollReady = some s') : Sound s' := by
  have hh := h.holder ht rfl
  obtain ⟨r, hcontents⟩ : ∃ r, s.contents = .result r := hh.describes.contents
  obtain ⟨hinactive, hdone, htaken⟩ := hh.describes.word
  cases hn
  refine hh.release (.finished r) nofun (fun hc => ?_) ⟨?_, ?_, ?_⟩
    hcontents rfl
  · simp [Bits.or, hc]
  · simp [Bits.or, hinactive]
  · simp [Bits.or]
  · simp [Bits.or, htaken, Pc.marked]

theorem Sound.pollPending (ht : s.threads[t]? = some .pollPending)
    (hn : s.next t .pollPending = some s') : Sound s' := by
  have hh := h.holder ht rfl
  obtain ⟨hinactive, hdone, htaken⟩ := hh.describes.word
  cases hn
  refine hh.release .free nofun (fun hc => ?_) ⟨?_, ?_, ?_⟩
    hh.describes.contents rfl
  · simp [Bits.or, hc]
  · simp [Bits.or]
  · simp [Bits.or, hdone, Pc.marked]
  · simp [Bits.or, htaken, Pc.marked]

/-- The assertion of `drop_future_unchecked` holds. -/
theorem Sound.dropFutureUnchecked
    (ht : s.threads[t]? = some (.dropFutureUnchecked r))
    (hn : s.next t (.dropFutureUnchecked r) = some s') : Sound s' := by
  have hh := h.holder ht rfl
  obtain ⟨hinactive, hdone, htaken⟩ := hh.describes.word
  simp only [State.next] at hn
  rw [hdone] at hn
  cases hn
  refine hh.advance rfl (hh.logged.congr rfl rfl) rfl ⟨?_, ?_, ?_⟩ (fun hc => ?_)
    hh.describes.contents hh.holds
  · simp [Bits.or, hinactive]
  · simp [Bits.or, Pc.marked]
  · simp [Bits.or, Pc.marked]
  · simp [Bits.or, hc]

theorem Sound.dropFuture (ht : s.threads[t]? = some (.dropFuture r))
    (hn : s.next t (.dropFuture r) = some s') : Sound s' := by
  have hh := h.holder ht rfl
  have hrecords := hh.logged.records hh.describes.contents
  cases hn
  refine hh.advance rfl ?_ rfl hh.describes.word (fun hc => hc) rfl hh.holds
  refine hh.logged.cons rfl rfl ⟨?_, hrecords.2⟩ hh.logged.polls nofun
  rw [drops_dropFuture, hrecords.1]

theorem Sound.takeResultLoad (ht : s.threads[t]? = some .takeResultLoad)
    (hn : s.next t .takeResultLoad = some s') : Sound s' := by
  obtain ⟨ph, ho⟩ := h.outsider ht rfl
  simp only [State.next] at hn
  split at hn
  case isTrue hbits =>
    cases hn
    obtain ⟨r, rfl⟩ := ho.describes.finished_of_bits hbits.1 hbits.2
    exact ho.goto ⟨rfl, rfl, rfl, id⟩ rfl
  case isFalse =>
    cases hn
    exact ho.ret ⟨rfl, rfl, rfl, id⟩ nofun

theorem Sound.takeResultTake (ht : s.threads[t]? = some .takeResultTake)
    (hn : s.next t .takeResultTake = some s') : Sound s' := by
  obtain ⟨ph, ho⟩ := h.outsider ht rfl
  simp only [State.next] at hn
  split at hn
  case isTrue htaken =>
    cases hn
    exact ho.ret (agree_or rfl rfl fun _ => htaken) nofun
  case isFalse htaken =>
    cases hn
    -- of the phases with a result, only the first has not been claimed
    have hfinished : ∃ r, ph = .finished r := by
      have hword := ho.describes.word
      cases ph with
      | finished r => exact ⟨r, rfl⟩
      | reading u r => exact absurd hword.2.2 htaken
      | consumed r => exact absurd hword.2.2 htaken
      | _ => cases ho.quiet
    obtain ⟨r, rfl⟩ := hfinished
    obtain ⟨hinactive, hdone, -⟩ := ho.describes.word
    refine ⟨ho.closed, ho.logged.congr rfl rfl, .reading t r, ?_⟩
    refine ho.describes.move ho.lt nofun rfl (fun hc => ?_)
      (fun _ => rfl) ⟨?_, ?_, ?_⟩ ho.describes.contents (.inl rfl) nofun
    · simp [Bits.or, hc]
    · simp [Bits.or, hinactive]
    · simp [Bits.or, hdone]
    · simp [Bits.or]

theorem Sound.takeResultRead (ht : s.threads[t]? = some .takeResultRead)
    (hn : s.next t .takeResultRead = some s') : Sound s' := by
  obtain ⟨hclosed, hlogged, ph, hph⟩ := h
  obtain ⟨r, rfl⟩ := hph.reading_of ht
  have hcontents : s.contents = .result r := hph.contents
  have hrecords := hlogged.records hcontents
  simp only [State.next, hcontents] at hn
  cases hn
  refine ⟨hclosed, ?_, .consumed r, ?_⟩
  · refine hlogged.cons rfl rfl ⟨hrecords.1, hrecords.2.1, ?_⟩ hlogged.polls
      nofun
    exact congrArg (r :: ·) hrecords.2.2
  · refine hph.move (lt_of_getElem? ht) (fun u pc' hne heq => ?_) rfl (fun hc => hc) (fun _ => rfl)
      hph.word rfl (.inr ⟨rfl, trivial⟩) nofun
    cases heq
    exact hne rfl

theorem Sound.next (ht : s.threads[t]? = some pc)
    (hn : s.next t pc = some s') : Sound s' := by
  cases pc with
  | tryPoll late => exact h.tryPoll ht hn
  | tryPollBusy late => exact h.tryPollBusy ht hn
  | poll late => exact h.poll ht hn
  | pollReady => exact h.pollReady ht hn
  | pollPending => exact h.pollPending ht hn
  | dropFutureUnchecked r => exact h.dropFutureUnchecked ht hn
  | dropFuture r => exact h.dropFuture ht hn
  | tryDrop => exact h.tryDrop ht hn
  | takeResultLoad => exact h.takeResultLoad ht hn
  | takeResultTake => exact h.takeResultTake ht hn
  | takeResultRead => exact h.takeResultRead ht hn
  | markReady | cancel | cancelAndDetach | detach =>
    -- these calls only set bits
    cases hn
    obtain ⟨ph, ho⟩ := h.outsider ht rfl
    exact ho.ret (agree_or rfl rfl nofun) nofun
  | _ => cases hn

theorem Sound.enter (ht : s.threads[t]? = some .idle) (c : Call) :
    Sound (s.enter t c) := by
  obtain ⟨ph, ho⟩ := h.outsider ht rfl
  cases c with
  | tryPoll =>
    refine ⟨ho.closed, ho.logged.silent (e := .tryPoll s.bits.cancelled) trivial rfl rfl, ph, ?_⟩
    have hgoto : ph.Describes (s.goto t (.tryPoll s.bits.cancelled)) :=
      ho.describes.goto ho.lt ho.part (fun hlate => hlate)
    exact hgoto.log _
  | _ => exact ho.goto ⟨rfl, rfl, rfl, id⟩ trivial

/-- A poll of the inner future is pending. -/
theorem Sound.pollReturns_none (ht : s.threads[t]? = some .polling) :
    Sound (s.goto t .pollPending) := by
  have hh := h.holder ht rfl
  exact hh.advance rfl (hh.logged.congr rfl rfl) rfl hh.describes.word (fun hc => hc)
    hh.describes.contents trivial

/-- A poll of the inner future is ready. -/
theorem Sound.pollReturns_some (ht : s.threads[t]? = some .polling) (r : R) :
    Sound (({ s with contents := .completing r }.goto t (.pollDropping r)).log
      (.ready r) |>.log .dropFuture) := by
  have hh := h.holder ht rfl
  have hrecords := hh.logged.records hh.describes.contents
  refine hh.advance rfl ⟨⟨?_, ?_, ?_⟩, hh.logged.polls, ?_⟩ rfl
    hh.describes.word (fun hc => hc) rfl trivial
  · change drops (.dropFuture :: .ready r :: s.history) = 1
    rw [drops_dropFuture]
    exact congrArg (· + 1) hrecords.1
  · exact congrArg (r :: ·) hrecords.2.1
  · exact hrecords.2.2
  · exact not_mem_cons_of_ne_of_not_mem nofun
      (not_mem_cons_of_ne_of_not_mem nofun hh.logged.reads)

/-- The destructor of an inner future that was ready returns. -/
theorem Sound.destructorReturns_poll {r : R}
    (ht : s.threads[t]? = some (.pollDropping r)) :
    Sound ({ s with contents := .result r }.goto t .pollReady) := by
  have hh := h.holder ht rfl
  have hcontents : s.contents = .completing r := hh.describes.contents
  have hrecords := hh.logged.records hcontents
  exact hh.advance rfl ⟨hrecords, hh.logged.polls, hh.logged.reads⟩ rfl hh.describes.word
    (fun hc => hc) ⟨r, rfl⟩ trivial

/-- The destructor of an inner future that was not polled to the end returns. -/
theorem Sound.destructorReturns
    (ht : s.threads[t]? = some (.dropping r)) : Sound (s.ret t r) := by
  have hh := h.holder ht rfl
  exact hh.release .destroyed hh.holds (fun hc => hc) hh.describes.word
    hh.describes.contents rfl

end

/-- An `AtomicFuture` whose `Drop` has begun: all threads are idle, but for the one that is inside
the destructor of the inner future. -/
def Ended (s : State R) : Prop :=
  s.closed = true ∧ Logged s ∧
    ((∀ pc ∈ s.threads, pc = .idle) ∧ (s.contents = .dropped ∨ ∃ r, s.contents = .consumed r) ∨
      s.contents = .dropped ∧ ∃ t : ℕ, s.threads[t]? = some (.dropping .drop) ∧
        ∀ (u : ℕ) (pc : Pc R), u ≠ t → s.threads[u]? = some pc → pc = .idle)

/-- Without a call in progress there is no thread with a part in the phase. -/
theorem worker_eq_none (hph : ph.Describes s) (hidle : ∀ pc ∈ s.threads, pc = .idle) :
    ph.worker = none := by
  cases hworker : ph.worker with
  | none => rfl
  | some w =>
    obtain ⟨t, pc⟩ := w
    have hmem := mem_of_getElem? (hph.worker t pc hworker)
    have hpc := hidle pc hmem
    subst hpc
    rcases hph.worker_cases hworker with ⟨-, hholds⟩ | ⟨r, -, heq⟩
    · cases hholds
    · cases heq

theorem Sound.drop (h : Sound s) (ht : s.threads[t]? = some .idle)
    (hn : s.drop t = some s') : Ended s' := by
  obtain ⟨hclosed, hlogged, ph, hph⟩ := h
  unfold State.drop at hn
  split at hn
  case isTrue => cases hn
  case isFalse hall =>
    have hidle : ∀ pc ∈ s.threads, pc = .idle := by
      intro pc hmem
      have hpc := all_eq_true.mp (eq_true_of_ne_false hall) pc hmem
      cases pc <;> first | rfl | cases hpc
    have hworker := worker_eq_none hph hidle
    have hword := hph.word
    have hcontents := hph.contents
    have hrecords := hlogged.contents
    cases ph with
    | free =>
      simp only [hword.2.1, if_true] at hn
      cases hn
      rw [show s.contents = .future from hcontents] at hrecords
      refine ⟨rfl, ?_, .inr ⟨rfl, t, ?_, ?_⟩⟩
      · refine hlogged.cons rfl rfl ⟨?_, hrecords.2⟩ hlogged.polls nofun
        rw [drops_dropFuture, hrecords.1]
      · exact getElem?_set_self (lt_of_getElem? ht)
      · intro u pc hne hu
        change (s.threads.set t _)[u]? = some pc at hu
        rw [getElem?_set_ne (Ne.symm hne)] at hu
        exact hidle pc (mem_of_getElem? hu)
    | finished r =>
      have hresult : s.contents = .result r := hcontents
      simp only [hword.2.1, hword.2.2, hresult, if_true] at hn
      cases hn
      rw [hresult] at hrecords
      refine ⟨rfl, ?_, .inl ⟨hidle, .inr ⟨r, rfl⟩⟩⟩
      refine hlogged.cons rfl rfl ⟨hrecords.1, hrecords.2.1, ?_⟩ hlogged.polls
        nofun
      exact congrArg (r :: ·) hrecords.2.2
    | consumed r =>
      simp only [hword.2.1, hword.2.2] at hn
      cases hn
      exact ⟨rfl, hlogged.congr rfl rfl, .inl ⟨hidle, .inr ⟨r, hcontents⟩⟩⟩
    | destroyed =>
      simp only [hword.2.1, hword.2.2] at hn
      cases hn
      exact ⟨rfl, hlogged.congr rfl rfl, .inl ⟨hidle, .inl hcontents⟩⟩
    | held u pc => cases hworker
    | reading u r => cases hworker

inductive Stepped (s : State R) (t : ℕ) : Pc R → State R → Prop
  | enter (c : Call) (hopen : s.closed = false) : Stepped s t .idle (s.enter t c)
  | drop {s' : State R} (hopen : s.closed = false) (hn : s.drop t = some s') : Stepped s t .idle s'
  | next {pc : Pc R} {s' : State R} (hn : s.next t pc = some s') : Stepped s t pc s'
  | pending : Stepped s t .polling (s.goto t .pollPending)
  | ready (r : R) : Stepped s t .polling
      (({ s with contents := .completing r }.goto t (.pollDropping r)).log
        (.ready r) |>.log .dropFuture)
  | completed (r : R) : Stepped s t (.pollDropping r)
      ({ s with contents := .result r }.goto t .pollReady)
  | dropped (r : Ret R) : Stepped s t (.dropping r) (s.ret t r)
  | abort (pc : Pc R) : pc.part = .holder → Stepped s t pc { s with aborted := true }

theorem step_cases (hn : s.step t m = some s') :
    ∃ pc, s.threads[t]? = some pc ∧ Stepped s t pc s' := by
  obtain ⟨pc, ht, hn⟩ := Option.bind_eq_some_iff.mp hn
  refine ⟨pc, ht, ?_⟩
  split at hn
  · cases hn
  split at hn
  case h_3 => exact .next hn
  case h_2 =>
    split_ifs at hn with hclosed
    exact .drop (eq_false_of_ne_true hclosed) hn
  case h_1 =>
    split_ifs at hn with hclosed
    cases hn
    exact .enter _ (eq_false_of_ne_true hclosed)
  all_goals cases hn
  · exact .pending
  · exact .ready _
  · exact .completed _
  · exact .dropped _
  · exact .abort _ rfl
  · exact .abort _ rfl

/-- An idle thread does nothing with an `AtomicFuture` that is being dropped. -/
theorem idle_of_closed (hclosed : s.closed = true) (h : Stepped s t pc s') : pc ≠ .idle := by
  rintro rfl
  cases h with
  | enter c hopen | drop hopen => simp [hclosed] at hopen
  | next hn => cases hn
  | abort _ hpart => cases hpart

/-- After `Drop` has begun, only its destructor is left. -/
theorem Ended.step (h : Ended s) (hn : s.step t m = some s') : Ended s' := by
  obtain ⟨hclosed, hlogged, hthreads⟩ := h
  obtain ⟨pc, ht, hstep⟩ := step_cases hn
  have hbusy := idle_of_closed hclosed hstep
  rcases hthreads with ⟨hidle, -⟩ | ⟨hcontents, u, hu, hidle⟩
  · exact absurd (hidle pc (mem_of_getElem? ht)) hbusy
  obtain rfl : t = u := by
    by_contra hne
    exact hbusy (hidle t pc hne ht)
  rw [ht, Option.some.injEq] at hu
  subst hu
  cases hstep with
  | dropped =>
    refine ⟨hclosed, hlogged.ret (fun x heq => by cases heq) rfl rfl,
      .inl ⟨?_, .inl hcontents⟩⟩
    intro pc hmem
    obtain ⟨v, hv⟩ := mem_iff_getElem?.mp hmem
    change (s.threads.set t .idle)[v]? = some pc at hv
    rcases eq_or_ne t v with rfl | hne
    · rw [getElem?_set_self (lt_of_getElem? ht)] at hv
      cases hv
      rfl
    · rw [getElem?_set_ne hne] at hv
      exact hidle v pc (Ne.symm hne) hv
  | next hn => cases hn
  | abort =>
    exact ⟨hclosed, hlogged.congr rfl rfl, .inr ⟨hcontents, t, ht, hidle⟩⟩

theorem Sound.step (h : Sound s) (hn : s.step t m = some s') :
    Sound s' ∨ Ended s' := by
  obtain ⟨pc, ht, hstep⟩ := step_cases hn
  cases hstep with
  | enter c => exact .inl (h.enter ht c)
  | drop _ hn => exact .inr (h.drop ht hn)
  | next hn => exact .inl (h.next ht hn)
  | pending => exact .inl (h.pollReturns_none ht)
  | ready r => exact .inl (h.pollReturns_some ht r)
  | completed r => exact .inl (h.destructorReturns_poll ht)
  | dropped r => exact .inl (h.destructorReturns ht)
  | abort =>
    obtain ⟨hclosed, hlogged, ph, hph⟩ := h
    exact .inl ⟨hclosed, hlogged.congr rfl rfl, ph, { hph with }⟩

end Steps

section Runs

variable {s : State R}

/-- The states that any number of threads reach from a new `AtomicFuture`, in any interleaving. -/
inductive Reachable : State R → Prop
  | new (detached : Bool) (threads : ℕ) : Reachable (.new detached threads)
  | step {s s' : State R} {t : ℕ} {m : Move R} (h : Reachable s) (hn : s.step t m = some s') :
      Reachable s'

theorem sound_new (detached : Bool) (threads : ℕ) :
    Sound (State.new (R := R) detached threads) := by
  have hidle : ∀ (u : ℕ) (pc : Pc R),
      (replicate threads (Pc.idle (R := R)))[u]? = some pc → pc = .idle := by
    intro u pc hu
    exact eq_of_mem_replicate (mem_of_getElem? hu)
  refine ⟨rfl, ⟨⟨rfl, rfl, rfl⟩, trivial, not_mem_nil⟩, .free, ⟨⟨rfl, rfl, rfl⟩, rfl, ?_, ?_, ?_⟩⟩
  · intro t pc heq
    cases heq
  · intro t pc heq
    cases heq
  · intro u pc hu _
    rw [hidle u pc hu]
    trivial

theorem Reachable.sound_or_ended (h : Reachable s) : Sound s ∨ Ended s := by
  induction h with
  | new detached threads => exact .inl (sound_new detached threads)
  | step _ hn ih =>
    rcases ih with hsound | hended
    · exact hsound.step hn
    · exact .inr (hended.step hn)

theorem Reachable.logged (h : Reachable s) : Logged s := by
  rcases h.sound_or_ended with ⟨-, hlogged, -⟩ | ⟨-, hlogged, -⟩
  · exact hlogged
  · exact hlogged

def Pc.Inside : Pc R → Prop
  | .polling | .pollDropping _ | .dropping _ => True
  | _ => False

/-- A thread inside the inner future holds it. -/
theorem Phase.Describes.held_of_inside {ph : Phase R} {t : ℕ} {pc : Pc R} (h : ph.Describes s)
    (ht : s.threads[t]? = some pc) (hin : pc.Inside) : ph = .held t pc := by
  refine (h.held_of ht ?_).1
  cases pc <;> first | rfl | cases hin

theorem Reachable.exclusive (h : Reachable s) {t u : ℕ} {p q : Pc R} (ht : s.threads[t]? = some p)
    (hp : p.Inside) (hu : s.threads[u]? = some q) (hq : q.Inside) : t = u := by
  rcases h.sound_or_ended with ⟨-, -, ph, hph⟩ | ⟨-, -, ⟨hidle, -⟩ | ⟨-, v, -, hidle⟩⟩
  · have hheld := hph.held_of_inside ht hp
    rw [hph.held_of_inside hu hq] at hheld
    cases hheld
    rfl
  · rw [hidle p (mem_of_getElem? ht)] at hp
    cases hp
  · have heq : ∀ (w : ℕ) (pc : Pc R), s.threads[w]? = some pc → pc.Inside → w = v := by
      intro w pc hw hin
      by_contra hne
      rw [hidle w pc hne hw] at hin
      cases hin
    rw [heq t p ht hp, heq u q hu hq]

/-- What comes before a poll. -/
theorem PollsOk.of_append {later earlier : List (Event R)} {late : Bool}
    (h : PollsOk (later ++ .poll late :: earlier)) :
    late = false ∧ drops earlier = 0 ∧ readies earlier = [] := by
  induction later with
  | nil => exact h.1
  | cons e later ih =>
    apply ih
    cases e with
    | poll late' => exact h.2
    | _ => exact h

structure Owned (s : State R) : Prop where
  exclusive : ∀ (t u : ℕ) (p q : Pc R), s.threads[t]? = some p → p.Inside →
    s.threads[u]? = some q → q.Inside → t = u
  polls : ∀ later late earlier, s.history = later ++ .poll late :: earlier →
    late = false ∧ drops earlier = 0 ∧ readies earlier = []
  drops_le : drops s.history ≤ 1
  readies_le : (readies s.history).length ≤ 1
  consumed : consumptions s.history = [] ∨ consumptions s.history = readies s.history
  reads : Event.invalidRead ∉ s.history
  dropped_of_closed : s.closed = true → (∀ pc ∈ s.threads, pc = .idle) →
    drops s.history = 1 ∧ consumptions s.history = readies s.history

theorem Contents.Records.bounds {h : List (Event R)} (hc : c.Records h) :
    drops h ≤ 1 ∧ (readies h).length ≤ 1 ∧
      (consumptions h = [] ∨ consumptions h = readies h) := by
  cases c <;> obtain ⟨hdrops, hreadies, hconsumptions⟩ := hc <;>
    simp [hdrops, hreadies, hconsumptions]

/-- In every interleaving of any number of threads, whatever the inner future does: at most one
thread is inside it; it is polled only by a `try_poll` that began before the task was cancelled,
and never after it was ready or dropped; it is dropped once; and its result, if there is one,
is consumed once. -/
theorem Reachable.owned (h : Reachable s) : Owned s where
  exclusive := fun _ _ _ _ ht hp hu hq => h.exclusive ht hp hu hq
  polls := by
    intro later late earlier heq
    have hpolls := h.logged.polls
    rw [heq] at hpolls
    exact hpolls.of_append
  drops_le := h.logged.contents.bounds.1
  readies_le := h.logged.contents.bounds.2.1
  consumed := h.logged.contents.bounds.2.2
  reads := h.logged.reads
  dropped_of_closed := by
    intro hclosed hidle
    have hrecords := h.logged.contents
    rcases h.sound_or_ended with ⟨hopen, -⟩ | ⟨-, -, ⟨-, hgone⟩ | ⟨-, t, ht, -⟩⟩
    · rw [hclosed] at hopen
      cases hopen
    · rcases hgone with hcontents | ⟨r, hcontents⟩ <;> rw [hcontents] at hrecords <;>
        obtain ⟨hdrops, hreadies, hconsumptions⟩ := hrecords <;>
        simp [hdrops, hreadies, hconsumptions]
    · cases hidle _ (mem_of_getElem? ht)

theorem Reachable.run (h : Reachable s) {moves : List (ℕ × Move R)} {s' : State R}
    (hrun : s.run moves = some s') : Reachable s' := by
  induction moves generalizing s with
  | nil =>
    cases hrun
    exact h
  | cons move rest ih =>
    obtain ⟨s₁, hstep, hrest⟩ := Option.bind_eq_some_iff.mp hrun
    exact ih (h.step hstep) hrest

/-- One thread polls the future to the end while another one takes the result. -/
theorem Reachable.owned_takeResult :
    ∃ s, (State.new (R := ℕ) false 2).run
        [(0, .call .tryPoll), (0, .next), (0, .next), (0, .pollReturns (some 7)),
          (0, .destructorReturns), (0, .next), (1, .call .takeResult), (1, .next), (1, .next),
          (1, .next), (0, .drop)] = some s ∧
      consumptions s.history = [7] ∧ Owned s := by
  have hrun : ∃ s, (State.new (R := ℕ) false 2).run
        [(0, .call .tryPoll), (0, .next), (0, .next), (0, .pollReturns (some 7)),
          (0, .destructorReturns), (0, .next), (1, .call .takeResult), (1, .next), (1, .next),
          (1, .next), (0, .drop)] = some s ∧ consumptions s.history = [7] := ⟨_, rfl, rfl⟩
  obtain ⟨s, hs, hconsumed⟩ := hrun
  exact ⟨s, hs, hconsumed, Reachable.owned (Reachable.run (.new false 2) hs)⟩

/-- A thread that gained access before the task was cancelled polls the inner future after another
thread's `try_poll` that began, and returned, once it was cancelled. -/
theorem poll_after_late_tryPoll :
    ∃ s earlier, (State.new (R := ℕ) false 2).run
        [(0, .call .tryPoll), (0, .next), (1, .call .cancel), (1, .next), (1, .call .tryPoll),
          (1, .next), (1, .next), (0, .next)] = some s ∧
      s.history = .poll false :: earlier ∧
      earlier = [.returned (.tryPoll .pending), .tryPoll true, .returned (.cancel false),
        .tryPoll false] :=
  ⟨_, _, rfl, rfl, rfl⟩

end Runs
end Smos.Async
