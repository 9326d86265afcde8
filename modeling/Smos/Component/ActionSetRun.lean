import Smos.Component.ActionSet
import Smos.Lib.Bytes
import Mathlib.Order.Nat

/-!
Serialization of actions in every run.

The set has exactly the tasks whose handlers have not finished, and a task that is serialized with
others has every earlier one of them that has not finished among its prerequisites.
-/
namespace Smos.Component.ActionSet

open Option List Function Lib.Bytes

variable {ρ : Type*}

namespace Phase

def InSet : Phase ρ → Prop
  | .registered | .waiting | .running | .returned _ => True
  | _ => False

def Begun : Phase ρ → Prop
  | .registered | .waiting => False
  | _ => True

def result : Phase ρ → Option ρ
  | .returned res | .finished res | .notified res => some res
  | _ => none

def message : Phase ρ → Option ρ
  | .notified res => some res
  | _ => none

theorem begun_of_not_inSet {phase : Phase ρ} (h : ¬ phase.InSet) : phase.Begun := by
  cases phase with
  | registered => exact absurd trivial h
  | waiting => exact absurd trivial h
  | _ => trivial

theorem eq_notified {phase : Phase ρ} {r : ρ} (h : phase.message = some r) :
    phase = .notified r := by
  cases phase with
  | notified res =>
    cases h
    rfl
  | _ => cases h

end Phase

namespace State

variable {s s' : State ρ} {i j p : ℕ} {task t : ActionTask ρ} {key : ActionKey}
  {Q : ActionTask ρ → Prop}

structure Inv (s : State ρ) : Prop where
  rep : ∀ k i, s.wait k = some i ↔
    ∃ t, s.tasks[i]? = some t ∧ t.key = k ∧ t.phase.InSet
  prereqs_lt : ∀ (i : ℕ) (t : ActionTask ρ), s.tasks[i]? = some t → ∀ p ∈ t.prereqs, p < i
  prereqs : ∀ (i j : ℕ) (ti tj : ActionTask ρ), i < j → s.tasks[i]? = some ti →
    s.tasks[j]? = some tj → ti.key.serialized → tj.key.serialized → ti.phase.InSet → i ∈ tj.prereqs
  released : ∀ (j : ℕ) (t : ActionTask ρ), s.tasks[j]? = some t → t.phase.Begun →
    s.PrereqsDone t
  begun : ∀ i k, (i, k) ∈ s.begun ↔ ∃ t, s.tasks[i]? = some t ∧ t.key = k ∧ t.phase.Begun
  order : ((s.begun.filter fun b => b.2.serialized).map Prod.fst).Pairwise (· < ·)
  results : ∀ i r, (i, r) ∈ s.results ↔ ∃ t, s.tasks[i]? = some t ∧ t.phase.result = some r
  sent : ∀ i r, s.sent i = some r ↔ ∃ t, s.tasks[i]? = some t ∧ t.phase.message = some r

/-- A task whose result was sent has left the set. -/
theorem Inv.not_inSet (h : Inv s) (htask : s.tasks[i]? = some t)
    (hsent : (s.sent i).isSome) : ¬ t.phase.InSet := by
  obtain ⟨r, hr⟩ := isSome_iff_exists.mp hsent
  obtain ⟨t', htask', hmessage⟩ := (h.sent i r).mp hr
  rw [htask] at htask'
  cases htask'
  rw [Phase.eq_notified hmessage]
  exact id

/-- Before a serialized handler begins, the earlier ones have left the set. -/
theorem Inv.earlier_not_inSet (h : Inv s) {ti tj : ActionTask ρ} (hlt : i < j)
    (hi : s.tasks[i]? = some ti) (hj : s.tasks[j]? = some tj) (hsi : ti.key.serialized)
    (hsj : tj.key.serialized) (hdone : s.PrereqsDone tj) : ¬ ti.phase.InSet := by
  intro hin
  exact h.not_inSet hi (hdone i (h.prereqs i j ti tj hlt hi hj hsi hsj hin)) hin

theorem Inv.earlier_begun (h : Inv s) {ti tj : ActionTask ρ} (hlt : i < j)
    (hi : s.tasks[i]? = some ti) (hj : s.tasks[j]? = some tj) (hsi : ti.key.serialized)
    (hsj : tj.key.serialized) (hbegun : tj.phase.Begun) : ti.phase.Begun :=
  Phase.begun_of_not_inSet
    (h.earlier_not_inSet hlt hi hj hsi hsj (h.released j tj hj hbegun))

theorem new_inv : Inv (new : State ρ) where
  rep := by simp [new, wait]
  prereqs_lt := by simp [new]
  prereqs := by simp [new]
  released := by simp [new]
  begun := by simp [new]
  order := by simp [new]
  results := by simp [new]
  sent := by simp [new]

section Register

theorem registerNoWait_of_some {rx : ℕ} (abortable : Bool) (h : s.wait key = some rx) :
    s.registerNoWait key abortable = (s, rx) := by
  obtain ⟨controller, hrep, rfl⟩ := map_eq_some_iff.mp h
  simp only [registerNoWait, registerInner, hrep]

def newTask (s : State ρ) (key : ActionKey) : ActionTask ρ where
  key := key
  prereqs := s.getPrereqAction key
  abortHandles := s.getAbortAction key
  phase := .registered

theorem registerNoWait_of_none (abortable : Bool) (h : s.wait key = none) :
    ∃ controller : ActionController, controller.notifier = s.tasks.length ∧
      s.registerNoWait key abortable =
        ({ s with
            rep := update s.rep key (some controller)
            tasks := s.tasks ++ [s.newTask key] }, s.tasks.length) := by
  have hrep : s.rep key = none := map_eq_none_iff.mp h
  refine ⟨{ notifier := s.tasks.length
            maybeAbortHandle := if abortable then some s.tasks.length else none }, rfl, ?_⟩
  simp only [registerNoWait, registerInner, hrep]
  rfl

theorem mem_getPrereqAction_iff (hkey : key.serialized) (hnone : s.wait key = none) :
    p ∈ s.getPrereqAction key ↔ ∃ k, k.serialized ∧ s.wait k = some p := by
  have hall : (∃ k : ActionKey, k.serialized = true ∧ s.wait k = some p) ↔
      s.wait .start = some p ∨ s.wait .stop = some p ∨ s.wait .shutdown = some p := by
    constructor
    · rintro ⟨k, hk, hwait⟩
      cases k with
      | start => exact .inl hwait
      | stop => exact .inr (.inl hwait)
      | shutdown => exact .inr (.inr hwait)
      | _ => cases hk
    · rintro (h | h | h)
      · exact ⟨.start, rfl, h⟩
      · exact ⟨.stop, rfl, h⟩
      · exact ⟨.shutdown, rfl, h⟩
  rw [hall]
  cases key with
  | start => simp [getPrereqAction, hnone, mem_toList]
  | stop | shutdown => simp [getPrereqAction, hnone, mem_toList, or_comm]
  | _ => cases hkey

theorem getPrereqAction_registered (h : p ∈ s.getPrereqAction key) :
    ∃ k, s.wait k = some p := by
  cases key with
  | start | stop | shutdown =>
    simp only [getPrereqAction, mem_append, mem_toList] at h
    rcases h with h | h
    · exact ⟨_, h⟩
    · exact ⟨_, h⟩
  | _ => cases h

/-- A property that the new task does not have. -/
theorem exists_concat (hQ : ¬ Q task) :
    (∃ t, s.tasks[i]? = some t ∧ Q t) ↔ ∃ t, (s.tasks ++ [task])[i]? = some t ∧ Q t := by
  simp only [getElem?_concat]
  constructor
  · rintro ⟨t, ht, hq⟩
    exact ⟨t, .inl ht, hq⟩
  · rintro ⟨t, ht | ⟨-, rfl⟩, hq⟩
    · exact ⟨t, ht, hq⟩
    · exact absurd hq hQ

theorem Inv.register (h : Inv s) (abortable : Bool) :
    Inv (s.registerNoWait key abortable).1 := by
  cases hwait : s.wait key with
  | some rx =>
    rw [registerNoWait_of_some abortable hwait]
    exact h
  | none =>
    obtain ⟨controller, hid, hreg⟩ := registerNoWait_of_none abortable hwait
    rw [hreg]
    have hlt {k : ℕ} {t : ActionTask ρ} (ht : s.tasks[k]? = some t) : k < s.tasks.length :=
      (List.getElem?_eq_some_iff.mp ht).1
    have hbegun : ¬ (s.newTask key).phase.Begun := id
    constructor
    · intro k i
      simp only [getElem?_concat, wait, update_apply]
      split
      case isTrue hk =>
        subst hk
        constructor
        · intro hsome
          cases hsome
          exact ⟨s.newTask k, .inr ⟨hid, rfl⟩, rfl, trivial⟩
        · rintro ⟨t, ht | ⟨rfl, rfl⟩, hkey, hin⟩
          · rw [(h.rep k i).mpr ⟨t, ht, hkey, hin⟩] at hwait
            cases hwait
          · rw [map_some, hid]
      case isFalse hk =>
        change s.wait k = some i ↔ _
        rw [h.rep k i]
        constructor
        · rintro ⟨t, ht, hrest⟩
          exact ⟨t, .inl ht, hrest⟩
        · rintro ⟨t, ht | ⟨-, rfl⟩, hkey, hin⟩
          · exact ⟨t, ht, hkey, hin⟩
          · exact absurd hkey.symm hk
    · intro i t ht p hp
      rcases getElem?_concat.mp ht with ht | ⟨rfl, rfl⟩
      · exact h.prereqs_lt i t ht p hp
      · obtain ⟨k, hk⟩ := getPrereqAction_registered hp
        obtain ⟨t, ht, -⟩ := (h.rep k p).mp hk
        exact hlt ht
    · intro i j ti tj hij hi hj hsi hsj hin
      rcases getElem?_concat.mp hj with hj | ⟨rfl, rfl⟩
      · rcases getElem?_concat.mp hi with hi | ⟨rfl, rfl⟩
        · exact h.prereqs i j ti tj hij hi hj hsi hsj hin
        · exact absurd hij (Nat.lt_asymm (hlt hj))
      · rcases getElem?_concat.mp hi with hi | ⟨rfl, rfl⟩
        · exact (mem_getPrereqAction_iff hsj hwait).mpr
            ⟨ti.key, hsi, (h.rep ti.key i).mpr ⟨ti, hi, rfl, hin⟩⟩
        · exact absurd hij (Nat.lt_irrefl _)
    · intro j t ht
      rcases getElem?_concat.mp ht with ht | ⟨rfl, rfl⟩
      · exact h.released j t ht
      · intro hb
        exact absurd hb hbegun
    · intro i k
      exact (h.begun i k).trans (exists_concat fun hb => hbegun hb.2)
    · exact h.order
    · intro i r
      exact (h.results i r).trans (exists_concat nofun)
    · intro i r
      exact (h.sent i r).trans (exists_concat nofun)

end Register

section Advance

variable {phase : Phase ρ} (htask : s.tasks[i]? = some task)
include htask

theorem getElem?_setPhase :
    (s.setPhase i phase).tasks[j]? = some t ↔
      j = i ∧ t = { task with phase := phase } ∨ j ≠ i ∧ s.tasks[j]? = some t := by
  rw [setPhase]
  rcases eq_or_ne j i with rfl | hne
  · simp [htask, eq_comm]
  · simp [hne, hne.symm]

theorem exists_setPhase :
    (∃ t, (s.setPhase i phase).tasks[j]? = some t ∧ Q t) ↔
      j = i ∧ Q { task with phase := phase } ∨ j ≠ i ∧ ∃ t, s.tasks[j]? = some t ∧ Q t := by
  simp only [getElem?_setPhase htask]
  constructor
  · rintro ⟨t, ⟨rfl, rfl⟩ | ⟨hne, ht⟩, hQ⟩
    · exact .inl ⟨rfl, hQ⟩
    · exact .inr ⟨hne, t, ht, hQ⟩
  · rintro (⟨rfl, hQ⟩ | ⟨hne, t, ht, hQ⟩)
    · exact ⟨_, .inl ⟨rfl, rfl⟩, hQ⟩
    · exact ⟨t, .inr ⟨hne, ht⟩, hQ⟩

/-- A record of the tasks with a property that the change of phase keeps. -/
theorem iff_setPhase_same {p : Prop}
    (hp : p ↔ ∃ t, s.tasks[j]? = some t ∧ Q t) (hQ : Q { task with phase := phase } ↔ Q task) :
    p ↔ ∃ t, (s.setPhase i phase).tasks[j]? = some t ∧ Q t := by
  rw [hp, exists_setPhase htask]
  rcases eq_or_ne j i with rfl | hne
  · simp [htask, hQ]
  · simp [hne]

/-- A property of tasks that the change of phase adds. -/
theorem exists_setPhase_new (hold : ¬ Q task) :
    (∃ t, (s.setPhase i phase).tasks[j]? = some t ∧ Q t) ↔
      (∃ t, s.tasks[j]? = some t ∧ Q t) ∨ j = i ∧ Q { task with phase := phase } := by
  rw [exists_setPhase htask]
  rcases eq_or_ne j i with rfl | hne
  · simp [htask, hold]
  · simp [hne]

section

variable (h : Inv s)
include h

/-- What every change to a later phase keeps: the task does not come back into the set, its
handler begins only when its prerequisites have sent their results, and nothing sent is lost. -/
theorem Inv.advance (phase : Phase ρ) (hset : phase.InSet → task.phase.InSet)
    (hbegun : phase.Begun → s.PrereqsDone task) :
    (∀ (j : ℕ) (t : ActionTask ρ), (s.setPhase i phase).tasks[j]? = some t →
      ∀ p ∈ t.prereqs, p < j) ∧
    (∀ (j k : ℕ) (tj tk : ActionTask ρ), j < k → (s.setPhase i phase).tasks[j]? = some tj →
      (s.setPhase i phase).tasks[k]? = some tk → tj.key.serialized → tk.key.serialized →
      tj.phase.InSet → j ∈ tk.prereqs) ∧
    ∀ (j : ℕ) (t : ActionTask ρ), (s.setPhase i phase).tasks[j]? = some t → t.phase.Begun →
      s.PrereqsDone t := by
  refine ⟨?_, ?_, ?_⟩
  · intro j t ht
    rcases (getElem?_setPhase htask).mp ht with ⟨rfl, rfl⟩ | ⟨-, ht⟩
    · exact h.prereqs_lt j task htask
    · exact h.prereqs_lt j t ht
  · intro j k tj tk hlt hj hk hsj hsk hin
    rcases (getElem?_setPhase htask).mp hj with ⟨rfl, rfl⟩ | ⟨-, hj'⟩
    · rcases (getElem?_setPhase htask).mp hk with ⟨rfl, rfl⟩ | ⟨-, hk⟩
      · exact absurd hlt (Nat.lt_irrefl _)
      · exact h.prereqs j k task tk hlt htask hk hsj hsk (hset hin)
    · rcases (getElem?_setPhase htask).mp hk with ⟨rfl, rfl⟩ | ⟨-, hk⟩
      · exact h.prereqs j k tj task hlt hj' htask hsj hsk hin
      · exact h.prereqs j k tj tk hlt hj' hk hsj hsk hin
  · intro j t ht hb
    rcases (getElem?_setPhase htask).mp ht with ⟨rfl, rfl⟩ | ⟨-, ht⟩
    · exact hbegun hb
    · exact h.released j t ht hb

theorem Inv.abort (hphase : task.phase = .registered) :
    Inv { s.setPhase i .waiting with aborted := s.aborted ++ task.abortHandles } := by
  obtain ⟨hlt, hprereqs, hreleased⟩ := h.advance htask .waiting
    (fun _ => by rw [hphase]; trivial) (fun hb => hb.elim)
  refine ⟨?_, hlt, hprereqs, hreleased, ?_, h.order, ?_, ?_⟩
  · exact fun k j => iff_setPhase_same htask (h.rep k j) (by simp [hphase, Phase.InSet])
  · exact fun j k => iff_setPhase_same htask (h.begun j k) (by simp [hphase, Phase.Begun])
  · exact fun j r => iff_setPhase_same htask (h.results j r) (by simp [hphase, Phase.result])
  · exact fun j r => iff_setPhase_same htask (h.sent j r) (by simp [hphase, Phase.message])

/-- A serialized handler begins after every other one that has begun. -/
theorem Inv.begun_lt
    (hphase : task.phase = .waiting) (hserial : task.key.serialized) {k : ActionKey}
    (hbegun : (j, k) ∈ s.begun) (hk : k.serialized) : j < i := by
  obtain ⟨t, ht, rfl, hb⟩ := (h.begun j k).mp hbegun
  rcases Nat.lt_trichotomy j i with hlt | rfl | hgt
  · exact hlt
  · rw [htask] at ht
    cases ht
    rw [hphase] at hb
    exact hb.elim
  · have hearly := h.earlier_begun hgt htask ht hserial hk hb
    rw [hphase] at hearly
    exact hearly.elim

theorem Inv.handle (hphase : task.phase = .waiting) (hdone : s.PrereqsDone task) :
    Inv { s.setPhase i .running with begun := s.begun ++ [(i, task.key)] } := by
  obtain ⟨hlt, hprereqs, hreleased⟩ := h.advance htask .running
    (fun _ => by rw [hphase]; trivial) (fun _ => hdone)
  refine ⟨?_, hlt, hprereqs, hreleased, ?_, ?_, ?_, ?_⟩
  · exact fun k j => iff_setPhase_same htask (h.rep k j) (by simp [hphase, Phase.InSet])
  · intro j k
    rw [exists_setPhase_new htask (by simp [hphase, Phase.Begun])]
    rw [mem_append, h.begun j k, mem_singleton]
    simp [Phase.Begun, eq_comm]
  · rw [filter_append, map_append, pairwise_append]
    refine ⟨h.order, ?_, ?_⟩
    · cases hserial : task.key.serialized <;> simp [hserial]
    · intro a ha b hb
      simp only [List.mem_map, mem_filter, mem_singleton] at ha hb
      obtain ⟨⟨a, k⟩, ⟨hbegun, hk⟩, rfl⟩ := ha
      obtain ⟨_, ⟨rfl, hserial⟩, rfl⟩ := hb
      exact h.begun_lt htask hphase hserial hbegun hk
  · exact fun j r => iff_setPhase_same htask (h.results j r) (by simp [hphase, Phase.result])
  · exact fun j r => iff_setPhase_same htask (h.sent j r) (by simp [hphase, Phase.message])

theorem Inv.handled (hphase : task.phase = .running) (res : ρ) :
    Inv { s.setPhase i (.returned res) with results := s.results ++ [(i, res)] } := by
  have hdone : s.PrereqsDone task := h.released i task htask (by rw [hphase]; trivial)
  obtain ⟨hlt, hprereqs, hreleased⟩ := h.advance htask (.returned res)
    (fun _ => by rw [hphase]; trivial) (fun _ => hdone)
  refine ⟨?_, hlt, hprereqs, hreleased, ?_, h.order, ?_, ?_⟩
  · exact fun k j => iff_setPhase_same htask (h.rep k j) (by simp [hphase, Phase.InSet])
  · exact fun j k => iff_setPhase_same htask (h.begun j k) (by simp [hphase, Phase.Begun])
  · intro j r
    rw [exists_setPhase_new htask (by simp [hphase, Phase.result])]
    rw [mem_append, h.results j r, mem_singleton]
    simp [Phase.result, eq_comm]
  · exact fun j r => iff_setPhase_same htask (h.sent j r) (by simp [hphase, Phase.message])

theorem Inv.finish {res : ρ} (hphase : task.phase = .returned res) :
    Inv ((s.setPhase i (.finished res)).finish task.key) := by
  have hdone : s.PrereqsDone task := h.released i task htask (by rw [hphase]; trivial)
  obtain ⟨hlt, hprereqs, hreleased⟩ := h.advance htask (.finished res)
    (fun hin => hin.elim) (fun _ => hdone)
  have hin : task.phase.InSet := by
    rw [hphase]
    trivial
  have hmine : s.wait task.key = some i := (h.rep task.key i).mpr ⟨task, htask, rfl, hin⟩
  refine ⟨?_, hlt, hprereqs, hreleased, ?_, h.order, ?_, ?_⟩
  · intro k j
    change ((update s.rep task.key none k).map _ = some j) ↔
      ∃ t, (s.setPhase i (.finished res)).tasks[j]? = some t ∧ _
    rw [exists_setPhase htask, update_apply]
    split
    case isTrue hk =>
      subst hk
      constructor
      · intro hsome
        cases hsome
      · rintro (⟨-, -, hfalse⟩ | ⟨hne, t, ht, hkey, hset⟩)
        · exact hfalse.elim
        · have hother := (h.rep task.key j).mpr ⟨t, ht, hkey, hset⟩
          rw [hmine] at hother
          exact absurd (Option.some.inj hother).symm hne
    case isFalse hk =>
      change s.wait k = some j ↔ _
      rw [h.rep k j]
      constructor
      · rintro ⟨t, ht, hkey, hset⟩
        refine .inr ⟨?_, t, ht, hkey, hset⟩
        rintro rfl
        rw [htask] at ht
        cases ht
        exact hk hkey.symm
      · rintro (⟨-, -, hfalse⟩ | ⟨-, hrest⟩)
        · exact hfalse.elim
        · exact hrest
  · exact fun j k => iff_setPhase_same htask (h.begun j k) (by simp [hphase, Phase.Begun])
  · exact fun j r => iff_setPhase_same htask (h.results j r) (by simp [hphase, Phase.result])
  · exact fun j r => iff_setPhase_same htask (h.sent j r) (by simp [hphase, Phase.message])

theorem Inv.notify {res : ρ} (hphase : task.phase = .finished res) :
    Inv { s.setPhase i (.notified res) with sent := update s.sent i (some res) } := by
  have hdone : s.PrereqsDone task := h.released i task htask (by rw [hphase]; trivial)
  obtain ⟨hlt, hprereqs, hreleased⟩ := h.advance htask (.notified res)
    (fun hin => hin.elim) (fun _ => hdone)
  refine ⟨?_, hlt, hprereqs, ?_, ?_, h.order, ?_, ?_⟩
  · exact fun k j => iff_setPhase_same htask (h.rep k j) (by simp [hphase, Phase.InSet])
  · intro j t ht hb p hp
    have hsent := hreleased j t ht hb p hp
    rcases eq_or_ne p i with rfl | hne
    · simp
    · simpa [hne] using hsent
  · exact fun j k => iff_setPhase_same htask (h.begun j k) (by simp [hphase, Phase.Begun])
  · exact fun j r => iff_setPhase_same htask (h.results j r) (by simp [hphase, Phase.result])
  · intro j r
    rw [exists_setPhase htask]
    rcases eq_or_ne j i with rfl | hne
    · simp [Phase.message]
    · simp [hne, h.sent j r]

end

end Advance

theorem Inv.step (h : Inv s) (hstep : Step s s') : Inv s' := by
  cases hstep with
  | register key abortable => exact h.register abortable
  | abort htask hphase => exact h.abort htask hphase
  | handle htask hphase hdone => exact h.handle htask hphase hdone
  | handled htask hphase res => exact h.handled htask hphase res
  | finish htask hphase => exact h.finish htask hphase
  | notify htask hphase => exact h.notify htask hphase

theorem Reachable.inv (h : Reachable s) : Inv s := by
  induction h with
  | refl => exact new_inv
  | tail _ hstep ih => exact ih.step hstep

def Running (s : State ρ) (i : ℕ) (key : ActionKey) : Prop :=
  ∃ t, s.tasks[i]? = some t ∧ t.key = key ∧ t.phase = .running

def Registered (s : State ρ) (i : ℕ) (key : ActionKey) : Prop :=
  ∃ t, s.tasks[i]? = some t ∧ t.key = key ∧ t.phase.InSet

def WaitsOn (s : State ρ) (i p : ℕ) : Prop := ∃ t, s.tasks[i]? = some t ∧ p ∈ t.prereqs

theorem Inv.running_eq (h : Inv s) {k k' : ActionKey} (hi : s.Running i k) (hj : s.Running j k')
    (hk : k.serialized) (hk' : k'.serialized) : i = j := by
  obtain ⟨ti, hti, rfl, hpi⟩ := hi
  obtain ⟨tj, htj, rfl, hpj⟩ := hj
  have hini : ti.phase.InSet := by rw [hpi]; trivial
  have hinj : tj.phase.InSet := by rw [hpj]; trivial
  have hdonei := h.released i ti hti (by rw [hpi]; trivial)
  have hdonej := h.released j tj htj (by rw [hpj]; trivial)
  rcases Nat.lt_trichotomy i j with hlt | heq | hgt
  · exact absurd hini (h.earlier_not_inSet hlt hti htj hk hk' hdonej)
  · exact heq
  · exact absurd hinj (h.earlier_not_inSet hgt htj hti hk' hk hdonei)

theorem Inv.registered_eq (h : Inv s) (hi : s.Registered i key) (hj : s.Registered j key) :
    i = j := by
  have hwi := (h.rep key i).mpr hi
  have hwj := (h.rep key j).mpr hj
  rw [hwi] at hwj
  exact Option.some.inj hwj

theorem Inv.waits_lt (h : Inv s) (hpath : Relation.TransGen s.WaitsOn i p) : p < i := by
  induction hpath with
  | single hwait =>
    obtain ⟨t, ht, hp⟩ := hwait
    exact h.prereqs_lt _ t ht _ hp
  | tail _ hwait ih =>
    obtain ⟨t, ht, hp⟩ := hwait
    exact (h.prereqs_lt _ t ht _ hp).trans ih

/-- In every interleaving of registrations with the steps of tasks: handlers that are serialized
are not in progress together, nor are handlers of one key; serialized handlers begin in the order
of registration, and none before all earlier ones have begun; a registration while a task of its
key is in the set gets the notifier of that task and nothing else happens, and what is sent to a
notifier is what the handler of its task has returned, once; and no tasks wait on each other in a
cycle. -/
theorem Reachable.serialized (h : Reachable s) :
    (∀ i j k k', s.Running i k → s.Running j k' → k.serialized → k'.serialized → i = j) ∧
    (∀ i j k, s.Running i k → s.Running j k → i = j) ∧
    ((s.begun.filter fun b => b.2.serialized).map Prod.fst).Pairwise (· < ·) ∧
    (∀ i j k t, (j, k) ∈ s.begun → k.serialized → i < j → s.tasks[i]? = some t →
      t.key.serialized → (i, t.key) ∈ s.begun) ∧
    (∀ i k abortable, s.Registered i k → s.registerNoWait k abortable = (s, i)) ∧
    (∀ i r, s.sent i = some r → ∀ r', (i, r') ∈ s.results ↔ r' = r) ∧
    ∀ i, ¬ Relation.TransGen s.WaitsOn i i := by
  have hinv := h.inv
  refine ⟨?_, ?_, hinv.order, ?_, ?_, ?_, ?_⟩
  · intro i j k k' hi hj hk hk'
    exact hinv.running_eq hi hj hk hk'
  · rintro i j k ⟨ti, hti, hki, hpi⟩ ⟨tj, htj, hkj, hpj⟩
    apply hinv.registered_eq
    · exact ⟨ti, hti, hki, by rw [hpi]; trivial⟩
    · exact ⟨tj, htj, hkj, by rw [hpj]; trivial⟩
  · intro i j k t hbegun hk hlt ht hkey
    obtain ⟨tj, htj, rfl, hb⟩ := (hinv.begun j k).mp hbegun
    exact (hinv.begun i t.key).mpr ⟨t, ht, rfl, hinv.earlier_begun hlt ht htj hkey hk hb⟩
  · intro i k abortable hreg
    exact registerNoWait_of_some abortable ((hinv.rep k i).mpr hreg)
  · intro i r hsent r'
    obtain ⟨t, ht, hmessage⟩ := (hinv.sent i r).mp hsent
    have hphase : t.phase.result = some r := by
      rw [Phase.eq_notified hmessage]
      rfl
    rw [hinv.results i r']
    constructor
    · rintro ⟨t', ht', hres⟩
      rw [ht] at ht'
      cases ht'
      rw [hphase] at hres
      exact (Option.some.inj hres).symm
    · rintro rfl
      exact ⟨t, ht, hphase⟩
  · intro i hcycle
    exact absurd (hinv.waits_lt hcycle) (Nat.lt_irrefl i)

/-- A stop that is registered while a start is in the set. -/
def startThenStop : State Unit :=
  ((new.registerNoWait .start true).1.registerNoWait .stop false).1

theorem startThenStop_reachable : Reachable startThenStop :=
  (Relation.ReflTransGen.single (.register new .start true)).tail (.register _ .stop false)

theorem Reachable.serialized_startThenStop :
    startThenStop.registerNoWait .start true = (startThenStop, 0) ∧
      startThenStop.WaitsOn 1 0 ∧ ¬ Relation.TransGen startThenStop.WaitsOn 1 1 := by
  obtain ⟨-, -, -, -, hregister, -, hcycle⟩ := Reachable.serialized startThenStop_reachable
  refine ⟨hregister 0 .start true ?_, ?_, hcycle 1⟩
  · exact ⟨_, rfl, rfl, trivial⟩
  · exact ⟨_, rfl, mem_cons_self⟩

/-- No deadlock: while a task has not sent its result, it or an earlier one can go on. -/
theorem Reachable.no_deadlock (h : Reachable s) (res : ρ) (htask : s.tasks[i]? = some task)
    (hsent : s.sent i = none) : ∃ j ≤ i, ∃ t, s.tasks[j]? = some t ∧ ∃ s' phase, Step s s' ∧
      s'.tasks = (s.setPhase j phase).tasks ∧ t.phase ≠ phase := by
  induction i using Nat.strong_induction_on generalizing task with
  | _ i ih =>
    by_cases hwait : task.phase = .waiting ∧ ¬ s.PrereqsDone task
    · obtain ⟨p, hp, hnone⟩ : ∃ p ∈ task.prereqs, s.sent p = none := by
        simpa [PrereqsDone] using hwait.2
      have hlt := h.inv.prereqs_lt i task htask p hp
      have hget := List.getElem?_eq_getElem (hlt.trans (List.getElem?_eq_some_iff.mp htask).1)
      obtain ⟨j, hj, hgo⟩ := ih p hlt hget hnone
      exact ⟨j, hj.trans hlt.le, hgo⟩
    refine ⟨i, le_rfl, task, htask, ?_⟩
    cases hphase : task.phase with
    | registered => exact ⟨_, _, .abort htask hphase, rfl, nofun⟩
    | waiting =>
      have hdone : s.PrereqsDone task := by simpa [hphase] using hwait
      exact ⟨_, _, .handle htask hphase hdone, rfl, nofun⟩
    | running => exact ⟨_, _, .handled htask hphase res, rfl, nofun⟩
    | returned r => exact ⟨_, _, .finish htask hphase, rfl, nofun⟩
    | finished r => exact ⟨_, _, .notify htask hphase, rfl, nofun⟩
    | notified r =>
      cases hsent.symm.trans ((h.inv.sent i r).mpr ⟨task, htask, by rw [hphase]; rfl⟩)

theorem Reachable.no_deadlock_startThenStop : ∃ j ≤ 1, ∃ t, startThenStop.tasks[j]? = some t ∧
    ∃ s' phase, Step startThenStop s' ∧
      s'.tasks = (startThenStop.setPhase j phase).tasks ∧ t.phase ≠ phase :=
  startThenStop_reachable.no_deadlock () rfl rfl

end State

end Smos.Component.ActionSet
