import Smos.Fxfs.LockManager
import Smos.Lib.Links

/-!
The waker list of a lock entry: the pointers in the wakers represent a list of
addresses, and each of the pointer manipulations is the list operation it stands for.
-/
namespace Smos.Fxfs.LockManager

open Lib.Links Wakers Function List Option

variable {K : Type} {m : Wakers K} {w : LockWaker K}

structure Waiter (K : Type) where
  key : K
  waker : WakerState
  targetState : LockState
  isUpgrade : Bool
  deriving DecidableEq, Repr

def LockWaker.toWaiter (w : LockWaker K) : Waiter K :=
  ⟨w.key, w.waker, w.targetState, w.isUpgrade⟩

namespace Wakers

def waiters (m : Wakers K) (a : ℕ) : Option (Waiter K) := (m a).map LockWaker.toWaiter

theorem waiters_eq_some {a : ℕ} {w : Waiter K} :
    m.waiters a = some w ↔ ∃ v, m a = some v ∧ v.toWaiter = w := by
  simp [waiters]

theorem modify_eq {a : ℕ} (h : m a = some w)
    (f : LockWaker K → LockWaker K) : m.modify a f = some (update m a (some (f w))) := by
  simp [modify, h]

theorem waiters_update (m : Wakers K) (a : ℕ) (w : Option (LockWaker K)) :
    waiters (update m a w) = update m.waiters a (w.map LockWaker.toWaiter) := by
  funext b
  by_cases hb : b = a
  · subst hb
    simp [waiters]
  · simp [waiters, hb]

/-- Writing a pointer of a node leaves the rest of the memory as it is. -/
theorem update_spec {a : ℕ} {w v : LockWaker K} {l : List ℕ} (h : m a = some w)
    (hv : v.toWaiter = w.toWaiter) (ha : a ∈ l) (halive : ∀ b ∈ l, ∃ w, m b = some w) :
    waiters (update m a (some v)) = m.waiters ∧ (∀ b ∉ l, update m a (some v) b = m b) ∧
      ∀ b ∈ l, ∃ w, update m a (some v) b = some w := by
  refine ⟨?_, fun b hb => update_of_ne (ne_of_mem_of_not_mem ha hb).symm _ _, fun b hb => ?_⟩
  · rw [waiters_update]
    refine update_eq_self_iff.mpr ?_
    simp [waiters, h, hv]
  · by_cases hba : b = a
    · subst hba
      simp
    · simpa [hba] using halive b hb

end Wakers

namespace LockEntry

variable {m : Wakers K} {p n : Option ℕ}

/-- What follows the nodes of `x` is written into the last of them, or into the entry. -/
theorem linkNext_spec (e : LockEntry) (n' : Option ℕ) {x : List ℕ}
    (hx : Segment m.next m.prev p x n) (hnd : x.Nodup) (halive : ∀ a ∈ x, ∃ w, m a = some w) :
    ∃ m', e.linkNext m x.getLast? n' =
        some (m', { e with head := if x = [] then n' else e.head }) ∧
      Segment m'.next m'.prev p x n' ∧ m'.waiters = m.waiters ∧
      (∀ b ∉ x, m' b = m b) ∧ ∀ b ∈ x, ∃ w, m' b = some w := by
  rcases eq_nil_or_concat x with rfl | ⟨l, t, rfl⟩
  · exact ⟨m, by simp [linkNext], trivial, rfl, fun _ _ => rfl, by simp⟩
  · rw [concat_eq_append] at *
    obtain ⟨v, hv⟩ := halive t (by simp)
    have hlt : ∀ b ∈ l, b ≠ t := fun b hb hbt =>
      (nodup_append.mp hnd).2.2 b hb t (by simp) hbt
    refine ⟨update m t (some { v with next := n' }), ?_, ?_,
      update_spec hv rfl mem_concat_self halive⟩
    · simp [linkNext, setNext, modify_eq hv]
    · refine hx.set_next ?_ ?_ ?_
      · intro b hb
        simp [Wakers.next, hlt b hb]
      · simp [Wakers.next]
      · intro b hb
        by_cases hbt : b = t
        · subst hbt
          simp [Wakers.prev, hv]
        · simp [Wakers.prev, hbt]

/-- What precedes the nodes of `y` is written into the first of them, or into the entry. -/
theorem linkPrev_spec (e : LockEntry) (p' : Option ℕ) {y : List ℕ}
    (hy : Segment m.next m.prev p y n) (hnd : y.Nodup) (halive : ∀ a ∈ y, ∃ w, m a = some w) :
    ∃ m', e.linkPrev m y.head? p' =
        some (m', { e with tail := if y = [] then p' else e.tail }) ∧
      Segment m'.next m'.prev p' y n ∧ m'.waiters = m.waiters ∧
      (∀ b ∉ y, m' b = m b) ∧ ∀ b ∈ y, ∃ w, m' b = some w := by
  cases y with
  | nil => exact ⟨m, by simp [linkPrev], trivial, rfl, fun _ _ => rfl, by simp⟩
  | cons t l =>
    obtain ⟨v, hv⟩ := halive t (by simp)
    have hlt : ∀ b ∈ l, b ≠ t := fun b hb hbt => (nodup_cons.mp hnd).1 (hbt ▸ hb)
    refine ⟨update m t (some { v with prev := p' }), ?_, ?_,
      update_spec hv rfl mem_cons_self halive⟩
    · simp [linkPrev, setPrev, modify_eq hv]
    · refine hy.set_prev ?_ ?_ ?_
      · intro b hb
        simp [Wakers.prev, hlt b hb]
      · simp [Wakers.prev]
      · intro b hb
        by_cases hbt : b = t
        · subst hbt
          simp [Wakers.next, hv]
        · simp [Wakers.next, hbt]

end LockEntry

/-- The entry's pointers and those of its wakers represent the list `q`. -/
structure Queue (m : Wakers K) (e : LockEntry) (q : List ℕ) : Prop where
  head : e.head = q.head?
  tail : e.tail = q.getLast?
  links : Segment m.next m.prev none q none
  nodup : q.Nodup
  alive : ∀ a ∈ q, ∃ w, m a = some w

namespace Queue

variable {m m' : Wakers K} {e e' : LockEntry} {q : List ℕ} {a : ℕ}

theorem congr_links (h : Queue m e q) (hnext : ∀ a ∈ q, m'.next a = m.next a)
    (hprev : ∀ a ∈ q, m'.prev a = m.prev a) (halive : ∀ a ∈ q, ∃ w, m' a = some w) :
    Queue m' e q :=
  ⟨h.head, h.tail, h.links.congr hnext hprev, h.nodup, halive⟩

theorem congr (h : Queue m e q) (hm : ∀ a ∈ q, m' a = m a) : Queue m' e q := by
  refine h.congr_links ?_ ?_ fun a ha => ?_
  · exact fun a ha => by simp [Wakers.next, hm a ha]
  · exact fun a ha => by simp [Wakers.prev, hm a ha]
  · rw [hm a ha]
    exact h.alive a ha

theorem of_pointers (h : Queue m e q) (hhead : e'.head = e.head)
    (htail : e'.tail = e.tail) : Queue m e' q :=
  ⟨hhead.trans h.head, htail.trans h.tail, h.links, h.nodup, h.alive⟩

theorem head_eq (h : Queue m e (a :: q)) : e.head = some a := by
  simpa using h.head

theorem popAndWake (h : Queue m e (a :: q)) (ha : m a = some w) :
    ∃ m' e', e.popAndWake m = some (m', e') ∧ Queue m' e' q ∧
      m'.waiters = update m.waiters a (some { w.toWaiter with waker := .woken }) ∧
      (∀ b ∉ a :: q, m' b = m b) ∧
      e'.readCount = (if w.targetState = .readLock then e.readCount + 1 else e.readCount) ∧
      e'.state = (if w.targetState = .readLock then e.state else w.targetState) := by
  obtain ⟨haq, hnd⟩ := nodup_cons.mp h.nodup
  have hnext : w.next = q.head? := by
    have hn := h.links.2.1
    simpa [Wakers.next, ha] using hn
  obtain ⟨m₁, hlink, hseg, hwaiters, hframe, halive⟩ :=
    LockEntry.linkPrev_spec { e with head := w.next } none h.links.2.2 hnd
      (forall_mem_cons.mp h.alive).2
  have ha₁ : m₁ a = some w := (hframe a haq).trans ha
  have hne : ∀ b ∈ q, b ≠ a := fun b hb hba => haq (hba ▸ hb)
  have htail : (if q = [] then none else e.tail) = q.getLast? := by
    have ht := h.tail
    cases q with
    | nil => rfl
    | cons b q => simpa using ht
  refine ⟨update m₁ a (some { w with waker := .woken }),
    { readCount := if w.targetState = .readLock then e.readCount + 1 else e.readCount,
      state := if w.targetState = .readLock then e.state else w.targetState,
      head := q.head?, tail := q.getLast? },
    ?_, ⟨rfl, rfl, ?_, hnd, ?_⟩, ?_, ?_, rfl, rfl⟩
  · have hmod := modify_eq ha₁ fun w => { w with waker := WakerState.woken }
    rw [hnext] at hlink
    simp only [LockEntry.popAndWake, h.head_eq, ha, hnext, hlink, hmod, htail,
      bind_eq_bind, bind_some]
    split <;> rfl
  · refine hseg.congr ?_ ?_
    · exact fun b hb => by simp [Wakers.next, hne b hb]
    · exact fun b hb => by simp [Wakers.prev, hne b hb]
  · intro b hb
    simpa [hne b hb] using halive b hb
  · rw [waiters_update, hwaiters]
    rfl
  · intro b hb
    simp only [mem_cons, not_or] at hb
    simp [hb.1, hframe b hb.2]

/-- A node at a new address does not touch the list. -/
theorem alloc (h : Queue m e q) (ha : a ∉ q) (w : LockWaker K) :
    Queue (update m a (some w)) e q :=
  h.congr fun _ hb => update_of_ne (ne_of_mem_of_not_mem hb ha) _ _

theorem pushTail (h : Queue m e q) (ha : a ∉ q) (key : K) (target : LockState) :
    ∃ m' e', e.pushTail m a key target = some (m', e') ∧ Queue m' e' (q ++ [a]) ∧
      m'.waiters = update m.waiters a (some ⟨key, .pending, target, false⟩) ∧
      (∀ b ∉ a :: q, m' b = m b) ∧ e'.readCount = e.readCount ∧ e'.state = e.state := by
  have h₁ := h.alloc ha ⟨none, e.tail, key, .pending, target, false⟩
  obtain ⟨m', hlink, hseg, hwaiters, hframe, halive⟩ :=
    LockEntry.linkNext_spec { e with tail := some a } (some a) h₁.links h₁.nodup h₁.alive
  rw [← h.tail] at hlink
  have hm'a : m' a = some ⟨none, e.tail, key, .pending, target, false⟩ := by
    rw [hframe a ha, update_self]
  refine ⟨m', _, hlink, ⟨?_, by simp, ?_, ?_, ?_⟩, ?_, ?_, rfl, rfl⟩
  · have hhead := h.head
    cases q <;> simp [hhead]
  · rw [Segment.append]
    refine ⟨hseg, ?_, ?_, trivial⟩
    · simp [Wakers.prev, hm'a, h.tail]
    · simp [Wakers.next, hm'a]
  · rw [nodup_append]
    exact ⟨h.nodup, by simp, fun b hb c hc hbc => ha (by simp_all)⟩
  · exact forall_mem_append.mpr ⟨halive, forall_mem_singleton.mpr ⟨_, hm'a⟩⟩
  · rw [hwaiters, waiters_update]
    rfl
  · intro b hb
    simp only [mem_cons, not_or] at hb
    rw [hframe b hb.2, update_of_ne hb.1]

theorem pushHead (h : Queue m e q) (ha : a ∉ q) (key : K) :
    ∃ m' e', e.pushHead m a key = some (m', e') ∧ Queue m' e' (a :: q) ∧
      m'.waiters = update m.waiters a (some ⟨key, .pending, .writeLock, true⟩) ∧
      (∀ b ∉ a :: q, m' b = m b) ∧ e'.readCount = e.readCount ∧ e'.state = e.state := by
  have h₁ := h.alloc ha ⟨e.head, none, key, .pending, .writeLock, true⟩
  obtain ⟨m', hlink, hseg, hwaiters, hframe, halive⟩ :=
    LockEntry.linkPrev_spec { e with head := some a } (some a) h₁.links h₁.nodup h₁.alive
  rw [← h.head] at hlink
  have hm'a : m' a = some ⟨e.head, none, key, .pending, .writeLock, true⟩ := by
    rw [hframe a ha, update_self]
  refine ⟨m', _, hlink, ⟨by simp, ?_, ⟨?_, ?_, hseg⟩, ?_, ?_⟩, ?_, ?_, rfl, rfl⟩
  · have htail := h.tail
    cases q with
    | nil => rfl
    | cons b q => simpa [getLast?_cons_cons] using htail
  · simp [Wakers.prev, hm'a]
  · simp [Wakers.next, hm'a, h.head]
  · exact nodup_cons.mpr ⟨ha, h.nodup⟩
  · exact forall_mem_cons.mpr ⟨⟨_, hm'a⟩, halive⟩
  · rw [hwaiters, waiters_update]
    rfl
  · intro b hb
    simp only [mem_cons, not_or] at hb
    rw [hframe b hb.2, update_of_ne hb.1]

/-- Takes a waker out of the middle of the list; if it was the first one the others are woken. -/
theorem removeWaker {x y : List ℕ} (h : Queue m e (x ++ a :: y)) (ha : m a = some w) (fuel : ℕ) :
    ∃ m' e', e.removeWaker fuel m a = (if x = [] then e'.wake fuel m' else some (m', e')) ∧
      Queue m' e' (x ++ y) ∧ m'.waiters = m.waiters ∧ (∀ b ∉ x ++ a :: y, m' b = m b) ∧
      e'.readCount = e.readCount ∧ e'.state = e.state := by
  obtain ⟨hx, hprev, hnext, hy⟩ := Segment.append.mp h.links
  obtain ⟨hndx, hnday, hxy⟩ := nodup_append.mp h.nodup
  obtain ⟨hay, hndy⟩ := nodup_cons.mp hnday
  have hprev : w.prev = x.getLast? := by simpa [Wakers.prev, ha] using hprev
  have hnext : w.next = y.head? := by simpa [Wakers.next, ha] using hnext
  obtain ⟨m₁, hlink₁, hseg₁, hwaiters₁, hframe₁, halive₁⟩ :=
    LockEntry.linkNext_spec e w.next hx hndx fun b hb => h.alive b (by simp [hb])
  have hyx : ∀ b ∈ y, b ∉ x := fun b hb hbx => hxy b hbx b (by simp [hb]) rfl
  have hy₁ : Segment m₁.next m₁.prev (some a) y none := hy.congr
    (fun b hb => by simp [Wakers.next, hframe₁ b (hyx b hb)])
    (fun b hb => by simp [Wakers.prev, hframe₁ b (hyx b hb)])
  obtain ⟨m₂, hlink₂, hseg₂, hwaiters₂, hframe₂, halive₂⟩ :=
    LockEntry.linkPrev_spec { e with head := if x = [] then w.next else e.head } w.prev hy₁ hndy
      fun b hb => by
        rw [hframe₁ b (hyx b hb)]
        exact h.alive b (by simp [hb])
  have hxy' : ∀ b ∈ x, b ∉ y := fun b hb hby => hyx b hby hb
  refine ⟨m₂, { e with head := if x = [] then w.next else e.head,
                       tail := if y = [] then w.prev else e.tail },
    ?_, ⟨?_, ?_, ?_, ?_, ?_⟩, hwaiters₂.trans hwaiters₁, ?_, rfl, rfl⟩
  · rw [← hprev] at hlink₁
    rw [← hnext] at hlink₂
    simp only [LockEntry.removeWaker, ha, hlink₁, hlink₂, bind_eq_bind, bind_some]
    have hnone : w.prev.isNone = true ↔ x = [] := by
      simp [hprev]
    simp only [hnone]
  · have hhead := h.head
    cases x with
    | nil => simp [hnext]
    | cons b x => simpa using hhead
  · have htail := h.tail
    cases y with
    | nil => simp [hprev]
    | cons b y => simpa [getLast?_append, getLast?_cons_cons] using htail
  · rw [Segment.append, or_none, ← hnext]
    refine ⟨hseg₁.congr ?_ ?_, ?_⟩
    · exact fun b hb => by simp [Wakers.next, hframe₂ b (hxy' b hb)]
    · exact fun b hb => by simp [Wakers.prev, hframe₂ b (hxy' b hb)]
    · simpa [hprev] using hseg₂
  · rw [nodup_append]
    exact ⟨hndx, hndy, fun b hb c hc hbc => hxy b hb c (by simp [hc]) hbc⟩
  · intro b hb
    by_cases hby : b ∈ y
    · exact halive₂ b hby
    · rw [hframe₂ b hby]
      exact halive₁ b (by simpa [hby] using hb)
  · intro b hb
    simp only [mem_append, mem_cons, not_or] at hb
    rw [hframe₂ b hb.2.2, hframe₁ b hb.1]

end Queue

end Smos.Fxfs.LockManager
