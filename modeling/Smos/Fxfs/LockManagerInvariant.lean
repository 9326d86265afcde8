import Mathlib
import Smos.Fxfs.LockManagerQueue

/-!
What the lock manager's state says about the locks that were granted. The
count and the state in an entry agree with what the tasks hold, where a task
also holds what its waker was granted and it has not run to see yet. `wake`
keeps this, one grant at a time.
-/
namespace Smos.Fxfs.LockManager

open Function Option List

variable {K : Type} {T : List (Task K)}

abbrev Waiters (K : Type) := ℕ → Option (Waiter K)

/-- The waker that a phase waits on is for its next key, and an upgrade is for
keys in the guard. -/
inductive Task.Ok (n : Waiters K) (t : Task K) : Prop where
  | held (h : t.phase = .held)
  | locking (todo : List K) (h : t.phase = .locking todo none)
  | lockWait (key : K) (todo : List K) (a : ℕ) (waker : WakerState)
      (h : t.phase = .locking (key :: todo) (some a))
      (hn : n a = some ⟨key, waker, t.target, false⟩)
  | preparing (todo : List K) (h : t.phase = .preparing todo none)
      (htarget : t.target ≠ .readLock) (hkeys : todo ⊆ t.lockKeys)
  | prepareWait (key : K) (todo : List K) (a : ℕ) (waker : WakerState)
      (h : t.phase = .preparing (key :: todo) (some a))
      (htarget : t.target ≠ .readLock) (hkeys : key :: todo ⊆ t.lockKeys)
      (hn : n a = some ⟨key, waker, .writeLock, true⟩)

/-- What a task's waker is for. -/
theorem Task.Ok.waiter {n : Waiters K} {t : Task K} (h : t.Ok n) {a : ℕ}
    (ha : t.waiter = some a) : ∃ w, n a = some w ∧
      (w.isUpgrade = false ∧ w.targetState = t.target ∨
        w.isUpgrade = true ∧ w.targetState = .writeLock ∧ t.target ≠ .readLock ∧
          w.key ∈ t.lockKeys) := by
  cases h with
  | held h => simp [Task.waiter, h] at ha
  | locking todo h => simp [Task.waiter, h] at ha
  | preparing todo h => simp [Task.waiter, h] at ha
  | lockWait key todo b waker h hn =>
    simp only [Task.waiter, h, some.injEq] at ha
    subst ha
    exact ⟨_, hn, Or.inl ⟨rfl, rfl⟩⟩
  | prepareWait key todo b waker h htarget hkeys hn =>
    simp only [Task.waiter, h, some.injEq] at ha
    subst ha
    exact ⟨_, hn, Or.inr ⟨rfl, rfl, htarget, hkeys (by simp)⟩⟩

/-- A waker keeps its request while its state changes. -/
theorem Task.Ok.mono {n n' : Waiters K} {t : Task K} (h : t.Ok n)
    (hn : ∀ a w, t.waiter = some a → n a = some w →
      ∃ waker, n' a = some { w with waker }) : t.Ok n' := by
  cases h with
  | held h => exact .held h
  | locking todo h => exact .locking todo h
  | preparing todo h htarget hkeys => exact .preparing todo h htarget hkeys
  | lockWait key todo a waker h ha =>
    obtain ⟨waker', hw⟩ := hn a _ (by simp [Task.waiter, h]) ha
    exact .lockWait key todo a waker' h hw
  | prepareWait key todo a waker h htarget hkeys ha =>
    obtain ⟨waker', hw⟩ := hn a _ (by simp [Task.waiter, h]) ha
    exact .prepareWait key todo a waker' h htarget hkeys hw

def waitersOf (T : List (Task K)) : List ℕ := T.filterMap Task.waiter

@[simp]
theorem waitersOf_append (A B : List (Task K)) :
    waitersOf (A ++ B) = waitersOf A ++ waitersOf B := by
  simp [waitersOf]

@[simp]
theorem waitersOf_cons (t : Task K) (B : List (Task K)) :
    waitersOf (t :: B) = t.waiter.toList ++ waitersOf B := by
  cases h : t.waiter <;> simp [waitersOf, h]

theorem mem_waitersOf {a : ℕ} :
    a ∈ waitersOf T ↔ ∃ t ∈ T, t.waiter = some a := by
  simp [waitersOf]

variable [DecidableEq K] {w : Waiter K}

namespace Task

/-- The locks on `key` that were granted to the task and not released: those in its
guard, and the one of its waker if that was woken. An upgrade's waker adds
none, its key is in the guard already. -/
def locks (n : Waiters K) (key : K) (t : Task K) : ℕ :=
  t.lockKeys.count key +
    if ∃ w ∈ t.waiter.bind n, w.key = key ∧ w.waker = .woken ∧ w.isUpgrade = false then 1 else 0

def readLocks (n : Waiters K) (key : K) (t : Task K) : ℕ :=
  if t.target = .readLock then t.locks n key else 0

def writeLocks (n : Waiters K) (key : K) (t : Task K) : ℕ :=
  if t.target = .readLock then 0 else t.locks n key

end Task

def reads (n : Waiters K) (key : K) (T : List (Task K)) : ℕ :=
  (T.map (Task.readLocks n key)).sum

def writes (n : Waiters K) (key : K) (T : List (Task K)) : ℕ :=
  (T.map (Task.writeLocks n key)).sum

section Counting

variable {n n' : Waiters K} {key : K} {T A B : List (Task K)} {t : Task K} {a : ℕ}

@[simp]
theorem reads_append : reads n key (A ++ B) = reads n key A + reads n key B := by
  simp [reads]

@[simp]
theorem reads_cons : reads n key (t :: B) = t.readLocks n key + reads n key B := by
  simp [reads]

@[simp]
theorem writes_append : writes n key (A ++ B) = writes n key A + writes n key B := by
  simp [writes]

@[simp]
theorem writes_cons : writes n key (t :: B) = t.writeLocks n key + writes n key B := by
  simp [writes]

theorem Task.locks_congr (h : ∀ a, t.waiter = some a → n' a = n a) :
    t.locks n' key = t.locks n key := by
  unfold Task.locks
  cases hw : t.waiter with
  | none => rfl
  | some a => rw [bind_some, bind_some, h a hw]

theorem reads_of_locks (h : ∀ t ∈ T, t.locks n' key = t.locks n key) :
    reads n' key T = reads n key T := by
  unfold reads
  congr 1
  refine map_congr_left fun t ht => ?_
  rw [Task.readLocks, Task.readLocks, h t ht]

theorem writes_of_locks (h : ∀ t ∈ T, t.locks n' key = t.locks n key) :
    writes n' key T = writes n key T := by
  unfold writes
  congr 1
  refine map_congr_left fun t ht => ?_
  rw [Task.writeLocks, Task.writeLocks, h t ht]

theorem reads_congr (h : ∀ a ∈ waitersOf T, n' a = n a) : reads n' key T = reads n key T :=
  reads_of_locks fun t ht => Task.locks_congr fun a ha => h a (mem_waitersOf.mpr ⟨t, ht, ha⟩)

theorem writes_congr (h : ∀ a ∈ waitersOf T, n' a = n a) :
    writes n' key T = writes n key T :=
  writes_of_locks fun t ht => Task.locks_congr fun a ha => h a (mem_waitersOf.mpr ⟨t, ht, ha⟩)

omit [DecidableEq K] in
/-- The waker of a task belongs to no other task. -/
theorem exists_owner (hnd : (waitersOf T).Nodup) (ha : a ∈ waitersOf T) :
    ∃ A t B, T = A ++ t :: B ∧ t.waiter = some a ∧ a ∉ waitersOf A ∧ a ∉ waitersOf B := by
  obtain ⟨t, ht, hta⟩ := mem_waitersOf.mp ha
  obtain ⟨A, B, rfl⟩ := append_of_mem ht
  refine ⟨A, t, B, rfl, hta, ?_⟩
  rw [waitersOf_append, waitersOf_cons, hta] at hnd
  obtain ⟨-, hB, hA⟩ := List.nodup_append.mp hnd
  refine ⟨fun h => hA a h a (by simp) rfl, ?_⟩
  simpa using (List.nodup_cons.mp hB).1

/-- Granting a waker's request adds a lock of its kind; an upgrade adds none. -/
theorem counts_grant (hnd : (waitersOf T).Nodup) (hok : ∀ t ∈ T, t.Ok n)
    (ha : a ∈ waitersOf T) (hw : n a = some w) (hwoken : w.waker ≠ .woken)
    (hkey : w.key = key) :
    let n' := update n a (some { w with waker := .woken })
    reads n' key T = reads n key T +
        (if w.isUpgrade = false ∧ w.targetState = .readLock then 1 else 0) ∧
      writes n' key T = writes n key T +
        if w.isUpgrade = false ∧ w.targetState ≠ .readLock then 1 else 0 := by
  intro n'
  obtain ⟨A, t, B, rfl, hta, hA, hB⟩ := exists_owner hnd ha
  have hframe : ∀ {C : List (Task K)}, a ∉ waitersOf C → ∀ b ∈ waitersOf C, n' b = n b :=
    fun hC b hb => update_of_ne (ne_of_mem_of_not_mem hb hC) _ _
  have hlocks : t.locks n' key = t.locks n key + if w.isUpgrade = false then 1 else 0 := by
    simp [Task.locks, hta, n', hw, hwoken, hkey]
  obtain ⟨v, hv, hkind⟩ := (hok t (by simp)).waiter hta
  obtain rfl := some.inj (hv.symm.trans hw)
  simp only [reads_append, reads_cons, writes_append, writes_cons, reads_congr (hframe hA),
    reads_congr (hframe hB), writes_congr (hframe hA), writes_congr (hframe hB),
    Task.readLocks, Task.writeLocks, hlocks]
  rcases hkind with ⟨hup, htarget⟩ | ⟨hup, -, htarget, -⟩
  · by_cases hr : t.target = .readLock
    · simp [hr, hup, htarget]
      omega
    · simp [hr, hup, htarget]
      omega
  · simp [hup, htarget]

end Counting

structure TasksOk (n : Waiters K) (T : List (Task K)) : Prop where
  nodup : (waitersOf T).Nodup
  ok : ∀ t ∈ T, t.Ok n

structure Core (n : Waiters K) (T : List (Task K)) (key : K) (e : LockEntry)
    (q : List ℕ) : Prop where
  mem : ∀ a, a ∈ q ↔ a ∈ waitersOf T ∧ ∃ w, n a = some w ∧ w.key = key ∧ w.waker ≠ .woken
  reads : e.readCount = reads n key T
  writes : writes n key T = if e.state = .readLock then 0 else 1
  exclusive : e.state = .writeLock → e.readCount = 0
  upgrade : ∀ a ∈ q, ∀ w, n a = some w → w.isUpgrade = true →
    q.head? = some a ∧ e.state = .locked
  upgraded : ∀ a ∈ waitersOf T, ∀ w, n a = some w → w.key = key → w.waker = .woken →
    w.isUpgrade = true → e.state = .writeLock

theorem TasksOk.upgrade_target {n : Waiters K} {key : K} {e : LockEntry}
    {q : List ℕ} {a : ℕ} (hT : TasksOk n T) (h : Core n T key e q) (ha : a ∈ q)
    (hw : n a = some w) (hup : w.isUpgrade = true) : w.targetState = .writeLock := by
  obtain ⟨t, ht, hta⟩ := mem_waitersOf.mp ((h.mem a).mp ha).1
  obtain ⟨v, hv, hkind⟩ := (hT.ok t ht).waiter hta
  obtain rfl := some.inj (hv.symm.trans hw)
  rcases hkind with ⟨hno, -⟩ | ⟨-, htarget, -⟩
  · rw [hup] at hno
    cases hno
  · exact htarget

structure Grantable (e : LockEntry) (w : Waiter K) : Prop where
  not_write : e.state ≠ .writeLock
  upgrade : w.isUpgrade = true → e.readCount = 0 ∧ w.targetState = .writeLock
  lock : w.isUpgrade = false → w.targetState ≠ .readLock → e.state = .readLock
  write : w.isUpgrade = false → w.targetState = .writeLock → e.readCount = 0

namespace Core

variable {n : Waiters K} {T : List (Task K)} {key : K} {e e' : LockEntry} {q : List ℕ} {a : ℕ}

theorem not_upgrade_of_mem_tail (h : Core n T key e (a :: q)) (haq : a ∉ q) :
    ∀ b ∈ q, ∀ w, n b = some w → w.isUpgrade = false := by
  intro b hb w hw
  by_contra hup
  have hhead := (h.upgrade b (mem_cons_of_mem _ hb) w hw (by simpa using hup)).1
  simp only [head?_cons, some.injEq] at hhead
  exact haq (hhead ▸ hb)

theorem grant (hT : TasksOk n T) (h : Core n T key e (a :: q)) (haq : a ∉ q)
    (hw : n a = some w) (hg : Grantable e w)
    (hreads : e'.readCount =
      if w.targetState = .readLock then e.readCount + 1 else e.readCount)
    (hstate : e'.state = if w.targetState = .readLock then e.state else w.targetState) :
    TasksOk (update n a (some { w with waker := .woken })) T ∧
      Core (update n a (some { w with waker := .woken })) T key e' q := by
  obtain ⟨haT, v, hv, hkey, hwoken⟩ := (h.mem a).mp (by simp)
  obtain rfl := some.inj (hv.symm.trans hw)
  have hcounts := counts_grant hT.nodup hT.ok haT hw hwoken hkey
  have hstate' : v.isUpgrade = true → e.state = .locked := fun hup =>
    (h.upgrade a (by simp) v hw hup).2
  have hw₀ := h.writes
  have hn : ∀ b, b ≠ a → update n a (some { v with waker := .woken }) b = n b :=
    fun b hb => update_of_ne hb _ _
  refine ⟨⟨hT.nodup, fun t ht => (hT.ok t ht).mono ?_⟩, ?_, ?_, ?_, ?_, ?_, ?_⟩
  · intro b u _ hu
    by_cases hb : b = a
    · subst hb
      refine ⟨.woken, ?_⟩
      rw [update_self, some.inj (hw.symm.trans hu)]
    · exact ⟨u.waker, by rw [hn b hb, hu]⟩
  · intro b
    by_cases hb : b = a
    · subst hb
      simp [haq]
    · rw [hn b hb, ← h.mem b]
      simp [hb]
  · rw [hcounts.1, hreads, h.reads]
    by_cases hr : v.targetState = .readLock
    · have hup : v.isUpgrade = false := by
        by_contra hup
        have := (hg.upgrade (by simpa using hup)).2
        rw [hr] at this
        cases this
      simp [hr, hup]
    · simp [hr]
  · rw [hcounts.2, hstate, hw₀]
    by_cases hr : v.targetState = .readLock
    · simp [hr]
    · cases hup : v.isUpgrade with
      | true => simp [hr, hstate' hup]
      | false => simp [hr, hg.lock hup hr]
  · intro hws
    rw [hstate] at hws
    rw [hreads]
    by_cases hr : v.targetState = .readLock
    · rw [if_pos hr] at hws
      exact absurd hws hg.not_write
    · rw [if_neg hr] at hws ⊢
      cases hup : v.isUpgrade with
      | true => exact (hg.upgrade hup).1
      | false => exact hg.write hup hws
  · intro b hb u hu hup
    have hba : b ≠ a := ne_of_mem_of_not_mem hb haq
    rw [hn b hba] at hu
    have hnot := h.not_upgrade_of_mem_tail haq b hb u hu
    rw [hup] at hnot
    cases hnot
  · intro b hb u hu hukey huwoken huup
    by_cases hba : b = a
    · subst hba
      rw [update_self, some.injEq] at hu
      subst hu
      have htarget := (hg.upgrade huup).2
      rw [hstate, if_neg (by simp [htarget])]
      exact htarget
    · rw [hn b hba] at hu
      exact absurd (h.upgraded b hb u hu hukey huwoken huup) hg.not_write

end Core

/-- Only the wakers of one key differ, and they stay wakers of that key. -/
def OnlyKey (key : K) (m m' : Wakers K) : Prop :=
  ∀ b, m' b = m b ∨
    (m.waiters b).map Waiter.key = some key ∧ (m'.waiters b).map Waiter.key = some key

namespace OnlyKey

variable {key : K} {m m' m'' : Wakers K}

omit [DecidableEq K] in
theorem refl : OnlyKey key m m := fun _ => .inl rfl

omit [DecidableEq K] in
theorem trans (h : OnlyKey key m m') (h' : OnlyKey key m' m'') : OnlyKey key m m'' := by
  intro b
  rcases h' b with hb' | ⟨hb', hb''⟩
  · rcases h b with hb | ⟨hb, hb₁⟩
    · exact .inl (hb'.trans hb)
    · refine .inr ⟨hb, ?_⟩
      simpa only [Wakers.waiters, hb'] using hb₁
  · rcases h b with hb | ⟨hb, -⟩
    · refine .inr ⟨?_, hb''⟩
      simpa only [Wakers.waiters, hb] using hb'
    · exact .inr ⟨hb, hb''⟩

end OnlyKey

structure KeyOk (m : Wakers K) (T : List (Task K)) (key : K) (e : LockEntry) (q : List ℕ) :
    Prop where
  tasks : TasksOk m.waiters T
  queue : Queue m e q
  core : Core m.waiters T key e q

def LockEntry.Busy (e : LockEntry) : Prop := 0 < e.readCount ∨ e.state ≠ .readLock

namespace KeyOk

variable {m : Wakers K} {T : List (Task K)} {key : K} {e : LockEntry} {q : List ℕ} {a : ℕ}

theorem exists_waker (h : KeyOk m T key e q) (ha : a ∈ q) :
    ∃ w : LockWaker K, m a = some w ∧ w.key = key := by
  obtain ⟨w, hw, hkey, -⟩ := ((h.core.mem a).mp ha).2
  obtain ⟨v, hv, rfl⟩ := Wakers.waiters_eq_some.mp hw
  exact ⟨v, hv, hkey⟩

theorem popAndWake {w : LockWaker K} (h : KeyOk m T key e (a :: q)) (ha : m a = some w)
    (hg : Grantable e w.toWaiter) :
    ∃ m' e', e.popAndWake m = some (m', e') ∧ KeyOk m' T key e' q ∧ OnlyKey key m m' ∧
      (∀ b ∈ q, ∀ v, m'.waiters b = some v → v.isUpgrade = false) ∧ e'.Busy ∧
      (w.targetState ≠ .writeLock → e'.state ≠ .writeLock) := by
  have haq : a ∉ q := (List.nodup_cons.mp h.queue.nodup).1
  have hw : m.waiters a = some w.toWaiter := by simp [Wakers.waiters, ha]
  obtain ⟨m', e', hpop, hqueue, hwaiters, hframe, hreads, hstate⟩ := h.queue.popAndWake ha
  obtain ⟨htasks, hcore⟩ := h.core.grant h.tasks haq hw hg hreads hstate
  rw [← hwaiters] at htasks hcore
  refine ⟨m', e', hpop, ⟨htasks, hqueue, hcore⟩, ?_, ?_, ?_, ?_⟩
  · intro b
    by_cases hb : b ∈ a :: q
    · refine .inr ?_
      obtain ⟨v, hv, hkey⟩ := h.exists_waker hb
      refine ⟨by simp [Wakers.waiters, hv, LockWaker.toWaiter, hkey], ?_⟩
      by_cases hba : b = a
      · subst hba
        rw [ha] at hv
        cases hv
        simp [hwaiters, LockWaker.toWaiter, hkey]
      · rw [hwaiters, update_of_ne hba]
        simp [Wakers.waiters, hv, LockWaker.toWaiter, hkey]
    · exact .inl (hframe b hb)
  · intro b hb v hv
    rw [hwaiters, update_of_ne (ne_of_mem_of_not_mem hb haq)] at hv
    exact h.core.not_upgrade_of_mem_tail haq b hb v hv
  · unfold LockEntry.Busy
    rw [hreads, hstate]
    by_cases hr : w.targetState = .readLock
    · simp [hr]
    · simp [hr]
  · intro hnw
    rw [hstate]
    split
    · exact hg.not_write
    · exact hnw

theorem wakeReaders {fuel : ℕ} (h : KeyOk m T key e q) (hfuel : q.length < fuel)
    (hup : ∀ b ∈ q, ∀ v, m.waiters b = some v → v.isUpgrade = false)
    (hstate : e.state ≠ .writeLock) (hbusy : e.Busy) :
    ∃ m' e' r, e.wakeReaders fuel m = some (m', e') ∧ KeyOk m' T key e' r ∧ OnlyKey key m m' ∧
      (∀ b ∈ r, ∀ v, m'.waiters b = some v → v.isUpgrade = false) ∧ e'.Busy := by
  induction q generalizing fuel m e with
  | nil =>
    obtain ⟨fuel, rfl⟩ := Nat.exists_eq_succ_of_ne_zero (Nat.ne_of_gt hfuel)
    have hhead : e.head = none := by simpa using h.queue.head
    exact ⟨m, e, [], by simp [LockEntry.wakeReaders, hhead], h, .refl, hup, hbusy⟩
  | cons a q ih =>
    obtain ⟨fuel, rfl⟩ := Nat.exists_eq_succ_of_ne_zero (Nat.ne_of_gt (Nat.zero_lt_of_lt hfuel))
    obtain ⟨w, hw, -⟩ := h.exists_waker (a := a) (by simp)
    by_cases hr : w.targetState = .readLock
    · have hwup := hup a (by simp) w.toWaiter (by simp [Wakers.waiters, hw])
      have hg : Grantable e w.toWaiter := by
        refine ⟨hstate, ?_, fun _ hne => absurd hr hne, ?_⟩
        · rw [hwup]
          simp
        · intro _ hwl
          have hrl : w.toWaiter.targetState = .readLock := hr
          rw [hrl] at hwl
          cases hwl
      obtain ⟨m₁, e₁, hpop, h₁, honly, hup₁, hbusy₁, hstate₁⟩ := h.popAndWake hw hg
      obtain ⟨m', e', r, hrun, h', honly', hup', hbusy'⟩ :=
        ih h₁ (by simpa using hfuel) hup₁ (hstate₁ (by simp [hr])) hbusy₁
      refine ⟨m', e', r, ?_, h', honly.trans honly', hup', hbusy'⟩
      simp [LockEntry.wakeReaders, h.queue.head_eq, hw, hr, hpop, hrun]
    · refine ⟨m, e, a :: q, ?_, h, .refl, hup, hbusy⟩
      simp [LockEntry.wakeReaders, h.queue.head_eq, hw, hr]

end KeyOk

/-- Nobody waits for a key that is not held, and no upgrade for readers that are gone. -/
structure Settled (n : Waiters K) (e : LockEntry) (q : List ℕ) : Prop where
  busy : q ≠ [] → e.Busy
  readers : ∀ a ∈ q, ∀ w, n a = some w → w.isUpgrade = true → 0 < e.readCount

omit [DecidableEq K] in
/-- At the head of the queue, a request that is not allowed waits for a holder. -/
theorem LockEntry.isAllowed_head (m : Wakers K) (e : LockEntry) (target : LockState) :
    ∃ allowed, e.isAllowed m target true = some allowed ∧ (allowed = false → e.Busy) ∧
      (allowed = true → e.state ≠ .writeLock ∧ (target ≠ .readLock → e.state = .readLock) ∧
        (target = .writeLock → e.readCount = 0)) := by
  unfold LockEntry.isAllowed LockEntry.Busy
  cases e.state <;> cases target <;> simp [Nat.pos_iff_ne_zero]

theorem KeyOk.wake {m : Wakers K} {key : K} {e : LockEntry} {q : List ℕ}
    {fuel : ℕ} (h : KeyOk m T key e q) (hfuel : q.length ≤ fuel) :
    ∃ m' e' r, e.wake fuel m = some (m', e') ∧ KeyOk m' T key e' r ∧ OnlyKey key m m' ∧
      Settled m'.waiters e' r ∧ (e.Busy → e'.Busy) := by
  cases q with
  | nil =>
    have hhead : e.head = none := by simpa using h.queue.head
    exact ⟨m, e, [], by simp [LockEntry.wake, hhead], h, .refl, ⟨by simp, by simp⟩, id⟩
  | cons a q =>
    obtain ⟨w, hw, -⟩ := h.exists_waker (a := a) (by simp)
    have hhead := h.queue.head_eq
    have hwn : m.waiters a = some w.toWaiter := by simp [Wakers.waiters, hw]
    have haq : a ∉ q := (List.nodup_cons.mp h.queue.nodup).1
    have htail := h.core.not_upgrade_of_mem_tail haq
    -- Only the head of the queue can be an upgrade, so it decides what is left waiting.
    have hstay : e.Busy → (w.isUpgrade = true → 0 < e.readCount) →
        Settled m.waiters e (a :: q) := by
      intro hbusy hreaders
      refine ⟨fun _ => hbusy, fun b hb v hv hvup => ?_⟩
      rcases List.mem_cons.mp hb with rfl | hb
      · rw [hwn] at hv
        cases hv
        exact hreaders hvup
      · rw [htail b hb v hv] at hvup
        cases hvup
    by_cases hwl : e.state = .writeLock
    · refine ⟨m, e, a :: q, by simp [LockEntry.wake, hhead, hwl], h, .refl, ?_, id⟩
      refine hstay (.inr (by simp [hwl])) fun hup => ?_
      have hlocked := (h.core.upgrade a (by simp) _ hwn hup).2
      rw [hwl] at hlocked
      cases hlocked
    -- What the head waits for is decided by its kind.
    obtain ⟨proceed, hproceed, hwait, hgrant⟩ : ∃ proceed,
        e.canWake m w = some proceed ∧
        (proceed = false → e.Busy ∧ (w.isUpgrade = true → 0 < e.readCount)) ∧
        (proceed = true → Grantable e w.toWaiter) := by
      cases hup : w.isUpgrade with
      | true =>
        have htarget := h.tasks.upgrade_target h.core (mem_cons_self) hwn hup
        refine ⟨e.readCount == 0, by simp [LockEntry.canWake, hup], fun hne => ?_, fun he => ?_⟩
        · have hpos : 0 < e.readCount := Nat.pos_of_ne_zero (by simpa using hne)
          exact ⟨.inl hpos, fun _ => hpos⟩
        · have hzero : e.readCount = 0 := by simpa using he
          refine ⟨hwl, fun _ => ⟨hzero, htarget⟩, fun hno => ?_, fun hno => ?_⟩ <;>
            simp [LockWaker.toWaiter, hup] at hno
      | false =>
        obtain ⟨allowed, hallowed, hbusy, hok⟩ := e.isAllowed_head m w.targetState
        refine ⟨allowed, by simpa [LockEntry.canWake, hup] using hallowed,
          fun hno => ⟨hbusy hno, by simp⟩, fun hyes => ?_⟩
        obtain ⟨-, hlock, hwrite⟩ := hok hyes
        refine ⟨hwl, fun hyes => ?_, fun _ => hlock, fun _ => hwrite⟩
        simp [LockWaker.toWaiter, hup] at hyes
    cases proceed with
    | false =>
      refine ⟨m, e, a :: q, ?_, h, .refl, hstay (hwait rfl).1 (hwait rfl).2, id⟩
      simp only [LockEntry.wake, hhead, if_neg hwl, hw, bind_eq_bind, bind_some,
        hproceed, Bool.false_eq_true, if_false]
    | true =>
      obtain ⟨m₁, e₁, hpop, h₁, honly, hup₁, hbusy₁, hstate₁⟩ := h.popAndWake hw (hgrant rfl)
      by_cases htarget : w.targetState = .writeLock
      · refine ⟨m₁, e₁, q, ?_, h₁, honly, ⟨fun _ => hbusy₁, fun b hb v hv hvup => ?_⟩,
          fun _ => hbusy₁⟩
        · simp only [LockEntry.wake, hhead, if_neg hwl, hw, bind_eq_bind,
            bind_some, hproceed, if_true, hpop, if_pos htarget]
        · rw [hup₁ b hb v hv] at hvup
          cases hvup
      · obtain ⟨m', e', r, hrun, h', honly', hup', hbusy'⟩ :=
          h₁.wakeReaders (Nat.lt_of_succ_le hfuel) hup₁ (hstate₁ htarget) hbusy₁
        refine ⟨m', e', r, ?_, h', honly.trans honly',
          ⟨fun _ => hbusy', fun b hb v hv hvup => ?_⟩, fun _ => hbusy'⟩
        · simp only [LockEntry.wake, hhead, if_neg hwl, hw, bind_eq_bind,
            bind_some, hproceed, if_true, hpop, if_neg htarget, hrun]
        · rw [hup' b hb v hv] at hvup
          cases hvup

end Smos.Fxfs.LockManager
