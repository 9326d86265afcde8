import Smos.Fxfs.LockManagerRun

/-!
Safety of the lock manager: in every state that any interleaving of lock
requests, commits, downgrades, cancellations and drops leads to, the locks on a
key exclude each other and nobody waits for a key that is free.
-/
namespace Smos.Fxfs.LockManager

open LockManager.Task Option List

variable {K : Type}

namespace Inv

variable [DecidableEq K] {L L' : Locks K} {A B : List (Task K)} {t t' : Task K} {key : K} {a : ℕ}

section

variable (h : Inv L (A ++ t :: B))
include h

/-- A poll of a task's waker: once woken, the task goes on with what the waker was for. -/
theorem poll (t' : Task K) (hta : t.waiter = some a)
    (htarget : t'.target = t.target) (hw : t'.waiter = none)
    (hok : ∀ w, L.wakers.waiters a = some w → t'.Ok L.wakers.waiters)
    (hlocks : ∀ k w, L.wakers.waiters a = some w → w.waker = .woken →
      t'.locks L.wakers.waiters k = t.locks L.wakers.waiters k) :
    ∃ L' ready, L.poll a = some (L', ready) ∧
      Inv L' (A ++ (if ready then t' else t) :: B) := by
  obtain ⟨v, hv, -⟩ := (h.tasks.ok t (by simp)).waiter hta
  obtain ⟨w, hwa, rfl⟩ := Wakers.waiters_eq_some.mp hv
  by_cases hwoken : w.waker = .woken
  · refine ⟨L.free a, true, by simp [Locks.poll, hwa, hwoken], ?_⟩
    have hinv : Inv L (A ++ t' :: B) := by
      refine h.replace htarget (hok _ hv) hw (fun k => hlocks k _ hv hwoken) fun b u hb hu => ?_
      rw [← some.inj (hta.symm.trans hb), hv] at hu
      cases hu
      exact hwoken
    refine hinv.free ?_
    have hnd := h.tasks.nodup
    simp only [waitersOf_append, waitersOf_cons, hta, toList_some,
      singleton_append] at hnd
    simpa [hw] using (nodup_cons.mp (nodup_middle.mp hnd)).1
  · refine ⟨{ L with wakers := Function.update L.wakers a (some { w with waker := .registered }) },
      false, ?_, by simpa using h.register hwa hwoken⟩
    simp [Locks.poll, hwa, hwoken, Wakers.modify_eq hwa]

/-- A future of `lock` goes on without a panic. -/
theorem run_locking {todo : List K} {waiter : Option ℕ} (hphase : t.phase = .locking todo waiter) :
    ∃ L' t', t.run L = some (L', t') ∧ Inv L' (A ++ t' :: B) := by
  cases h.tasks.ok t (by simp) with
  | held h' | preparing _ h' | prepareWait _ _ _ _ h' =>
    rw [hphase] at h'
    cases h'
  | locking todo' h' =>
    cases todo' with
    | nil =>
      refine ⟨L, { t with phase := .held }, by simp [run, h'], ?_⟩
      refine h.replace rfl (.held rfl) rfl (fun k => ?_) fun a w ha => ?_
      · simp [locks, Task.waiter, h']
      · simp [Task.waiter, h'] at ha
    | cons key todo' =>
      rcases h.lockKey h' with ⟨L', hlock, hinv⟩ | ⟨L', a, hlock, hinv⟩
      · exact ⟨L', _, by simp [run, h', hlock], hinv⟩
      · exact ⟨L', _, by simp [run, h', hlock], hinv⟩
  | lockWait key todo' a waker h' hn =>
    have hta : t.waiter = some a := by simp [Task.waiter, h']
    obtain ⟨L', ready, hpoll, hinv⟩ := h.poll
      { t with lockKeys := t.lockKeys ++ [key], phase := .locking todo' none } hta rfl rfl
      (fun _ _ => .locking todo' rfl) fun k w hw hwoken => by
        rw [hn] at hw
        cases hw
        have hwk : waker = .woken := hwoken
        simp [locks, Task.waiter, h', hn, hwk, count_singleton]
    refine ⟨L', _, ?_, hinv⟩
    cases ready <;> simp [run, h', hpoll]

/-- `commit_prepare` goes on, unless it finds its key in the state `WriteLock`. -/
theorem run_preparing {todo : List K} {waiter : Option ℕ}
    (hphase : t.phase = .preparing todo waiter) (hrun : t.run L = some (L', t')) :
    Inv L' (A ++ t' :: B) := by
  cases h.tasks.ok t (by simp) with
  | held h' | locking _ h' | lockWait _ _ _ _ h' =>
    rw [hphase] at h'
    cases h'
  | preparing todo' h' htarget hkeys =>
    cases todo' with
    | nil =>
      simp only [run, h', some.injEq, Prod.mk.injEq] at hrun
      obtain ⟨rfl, rfl⟩ := hrun
      refine h.replace rfl (.held rfl) rfl (fun k => ?_) fun a w ha => ?_
      · simp [locks, Task.waiter, h']
      · simp [Task.waiter, h'] at ha
    | cons key todo' =>
      obtain ⟨e, he, -, hprep⟩ := h.prepareKey h'
      by_cases hlocked : e.state = .locked
      · rcases hprep hlocked with ⟨L₁, hkey, hinv⟩ | ⟨L₁, a, hkey, hinv⟩
        all_goals
          simp only [run, h', hkey, bind_eq_bind, bind_some, some.injEq, Prod.mk.injEq] at hrun
          obtain ⟨rfl, rfl⟩ := hrun
          exact hinv
      · simp [run, h', Locks.prepareKey, he, hlocked] at hrun
  | prepareWait key todo' a waker h' htarget hkeys hn =>
    have hta : t.waiter = some a := by simp [Task.waiter, h']
    obtain ⟨L₁, ready, hpoll, hinv⟩ := h.poll { t with phase := .preparing todo' none }
      hta rfl rfl (fun _ _ => .preparing todo' rfl htarget fun k hk => hkeys (by simp [hk]))
      fun k w hw _ => by
        rw [hn] at hw
        cases hw
        simp [locks, Task.waiter, h', hn]
    cases ready <;>
    · simp only [run, h', hpoll, bind_eq_bind, bind_some, if_true,
        Bool.false_eq_true, if_false, some.injEq, Prod.mk.injEq] at hrun
      obtain ⟨rfl, rfl⟩ := hrun
      exact hinv

/-- Whatever a task does next, the invariant holds afterwards. -/
theorem act {op : Op} (hact : t.act L op = some (L', t')) :
    Inv L' (A ++ t' :: B) := by
  cases op with
  | run =>
    cases hphase : t.phase with
    | held => simp [Task.act, Task.run, hphase] at hact
    | locking todo waiter =>
      obtain ⟨L₁, t₁, hrun, hinv⟩ := h.run_locking hphase
      rw [Task.act, hrun] at hact
      cases hact
      exact hinv
    | preparing todo waiter => exact h.run_preparing hphase hact
  | cancel =>
    obtain ⟨L₁, hcancel, hinv⟩ := h.cancel
    rw [Task.act, hcancel] at hact
    cases hact
    exact hinv
  | commitPrepare =>
    simp only [Task.act, Task.commitPrepare, ite_none_right_eq_some, some.injEq,
      Prod.mk.injEq] at hact
    obtain ⟨⟨hheld, htarget⟩, rfl, rfl⟩ := hact
    refine h.replace rfl (.preparing _ rfl htarget (List.Subset.refl _)) rfl (fun k => ?_)
      fun a w ha => ?_
    · simp [Task.locks, Task.waiter, hheld]
    · simp [Task.waiter, hheld] at ha
  | downgradeLocks =>
    simp only [Task.act, Task.downgradeLocks, ite_none_right_eq_some] at hact
    obtain ⟨⟨hheld, htarget⟩, hrun⟩ := hact
    obtain ⟨L₁, hdown, heq⟩ := bind_eq_some_iff.mp hrun
    cases heq
    exact h.downgradeLocks hheld htarget (List.Subset.refl _) hdown
  | drop =>
    by_cases hheld : t.phase = .held
    · obtain ⟨L₁, hdrop, hinv⟩ := h.drop hheld
      rw [Task.act, hdrop] at hact
      cases hact
      exact hinv
    · simp [Task.act, Task.drop, hheld] at hact

end

end Inv

namespace System

variable [LinearOrder K] {s s' : System K}

theorem inv_new : Inv (Locks.new : Locks K) [] :=
  ⟨⟨nodup_nil, by simp⟩, by simp [waitersOf],
    fun _ => .vacant rfl rfl rfl (by simp [waitersOf])⟩

/-- A new request holds nothing and waits for nothing yet. -/
theorem inv_lock (h : Inv s.locks s.tasks) (target : LockState) (lockKeys : List K) :
    Inv s.locks (s.tasks ++ [Task.lock target lockKeys]) := by
  have hw : (Task.lock target lockKeys).waiter = none := rfl
  have hlocks : ∀ n k, (Task.lock target lockKeys).locks n k = 0 := fun n k => by
    simp [Task.locks, Task.lock, Task.waiter]
  have hwaiters : waitersOf (s.tasks ++ [Task.lock target lockKeys]) = waitersOf s.tasks := by
    simp [hw, waitersOf]
  have hreads : ∀ k, reads s.locks.wakers.waiters k (s.tasks ++ [Task.lock target lockKeys]) =
      reads s.locks.wakers.waiters k s.tasks := fun k => by
    simp [reads, Task.readLocks, hlocks]
  have hwrites : ∀ k, writes s.locks.wakers.waiters k (s.tasks ++ [Task.lock target lockKeys]) =
      writes s.locks.wakers.waiters k s.tasks := fun k => by
    simp [writes, Task.writeLocks, hlocks]
  have hT : TasksOk s.locks.wakers.waiters (s.tasks ++ [Task.lock target lockKeys]) := by
    exact ⟨hwaiters ▸ h.tasks.nodup,
      forall_mem_append.mpr ⟨h.tasks.ok, forall_mem_singleton.mpr (.locking _ rfl)⟩⟩
  have hun : Unseen (fun _ => True) s.locks.wakers s.tasks s.locks.wakers
      (s.tasks ++ [Task.lock target lockKeys]) :=
    ⟨fun k _ => hreads k, fun k _ => hwrites k, fun a w _ => by rw [hwaiters]⟩
  exact ⟨hT, by rw [hwaiters]; exact h.fresh, fun k => hun.keyInv trivial rfl hT (h.keys k)⟩

theorem inv_step {a : Action K} (h : Inv s.locks s.tasks) (hstep : s.step a = some s') :
    Inv s'.locks s'.tasks := by
  cases a with
  | lock target lockKeys =>
    cases hstep
    exact inv_lock h target lockKeys
  | act i op =>
    obtain ⟨t, ht, hrest⟩ := bind_eq_some_iff.mp hstep
    obtain ⟨⟨L', t'⟩, hact, heq⟩ := bind_eq_some_iff.mp hrest
    cases heq
    obtain ⟨hi, rfl⟩ := List.getElem?_eq_some_iff.mp ht
    have hsplit : s.tasks = s.tasks.take i ++ s.tasks[i] :: s.tasks.drop (i + 1) := by
      rw [← List.drop_eq_getElem_cons hi, List.take_append_drop]
    rw [List.set_eq_take_append_cons_drop, if_pos hi]
    rw [hsplit] at h
    exact h.act hact

theorem Reachable.inv (h : s.Reachable) : Inv s.locks s.tasks := by
  induction h with
  | new => exact inv_new
  | step a _ hstep ih => exact inv_step ih hstep

def readLocks (s : System K) (key : K) : ℕ := reads s.locks.wakers.waiters key s.tasks

def writeLocks (s : System K) (key : K) : ℕ := writes s.locks.wakers.waiters key s.tasks

def Waits (s : System K) (key : K) (t : Task K) (a : ℕ) : Prop :=
  t ∈ s.tasks ∧ t.waiter = some a ∧
    ∃ w, s.locks.wakers a = some w ∧ w.key = key ∧ w.waker ≠ .woken

/-- A waiting future can be dropped at any time, a guard can be dropped whenever it
is complete, and a future of `lock` can always go on: none of them panics. -/
theorem Reachable.not_stuck (h : s.Reachable) {t : Task K} (ht : t ∈ s.tasks) :
    (t.cancel s.locks).isSome ∧ (t.phase = .held → (t.drop s.locks).isSome) ∧
      ∀ todo waiter, t.phase = .locking todo waiter → (t.run s.locks).isSome := by
  have hinv := h.inv
  obtain ⟨A, B, hsplit⟩ := append_of_mem ht
  rw [hsplit] at hinv
  refine ⟨?_, fun hheld => ?_, fun todo waiter hphase => ?_⟩
  · obtain ⟨L', hcancel, -⟩ := hinv.cancel
    rw [hcancel]
    rfl
  · obtain ⟨L', hdrop, -⟩ := hinv.drop hheld
    rw [hdrop]
    rfl
  · obtain ⟨L', t', hrun, -⟩ := hinv.run_locking hphase
    rw [hrun]
    rfl

/-- A writer holds the key that a reader waits for. -/
theorem Reachable.not_stuck_lock : ∃ (s : System ℕ) (writer reader : Task ℕ),
    s.tasks = [writer, reader] ∧ writer.phase = .held ∧ reader.phase = .locking [7] (some 0) ∧
    (writer.drop s.locks).isSome ∧ (reader.cancel s.locks).isSome ∧
    (reader.run s.locks).isSome := by
  have hheld := (((Reachable.new (K := ℕ)).step (.lock .writeLock [7]) rfl).step
    (.act 0 .run) rfl).step (.act 0 .run) rfl
  have hwaits := (hheld.step (.lock .readLock [7]) rfl).step (.act 1 .run) rfl
  have hreader := hwaits.not_stuck (mem_cons_of_mem _ mem_cons_self)
  exact ⟨_, _, _, rfl, rfl, rfl, (hwaits.not_stuck mem_cons_self).2.1 rfl, hreader.1,
    hreader.2.2 _ _ rfl⟩

theorem Reachable.lock_safety (h : s.Reachable) (key : K) :
    s.writeLocks key ≤ 1 ∧
    (s.locks.keys key = none →
      s.readLocks key = 0 ∧ s.writeLocks key = 0 ∧ ∀ t a, ¬s.Waits key t a) ∧
    ∀ e, s.locks.keys key = some e →
      e.readCount = s.readLocks key ∧
      (s.writeLocks key = if e.state = .readLock then 0 else 1) ∧
      (e.state = .writeLock → s.readLocks key = 0) ∧
      ∃ q, Queue s.locks.wakers e q ∧
        (∀ a, a ∈ q ↔ ∃ t, s.Waits key t a) ∧
        (q ≠ [] → 0 < e.readCount ∨ e.state = .locked ∨ e.state = .writeLock) ∧
        ∀ a ∈ q, ∀ w, s.locks.wakers a = some w → w.isUpgrade = true →
          e.state = .locked ∧ 0 < e.readCount ∧
          ∃ t, s.Waits key t a ∧ t.target ≠ .readLock ∧ key ∈ t.lockKeys := by
  have hinv := h.inv
  have hwaits : ∀ t a, s.Waits key t a ↔ t ∈ s.tasks ∧ t.waiter = some a ∧
      ∃ v, s.locks.wakers.waiters a = some v ∧ v.key = key ∧ v.waker ≠ .woken := by
    intro t a
    refine and_congr_right fun _ => and_congr_right fun _ => ⟨?_, ?_⟩
    · rintro ⟨w, hw, hkey, hwoken⟩
      exact ⟨w.toWaiter, by simp [Wakers.waiters, hw], hkey, hwoken⟩
    · rintro ⟨v, hv, hkey, hwoken⟩
      obtain ⟨w, hw, rfl⟩ := Wakers.waiters_eq_some.mp hv
      exact ⟨w, hw, hkey, hwoken⟩
  cases hinv.keys key with
  | vacant hkey hreads hwrites hwaiters =>
    refine ⟨Nat.le_of_eq hwrites |>.trans (by omega), fun _ => ⟨hreads, hwrites, ?_⟩, ?_⟩
    · intro t a hta
      obtain ⟨ht, ha, v, hv, hvkey, -⟩ := (hwaits t a).mp hta
      exact hwaiters a (mem_waitersOf.mpr ⟨t, ht, ha⟩) v hv hvkey
    · intro e he
      rw [hkey] at he
      cases he
  | occupied e q hkey hk hs hbusy =>
    have hwrites := hk.core.writes
    refine ⟨?_, fun hnone => ?_, fun e' he' => ?_⟩
    · unfold writeLocks
      rw [hwrites]
      split <;> omega
    · rw [hkey] at hnone
      cases hnone
    · have hee : e = e' := some.inj (hkey.symm.trans he')
      subst hee
      refine ⟨hk.core.reads, hwrites, fun hwl => ?_, q, hk.queue, fun a => ?_, fun _ => ?_, ?_⟩
      · exact hk.core.reads.symm.trans (hk.core.exclusive hwl)
      · rw [hk.core.mem a, mem_waitersOf]
        simp only [hwaits]
        constructor
        · rintro ⟨⟨t, ht, ha⟩, hv⟩
          exact ⟨t, ht, ha, hv⟩
        · rintro ⟨t, ht, ha, hv⟩
          exact ⟨⟨t, ht, ha⟩, hv⟩
      · rcases hbusy with hb | hb
        · exact .inl hb
        · cases hst : e.state with
          | readLock => exact absurd hst hb
          | locked => exact .inr (.inl rfl)
          | writeLock => exact .inr (.inr rfl)
      · intro a ha w hw hup
        have hwn : s.locks.wakers.waiters a = some w.toWaiter := by simp [Wakers.waiters, hw]
        obtain ⟨haT, v, hv, hvkey, hvwoken⟩ := (hk.core.mem a).mp ha
        refine ⟨(hk.core.upgrade a ha _ hwn hup).2, hs.readers a ha _ hwn hup, ?_⟩
        obtain ⟨t, ht, hta⟩ := mem_waitersOf.mp haT
        obtain ⟨u, hu, hkind⟩ := (hinv.tasks.ok t ht).waiter hta
        rw [hwn] at hu hv
        cases hu
        cases hv
        rcases hkind with ⟨hno, -⟩ | ⟨-, -, htarget, hkeyt⟩
        · exact absurd (hno.symm.trans hup) (by simp)
        · exact ⟨t, (hwaits t a).mpr ⟨ht, hta, _, hwn, hvkey, hvwoken⟩, htarget, hvkey ▸ hkeyt⟩

/-- A reader, and a transaction that holds the key beside it and waits to commit. -/
theorem Reachable.lock_safety_upgrade_waits :
    ∃ s : System ℕ, s.Reachable ∧
      s.locks.keys 7 = some ⟨1, .locked, some 0, some 0⟩ ∧ s.writeLocks 7 ≤ 1 ∧
      ∀ e, s.locks.keys 7 = some e → e.readCount = s.readLocks 7 := by
  have hreach := ((((((Reachable.new (K := ℕ)).step (.lock .readLock [7]) rfl).step
    (.act 0 .run) rfl).step (.lock .locked [7]) rfl).step (.act 1 .run) rfl).step
    (.act 1 .run) rfl).step (.act 1 .commitPrepare) rfl |>.step (.act 1 .run) rfl
  exact ⟨_, hreach, rfl, (hreach.lock_safety 7).1,
    fun e he => ((hreach.lock_safety 7).2.2 e he).1⟩

end System

end Smos.Fxfs.LockManager
