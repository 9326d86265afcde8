import Smos.Fxfs.LockManagerStep

/-!
The lock manager under any interleaving: what a task does next keeps the
invariant, whether it runs, is cancelled, commits or lets go of its guard.
-/
namespace Smos.Fxfs.LockManager

open LockManager.Task Wakers Function Option LockWaker
open List hiding drop

variable {K : Type}

namespace Inv

variable [DecidableEq K] {L L' : Locks K} {T A B : List (Task K)} {t t' : Task K} {key : K} {a : ℕ}

/-- A task moves on without a change of its locks, with the waker it was woken
by behind it. -/
theorem replace (h : Inv L (A ++ t :: B)) (htarget : t'.target = t.target)
    (hok : t'.Ok L.wakers.waiters) (hw : t'.waiter = none)
    (hlocks : ∀ k, t'.locks L.wakers.waiters k = t.locks L.wakers.waiters k)
    (hwoken : ∀ a w, t.waiter = some a → L.wakers.waiters a = some w → w.waker = .woken) :
    Inv L (A ++ t' :: B) := by
  have hT := h.tasks.replace hok hw
  have hreads : ∀ k, reads L.wakers.waiters k (A ++ t' :: B) =
      reads L.wakers.waiters k (A ++ t :: B) := fun k => by
    simp only [reads_append, reads_cons, readLocks, htarget, hlocks]
  have hwrites : ∀ k, writes L.wakers.waiters k (A ++ t' :: B) =
      writes L.wakers.waiters k (A ++ t :: B) := fun k => by
    simp only [writes_append, writes_cons, writeLocks, htarget, hlocks]
  refine ⟨hT, h.fresh_replace hw, fun k => ?_⟩
  cases h.keys k with
  | vacant hk hr hwr hwaiters =>
    exact .vacant hk ((hreads k).trans hr) ((hwrites k).trans hwr)
      fun a ha => hwaiters a (mem_waitersOf_replace hw ha)
  | occupied e q hkey hk hs hbusy =>
    refine .occupied e q hkey ⟨hT, hk.queue, hk.core.mem_replace hw hwoken, ?_, ?_,
      hk.core.exclusive, hk.core.upgrade, ?_⟩ hs hbusy
    · rw [hreads k, hk.core.reads]
    · rw [hwrites k, hk.core.writes]
    · exact fun a ha => hk.core.upgraded a (mem_waitersOf_replace hw ha)

end Inv

structure SameWoken (n n' : Waiters K) : Prop where
  forth : ∀ b u, n b = some u →
    ∃ waker, n' b = some { u with waker } ∧ (waker = .woken ↔ u.waker = .woken)
  back : ∀ b v, n' b = some v →
    ∃ waker, n b = some { v with waker } ∧ (waker = .woken ↔ v.waker = .woken)

theorem sameWoken_register {m : Wakers K} {a : ℕ} {w : LockWaker K} (ha : m a = some w)
    (hwoken : w.waker ≠ .woken) :
    SameWoken m.waiters
      (Wakers.waiters (update m a (some { w with waker := WakerState.registered }))) := by
  constructor
  all_goals
    intro b u hu
    by_cases hb : b = a
    · subst hb
      obtain ⟨x, hx, rfl⟩ := waiters_eq_some.mp hu
      simp only [ha, update_self, some.injEq] at hx
      subst hx
      simp [waiters, ha, toWaiter, hwoken]
    · exact ⟨u.waker, by simpa [waiters, hb] using hu, Iff.rfl⟩

namespace SameWoken

variable [DecidableEq K] {n n' : Waiters K} {T : List (Task K)} {key : K} {e : LockEntry}
  {q : List ℕ} (h : SameWoken n n')
include h

theorem locks_eq (t : Task K) (key : K) : t.locks n' key = t.locks n key := by
  have hiff : (∃ w ∈ t.waiter.bind n', w.key = key ∧ w.waker = .woken ∧ w.isUpgrade = false) ↔
      ∃ w ∈ t.waiter.bind n, w.key = key ∧ w.waker = .woken ∧ w.isUpgrade = false := by
    constructor
    · rintro ⟨v, hv, hkey, hwoken, hup⟩
      obtain ⟨b, hb, hv⟩ := bind_eq_some_iff.mp hv
      obtain ⟨waker, hu, hsame⟩ := h.back b v hv
      exact ⟨_, bind_eq_some_iff.mpr ⟨b, hb, hu⟩, hkey, hsame.mpr hwoken, hup⟩
    · rintro ⟨u, hu, hkey, hwoken, hup⟩
      obtain ⟨b, hb, hu⟩ := bind_eq_some_iff.mp hu
      obtain ⟨waker, hv, hsame⟩ := h.forth b u hu
      exact ⟨_, bind_eq_some_iff.mpr ⟨b, hb, hv⟩, hkey, hsame.mpr hwoken, hup⟩
  simp only [locks, hiff]

theorem reads_eq (key : K) : reads n' key T = reads n key T :=
  reads_of_locks fun t _ => h.locks_eq t key

theorem writes_eq (key : K) : writes n' key T = writes n key T :=
  writes_of_locks fun t _ => h.locks_eq t key

omit [DecidableEq K] in
theorem tasksOk (hT : TasksOk n T) : TasksOk n' T := by
  refine ⟨hT.nodup, fun t ht => (hT.ok t ht).mono fun b u _ hu => ?_⟩
  obtain ⟨waker, hv, -⟩ := h.forth b u hu
  exact ⟨waker, hv⟩

theorem core (hcore : Core n T key e q) : Core n' T key e q := by
  refine ⟨?_, hcore.reads.trans (h.reads_eq key).symm, (h.writes_eq key).trans hcore.writes,
    hcore.exclusive, ?_, ?_⟩
  · intro b
    rw [hcore.mem b]
    refine and_congr_right fun _ => ⟨?_, ?_⟩
    · rintro ⟨u, hu, hkey, hwoken⟩
      obtain ⟨waker, hv, hsame⟩ := h.forth b u hu
      exact ⟨_, hv, hkey, fun hw => hwoken (hsame.mp hw)⟩
    · rintro ⟨v, hv, hkey, hwoken⟩
      obtain ⟨waker, hu, hsame⟩ := h.back b v hv
      exact ⟨_, hu, hkey, fun hw => hwoken (hsame.mp hw)⟩
  · intro b hb v hv hup
    obtain ⟨waker, hu, -⟩ := h.back b v hv
    exact hcore.upgrade b hb _ hu hup
  · intro b hb v hv hkey hwoken hup
    obtain ⟨waker, hu, hsame⟩ := h.back b v hv
    exact hcore.upgraded b hb _ hu hkey (hsame.mpr hwoken) hup

end SameWoken

namespace Inv

variable [DecidableEq K] {L L' : Locks K} {T A B : List (Task K)} {t t' : Task K} {key : K} {a : ℕ}

/-- A poll leaves its waker to be woken. -/
theorem register {w : LockWaker K} (h : Inv L T) (ha : L.wakers a = some w)
    (hwoken : w.waker ≠ .woken) :
    Inv { L with wakers := update L.wakers a (some { w with waker := .registered }) }
      T := by
  have hsame := sameWoken_register ha hwoken
  have hT := hsame.tasksOk h.tasks
  refine ⟨hT, h.fresh, fun k => ?_⟩
  cases h.keys k with
  | vacant hk hr hwr hwaiters =>
    refine .vacant hk ((hsame.reads_eq k).trans hr) ((hsame.writes_eq k).trans hwr)
      fun b hb v hv hvkey => ?_
    obtain ⟨waker, hu, -⟩ := hsame.back b v hv
    exact hwaiters b hb _ hu hvkey
  | occupied e q hkey hk hs hbusy =>
    refine .occupied e q hkey ⟨hT, hk.queue.congr_links ?_ ?_ ?_, hsame.core hk.core⟩
      ⟨hs.busy, ?_⟩ hbusy
    · intro b _
      by_cases hb : b = a
      · subst hb
        simp [Wakers.next, ha]
      · simp [Wakers.next, hb]
    · intro b _
      by_cases hb : b = a
      · subst hb
        simp [Wakers.prev, ha]
      · simp [Wakers.prev, hb]
    · intro b hbq
      by_cases hb : b = a
      · subst hb
        simp
      · simpa [hb] using hk.queue.alive b hbq
    · intro b hb v hv hup
      obtain ⟨waker, hu, -⟩ := hsame.back b v hv
      exact hs.readers b hb _ hu hup

end Inv

structure StartsWaiting (n n' : Waiters K) (A B : List (Task K)) (t t' : Task K) (a : ℕ)
    (v : Waiter K) : Prop where
  waiter_old : t.waiter = none
  waiter_new : t'.waiter = some a
  target : t'.target = t.target
  lockKeys : t'.lockKeys = t.lockKeys
  fresh : a ∉ waitersOf (A ++ t :: B)
  waiters : n' = update n a (some v)
  pending : v.waker = .pending

namespace StartsWaiting

variable {n n' : Waiters K} {A B : List (Task K)} {t t' : Task K} {a : ℕ} {v : Waiter K}
  (h : StartsWaiting n n' A B t t' a v)
include h

theorem mem_waitersOf {b : ℕ} :
    b ∈ waitersOf (A ++ t' :: B) ↔ b = a ∨ b ∈ waitersOf (A ++ t :: B) := by
  simp only [waitersOf_append, waitersOf_cons, h.waiter_old, h.waiter_new, toList_some,
    toList_none, nil_append, singleton_append, mem_append, mem_cons]
  tauto

theorem waiters_self : n' a = some v := by
  rw [h.waiters, update_self]

theorem waiters_of_ne {b : ℕ} (hb : b ≠ a) : n' b = n b := by
  rw [h.waiters, update_of_ne hb]

theorem waiters_of_mem {b : ℕ} (hb : b ∈ waitersOf (A ++ t :: B)) : n' b = n b :=
  h.waiters_of_ne (ne_of_mem_of_not_mem hb h.fresh)

theorem tasksOk (hT : TasksOk n (A ++ t :: B)) (hok : t'.Ok n') : TasksOk n' (A ++ t' :: B) := by
  constructor
  · have hnd := hT.nodup
    have hfresh := h.fresh
    simp only [waitersOf_append, waitersOf_cons, h.waiter_old, h.waiter_new, toList_some,
      toList_none, nil_append, singleton_append] at hnd hfresh ⊢
    exact nodup_middle.mpr (nodup_cons.mpr ⟨hfresh, hnd⟩)
  · have hmono : ∀ s ∈ A ++ t :: B, s.Ok n' := fun s hs =>
      (hT.ok s hs).mono fun b w hb hwb =>
        ⟨w.waker, by rw [h.waiters_of_mem (LockManager.mem_waitersOf.mpr ⟨s, hs, hb⟩), hwb]⟩
    simp only [forall_mem_append, forall_mem_cons] at hmono ⊢
    exact ⟨hmono.1, hok, hmono.2.2⟩

variable [DecidableEq K]

theorem locks_eq (key : K) : t'.locks n' key = t.locks n key := by
  simp [locks, h.waiter_new, h.waiter_old, h.waiters_self, h.pending, h.lockKeys]

theorem reads_eq (key : K) : reads n' key (A ++ t' :: B) = reads n key (A ++ t :: B) := by
  have hA := @reads_congr K _ n n' key A fun b hb => h.waiters_of_mem (by simp [hb])
  have hB := @reads_congr K _ n n' key B fun b hb => h.waiters_of_mem (by simp [hb])
  simp only [reads_append, reads_cons, readLocks, h.target, h.locks_eq, hA, hB]

theorem writes_eq (key : K) : writes n' key (A ++ t' :: B) = writes n key (A ++ t :: B) := by
  have hA := @writes_congr K _ n n' key A fun b hb => h.waiters_of_mem (by simp [hb])
  have hB := @writes_congr K _ n n' key B fun b hb => h.waiters_of_mem (by simp [hb])
  simp only [writes_append, writes_cons, writeLocks, h.target, h.locks_eq, hA, hB]

/-- The entry of the key that the task waits for. -/
theorem core {e e' : LockEntry} {q q' : List ℕ} (hcore : Core n (A ++ t :: B) v.key e q)
    (hq' : ∀ b, b ∈ q' ↔ b = a ∨ b ∈ q)
    (hreads : e'.readCount = e.readCount) (hstate : e'.state = e.state)
    (hup : ∀ b ∈ q', ∀ w, n' b = some w → w.isUpgrade = true →
      q'.head? = some b ∧ e.state = .locked) :
    Core n' (A ++ t' :: B) v.key e' q' := by
  refine ⟨?_, ?_, ?_, ?_, ?_, ?_⟩
  · intro b
    rw [hq' b, h.mem_waitersOf]
    by_cases hb : b = a
    · subst hb
      simp [h.waiters_self, h.pending]
    · simp only [hb, false_or, h.waiters_of_ne hb]
      exact hcore.mem b
  · rw [h.reads_eq, hreads, hcore.reads]
  · rw [h.writes_eq, hstate, hcore.writes]
  · rw [hreads, hstate]
    exact hcore.exclusive
  · rwa [hstate]
  · intro b hb w hwb hwk hwoken hwup
    rw [hstate]
    rcases h.mem_waitersOf.mp hb with rfl | hb
    · rw [h.waiters_self] at hwb
      cases hwb
      rw [h.pending] at hwoken
      cases hwoken
    · exact hcore.upgraded b hb w ((h.waiters_of_mem hb).symm.trans hwb) hwk hwoken hwup

/-- The other keys do not see the new waker. -/
theorem unseen {m m' : Wakers K} {q : List ℕ} (hn : n = m.waiters) (hn' : n' = m'.waiters)
    (hq : ∀ b ∈ q, ∃ u, m b = some u ∧ u.key = v.key)
    (hframe : ∀ b ∉ a :: q, m' b = m b) :
    Unseen (· ≠ v.key) m (A ++ t :: B) m' (A ++ t' :: B) := by
  subst hn hn'
  refine ⟨fun k _ => h.reads_eq k, fun k _ => h.writes_eq k, fun b w hne => ?_⟩
  by_cases hb : b = a
  · subst hb
    refine ⟨fun hm => absurd ?_ hne, fun hm => absurd hm.1 h.fresh⟩
    have hself := h.waiters_self
    simp only [Wakers.waiters, hm.2, map_some, some.injEq] at hself
    rw [← hself]
    rfl
  · rw [h.mem_waitersOf]
    simp only [hb, false_or]
    refine and_congr_right fun _ => ?_
    by_cases hbq : b ∈ q
    · obtain ⟨u, hu, huk⟩ := hq b hbq
      have hkey : ∀ x, m' b = some x ∨ m b = some x → x.key = v.key := by
        rintro x (hx | hx)
        · have hsame := h.waiters_of_ne hb
          simp only [Wakers.waiters, hx, hu, map_some, some.injEq, toWaiter, Waiter.mk.injEq]
            at hsame
          exact hsame.1.trans huk
        · rw [some.inj (hx.symm.trans hu)]
          exact huk
      exact ⟨fun hx => absurd (hkey w (.inl hx)) hne, fun hx => absurd (hkey w (.inr hx)) hne⟩
    · rw [hframe b (by simp [hb, hbq])]

end StartsWaiting

namespace Inv

variable [DecidableEq K] {L L' : Locks K} {T A B : List (Task K)} {t t' : Task K} {key : K} {a : ℕ}

/-- A task starts to wait on a new waker in the key's queue. -/
theorem enqueue {v : Waiter K} {m' : Wakers K} {e e' : LockEntry} {q q' : List ℕ}
    (h : Inv L (A ++ t :: B)) (hk : KeyOk L.wakers (A ++ t :: B) key e q) (hbusy : e.Busy)
    (hw : t.waiter = none) (hqueue : Queue m' e' q')
    (hq' : ∀ b, b ∈ q' ↔ b = L.nextWaker ∨ b ∈ q)
    (hwaiters : m'.waiters = update L.wakers.waiters L.nextWaker (some v))
    (hvkey : v.key = key) (hvwaker : v.waker = .pending)
    (hframe : ∀ b ∉ L.nextWaker :: q, m' b = L.wakers b)
    (hreads : e'.readCount = e.readCount) (hstate : e'.state = e.state)
    (htarget : t'.target = t.target) (hlockKeys : t'.lockKeys = t.lockKeys)
    (hta : t'.waiter = some L.nextWaker) (hok : t'.Ok m'.waiters)
    (hup : ∀ b ∈ q', ∀ w, m'.waiters b = some w → w.isUpgrade = true →
      q'.head? = some b ∧ e.state = .locked ∧ 0 < e.readCount) :
    Inv { L.set key (some e') m' with nextWaker := L.nextWaker + 1 } (A ++ t' :: B) := by
  subst hvkey
  have hwaits : StartsWaiting L.wakers.waiters m'.waiters A B t t' L.nextWaker v :=
    ⟨hw, hta, htarget, hlockKeys, fun hin => (h.fresh _ hin).ne rfl, hwaiters, hvwaker⟩
  have hT := hwaits.tasksOk h.tasks hok
  have hcore := hwaits.core hk.core hq' hreads hstate fun b hb w hwb hwup =>
    ⟨(hup b hb w hwb hwup).1, (hup b hb w hwb hwup).2.1⟩
  have hun := hwaits.unseen rfl rfl (fun b hb => hk.exists_waker hb) hframe
  have hfresh : ∀ b ∈ waitersOf (A ++ t' :: B), b < L.nextWaker + 1 := by
    intro b hb
    rcases hwaits.mem_waitersOf.mp hb with rfl | hb
    · exact Nat.lt_succ_self _
    · exact Nat.lt_succ_of_lt (h.fresh b hb)
  have hbusy' : e'.Busy := by
    unfold LockEntry.Busy
    rwa [hreads, hstate]
  refine h.of_key hT hfresh hun (fun _ hk' => update_of_ne hk' _ _)
    (.occupied e' q' (update_self _ _ _) ⟨hT, hqueue, hcore⟩ ⟨fun _ => hbusy', ?_⟩ hbusy')
  intro b hb w hwb hwup
  rw [hreads]
  exact (hup b hb w hwb hwup).2.2

/-- The lock is granted at once. -/
theorem acquire {e' : LockEntry} {q : List ℕ} (h : Inv L (A ++ t :: B)) (hw : t.waiter = none)
    (htarget : t'.target = t.target) (hlockKeys : t'.lockKeys = t.lockKeys ++ [key])
    (hok : t'.Ok L.wakers.waiters) (hw' : t'.waiter = none) (hqueue : Queue L.wakers e' q)
    (hmem : ∀ a, a ∈ q ↔ a ∈ waitersOf (A ++ t :: B) ∧
      ∃ w, L.wakers.waiters a = some w ∧ w.key = key ∧ w.waker ≠ .woken)
    (hreads : e'.readCount = reads L.wakers.waiters key (A ++ t :: B) +
      if t.target = .readLock then 1 else 0)
    (hwrites : (writes L.wakers.waiters key (A ++ t :: B) +
      if t.target = .readLock then 0 else 1) = if e'.state = .readLock then 0 else 1)
    (hexclusive : e'.state = .writeLock → e'.readCount = 0)
    (hupgrade : ∀ a ∈ q, ∀ w, L.wakers.waiters a = some w → w.isUpgrade = true →
      q.head? = some a ∧ e'.state = .locked ∧ 0 < e'.readCount)
    (hupgraded : ∀ a ∈ waitersOf (A ++ t :: B), ∀ w, L.wakers.waiters a = some w →
      w.key = key → w.waker = .woken → w.isUpgrade = true → e'.state = .writeLock) :
    Inv (L.set key (some e') L.wakers) (A ++ t' :: B) := by
  have hlocks : ∀ k, t'.locks L.wakers.waiters k =
      t.locks L.wakers.waiters k + if k = key then 1 else 0 := by
    intro k
    simp only [locks, hw, hw', hlockKeys, count_append, count_singleton,
      beq_iff_eq, eq_comm (a := key)]
    simp
  have hun : Unseen (· ≠ key) L.wakers (A ++ t :: B) L.wakers (A ++ t' :: B) := by
    refine Unseen.replace htarget (fun k hk => ?_) hw' fun a w ha => ?_
    · simp [hlocks k, hk]
    · simp [hw] at ha
  have hwaiters : waitersOf (A ++ t' :: B) = waitersOf (A ++ t :: B) := by simp [hw, hw']
  have hbusy : e'.Busy := by
    by_cases hr : t.target = .readLock
    · rw [if_pos hr] at hreads
      exact .inl (by omega)
    · rw [if_neg hr] at hwrites
      refine .inr fun hs => ?_
      rw [if_pos hs] at hwrites
      omega
  refine h.set_of_settled (hwaiters ▸ h.fresh) hun ⟨h.tasks.replace hok hw', hqueue,
    by rwa [hwaiters], ?_, ?_, hexclusive, ?_, by rwa [hwaiters]⟩ ⟨fun _ => hbusy, ?_⟩ hbusy
  · rw [hreads]
    simp only [reads_append, reads_cons, readLocks, htarget, hlocks, if_true]
    split <;> omega
  · rw [← hwrites]
    simp only [writes_append, writes_cons, writeLocks, htarget, hlocks, if_true]
    split <;> omega
  · intro a ha w hwa hup
    obtain ⟨hhead, hlocked, -⟩ := hupgrade a ha w hwa hup
    exact ⟨hhead, hlocked⟩
  · exact fun a ha w hwa hup => (hupgrade a ha w hwa hup).2.2

end Inv

/-- Whether a request may go ahead of the queue is always decided. -/
theorem LockEntry.isAllowed_spec {m : Wakers K} {e : LockEntry}
    (halive : ∀ a, e.head = some a → ∃ w, m a = some w) (target : LockState) :
    ∃ allowed, e.isAllowed m target e.head.isNone = some allowed ∧
      (allowed = true → e.state ≠ .writeLock ∧ (target ≠ .readLock → e.state = .readLock) ∧
        (target = .writeLock → e.readCount = 0)) := by
  cases hhead : e.head with
  | none =>
    obtain ⟨allowed, hallowed, -, hyes⟩ := e.isAllowed_head m target
    exact ⟨allowed, hallowed, hyes⟩
  | some a =>
    obtain ⟨w, hw⟩ := halive a hhead
    unfold LockEntry.isAllowed
    cases hs : e.state <;> cases target <;> simp [hhead, hw]

namespace Inv

variable [DecidableEq K] {L L' : Locks K} {T A B : List (Task K)} {t t' : Task K} {key : K} {a : ℕ}

theorem nextWaker_notMem {e : LockEntry} {q : List ℕ} (h : Inv L T)
    (hk : KeyOk L.wakers T key e q) : L.nextWaker ∉ q := by
  intro hq
  have := h.fresh _ ((hk.core.mem _).mp hq).1
  omega

theorem lockKey {todo : List K} (h : Inv L (A ++ t :: B))
    (hphase : t.phase = .locking (key :: todo) none) :
    (∃ L', L.lockKey key t.target = some (L', none) ∧
      Inv L' (A ++ { t with lockKeys := t.lockKeys ++ [key], phase := .locking todo none } :: B)) ∨
    ∃ L' a, L.lockKey key t.target = some (L', some a) ∧
      Inv L' (A ++ { t with phase := .locking (key :: todo) (some a) } :: B) := by
  have hw : t.waiter = none := by simp [waiter, hphase]
  cases h.keys key with
  | vacant hkey hreads hwrites hwaiters =>
    refine .inl ⟨_, by simp only [Locks.lockKey, hkey]; rfl, ?_⟩
    refine h.acquire (q := []) hw rfl rfl (.locking todo rfl) rfl ?_ ?_ ?_ ?_ ?_ ?_ ?_
    · exact ⟨rfl, rfl, trivial, nodup_nil, by simp⟩
    · intro a
      simp only [not_mem_nil, false_iff, not_and, not_exists]
      exact fun ha w hwa hwk => absurd hwk (hwaiters a ha w hwa)
    · rw [hreads]
      simp
    · rw [hwrites]
      simp
    · intro hwl
      have hwl : t.target = .writeLock := hwl
      simp [hwl]
    · simp
    · exact fun a ha w hwa hwk => absurd hwk (hwaiters a ha w hwa)
  | occupied e q hkey hk hs hbusy =>
    have halive : ∀ a, e.head = some a → ∃ w, L.wakers a = some w := fun a ha =>
      hk.queue.alive a (mem_of_mem_head? (hk.queue.head ▸ ha))
    obtain ⟨allowed, hallowed, hyes⟩ := LockEntry.isAllowed_spec halive t.target
    cases allowed with
    | true =>
      obtain ⟨hnw, hlock, hwrite⟩ := hyes rfl
      refine .inl ⟨_, by
        simp only [Locks.lockKey, hkey, hallowed, bind_eq_bind, bind_some, if_true]
        rfl, ?_⟩
      have hnew : ∀ a ∈ q, ∀ w, L.wakers.waiters a = some w → w.isUpgrade = true →
          q.head? = some a ∧ t.target = .readLock ∧ e.state = .locked := by
        intro a ha w hwa hup
        obtain ⟨hhead, hlocked⟩ := hk.core.upgrade a ha w hwa hup
        refine ⟨hhead, ?_, hlocked⟩
        by_contra hr
        rw [hlock hr] at hlocked
        cases hlocked
      refine h.acquire hw rfl rfl (.locking todo rfl) rfl (q := q) ?_ hk.core.mem ?_ ?_ ?_ ?_ ?_
      · refine hk.queue.of_pointers ?_ ?_ <;> split <;> rfl
      · rw [← hk.core.reads]
        split <;> rfl
      · rw [hk.core.writes]
        by_cases hr : t.target = .readLock
        · simp [hr]
        · simp [hr, hlock hr]
      · by_cases hr : t.target = .readLock
        · simpa [hr] using fun hwl => absurd hwl hnw
        · simpa [hr] using hwrite
      · intro a ha w hwa hup
        obtain ⟨hhead, hr, hlocked⟩ := hnew a ha w hwa hup
        simp [hr, hhead, hlocked]
      · intro a ha w hwa hwk hwoken hup
        exact absurd (hk.core.upgraded a ha w hwa hwk hwoken hup) hnw
    | false =>
      have hnq := h.nextWaker_notMem hk
      obtain ⟨m', e', hpush, hqueue, hwaiters, hframe, hreads, hstate⟩ :=
        hk.queue.pushTail hnq key t.target
      refine .inr ⟨_, L.nextWaker, by
        simp only [Locks.lockKey, hkey, hallowed, bind_eq_bind, bind_some,
          Bool.false_eq_true, if_false, hpush]
        rfl, ?_⟩
      refine h.enqueue hk hbusy hw hqueue ?_ hwaiters rfl rfl hframe hreads hstate rfl rfl rfl
        ?_ ?_
      · intro b
        simp [or_comm]
      · exact .lockWait key todo L.nextWaker .pending rfl (by rw [hwaiters, update_self])
      · intro b hb w hwb hup
        rcases mem_append.mp hb with hb | hb
        · have hne := ne_of_mem_of_not_mem hb hnq
          rw [hwaiters, update_of_ne hne] at hwb
          obtain ⟨hhead, hlocked⟩ := hk.core.upgrade b hb w hwb hup
          refine ⟨?_, hlocked, hs.readers b hb w hwb hup⟩
          rw [head?_append, hhead]
          rfl
        · rw [mem_singleton.mp hb, hwaiters, update_self] at hwb
          cases hwb
          cases hup

theorem of_preparing {todo : List K} (h : Inv L (A ++ t :: B))
    (hphase : t.phase = .preparing todo none) : t.target ≠ .readLock ∧ todo ⊆ t.lockKeys := by
  cases h.tasks.ok t (by simp) with
  | preparing todo' h' htarget hkeys =>
    rw [hphase] at h'
    cases h'
    exact ⟨htarget, hkeys⟩
  | held h' | locking _ h' | lockWait _ _ _ _ h' | prepareWait _ _ _ _ h' =>
    rw [hphase] at h'
    cases h'

/-- `commit_prepare` finds the key in its transaction's hands; unless that has
the key exclusively already, which panics, it takes it over or waits. -/
theorem prepareKey {todo : List K} (h : Inv L (A ++ t :: B))
    (hphase : t.phase = .preparing (key :: todo) none) :
    ∃ e, L.keys key = some e ∧ e.state ≠ .readLock ∧ (e.state = .locked →
      (∃ L', L.prepareKey key = some (L', none) ∧
        Inv L' (A ++ { t with phase := .preparing todo none } :: B)) ∨
      ∃ L' a, L.prepareKey key = some (L', some a) ∧
        Inv L' (A ++ { t with phase := .preparing (key :: todo) (some a) } :: B)) := by
  have hw : t.waiter = none := by simp [waiter, hphase]
  obtain ⟨htarget, hkeys⟩ := h.of_preparing hphase
  have hpos : 0 < t.locks L.wakers.waiters key := by
    have := count_pos_iff.mpr (hkeys (mem_cons_self ..))
    simp only [locks]
    omega
  obtain ⟨e, q, hkey, hk, hs, hbusy⟩ := h.exists_entry hpos
  have hwrites := hk.core.writes
  have hnot : e.state ≠ .readLock := by
    intro hr
    rw [if_pos hr] at hwrites
    simp only [writes_append, writes_cons, writeLocks, if_neg htarget] at hwrites
    omega
  rw [if_neg hnot] at hwrites
  refine ⟨e, hkey, hnot, fun hlocked => ?_⟩
  have hnoup : ∀ a ∈ waitersOf (A ++ t :: B), ∀ w, L.wakers.waiters a = some w →
      w.key = key → w.isUpgrade = false := fun a ha w hwa hwk =>
    not_upgrade_of_holder h.tasks.ok (Nat.le_of_eq hwrites) htarget hpos hw ha hwa hwk
  have hnoupq : ∀ a ∈ q, ∀ w, L.wakers.waiters a = some w → w.isUpgrade = false := by
    intro a ha w hwa
    obtain ⟨haT, v, hv, hvk, -⟩ := (hk.core.mem a).mp ha
    obtain rfl := some.inj (hv.symm.trans hwa)
    exact hnoup a haT v hwa hvk
  by_cases hzero : e.readCount = 0
  · refine .inl ⟨_, by
      simp only [Locks.prepareKey, hkey, hlocked, hzero, bind_eq_bind, bind_some,
        if_true]
      rfl, ?_⟩
    have hlocks : ∀ k, locks L.wakers.waiters k { t with phase := .preparing todo none } =
        t.locks L.wakers.waiters k := fun k => by
      simp [locks, waiter, hphase]
    have hwaiters : waitersOf (A ++ { t with phase := .preparing todo none } :: B) =
        waitersOf (A ++ t :: B) := by
      simp [waiter, hphase]
    have hT : TasksOk L.wakers.waiters (A ++ { t with phase := .preparing todo none } :: B) :=
      h.tasks.replace (.preparing todo rfl htarget fun k hk => hkeys (by simp [hk])) rfl
    have hun : Unseen (· ≠ key) L.wakers (A ++ t :: B) L.wakers
        (A ++ { t with phase := .preparing todo none } :: B) :=
      Unseen.replace rfl (fun k _ => hlocks k) rfl fun a w ha => by simp [hw] at ha
    refine h.set_of_settled (hwaiters ▸ h.fresh) hun ⟨hT, hk.queue.of_pointers rfl rfl,
      by rw [hwaiters]; exact hk.core.mem, ?_, ?_, fun _ => rfl, ?_, fun _ _ _ _ _ _ _ => rfl⟩
      ⟨fun _ => .inr (by simp), ?_⟩ (.inr (by simp))
    · have hreads := hk.core.reads
      rw [hzero] at hreads
      simp only [reads_append, reads_cons, readLocks, hlocks] at hreads ⊢
      exact hreads
    · simp only [writes_append, writes_cons, writeLocks, hlocks] at hwrites ⊢
      simpa using hwrites
    all_goals
      intro a ha w hwa hup
      rw [hnoupq a ha w hwa] at hup
      cases hup
  · have hnq := h.nextWaker_notMem hk
    obtain ⟨m', e', hpush, hqueue, hwaiters, hframe, hreads, hstate⟩ :=
      hk.queue.pushHead hnq key
    refine .inr ⟨_, L.nextWaker, by
      simp only [Locks.prepareKey, hkey, hlocked, hzero, bind_eq_bind, bind_some,
        if_true, if_false, hpush]
      rfl, ?_⟩
    refine h.enqueue hk hbusy hw hqueue ?_ hwaiters rfl rfl hframe hreads hstate rfl rfl rfl ?_ ?_
    · intro b
      simp
    · exact .prepareWait key todo L.nextWaker .pending rfl htarget hkeys
        (by rw [hwaiters, update_self])
    · intro b hb w hwb hup
      rcases mem_cons.mp hb with rfl | hb
      · exact ⟨rfl, hlocked, Nat.pos_of_ne_zero hzero⟩
      · rw [hwaiters, update_of_ne (ne_of_mem_of_not_mem hb hnq)] at hwb
        rw [hnoupq b hb w hwb] at hup
        cases hup

/-- The locks of a task whose future is gone are those in its guard. -/
theorem locks_held (n : Waiters K) (k : K) (t : Task K) :
    locks n k { t with phase := .held } = t.lockKeys.count k := by
  simp [locks, waiter]

theorem dropWaiter (h : Inv L (A ++ t :: B)) (hta : t.waiter = some a) :
    ∃ L', L.dropWaiter a = some L' ∧ Inv L' (A ++ { t with phase := .held } :: B) := by
  have haT' : a ∉ waitersOf (A ++ { t with phase := .held } :: B) := by
    have hnd := h.tasks.nodup
    simp only [waitersOf_append, waitersOf_cons, hta, toList_some,
      singleton_append] at hnd
    simpa [waiter] using (nodup_cons.mp (nodup_middle.mp hnd)).1
  obtain ⟨v, hv, hkind⟩ := (h.tasks.ok t (by simp)).waiter hta
  obtain ⟨w, hw, rfl⟩ := waiters_eq_some.mp hv
  have hown : ∀ b u, t.waiter = some b → L.wakers b = some u → u = w := by
    intro b u hb hu
    rw [← some.inj (hta.symm.trans hb)] at hu
    exact some.inj (hu.symm.trans hw)
  have hlocks : ∀ k, t.locks L.wakers.waiters k = t.lockKeys.count k +
      if w.key = k ∧ w.waker = .woken ∧ w.isUpgrade = false then 1 else 0 := fun k => by
    simp [locks, hta, hv, toWaiter]
  by_cases hwoken : w.waker = .woken
  · have hwaiter : ∀ b u, t.waiter = some b → L.wakers b = some u →
        u.key = w.key ∧ u.waker = .woken := fun b u hb hu => by
      rw [hown b u hb hu]
      exact ⟨rfl, hwoken⟩
    cases hup : w.isUpgrade with
    | false =>
      -- The lock was granted but never seen by the future.
      have htarget : w.targetState = t.target := by
        rcases hkind with ⟨-, htarget⟩ | ⟨hyes, -⟩
        · exact htarget
        · simp [toWaiter, hup] at hyes
      obtain ⟨L', hdrop, hinv⟩ := h.dropLock { t with phase := .held } w.key w.targetState
        (by rw [htarget]) rfl (.held rfl) rfl (fun k => by
          rw [locks_held, hlocks]
          simp [hwoken, hup, eq_comm]) hwaiter
      refine ⟨L'.free a, ?_, hinv.free haT'⟩
      simp [Locks.dropWaiter, hw, hwoken, hup, hdrop]
    | true =>
      obtain ⟨htarget, hkey⟩ : t.target ≠ .readLock ∧ w.key ∈ t.lockKeys := by
        rcases hkind with ⟨hno, -⟩ | ⟨-, -, htarget, hkey⟩
        · simp [toWaiter, hup] at hno
        · exact ⟨htarget, hkey⟩
      have hpos : 0 < t.locks L.wakers.waiters w.key := by
        have := count_pos_iff.mpr hkey
        rw [hlocks]
        omega
      obtain ⟨e, q, he, hk, -, -⟩ := h.exists_entry hpos
      have hstate := hk.core.upgraded a (by simp [hta]) _ hv rfl hwoken hup
      obtain ⟨L', hdown, hinv⟩ := h.downgradeLock { t with phase := .held } he hstate rfl htarget
        (.held rfl) rfl hkey (fun k => by
          rw [locks_held, hlocks]
          simp [hup]) hwaiter
      refine ⟨L'.free a, ?_, hinv.free haT'⟩
      simp [Locks.dropWaiter, hw, hwoken, hup, hdown]
  · obtain ⟨e, m', e', he, hremove, hinv⟩ := h.removeWaker { t with phase := .held } hta hw hwoken
      rfl (.held rfl) rfl fun k => by
        rw [locks_held, hlocks]
        simp [hwoken]
    refine ⟨_, ?_, hinv.free haT'⟩
    simp [Locks.dropWaiter, hw, hwoken, he, hremove]

theorem cancel (h : Inv L (A ++ t :: B)) :
    ∃ L', t.cancel L = some (L', { t with phase := .held }) ∧
      Inv L' (A ++ { t with phase := .held } :: B) := by
  cases hw : t.waiter with
  | none =>
    refine ⟨L, by simp [Task.cancel, hw], ?_⟩
    refine h.replace rfl (.held rfl) rfl (fun k => ?_) fun a w ha => ?_
    · rw [locks_held]
      simp [Task.locks, hw]
    · rw [hw] at ha
      cases ha
  | some a =>
    obtain ⟨L', hdrop, hinv⟩ := h.dropWaiter hw
    exact ⟨L', by simp [Task.cancel, hw, hdrop], hinv⟩

theorem dropLocks (state : LockState) {lockKeys : List K}
    (h : Inv L (A ++ { t with lockKeys, phase := .held } :: B))
    (hstate : state = .readLock ↔ t.target = .readLock) :
    ∃ L', L.dropLocks state lockKeys = some L' ∧
      Inv L' (A ++ { t with lockKeys := [], phase := .held } :: B) := by
  induction lockKeys generalizing L with
  | nil => exact ⟨L, rfl, h⟩
  | cons key lockKeys ih =>
    obtain ⟨L₁, hdrop, hinv⟩ := h.dropLock { t with lockKeys, phase := .held } key state hstate rfl
      (.held rfl) rfl (fun k => by
        simp [locks, waiter, count_cons, eq_comm (a := k)]) fun a w ha => by
        simp [waiter] at ha
    obtain ⟨L', hdrops, hinv'⟩ := ih hinv
    exact ⟨L', by simp [Locks.dropLocks, hdrop, hdrops], hinv'⟩

theorem drop (h : Inv L (A ++ t :: B)) (hheld : t.phase = .held) :
    ∃ L', t.drop L = some (L', { t with lockKeys := [] }) ∧
      Inv L' (A ++ { t with lockKeys := [] } :: B) := by
  obtain ⟨target, lockKeys, phase⟩ := t
  subst hheld
  by_cases hr : target = .readLock
  · obtain ⟨L', hdrop, hinv⟩ := dropLocks .readLock (t := ⟨target, [], .held⟩) h (by simp [hr])
    exact ⟨L', by simp [drop, hr, Locks.dropReadLocks, hdrop], hinv⟩
  · obtain ⟨L', hdrop, hinv⟩ := dropLocks .writeLock (t := ⟨target, [], .held⟩) h (by simp [hr])
    exact ⟨L', by simp [drop, hr, Locks.dropWriteLocks, hdrop], hinv⟩

theorem downgradeLocks {lockKeys : List K} (h : Inv L (A ++ t :: B)) (hheld : t.phase = .held)
    (htarget : t.target ≠ .readLock) (hkeys : lockKeys ⊆ t.lockKeys)
    (hrun : L.downgradeLocks lockKeys = some L') : Inv L' (A ++ t :: B) := by
  induction lockKeys generalizing L with
  | nil =>
    cases hrun
    exact h
  | cons key lockKeys ih =>
    obtain ⟨L₁, hone, hrest⟩ := bind_eq_some_iff.mp hrun
    obtain ⟨e, he, hsome⟩ := bind_eq_some_iff.mp hone
    have hstate : e.state = .writeLock := by
      by_contra hno
      simp [LockEntry.downgradeLock, hno] at hsome
    have hw : t.waiter = none := by simp [waiter, hheld]
    obtain ⟨L₂, hdown, hinv⟩ := h.downgradeLock t he hstate rfl htarget (.held hheld) hw
      (hkeys (by simp)) (fun _ => rfl) fun a w ha => by
        rw [hw] at ha
        cases ha
    rw [hone] at hdown
    cases hdown
    exact ih hinv (fun k hk => hkeys (mem_cons_of_mem _ hk)) hrest

end Inv

end Smos.Fxfs.LockManager
