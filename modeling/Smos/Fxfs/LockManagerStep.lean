import Smos.Fxfs.LockManagerInvariant

/-!
Every operation on the lock manager's state keeps the invariant, with the task
that performs it moved to its next state.
-/
namespace Smos.Fxfs.LockManager

open LockManager.Task Wakers List Option Function

variable {K : Type} [DecidableEq K] {e : LockEntry} {key : K} {m' : Wakers K} {q : List ℕ}

/-- A key without an entry has no holders and no waiters; an entry is only
there while somebody holds the key. -/
inductive KeyInv (L : Locks K) (T : List (Task K)) (key : K) : Prop where
  | vacant (h : L.keys key = none) (hreads : reads L.wakers.waiters key T = 0)
      (hwrites : writes L.wakers.waiters key T = 0)
      (hwaiters : ∀ a ∈ waitersOf T, ∀ w, L.wakers.waiters a = some w → w.key ≠ key)
  | occupied (e : LockEntry) (q : List ℕ) (h : L.keys key = some e)
      (hkey : KeyOk L.wakers T key e q) (hsettled : Settled L.wakers.waiters e q)
      (hbusy : e.Busy)

structure Inv (L : Locks K) (T : List (Task K)) : Prop where
  tasks : TasksOk L.wakers.waiters T
  fresh : ∀ a ∈ waitersOf T, a < L.nextWaker
  keys : ∀ key, KeyInv L T key

structure Unseen (P : K → Prop) (m : Wakers K) (T : List (Task K)) (m' : Wakers K)
    (T' : List (Task K)) : Prop where
  reads : ∀ k, P k → reads m'.waiters k T' = reads m.waiters k T
  writes : ∀ k, P k → writes m'.waiters k T' = writes m.waiters k T
  wakers : ∀ a w, P w.key →
    (a ∈ waitersOf T' ∧ m' a = some w ↔ a ∈ waitersOf T ∧ m a = some w)

namespace Unseen

variable {P : K → Prop} {k : K} {m m'' : Wakers K} {T T' T'' : List (Task K)} {L L' : Locks K}

theorem trans (h : Unseen P m T m' T') (h' : Unseen P m' T' m'' T'') :
    Unseen P m T m'' T'' where
  reads := fun k hk => (h'.reads k hk).trans (h.reads k hk)
  writes := fun k hk => (h'.writes k hk).trans (h.writes k hk)
  wakers := fun a w hw => (h'.wakers a w hw).trans (h.wakers a w hw)

theorem waiters (h : Unseen P m T m' T') {a : ℕ} {v : Waiter K} (hv : P v.key) :
    a ∈ waitersOf T' ∧ m'.waiters a = some v ↔ a ∈ waitersOf T ∧ m.waiters a = some v := by
  simp only [waiters_eq_some]
  constructor
  · rintro ⟨ha, w, hw, rfl⟩
    obtain ⟨ha', hw'⟩ := (h.wakers a w hv).mp ⟨ha, hw⟩
    exact ⟨ha', w, hw', rfl⟩
  · rintro ⟨ha, w, hw, rfl⟩
    obtain ⟨ha', hw'⟩ := (h.wakers a w hv).mpr ⟨ha, hw⟩
    exact ⟨ha', w, hw', rfl⟩

theorem keyOk (he : Unseen P m T m' T') (hk : P k)
    (hT : TasksOk m'.waiters T') (h : KeyOk m T k e q) : KeyOk m' T' k e q := by
  have hq : ∀ a ∈ q, m' a = m a := by
    intro a ha
    obtain ⟨w, hw, hwk⟩ := h.exists_waker ha
    have hne : P w.key := hwk ▸ hk
    exact (((he.wakers a w hne).mpr ⟨((h.core.mem a).mp ha).1, hw⟩).2).trans hw.symm
  refine ⟨hT, h.queue.congr hq, ?_, ?_, ?_, h.core.exclusive, ?_, ?_⟩
  · intro a
    rw [h.core.mem a]
    constructor
    · rintro ⟨ha, v, hv, hvk, hwoken⟩
      obtain ⟨ha', hv'⟩ := (he.waiters (hvk ▸ hk)).mpr ⟨ha, hv⟩
      exact ⟨ha', v, hv', hvk, hwoken⟩
    · rintro ⟨ha, v, hv, hvk, hwoken⟩
      obtain ⟨ha', hv'⟩ := (he.waiters (hvk ▸ hk)).mp ⟨ha, hv⟩
      exact ⟨ha', v, hv', hvk, hwoken⟩
  · rw [he.reads k hk, h.core.reads]
  · rw [he.writes k hk, h.core.writes]
  · intro a ha v hv hup
    refine h.core.upgrade a ha v ?_ hup
    simpa [Wakers.waiters, hq a ha] using hv
  · intro a ha v hv hvk hwoken hup
    obtain ⟨ha', hv'⟩ := (he.waiters (hvk ▸ hk)).mp ⟨ha, hv⟩
    exact h.core.upgraded a ha' v hv' hvk hwoken hup

theorem keyInv (he : Unseen P L.wakers T L'.wakers T') (hk : P k)
    (hkeys : L'.keys k = L.keys k) (hT : TasksOk L'.wakers.waiters T') (h : KeyInv L T k) :
    KeyInv L' T' k := by
  cases h with
  | vacant h hreads hwrites hwaiters =>
    refine .vacant (hkeys.trans h) ((he.reads k hk).trans hreads)
      ((he.writes k hk).trans hwrites) fun a ha v hv hvk => ?_
    obtain ⟨ha', hv'⟩ := (he.waiters (hvk ▸ hk)).mp ⟨ha, hv⟩
    exact hwaiters a ha' v hv' hvk
  | occupied e q h hkey hsettled hbusy =>
    have hkey' := he.keyOk hk hT hkey
    refine .occupied e q (hkeys.trans h) hkey' ⟨hsettled.busy, fun a ha v hv hup => ?_⟩ hbusy
    obtain ⟨w, hw, hwk, -⟩ := ((hkey'.core.mem a).mp ha).2
    obtain rfl := some.inj (hw.symm.trans hv)
    obtain ⟨-, hv'⟩ := (he.waiters (hwk ▸ hk)).mp ⟨((hkey'.core.mem a).mp ha).1, hv⟩
    exact hsettled.readers a ha w hv' hup

end Unseen

/-- What `wake` does is not seen by the other keys. -/
theorem OnlyKey.unseen {m : Wakers K} (h : OnlyKey key m m')
    (T : List (Task K)) : Unseen (· ≠ key) m T m' T := by
  have hlocks : ∀ k, k ≠ key → ∀ t : Task K, t.locks m'.waiters k = t.locks m.waiters k := by
    intro k hk t
    unfold locks
    congr 2
    cases t.waiter with
    | none => rfl
    | some a =>
      rcases h a with ha | ⟨ha, ha'⟩
      · simp [waiters, ha]
      · obtain ⟨w, hw, hwk⟩ := map_eq_some_iff.mp ha
        obtain ⟨w', hw', hwk'⟩ := map_eq_some_iff.mp ha'
        simp [hw, hw', hwk, hwk', hk.symm]
  refine ⟨fun k hk => ?_, fun k hk => ?_, fun a w hw => ?_⟩
  · exact reads_of_locks fun t _ => hlocks k hk t
  · exact writes_of_locks fun t _ => hlocks k hk t
  · refine and_congr_right fun _ => ?_
    rcases h a with ha | ⟨ha, ha'⟩
    · rw [ha]
    · constructor
      · intro hm
        simp [waiters, hm, LockWaker.toWaiter, hw] at ha'
      · intro hm
        simp [waiters, hm, LockWaker.toWaiter, hw] at ha

section Holders

variable {n : Waiters K} {T A B : List (Task K)} {t : Task K} {a : ℕ} {w : Waiter K}

theorem locks_le_counts (ht : t ∈ T) : t.locks n key ≤ reads n key T + writes n key T := by
  obtain ⟨A, B, rfl⟩ := append_of_mem ht
  simp only [reads_append, reads_cons, writes_append, writes_cons, readLocks,
    writeLocks]
  split <;> omega

/-- The task that waits for an upgrade holds the key. -/
theorem writes_pos_of_upgrade (hok : ∀ t ∈ T, t.Ok n) (ha : a ∈ waitersOf T)
    (hw : n a = some w) (hup : w.isUpgrade = true) : 0 < writes n w.key T := by
  obtain ⟨t, ht, hta⟩ := mem_waitersOf.mp ha
  obtain ⟨v, hv, hkind⟩ := (hok t ht).waiter hta
  obtain rfl := some.inj (hv.symm.trans hw)
  rcases hkind with ⟨hno, -⟩ | ⟨-, -, htarget, hkey⟩
  · rw [hup] at hno
    cases hno
  · obtain ⟨A, B, rfl⟩ := append_of_mem ht
    have hcount := count_pos_iff.mpr hkey
    simp only [writes_append, writes_cons, writeLocks, if_neg htarget, locks]
    omega

/-- Beside a holder of the key there is no upgrade, neither waiting nor granted. -/
theorem not_upgrade_of_holder (hok : ∀ s ∈ A ++ t :: B, s.Ok n)
    (hwrites : writes n key (A ++ t :: B) ≤ 1) (htarget : t.target ≠ .readLock)
    (hlocks : 0 < t.locks n key) (hwaiter : t.waiter = none)
    (ha : a ∈ waitersOf (A ++ t :: B)) (hw : n a = some w) (hkey : w.key = key) :
    w.isUpgrade = false := by
  by_contra hup
  have hup : w.isUpgrade = true := by simpa using hup
  have hA : ∀ s ∈ A, s.Ok n := fun s hs => hok s (by simp [hs])
  have hB : ∀ s ∈ B, s.Ok n := fun s hs => hok s (by simp [hs])
  have hpos : 0 < writes n key A + writes n key B := by
    subst hkey
    simp only [waitersOf_append, waitersOf_cons, hwaiter, toList_none, nil_append,
      mem_append] at ha
    rcases ha with ha | ha
    · have := writes_pos_of_upgrade hA ha hw hup
      omega
    · have := writes_pos_of_upgrade hB ha hw hup
      omega
  simp only [writes_append, writes_cons, writeLocks, if_neg htarget] at hwrites
  omega

end Holders

/-- An entry that nobody holds any more has no waiters. -/
theorem KeyOk.vacant {m : Wakers K} {T : List (Task K)}
    (h : KeyOk m T key e q) (hs : Settled m.waiters e q) (he : ¬e.Busy) :
    reads m.waiters key T = 0 ∧ writes m.waiters key T = 0 ∧
      ∀ a ∈ waitersOf T, ∀ w, m.waiters a = some w → w.key ≠ key := by
  simp only [LockEntry.Busy, not_or, Nat.pos_iff_ne_zero, not_not] at he
  have hq : q = [] := by
    by_contra hq
    rcases hs.busy hq with hb | hb
    · exact absurd he.1 (Nat.ne_of_gt hb)
    · exact hb he.2
  have hreads : reads m.waiters key T = 0 := h.core.reads ▸ he.1
  have hwrites : writes m.waiters key T = 0 := by
    rw [h.core.writes, if_pos he.2]
  refine ⟨hreads, hwrites, fun a ha w hw hkey => ?_⟩
  by_cases hwoken : w.waker = .woken
  · cases hup : w.isUpgrade with
    | true =>
      have := writes_pos_of_upgrade h.tasks.ok ha hw hup
      rw [hkey] at this
      omega
    | false =>
      obtain ⟨t, ht, hta⟩ := mem_waitersOf.mp ha
      have hlocks : t.locks m.waiters key ≤ _ := locks_le_counts ht
      have : 0 < t.locks m.waiters key := by
        simp [locks, hta, hw, hkey, hwoken, hup]
      omega
  · have := (h.core.mem a).mpr ⟨ha, w, hw, hkey, hwoken⟩
    simp [hq] at this

section Replace

variable {m : Wakers K} {n : Waiters K} {A B : List (Task K)} {t t' : Task K} {P : K → Prop}

omit [DecidableEq K] in
theorem TasksOk.replace (h : TasksOk n (A ++ t :: B)) (ht' : t'.Ok n)
    (hw : t'.waiter = none) : TasksOk n (A ++ t' :: B) := by
  constructor
  · refine h.nodup.sublist ?_
    simp [hw]
  · intro s hs
    rcases mem_append.mp hs with hs | hs
    · exact h.ok s (by simp [hs])
    · rcases mem_cons.mp hs with rfl | hs
      · exact ht'
      · exact h.ok s (by simp [hs])

/-- A task that lets go of its waker, or has none, is only seen by the keys it has to do with. -/
theorem Unseen.replace (htarget : t'.target = t.target)
    (hlocks : ∀ k, P k → t'.locks m.waiters k = t.locks m.waiters k) (hw : t'.waiter = none)
    (hwaiter : ∀ a w, t.waiter = some a → m a = some w → ¬P w.key) :
    Unseen P m (A ++ t :: B) m (A ++ t' :: B) := by
  refine ⟨fun k hk => ?_, fun k hk => ?_, fun a w hP => ?_⟩
  · simp only [reads_append, reads_cons, readLocks, htarget, hlocks k hk]
  · simp only [writes_append, writes_cons, writeLocks, htarget, hlocks k hk]
  · simp only [waitersOf_append, waitersOf_cons, hw, toList_none, nil_append,
      mem_append, mem_toList]
    constructor
    · rintro ⟨ha | ha, hm⟩
      · exact ⟨.inl ha, hm⟩
      · exact ⟨.inr (.inr ha), hm⟩
    · rintro ⟨ha | ha | ha, hm⟩
      · exact ⟨.inl ha, hm⟩
      · exact absurd hP (hwaiter a w ha hm)
      · exact ⟨.inr ha, hm⟩

/-- Letting go of a waker that was woken takes nothing out of the queue. -/
theorem Core.mem_replace
    (h : Core n (A ++ t :: B) key e q) (hw : t'.waiter = none)
    (hwaiter : ∀ a w, t.waiter = some a → n a = some w → w.waker = .woken) (a : ℕ) :
    a ∈ q ↔ a ∈ waitersOf (A ++ t' :: B) ∧
      ∃ w, n a = some w ∧ w.key = key ∧ w.waker ≠ .woken := by
  rw [h.mem a]
  simp only [waitersOf_append, waitersOf_cons, hw, toList_none, nil_append,
    mem_append, mem_toList]
  constructor
  · rintro ⟨ha | ha | ha, w, hwa, hkey, hwoken⟩
    · exact ⟨.inl ha, w, hwa, hkey, hwoken⟩
    · exact absurd (hwaiter a w ha hwa) hwoken
    · exact ⟨.inr ha, w, hwa, hkey, hwoken⟩
  · rintro ⟨ha | ha, w, hwa, hkey, hwoken⟩
    · exact ⟨.inl ha, w, hwa, hkey, hwoken⟩
    · exact ⟨.inr (.inr ha), w, hwa, hkey, hwoken⟩

omit [DecidableEq K] in
theorem mem_waitersOf_replace {a : ℕ} (hw : t'.waiter = none)
    (ha : a ∈ waitersOf (A ++ t' :: B)) : a ∈ waitersOf (A ++ t :: B) := by
  simp only [waitersOf_append, waitersOf_cons, hw, toList_none, nil_append,
    mem_append] at ha ⊢
  tauto

/-- A task that gives up leaves the queue as it was without its waker. -/
theorem Core.removed {a : ℕ} {e' : LockEntry} {x y : List ℕ}
    (h : Core n (A ++ t :: B) key e (x ++ a :: y)) (hqueue : (x ++ a :: y).Nodup)
    (hnodup : (waitersOf (A ++ t :: B)).Nodup) (hta : t.waiter = some a)
    (htarget : t'.target = t.target) (hw : t'.waiter = none)
    (hlocks : ∀ k, t'.locks n k = t.locks n k) (hreads : e'.readCount = e.readCount)
    (hstate : e'.state = e.state) : Core n (A ++ t' :: B) key e' (x ++ y) := by
  have haxy : a ∉ x ++ y := (nodup_cons.mp (nodup_middle.mp hqueue)).1
  constructor
  · intro b
    by_cases hba : b = a
    · subst hba
      simp only [waitersOf_append, waitersOf_cons, hta, hw, toList_some, toList_none, nil_append,
        singleton_append] at hnodup ⊢
      exact ⟨fun hb => absurd hb haxy,
        fun hb => absurd hb.1 (nodup_cons.mp (nodup_middle.mp hnodup)).1⟩
    · have hmem := h.mem b
      simp only [mem_append, mem_cons, hba, false_or, waitersOf_append, waitersOf_cons, hta, hw,
        toList_some, toList_none, nil_append, not_mem_nil] at hmem ⊢
      exact hmem
  · rw [hreads, h.reads]
    simp only [reads_append, reads_cons, readLocks, htarget, hlocks]
  · rw [hstate, ← h.writes]
    simp only [writes_append, writes_cons, writeLocks, htarget, hlocks]
  · rw [hreads, hstate]
    exact h.exclusive
  · intro b hb v hv hvup
    have hb' : b ∈ x ++ a :: y := by
      simp only [mem_append, mem_cons] at hb ⊢
      tauto
    obtain ⟨hhead, hlocked⟩ := h.upgrade b hb' v hv hvup
    refine ⟨?_, hstate.trans hlocked⟩
    cases x with
    | nil =>
      simp only [nil_append, head?_cons, some.injEq] at hhead
      exact absurd (hhead ▸ hb) haxy
    | cons c x => simpa using hhead
  · intro b hb v hv
    rw [hstate]
    exact h.upgraded b (mem_waitersOf_replace hw hb) v hv

/-- Only the links of the wakers of one key differ. -/
theorem KeyOk.onlyKey {T : List (Task K)} (h : KeyOk m T key e q)
    (hwaiters : m'.waiters = m.waiters) (hframe : ∀ b, b ∉ q → m' b = m b) :
    OnlyKey key m m' := by
  intro b
  by_cases hb : b ∈ q
  · obtain ⟨v, hv, hvkey⟩ := h.exists_waker hb
    refine .inr ⟨?_, ?_⟩
    · simp [waiters, hv, LockWaker.toWaiter, hvkey]
    · rw [hwaiters]
      simp [waiters, hv, LockWaker.toWaiter, hvkey]
  · exact .inl (hframe b hb)

end Replace

namespace Inv

variable {L L' : Locks K} {T T' A B : List (Task K)} {t t' : Task K} {a : ℕ}

/-- Puts the invariant together after a change of one key. -/
theorem of_key (h : Inv L T) (hT : TasksOk L'.wakers.waiters T')
    (hfresh : ∀ a ∈ waitersOf T', a < L'.nextWaker)
    (hun : Unseen (· ≠ key) L.wakers T L'.wakers T')
    (hkeys : ∀ k, k ≠ key → L'.keys k = L.keys k) (hkey : KeyInv L' T' key) : Inv L' T' := by
  refine ⟨hT, hfresh, fun k => ?_⟩
  by_cases hk : k = key
  · subst hk
    exact hkey
  · exact hun.keyInv hk (hkeys k hk) hT (h.keys k)

theorem set_of_settled {e' : LockEntry} {q' : List ℕ} (h : Inv L T)
    (hfresh : ∀ a ∈ waitersOf T', a < L.nextWaker) (hun : Unseen (· ≠ key) L.wakers T m' T')
    (hkey : KeyOk m' T' key e' q') (hs : Settled m'.waiters e' q') (hbusy : e'.Busy) :
    Inv (L.set key (some e') m') T' :=
  h.of_key hkey.tasks hfresh hun (fun _ hk => update_of_ne hk _ _)
    (.occupied e' q' (update_self _ _ _) hkey hs hbusy)

theorem length_queue_le
    (hfresh : ∀ a ∈ waitersOf T', a < L.nextWaker) (hkey : KeyOk m' T' key e q) :
    q.length ≤ L.nextWaker := by
  have hsub : q ⊆ range L.nextWaker := fun a ha =>
    mem_range.mpr (hfresh a ((hkey.core.mem a).mp ha).1)
  simpa using (List.Nodup.subperm hkey.queue.nodup hsub).length_le

/-- After a change of an entry the waiters are woken, and the entry goes if nobody holds it. -/
theorem wake {m₁ : Wakers K} {e₁ : LockEntry} {q₁ : List ℕ} (h : Inv L T)
    (hfresh : ∀ a ∈ waitersOf T', a < L.nextWaker) (hun : Unseen (· ≠ key) L.wakers T m₁ T')
    (hkey : KeyOk m₁ T' key e₁ q₁) :
    ∃ m' e', e₁.wake (L.nextWaker + 1) m₁ = some (m', e') ∧
      Inv (L.set key (if e'.canRemove then none else some e') m') T' ∧
      (e₁.Busy → e'.canRemove = false) := by
  obtain ⟨m', e', r, hwake, hkey', honly, hs, hbusy⟩ :=
    hkey.wake (Nat.le_succ_of_le (length_queue_le hfresh hkey))
  have hun' := hun.trans (honly.unseen T')
  have hremove : e'.canRemove = true ↔ ¬e'.Busy := by
    simp [LockEntry.canRemove, LockEntry.Busy, and_comm]
  refine ⟨m', e', hwake, ?_, fun hb => ?_⟩
  · by_cases he : e'.Busy
    · rw [if_neg (by rw [hremove]; exact not_not.mpr he)]
      exact h.set_of_settled hfresh hun' hkey' hs he
    · rw [if_pos (hremove.mpr he)]
      obtain ⟨hreads, hwrites, hwaiters⟩ := hkey'.vacant hs he
      exact h.of_key hkey'.tasks hfresh hun' (fun _ hk => update_of_ne hk _ _)
        (.vacant (update_self _ _ _) hreads hwrites hwaiters)
  · by_contra hc
    exact hremove.mp (by simpa using hc) (hbusy hb)

/-- The memory of a waker that no task waits on can be given back. -/
theorem free (h : Inv L T) (ha : a ∉ waitersOf T) : Inv (L.free a) T := by
  have hm : ∀ b ∈ waitersOf T, (L.free a).wakers b = L.wakers b := fun b hb =>
    update_of_ne (ne_of_mem_of_not_mem hb ha) _ _
  have hn : ∀ b ∈ waitersOf T, (L.free a).wakers.waiters b = L.wakers.waiters b := fun b hb => by
    simp [waiters, hm b hb]
  have hT : TasksOk (L.free a).wakers.waiters T := by
    refine ⟨h.tasks.nodup, fun t ht => (h.tasks.ok t ht).mono fun b w hb hw => ?_⟩
    exact ⟨w.waker, by rw [hn b (mem_waitersOf.mpr ⟨t, ht, hb⟩), hw]⟩
  have hunseen : Unseen (fun _ => True) L.wakers T (L.free a).wakers T :=
    ⟨fun _ _ => reads_congr hn, fun _ _ => writes_congr hn,
      fun b w _ => and_congr_right fun hb => by rw [hm b hb]⟩
  exact ⟨hT, h.fresh, fun k => hunseen.keyInv trivial rfl hT (h.keys k)⟩

section

variable (h : Inv L (A ++ t :: B))
include h

theorem fresh_replace (hw : t'.waiter = none) :
    ∀ a ∈ waitersOf (A ++ t' :: B), a < L.nextWaker := by
  intro a ha
  exact h.fresh a (mem_waitersOf_replace hw ha)

/-- A task that holds a lock finds its entry. -/
theorem exists_entry (hlocks : 0 < t.locks L.wakers.waiters key) :
    ∃ e q, L.keys key = some e ∧ KeyOk L.wakers (A ++ t :: B) key e q ∧
      Settled L.wakers.waiters e q ∧ e.Busy := by
  cases h.keys key with
  | vacant h hreads hwrites =>
    have hle : t.locks L.wakers.waiters key ≤ _ := locks_le_counts (T := A ++ t :: B) (by simp)
    omega
  | occupied e q h hkey hs hbusy => exact ⟨e, q, h, hkey, hs, hbusy⟩

/-- A task releases one of its locks: one in its guard, or the one its waker was granted. -/
theorem dropLock (t' : Task K) (key : K) (state : LockState)
    (hstate : state = .readLock ↔ t.target = .readLock) (htarget : t'.target = t.target)
    (hok : t'.Ok L.wakers.waiters) (hw : t'.waiter = none)
    (hlocks : ∀ k, t.locks L.wakers.waiters k =
      t'.locks L.wakers.waiters k + if k = key then 1 else 0)
    (hwaiter : ∀ a w, t.waiter = some a → L.wakers a = some w →
      w.key = key ∧ w.waker = .woken) :
    ∃ L', L.dropLock key state = some L' ∧ Inv L' (A ++ t' :: B) := by
  have hfresh := h.fresh_replace hw
  have hT := h.tasks.replace hok hw
  have hun : Unseen (· ≠ key) L.wakers (A ++ t :: B) L.wakers (A ++ t' :: B) := by
    refine Unseen.replace htarget (fun k hk => ?_) hw fun a w ha hwa hne => ?_
    · simp [hlocks k, hk]
    · exact hne (hwaiter a w ha hwa).1
  obtain ⟨e, q, hkey, hk, hs, -⟩ : ∃ e q, L.keys key = some e ∧ _ :=
    h.exists_entry (by simp [hlocks key])
  have hkeylocks := hlocks key
  rw [if_pos rfl] at hkeylocks
  have hmem := hk.core.mem_replace hw fun a v ha hv => by
    obtain ⟨w, hwa, rfl⟩ := waiters_eq_some.mp hv
    exact (hwaiter a w ha hwa).2
  have hreads := hk.core.reads
  have hwrites := hk.core.writes
  simp only [reads_append, reads_cons, readLocks, hkeylocks] at hreads
  simp only [writes_append, writes_cons, writeLocks, hkeylocks] at hwrites
  by_cases hr : t.target = .readLock
  · -- A reader: what waits is only looked at when the last one is gone.
    have hst := hstate.mpr hr
    subst hst
    rw [if_pos hr] at hreads hwrites
    have hk₁ : KeyOk L.wakers (A ++ t' :: B) key { e with readCount := e.readCount - 1 } q := by
      refine ⟨hT, hk.queue.of_pointers rfl rfl, hmem, ?_, ?_, ?_, hk.core.upgrade, ?_⟩
      · simp only [reads_append, reads_cons, readLocks, htarget, hr, if_true]
        omega
      · simp only [writes_append, writes_cons, writeLocks, htarget, hr, if_true]
        exact hwrites
      · intro hwl
        have := hk.core.exclusive hwl
        omega
      · exact fun a ha => hk.core.upgraded a (mem_waitersOf_replace hw ha)
    have hpos : e.readCount ≠ 0 := by omega
    by_cases hone : e.readCount - 1 = 0
    · obtain ⟨m', e', hwake, hinv, -⟩ := h.wake hfresh hun hk₁
      refine ⟨_, ?_, hinv⟩
      rw [hone] at hwake
      simp [Locks.dropLock, hkey, hpos, hone, hwake]
    · refine ⟨L.set key (some { e with readCount := e.readCount - 1 }) L.wakers, ?_, ?_⟩
      · simp [Locks.dropLock, hkey, hpos, hone]
      · have hmore : 0 < e.readCount - 1 := Nat.pos_of_ne_zero hone
        exact h.set_of_settled hfresh hun hk₁ ⟨fun _ => .inl hmore, fun _ _ _ _ _ => hmore⟩
          (.inl hmore)
  · rw [if_neg hr] at hreads hwrites
    have hnot : e.state ≠ .readLock := by
      intro he
      rw [if_pos he] at hwrites
      omega
    rw [if_neg hnot] at hwrites
    have hzero : writes L.wakers.waiters key (A ++ t' :: B) = 0 := by
      simp only [writes_append, writes_cons, writeLocks, htarget, if_neg hr]
      omega
    -- The task was the only one that could have asked for an upgrade.
    have hup : ∀ a ∈ waitersOf (A ++ t' :: B), ∀ w, L.wakers.waiters a = some w →
        w.key = key → w.isUpgrade = false := by
      intro a ha w hwa hwkey
      by_contra hup
      have := writes_pos_of_upgrade hT.ok ha hwa (by simpa using hup)
      rw [hwkey] at this
      omega
    have hk₁ : KeyOk L.wakers (A ++ t' :: B) key { e with state := .readLock } q := by
      refine ⟨hT, hk.queue.of_pointers rfl rfl, hmem, ?_, ?_, ?_, ?_, ?_⟩
      · simp only [reads_append, reads_cons, readLocks, htarget, if_neg hr]
        exact hreads
      · simpa using hzero
      · simp
      · intro a ha w hwa hwup
        obtain ⟨haT, v, hv, hvkey, -⟩ := (hmem a).mp ha
        obtain rfl := some.inj (hv.symm.trans hwa)
        simp [hup a haT v hv hvkey] at hwup
      · intro a ha w hwa hwkey _ hwup
        simp [hup a ha w hwa hwkey] at hwup
    obtain ⟨m', e', hwake, hinv, -⟩ := h.wake hfresh hun hk₁
    refine ⟨_, ?_, hinv⟩
    cases state with
    | readLock => exact absurd (hstate.mp rfl) hr
    | locked => simp [Locks.dropLock, hkey, hwake]
    | writeLock => simp [Locks.dropLock, hkey, hwake]

/-- A task gives up the exclusiveness of a key in its guard, or the upgrade that its
waker was granted. -/
theorem downgradeLock (t' : Task K)
    (hkey : L.keys key = some e)
    (hstate : e.state = .writeLock) (htarget : t'.target = t.target)
    (hwrite : t'.target ≠ .readLock) (hok : t'.Ok L.wakers.waiters) (hw : t'.waiter = none)
    (hheld : key ∈ t'.lockKeys)
    (hlocks : ∀ k, t'.locks L.wakers.waiters k = t.locks L.wakers.waiters k)
    (hwaiter : ∀ a w, t.waiter = some a → L.wakers a = some w →
      w.key = key ∧ w.waker = .woken) :
    ∃ L', L.downgradeLock key = some L' ∧ Inv L' (A ++ t' :: B) := by
  have hfresh := h.fresh_replace hw
  have hT := h.tasks.replace hok hw
  have hun : Unseen (· ≠ key) L.wakers (A ++ t :: B) L.wakers (A ++ t' :: B) :=
    Unseen.replace htarget (fun k _ => hlocks k) hw fun a w ha hwa hne =>
      hne (hwaiter a w ha hwa).1
  have hpos : 0 < t'.locks L.wakers.waiters key := by
    have := count_pos_iff.mpr hheld
    simp only [locks]
    omega
  obtain ⟨e₀, q, he₀, hk, hs, -⟩ : ∃ e q, L.keys key = some e ∧ _ :=
    h.exists_entry (hlocks key ▸ hpos)
  obtain rfl := some.inj (he₀.symm.trans hkey)
  have hwrites := hk.core.writes
  have hwrites' : writes L.wakers.waiters key (A ++ t' :: B) = 1 := by
    simp only [writes_append, writes_cons, writeLocks, htarget, hlocks key, hstate] at hwrites ⊢
    exact hwrites
  have hup : ∀ a ∈ waitersOf (A ++ t' :: B), ∀ w, L.wakers.waiters a = some w →
      w.key = key → w.isUpgrade = false := fun a ha w hwa hwkey =>
    not_upgrade_of_holder hT.ok (Nat.le_of_eq hwrites') hwrite hpos hw ha hwa hwkey
  have hmem := hk.core.mem_replace hw fun a v ha hv => by
    obtain ⟨w, hwa, rfl⟩ := waiters_eq_some.mp hv
    exact (hwaiter a w ha hwa).2
  have hk₁ : KeyOk L.wakers (A ++ t' :: B) key { e₀ with state := .locked } q := by
    refine ⟨hT, hk.queue.of_pointers rfl rfl, hmem, ?_, ?_, ?_, ?_, ?_⟩
    · have hreads := hk.core.reads
      simp only [reads_append, reads_cons, readLocks, htarget, hlocks key] at hreads ⊢
      exact hreads
    · simpa using hwrites'
    · simp
    · intro a ha w hwa hwup
      obtain ⟨haT, v, hv, hvkey, -⟩ := (hmem a).mp ha
      obtain rfl := some.inj (hv.symm.trans hwa)
      simp [hup a haT v hv hvkey] at hwup
    · intro a ha w hwa hwkey _ hwup
      simp [hup a ha w hwa hwkey] at hwup
  obtain ⟨m', e', hwake, hinv, hremove⟩ := h.wake hfresh hun hk₁
  rw [hremove (.inr (by simp))] at hinv
  refine ⟨_, ?_, hinv⟩
  simp [Locks.downgradeLock, LockEntry.downgradeLock, hkey, hstate, hwake]

/-- A task stops waiting for a lock that it was not granted. -/
theorem removeWaker {w : LockWaker K} (t' : Task K)
    (hta : t.waiter = some a)
    (ha : L.wakers a = some w) (hwoken : w.waker ≠ .woken) (htarget : t'.target = t.target)
    (hok : t'.Ok L.wakers.waiters) (hw : t'.waiter = none)
    (hlocks : ∀ k, t'.locks L.wakers.waiters k = t.locks L.wakers.waiters k) :
    ∃ e m' e', L.keys w.key = some e ∧
      e.removeWaker (L.nextWaker + 1) L.wakers a = some (m', e') ∧
      Inv (L.set w.key (some e') m') (A ++ t' :: B) := by
  have hfresh := h.fresh_replace hw
  have hT := h.tasks.replace hok hw
  have hun : Unseen (· ≠ w.key) L.wakers (A ++ t :: B) L.wakers (A ++ t' :: B) := by
    refine Unseen.replace htarget (fun k _ => hlocks k) hw fun b v hb hv hne => hne ?_
    have hab : a = b := some.inj (hta.symm.trans hb)
    subst hab
    rw [some.inj (ha.symm.trans hv)]
  have haT : a ∈ waitersOf (A ++ t :: B) := by simp [hta]
  have hwn : L.wakers.waiters a = some w.toWaiter := by simp [waiters, ha]
  cases h.keys w.key with
  | vacant _ _ _ hwaiters => exact absurd rfl (hwaiters a haT _ hwn)
  | occupied e q hkey hk hs hbusy =>
    have haq : a ∈ q := (hk.core.mem a).mpr ⟨haT, _, hwn, rfl, hwoken⟩
    obtain ⟨x, y, rfl⟩ := append_of_mem haq
    obtain ⟨m', e', hremove, hqueue, hwaiters, hframe, hreads, hstate⟩ :=
      hk.queue.removeWaker ha (L.nextWaker + 1)
    have hun' := hun.trans ((hk.onlyKey hwaiters hframe).unseen _)
    have hcore : Core m'.waiters (A ++ t' :: B) w.key e' (x ++ y) := by
      rw [hwaiters]
      exact hk.core.removed hk.queue.nodup h.tasks.nodup hta htarget hw hlocks hreads hstate
    have hk₁ : KeyOk m' (A ++ t' :: B) w.key e' (x ++ y) := ⟨by rwa [hwaiters], hqueue, hcore⟩
    have hbusy' : e'.Busy := by
      unfold LockEntry.Busy
      rwa [hreads, hstate]
    by_cases hx : x = []
    · obtain ⟨m₂, e₂, hwake, hinv, hcan⟩ := h.wake hfresh hun' hk₁
      rw [hcan hbusy'] at hinv
      exact ⟨e, m₂, e₂, hkey, by rw [hremove, if_pos hx, hwake], by simpa using hinv⟩
    · refine ⟨e, m', e', hkey, by rw [hremove, if_neg hx], ?_⟩
      refine h.set_of_settled hfresh hun' hk₁ ⟨fun _ => hbusy', fun b hb v hv hvup => ?_⟩ hbusy'
      rw [hwaiters] at hv
      rw [hreads]
      refine hs.readers b ?_ v hv hvup
      simp only [mem_append, mem_cons] at hb ⊢
      tauto

end

end Inv

end Smos.Fxfs.LockManager
