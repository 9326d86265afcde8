import Smos.Archivist.Cursors

/-!
Runs of the shared buffer.

A run creates and terminates containers, pushes messages, reads sockets, and creates, polls and
drops cursors, in any order.  A condition on the messages of a run says how many words those that
are not rejected have at least.
-/
namespace Smos.Archivist

open Lib Lib.Bytes Log List

variable {reads : ℕ → List (List UInt8) × Bool} {result : PollResult}

section Runs

inductive Account
  | returned (bytes : List UInt8)
  | rolledOut
  | skipped
deriving DecidableEq

/-- The ids that a poll accounts for, in order, if it moves its cursor by a number of ids. -/
def accounts (result : PollResult) (advance : ℕ) : List Account :=
  match result with
  | .next bytes => replicate (advance - 1) .skipped ++ [.returned bytes]
  | .itemsRolledOut count _ => replicate count .rolledOut
  | .finished => replicate advance .skipped
  | .pending => replicate advance .skipped

/-- A cursor, with the id it started from and what it has said about the ids since. -/
structure Tracked where
  cursor : Cursor
  startId : ℕ
  ledger : List Account

structure System where
  inner : Inner
  cursors : List Tracked

def System.ids (s : System) : List ℕ := s.cursors.map (·.cursor.containerId)

/-- One operation.  An operation that panics is not a step. -/
inductive Step (w : ℕ) : System → System → Prop
  | newContainer {s c inner'} : s.inner.newContainer = some (c, inner') →
      Step w s { s with inner := inner' }
  | pushBack {s inner'} (msg : List UInt8) (c : ℕ) : PushOk w msg →
      s.inner.ingest msg c = some inner' → Step w s { s with inner := inner' }
  | addSocket {s} (c socket : ℕ) : Step w s { s with inner := s.inner.addSocket c socket }
  | serviceSocket {s c socket info inner'} (datagrams : List (List UInt8)) (closed : Bool) :
      s.inner.containers.get c = some info → socket ∈ info.sockets →
      (∀ d ∈ datagrams, DatagramOk w d) →
      s.inner.serviceSocket c socket datagrams closed = some inner' →
      Step w s { s with inner := inner' }
  | terminate {s inner'} (c : ℕ) : s.inner.terminate c = some inner' →
      Step w s { s with inner := inner' }
  | cursor {s cursor inner'} (c : ℕ) (mode : StreamMode) :
      s.inner.cursor c mode = (some cursor, inner') →
      Step w s ⟨inner', s.cursors ++ [⟨cursor, cursor.nextId, []⟩]⟩
  | dropCursor {s inner'} (front : List Tracked) (t : Tracked) (back : List Tracked) :
      s.cursors = front ++ t :: back → s.inner.dropCursor t.cursor = some inner' →
      Step w s ⟨inner', front ++ back⟩
  | poll {s result cursor' inner'} (front : List Tracked) (t : Tracked) (back : List Tracked)
      (reads : ℕ → List (List UInt8) × Bool) : s.cursors = front ++ t :: back →
      (∀ socket, ∀ d ∈ (reads socket).1, DatagramOk w d) →
      s.inner.pollNext t.cursor reads = some (result, cursor', inner') →
      Step w s ⟨inner', front ++ ⟨cursor', t.startId,
        t.ledger ++ accounts result (cursor'.nextId - t.cursor.nextId)⟩ :: back⟩

inductive Reachable (w capacity pageSize : ℕ) : System → Prop
  | start : Reachable w capacity pageSize ⟨.new capacity pageSize, []⟩
  | step {s s'} : Reachable w capacity pageSize s → Step w s s' →
      Reachable w capacity pageSize s'

end Runs

variable {w capacity pageSize : ℕ} {s s' : System} {inner inner' : Inner}
  {log log' : List StoredRecord} {k k' c ji : ℕ} {info info' : ContainerInfo}
  {cursor cursor' : Cursor} {t : Tracked} {ids : List ℕ}
  {containers containers' : Slab ContainerInfo} {front back : List Tracked}

section Poll

def CursorEnd.fix (stop : ℕ) : CursorEnd → CursorEnd
  | .snapshot none => .snapshot (some stop)
  | .snapshot (some e) => .snapshot (some e)
  | .stream => .stream

def CursorEnd.endId : CursorEnd → Option ℕ
  | .snapshot e => e
  | .stream => none

/-- A poll of a cursor whose container has references. -/
theorem pollNext_spec (hw : 1 ≤ w)
    (h : Sound w inner log k) (hget : inner.containers.get cursor.containerId = some info)
    (hrefs : info.refs ≠ 0) (hplaced : Placed log k cursor ji) (hstop : cursor.nextId ≤ info.stop)
    (hreads : ∀ socket, ∀ d ∈ (reads socket).1, DatagramOk w d) :
    ∃ result cursor' inner' log' k' info',
      inner.pollNext cursor reads = some (result, cursor', inner') ∧
      Progress w inner log k inner' log' k' ∧
      inner'.containers.get cursor.containerId = some info' ∧ info.stop ≤ info'.stop ∧
      PollOk log' k' info' (cursor.end_.fix info'.stop).endId
        { cursor with end_ := cursor.end_.fix info'.stop } result cursor' := by
  obtain ⟨index, c, nextId, end_⟩ := cursor
  rw [Inner.pollNext, hget]
  cases end_ with
  | stream =>
    obtain ⟨result, cursor', hrun, hok⟩ := pollFrom_spec h hget hw hplaced hstop none
    refine ⟨result, cursor', inner, log, k, info, ?_, .refl h, hget, Nat.le_refl _, hok⟩
    change (inner.pollFrom info _ none >>= _) = _
    rw [hrun]
    rfl
  | snapshot e =>
    cases e with
    | some e =>
      obtain ⟨result, cursor', hrun, hok⟩ := pollFrom_spec h hget hw hplaced hstop (some e)
      refine ⟨result, cursor', inner, log, k, info, ?_, .refl h, hget, Nat.le_refl _, hok⟩
      change (inner.pollFrom info _ (some e) >>= _) = _
      rw [hrun]
      rfl
    | none =>
      obtain ⟨inner₁, log₁, k₁, hdrain, hprogress⟩ :=
        @drainSockets_spec w inner log k c info hw reads info.sockets h hget hrefs hreads
      obtain ⟨info₁, hget₁, hfollows⟩ := hprogress.evolves.exists_follows hget hrefs
      have hplaced₁ := hplaced.progress hprogress hget hstop
      have hplaced₂ : Placed log₁ k₁ ⟨index, c, nextId, .snapshot (some info₁.stop)⟩ ji :=
        { hplaced₁ with }
      obtain ⟨result, cursor', hrun, hok⟩ := @pollFrom_spec w inner₁ log₁ k₁ ji info₁
        ⟨index, c, nextId, .snapshot (some info₁.stop)⟩ hprogress.sound hget₁ hw hplaced₂
        (hstop.trans hfollows.stop) (some info₁.stop)
      refine ⟨result, cursor', inner₁, log₁, k₁, info₁, ?_, hprogress, hget₁, hfollows.stop, hok⟩
      change (Inner.drainSockets c reads info.sockets inner >>= fun inner₁ =>
        inner₁.containers.get c >>= fun container => inner₁.pollFrom container
          ⟨index, c, nextId, .snapshot (some container.stop)⟩ (some container.stop) >>= _) = _
      rw [hdrain]
      change (inner₁.containers.get c >>= _) = _
      rw [hget₁]
      change (inner₁.pollFrom info₁ _ _ >>= _) = _
      rw [hrun]
      rfl

/-- A cursor moves on unless its end is behind it. -/
theorem PollOk.next_mono {endId : Option ℕ} (h : PollOk log k info endId cursor result cursor')
    (hend : ∀ e, endId = some e → cursor.nextId ≤ e) : cursor.nextId ≤ cursor'.nextId := by
  have haccounted := h.accounted
  cases result with
  | next bytes =>
    obtain ⟨-, id, hnext, hle, -⟩ := haccounted
    omega
  | itemsRolledOut count timestamp =>
    obtain ⟨hrolled, -, hreached, -⟩ := haccounted
    rcases hreached with hstart | hsome
    · omega
    · exact hend _ hsome.symm
  | finished | pending => exact haccounted.1

/-- The ids that a poll accounts for are those between the next id before it and after it. -/
theorem PollOk.length_accounts {endId : Option ℕ}
    (h : PollOk log k info endId cursor result cursor') (hle : cursor.nextId ≤ cursor'.nextId) :
    cursor.nextId + (accounts result (cursor'.nextId - cursor.nextId)).length = cursor'.nextId := by
  have haccounted := h.accounted
  cases result with
  | next bytes =>
    obtain ⟨-, id, hnext, hid, -⟩ := haccounted
    rw [accounts, length_append, length_replicate, length_singleton]
    omega
  | itemsRolledOut count timestamp =>
    obtain ⟨-, -, -, -, hcount⟩ := haccounted
    rw [accounts, length_replicate]
    exact (hcount hle).1.symm
  | finished | pending =>
    rw [accounts, length_replicate]
    exact Nat.add_sub_cancel' hle

/-- If all messages can be read, a poll does not pass an end and does not wait before it. -/
theorem PollOk.snapshot (hw : 2 ≤ w) {e : ℕ}
    (h : PollOk log k info (some e) cursor result cursor') (hok : ∀ r ∈ log, r.Ok w)
    (hnext : cursor.nextId ≤ e) (hstop : e ≤ info.stop) :
    cursor'.nextId ≤ e ∧ result ≠ .pending := by
  have hlive : ∀ r ∈ log.drop k, r.Ok w := fun r hr => hok r (mem_of_mem_drop hr)
  have haccounted := h.accounted
  cases result with
  | next bytes =>
    obtain ⟨hend, id, heq, hle, hskipped, -⟩ := haccounted
    have hid := hskipped.le hw hlive
    have hne : cursor.nextId ≠ e := fun heq' => hend (congrArg some heq')
    refine ⟨?_, nofun⟩
    omega
  | itemsRolledOut count timestamp =>
    obtain ⟨-, -, -, hbound, -⟩ := haccounted
    exact ⟨hbound e rfl, nofun⟩
  | finished =>
    exact ⟨(haccounted.2.1.le hw hlive).trans hnext, nofun⟩
  | pending =>
    obtain ⟨-, hskipped, hne, -, hall⟩ := haccounted
    have hle := hskipped.le hw hlive
    have heq : cursor.nextId = e := by omega
    exact absurd (congrArg some heq) hne

end Poll

section Invariant

def Counted (containers : Slab ContainerInfo) (ids : List ℕ) : Prop :=
  ∀ c info, containers.get c = some info → info.refs = ids.count c

theorem Counted.evolves (h : Counted containers ids) (hevolves : Evolves containers containers') :
    Counted containers' ids := by
  intro c info' hget'
  obtain ⟨info, hget, hfollows⟩ := hevolves.back c info' hget'
  rw [hfollows.refs]
  exact h c info hget

theorem Counted.refs_ne_zero (h : Counted containers ids) (hget : containers.get c = some info)
    (hmem : c ∈ ids) : info.refs ≠ 0 := by
  rw [h c info hget]
  exact Nat.ne_of_gt (count_pos_iff.mpr hmem)

/-- A cursor is placed in the ring and has accounted for all ids before its next one, unless it may
have passed its end. -/
structure TrackedOk (w : ℕ) (containers : Slab ContainerInfo) (log : List StoredRecord) (k : ℕ)
    (t : Tracked) : Prop where
  registered : ∃ info, containers.get t.cursor.containerId = some info ∧
    t.cursor.nextId ≤ info.stop ∧
    (2 ≤ w → ∀ e, t.cursor.end_ = .snapshot (some e) → t.cursor.nextId ≤ e ∧ e ≤ info.stop)
  placed : ∃ j, Placed log k t.cursor j
  ledger : 2 ≤ w ∨ t.cursor.end_ = .stream → t.startId + t.ledger.length = t.cursor.nextId

theorem TrackedOk.progress (h : TrackedOk w inner.containers log k t)
    (hprogress : Progress w inner log k inner' log' k')
    (hcounted : Counted inner.containers ids) (hmem : t.cursor.containerId ∈ ids) :
    TrackedOk w inner'.containers log' k' t := by
  obtain ⟨⟨info, hget, hstop, hends⟩, ⟨j, hplaced⟩, hledger⟩ := h
  obtain ⟨info', hget', hfollows⟩ :=
    hprogress.evolves.exists_follows hget (hcounted.refs_ne_zero hget hmem)
  refine ⟨⟨info', hget', hstop.trans hfollows.stop, ?_⟩,
    ⟨j, hplaced.progress hprogress hget hstop⟩, hledger⟩
  intro hw e he
  obtain ⟨hnext, hle⟩ := hends hw e he
  exact ⟨hnext, hle.trans hfollows.stop⟩

/-- A cursor is untouched by a change of the containers that keeps where its container ends. -/
theorem TrackedOk.of_sameStop (h : TrackedOk w containers log k t)
    (hsame : ∀ info, containers.get t.cursor.containerId = some info →
      ∃ info', containers'.get t.cursor.containerId = some info' ∧ info'.stop = info.stop) :
    TrackedOk w containers' log k t := by
  obtain ⟨⟨info, hget, hstop, hends⟩, hplaced, hledger⟩ := h
  obtain ⟨info', hget', heq⟩ := hsame info hget
  refine ⟨⟨info', hget', ?_, ?_⟩, hplaced, hledger⟩
  · rw [heq]
    exact hstop
  · rw [heq]
    exact hends

structure Inv (w : ℕ) (s : System) (log : List StoredRecord) (k : ℕ) : Prop where
  sound : Sound w s.inner log k
  counted : Counted s.inner.containers s.ids
  tracked : ∀ t ∈ s.cursors, TrackedOk w s.inner.containers log k t

theorem mem_ids (h : t ∈ s.cursors) : t.cursor.containerId ∈ s.ids :=
  mem_map.mpr ⟨t, h, rfl⟩

theorem Inv.progress (h : Inv w s log k) (hprogress : Progress w s.inner log k inner' log' k') :
    Inv w { s with inner := inner' } log' k' :=
  ⟨hprogress.sound, h.counted.evolves hprogress.evolves,
    fun t ht => (h.tracked t ht).progress hprogress h.counted (mem_ids ht)⟩

theorem Inv.start (w capacity pageSize : ℕ) : Inv w ⟨.new capacity pageSize, []⟩ [] 0 := by
  refine ⟨⟨⟨Nat.le_refl 0, rfl, rfl, Nat.zero_le _, Nat.le_max_left _ _, .nil, by simp⟩,
    ⟨⟨nodup_nil, nofun, Nat.two_pow_pos 32⟩, ?_, by simp⟩, ?_⟩, ?_, by simp⟩
  all_goals
    intro c info hget
    cases hget

theorem Inv.newContainer (h : Inv w s log k) (hrun : s.inner.newContainer = some (c, inner')) :
    Inv w { s with inner := inner' } log k := by
  obtain ⟨⟨id, containers'⟩, hinsert, heq⟩ := Option.bind_eq_some_iff.mp hrun
  cases heq
  obtain ⟨hvalid, hfree, hget'⟩ := Slab.insert_spec h.sound.table.valid hinsert
  have hne : ∀ d info, s.inner.containers.get d = some info → d ≠ c := by
    rintro d info hget rfl
    rw [hfree] at hget
    cases hget
  have hempty : idsOf c (log.drop k) = [] := by
    rw [idsOf, map_eq_nil_iff, filter_eq_nil_iff]
    intro r hr hcontainer
    obtain ⟨info, hget⟩ := Option.isSome_iff_exists.mp (h.sound.table.registered r hr)
    exact hne _ info hget (of_decide_eq_true hcontainer)
  refine ⟨⟨{ h.sound.ring with }, ⟨hvalid, ?_, ?_⟩, ?_⟩, ?_, ?_⟩
  · intro d info hget
    rw [hget' d] at hget
    split_ifs at hget with hd
    · cases hget
      rw [hd, hempty]
      exact ⟨Nat.le_refl 0, rfl⟩
    · exact h.sound.table.ids d info hget
  · intro r hr
    rw [hget']
    split_ifs
    · rfl
    · exact h.sound.table.registered r hr
  · intro d info hget
    rw [hget' d] at hget
    split_ifs at hget with hd
    · cases hget
      exact ⟨0, Nat.zero_le _, rfl, fun j r _ hlt => absurd hlt (Nat.not_lt_zero j)⟩
    · exact h.sound.first d info hget
  · intro d info hget
    rw [hget' d] at hget
    split_ifs at hget with hd
    · cases hget
      -- no cursor can be over a container that was not there
      refine (count_eq_zero.mpr ?_).symm
      intro hmem
      obtain ⟨t, ht, heq⟩ := mem_map.mp hmem
      obtain ⟨⟨info₀, hget₀, -⟩, -⟩ := h.tracked t ht
      exact hne _ info₀ hget₀ (heq.trans hd)
    · exact h.counted d info hget
  · intro t ht
    refine (h.tracked t ht).of_sameStop ?_
    intro info hget
    refine ⟨info, ?_, rfl⟩
    rw [hget', if_neg (hne _ info hget)]
    exact hget

/-- A new cursor is placed at the first record of its container or at the end. -/
theorem placed_new (h : Sound w inner log k) (hget : inner.containers.get c = some info)
    (mode : StreamMode) {cursor : Cursor} (hrun : (inner.cursor c mode).1 = some cursor) :
    cursor.containerId = c ∧ cursor.nextId ≤ info.stop ∧
      (∀ e, cursor.end_ ≠ .snapshot (some e)) ∧ ∃ j, Placed log k cursor j := by
  obtain ⟨hle, hids⟩ := h.table.ids c info hget
  obtain ⟨jf, hjf, hfirst, hnone⟩ := h.first c info hget
  have hfront : ∀ end_, Placed log k ⟨info.firstIndex, c, info.start, end_⟩ jf := fun end_ =>
    ⟨hjf, hfirst, fun i r hi hlt hr hcontainer => absurd hcontainer (hnone i r hi hlt hr),
      fun i r hi _ hr hcontainer => le_of_ids hids hi hr hcontainer⟩
  rw [Inner.cursor, hget] at hrun
  cases mode with
  | snapshot | snapshotThenSubscribe =>
    cases hrun
    exact ⟨rfl, hle, by simp, jf, hfront _⟩
  | subscribe =>
    cases hrun
    exact ⟨rfl, Nat.le_refl _, by simp, log.length, placed_head h hget rfl rfl⟩

theorem Inv.newCursor (h : Inv w s log k) {mode : StreamMode}
    (hrun : s.inner.cursor c mode = (some cursor, inner')) :
    Inv w ⟨inner', s.cursors ++ [⟨cursor, cursor.nextId, []⟩]⟩ log k := by
  cases hget : s.inner.containers.get c with
  | none =>
    rw [Inner.cursor, hget] at hrun
    cases hrun
  | some info =>
    obtain ⟨hc, hnext, hend, hplaced⟩ :=
      placed_new h.sound hget mode (congrArg Prod.fst hrun)
    have hinner : { s.inner with
        containers := s.inner.containers.set c { info with refs := info.refs + 1 } } = inner' := by
      rw [Inner.cursor, hget] at hrun
      exact congrArg Prod.snd hrun
    subst hinner
    have hset := replaced_set h.sound.table.valid hget { info with refs := info.refs + 1 }
    have hget' := fun d => Slab.get_set (j := d) hget { info with refs := info.refs + 1 }
    refine ⟨h.sound.replace hget hset ⟨rfl, rfl, rfl⟩, ?_, ?_⟩
    · intro d info₀ hget₀
      rw [System.ids, map_append, count_append]
      change info₀.refs = s.ids.count d + count d [cursor.containerId]
      rw [hc]
      rcases hset.cases hget₀ with ⟨rfl, rfl⟩ | ⟨hd, hget₀⟩
      · rw [count_singleton_self, ← h.counted d info hget]
      · have hother : count d [c] = 0 := count_eq_zero.mpr (by simpa using hd)
        rw [hother, h.counted d info₀ hget₀, Nat.add_zero]
    · refine forall_mem_append.mpr ⟨fun t ht => (h.tracked t ht).of_sameStop ?_,
        forall_mem_singleton.mpr ⟨⟨{ info with refs := info.refs + 1 }, ?_, hnext, ?_⟩, hplaced,
          fun _ => Nat.add_zero _⟩⟩
      · intro info₀ hget₀
        rw [hget']
        split_ifs with hd
        · rw [hd, hget] at hget₀
          cases hget₀
          exact ⟨_, rfl, rfl⟩
        · exact ⟨info₀, hget₀, rfl⟩
      · rw [hget', if_pos hc]
      · intro _ e he
        exact absurd he (hend e)

/-- The container of a cursor that is dropped is freed only if no other cursor is over it. -/
theorem Inv.dropCursor (h : Inv w s log k) (hsplit : s.cursors = front ++ t :: back)
    (hrun : s.inner.dropCursor t.cursor = some inner') : Inv w ⟨inner', front ++ back⟩ log k := by
  have hcount : ∀ inner d, s.ids.count d = (System.ids ⟨inner, front ++ back⟩).count d +
      if d = t.cursor.containerId then 1 else 0 := by
    intro inner d
    rw [System.ids, System.ids, hsplit, map_append, map_cons, map_append,
      count_append, count_append, count_cons]
    by_cases hd : d = t.cursor.containerId
    · rw [if_pos hd, hd, if_pos (by simp)]
      omega
    · rw [if_neg hd, if_neg (by simpa using Ne.symm hd)]
      omega
  have hothers : ∀ t' ∈ front ++ back, t' ∈ s.cursors := by
    rw [hsplit]
    exact (sublist_cons_self t back).append_left front |>.subset
  obtain ⟨⟨info, hget, -⟩, -⟩ := h.tracked t (by simp [hsplit])
  have hrefs := h.counted _ info hget
  rw [hcount inner', if_pos rfl] at hrefs
  obtain ⟨containers', hfree, hreplaced⟩ := replace_spec h.sound.table.valid hget
    { info with refs := info.refs - 1 }
  have hinner : { s.inner with containers := containers' } = inner' := by
    rw [Inner.dropCursor, hget] at hrun
    dsimp only at hrun
    rw [if_neg (by omega), hfree] at hrun
    exact Option.some.inj hrun
  subst hinner
  refine ⟨h.sound.replace hget hreplaced ⟨rfl, rfl, rfl⟩, ?_, ?_⟩
  · intro d info₀ hget₀
    rcases hreplaced.cases hget₀ with ⟨rfl, rfl⟩ | ⟨hd, hget₀⟩
    · change info.refs - 1 = _
      omega
    · rw [h.counted d info₀ hget₀, hcount, if_neg hd, Nat.add_zero]
  · intro t' ht'
    refine (h.tracked t' (hothers t' ht')).of_sameStop ?_
    intro info₀ hget₀
    by_cases hd : t'.cursor.containerId = t.cursor.containerId
    · rw [hd, hget] at hget₀
      cases hget₀
      rcases hreplaced.self with hself | ⟨-, hunused⟩
      · rw [hd]
        exact ⟨_, hself, rfl⟩
      · -- the other cursor holds a reference
        exfalso
        have hzero : info.refs - 1 = 0 := (not_active_of_shouldFree hunused).1
        have hpos := count_pos_iff.mpr (mem_ids ht')
        rw [hd] at hpos
        omega
    · exact ⟨info₀, by rw [hreplaced.others _ hd, hget₀], rfl⟩

theorem CursorEnd.snapshot_of_fix {end_ : CursorEnd} {stop e : ℕ}
    (h : end_.fix stop = .snapshot (some e)) :
    end_ = .snapshot (some e) ∨ (end_ = .snapshot none ∧ e = stop) := by
  match end_, h with
  | .snapshot none, rfl => exact .inr ⟨rfl, rfl⟩
  | .snapshot (some _), rfl => exact .inl rfl

theorem CursorEnd.stream_of_fix {end_ : CursorEnd} {stop : ℕ} (h : end_.fix stop = .stream) :
    end_ = .stream := by
  match end_, h with
  | .stream, rfl => rfl

theorem CursorEnd.snapshot_of_endId {end_ : CursorEnd} {e : ℕ} (h : end_.endId = some e) :
    end_ = .snapshot (some e) := by
  match end_, h with
  | .snapshot (some _), rfl => rfl

section

variable (hw : 1 ≤ w) (h : Inv w s log k)
include hw h

/-- What a poll of a cursor of a run does. -/
theorem Inv.pollNext_spec
    (ht : t ∈ s.cursors) (hreads : ∀ socket, ∀ d ∈ (reads socket).1, DatagramOk w d) :
    ∃ result cursor' inner' log' k' info',
      s.inner.pollNext t.cursor reads = some (result, cursor', inner') ∧
      Progress w s.inner log k inner' log' k' ∧
      inner'.containers.get t.cursor.containerId = some info' ∧
      PollOk log' k' info' (t.cursor.end_.fix info'.stop).endId
        { t.cursor with end_ := t.cursor.end_.fix info'.stop } result cursor' ∧
      (2 ≤ w ∨ t.cursor.end_ = .stream → t.cursor.nextId ≤ cursor'.nextId) ∧
      (2 ≤ w → ∀ e, cursor'.end_ = .snapshot (some e) →
        e ≤ info'.stop ∧ cursor'.nextId ≤ e ∧ result ≠ .pending) := by
  obtain ⟨⟨info, hget, hstop, hends⟩, ⟨j, hplaced⟩, -⟩ := h.tracked t ht
  have hrefs := h.counted.refs_ne_zero hget (mem_ids ht)
  obtain ⟨result, cursor', inner', log', k', info', hrun, hprogress, hget', hle, hok⟩ :=
    Archivist.pollNext_spec hw h.sound hget hrefs hplaced hstop hreads
  have hbounds : 2 ≤ w → ∀ e, t.cursor.end_.fix info'.stop = .snapshot (some e) →
      t.cursor.nextId ≤ e ∧ e ≤ info'.stop := by
    intro hw₂ e hfix
    rcases CursorEnd.snapshot_of_fix hfix with hend | ⟨-, heq⟩
    · obtain ⟨hnext, hstop'⟩ := hends hw₂ e hend
      exact ⟨hnext, hstop'.trans hle⟩
    · rw [heq]
      exact ⟨hstop.trans hle, Nat.le_refl _⟩
  refine ⟨result, cursor', inner', log', k', info', hrun, hprogress, hget', hok, ?_, ?_⟩
  · intro hcase
    refine hok.next_mono fun e he => ?_
    have hfix := CursorEnd.snapshot_of_endId he
    rcases hcase with hw₂ | hstream
    · exact (hbounds hw₂ e hfix).1
    · rw [hstream] at hfix
      cases hfix
  · intro hw₂ e he
    have hfix : t.cursor.end_.fix info'.stop = .snapshot (some e) := hok.end_.symm.trans he
    obtain ⟨hnext, hstop'⟩ := hbounds hw₂ e hfix
    rw [hfix] at hok
    obtain ⟨hnext', hresult⟩ := hok.snapshot hw₂ hprogress.sound.ring.ok hnext hstop'
    exact ⟨hstop', hnext', hresult⟩

theorem Inv.poll (hsplit : s.cursors = front ++ t :: back)
    (hreads : ∀ socket, ∀ d ∈ (reads socket).1, DatagramOk w d)
    (hrun : s.inner.pollNext t.cursor reads = some (result, cursor', inner')) :
    ∃ log' k', Inv w ⟨inner', front ++ ⟨cursor', t.startId,
      t.ledger ++ accounts result (cursor'.nextId - t.cursor.nextId)⟩ :: back⟩ log' k' := by
  have ht : t ∈ s.cursors := by simp [hsplit]
  obtain ⟨result₁, cursor₁, inner₁, log', k', info', hrun₁, hprogress, hget', hok, hmono, hends⟩ :=
    h.pollNext_spec hw ht hreads
  rw [hrun₁] at hrun
  cases hrun
  have hcontainer : cursor'.containerId = t.cursor.containerId := hok.containerId
  have hids : System.ids ⟨inner', front ++ ⟨cursor', t.startId,
      t.ledger ++ accounts result (cursor'.nextId - t.cursor.nextId)⟩ :: back⟩ = s.ids := by
    rw [System.ids, System.ids, hsplit, map_append, map_append, map_cons,
      map_cons, hcontainer]
  refine ⟨log', k', hprogress.sound, ?_, ?_⟩
  · rw [hids]
    exact h.counted.evolves hprogress.evolves
  · have hothers : ∀ t' ∈ s.cursors, TrackedOk w inner'.containers log' k' t' :=
      fun t' ht' => (h.tracked t' ht').progress hprogress h.counted (mem_ids ht')
    rw [hsplit] at hothers
    rw [forall_mem_append, forall_mem_cons] at hothers ⊢
    refine ⟨hothers.1, ⟨⟨info', hcontainer ▸ hget', hok.next_le, ?_⟩, hok.placed, ?_⟩, hothers.2.2⟩
    · intro hw₂ e he
      obtain ⟨hstop, hnext, -⟩ := hends hw₂ e he
      exact ⟨hnext, hstop⟩
    · intro hcase
      have hcase' : 2 ≤ w ∨ t.cursor.end_ = .stream := by
        refine hcase.imp_right fun hstream => CursorEnd.stream_of_fix (hok.end_.symm.trans hstream)
      have hlength := hok.length_accounts (hmono hcase')
      have hledger := (h.tracked t ht).ledger hcase'
      rw [length_append]
      dsimp only at hlength ⊢
      omega

theorem Inv.step (hstep : Step w s s') :
    ∃ log' k', Inv w s' log' k' := by
  cases hstep with
  | newContainer hrun => exact ⟨log, k, h.newContainer hrun⟩
  | pushBack msg c hmsg hrun =>
    obtain ⟨inner₁, log₁, k₁, hrun₁, hprogress⟩ := ingest_spec hw h.sound hmsg c
    rw [hrun₁] at hrun
    cases hrun
    exact ⟨log₁, k₁, h.progress hprogress⟩
  | addSocket c socket => exact ⟨log, k, h.progress (addSocket_spec h.sound c socket)⟩
  | serviceSocket datagrams closed hget hmem hdatagrams hrun =>
    obtain ⟨inner₁, log₁, k₁, hrun₁, hprogress⟩ :=
      serviceSocket_spec hw _ closed h.sound hdatagrams
    rw [hrun₁] at hrun
    cases hrun
    exact ⟨log₁, k₁, h.progress hprogress⟩
  | terminate c hrun =>
    obtain ⟨inner₁, hrun₁, hprogress⟩ := terminate_spec h.sound c
    rw [hrun₁] at hrun
    cases hrun
    exact ⟨log, k, h.progress hprogress⟩
  | cursor c mode hrun => exact ⟨log, k, h.newCursor hrun⟩
  | dropCursor front t back hsplit hrun => exact ⟨log, k, h.dropCursor hsplit hrun⟩
  | poll front t back reads hsplit hreads hrun => exact h.poll hw hsplit hreads hrun

end

theorem Reachable.inv (hw : 1 ≤ w) (h : Reachable w capacity pageSize s) :
    ∃ log k, Inv w s log k := by
  induction h with
  | start => exact ⟨[], 0, .start w capacity pageSize⟩
  | step _ hstep ih =>
    obtain ⟨log, k, hinv⟩ := ih
    exact hinv.step hw hstep

end Invariant

end Smos.Archivist
