import Smos.Archivist.Integrity

/-!
Cursors over the ring.

A cursor stands between the records of its container it has accounted for and those it has not.
The shortcuts of a poll move it over records of other containers only, so that the first record of
its container that the scan meets is the one with the next id.
-/
namespace Smos.Archivist

open Lib Lib.Bytes Log List

variable {w : ℕ} {inner inner' : Inner} {log log' live : List StoredRecord} {k k' j ji c : ℕ}
  {start stop m : ℕ} {info info' : ContainerInfo} {cursor cursor' : Cursor} {r : StoredRecord}

section Ids

theorem mem_idsOf_drop {x : ℕ} : x ∈ idsOf c (log.drop j) ↔
    ∃ i r, j ≤ i ∧ log[i]? = some r ∧ r.container = c ∧ r.msgId = x := by
  constructor
  · intro hx
    obtain ⟨r, hr, hid⟩ := mem_map.mp hx
    obtain ⟨hmem, hcontainer⟩ := mem_filter.mp hr
    obtain ⟨i, hi⟩ := mem_iff_getElem?.mp hmem
    rw [getElem?_drop] at hi
    exact ⟨j + i, r, Nat.le_add_right j i, hi, of_decide_eq_true hcontainer, hid⟩
  · rintro ⟨i, r, hi, hr, hcontainer, hid⟩
    exact mem_map.mpr
      ⟨r, mem_filter.mpr ⟨mem_drop_of_getElem? hi hr, decide_eq_true hcontainer⟩, hid⟩

theorem idsOf_drop_split (hj : k ≤ j) : idsOf c (log.drop k) =
    idsOf c ((log.take j).drop k) ++ idsOf c (log.drop j) := by
  have hsplit : log.drop k = (log.take j).drop k ++ log.drop j := by
    have hlast : log.drop j = (log.drop k).drop (j - k) := by
      rw [drop_drop, Nat.add_sub_cancel' hj]
    rw [hlast, drop_take, take_append_drop]
  conv_lhs => rw [hsplit]
  rw [idsOf, filter_append, map_append, idsOf, idsOf]

theorem range'_split (hm : start ≤ m) (hm' : m ≤ stop) :
    range' start (stop - start) = range' start (m - start) ++ range' m (stop - m) := by
  have hlength : stop - start = (m - start) + (stop - m) := by omega
  rw [hlength, ← range'_append, Nat.one_mul, Nat.add_sub_cancel' hm]

/-- The records of a container with ids from some number on are those from some place on. -/
theorem ids_of_split (htable : idsOf c (log.drop k) = range' start (stop - start))
    (hm : start ≤ m) (hm' : m ≤ stop) (hj : k ≤ j)
    (hbefore : ∀ i r, k ≤ i → i < j → log[i]? = some r → r.container = c → r.msgId < m)
    (hafter : ∀ i r, j ≤ i → log[i]? = some r → r.container = c → m ≤ r.msgId) :
    idsOf c (log.drop j) = range' m (stop - m) := by
  rw [idsOf_drop_split hj, range'_split hm hm'] at htable
  have hleft : ∀ x ∈ idsOf c ((log.take j).drop k), x < m := by
    intro x hx
    obtain ⟨i, r, hi, hr, hcontainer, hid⟩ := mem_idsOf_drop.mp hx
    have hlt : i < j := by
      have hlen := (List.getElem?_eq_some_iff.mp hr).1
      rw [length_take] at hlen
      omega
    rw [getElem?_take_of_lt hlt] at hr
    rw [← hid]
    exact hbefore i r hi hlt hr hcontainer
  have hright : ∀ x ∈ idsOf c (log.drop j), m ≤ x := by
    intro x hx
    obtain ⟨i, r, hi, hr, hcontainer, hid⟩ := mem_idsOf_drop.mp hx
    rw [← hid]
    exact hafter i r hi hr hcontainer
  -- both splits keep the ids from the number on
  have hfilter := congrArg (filter (fun x => decide (m ≤ x))) htable
  rw [filter_append, filter_append] at hfilter
  rw [filter_eq_nil_iff.mpr, filter_eq_self.mpr, filter_eq_nil_iff.mpr,
    filter_eq_self.mpr] at hfilter
  · exact hfilter
  · intro x hx
    exact decide_eq_true (mem_range'_1.mp hx).1
  · intro x hx hle
    have hlt := (mem_range'_1.mp hx).2
    have hle := of_decide_eq_true hle
    omega
  · intro x hx
    exact decide_eq_true (hright x hx)
  · intro x hx hle
    have hlt := hleft x hx
    have hle := of_decide_eq_true hle
    omega

theorem lt_of_ids (htable : idsOf c (log.drop k) = range' start (stop - start))
    (hm : start ≤ m) (hm' : m ≤ stop) (hj : k ≤ j)
    (hids : idsOf c (log.drop j) = range' m (stop - m)) {i : ℕ} (hi : k ≤ i) (hlt : i < j)
    (hr : log[i]? = some r) (hcontainer : r.container = c) : r.msgId < m := by
  rw [idsOf_drop_split hj, range'_split hm hm', hids] at htable
  have hfront := append_cancel_right htable
  have hmem : r.msgId ∈ idsOf c ((log.take j).drop k) := by
    refine mem_idsOf_drop.mpr ⟨i, r, hi, ?_, hcontainer, rfl⟩
    rw [getElem?_take_of_lt hlt]
    exact hr
  rw [hfront] at hmem
  have hbound := (mem_range'_1.mp hmem).2
  omega

theorem le_of_ids (hids : idsOf c (log.drop j) = range' m (stop - m)) {i : ℕ} (hi : j ≤ i)
    (hr : log[i]? = some r) (hcontainer : r.container = c) : m ≤ r.msgId := by
  have hmem : r.msgId ∈ idsOf c (log.drop j) :=
    mem_idsOf_drop.mpr ⟨i, r, hi, hr, hcontainer, rfl⟩
  rw [hids] at hmem
  exact (mem_range'_1.mp hmem).1

end Ids

section Scan

/-- The messages with ids in a range are in the ring and have no timestamp that can be read. -/
def Skipped (live : List StoredRecord) (c first last : ℕ) : Prop :=
  ∀ id, first ≤ id → id < last →
    ∃ bytes, ⟨c, id, bytes⟩ ∈ live ∧ ∃ error, basicInfo bytes = .error error

/-- A cursor in the ring, with all ids from its next one on behind it. -/
structure At (log : List StoredRecord) (stop : ℕ) (cursor : Cursor) (j : ℕ) : Prop where
  le : j ≤ log.length
  index : cursor.index = pos log j
  next_le : cursor.nextId ≤ stop
  ids : idsOf cursor.containerId (log.drop j) =
    range' cursor.nextId (stop - cursor.nextId)

def Found (live : List StoredRecord) (stop : ℕ) (cursor : Cursor) (result : Option PollResult)
    (nextId : ℕ) : Prop :=
  match result with
  | none => nextId = stop ∧ Skipped live cursor.containerId cursor.nextId stop
  | some (.next bytes) => ∃ id, nextId = id + 1 ∧ cursor.nextId ≤ id ∧
      Skipped live cursor.containerId cursor.nextId id ∧
      ⟨cursor.containerId, id, bytes⟩ ∈ live ∧ ∃ info, basicInfo bytes = .ok info
  | some _ => False

theorem skipped_self : Skipped live c m m := by
  intro id hle hlt
  omega

theorem Skipped.cons {first last : ℕ} {bytes : List UInt8} (hmem : ⟨c, first, bytes⟩ ∈ live)
    {error : ParseError} (herror : basicInfo bytes = .error error)
    (h : Skipped live c (first + 1) last) : Skipped live c first last := by
  intro id hle hlt
  rcases Nat.eq_or_lt_of_le hle with rfl | hgt
  · exact ⟨bytes, hmem, error, herror⟩
  · exact h id hgt hlt

theorem At.finished (hat : At log stop cursor log.length) : cursor.nextId = stop := by
  have hlength := congrArg length hat.ids
  rw [drop_length, length_range'] at hlength
  exact Nat.le_antisymm hat.next_le (Nat.le_of_sub_eq_zero hlength.symm)

theorem At.index_succ (hat : At log stop cursor j) (hr : log[j]? = some r) :
    cursor.index + r.bytes.length + 8 = pos log (j + 1) := by
  rw [pos_succ hr, hat.index]
  omega

/-- The cursor passes a record of its container, which has the id that it looks for. -/
theorem At.own (hat : At log stop cursor j) (hr : log[j]? = some r)
    (hcontainer : r.container = cursor.containerId) :
    r.msgId = cursor.nextId ∧ At log stop
      { cursor with
        index := cursor.index + r.bytes.length + 8
        nextId := cursor.nextId + 1 } (j + 1) := by
  have hids := hat.ids
  rw [drop_cons hr, ← hcontainer, idsOf_cons_self] at hids
  have hlength := congrArg length hids
  rw [length_cons, length_range'] at hlength
  have hmore : stop - cursor.nextId = stop - (cursor.nextId + 1) + 1 := by omega
  rw [hmore] at hids
  obtain ⟨hid, hrest⟩ := cons.inj hids
  refine ⟨hid, (List.getElem?_eq_some_iff.mp hr).1, hat.index_succ hr, ?_, ?_⟩
  · change cursor.nextId + 1 ≤ stop
    omega
  · rw [← hcontainer]
    exact hrest

theorem At.other (hat : At log stop cursor j) (hr : log[j]? = some r)
    (hcontainer : r.container ≠ cursor.containerId) :
    At log stop { cursor with index := cursor.index + r.bytes.length + 8 } (j + 1) := by
  refine ⟨(List.getElem?_eq_some_iff.mp hr).1, hat.index_succ hr, hat.next_le, ?_⟩
  have hids := hat.ids
  rw [drop_cons hr, idsOf_cons_ne hcontainer.symm] at hids
  exact hids

/-- The scan stops at the first message of the container that can be read. -/
theorem scan_spec (hw : 1 ≤ w) (h : Ring w inner log k) {fuel : ℕ} (hk : k ≤ j)
    (hat : At log stop cursor j) (hfuel : inner.head - cursor.index < fuel) :
    ∃ result cursor' j', inner.scan fuel cursor = some (result, cursor') ∧ j ≤ j' ∧
      At log stop cursor' j' ∧ cursor'.containerId = cursor.containerId ∧
      cursor'.end_ = cursor.end_ ∧ Found (log.drop k) stop cursor result cursor'.nextId := by
  induction fuel generalizing cursor j with
  | zero => exact absurd hfuel (Nat.not_lt_zero _)
  | succ fuel ih =>
    rw [Inner.scan]
    have hhead : inner.head = pos log log.length := by rw [h.head_eq, pos_length]
    rcases hat.le.lt_or_eq with hj | hj
    · have hlt : cursor.index < inner.head := by
        rw [hat.index, hhead]
        exact pos_lt hj hj
      rw [if_pos hlt]
      have hr : log[j]? = some log[j] := getElem?_eq_getElem hj
      generalize log[j] = r at hr
      obtain ⟨timestamp, hparse⟩ := h.parseRecord hw hk hr
      rw [← hat.index] at hparse
      rw [hparse]
      dsimp only
      have hle : cursor.index + r.bytes.length + 8 ≤ inner.head := by
        rw [hat.index_succ hr, hhead]
        exact pos_mono hj
      have hfuel' : inner.head - (cursor.index + r.bytes.length + 8) < fuel := by omega
      rw [if_neg (Nat.not_lt.mpr hle)]
      by_cases hcontainer : r.container = cursor.containerId
      · rw [if_pos hcontainer]
        obtain ⟨hid, hat'⟩ := hat.own hr hcontainer
        rw [if_neg (by rw [hid]; simp)]
        have hmem : (⟨cursor.containerId, cursor.nextId, r.bytes⟩ : StoredRecord) ∈ log.drop k := by
          rw [← hcontainer, ← hid]
          exact mem_drop_of_getElem? hk hr
        cases hinfo : basicInfo r.bytes with
        | ok info =>
          exact ⟨_, _, j + 1, rfl, Nat.le_succ j, hat', rfl, rfl, cursor.nextId, rfl,
            Nat.le_refl _, skipped_self, hmem, info, hinfo⟩
        | error error =>
          obtain ⟨result, cursor', j', hrun, hle', hat'', hc, hend, hfound⟩ :=
            ih (hk.trans (Nat.le_succ j)) hat' hfuel'
          refine ⟨result, cursor', j', hrun, (Nat.le_succ j).trans hle', hat'', hc, hend, ?_⟩
          match result, hfound with
          | none, ⟨hstop, hskipped⟩ => exact ⟨hstop, hskipped.cons hmem hinfo⟩
          | some (.next bytes), ⟨id, hnext, hge, hskipped, hstored⟩ =>
            exact ⟨id, hnext, (Nat.le_succ _).trans hge, hskipped.cons hmem hinfo, hstored⟩
      · rw [if_neg hcontainer]
        obtain ⟨result, cursor', j', hrun, hle', hat'', hc, hend, hfound⟩ :=
          ih (hk.trans (Nat.le_succ j)) (hat.other hr hcontainer) hfuel'
        exact ⟨result, cursor', j', hrun, (Nat.le_succ j).trans hle', hat'', hc, hend, hfound⟩
    · -- all records are behind the cursor
      rw [if_neg (by rw [hat.index, hj, hhead]; exact Nat.lt_irrefl _)]
      have hstop : cursor.nextId = stop := At.finished (hj ▸ hat)
      refine ⟨none, cursor, j, rfl, Nat.le_refl j, hat, rfl, rfl, hstop, ?_⟩
      rw [hstop]
      exact skipped_self

end Scan

section Placed

/-- A cursor stands before a record of the history: the ids of the records of its container that are
in the ring are below its next id before that place and not below it after. -/
structure Placed (log : List StoredRecord) (k : ℕ) (cursor : Cursor) (ji : ℕ) : Prop where
  le : ji ≤ log.length
  index : cursor.index = pos log ji
  before : ∀ i r, k ≤ i → i < ji → log[i]? = some r → r.container = cursor.containerId →
    r.msgId < cursor.nextId
  after : ∀ i r, k ≤ i → ji ≤ i → log[i]? = some r → r.container = cursor.containerId →
    cursor.nextId ≤ r.msgId

/-- A cursor keeps its place while records are popped and appended. -/
theorem Placed.progress (h : Placed log k cursor ji)
    (hprogress : Progress w inner log k inner' log' k')
    (hget : inner.containers.get cursor.containerId = some info)
    (hstop : cursor.nextId ≤ info.stop) : Placed log' k' cursor ji := by
  obtain ⟨added, hlog, hadded⟩ := hprogress.appended
  have hpopped := hprogress.popped
  subst hlog
  refine ⟨?_, ?_, ?_, ?_⟩
  · rw [length_append]
    exact h.le.trans (Nat.le_add_right _ _)
  · rw [pos_append_le h.le]
    exact h.index
  · intro i r hi hlt hr
    have hle := h.le
    rw [getElem?_append_left (by omega)] at hr
    exact h.before i r (by omega) hlt hr
  · intro i r hi hge hr hcontainer
    rcases Nat.lt_or_ge i log.length with hlt | hnew
    · rw [getElem?_append_left hlt] at hr
      exact h.after i r (by omega) hge hr hcontainer
    · rw [getElem?_append_right hnew] at hr
      obtain ⟨info', hget', hfresh⟩ := hadded r (mem_of_getElem? hr)
      rw [hcontainer, hget] at hget'
      cases hget'
      exact hstop.trans hfresh

theorem At.placed (htable : idsOf cursor.containerId (log.drop k) =
    range' start (stop - start)) (hstart : start ≤ cursor.nextId) (hk : k ≤ j)
    (h : At log stop cursor j) : Placed log k cursor j :=
  ⟨h.le, h.index, fun _ _ hi hlt hr => lt_of_ids htable hstart h.next_le hk h.ids hi hlt hr,
    fun _ _ _ hge hr => le_of_ids h.ids hge hr⟩

/-- A cursor that has accounted for all messages stands at the end. -/
theorem placed_head (h : Sound w inner log k)
    (hget : inner.containers.get cursor.containerId = some info)
    (hindex : cursor.index = inner.head) (hnext : cursor.nextId = info.stop) :
    Placed log k cursor log.length := by
  obtain ⟨hle, hids⟩ := h.table.ids _ info hget
  refine ⟨Nat.le_refl _, ?_, ?_, ?_⟩
  · rw [hindex, h.ring.head_eq, pos_length]
  · intro i r hi _ hr hcontainer
    have hmem : r.msgId ∈ idsOf cursor.containerId (log.drop k) :=
      mem_idsOf_drop.mpr ⟨i, r, hi, hr, hcontainer, rfl⟩
    rw [hids] at hmem
    have hbound := (mem_range'_1.mp hmem).2
    omega
  · intro i r _ hge hr
    rw [getElem?_eq_none hge] at hr
    cases hr

def shortcut (inner : Inner) (container : ContainerInfo) (cursor : Cursor) : Cursor :=
  { cursor with index := max (max cursor.index inner.tail) container.firstIndex }

theorem pos_max (log : List StoredRecord) (i j : ℕ) :
    max (pos log i) (pos log j) = pos log (max i j) :=
  (Monotone.map_max fun _ _ hle => pos_mono hle).symm

/-- The shortcuts leave no record of the container behind. -/
theorem Placed.shortcut (h : Sound w inner log k)
    (hget : inner.containers.get cursor.containerId = some info) (hplaced : Placed log k cursor ji)
    (hstart : info.start ≤ cursor.nextId) (hstop : cursor.nextId ≤ info.stop) :
    ∃ j, k ≤ j ∧ At log info.stop (shortcut inner info cursor) j := by
  obtain ⟨hle, hids⟩ := h.table.ids _ info hget
  obtain ⟨jf, hjf, hfirst, hnone⟩ := h.first _ info hget
  refine ⟨max (max ji k) jf, by omega, ?_, ?_, hstop, ?_⟩
  · have hpopped := h.ring.popped_le
    have hji := hplaced.le
    omega
  · change max (max cursor.index inner.tail) info.firstIndex = _
    rw [hplaced.index, h.ring.tail_eq, hfirst, pos_max, pos_max]
  · refine ids_of_split hids hstart hstop (by omega) ?_ ?_
    · intro i r hi hlt hr hcontainer
      rcases Nat.lt_or_ge i ji with hbefore | hge
      · exact hplaced.before i r hi hbefore hr hcontainer
      · exact absurd hcontainer (hnone i r hi (by omega) hr)
    · intro i r hi hr hcontainer
      exact hplaced.after i r (by omega) (by omega) hr hcontainer

end Placed

section Poll

/-- What a poll accounts for: the ids from the next one of the cursor up to the next one after.  A
message is returned if there is one that can be read; messages are rolled out up to the first one
in the ring or to the end; there is nothing more at the end, or if the container is terminated and
all its messages are accounted for; and a poll waits only for messages that are not there yet. -/
def Accounted (live : List StoredRecord) (info : ContainerInfo) (endId : Option ℕ)
    (cursor : Cursor) (result : PollResult) (nextId : ℕ) : Prop :=
  match result with
  | .next bytes => some cursor.nextId ≠ endId ∧ ∃ id, nextId = id + 1 ∧ cursor.nextId ≤ id ∧
      Skipped live cursor.containerId cursor.nextId id ∧
      ⟨cursor.containerId, id, bytes⟩ ∈ live ∧ ∃ info, basicInfo bytes = .ok info
  | .itemsRolledOut count _ => cursor.nextId < info.start ∧ nextId ≤ info.start ∧
      (nextId = info.start ∨ some nextId = endId) ∧ (∀ e, endId = some e → nextId ≤ e) ∧
      (cursor.nextId ≤ nextId → nextId = cursor.nextId + count ∧ 0 < count)
  | .finished => cursor.nextId ≤ nextId ∧ Skipped live cursor.containerId cursor.nextId nextId ∧
      (nextId = cursor.nextId ∧ some nextId = endId ∨ info.terminated = true ∧ nextId = info.stop)
  | .pending => cursor.nextId ≤ nextId ∧ Skipped live cursor.containerId cursor.nextId nextId ∧
      some cursor.nextId ≠ endId ∧ info.terminated = false ∧ nextId = info.stop

structure PollOk (log : List StoredRecord) (k : ℕ) (info : ContainerInfo) (endId : Option ℕ)
    (cursor : Cursor) (result : PollResult) (cursor' : Cursor) : Prop where
  containerId : cursor'.containerId = cursor.containerId
  end_ : cursor'.end_ = cursor.end_
  placed : ∃ j, Placed log k cursor' j
  next_le : cursor'.nextId ≤ info.stop
  accounted : Accounted (log.drop k) info endId cursor result cursor'.nextId

theorem rolledOutTo_spec (start : ℕ) (endId : Option ℕ) :
    Inner.rolledOutTo start endId ≤ start ∧
      (Inner.rolledOutTo start endId = start ∨ some (Inner.rolledOutTo start endId) = endId) ∧
      ∀ e, endId = some e → Inner.rolledOutTo start endId ≤ e := by
  cases endId with
  | none => exact ⟨Nat.le_refl _, .inl rfl, nofun⟩
  | some e =>
    refine ⟨Nat.min_le_left _ _, ?_, fun e' he' => by cases he'; exact Nat.min_le_right _ _⟩
    rcases Nat.le_total start e with hle | hle
    · exact .inl (Nat.min_eq_left hle)
    · exact .inr (congrArg some (Nat.min_eq_right hle))

section

variable (h : Sound w inner log k) (hget : inner.containers.get cursor.containerId = some info)
include h hget

/-- The messages of the container are rolled out up to a number. -/
theorem Placed.rolledOut (hplaced : Placed log k cursor ji)
    (hlt : cursor.nextId < info.start) {nextId : ℕ} (hnext : nextId ≤ info.start) :
    Placed log k { cursor with nextId := nextId } ji := by
  obtain ⟨-, hids⟩ := h.table.ids _ info hget
  have hlive : ∀ i r, k ≤ i → log[i]? = some r → r.container = cursor.containerId →
      info.start ≤ r.msgId := fun i r hi hr hcontainer => le_of_ids hids hi hr hcontainer
  refine ⟨hplaced.le, hplaced.index, ?_, ?_⟩
  · intro i r hi hbefore hr hcontainer
    have hid := hplaced.before i r hi hbefore hr hcontainer
    have hge := hlive i r hi hr hcontainer
    omega
  · intro i r hi _ hr hcontainer
    exact hnext.trans (hlive i r hi hr hcontainer)

/-- The part of a poll behind the shortcuts. -/
theorem search_spec (hw : 1 ≤ w) (hstart : info.start ≤ cursor.nextId) (hk : k ≤ j)
    (hat : At log info.stop cursor j) :
    ∃ result cursor', inner.search info cursor = some (result, cursor') ∧
      cursor'.containerId = cursor.containerId ∧ cursor'.end_ = cursor.end_ ∧
      (∃ j, Placed log k cursor' j) ∧ cursor'.nextId ≤ info.stop ∧
      Found (log.drop k) info.stop cursor result cursor'.nextId := by
  obtain ⟨-, hids⟩ := h.table.ids _ info hget
  rw [Inner.search]
  by_cases hall : cursor.nextId = info.stop
  · rw [if_pos hall]
    have hskipped : Skipped (log.drop k) cursor.containerId cursor.nextId info.stop := by
      rw [hall]
      exact skipped_self
    exact ⟨none, { cursor with index := inner.head }, rfl, rfl, rfl,
      ⟨log.length, placed_head h hget rfl hall⟩, hat.next_le, hall, hskipped⟩
  · rw [if_neg hall]
    obtain ⟨result, cursor', j', hrun, hle, hat', hc, hend, hfound⟩ :=
      scan_spec hw h.ring hk hat (Nat.lt_succ_self _)
    refine ⟨result, cursor', hrun, hc, hend, ⟨j', ?_⟩, hat'.next_le, hfound⟩
    have hnext : cursor.nextId ≤ cursor'.nextId := by
      match result, hfound with
      | none, ⟨hstop, _⟩ =>
        rw [hstop]
        exact hat.next_le
      | some (.next bytes), ⟨id, heq, hge, _⟩ =>
        rw [heq]
        exact hge.trans (Nat.le_succ id)
    refine At.placed ?_ (hstart.trans hnext) (hk.trans hle) hat'
    rw [hc]
    exact hids

/-- A poll with a fixed end returns. -/
theorem pollFrom_spec (hw : 1 ≤ w) (hplaced : Placed log k cursor ji)
    (hstop : cursor.nextId ≤ info.stop) (endId : Option ℕ) :
    ∃ result cursor', inner.pollFrom info cursor endId = some (result, cursor') ∧
      PollOk log k info endId cursor result cursor' := by
  obtain ⟨hle, -⟩ := h.table.ids _ info hget
  unfold Inner.pollFrom
  by_cases hend : some cursor.nextId = endId
  · rw [if_pos hend]
    exact ⟨_, _, rfl, rfl, rfl, ⟨ji, hplaced⟩, hstop, Nat.le_refl _, skipped_self,
      .inl ⟨rfl, hend⟩⟩
  rw [if_neg hend]
  by_cases hrolled : cursor.nextId < info.start
  · rw [if_pos hrolled]
    obtain ⟨hstart, hreached, hbound⟩ := rolledOutTo_spec info.start endId
    dsimp only
    generalize Inner.rolledOutTo info.start endId = nextId at hstart hreached hbound ⊢
    refine ⟨_, _, rfl, rfl, rfl, ⟨ji, hplaced.rolledOut h hget hrolled hstart⟩,
      hstart.trans hle, hrolled, hstart, hreached, hbound, fun hge => ?_⟩
    have hne : nextId ≠ cursor.nextId := by
      rcases hreached with heq | heq
      · omega
      · exact fun hsame => hend (hsame ▸ heq)
    rw [if_pos hge]
    dsimp only at hge ⊢
    omega
  · rw [if_neg hrolled]
    have hstart := Nat.le_of_not_lt hrolled
    obtain ⟨j, hk, hat⟩ := hplaced.shortcut h hget hstart hstop
    obtain ⟨result, cursor', hrun, hc, hend', hplaced', hnext, hfound⟩ :=
      @search_spec w inner log k j info (shortcut inner info cursor) h hget hw hstart hk hat
    change ∃ result cursor', (inner.search info (shortcut inner info cursor) >>= _) =
      some (result, cursor') ∧ _
    rw [hrun]
    cases result with
    | some result =>
      cases result with
      | next bytes => exact ⟨_, _, rfl, hc, hend', hplaced', hnext, hend, hfound⟩
      | _ => exact hfound.elim
    | none =>
      obtain ⟨hall, hskipped⟩ := hfound
      have hge : cursor.nextId ≤ cursor'.nextId := hall ▸ hstop
      have hskipped' : Skipped (log.drop k) cursor.containerId cursor.nextId cursor'.nextId :=
        hall ▸ hskipped
      cases hterminated : info.terminated with
      | true =>
        exact ⟨.finished, cursor', rfl, hc, hend', hplaced', hnext, hge, hskipped',
          .inr ⟨hterminated, hall⟩⟩
      | false =>
        exact ⟨.pending, cursor', rfl, hc, hend', hplaced', hnext, hge, hskipped', hend,
          hterminated, hall⟩

end

/-- A message of two words has a timestamp. -/
theorem StoredRecord.Ok.basicInfo (hw : 2 ≤ w) (h : r.Ok w) :
    ∃ info, basicInfo r.bytes = .ok info := by
  have hlength := h.length_ge
  have hheader : (headerOf r.bytes).rawType = Constants.tracingFormatLogRecordType := h.rawType
  rw [Archivist.basicInfo, read64, if_neg (by omega)]
  change ∃ info, (if (headerOf r.bytes).rawType ≠ Constants.tracingFormatLogRecordType then
    _ else _) = Except.ok info
  rw [if_neg (not_not.mpr hheader), read64, if_neg (by rw [length_drop]; omega)]
  exact ⟨_, rfl⟩

theorem Skipped.le (hw : 2 ≤ w) (hok : ∀ r ∈ live, r.Ok w) {first last : ℕ}
    (h : Skipped live c first last) : last ≤ first := by
  by_contra hlt
  obtain ⟨bytes, hmem, error, herror⟩ := h first (Nat.le_refl _) (Nat.lt_of_not_le hlt)
  obtain ⟨info, hinfo⟩ := (hok _ hmem).basicInfo hw
  rw [hinfo] at herror
  cases herror

end Poll

end Smos.Archivist
