import Smos.Archivist.Ring

/-!
The integrity of the ring over the operations on it.

The containers own the records: the records of a registered container that are still in the ring
are those of its range of ids, in order.  An operation pops records from the front of the history
and appends records to its end.
-/
namespace Smos.Archivist

open Lib Lib.Bytes Log Archivist.Inner Buffer List Option Nat

variable {w : ℕ} {inner inner' inner'' : Inner} {log log' : List StoredRecord} {k k' : ℕ}
  {live : List StoredRecord} {containers containers' : Slab ContainerInfo} {c : ℕ}
  {info info' : ContainerInfo} {datagrams : List (List UInt8)}

section Table

def idsOf (c : ℕ) (live : List StoredRecord) : List ℕ :=
  (live.filter (·.container = c)).map (·.msgId)

structure Table (containers : Slab ContainerInfo) (live : List StoredRecord) : Prop where
  valid : containers.Valid
  ids : ∀ c info, containers.get c = some info →
    info.start ≤ info.stop ∧ idsOf c live = List.range' info.start (info.stop - info.start)
  registered : ∀ r ∈ live, (containers.get r.container).isSome

/-- What becomes of a container while records are popped and appended. -/
structure Follows (info info' : ContainerInfo) : Prop where
  refs : info'.refs = info.refs
  start : info.start ≤ info'.start
  stop : info.stop ≤ info'.stop

/-- What becomes of the containers: one with references stays, and none is new. -/
structure Evolves (containers containers' : Slab ContainerInfo) : Prop where
  kept : ∀ c info, containers.get c = some info → info.refs ≠ 0 → (containers'.get c).isSome
  back : ∀ c info', containers'.get c = some info' →
    ∃ info, containers.get c = some info ∧ Follows info info'

theorem Follows.refl (info : ContainerInfo) : Follows info info :=
  ⟨rfl, Nat.le_refl _, Nat.le_refl _⟩

theorem Evolves.refl (containers : Slab ContainerInfo) : Evolves containers containers := by
  refine ⟨?_, fun c info h => ⟨info, h, .refl info⟩⟩
  intro c info h _
  rw [h]
  rfl

theorem Evolves.exists_follows (h : Evolves containers containers')
    (hget : containers.get c = some info) (hrefs : info.refs ≠ 0) :
    ∃ info', containers'.get c = some info' ∧ Follows info info' := by
  obtain ⟨info', hget'⟩ := Option.isSome_iff_exists.mp (h.kept c info hget hrefs)
  obtain ⟨info₀, hget₀, hfollows⟩ := h.back c info' hget'
  rw [hget] at hget₀
  cases hget₀
  exact ⟨info', hget', hfollows⟩

theorem Evolves.trans {containers'' : Slab ContainerInfo} (h : Evolves containers containers')
    (h' : Evolves containers' containers'') : Evolves containers containers'' := by
  refine ⟨?_, ?_⟩
  · intro c info hget hrefs
    obtain ⟨info', hget', hfollows⟩ := h.exists_follows hget hrefs
    exact h'.kept c info' hget' (hfollows.refs ▸ hrefs)
  · intro c info'' hget''
    obtain ⟨info', hget', hfollows'⟩ := h'.back c info'' hget''
    obtain ⟨info, hget, hfollows⟩ := h.back c info' hget'
    exact ⟨info, hget, hfollows'.refs.trans hfollows.refs, hfollows.start.trans hfollows'.start,
      hfollows.stop.trans hfollows'.stop⟩

theorem not_active_of_shouldFree (h : info.shouldFree = true) :
    info.refs = 0 ∧ info.stop = info.start := by
  obtain ⟨-, hrefs, hactive⟩ := of_decide_eq_true h
  refine ⟨hrefs, ?_⟩
  by_contra hne
  exact hactive (decide_eq_true (.inl hne))

/-- A container was replaced.  The new one stays, unless it is no longer used. -/
structure Replaced (containers : Slab ContainerInfo) (c : ℕ) (info' : ContainerInfo)
    (containers' : Slab ContainerInfo) : Prop where
  valid : containers'.Valid
  self : containers'.get c = some info' ∨ containers'.get c = none ∧ info'.shouldFree = true
  others : ∀ d, d ≠ c → containers'.get d = containers.get d

theorem replaced_set (hvalid : containers.Valid) (hget : containers.get c = some info)
    (info' : ContainerInfo) : Replaced containers c info' (containers.set c info') := by
  refine ⟨hvalid.set hget info', .inl ?_, fun d hd => ?_⟩
  · rw [Slab.get_set hget, if_pos rfl]
  · rw [Slab.get_set hget, if_neg hd]

/-- A container is replaced and freed if it is no longer used. -/
theorem replace_spec (hvalid : inner.containers.Valid)
    (hget : inner.containers.get c = some info) (info' : ContainerInfo) :
    ∃ containers', freeIfUnused
        { inner with containers := inner.containers.set c info' } c info' =
          some { inner with containers := containers' } ∧
      Replaced inner.containers c info' containers' := by
  have hset := replaced_set hvalid hget info'
  rw [freeIfUnused]
  by_cases hfree : info'.shouldFree = true
  · obtain ⟨containers', hrun, hvalid', hget'⟩ :=
      Slab.free_spec (i := c) (a := info') (by rw [Slab.get_set hget, if_pos rfl]) hset.valid
    refine ⟨containers', ?_, hvalid', .inr ⟨?_, hfree⟩, fun d hd => ?_⟩
    · rw [if_pos hfree, hrun]
      rfl
    · rw [hget', if_pos rfl]
    · rw [hget', if_neg hd, hset.others d hd]
  · exact ⟨_, if_neg hfree, hset⟩

namespace Replaced

section

variable (h : Replaced containers c info' containers')
include h

theorem cases {d : ℕ} {info₀ : ContainerInfo} (hget : containers'.get d = some info₀) :
    d = c ∧ info₀ = info' ∨ d ≠ c ∧ containers.get d = some info₀ := by
  by_cases hd : d = c
  · subst hd
    rcases h.self with hself | ⟨hself, -⟩
    · rw [hself] at hget
      exact .inl ⟨rfl, (Option.some.inj hget).symm⟩
    · rw [hself] at hget
      cases hget
  · rw [h.others d hd] at hget
    exact .inr ⟨hd, hget⟩

theorem evolves (hget : containers.get c = some info)
    (hfollows : Follows info info') : Evolves containers containers' := by
  refine ⟨?_, ?_⟩
  · intro d info₀ hget₀ hrefs
    by_cases hd : d = c
    · rw [hd, hget] at hget₀
      cases hget₀
      rcases h.self with hself | ⟨-, hfree⟩
      · rw [hd, hself]
        rfl
      · exact absurd (hfollows.refs.symm.trans (not_active_of_shouldFree hfree).1) hrefs
    · rw [h.others d hd, hget₀]
      rfl
  · intro d info₀ hget₀
    rcases h.cases hget₀ with ⟨rfl, rfl⟩ | ⟨-, hget₀⟩
    · exact ⟨info, hget, hfollows⟩
    · exact ⟨info₀, hget₀, .refl info₀⟩

theorem table {live' : List StoredRecord} (htable : Table containers live)
    (hids : info'.start ≤ info'.stop ∧
      idsOf c live' = range' info'.start (info'.stop - info'.start))
    (hothers : ∀ d, d ≠ c → idsOf d live' = idsOf d live)
    (hlive : ∀ r ∈ live', r.container = c ∨ r ∈ live) : Table containers' live' := by
  refine ⟨h.valid, ?_, ?_⟩
  · intro d info₀ hget₀
    rcases h.cases hget₀ with ⟨rfl, rfl⟩ | ⟨hd, hget₀⟩
    · exact hids
    · rw [hothers d hd]
      exact htable.ids d info₀ hget₀
  · intro r hr
    by_cases hc : r.container = c
    · rcases h.self with hself | ⟨-, hfree⟩
      · rw [hc, hself]
        rfl
      · -- a container with a record is active
        exfalso
        have hempty := (not_active_of_shouldFree hfree).2
        have hmem : r.msgId ∈ idsOf c live' :=
          mem_map.mpr ⟨r, mem_filter.mpr ⟨hr, decide_eq_true hc⟩, rfl⟩
        rw [hids.2, hempty, Nat.sub_self] at hmem
        cases hmem
    · rw [h.others _ hc]
      exact htable.registered r ((hlive r hr).resolve_left hc)

end

end Replaced

end Table

section First

/-- The first index of a container is that of a record, and none of its records is before it. -/
def FirstOk (log : List StoredRecord) (k c firstIndex : ℕ) : Prop :=
  ∃ jf ≤ log.length, firstIndex = pos log jf ∧
    ∀ j r, k ≤ j → j < jf → log[j]? = some r → r.container ≠ c

def First (containers : Slab ContainerInfo) (log : List StoredRecord) (k : ℕ) : Prop :=
  ∀ c info, containers.get c = some info → FirstOk log k c info.firstIndex

theorem Replaced.first (h : Replaced containers c info' containers')
    (hfirst : First containers log k) (hself : FirstOk log' k' c info'.firstIndex)
    (hothers : ∀ d first, FirstOk log k d first → FirstOk log' k' d first) :
    First containers' log' k' := by
  intro d info₀ hget₀
  rcases h.cases hget₀ with ⟨rfl, rfl⟩ | ⟨-, hget₀⟩
  · exact hself
  · exact hothers d _ (hfirst d info₀ hget₀)

end First

structure Sound (w : ℕ) (inner : Inner) (log : List StoredRecord) (k : ℕ) : Prop where
  ring : Ring w inner log k
  table : Table inner.containers (log.drop k)
  first : First inner.containers log k

structure Progress (w : ℕ) (inner : Inner) (log : List StoredRecord) (k : ℕ) (inner' : Inner)
    (log' : List StoredRecord) (k' : ℕ) : Prop where
  sound : Sound w inner' log' k'
  popped : k ≤ k'
  evolves : Evolves inner.containers inner'.containers
  appended : ∃ added, log' = log ++ added ∧
    ∀ r ∈ added, ∃ info, inner.containers.get r.container = some info ∧ info.stop ≤ r.msgId

theorem Progress.refl (h : Sound w inner log k) : Progress w inner log k inner log k :=
  ⟨h, Nat.le_refl _, .refl _, [], (append_nil log).symm, by simp⟩

theorem Progress.trans {log'' : List StoredRecord} {k'' : ℕ}
    (h : Progress w inner log k inner' log' k')
    (h' : Progress w inner' log' k' inner'' log'' k'') :
    Progress w inner log k inner'' log'' k'' := by
  obtain ⟨added, hlog, hadded⟩ := h.appended
  obtain ⟨added', hlog', hadded'⟩ := h'.appended
  refine ⟨h'.sound, h.popped.trans h'.popped, h.evolves.trans h'.evolves, added ++ added', ?_, ?_⟩
  · rw [hlog', hlog, append_assoc]
  · intro r hr
    rcases mem_append.mp hr with hr | hr
    · exact hadded r hr
    · obtain ⟨info', hget', hle⟩ := hadded' r hr
      obtain ⟨info, hget, hfollows⟩ := h.evolves.back r.container info' hget'
      exact ⟨info, hget, hfollows.stop.trans hle⟩

section Pop

theorem idsOf_cons_self (r : StoredRecord) : idsOf r.container (r :: live) =
    r.msgId :: idsOf r.container live := by
  simp [idsOf]

theorem idsOf_cons_ne {r : StoredRecord} (h : c ≠ r.container) :
    idsOf c (r :: live) = idsOf c live := by
  have hne : ¬ r.container = c := fun heq => h heq.symm
  simp [idsOf, hne]

theorem FirstOk.pop {first : ℕ} (h : FirstOk log k c first) : FirstOk log (k + 1) c first := by
  obtain ⟨jf, hjf, heq, hnone⟩ := h
  exact ⟨jf, hjf, heq, fun j r hj => hnone j r (by omega)⟩

/-- The oldest record is popped. -/
theorem pop_spec (hw : 1 ≤ w) (h : Sound w inner log k) (hk : k < log.length) :
    ∃ inner' r, log[k]? = some r ∧ inner.pop = some (some (8 + r.bytes.length), inner') ∧
      Progress w inner log k inner' log (k + 1) ∧ inner'.buffer = inner.buffer ∧
      inner'.head = inner.head ∧ inner'.tail = inner.tail + (8 + r.bytes.length) := by
  have hr : log[k]? = some log[k] := getElem?_eq_getElem hk
  generalize log[k] = r at hr
  have hdrop := drop_cons hr
  obtain ⟨timestamp, hparse⟩ := h.ring.parseRecord hw (Nat.le_refl k) hr
  rw [← h.ring.tail_eq] at hparse
  have htable := h.table
  rw [hdrop] at htable
  obtain ⟨info, hget⟩ := Option.isSome_iff_exists.mp (htable.registered r mem_cons_self)
  obtain ⟨hle, hids⟩ := htable.ids r.container info hget
  rw [idsOf_cons_self] at hids
  have hpos : info.stop - info.start = info.stop - (info.start + 1) + 1 := by
    have hlength := congrArg length hids
    rw [length_cons, length_range'] at hlength
    omega
  rw [hpos] at hids
  obtain ⟨hid, hrest⟩ := cons.inj hids
  have hne : ¬ inner.head = inner.tail := by
    rw [h.ring.head_eq, h.ring.tail_eq, ← pos_length]
    have hlt := pos_lt hk hk
    omega
  have htail := pos_succ hr
  obtain ⟨containers', hrun, hreplaced⟩ := @replace_spec
    { inner with tail := inner.tail + (r.bytes.length + fxtHeaderSize) } r.container info
    htable.valid hget
    { info with start := info.start + 1, lastRolledOutTimestamp := timestamp }
  refine ⟨{ inner with
      tail := inner.tail + (8 + r.bytes.length)
      containers := containers' }, r, hr, ?_, ⟨⟨?_, ?_, ?_⟩, le_succ k, ?_, [],
        (append_nil log).symm, by simp⟩, rfl, rfl, rfl⟩
  · rw [pop, if_neg hne, hparse]
    dsimp only
    rw [hget]
    change (if info.start % 2 ^ 32 ≠ r.msgId % 2 ^ 32 then none else _) = _
    rw [if_neg (by rw [hid]; simp)]
    rw [hrun, fxtHeaderSize, Nat.add_comm r.bytes.length 8]
    rfl
  · refine ⟨hk, h.ring.head_eq, ?_, ?_, h.ring.len_ge, ?_, h.ring.ok⟩
    · rw [htail, h.ring.tail_eq]
    · have hfits := h.ring.fits
      change inner.head ≤ inner.tail + (8 + r.bytes.length) + inner.buffer.len
      omega
    · exact h.ring.holds.mono (Nat.le_add_right _ _)
  · refine hreplaced.table htable ⟨?_, hrest⟩ ?_ ?_
    · change info.start + 1 ≤ info.stop
      omega
    · intro d hd
      exact (idsOf_cons_ne hd).symm
    · intro r' hr'
      exact .inr (mem_cons_of_mem r hr')
  · have hown := h.first r.container info hget
    exact hreplaced.first h.first hown.pop fun d first hd => hd.pop
  · exact hreplaced.evolves hget ⟨rfl, le_succ _, Nat.le_refl _⟩

theorem popUntil_spec (hw : 1 ≤ w) {required fuel : ℕ} (h : Sound w inner log k)
    (hrequired : required ≤ inner.buffer.len) (hfuel : inner.head - inner.tail < fuel) :
    ∃ inner' k', popUntil required fuel inner.space inner = some inner' ∧
      Progress w inner log k inner' log k' ∧ inner'.buffer = inner.buffer ∧
      inner'.head = inner.head ∧ required ≤ inner'.space := by
  induction fuel generalizing inner k with
  | zero => exact absurd hfuel (Nat.not_lt_zero _)
  | succ fuel ih =>
    rw [popUntil]
    by_cases hspace : inner.space < required
    · have htail := h.ring.tail_le_head
      have hk : k < log.length := by
        by_contra hge
        have heq : k = log.length := by
          have hle := h.ring.popped_le
          omega
        have hempty : inner.head = inner.tail := by
          rw [h.ring.head_eq, h.ring.tail_eq, heq, pos_length]
        rw [space, hempty] at hspace
        omega
      obtain ⟨inner₁, r, hr, hpop, hprogress, hbuffer, hhead, htail₁⟩ := pop_spec hw h hk
      have hle := hprogress.sound.ring.tail_le_head
      have hspace₁ : inner.space + (8 + r.bytes.length) = inner₁.space := by
        have hfits := h.ring.fits
        rw [space, space, hbuffer]
        omega
      obtain ⟨inner₂, k₂, hrun, hprogress₂, hbuffer₂, hhead₂, hspace₂⟩ :=
        ih hprogress.sound (by rw [hbuffer]; exact hrequired) (by omega)
      refine ⟨inner₂, k₂, ?_, hprogress.trans hprogress₂, hbuffer₂.trans hbuffer,
        hhead₂.trans hhead, hspace₂⟩
      rw [if_pos hspace, hpop]
      change popUntil required fuel (inner.space + (8 + r.bytes.length)) inner₁ = _
      rw [hspace₁, hrun]
    · exact ⟨inner, k, if_neg hspace, .refl h, rfl, rfl, Nat.le_of_not_lt hspace⟩

/-- Space is made by popping records. -/
theorem ensureSpace_spec (hw : 1 ≤ w) {required : ℕ} (h : Sound w inner log k)
    (hrequired : required ≤ inner.buffer.len) :
    ∃ inner' k', inner.ensureSpace required = some inner' ∧
      Progress w inner log k inner' log k' ∧ inner'.buffer = inner.buffer ∧
      inner'.head = inner.head ∧ inner'.head + required ≤ inner'.tail + inner'.buffer.len := by
  obtain ⟨inner', k', hrun, hprogress, hbuffer, hhead, hspace⟩ :=
    popUntil_spec hw h hrequired (lt_succ_self _)
  refine ⟨inner', k', hrun, hprogress, hbuffer, hhead, ?_⟩
  have hfits := hprogress.sound.ring.fits
  rw [space] at hspace
  omega

end Pop

section Commit

theorem encodeAll_singleton (r : StoredRecord) : encodeAll [r] = r.encode :=
  flatMap_singleton _ _

/-- A write behind the head leaves the ring as it is. -/
theorem Sound.write {p : ℕ} {data : List UInt8} (h : Sound w inner log k) (hp : inner.head ≤ p)
    (hroom : p + data.length ≤ inner.tail + inner.buffer.len) :
    Sound w { inner with buffer := inner.buffer.write p data } log k := by
  have hhead := h.ring.head_eq
  refine ⟨⟨h.ring.popped_le, hhead, h.ring.tail_eq, ?_, ?_, ?_, h.ring.ok⟩, h.table, h.first⟩
  · rw [len_write]
    exact h.ring.fits
  · rw [len_write]
    exact h.ring.len_ge
  · have hholds := holds_write h.ring.holds (by rw [← hhead]; exact hp) hroom
    rw [len_write]
    exact hholds

theorem FirstOk.concat {first : ℕ} (h : FirstOk log k c first) (r : StoredRecord) :
    FirstOk (log ++ [r]) k c first := by
  obtain ⟨jf, hjf, heq, hnone⟩ := h
  refine ⟨jf, ?_, ?_, ?_⟩
  · rw [length_append]
    exact hjf.trans (Nat.le_add_right _ _)
  · rw [pos_append_le hjf]
    exact heq
  · intro j r' hj hlt hr'
    rw [getElem?_append_left (by omega)] at hr'
    exact hnone j r' hj hlt hr'

/-- A container without records has its first record at the end. -/
theorem firstOk_head (hids : idsOf c (log.drop k) = []) :
    FirstOk log k c (encodeAll log).length := by
  refine ⟨log.length, Nat.le_refl _, (pos_length log).symm, ?_⟩
  intro j r hj hlt hr hcontainer
  have hid : r.msgId ∈ idsOf c (log.drop k) := mem_map.mpr
    ⟨r, mem_filter.mpr ⟨mem_drop_of_getElem? hj hr, decide_eq_true hcontainer⟩, rfl⟩
  rw [hids] at hid
  cases hid

/-- A message behind the place of its word is committed. -/
theorem commit_spec {data : List UInt8} (h : Sound w inner log k)
    (hget : inner.containers.get c = some info)
    (hroom : inner.head + (8 + data.length) ≤ inner.tail + inner.buffer.len)
    (hok : StoredRecord.Ok w ⟨c, info.stop, data⟩) :
    Progress w inner log k
      (commit { inner with buffer := inner.buffer.write (inner.head + 8) data } c info
        data.length) (log ++ [⟨c, info.stop, data⟩]) k := by
  obtain ⟨hle, hids⟩ := h.table.ids c info hget
  have hhead := h.ring.head_eq
  have htail := h.ring.tail_le_head
  have hlength : (encodeAll (log ++ [⟨c, info.stop, data⟩])).length =
      inner.head + (8 + data.length) := by
    rw [encodeAll_append, encodeAll_singleton, length_append, StoredRecord.length_encode,
      hhead]
  have hdrop : (log ++ [(⟨c, info.stop, data⟩ : StoredRecord)]).drop k =
      log.drop k ++ [⟨c, info.stop, data⟩] := drop_append_of_le_length h.ring.popped_le
  have hfirst : FirstOk log k c
      (if info.stop = info.start then inner.head else info.firstIndex) := by
    split_ifs with hempty
    · rw [hhead]
      refine firstOk_head ?_
      rw [hids, hempty, Nat.sub_self]
      rfl
    · exact h.first c info hget
  rw [commit]
  generalize (if info.stop = info.start then inner.head else info.firstIndex) = first at hfirst ⊢
  have hset := replaced_set h.table.valid hget
    { info with firstIndex := first, stop := info.stop + 1 }
  refine ⟨⟨⟨?_, ?_, ?_, ?_, ?_, ?_, ?_⟩, ?_, ?_⟩, Nat.le_refl k, ?_,
    [⟨c, info.stop, data⟩], rfl, ?_⟩
  · rw [length_append]
    exact h.ring.popped_le.trans (Nat.le_add_right _ _)
  · exact hlength.symm
  · rw [pos_append_le h.ring.popped_le]
    exact h.ring.tail_eq
  · rw [len_write, len_write]
    exact hroom
  · rw [len_write, len_write]
    exact h.ring.len_ge
  · have hholds := @Buffer.holds_write_write inner.buffer inner.tail data (encodeAll log)
      h.ring.holds (leBytes 8 (containerMsgId c info.stop)) (by rw [← hhead]; exact htail)
      (by rw [← hhead]; exact hroom)
    rw [← hhead] at hholds
    rw [len_write, len_write, encodeAll_append, encodeAll_singleton]
    exact hholds
  · exact forall_mem_append.mpr ⟨h.ring.ok, forall_mem_singleton.mpr hok⟩
  · rw [hdrop]
    refine hset.table h.table ⟨hle.trans (le_succ _), ?_⟩ ?_ ?_
    · have hconcat : idsOf c (log.drop k ++ [⟨c, info.stop, data⟩]) =
          idsOf c (log.drop k) ++ [info.stop] := by
        simp [idsOf]
      rw [hconcat, hids, succ_sub hle, range'_concat, Nat.one_mul, Nat.add_sub_cancel' hle]
    · intro d hd
      simp [idsOf, hd.symm]
    · exact forall_mem_append.mpr ⟨fun r hr => .inr hr, forall_mem_singleton.mpr (.inl rfl)⟩
  · exact hset.first h.first (hfirst.concat _) fun d first hd => hd.concat _
  · exact hset.evolves hget ⟨rfl, Nat.le_refl _, le_succ _⟩
  · intro r hr
    rw [mem_singleton.mp hr]
    exact ⟨info, hget, Nat.le_refl _⟩

end Commit

section Ingest

/-- A message that is not rejected when it is pushed has at least a number of words. -/
def PushOk (w : ℕ) (msg : List UInt8) : Prop :=
  8 ≤ msg.length → (headerOf msg).rawType = Constants.tracingFormatLogRecordType →
    msgLen msg ≤ msg.length → w ≤ (headerOf msg).sizeWords

/-- A datagram of a socket, which has at least a number of words if it is not rejected. -/
structure DatagramOk (w : ℕ) (datagram : List UInt8) : Prop where
  length_le : datagram.length ≤ maxDatagramLenBytes
  words : 8 ≤ datagram.length →
    (headerOf datagram).rawType = Constants.tracingFormatLogRecordType →
    msgLen datagram = datagram.length → w ≤ (headerOf datagram).sizeWords

/-- A datagram that is not rejected has its header, and so at least one word. -/
theorem datagramOk_one {datagram : List UInt8} (h : datagram.length ≤ maxDatagramLenBytes) :
    DatagramOk 1 datagram := by
  refine ⟨h, fun hlength _ hwords => ?_⟩
  rw [msgLen] at hwords
  omega

theorem lt_of_registered (h : Sound w inner log k) (hget : inner.containers.get c = some info) :
    c < 2 ^ 32 :=
  (Slab.lt_of_get hget).trans h.table.valid.length_lt

theorem ingest_spec (hw : 1 ≤ w) {msg : List UInt8} (h : Sound w inner log k) (hmsg : PushOk w msg)
    (c : ℕ) : ∃ inner' log' k', inner.ingest msg c = some inner' ∧
      Progress w inner log k inner' log' k' := by
  rw [ingest]
  by_cases hlength : msg.length < 8
  · exact ⟨inner, log, k, if_pos hlength, .refl h⟩
  by_cases hbad : (headerOf msg).rawType ≠ Constants.tracingFormatLogRecordType ∨
      msg.length < msgLen msg
  · exact ⟨inner, log, k, by rw [if_neg hlength, if_pos hbad], .refl h⟩
  rw [if_neg hlength, if_neg hbad]
  obtain ⟨htype, hfits⟩ := not_or.mp hbad
  have htype := not_not.mp htype
  have hwords := hmsg (Nat.le_of_not_lt hlength) htype (Nat.le_of_not_lt hfits)
  have hshort : (headerOf msg).sizeWords < 4096 := Inspect.BitField.get_lt (by decide)
  have hlen : minBufferSize ≤ inner.buffer.len := h.ring.len_ge
  have hrequired : msgLen msg + fxtHeaderSize ≤ inner.buffer.len := by
    rw [msgLen, fxtHeaderSize]
    rw [minBufferSize, maxDatagramLenBytes] at hlen
    omega
  obtain ⟨inner₁, k₁, hrun, hprogress, -, -, hroom⟩ := ensureSpace_spec hw h hrequired
  rw [hrun]
  simp only [bind_eq_bind, bind_some]
  cases hget : inner₁.containers.get c with
  | none => exact ⟨inner₁, log, k₁, rfl, hprogress⟩
  | some info =>
    have hdata : (msg.take (msgLen msg)).length = msgLen msg :=
      length_take_of_le (Nat.le_of_not_lt hfits)
    have hheader : headerOf (msg.take (msgLen msg)) = headerOf msg := by
      rw [headerOf, take_take, Nat.min_eq_left (by rw [msgLen]; omega), headerOf]
    have hok : StoredRecord.Ok w ⟨c, info.stop, msg.take (msgLen msg)⟩ := by
      refine ⟨lt_of_registered hprogress.sound hget, ?_, ?_, ?_⟩
      · rw [hheader]
        exact htype
      · rw [hheader]
        exact hwords
      · have hown : msgLen (msg.take (msgLen msg)) = msgLen msg :=
          congrArg (fun header => Header.sizeWords header * 8) hheader
        exact hdata.trans hown.symm
    have hcommit := commit_spec hprogress.sound hget
      (by rw [hdata, Nat.add_comm 8]; exact hroom) hok
    rw [hdata] at hcommit
    exact ⟨_, _, k₁, rfl, hprogress.trans hcommit⟩

theorem readSocket_spec (hw : 1 ≤ w) (closed : Bool)
    (h : Sound w inner log k) (hdatagrams : ∀ d ∈ datagrams, DatagramOk w d) :
    ∃ close inner' log' k', readSocket c closed datagrams inner = some (close, inner') ∧
      Progress w inner log k inner' log' k' := by
  induction datagrams generalizing inner log k with
  | nil =>
    have hrequired : fxtHeaderSize + maxDatagramLenBytes ≤ inner.buffer.len := by
      refine Nat.le_trans ?_ h.ring.len_ge
      decide
    obtain ⟨inner₁, k₁, hrun, hprogress, -⟩ := ensureSpace_spec hw h hrequired
    refine ⟨closed, inner₁, log, k₁, ?_, hprogress⟩
    rw [readSocket, hrun]
    rfl
  | cons datagram datagrams ih =>
    have hdatagram := hdatagrams datagram mem_cons_self
    have hrest : ∀ d ∈ datagrams, DatagramOk w d :=
      fun d hd => hdatagrams d (mem_cons_of_mem datagram hd)
    have hrequired : fxtHeaderSize + maxDatagramLenBytes ≤ inner.buffer.len := by
      refine Nat.le_trans ?_ h.ring.len_ge
      decide
    obtain ⟨inner₁, k₁, hrun, hprogress, -, -, hroom⟩ := ensureSpace_spec hw h hrequired
    have hlength := hdatagram.length_le
    rw [fxtHeaderSize] at hroom
    -- whatever was read is behind the head until it is committed
    have hwrite := @Sound.write w inner₁ log k₁ (inner₁.head + 8) datagram hprogress.sound
      (by omega) (by omega)
    have hread : Progress w inner log k
        { inner₁ with buffer := inner₁.buffer.write (inner₁.head + 8) datagram } log k₁ :=
      ⟨hwrite, hprogress.popped, hprogress.evolves, hprogress.appended⟩
    rw [readSocket, hrun]
    simp only [bind_eq_bind, bind_some]
    cases hget : inner₁.containers.get c with
    | none => exact ⟨true, _, log, k₁, rfl, hread⟩
    | some info =>
      dsimp only
      by_cases hshort : datagram.length < 8
      · rw [if_pos hshort]
        obtain ⟨close, inner₂, log₂, k₂, hrun₂, hprogress₂⟩ := ih hwrite hrest
        exact ⟨close, inner₂, log₂, k₂, hrun₂, hread.trans hprogress₂⟩
      rw [if_neg hshort]
      by_cases hbad : (headerOf datagram).rawType ≠ Constants.tracingFormatLogRecordType ∨
          msgLen datagram ≠ datagram.length
      · rw [if_pos hbad]
        obtain ⟨close, inner₂, log₂, k₂, hrun₂, hprogress₂⟩ := ih hwrite hrest
        exact ⟨close, inner₂, log₂, k₂, hrun₂, hread.trans hprogress₂⟩
      rw [if_neg hbad]
      obtain ⟨htype, heq⟩ := not_or.mp hbad
      have hok : StoredRecord.Ok w ⟨c, info.stop, datagram⟩ :=
        ⟨lt_of_registered hprogress.sound hget, not_not.mp htype,
          hdatagram.words (Nat.le_of_not_lt hshort) (not_not.mp htype) (not_not.mp heq),
          (not_not.mp heq).symm⟩
      have hcommit := commit_spec hprogress.sound hget (by omega) hok
      obtain ⟨close, inner₂, log₂, k₂, hrun₂, hprogress₂⟩ := ih hcommit.sound hrest
      exact ⟨close, inner₂, log₂, k₂, hrun₂, (hprogress.trans hcommit).trans hprogress₂⟩

end Ingest

section Update

structure SameRecords (info info' : ContainerInfo) : Prop where
  firstIndex : info'.firstIndex = info.firstIndex
  start : info'.start = info.start
  stop : info'.stop = info.stop

section

variable (h : Sound w inner log k) (hget : inner.containers.get c = some info)
  (hreplaced : Replaced inner.containers c info' containers') (hsame : SameRecords info info')
include h hget hreplaced hsame

theorem Sound.replace :
    Sound w { inner with containers := containers' } log k := by
  refine ⟨{ h.ring with }, ?_, ?_⟩
  · refine hreplaced.table h.table ?_ (fun d _ => rfl) (fun r hr => .inr hr)
    rw [hsame.start, hsame.stop]
    exact h.table.ids c info hget
  · refine hreplaced.first h.first ?_ (fun d first hd => hd)
    rw [hsame.firstIndex]
    exact h.first c info hget

theorem Progress.replace (hrefs : info'.refs = info.refs) :
    Progress w inner log k { inner with containers := containers' } log k :=
  ⟨h.replace hget hreplaced hsame, Nat.le_refl k,
    hreplaced.evolves hget ⟨hrefs, hsame.start.ge, hsame.stop.ge⟩, [], (append_nil log).symm,
    by simp⟩

end

end Update

section Operations

theorem sameRecords_removeSocket (info : ContainerInfo) (socket : ℕ) :
    SameRecords info (info.removeSocket socket) :=
  ⟨rfl, rfl, rfl⟩

theorem serviceSocket_spec (hw : 1 ≤ w) (socket : ℕ)
    (closed : Bool) (h : Sound w inner log k) (hdatagrams : ∀ d ∈ datagrams, DatagramOk w d) :
    ∃ inner' log' k', inner.serviceSocket c socket datagrams closed = some inner' ∧
      Progress w inner log k inner' log' k' := by
  obtain ⟨close, inner₁, log₁, k₁, hrun, hprogress⟩ :=
    readSocket_spec hw (c := c) closed h hdatagrams
  rw [serviceSocket, hrun]
  cases close with
  | false => exact ⟨inner₁, log₁, k₁, rfl, hprogress⟩
  | true =>
    simp only [bind_eq_bind, bind_some]
    cases hget : inner₁.containers.get c with
    | none => exact ⟨inner₁, log₁, k₁, rfl, hprogress⟩
    | some info =>
      obtain ⟨containers', hfree, hreplaced⟩ := replace_spec hprogress.sound.table.valid hget
        (info.removeSocket socket)
      exact ⟨_, log₁, k₁, hfree, hprogress.trans
        (.replace hprogress.sound hget hreplaced (sameRecords_removeSocket info socket) rfl)⟩

theorem terminate_spec (h : Sound w inner log k) (c : ℕ) :
    ∃ inner', inner.terminate c = some inner' ∧ Progress w inner log k inner' log k := by
  rw [terminate]
  cases hget : inner.containers.get c with
  | none => exact ⟨inner, rfl, .refl h⟩
  | some info =>
    obtain ⟨containers', hfree, hreplaced⟩ := replace_spec h.table.valid hget
      { info with terminated := true, sockets := [] }
    exact ⟨_, hfree, .replace h hget hreplaced ⟨rfl, rfl, rfl⟩ rfl⟩

theorem addSocket_spec (h : Sound w inner log k) (c socket : ℕ) :
    Progress w inner log k (inner.addSocket c socket) log k := by
  rw [addSocket]
  cases hget : inner.containers.get c with
  | none => exact .refl h
  | some info => exact .replace h hget (replaced_set h.table.valid hget _) ⟨rfl, rfl, rfl⟩ rfl

/-- The sockets of a container with references are drained. -/
theorem drainSockets_spec (hw : 1 ≤ w) {reads : ℕ → List (List UInt8) × Bool} {sockets : List ℕ}
    (h : Sound w inner log k) (hget : inner.containers.get c = some info) (hrefs : info.refs ≠ 0)
    (hreads : ∀ socket, ∀ d ∈ (reads socket).1, DatagramOk w d) :
    ∃ inner' log' k', drainSockets c reads sockets inner = some inner' ∧
      Progress w inner log k inner' log' k' := by
  induction sockets generalizing inner log k info with
  | nil => exact ⟨inner, log, k, rfl, .refl h⟩
  | cons socket sockets ih =>
    obtain ⟨close, inner₁, log₁, k₁, hrun, hprogress⟩ :=
      readSocket_spec hw (c := c) (reads socket).2 h (hreads socket)
    obtain ⟨info₁, hget₁, hfollows⟩ := hprogress.evolves.exists_follows hget hrefs
    have hrefs₁ : info₁.refs ≠ 0 := by
      rw [hfollows.refs]
      exact hrefs
    rw [drainSockets, hrun]
    cases close with
    | false =>
      obtain ⟨inner₂, log₂, k₂, hrun₂, hprogress₂⟩ := ih hprogress.sound hget₁ hrefs₁
      exact ⟨inner₂, log₂, k₂, hrun₂, hprogress.trans hprogress₂⟩
    | true =>
      have hset : Progress w inner₁ log₁ k₁ { inner₁ with
          containers := inner₁.containers.set c (info₁.removeSocket socket) } log₁ k₁ :=
        .replace hprogress.sound hget₁ (replaced_set hprogress.sound.table.valid hget₁ _)
          (sameRecords_removeSocket info₁ socket) rfl
      have hget₂ : (inner₁.containers.set c (info₁.removeSocket socket)).get c =
          some (info₁.removeSocket socket) := by
        rw [Slab.get_set hget₁, if_pos rfl]
      obtain ⟨inner₂, log₂, k₂, hrun₂, hprogress₂⟩ := ih hset.sound hget₂ hrefs₁
      refine ⟨inner₂, log₂, k₂, ?_, (hprogress.trans hset).trans hprogress₂⟩
      change (inner₁.containers.get c >>= _) = _
      rw [hget₁]
      exact hrun₂

end Operations

end Smos.Archivist
