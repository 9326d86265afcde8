import Smos.Virtio.Chain

/-!
Walks of descriptor chains return the bytes of the chain.

A chain is finite when following it from its first descriptor ends; `RingChain` is the derivation
that says so, with the segments that the descriptors of the ring and of indirect tables describe, in
order.  `Unread` relates a state of the walk to the segments not yet returned: the stashed part of a
descriptor, the rest of the indirect table and the rest of the ring.
-/
namespace Smos.Virtio

open DriverRange WritableChain
open List hiding splitAt

abbrev Segment := DescAccess × DriverRange

variable {mem : DriverMem} {expected : DescAccess} {fuel limit : ℕ}

/-- Every part of the range is translated, to the corresponding part of one device range. -/
def Translatable (mem : DriverMem) (range : DriverRange) : Prop :=
  range.start ≤ range.stop ∧ ∃ base, ∀ start stop, range.start ≤ start → start ≤ stop →
    stop ≤ range.stop → mem.translate ⟨start, stop⟩ =
      some ⟨base + (start - range.start), base + (stop - range.start)⟩

def deviceBytes (mem : DriverMem) (range : DriverRange) : List ℕ :=
  ((mem.translate range).map DeviceRange.bytes).getD []

def segmentBytes (mem : DriverMem) (segments : List Segment) : List ℕ :=
  segments.flatMap fun segment => deviceBytes mem segment.2

def segmentWeight (segments : List Segment) : ℕ :=
  (segments.map fun segment => segment.2.len + 1).sum

theorem segmentBytes_cons (segment : Segment) (rest : List Segment) :
    segmentBytes mem (segment :: rest) =
      deviceBytes mem segment.2 ++ segmentBytes mem rest := by
  simp [segmentBytes]

theorem segmentWeight_cons (segment : Segment) (rest : List Segment) :
    segmentWeight (segment :: rest) = segment.2.len + 1 + segmentWeight rest := by
  simp [segmentWeight]

namespace Translatable

variable {range : DriverRange} {mid : ℕ}

theorem translate_eq (h : Translatable mem range) {stop : ℕ} (hle : range.start ≤ stop)
    (hstop : stop ≤ range.stop) :
    ∃ device, mem.translate ⟨range.start, stop⟩ = some device ∧
      device.len = stop - range.start := by
  obtain ⟨-, base, hbase⟩ := h
  refine ⟨_, hbase range.start stop le_rfl hle hstop, ?_⟩
  simp only [DeviceRange.len]
  omega

theorem suffix (h : Translatable mem range) (hlo : range.start ≤ mid) (hhi : mid ≤ range.stop) :
    Translatable mem ⟨mid, range.stop⟩ := by
  obtain ⟨-, base, hbase⟩ := h
  refine ⟨hhi, base + (mid - range.start), ?_⟩
  intro start stop hstart hle hstop
  dsimp only at hstart hstop ⊢
  rw [hbase start stop (by omega) hle hstop]
  congr 2 <;> omega

/-- The bytes of a range are those of its two parts. -/
theorem deviceBytes_split (h : Translatable mem range) (hlo : range.start ≤ mid)
    (hhi : mid ≤ range.stop) :
    deviceBytes mem ⟨range.start, mid⟩ ++ deviceBytes mem ⟨mid, range.stop⟩ =
      deviceBytes mem range := by
  obtain ⟨hle, base, hbase⟩ := h
  have hwhole : mem.translate range = _ := hbase range.start range.stop le_rfl hle le_rfl
  simp only [deviceBytes, hwhole, hbase range.start mid le_rfl hlo hhi,
    hbase mid range.stop hlo hhi le_rfl, Option.map_some, Option.getD_some, DeviceRange.bytes,
    DeviceRange.len]
  rw [Nat.sub_self, Nat.add_zero, Nat.add_sub_cancel_left,
    range'_append_1]
  congr 1
  omega

end Translatable

structure Describes (mem : DriverMem) (desc : RingDesc) (segment : Segment) : Prop where
  tryFrom_eq : Desc.tryFrom desc = .ok ⟨.direct segment.1, segment.2⟩
  translatable : Translatable mem segment.2

/-- The rest of an indirect table from a cursor on: direct descriptors, and then the end. -/
inductive TableChain (mem : DriverMem) (table : DeviceRange) :
    Option UInt16 → List Segment → Prop where
  | nil : TableChain mem table none []
  | cons {index : UInt16} {desc : RingDesc} {segment : Segment} {rest : List Segment} :
      IndirectDescChain.descAt mem table index = some desc → Describes mem desc segment →
      TableChain mem table desc.nextIndex rest →
      TableChain mem table (some index) (segment :: rest)

inductive RingChain (mem : DriverMem) : Option UInt16 → List Segment → Prop where
  | nil : RingChain mem none []
  | direct {index : UInt16} {desc : RingDesc} {segment : Segment} {rest : List Segment} :
      mem.getDesc index = some desc → Describes mem desc segment →
      RingChain mem desc.nextIndex rest → RingChain mem (some index) (segment :: rest)
  | indirect {index : UInt16} {desc : RingDesc} {range : DriverRange} {table : DeviceRange}
      {segments rest : List Segment} :
      mem.getDesc index = some desc → Desc.tryFrom desc = .ok ⟨.indirect, range⟩ →
      mem.translate range = some table → TableChain mem table (some 0) segments →
      RingChain mem desc.nextIndex rest → RingChain mem (some index) (segments ++ rest)

def TableRest (mem : DriverMem) : Option IndirectDescChain → List Segment → Prop
  | none, segments => segments = []
  | some chain, segments => TableChain mem chain.range chain.next segments

def CurrentRest (mem : DriverMem) : Option Desc → List Segment → Prop
  | none, segments => segments = []
  | some desc, segments => ∃ segment, desc = ⟨.direct segment.1, segment.2⟩ ∧
      Translatable mem segment.2 ∧ segments = [segment]

def Unread (mem : DriverMem) (s : ChainState) (segments : List Segment) : Prop :=
  ∃ current table ring, segments = current ++ (table ++ ring) ∧ CurrentRest mem s.current current ∧
    TableRest mem s.indirectChain table ∧ RingChain mem s.iter ring

/-- What `next_desc` finds is either the end or the first of the unread segments. -/
def Reaches (mem : DriverMem) (expected : DescAccess) (segments : List Segment) (limit : ℕ)
    (result : Option (Option (Except ChainError DeviceRange) × ChainState)) : Prop :=
  (segments = [] ∧ ∃ s', result = some (none, s') ∧ Unread mem s' []) ∨
  ∃ segment rest s', segments = segment :: rest ∧ Translatable mem segment.2 ∧
    result = some (s'.intoDeviceRange mem expected segment.1 segment.2 limit) ∧
    s'.current = none ∧ Unread mem s' rest

namespace ChainState

variable {s : ChainState} {segments table ring : List Segment}

/-- With a cursor at a descriptor of an indirect table. -/
private theorem reaches_table {chain : IndirectDescChain} {index : UInt16}
    (hcurrent : s.current = none) (hindirect : s.indirectChain = some chain)
    (hnext : chain.next = some index) (htable : TableChain mem chain.range (some index) table)
    (hring : RingChain mem s.iter ring) (hfuel : 1 ≤ fuel) :
    Reaches mem expected (table ++ ring) limit (s.nextWithLimit mem expected fuel limit) := by
  obtain ⟨f, rfl⟩ : ∃ f, fuel = f + 1 := ⟨fuel - 1, by omega⟩
  cases htable with
  | @cons _ desc segment rest hdesc hdescribes hrest =>
    refine .inr ⟨segment, rest ++ ring,
      { s with indirectChain := some { chain with next := desc.nextIndex } }, rfl,
      hdescribes.translatable, ?_, hcurrent, [], rest, ring, rfl, ?_, hrest, hring⟩
    · simp [nextWithLimit, nextDesc, hcurrent, hindirect, IndirectDescChain.nextDesc, hnext, hdesc,
        hdescribes.tryFrom_eq, Except.mapError]
    · simp [hcurrent, CurrentRest]

/-- With a cursor in the ring. -/
private theorem reaches_ring (hcurrent : s.current = none) (hindirect : s.indirectChain = none)
    (hring : RingChain mem s.iter ring) (hfuel : 2 ≤ fuel) :
    Reaches mem expected ring limit (s.nextWithLimit mem expected fuel limit) := by
  obtain ⟨f, rfl⟩ : ∃ f, fuel = f + 1 := ⟨fuel - 1, by omega⟩
  generalize hiter : s.iter = iter at hring
  cases hring with
  | nil =>
    refine .inl ⟨rfl, { s with iter := none }, ?_, [], [], [], rfl, ?_, ?_, RingChain.nil⟩
    · simp [nextWithLimit, nextDesc, hcurrent, hindirect, hiter, descChainNext]
    · simp [hcurrent, CurrentRest]
    · simp [hindirect, TableRest]
  | @direct index desc segment rest hdesc hdescribes hrest =>
    refine .inr ⟨segment, rest, { s with iter := desc.nextIndex }, rfl, hdescribes.translatable, ?_,
      hcurrent, [], [], rest, rfl, ?_, ?_, hrest⟩
    · simp [nextWithLimit, nextDesc, hcurrent, hindirect, hiter, descChainNext, hdesc,
        hdescribes.tryFrom_eq, Except.mapError]
    · simp [hcurrent, CurrentRest]
    · simp [hindirect, TableRest]
  | @indirect index desc range table segments rest hdesc htry htranslate htable hrest =>
    have hstep : s.nextWithLimit mem expected (f + 1) limit =
        nextWithLimit mem expected f { s with
          iter := desc.nextIndex
          indirectChain := some (IndirectDescChain.new table) } limit := by
      simp [nextWithLimit, nextDesc, hcurrent, hindirect, hiter, descChainNext, hdesc, htry,
        Except.mapError, htranslate]
    rw [hstep]
    exact reaches_table hcurrent rfl rfl htable hrest (by omega)

/-- One call of `next_with_limit` reaches the first unread segment. -/
theorem reaches (h : Unread mem s segments) (hfuel : 2 ≤ fuel) :
    Reaches mem expected segments limit (s.nextWithLimit mem expected fuel limit) := by
  obtain ⟨f, rfl⟩ : ∃ f, fuel = f + 1 := ⟨fuel - 1, by omega⟩
  obtain ⟨current, table, ring, rfl, hcurrent, htable, hring⟩ := h
  cases hc : s.current with
  | some desc =>
    rw [hc] at hcurrent
    obtain ⟨segment, rfl, htranslatable, rfl⟩ := hcurrent
    refine .inr ⟨segment, table ++ ring, { s with current := none }, rfl, htranslatable, ?_, rfl,
      [], table, ring, rfl, rfl, htable, hring⟩
    simp [nextWithLimit, nextDesc, hc]
  | none =>
    rw [hc] at hcurrent
    obtain rfl : current = [] := hcurrent
    cases hindirect : s.indirectChain with
    | none =>
      rw [hindirect] at htable
      obtain rfl : table = [] := htable
      exact reaches_ring hc hindirect hring hfuel
    | some chain =>
      rw [hindirect] at htable
      change TableChain mem chain.range chain.next table at htable
      cases hnext : chain.next with
      | some index =>
        rw [hnext] at htable
        rw [nil_append]
        exact reaches_table hc hindirect hnext htable hring (by omega)
      | none =>
        -- The table is exhausted: the walk goes on in the ring.
        rw [hnext] at htable
        cases htable
        have hstep : s.nextWithLimit mem expected (f + 1) limit =
            nextWithLimit mem expected (f + 1) { s with indirectChain := none } limit := by
          simp [nextWithLimit, nextDesc, hc, hindirect, IndirectDescChain.nextDesc, hnext]
        rw [hstep]
        exact reaches_ring (s := { s with indirectChain := none }) hc rfl hring hfuel

/-- A segment with the expected access is returned up to the limit. -/
theorem next_expected {segment : Segment} {rest : List Segment}
    (h : Unread mem s (segment :: rest)) (hfuel : 2 ≤ fuel) (haccess : segment.1 = expected)
    (hlimit : 0 < limit) :
    ∃ range s' left, s.nextWithLimit mem expected fuel limit = some (some (.ok range), s') ∧
      Unread mem s' (left ++ rest) ∧ (∀ x ∈ left, x.1 = expected ∧ 0 < x.2.len) ∧
      range.len = min segment.2.len limit ∧
      range.bytes ++ segmentBytes mem left = deviceBytes mem segment.2 ∧
      segmentWeight left < segment.2.len + 1 := by
  have hreaches : Reaches mem expected (segment :: rest) limit _ := reaches h hfuel
  rcases hreaches with
    ⟨hnil, -⟩ | ⟨segment', rest', s', hcons, htrans, hrun, hcurrent, hunread⟩
  · cases hnil
  obtain ⟨rfl, rfl⟩ := cons.inj hcons
  obtain ⟨access, range⟩ := segment
  obtain rfl : access = expected := haccess
  dsimp only at htrans ⊢
  rw [hrun]
  by_cases hlen : range.len < limit
  · -- The whole of what is left of the descriptor is returned.
    obtain ⟨device, hdevice, hdlen⟩ := htrans.translate_eq htrans.1 le_rfl
    refine ⟨device, s', [], ?_, hunread, by simp, ?_, ?_, ?_⟩
    · have hdevice : mem.translate range = some device := hdevice
      cases access <;> simp [intoDeviceRange, splitAt, hlen, hdevice]
    · rw [hdlen]
      exact (Nat.min_eq_left hlen.le).symm
    · have hdevice : mem.translate range = some device := hdevice
      simp [segmentBytes, deviceBytes, hdevice]
    · simp [segmentWeight]
  · have hstop : range.start + limit ≤ range.stop := by
      simp only [len] at hlen
      omega
    obtain ⟨device, hdevice, hdlen⟩ := htrans.translate_eq (Nat.le_add_right _ limit) hstop
    have hmin : device.len = min range.len limit := by
      rw [hdlen, Nat.min_eq_right (Nat.le_of_not_lt hlen), Nat.add_sub_cancel_left]
    have hbytes : device.bytes = deviceBytes mem ⟨range.start, range.start + limit⟩ := by
      simp [deviceBytes, hdevice]
    have hsplit := htrans.deviceBytes_split (Nat.le_add_right _ limit) hstop
    have hnot : ¬ range.stop - range.start < limit := hlen
    rcases Nat.lt_or_ge (range.start + limit) range.stop with hlt | hge
    · -- The rest of the descriptor is stashed.
      have hrest : 0 < range.stop - (range.start + limit) := by omega
      obtain ⟨current, table, ring, rfl, hcur, htable, hring⟩ := hunread
      rw [hcurrent] at hcur
      obtain rfl : current = [] := hcur
      refine ⟨device,
        { s' with current := some ⟨.direct access, ⟨range.start + limit, range.stop⟩⟩ },
        [(access, ⟨range.start + limit, range.stop⟩)], ?_,
        ⟨_, table, ring, rfl, ⟨_, rfl, htrans.suffix (Nat.le_add_right _ limit) hstop, rfl⟩, htable,
          hring⟩, by simpa [len] using hrest, hmin, ?_, ?_⟩
      · cases access <;>
          simp [intoDeviceRange, splitAt, len, hnot, hdevice, hrest]
      · rw [hbytes, ← hsplit]
        simp [segmentBytes]
      · simp only [segmentWeight, map_cons, map_nil, sum_cons, sum_nil,
          len]
        omega
    · refine ⟨device, s', [], ?_, hunread, by simp, hmin, ?_, by simp [segmentWeight]⟩
      · have hrest : range.stop - (range.start + limit) = 0 := by omega
        cases access <;>
          simp [intoDeviceRange, splitAt, len, hnot, hdevice, hrest]
      · have heq : range.start + limit = range.stop := by omega
        rw [hbytes, heq]
        simp [segmentBytes]

/-- At the end of its part the walk returns nothing and loses nothing. -/
theorem next_end (limit : ℕ) (h : Unread mem s segments) (hfuel : 2 ≤ fuel)
    (hothers : ∀ x ∈ segments, expected = .deviceRead ∧ x.1 = .deviceWrite) :
    ∃ s', s.nextWithLimit mem expected fuel limit = some (none, s') ∧ Unread mem s' segments := by
  have hreaches : Reaches mem expected segments limit _ := reaches h hfuel
  rcases hreaches with
    ⟨rfl, s', hrun, hunread⟩ | ⟨segment, rest, s', rfl, htrans, hrun, hcurrent, hunread⟩
  · exact ⟨s', hrun, hunread⟩
  · obtain ⟨rfl, hwrite⟩ := hothers segment mem_cons_self
    obtain ⟨access, range⟩ := segment
    obtain rfl : access = .deviceWrite := hwrite
    obtain ⟨current, table, ring, rfl, hcur, htable, hring⟩ := hunread
    rw [hcurrent] at hcur
    obtain rfl : current = [] := hcur
    exact ⟨_, hrun, _, table, ring, rfl, ⟨_, rfl, htrans, rfl⟩, htable, hring⟩

end ChainState

def traceBytes (calls : List (ChainState × DeviceRange)) : List ℕ :=
  calls.flatMap fun entry => entry.2.bytes

theorem segmentBytes_append (l m : List Segment) :
    segmentBytes mem (l ++ m) = segmentBytes mem l ++ segmentBytes mem m := by
  simp [segmentBytes]

theorem segmentWeight_append (l m : List Segment) :
    segmentWeight (l ++ m) = segmentWeight l + segmentWeight m := by
  simp [segmentWeight]

namespace ChainState

structure Splits (expected : DescAccess) (mine others : List Segment) : Prop where
  mine : ∀ x ∈ mine, x.1 = expected
  others : ∀ x ∈ others, expected = .deviceRead ∧ x.1 = .deviceWrite

variable {s : ChainState} {mine others : List Segment}

theorem Splits.of_left {segment : Segment} {left : List Segment}
    (h : Splits expected (segment :: mine) others) (hleft : ∀ x ∈ left, x.1 = expected) :
    Splits expected (left ++ mine) others :=
  ⟨forall_mem_append.mpr ⟨hleft, (forall_mem_cons.mp h.mine).2⟩, h.others⟩

/-- The state `last` of a walk after its last range, or its first state if it returns none, is the
one in which the walk is told that there is no more. -/
structure EndsIn (mem : DriverMem) (expected : DescAccess) (fuel : ℕ) (limits : ℕ → ℕ)
    (s : ChainState) (calls : List (ChainState × DeviceRange)) (last s' : ChainState) : Prop where
  of_nil : calls = [] → last = s
  of_last : ∀ (k : ℕ) (entry : ChainState × DeviceRange), calls[k]? = some entry →
    k + 1 = calls.length →
    entry.1.nextWithLimit mem expected (fuel - k) (limits k) = some (some (.ok entry.2), last)
  next_eq : last.nextWithLimit mem expected (fuel - calls.length) (limits calls.length) =
    some (none, s')

theorem EndsIn.cons {limits : ℕ → ℕ} {s₁ last s' : ChainState}
    {calls : List (ChainState × DeviceRange)} {range : DeviceRange}
    (hrun : s.nextWithLimit mem expected (fuel + 1) (limits 0) = some (some (.ok range), s₁))
    (h : EndsIn mem expected fuel (fun i => limits (i + 1)) s₁ calls last s') :
    EndsIn mem expected (fuel + 1) limits s ((s, range) :: calls) last s' := by
  refine ⟨nofun, ?_, ?_⟩
  · intro k entry hentry hk
    cases k with
    | zero =>
      obtain rfl : (s, range) = entry := by simpa using hentry
      rw [h.of_nil (by simpa using hk.symm)]
      exact hrun
    | succ k =>
      rw [Nat.add_sub_add_right]
      exact h.of_last k entry (by simpa using hentry) (by simpa using hk)
  · rw [length_cons, Nat.add_sub_add_right]
    exact h.next_eq

/-- A walk returns its part of the chain and stops in front of the other one.  In every state that
it goes through, what is unread is what the rest of the walk returns. -/
theorem walk_spec (limits : ℕ → ℕ) (h : Unread mem s (mine ++ others))
    (hsplits : Splits expected mine others) (hlimits : ∀ i, 0 < limits i)
    (hfuel : segmentWeight mine + 2 ≤ fuel) :
    ∃ calls s', s.walk mem expected fuel limits = some (.ok calls, s') ∧ Unread mem s' others ∧
      traceBytes calls = segmentBytes mem mine ∧
      (∃ last, EndsIn mem expected fuel limits s calls last s' ∧ Unread mem last others) ∧
      ∀ k entry, calls[k]? = some entry → entry.2.len ≤ limits k ∧
        ∃ left, Unread mem entry.1 (left ++ others) ∧ Splits expected left others ∧
          segmentBytes mem left = traceBytes (calls.drop k) ∧
          segmentWeight left ≤ segmentWeight mine := by
  induction fuel generalizing s mine limits with
  | zero => omega
  | succ fuel ih =>
    cases mine with
    | nil =>
      obtain ⟨s', hrun, hunread⟩ := next_end (limits 0) h (by omega : 2 ≤ fuel + 1)
        hsplits.others
      exact ⟨[], s', by simp [walk, hrun], hunread, rfl, ⟨s, ⟨fun _ => rfl, nofun, hrun⟩, h⟩, nofun⟩
    | cons segment rest =>
      have haccess := hsplits.mine segment mem_cons_self
      have hcons : Unread mem s (segment :: (rest ++ others)) := h
      obtain ⟨range, s₁, left, hrun, hunread, hleft, hlen, hbytes, hweight⟩ :=
        next_expected hcons (by omega : 2 ≤ fuel + 1) haccess (hlimits 0)
      rw [← append_assoc] at hunread
      rw [segmentWeight_cons] at hfuel
      have hsplits' := hsplits.of_left fun x hx => (hleft x hx).1
      have hless : segmentWeight (left ++ rest) < segmentWeight (segment :: rest) := by
        rw [segmentWeight_append, segmentWeight_cons]
        omega
      have hfuel' : segmentWeight (left ++ rest) + 2 ≤ fuel := by
        rw [segmentWeight_cons] at hless
        omega
      obtain ⟨calls, s₂, hwalk, hend, htrace, ⟨last, hlast, hunreadLast⟩, hsteps⟩ :=
        ih (fun i => limits (i + 1)) hunread hsplits' (fun i => hlimits (i + 1)) hfuel'
      have hall : traceBytes ((s, range) :: calls) = segmentBytes mem (segment :: rest) := by
        rw [traceBytes, flatMap_cons, ← traceBytes, htrace, segmentBytes_append, ← append_assoc,
          hbytes, segmentBytes_cons]
      refine ⟨(s, range) :: calls, s₂, ?_, hend, hall, ⟨last, hlast.cons hrun, hunreadLast⟩, ?_⟩
      · simp [walk, hrun, hwalk, Except.map]
      · intro k entry hentry
        cases k with
        | zero =>
          obtain rfl : (s, range) = entry := by simpa using hentry
          exact ⟨hlen.trans_le (Nat.min_le_right _ _), segment :: rest, h, hsplits, hall.symm,
            le_rfl⟩
        | succ k =>
          obtain ⟨hle, left', hunread', hleft', hdrop, hweight'⟩ :=
            hsteps k entry (by simpa using hentry)
          exact ⟨hle, left', hunread', hleft', hdrop, by omega⟩

theorem remaining_spec (h : Unread mem s (mine ++ others)) (hsplits : Splits expected mine others)
    (hfuel : segmentWeight mine + 2 ≤ fuel) :
    ∃ descriptors, s.remaining mem expected fuel =
      some (.ok ⟨(segmentBytes mem mine).length, descriptors⟩) := by
  obtain ⟨calls, s', hwalk, -, hbytes, -⟩ := walk_spec (fun _ => usizeMax) h hsplits
    (fun _ => by decide) hfuel
  refine ⟨calls.length, ?_⟩
  simp [remaining, hwalk, Except.map, ← hbytes, traceBytes, DeviceRange.bytes, length_flatMap]

structure Returns (mem : DriverMem) (expected : DescAccess) (fuel : ℕ) (limits : ℕ → ℕ)
    (segments : List Segment) (s : ChainState) (calls : List (ChainState × DeviceRange))
    (s' : ChainState) : Prop where
  walk_eq : s.walk mem expected fuel limits = some (.ok calls, s')
  bytes_eq : traceBytes calls = segmentBytes mem segments
  le_limit : ∀ (k : ℕ) (entry : ChainState × DeviceRange), calls[k]? = some entry →
    entry.2.len ≤ limits k
  remaining_eq : ∀ (k : ℕ) (entry : ChainState × DeviceRange), calls[k]? = some entry →
    ∃ descriptors, entry.1.remaining mem expected fuel =
      some (.ok ⟨(traceBytes (calls.drop k)).length, descriptors⟩)
  remaining_last : ∃ last, EndsIn mem expected fuel limits s calls last s' ∧
    ∃ descriptors, last.remaining mem expected fuel = some (.ok ⟨0, descriptors⟩)
  remaining_end : ∃ descriptors, s'.remaining mem expected fuel = some (.ok ⟨0, descriptors⟩)

theorem exists_returns (limits : ℕ → ℕ) (h : Unread mem s (mine ++ others))
    (hsplits : Splits expected mine others) (hlimits : ∀ i, 0 < limits i)
    (hfuel : segmentWeight mine + 2 ≤ fuel) :
    ∃ calls s', Returns mem expected fuel limits mine s calls s' ∧ Unread mem s' others := by
  obtain ⟨calls, s', hwalk, hend, hbytes, ⟨last, hlast, hunreadLast⟩, hsteps⟩ :=
    walk_spec limits h hsplits hlimits hfuel
  have hnil : Splits expected [] others := ⟨by simp, hsplits.others⟩
  have hfuel' : segmentWeight [] + 2 ≤ fuel := by
    simp only [segmentWeight, map_nil, sum_nil]
    omega
  refine ⟨calls, s', ⟨hwalk, hbytes, fun k entry hentry => (hsteps k entry hentry).1, ?_,
    ⟨last, hlast, remaining_spec hunreadLast hnil hfuel'⟩, remaining_spec hend hnil hfuel'⟩, hend⟩
  intro k entry hentry
  obtain ⟨-, left, hunread, hleft, hdrop, hweight⟩ := hsteps k entry hentry
  rw [← hdrop]
  exact remaining_spec hunread hleft (by omega)

/-- For every finite chain with the readable descriptors before the writable ones, and all positive
limits, the two walks return the bytes of the readable and of the writable descriptors. -/
theorem walk_byte_for_byte (mem : DriverMem) (firstDesc : UInt16) (reads writes : List Segment)
    (hchain : RingChain mem (some firstDesc) (reads ++ writes))
    (hreads : ∀ x ∈ reads, x.1 = .deviceRead) (hwrites : ∀ x ∈ writes, x.1 = .deviceWrite)
    (limits limits' : ℕ → ℕ) (hlimits : ∀ i, 0 < limits i) (hlimits' : ∀ i, 0 < limits' i) :
    ∃ n, ∀ fuel, n ≤ fuel → ∃ readable s writable w s',
      Returns mem .deviceRead fuel limits reads (ReadableChain.new firstDesc) readable s ∧
      fromReadable mem fuel s = some (.ok w) ∧
      fromIncompleteReadable mem fuel s = some (.ok w) ∧
      Returns mem .deviceWrite fuel limits' writes w writable s' := by
  refine ⟨segmentWeight reads + segmentWeight writes + 2, ?_⟩
  intro fuel hfuel
  have hread : Splits .deviceRead reads writes := ⟨hreads, fun x hx => ⟨rfl, hwrites x hx⟩⟩
  have hwrite : Splits .deviceWrite writes [] := ⟨hwrites, by simp⟩
  have hnew : Unread mem (ReadableChain.new firstDesc) (reads ++ writes) :=
    ⟨[], [], _, rfl, rfl, rfl, hchain⟩
  obtain ⟨readable, s, hreturns, hs⟩ :=
    exists_returns limits hnew hread hlimits (by omega : segmentWeight reads + 2 ≤ fuel)
  obtain ⟨w, hnext, hw⟩ := next_end usizeMax hs (by omega : 2 ≤ fuel) hread.others
  rw [← append_nil writes] at hw
  obtain ⟨writable, s', hreturns', -⟩ :=
    exists_returns limits' hw hwrite hlimits' (by omega : segmentWeight writes + 2 ≤ fuel)
  refine ⟨readable, s, writable, w, s', hreturns, ?_, ?_, hreturns'⟩
  · simp [fromReadable, hnext]
  · obtain ⟨f, rfl⟩ : ∃ f, fuel = f + 1 := ⟨fuel - 1, by omega⟩
    simp [fromIncompleteReadable, walk, hnext, Except.map]

/-- A readable descriptor of four bytes, and an indirect one for a table with a writable one of
three bytes. -/
def exampleMem : DriverMem where
  queueSize := 2
  desc i := if i = 0 then ⟨100, 4, 1, 1⟩ else ⟨64, 16, 4, 0⟩
  readVolatile _ := ⟨200, 3, 2, 0⟩
  translate range := some ⟨range.start, range.stop⟩

theorem translatable_exampleMem (start stop : ℕ) (h : start ≤ stop) :
    Translatable exampleMem ⟨start, stop⟩ := by
  refine ⟨h, start, ?_⟩
  intro start' stop' hstart hle hstop
  dsimp only at hstart hstop
  simp only [exampleMem, Option.some.injEq, DeviceRange.mk.injEq]
  omega

theorem walk_byte_for_byte_two_at_a_time :
    ∃ n, ∀ fuel, n ≤ fuel → ∃ readable s writable w s',
      Returns exampleMem .deviceRead fuel (fun _ => 2) [(.deviceRead, ⟨100, 104⟩)]
        (ReadableChain.new 0) readable s ∧
      fromReadable exampleMem fuel s = some (.ok w) ∧
      fromIncompleteReadable exampleMem fuel s = some (.ok w) ∧
      Returns exampleMem .deviceWrite fuel (fun _ => 2) [(.deviceWrite, ⟨200, 203⟩)]
        w writable s' := by
  have htable : TableChain exampleMem ⟨64, 80⟩ (some 0) [(.deviceWrite, ⟨200, 203⟩)] :=
    .cons rfl ⟨rfl, translatable_exampleMem 200 203 (by omega)⟩ .nil
  have hdesc : exampleMem.getDesc 1 = some ⟨64, 16, 4, 0⟩ := rfl
  have htry : Desc.tryFrom ⟨64, 16, 4, 0⟩ = .ok ⟨.indirect, ⟨64, 80⟩⟩ := rfl
  have hindirect : RingChain exampleMem (some 1) ([(.deviceWrite, ⟨200, 203⟩)] ++ []) :=
    .indirect hdesc htry rfl htable .nil
  have hchain : RingChain exampleMem (some 0)
      ([(.deviceRead, ⟨100, 104⟩)] ++ ([(.deviceWrite, ⟨200, 203⟩)] ++ [])) :=
    .direct rfl ⟨rfl, translatable_exampleMem 100 104 (by omega)⟩ hindirect
  exact walk_byte_for_byte exampleMem 0 _ _ hchain (by simp) (by simp) _ _ (by simp) (by simp)

end ChainState

end Smos.Virtio
