import Smos.Virtio.ChainWalk

/-!
Chains as byte streams: `Read for ReadableChain` and `Write for WritableChain` in
`virtio-device/src/chain.rs`.

A copied byte is named by its device address.  Both streams unwrap a pointer to the range that the
walk returns, and there is none to a range without bytes: reading panics at a descriptor without
bytes, and writing panics if it gets that far.
-/
namespace Smos.Virtio

open List ChainState Option

/-- What `read` and `write` do up to the copy: the addresses of the copied bytes, which fit into the
buffer. -/
def transfer (mem : DriverMem) (expected : DescAccess) (fuel : ℕ) (s : ChainState) (bufLen : ℕ) :
    Option (Except ChainError (List ℕ) × ChainState) := do
  match ← s.nextWithLimit mem expected fuel bufLen with
  | (none, s) => return (.ok [], s)
  | (some (.error e), s) => return (.error e, s)
  | (some (.ok range), s) =>
    -- `try_ptr` returns nothing for a range that is shorter than a byte
    if range.len ≤ bufLen ∧ 1 ≤ range.len then return (.ok range.bytes, s) else none

def ReadableChain.read (mem : DriverMem) := transfer mem .deviceRead

def readToEnd (mem : DriverMem) : ℕ → (ℕ → ℕ) → ChainState → Option (Except ChainError (List ℕ))
  | 0, _, _ => none
  | fuel + 1, bufLens, s => do
    match ← ReadableChain.read mem (fuel + 1) s (bufLens 0) with
    | (.error e, _) => return .error e
    | (.ok [], _) => return .ok []
    | (.ok bytes, s) => return (← readToEnd mem fuel (fun i => bufLens (i + 1)) s).map (bytes ++ ·)

namespace WritableChain

def addWritten (written len : UInt32) : Option UInt32 :=
  if written.toNat + len.toNat < 2 ^ 32 then some (written + len) else none

def write (mem : DriverMem) (fuel : ℕ) (s : ChainState) (written : UInt32) (bufLen : ℕ) :
    Option (Except ChainError (List ℕ) × ChainState × UInt32) := do
  match ← transfer mem .deviceWrite fuel s bufLen with
  | (.error e, s) => return (.error e, s, written)
  -- nothing is added at the end
  | (.ok bytes, s) => return (.ok bytes, s, ← addWritten written bytes.length.toUInt32)

end WritableChain

inductive WriteError where
  | chain (error : ChainError)
  | writeZero
  deriving DecidableEq, Repr

/-- `Write::write_all`: the bytes with the addresses that they are copied to, and the count for the
driver. -/
def writeAll (mem : DriverMem) :
    ℕ → ChainState → UInt32 → List UInt8 → Option (Except WriteError (List (ℕ × UInt8) × UInt32))
  | _, _, written, [] => some (.ok ([], written))
  | 0, _, _, _ :: _ => none
  | fuel + 1, s, written, buf => do
    match ← WritableChain.write mem (fuel + 1) s written buf.length with
    | (.error e, _) => return .error (.chain e)
    | (.ok [], _) => return .error .writeZero
    | (.ok bytes, s, written) =>
      return (← writeAll mem fuel s written (buf.drop bytes.length)).map fun (copied, written) =>
        (bytes.zip buf ++ copied, written)

def beforeEmpty (segments : List Segment) : List Segment :=
  segments.takeWhile fun segment => 0 < segment.2.len

variable {mem : DriverMem} {expected : DescAccess} {fuel bufLen : ℕ} {s w : ChainState}
  {segment : Segment} {rest mine others reads writes : List Segment}

/-- A transfer copies the front of the first segment, unless the segment has no bytes. -/
theorem transfer_cons (h : Unread mem s (segment :: (rest ++ others)))
    (hsplits : Splits expected (segment :: rest) others) (hfuel : 2 ≤ fuel) (hlen : 0 < bufLen) :
    ∃ bytes s' left, transfer mem expected fuel s bufLen =
        (if 0 < segment.2.len then some (.ok bytes, s') else none) ∧
      bytes.length = min segment.2.len bufLen ∧ Unread mem s' (left ++ rest ++ others) ∧
      Splits expected (left ++ rest) others ∧ (∀ x ∈ left, 0 < x.2.len) ∧
      segmentWeight (left ++ rest) < segmentWeight (segment :: rest) ∧
      ∀ l, bytes ++ segmentBytes mem (left ++ l) = segmentBytes mem (segment :: l) := by
  obtain ⟨range, s', left, hrun, hunread, hleft, hmin, hbytes, hweight⟩ :=
    next_expected h hfuel (hsplits.mine segment mem_cons_self) hlen
  refine ⟨range.bytes, s', left, ?_, length_range'.trans hmin, append_assoc .. ▸ hunread,
    hsplits.of_left fun x hx => (hleft x hx).1, fun x hx => (hleft x hx).2, ?_, ?_⟩
  · have hiff : range.len ≤ bufLen ∧ 1 ≤ range.len ↔ 0 < segment.2.len := by omega
    simp only [transfer, hrun, bind_eq_bind, bind_some, hiff]
    rfl
  · rw [segmentWeight_append, segmentWeight_cons]
    omega
  · intro l
    rw [segmentBytes_append, ← append_assoc, hbytes, segmentBytes_cons]

/-- Reading returns all bytes, unless there is a segment without bytes. -/
theorem readToEnd_eq {bufLens : ℕ → ℕ} (h : Unread mem s (mine ++ others))
    (hsplits : Splits .deviceRead mine others) (hlens : ∀ i, 0 < bufLens i)
    (hfuel : segmentWeight mine + 2 ≤ fuel) :
    readToEnd mem fuel bufLens s =
      if ∀ x ∈ mine, 0 < x.2.len then some (.ok (segmentBytes mem mine)) else none := by
  induction fuel generalizing s mine bufLens with
  | zero => omega
  | succ fuel ih =>
    cases mine with
    | nil =>
      obtain ⟨s', hrun, -⟩ := next_end (bufLens 0) h (by omega : 2 ≤ fuel + 1) hsplits.others
      simp [readToEnd, ReadableChain.read, transfer, hrun, segmentBytes]
    | cons segment rest =>
      obtain ⟨bytes, s', left, hcopy, hlength, hunread, hsplits', hleft, hweight, hbytes⟩ :=
        transfer_cons h hsplits (by omega : 2 ≤ fuel + 1) (hlens 0)
      by_cases hpos : 0 < segment.2.len
      · have hrun := @ih s' (left ++ rest) (fun i => bufLens (i + 1)) hunread hsplits'
          (fun i => hlens (i + 1)) (by omega)
        have hall : (∀ x ∈ left ++ rest, 0 < x.2.len) ↔ ∀ x ∈ segment :: rest, 0 < x.2.len := by
          rw [forall_mem_append, forall_mem_cons, and_iff_right hleft, and_iff_right hpos]
        obtain ⟨b, bs, rfl⟩ := exists_cons_of_length_pos
          (hlength ▸ lt_min hpos (hlens 0) : 0 < bytes.length)
        simp only [readToEnd, ReadableChain.read, hcopy, if_pos hpos, bind_eq_bind,
          bind_some, hrun, hall, ← hbytes rest]
        split <;> rfl
      · simp [readToEnd, ReadableChain.read, hcopy, hpos]

theorem WritableChain.addWritten_eq {written : UInt32} {len : ℕ}
    (h : written.toNat + len < 2 ^ 32) :
    ∃ written', addWritten written len.toUInt32 = some written' ∧
      written'.toNat = written.toNat + len := by
  have hlen : len.toUInt32.toNat = len :=
    UInt32.toNat_ofNat_of_lt ((Nat.le_add_left _ _).trans_lt h)
  refine ⟨written + len.toUInt32, ?_, ?_⟩
  · rw [addWritten, hlen, if_pos h]
  · rw [UInt32.toNat_add, hlen, Nat.mod_eq_of_lt h]

private theorem zip_append_drop (l m : List ℕ) (buf : List UInt8) :
    (l ++ m).zip buf = l.zip buf ++ m.zip (buf.drop l.length) := by
  induction l generalizing buf with
  | nil => rfl
  | cons a l ih => cases buf <;> simp [ih]

/-- Writing bytes for which there is room succeeds, unless there is a segment without bytes in
front of the room for the last one. -/
theorem writeAll_eq {written : UInt32} {buf : List UInt8} (h : Unread mem s (mine ++ others))
    (hsplits : Splits .deviceWrite mine others) (hfuel : segmentWeight mine + 2 ≤ fuel)
    (hroom : buf.length ≤ (segmentBytes mem mine).length)
    (hwritten : written.toNat + buf.length < 2 ^ 32) :
    writeAll mem fuel s written buf =
      if buf.length ≤ (segmentBytes mem (beforeEmpty mine)).length then
        some (.ok ((segmentBytes mem mine).zip buf, .ofNat (written.toNat + buf.length)))
      else none := by
  induction fuel generalizing s mine written buf with
  | zero => omega
  | succ fuel ih =>
    cases buf with
    | nil => simp [writeAll]
    | cons c buf =>
      cases mine with
      | nil => simp [segmentBytes] at hroom
      | cons segment rest =>
        have hlen : 0 < (c :: buf).length := Nat.succ_pos _
        obtain ⟨bytes, s', left, hcopy, hlength, hunread, hsplits', hleft, hweight, hbytes⟩ :=
          transfer_cons h hsplits (by omega : 2 ≤ fuel + 1) hlen
        by_cases hpos : 0 < segment.2.len
        · have hle : bytes.length ≤ (c :: buf).length := hlength.trans_le (Nat.min_le_right _ _)
          have hroom' := congrArg length (hbytes rest)
          have hfront := congrArg length (hbytes (beforeEmpty rest))
          simp only [length_append] at hroom' hfront
          have hbefore : beforeEmpty (left ++ rest) = left ++ beforeEmpty rest :=
            takeWhile_append_of_pos fun x hx => decide_eq_true (hleft x hx)
          have hbefore' : beforeEmpty (segment :: rest) = segment :: beforeEmpty rest :=
            takeWhile_cons_of_pos (decide_eq_true hpos)
          obtain ⟨written', hadd, hcount⟩ := WritableChain.addWritten_eq
            ((Nat.add_le_add_left hle _).trans_lt hwritten)
          have hrun := @ih s' (left ++ rest) written' ((c :: buf).drop bytes.length) hunread
            hsplits' (by omega) (by rw [length_drop]; omega) (by rw [length_drop]; omega)
          simp only [hbefore, length_drop, hcount, Nat.add_assoc, Nat.add_sub_cancel' hle,
            Nat.sub_le_iff_le_add', hfront] at hrun
          obtain ⟨b, bs, rfl⟩ := exists_cons_of_length_pos
            (hlength ▸ lt_min hpos hlen : 0 < bytes.length)
          simp only [writeAll, WritableChain.write, hcopy, if_pos hpos, bind_eq_bind,
            Option.pure_def, bind_some, hadd, hrun, hbefore', ← hbytes rest, zip_append_drop]
          split <;> rfl
        · have hnone : beforeEmpty (segment :: rest) = [] := by simp [beforeEmpty, hpos]
          simp only [writeAll, WritableChain.write, hcopy, if_neg hpos, hnone]
          exact (if_neg (Nat.not_succ_le_zero _)).symm

/-- Reading until nothing is read yields all readable bytes exactly if each readable descriptor has
bytes.  Writing bytes for which there is room succeeds with their count exactly if they fit in front
of the first writable descriptor without bytes and the count fits into a `u32`. -/
theorem streams_complete_iff (hreads : ∀ x ∈ reads, x.1 = .deviceRead)
    (hwrites : ∀ x ∈ writes, x.1 = .deviceWrite) (hs : Unread mem s (reads ++ writes))
    (hw : Unread mem w writes) :
    ∃ n, ∀ fuel, n ≤ fuel →
      (∀ bufLens : ℕ → ℕ, (∀ i, 0 < bufLens i) →
        (readToEnd mem fuel bufLens s = some (.ok (segmentBytes mem reads)) ↔
          ∀ x ∈ reads, 0 < x.2.len)) ∧
      (∃ descriptors, w.remaining mem .deviceWrite fuel =
        some (.ok ⟨(segmentBytes mem writes).length, descriptors⟩)) ∧
      ∀ buf : List UInt8, buf.length ≤ (segmentBytes mem writes).length →
        ((∃ written, writeAll mem fuel w 0 buf =
            some (.ok ((segmentBytes mem writes).zip buf, written)) ∧
            written.toNat = buf.length) ↔
          buf.length ≤ (segmentBytes mem (beforeEmpty writes)).length ∧ buf.length < 2 ^ 32) := by
  have hread : Splits .deviceRead reads writes := ⟨hreads, fun x hx => ⟨rfl, hwrites x hx⟩⟩
  have hwrite : Splits .deviceWrite writes [] := ⟨hwrites, by simp⟩
  rw [← append_nil writes] at hw
  refine ⟨segmentWeight reads + segmentWeight writes + 2, ?_⟩
  intro fuel hfuel
  refine ⟨fun bufLens hlens => ?_, remaining_spec hw hwrite (by omega), fun buf hroom => ?_⟩
  · rw [readToEnd_eq hs hread hlens (by omega)]
    split
    case isTrue hall => exact iff_of_true rfl hall
    case isFalse hnot => exact iff_of_false nofun hnot
  · constructor
    · rintro ⟨written, hrun, hcount⟩
      have hlt : buf.length < 2 ^ 32 := hcount ▸ written.toNat_lt
      rw [writeAll_eq hw hwrite (by omega) hroom (by simpa using hlt)] at hrun
      split at hrun
      case isTrue hfits => exact ⟨hfits, hlt⟩
      case isFalse => cases hrun
    · rintro ⟨hfits, hlt⟩
      rw [writeAll_eq hw hwrite (by omega) hroom (by simpa using hlt), if_pos hfits]
      exact ⟨_, rfl, by simpa using Nat.mod_eq_of_lt hlt⟩

/-- A chain of a descriptor without bytes and one with four bytes, readable or writable. -/
def emptyFirst (flag : UInt16) : DriverMem :=
  { exampleMem with desc := fun i => if i = 0 then ⟨100, 0, 1 + flag, 1⟩ else ⟨100, 4, flag, 0⟩ }

theorem ringChain_emptyFirst :
    RingChain (emptyFirst 2) (some 0) [(.deviceWrite, ⟨100, 100⟩), (.deviceWrite, ⟨100, 104⟩)] := by
  have hfirst : Describes (emptyFirst 2) ⟨100, 0, 3, 1⟩ (.deviceWrite, ⟨100, 100⟩) :=
    ⟨rfl, translatable_exampleMem 100 100 (by omega)⟩
  have hsecond : Describes (emptyFirst 2) ⟨100, 4, 2, 0⟩ (.deviceWrite, ⟨100, 104⟩) :=
    ⟨rfl, translatable_exampleMem 100 104 (by omega)⟩
  exact .direct rfl hfirst (.direct rfl hsecond .nil)

theorem streams_complete_iff_emptyFirst :
    ∃ n, ∀ fuel, n ≤ fuel → ∀ written,
      writeAll (emptyFirst 2) fuel (ReadableChain.new 0) 0 [7] = some (.ok ([(100, 7)], written)) →
      written.toNat ≠ 1 := by
  have hnew : Unread (emptyFirst 2) (ReadableChain.new 0) _ :=
    ⟨[], [], _, rfl, rfl, rfl, ringChain_emptyFirst⟩
  obtain ⟨n, hn⟩ := streams_complete_iff (forall_mem_nil _) (by simp) hnew hnew
  refine ⟨n, fun fuel hfuel written hrun hcount => ?_⟩
  obtain ⟨-, -, hwrites⟩ := hn fuel hfuel
  have hfits := ((hwrites [7] (by decide)).mp ⟨written, hrun, hcount⟩).1
  exact absurd hfits (by decide)

/-- Both streams panic at the descriptor without bytes, although there are four bytes behind it. -/
theorem streams_panic_emptyFirst :
    readToEnd (emptyFirst 0) 8 (fun _ => 4) (ReadableChain.new 0) = none ∧
    (ReadableChain.new 0).remaining (emptyFirst 0) .deviceRead 8 = some (.ok ⟨4, 2⟩) ∧
    ∃ w, WritableChain.fromReadable (emptyFirst 2) 8 (ReadableChain.new 0) = some (.ok w) ∧
      w.remaining (emptyFirst 2) .deviceWrite 8 = some (.ok ⟨4, 2⟩) ∧
      writeAll (emptyFirst 2) 8 w 0 [7] = none :=
  ⟨by decide, by decide, ⟨some 1, some ⟨.direct .deviceWrite, ⟨100, 100⟩⟩, none⟩, by decide,
    by decide, by decide⟩

end Smos.Virtio
