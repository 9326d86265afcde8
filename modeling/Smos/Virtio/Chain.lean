import Mathlib

/-!
Descriptor chains and their walk (`virtio-device/src/ring.rs`, `mem.rs`, `queue.rs`, `chain.rs`).

The walk holds a partially returned descriptor, a cursor in an indirect table and a cursor in the
ring.  The readable and the writable view of a chain are one walk that is told which access to
expect; converting the former to the latter hands over all three.
-/
namespace Smos.Virtio

inductive DescAccess where
  | deviceRead
  | deviceWrite
  deriving DecidableEq, Repr

structure RingDesc where
  addr : UInt64
  len : UInt32
  flags : UInt16
  next : UInt16
  deriving DecidableEq, Repr

namespace RingDesc

def hasNext (desc : RingDesc) : Bool := desc.flags &&& 1 != 0

def writeOnly (desc : RingDesc) : Bool := desc.flags &&& 2 != 0

def isIndirect (desc : RingDesc) : Bool := desc.flags &&& 4 != 0

def accessType (desc : RingDesc) : DescAccess :=
  if desc.writeOnly then .deviceWrite else .deviceRead

def nextIndex (desc : RingDesc) : Option UInt16 :=
  if desc.hasNext then some desc.next else none

def size : ℕ := 16

def align : ℕ := 8

end RingDesc

structure DriverRange where
  start : ℕ
  stop : ℕ
  deriving DecidableEq, Repr

namespace DriverRange

def len (range : DriverRange) : ℕ := range.stop - range.start

def splitAt (range : DriverRange) (offset : ℕ) : Option (DriverRange × DriverRange) :=
  if range.len < offset then none
  else some (⟨range.start, range.start + offset⟩, ⟨range.start + offset, range.stop⟩)

end DriverRange

structure DeviceRange where
  start : ℕ
  stop : ℕ
  deriving DecidableEq, Repr

namespace DeviceRange

def len (range : DeviceRange) : ℕ := range.stop - range.start

def splitAt (range : DeviceRange) (offset : ℕ) : Option (DeviceRange × DeviceRange) :=
  if range.len < offset then none
  else some (⟨range.start, range.start + offset⟩, ⟨range.start + offset, range.stop⟩)

/-- `try_ptr::<ring::Desc>`: the address of a descriptor at the start of the range. -/
def tryPtr (range : DeviceRange) : Option ℕ :=
  if range.len < RingDesc.size then none
  else if range.start % RingDesc.align ≠ 0 then none
  else some range.start

def bytes (range : DeviceRange) : List ℕ := List.range' range.start range.len

end DeviceRange

inductive DescError where
  | invalidIndex (index : UInt16)
  | badRange (addr : UInt64) (len : UInt32)
  deriving DecidableEq, Repr

inductive ChainError where
  | desc (error : DescError)
  | readableAfterWritable
  | translateFailed (range : DriverRange)
  | invalidNestedIndirectChain
  deriving DecidableEq, Repr

inductive DescType where
  | direct (access : DescAccess)
  | indirect
  deriving DecidableEq, Repr

structure Desc where
  type : DescType
  range : DriverRange
  deriving DecidableEq, Repr

def usizeMax : ℕ := 18446744073709551615

/-- `Desc::try_from`; the end of the range must fit into a `usize`. -/
def Desc.tryFrom (desc : RingDesc) : Except DescError Desc :=
  if desc.addr.toNat + desc.len.toNat ≤ usizeMax then
    let range := ⟨desc.addr.toNat, desc.addr.toNat + desc.len.toNat⟩
    if desc.isIndirect then .ok ⟨.indirect, range⟩ else .ok ⟨.direct desc.accessType, range⟩
  else .error (.badRange desc.addr desc.len)

/-- What the walk reads and does not change: the descriptor table of the ring, the descriptors in
device memory by address, and the translation of driver ranges. -/
structure DriverMem where
  queueSize : UInt16
  desc : ℕ → RingDesc
  readVolatile : ℕ → RingDesc
  translate : DriverRange → Option DeviceRange

def DriverMem.getDesc (mem : DriverMem) (index : UInt16) : Option RingDesc :=
  if index < mem.queueSize then some (mem.desc index.toNat) else none

def descChainNext (mem : DriverMem) :
    Option UInt16 → Option (Except DescError Desc) × Option UInt16
  | none => (none, none)
  | some index =>
    match mem.getDesc index with
    | some desc => (some (Desc.tryFrom desc), desc.nextIndex)
    | none => (some (.error (.invalidIndex index)), none)

structure IndirectDescChain where
  range : DeviceRange
  next : Option UInt16
  deriving DecidableEq, Repr

namespace IndirectDescChain

def new (range : DeviceRange) : IndirectDescChain := ⟨range, some 0⟩

def descAt (mem : DriverMem) (range : DeviceRange) (index : UInt16) : Option RingDesc := do
  let (_, rest) ← range.splitAt (index.toNat * RingDesc.size)
  let ptr ← rest.tryPtr
  return mem.readVolatile ptr

def nextDesc (mem : DriverMem) (chain : IndirectDescChain) :
    Option (Except DescError Desc) × IndirectDescChain :=
  match chain.next with
  | none => (none, chain)
  | some index =>
    match descAt mem chain.range index with
    | none => (some (.error (.invalidIndex index)), chain)
    | some desc => (some (Desc.tryFrom desc), { chain with next := desc.nextIndex })

end IndirectDescChain

/-- The state of a walk; the chain that it returns to the queue when dropped is left out. -/
structure ChainState where
  iter : Option UInt16
  current : Option Desc := none
  indirectChain : Option IndirectDescChain := none
  deriving DecidableEq, Repr

namespace ChainState

variable (mem : DriverMem) (expected : DescAccess)

def nextDesc (s : ChainState) : Option (Except ChainError Desc) × ChainState :=
  let fromIter (s : ChainState) : Option (Except ChainError Desc) × ChainState :=
    let (desc, iter) := descChainNext mem s.iter
    (desc.map (Except.mapError ChainError.desc), { s with iter := iter })
  match s.current with
  | some desc => (some (.ok desc), { s with current := none })
  | none =>
    match s.indirectChain with
    | none => fromIter s
    | some chain =>
      match chain.nextDesc mem with
      | (none, _) => fromIter { s with indirectChain := none }
      | (some desc, chain) =>
        (some (desc.mapError ChainError.desc), { s with indirectChain := some chain })

def intoDeviceRange (s : ChainState) (access : DescAccess) (range : DriverRange) (limit : ℕ) :
    Option (Except ChainError DeviceRange) × ChainState :=
  let translated (range : DriverRange) : Option (Except ChainError DeviceRange) :=
    match mem.translate range with
    | some range => some (.ok range)
    | none => some (.error (.translateFailed range))
  match expected, access with
  | .deviceWrite, .deviceRead => (some (.error .readableAfterWritable), { s with iter := none })
  | .deviceRead, .deviceWrite => (none, { s with current := some ⟨.direct access, range⟩ })
  | _, _ =>
    match range.splitAt limit with
    | none => (translated range, s)
    | some (range, rest) =>
      (translated range,
        if rest.len > 0 then { s with current := some ⟨.direct access, rest⟩ } else s)

/-- The recursion goes through an indirect descriptor, and stops at one in an indirect table. -/
def nextWithLimit (fuel : ℕ) (s : ChainState) (limit : ℕ) :
    Option (Option (Except ChainError DeviceRange) × ChainState) :=
  match fuel with
  | 0 => none
  | fuel + 1 =>
    match s.nextDesc mem with
    | (none, s) => some (none, s)
    | (some (.error e), s) => some (some (.error e), s)
    | (some (.ok ⟨.direct access, range⟩), s) =>
      some (s.intoDeviceRange mem expected access range limit)
    | (some (.ok ⟨.indirect, range⟩), s) =>
      if s.indirectChain.isSome then some (some (.error .invalidNestedIndirectChain), s)
      else
        match mem.translate range with
        | some table =>
          nextWithLimit fuel { s with indirectChain := some (IndirectDescChain.new table) } limit
        | none => some (some (.error (.translateFailed range)), s)

/-- Calls `next_with_limit` until it returns nothing.  The result lists the returned ranges, each
with the state it was asked for in. -/
def walk : ℕ → (ℕ → ℕ) → ChainState →
    Option (Except ChainError (List (ChainState × DeviceRange)) × ChainState)
  | 0, _, _ => none
  | fuel + 1, limits, s => do
    match ← nextWithLimit mem expected (fuel + 1) s (limits 0) with
    | (none, s') => return (.ok [], s')
    | (some (.error e), s') => return (.error e, s')
    | (some (.ok range), s') =>
      let (rest, s'') ← walk fuel (fun i => limits (i + 1)) s'
      return (rest.map ((s, range) :: ·), s'')

end ChainState

structure Remaining where
  bytes : ℕ
  descriptors : ℕ
  deriving DecidableEq, Repr

/-- `State::remaining`, which walks a copy of the state. -/
def ChainState.remaining (mem : DriverMem) (expected : DescAccess) (fuel : ℕ) (s : ChainState) :
    Option (Except ChainError Remaining) := do
  let (ranges, _) ← s.walk mem expected fuel fun _ => usizeMax
  return ranges.map fun ranges =>
    ⟨(ranges.map fun r => r.2.len).sum, ranges.length⟩

def ReadableChain.new (firstDesc : UInt16) : ChainState := { iter := some firstDesc }

inductive ChainCompleteError where
  | readableRemaining
  | writableRemaining
  | chain (error : ChainError)
  deriving DecidableEq, Repr

namespace WritableChain

def fromReadable (mem : DriverMem) (fuel : ℕ) (readable : ChainState) :
    Option (Except ChainCompleteError ChainState) := do
  match ← readable.nextWithLimit mem .deviceRead fuel usizeMax with
  | (none, s) => return .ok s
  | (some (.ok _), _) => return .error .readableRemaining
  | (some (.error e), _) => return .error (.chain e)

def fromIncompleteReadable (mem : DriverMem) (fuel : ℕ) (readable : ChainState) :
    Option (Except ChainError ChainState) := do
  let (ranges, s) ← readable.walk mem .deviceRead fuel fun _ => usizeMax
  return ranges.map fun _ => s

end WritableChain

end Smos.Virtio
