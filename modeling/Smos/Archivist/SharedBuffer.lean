import Smos.Log.Parse

/-!
The shared buffer of the log archivist (`diagnostics/archivist/src/logs/shared_buffer.rs`).

The messages of all containers are in one ring of bytes, each behind a word with the id of its
container and the low half of its own id.  Where a record ends is only known from the length in the
header of the message.  What sockets have to read is an argument of the operations that read them.
A result of nothing is a panic.
-/
namespace Smos.Archivist

open Lib.Bytes Log

def maxDatagramLenBytes : ℕ := 32768

def minBufferSize : ℕ := maxDatagramLenBytes * 2

def fxtHeaderSize : ℕ := 8

section Slab

/-- `Slab`.  The free slots, which the source chains through the slots, are a list. -/
structure Slab (α : Type) where
  slots : List (Option α)
  freeSlots : List ℕ

namespace Slab

variable {α : Type}

def empty : Slab α := ⟨[], []⟩

def get (self : Slab α) (id : ℕ) : Option α := self.slots[id]?.join

def set (self : Slab α) (id : ℕ) (value : α) : Slab α :=
  { self with slots := self.slots.set id (some value) }

def free (self : Slab α) (id : ℕ) : Option (Slab α) :=
  if (self.get id).isSome then some ⟨self.slots.set id none, id :: self.freeSlots⟩ else none

/-- `insert`, which asserts that the index of a new slot fits 32 bits; `0xffff_ffff` is reserved. -/
def insert (self : Slab α) (value : α) : Option (ℕ × Slab α) :=
  match self.freeSlots with
  | id :: freeSlots => some (id, ⟨self.slots.set id (some value), freeSlots⟩)
  | [] =>
    if self.slots.length < 2 ^ 32 - 1 then
      some (self.slots.length, ⟨self.slots ++ [some value], []⟩)
    else none

end Slab

end Slab

section Buffer

/-- `Buffer`: the bytes at the offsets below its length.  The mapping is repeated after its end, so
that an index is taken modulo the length. -/
structure Buffer where
  len : ℕ
  bytes : ℕ → UInt8

namespace Buffer

/-- The capacity is rounded up to whole pages. -/
def new (capacity pageSize : ℕ) : Buffer where
  len := max minBufferSize ((capacity + pageSize - 1) / pageSize * pageSize)
  bytes := fun _ => 0

def read (self : Buffer) (index n : ℕ) : List UInt8 :=
  (List.range n).map fun i => self.bytes ((index + i) % self.len)

def write (self : Buffer) (index : ℕ) : List UInt8 → Buffer
  | [] => self
  | byte :: bytes =>
    write { self with bytes := Function.update self.bytes (index % self.len) byte } (index + 1)
      bytes

end Buffer

end Buffer

/-- `ContainerInfo`.  The linked list of its sockets is a list. -/
structure ContainerInfo where
  refs : ℕ
  firstIndex : ℕ
  start : ℕ
  stop : ℕ
  terminated : Bool
  lastRolledOutTimestamp : BitVec 64
  sockets : List ℕ

namespace ContainerInfo

def new : ContainerInfo := ⟨0, 0, 0, 0, false, 0, []⟩

def isActive (self : ContainerInfo) : Bool := self.stop ≠ self.start ∨ self.sockets ≠ []

def shouldFree (self : ContainerInfo) : Bool :=
  self.terminated ∧ self.refs = 0 ∧ ¬ self.isActive

def removeSocket (self : ContainerInfo) (socket : ℕ) : ContainerInfo :=
  { self with sockets := self.sockets.erase socket }

end ContainerInfo

structure Inner where
  buffer : Buffer
  head : ℕ
  tail : ℕ
  containers : Slab ContainerInfo

def headerOf (msg : List UInt8) : Header := BitVec.ofNat 64 (ofLE (msg.take 8))

def msgLen (msg : List UInt8) : ℕ := (headerOf msg).sizeWords * 8

/-- `basic_info`, which is all that `StoredMessage::new` asks of the bytes of a message. -/
def basicInfo (buf : List UInt8) : Except ParseError (BitVec 64 × BitVec 8) := do
  let (header, afterHeader) ← read64 .invalidHeader buf
  if Header.rawType header ≠ Constants.tracingFormatLogRecordType then .error .invalidRecordType
  else do
    let (timestamp, _) ← read64 .invalidTimestamp afterHeader
    pure (timestamp, Header.severity header)

namespace Inner

def new (capacity pageSize : ℕ) : Inner := ⟨.new capacity pageSize, 0, 0, .empty⟩

def containerMsgId (containerId msgId : ℕ) : ℕ := containerId * 2 ^ 32 + msgId % 2 ^ 32

/-- `parse_record`: the container, the low half of the id, the message and its timestamp. -/
def parseRecord (self : Inner) (index : ℕ) : ℕ × ℕ × List UInt8 × BitVec 64 :=
  let containerMsgId := ofLE (self.buffer.read index 8)
  let header : Header := BitVec.ofNat 64 (ofLE (self.buffer.read (index + 8) 8))
  (containerMsgId / 2 ^ 32, containerMsgId % 2 ^ 32,
    self.buffer.read (index + 8) (header.sizeWords * 8),
    BitVec.ofNat 64 (ofLE (self.buffer.read (index + 16) 8)))

/-- A container that is no longer active is freed if it should be; otherwise its identity is
notified, which leaves the buffer as it is. -/
def freeIfUnused (self : Inner) (containerId : ℕ) (container : ContainerInfo) : Option Inner :=
  if container.shouldFree then do
    let containers ← self.containers.free containerId
    pure { self with containers := containers }
  else pure self

def pop (self : Inner) : Option (Option ℕ × Inner) :=
  if self.head = self.tail then some (none, self)
  else do
    let (containerId, msgId, record, timestamp) := self.parseRecord self.tail
    let totalLen := record.length + fxtHeaderSize
    let container ← self.containers.get containerId
    if container.start % 2 ^ 32 ≠ msgId then none
    else
      let container :=
        { container with start := container.start + 1, lastRolledOutTimestamp := timestamp }
      let self :=
        { self with
          tail := self.tail + totalLen
          containers := self.containers.set containerId container }
      let self ← self.freeIfUnused containerId container
      pure (some totalLen, self)

def space (self : Inner) : ℕ := self.buffer.len - (self.head - self.tail)

def popUntil (required : ℕ) : ℕ → ℕ → Inner → Option Inner
  | 0, _, _ => none
  | fuel + 1, space, self =>
    if space < required then do
      let (popped, self) ← self.pop
      let totalLen ← popped
      popUntil required fuel (space + totalLen) self
    else some self

/-- `ensure_space`; the loop pops a record of at least eight bytes each time. -/
def ensureSpace (self : Inner) (required : ℕ) : Option Inner :=
  popUntil required (self.head - self.tail + 1) self.space self

/-- A message is in the buffer behind the place of its word: the word is written and the message
becomes the last one of its container. -/
def commit (self : Inner) (containerId : ℕ) (container : ContainerInfo) (len : ℕ) : Inner :=
  let firstIndex := if container.stop = container.start then self.head else container.firstIndex
  { self with
    buffer := self.buffer.write self.head (leBytes 8 (containerMsgId containerId container.stop))
    head := self.head + (fxtHeaderSize + len)
    containers := self.containers.set containerId
      { container with firstIndex := firstIndex, stop := container.stop + 1 } }

def ingest (self : Inner) (msg : List UInt8) (containerId : ℕ) : Option Inner :=
  if msg.length < 8 then some self
  else if (headerOf msg).rawType ≠ Constants.tracingFormatLogRecordType ∨
      msg.length < msgLen msg then some self
  else do
    let self ← self.ensureSpace (msgLen msg + fxtHeaderSize)
    match self.containers.get containerId with
    | none => some self
    | some container =>
      let self :=
        { self with
          buffer := self.buffer.write (self.head + fxtHeaderSize) (msg.take (msgLen msg)) }
      some (self.commit containerId container (msgLen msg))

/-- `read_socket` of a socket with datagrams to read, after which it is empty or closed; whether
the socket should be closed. -/
def readSocket (containerId : ℕ) (closed : Bool) : List (List UInt8) → Inner → Option (Bool × Inner)
  | [], self => do
    let self ← self.ensureSpace (fxtHeaderSize + maxDatagramLenBytes)
    some (closed, self)
  | datagram :: datagrams, self => do
    let self ← self.ensureSpace (fxtHeaderSize + maxDatagramLenBytes)
    let self :=
      { self with buffer := self.buffer.write (self.head + fxtHeaderSize) datagram }
    match self.containers.get containerId with
    | none => some (true, self)
    | some container =>
      if datagram.length < 8 then readSocket containerId closed datagrams self
      else if (headerOf datagram).rawType ≠ Constants.tracingFormatLogRecordType ∨
          msgLen datagram ≠ datagram.length then readSocket containerId closed datagrams self
      else
        readSocket containerId closed datagrams
          (self.commit containerId container datagram.length)

def serviceSocket (self : Inner) (containerId socket : ℕ) (datagrams : List (List UInt8))
    (closed : Bool) : Option Inner := do
  let (close, self) ← readSocket containerId closed datagrams self
  if close then
    match self.containers.get containerId with
    | none => some self
    | some container =>
      let container := container.removeSocket socket
      let self := { self with containers := self.containers.set containerId container }
      self.freeIfUnused containerId container
  else some self

def newContainer (self : Inner) : Option (ℕ × Inner) := do
  let (containerId, containers) ← self.containers.insert .new
  pure (containerId, { self with containers := containers })

def addSocket (self : Inner) (containerId socket : ℕ) : Inner :=
  match self.containers.get containerId with
  | none => self
  | some container =>
    { self with
      containers := self.containers.set containerId
        { container with sockets := socket :: container.sockets } }

def terminate (self : Inner) (containerId : ℕ) : Option Inner :=
  match self.containers.get containerId with
  | none => some self
  | some container =>
    let container := { container with terminated := true, sockets := [] }
    let self := { self with containers := self.containers.set containerId container }
    self.freeIfUnused containerId container

end Inner

section Cursor

inductive StreamMode
  | snapshot
  | subscribe
  | snapshotThenSubscribe
deriving DecidableEq

inductive CursorEnd
  | snapshot (endId : Option ℕ)
  | stream
deriving DecidableEq

structure Cursor where
  index : ℕ
  containerId : ℕ
  nextId : ℕ
  end_ : CursorEnd
deriving DecidableEq

inductive PollResult
  | next (bytes : List UInt8)
  | itemsRolledOut (count : ℕ) (timestamp : BitVec 64)
  | finished
  | pending
deriving DecidableEq

namespace Inner

def cursor (self : Inner) (containerId : ℕ) (mode : StreamMode) : Option Cursor × Inner :=
  match self.containers.get containerId with
  | none => (none, self)
  | some container =>
    let self :=
      { self with
        containers := self.containers.set containerId
          { container with refs := container.refs + 1 } }
    let cursor : Cursor :=
      match mode with
      | .snapshot => ⟨container.firstIndex, containerId, container.start, .snapshot none⟩
      | .subscribe => ⟨self.head, containerId, container.stop, .stream⟩
      | .snapshotThenSubscribe => ⟨container.firstIndex, containerId, container.start, .stream⟩
    (some cursor, self)

def dropCursor (self : Inner) (cursor : Cursor) : Option Inner :=
  match self.containers.get cursor.containerId with
  | none => some self
  | some container =>
    if container.refs = 0 then none
    else
      let container := { container with refs := container.refs - 1 }
      let self := { self with containers := self.containers.set cursor.containerId container }
      self.freeIfUnused cursor.containerId container

/-- The sockets of a container are drained; `reads` is what each of them has to read. -/
def drainSockets (containerId : ℕ) (reads : ℕ → List (List UInt8) × Bool) :
    List ℕ → Inner → Option Inner
  | [], self => some self
  | socket :: sockets, self => do
    let (close, self) ← readSocket containerId (reads socket).2 (reads socket).1 self
    if close then do
      let container ← self.containers.get containerId
      drainSockets containerId reads sockets
        { self with
          containers := self.containers.set containerId (container.removeSocket socket) }
    else drainSockets containerId reads sockets self

def scan (self : Inner) : ℕ → Cursor → Option (Option PollResult × Cursor)
  | 0, _ => none
  | fuel + 1, cursor =>
    if cursor.index < self.head then
      let (containerId, msgId, record, _) := self.parseRecord cursor.index
      let cursor := { cursor with index := cursor.index + record.length + 8 }
      if self.head < cursor.index then none
      else if containerId = cursor.containerId then
        if cursor.nextId % 2 ^ 32 ≠ msgId then none
        else
          let cursor := { cursor with nextId := cursor.nextId + 1 }
          match basicInfo record with
          | .ok _ => some (some (.next record), cursor)
          | .error _ => self.scan fuel cursor
      else self.scan fuel cursor
    else some (none, cursor)

/-- The search of `poll_next`, which there is no need for if all messages are accounted for. -/
def search (self : Inner) (container : ContainerInfo) (cursor : Cursor) :
    Option (Option PollResult × Cursor) :=
  if cursor.nextId = container.stop then some (none, { cursor with index := self.head })
  else self.scan (self.head - cursor.index + 1) cursor

/-- The next id of a cursor over a container whose messages up to `start` have been rolled out. -/
def rolledOutTo (start : ℕ) : Option ℕ → ℕ
  | some endId => min start endId
  | none => start

def pollFrom (self : Inner) (container : ContainerInfo) (cursor : Cursor) (endId : Option ℕ) :
    Option (PollResult × Cursor) :=
  if some cursor.nextId = endId then some (.finished, cursor)
  else if cursor.nextId < container.start then
    let nextId := rolledOutTo container.start endId
    -- the difference of `u64` values wraps if the end is behind the cursor
    let rolledOut :=
      if cursor.nextId ≤ nextId then nextId - cursor.nextId else nextId + 2 ^ 64 - cursor.nextId
    some (.itemsRolledOut rolledOut container.lastRolledOutTimestamp,
      { cursor with nextId := nextId })
  else do
    let cursor := { cursor with index := max cursor.index self.tail }
    let cursor := { cursor with index := max cursor.index container.firstIndex }
    let (result, cursor) ← self.search container cursor
    match result with
    | some result => some (result, cursor)
    | none => some (if container.terminated then .finished else .pending, cursor)

def pollNext (self : Inner) (cursor : Cursor) (reads : ℕ → List (List UInt8) × Bool) :
    Option (PollResult × Cursor × Inner) :=
  match self.containers.get cursor.containerId with
  | none => some (.finished, cursor, self)
  | some container =>
    match cursor.end_ with
    | .snapshot none => do
      let self ← drainSockets cursor.containerId reads container.sockets self
      let container ← self.containers.get cursor.containerId
      let (result, cursor) ← self.pollFrom container
        { cursor with end_ := .snapshot (some container.stop) } (some container.stop)
      some (result, cursor, self)
    | .snapshot (some endId) => do
      let (result, cursor) ← self.pollFrom container cursor (some endId)
      some (result, cursor, self)
    | .stream => do
      let (result, cursor) ← self.pollFrom container cursor none
      some (result, cursor, self)

end Inner

end Cursor

end Smos.Archivist
