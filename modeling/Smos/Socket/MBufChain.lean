import Mathlib.Data.List.Basic

/-!
The buffer of a kernel socket (`object/mbuf.h`, `object/mbuf.cc`: `MBufChain`).

A buffer is known by its address, which is a number here, and holds the bytes up to its length.  The
memory of the user is the list of bytes that were copied.  Each call is given which of its
allocations and of its copies succeed.
-/
namespace Smos.Socket

/-- `MBuf::kPayloadSize`: 2048 bytes without the malloc header and the header of the buffer. -/
def kPayloadSize : ℕ := 2048 - 16 - (8 * 2 + 4 * 2)

def kSizeMax : ℕ := 128 * kPayloadSize

inductive Status
  | ok
  | shouldWait
  | invalidArgs
  | outOfRange
deriving DecidableEq, Repr

/-- `MBuf`, with the part of `data_` that is valid. -/
structure MBuf where
  address : ℕ
  data : List UInt8
  pktLen : ℕ
deriving DecidableEq, Repr

namespace MBuf

def len (self : MBuf) : ℕ := self.data.length

def rem (self : MBuf) : ℕ := kPayloadSize - self.len

end MBuf

/-- `MBufChain`, and the addresses that the heap has not given out. -/
structure MBufChain where
  freelist : List MBuf
  buffers : List MBuf
  readCursorOff : ℕ
  writeCursor : Option ℕ
  size : ℕ
  heap : ℕ
deriving DecidableEq, Repr

def insertAfter (address : ℕ) (next : MBuf) : List MBuf → List MBuf
  | [] => []
  | buf :: rest =>
    if buf.address = address then buf :: next :: rest else buf :: insertAfter address next rest

def lookup (address : ℕ) (l : List MBuf) : Option MBuf := l.find? (·.address = address)

def appendData (address : ℕ) (bytes : List UInt8) (l : List MBuf) : List MBuf :=
  l.map fun buf => if buf.address = address then { buf with data := buf.data ++ bytes } else buf

namespace MBufChain

def new : MBufChain := ⟨[], [], 0, none, 0, 0⟩

def allocMBuf (self : MBufChain) (hasMemory : Bool) : Option (MBuf × MBufChain) :=
  match self.freelist with
  | [] => if hasMemory then some (⟨self.heap, [], 0⟩, { self with heap := self.heap + 1 }) else none
  | buf :: rest => some (buf, { self with freelist := rest })

def freeMBuf (self : MBufChain) (buf : MBuf) : MBufChain :=
  { self with freelist := { buf with data := [], pktLen := 0 } :: self.freelist }

def freeAll (self : MBufChain) (bufs : List MBuf) : MBufChain := bufs.foldl freeMBuf self

section Read

/-- The variables of `ReadHelper`.  The number of bytes in `out` is `pos`. -/
structure Reader where
  chain : MBufChain
  iter : List MBuf
  readOff : ℕ
  out : List UInt8
  status : Status
  copies : ℕ

def popFront (self : MBufChain) (buf : MBuf) : MBufChain :=
  let self := { self with
    buffers := self.buffers.tail
    writeCursor := if self.writeCursor = some buf.address then none else self.writeCursor }
  self.freeMBuf buf

def readRound (consume datagram : Bool) (len : ℕ) (copyOk : ℕ → Bool) (r : Reader) (buf : MBuf)
    (rest : List MBuf) : Reader :=
  let copyLen := min (buf.len - r.readOff) (len - r.out.length)
  let succeeded := copyOk r.copies
  let status := if succeeded then .ok else .invalidArgs
  let out := if succeeded then r.out ++ (buf.data.drop r.readOff).take copyLen else r.out
  if consume = false then ⟨r.chain, rest, 0, out, status, r.copies + 1⟩
  else
    let readOff := if succeeded then r.readOff + copyLen else r.readOff
    let chain :=
      if succeeded then { r.chain with size := r.chain.size - copyLen } else r.chain
    if readOff = buf.len ∨ datagram then
      let chain :=
        if datagram then { chain with size := chain.size - (buf.len - readOff) } else chain
      let chain := chain.popFront buf
      -- the next buffer starts at the beginning
      ⟨chain, chain.buffers, 0, out, status, r.copies + 1⟩
    else ⟨chain, r.iter, readOff, out, status, r.copies + 1⟩

def readLoop (consume datagram : Bool) (len : ℕ) (copyOk : ℕ → Bool) :
    ℕ → Reader → Option Reader
  | 0, _ => none
  | fuel + 1, r =>
    match r.iter with
    | [] => some r
    | buf :: rest =>
      if r.out.length < len ∧ r.status = .ok then
        readLoop consume datagram len copyOk fuel
          (readRound consume datagram len copyOk r buf rest)
      else some r

def drain (self : MBufChain) (readOff : ℕ) : List MBuf → MBufChain × ℕ
  | [] => (self, readOff)
  | buf :: rest =>
    if buf.pktLen = 0 then
      let self := { self with size := self.size - (buf.len - readOff) }
      (self.popFront buf).drain 0 rest
    else (self, readOff)

def readHelper (self : MBufChain) (consume : Bool) (len : ℕ) (datagram : Bool)
    (copyOk : ℕ → Bool) : Option (Status × List UInt8 × MBufChain) :=
  if self.size = 0 then some (.ok, [], self)
  else
    let len :=
      match self.buffers with
      | front :: _ => if datagram ∧ len > front.pktLen then front.pktLen else len
      | [] => len
    match readLoop consume datagram len copyOk (self.buffers.length + 1)
        ⟨self, self.buffers, self.readCursorOff, [], .ok, 0⟩ with
    | none => none
    | some r =>
      if consume = false then some (r.status, r.out, r.chain)
      else
        let (chain, readOff) :=
          if datagram then r.chain.drain r.readOff r.chain.buffers else (r.chain, r.readOff)
        some (r.status, r.out, { chain with readCursorOff := readOff })

def read (self : MBufChain) (len : ℕ) (datagram : Bool) (copyOk : ℕ → Bool) :
    Option (Status × List UInt8 × MBufChain) :=
  self.readHelper true len datagram copyOk

def peek (self : MBufChain) (len : ℕ) (datagram : Bool) (copyOk : ℕ → Bool) :
    Option (Status × List UInt8 × MBufChain) :=
  self.readHelper false len datagram copyOk

end Read

section WriteDatagram

def allocAll (self : MBufChain) (hasMemory : ℕ → Bool) (bufs : List MBuf) :
    ℕ → Option (List MBuf) × MBufChain
  | 0 => (some bufs, self)
  | need + 1 =>
    match self.allocMBuf (hasMemory need) with
    | none => (none, self.freeAll bufs)
    | some (buf, self) => self.allocAll hasMemory (buf :: bufs) need

def fill (copyOk : ℕ → Bool) : ℕ → List UInt8 → List MBuf → Option (List MBuf)
  | _, _, [] => some []
  | copies, src, buf :: rest =>
    let copyLen := min kPayloadSize src.length
    if copyOk copies then
      (fill copyOk (copies + 1) (src.drop copyLen) rest).map
        ({ buf with data := buf.data ++ src.take copyLen } :: ·)
    else none

def append (self : MBufChain) (next : MBuf) : MBufChain :=
  match self.writeCursor with
  | none => { self with buffers := next :: self.buffers, writeCursor := some next.address }
  | some cursor =>
    { self with buffers := insertAfter cursor next self.buffers, writeCursor := some next.address }

def writeDatagram (self : MBufChain) (src : List UInt8) (hasMemory copyOk : ℕ → Bool) :
    Status × ℕ × MBufChain :=
  let len := src.length
  if len = 0 then (.invalidArgs, 0, self)
  else if len > kSizeMax then (.outOfRange, 0, self)
  else if len + self.size > kSizeMax then (.shouldWait, 0, self)
  else
    match self.allocAll hasMemory [] (1 + (len - 1) / kPayloadSize) with
    | (none, self) => (.shouldWait, 0, self)
    | (some bufs, self) =>
      match fill copyOk 0 src bufs with
      | none => (.invalidArgs, 0, self.freeAll bufs)
      | some [] => (.ok, len, { self with size := self.size + len })
      | some (first :: rest) =>
        let self := ({ first with pktLen := len } :: rest).foldl append self
        (.ok, len, { self with size := self.size + len })

end WriteDatagram

section WriteStream

/-- A buffer with room behind the write cursor, if it can be allocated. -/
def roomAfter (self : MBufChain) (cursor : MBuf) (hasMemory : Bool) : Option (MBuf × MBufChain) :=
  if cursor.rem = 0 then do
    let (next, self) ← self.allocMBuf hasMemory
    some (next, { self with
      buffers := insertAfter cursor.address next self.buffers
      writeCursor := some next.address })
  else some (cursor, self)

/-- The loop of `WriteStream`, with the bytes that are left and the number of those that were
written.  Nothing if it takes more rounds than the fuel or there is no buffer at the cursor. -/
def writeLoop (hasMemory copyOk : ℕ → Bool) :
    ℕ → MBufChain → List UInt8 → ℕ → ℕ → Option (Status × ℕ × MBufChain)
  | 0, _, _, _, _ => none
  | fuel + 1, self, src, pos, rounds =>
    if src = [] then some (if pos = 0 then .shouldWait else .ok, pos, self)
    else do
      let cursor ← self.writeCursor.bind (lookup · self.buffers)
      match self.roomAfter cursor (hasMemory rounds) with
      | none => some (if pos = 0 then .shouldWait else .ok, pos, self)
      | some (cursor, self) =>
        let copyLen := min cursor.rem src.length
        let full := self.size + copyLen > kSizeMax
        let copyLen := if full then kSizeMax - self.size else copyLen
        -- only a chain at its limit ends the loop here
        if full ∧ copyLen = 0 then some (if pos = 0 then .shouldWait else .ok, pos, self)
        else if copyOk rounds then
          let self := { self with
            buffers := appendData cursor.address (src.take copyLen) self.buffers
            size := self.size + copyLen }
          writeLoop hasMemory copyOk fuel self (src.drop copyLen) (pos + copyLen) (rounds + 1)
        else some (.invalidArgs, pos, self)

def writeStream (self : MBufChain) (src : List UInt8) (firstMemory : Bool)
    (hasMemory copyOk : ℕ → Bool) : Option (Status × ℕ × MBufChain) :=
  match self.writeCursor with
  | some _ => writeLoop hasMemory copyOk (src.length + 1) self src 0 0
  | none =>
    match self.allocMBuf firstMemory with
    | none => some (.shouldWait, 0, self)
    | some (buf, self) =>
      writeLoop hasMemory copyOk (src.length + 1)
        { self with buffers := buf :: self.buffers, writeCursor := some buf.address } src 0 0

end WriteStream

end MBufChain

end Smos.Socket
