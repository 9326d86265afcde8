import Smos.Inspect.Container

/-!
Snapshots of an Inspect VMO that is being written.

The writer changes the VMO only inside transactions.  The outermost transaction of a nest makes the
generation count in the `HEADER` block odd when it opens and even when it closes.  The reader copies
the header, then the buffer, then the header once more, and keeps the buffer if both headers have
the same even generation count.  None of the copies is atomic: the writer may take steps between any
two bytes of the buffer and between any two words of a header.
-/
namespace Smos.Inspect

open Lib.Bytes

inductive ReaderError where
  | invalidVmo
  | inconsistentSnapshot
  | vmoFormat (error : FormatError)
  deriving DecidableEq, Repr

/-- The buffer of a snapshot: bytes that were read, or the mapped VMO itself. -/
inductive BackingBuffer where
  | bytes (buffer : List UInt8)
  | container
  deriving DecidableEq, Repr

/-- The generation count of a valid header that nobody is writing to. -/
def headerGenerationCount (bytes : Container) : Option (BitVec 64) :=
  if bytes.length < 16 then none
  else if !bytes.isHeader then none
  else if bytes.magicNumber == Constants.headerMagicNumber
      && decide (bytes.version ≤ Constants.headerVersionNumber) && !bytes.isLocked then
    some bytes.generationCount
  else none

def snapshotSize (header : Container) (sourceLen : ℕ) : Except ReaderError ℕ :=
  match header.vmoSize with
  | .error error => .error (.vmoFormat error)
  | .ok (some vmoSize) => .ok (min vmoSize Constants.maxVmoSize)
  | .ok none => .ok (min sourceLen Constants.maxVmoSize)

inductive Reader where
  | idle
  | readHeader (copied : List UInt8)
  | readBuffer (headerBytes : List UInt8) (gen : BitVec 64) (vmoSize : ℕ) (copied : List UInt8)
  | readAgain (headerBytes : List UInt8) (gen : BitVec 64) (buffer copied : List UInt8)
  | done (result : Except ReaderError BackingBuffer)

namespace Reader

/-- `copy_bytes` goes on by `chunk` bytes.  A source that is too short leaves `dst` as it was. -/
def copyNext (source : Container) (dst copied : List UInt8) (chunk : ℕ) : List UInt8 :=
  if (source.getSliceAt 0 dst.length).isNone then dst
  else copied ++ slice source copied.length (min chunk (dst.length - copied.length))

/-- What follows the first copy of the header.  A frozen VMO is used as it is if it can be
mapped. -/
def afterReadHeader (mapped : Bool) (source headerBytes : Container) : Reader :=
  if !headerBytes.isHeader then .done (.error .invalidVmo)
  else if headerBytes.generationCount == Constants.vmoFrozen && mapped then .done (.ok .container)
  else
    match snapshotSize headerBytes source.length with
    | .error error => .done (.error error)
    | .ok vmoSize => .readBuffer headerBytes headerBytes.generationCount vmoSize []

def afterReadAgain (gen : BitVec 64) (buffer : List UInt8) (headerBytes : Container) :
    Except ReaderError BackingBuffer :=
  match headerGenerationCount headerBytes with
  | none => .error .inconsistentSnapshot
  | some newGeneration =>
    if newGeneration ≠ gen then .error .inconsistentSnapshot else .ok (.bytes buffer)

/-- One access of the reader to the VMO.  The words of a header are read one by one, the buffer
byte by byte. -/
def step (mapped : Bool) (source : Container) : Reader → Reader
  | idle => idle
  | readHeader copied =>
    let copied := copyNext source (List.replicate 32 0) copied 8
    if copied.length < 32 then .readHeader copied else afterReadHeader mapped source copied
  | readBuffer headerBytes gen vmoSize copied =>
    let copied := copyNext source (List.replicate vmoSize 0) copied 1
    if copied.length < vmoSize then .readBuffer headerBytes gen vmoSize copied
    else .readAgain headerBytes gen copied []
  | readAgain headerBytes gen buffer copied =>
    let copied := copyNext source headerBytes copied 8
    if copied.length < 32 then .readAgain headerBytes gen buffer copied
    else .done (afterReadAgain gen buffer copied)
  | done result => done result

def isReading : Reader → Bool
  | idle | done _ => false
  | readHeader _ | readBuffer .. | readAgain .. => true

end Reader

structure InnerState where
  container : Container
  transactionCount : ℕ

namespace InnerState

/-- `None` is the panic of `check_locked`. -/
def lock (c : Container) : Option Container :=
  if c.isLocked then none else some c.incrementGenerationCount

def unlock (c : Container) : Option Container :=
  if !c.isLocked then none else some c.incrementGenerationCount

def lockHeader (w : InnerState) : Option InnerState :=
  if w.transactionCount = 0 then
    (lock w.container).map fun c => ⟨c, w.transactionCount + 1⟩
  else some ⟨w.container, w.transactionCount + 1⟩

/-- `None` is also the underflow of the count. -/
def unlockHeader (w : InnerState) : Option InnerState :=
  if w.transactionCount = 0 then none
  else if w.transactionCount - 1 = 0 then
    (unlock w.container).map fun c => ⟨c, w.transactionCount - 1⟩
  else some ⟨w.container, w.transactionCount - 1⟩

def store (w : InnerState) (offset : ℕ) (bytes : List UInt8) : InnerState :=
  if w.container.length < offset + bytes.length then w
  else { w with container := splice w.container offset bytes }

end InnerState

/-- The size in the header is not larger than the VMO, as `grow_heap` sees to. -/
def SizeFits (c : Container) : Prop := ∀ size, c.vmoSize = .ok (some size) → size ≤ c.length

/-- The VMO of a new writer: it has room for a `HEADER` block, which is not locked. -/
structure NewVmo (c : Container) : Prop where
  header_fits : 32 ≤ c.length
  unlocked : c.isLocked = false
  size_fits : SizeFits c

/-- A writer and a reader of one VMO, and how many outermost transactions were opened since the
reader started. -/
structure System where
  writer : InnerState
  reader : Reader
  begun : ℕ

namespace System

def init (c : Container) : System := ⟨⟨c, 0⟩, .idle, 0⟩

def vmo (s : System) : Container := s.writer.container

def Closed (s : System) : Prop := s.writer.transactionCount = 0

instance (s : System) : Decidable s.Closed := inferInstanceAs (Decidable (_ = _))

/-- What may happen next.  Apart from `lock` and `unlock` the writer stores only inside a
transaction, and it leaves the first two words of the `HEADER` block alone. -/
inductive Step (s : System) : System → Prop
  | lockHeader {w : InnerState} (h : s.writer.lockHeader = some w) :
    Step s ⟨w, s.reader, if s.Closed ∧ s.reader.isReading then s.begun + 1 else s.begun⟩
  | unlockHeader {w : InnerState} (h : s.writer.unlockHeader = some w) :
    Step s ⟨w, s.reader, s.begun⟩
  | store {offset : ℕ} {bytes : List UInt8} (hopen : ¬s.Closed) (hoffset : 16 ≤ offset)
    (hsize : SizeFits (s.writer.store offset bytes).container) :
    Step s ⟨s.writer.store offset bytes, s.reader, s.begun⟩
  | startRead (h : s.reader = .idle) : Step s ⟨s.writer, .readHeader [], 0⟩
  | read (mapped : Bool) (h : s.reader.isReading) :
    Step s ⟨s.writer, s.reader.step mapped s.vmo, s.begun⟩

inductive Run (c : Container) : List System → Prop
  | init : Run c [init c]
  | step {s s' : System} {before : List System} (hrun : Run c (s :: before)) (hstep : Step s s') :
    Run c (s' :: s :: before)

end System

end Smos.Inspect
