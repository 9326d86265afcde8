import Mathlib
import Smos.Lib.Result

/-!
The copy-on-write backend of a block device, over two plain disks.

A disk is a plain array of sectors that fails only on accesses beyond its capacity.  Guest memory
is a function from addresses to bytes; a read gives each address of its ranges a byte and a write
takes a byte from each.  Sizes are natural numbers: the byte addresses of a disk fit in 64 bits.  A
function that returns an `Option` of its result returns `none` where the code panics.
-/
namespace Smos.Block

def sectorSize : ℕ := 512

structure DeviceRange where
  start : ℕ
  len : ℕ
deriving DecidableEq

def DeviceRange.splitAt (range : DeviceRange) (offset : ℕ) : Option (DeviceRange × DeviceRange) :=
  if range.len < offset then none
  else some (⟨range.start, offset⟩, ⟨range.start + offset, range.len - offset⟩)

structure Request where
  sector : ℕ
  ranges : List DeviceRange

def totalBytes (ranges : List DeviceRange) : ℕ := (ranges.map DeviceRange.len).sum

def addresses (ranges : List DeviceRange) : List ℕ :=
  ranges.flatMap fun range => List.range' range.start range.len

def splitRanges (offsetBytes : ℕ) : ℕ → List DeviceRange →
    Option (List DeviceRange × List DeviceRange)
  | _, [] => none
  | rangeBytes, range :: rest =>
    let newRangeBytes := rangeBytes + range.len
    if newRangeBytes = offsetBytes then some ([range], rest)
    else if newRangeBytes ≥ offsetBytes then
      match range.splitAt (offsetBytes - rangeBytes) with
      | none => none
      | some (fragment1, fragment2) => some ([fragment1], fragment2 :: rest)
    else
      match splitRanges offsetBytes newRangeBytes rest with
      | none => none
      | some (v1, v2) => some (range :: v1, v2)

def Request.splitAt (request : Request) (offset : ℕ) : Option (Request × Request) :=
  match splitRanges (offset * sectorSize) 0 request.ranges with
  | none => none
  | some (v1, v2) => some (⟨request.sector, v1⟩, ⟨request.sector + offset, v2⟩)

inductive BackendError where
  | outOfRange
  | notLargeEnough (backing copied : ℕ)
deriving DecidableEq

def BackendError.text : BackendError → String
  | .outOfRange => ""
  | .notLargeEnough backing copied =>
    "Copied backend is not large enough Sector(" ++ toString backing ++ ") vs Sector(" ++
      toString copied ++ ") sectors"

structure Disk where
  capacity : ℕ
  data : ℕ → UInt8

/-- The bytes from position `x` on, each with the guest address that it goes to. -/
def transfers (data : ℕ → UInt8) : ℕ → List ℕ → List (ℕ × UInt8)
  | _, [] => []
  | x, address :: rest => (address, data x) :: transfers data (x + 1) rest

def Request.Within (request : Request) (capacity : ℕ) : Prop :=
  totalBytes request.ranges = 0 ∨
    request.sector * sectorSize + totalBytes request.ranges ≤ capacity * sectorSize

instance (request : Request) (capacity : ℕ) : Decidable (request.Within capacity) :=
  inferInstanceAs (Decidable (_ ∨ _))

def Disk.read (disk : Disk) (request : Request) : Except BackendError (List (ℕ × UInt8)) :=
  if request.Within disk.capacity then
    .ok (transfers disk.data (request.sector * sectorSize) (addresses request.ranges))
  else .error .outOfRange

/-- The bytes of a disk with those of a request overwritten from guest memory. -/
def Request.overwrite (request : Request) (memory data : ℕ → UInt8) (x : ℕ) : UInt8 :=
  match (addresses request.ranges)[x - request.sector * sectorSize]? with
  | some address => if request.sector * sectorSize ≤ x then memory address else data x
  | none => data x

def Disk.write (disk : Disk) (memory : ℕ → UInt8) (request : Request) :
    Except BackendError Disk :=
  if request.Within disk.capacity then
    .ok { disk with data := request.overwrite memory disk.data }
  else .error .outOfRange

inductive TargetBackend where
  | backing
  | copied
deriving DecidableEq

structure Bitmap where
  bytes : List ℕ
deriving DecidableEq

namespace Bitmap

def withSize (size : ℕ) : Bitmap := ⟨List.replicate ((size + 7) / 8) 0⟩

def backend (bitmap : Bitmap) (at_ : ℕ) : Option TargetBackend :=
  match bitmap.bytes[at_ / 8]? with
  | none => none
  | some byte => some (if byte &&& (1 <<< (at_ % 8)) ≠ 0 then .copied else .backing)

def setCopied (bitmap : Bitmap) (at_ : ℕ) : Option Bitmap :=
  match bitmap.bytes[at_ / 8]? with
  | none => none
  | some byte => some ⟨bitmap.bytes.set (at_ / 8) (byte ||| (1 <<< (at_ % 8)))⟩

def setCopiedFrom (bitmap : Bitmap) (sector : ℕ) : ℕ → Option Bitmap
  | 0 => some bitmap
  | count + 1 =>
    match bitmap.setCopied sector with
    | none => none
    | some bitmap => bitmap.setCopiedFrom (sector + 1) count

end Bitmap

structure CopyOnWriteBackend where
  backing : Disk
  copied : Disk
  bitmap : Bitmap

def CopyOnWriteBackend.new (backing copied : Disk) : Except BackendError CopyOnWriteBackend :=
  if backing.capacity < copied.capacity then
    .error (.notLargeEnough backing.capacity copied.capacity)
  else .ok ⟨backing, copied, Bitmap.withSize backing.capacity⟩

section ByBackend

variable (targetResolver : ℕ → Option TargetBackend)

/-- Counts on from `sector` over at most `remaining` sectors while they have the given target. -/
def contiguous (target : TargetBackend) (start : ℕ) : ℕ → ℕ → Option ℕ
  | 0, sector => some sector
  | remaining + 1, sector =>
    match targetResolver (start + sector) with
    | none => none
    | some other =>
      if other = target then contiguous target start remaining (sector + 1) else some sector

def nextByBackend (request : Request) :
    Option (Option ((TargetBackend × Request) × Request)) :=
  if request.ranges.isEmpty then some none
  else
    let len := totalBytes request.ranges / sectorSize
    match targetResolver (request.sector + 0) with
    | none => none
    | some target =>
      match contiguous targetResolver target request.sector (len - 1) 1 with
      | none => none
      | some sector =>
        match request.splitAt sector with
        | none => none
        | some (r, rest) => some (some ((target, r), rest))

/-- The parts of a request by their target, with at most `fuel` calls of `next`.  A call takes at
least one sector off the request. -/
def byBackend : ℕ → Request → Option (List (TargetBackend × Request))
  | 0, _ => none
  | fuel + 1, request =>
    match nextByBackend targetResolver request with
    | none => none
    | some none => some []
    | some (some (part, rest)) => (byBackend fuel rest).map (part :: ·)

end ByBackend

namespace CopyOnWriteBackend

def disk (cow : CopyOnWriteBackend) : TargetBackend → Disk
  | .backing => cow.backing
  | .copied => cow.copied

def readParts (cow : CopyOnWriteBackend) :
    List (TargetBackend × Request) → Except BackendError (List (ℕ × UInt8))
  | [] => .ok []
  | (target, request) :: parts => do
    let bytes ← (cow.disk target).read request
    let rest ← cow.readParts parts
    return bytes ++ rest

def read (cow : CopyOnWriteBackend) (request : Request) :
    Option (Except BackendError (List (ℕ × UInt8))) :=
  match byBackend cow.bitmap.backend (totalBytes request.ranges / sectorSize + 2) request with
  | none => none
  | some parts => some (cow.readParts parts)

def write (cow : CopyOnWriteBackend) (memory : ℕ → UInt8) (request : Request) :
    Option (Except BackendError CopyOnWriteBackend) :=
  let len := totalBytes request.ranges / sectorSize
  match cow.copied.write memory request with
  | .error e => some (.error e)
  | .ok copied =>
    match cow.bitmap.setCopiedFrom request.sector len with
    | none => none
    | some bitmap => some (.ok { cow with copied := copied, bitmap := bitmap })

end CopyOnWriteBackend

inductive Operation where
  | read (request : Request)
  | write (memory : ℕ → UInt8) (request : Request)

def Operation.request : Operation → Request
  | .read request => request
  | .write _ request => request

def CopyOnWriteBackend.run (cow : CopyOnWriteBackend) : List Operation →
    Option (Except BackendError (List (List (ℕ × UInt8)) × CopyOnWriteBackend))
  | [] => some (.ok ([], cow))
  | .read request :: operations =>
    match cow.read request with
    | none => none
    | some (.error e) => some (.error e)
    | some (.ok bytes) =>
      match cow.run operations with
      | none => none
      | some (.error e) => some (.error e)
      | some (.ok (replies, cow)) => some (.ok (bytes :: replies, cow))
  | .write memory request :: operations =>
    match cow.write memory request with
    | none => none
    | some (.error e) => some (.error e)
    | some (.ok cow) => cow.run operations

def Disk.run (disk : Disk) : List Operation → Except BackendError (List (List (ℕ × UInt8)))
  | [] => .ok []
  | .read request :: operations => do
    let bytes ← disk.read request
    let replies ← disk.run operations
    return bytes :: replies
  | .write memory request :: operations => do
    let disk ← disk.write memory request
    disk.run operations

end Smos.Block
