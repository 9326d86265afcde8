import Smos.Log.Record
import Smos.Lib.Fallible

/-!
Encoding records into a buffer of fixed capacity.

The encoder is a program over the buffer that can fail or panic.  A header is filled into its slot
after what it precedes was written.
-/
namespace Smos.Log

open Lib Lib.Bytes

inductive EncodingError where
  | bufferTooSmall
  | unsupported
  | noCapacity
deriving DecidableEq

def EncodingError.text : EncodingError → String
  | .bufferTooSmall => "buffer is too small"
  | .unsupported => "unsupported value type"
  | .noCapacity => "the buffer has no remaining capacity"

structure Buffer where
  bytes : List UInt8
  position : ℕ

abbrev Encoder := Fallible Buffer EncodingError

structure WriteSlot where
  start : ℕ
  stop : ℕ

namespace Encoder

def cursor : Encoder ℕ := fun buf => some (.ok buf.position, buf)

def hasRemaining (buf : Buffer) (numBytes : ℕ) : Bool :=
  buf.position + numBytes ≤ buf.bytes.length

def advanceCursor (n : ℕ) : Encoder Unit := fun buf =>
  some (.ok (), { buf with position := buf.position + n })

def putSliceAt (src : List UInt8) (offset : ℕ) : Encoder Unit := fun buf =>
  if offset + src.length ≤ buf.bytes.length then
    some (.ok (), { buf with bytes := splice buf.bytes offset src })
  else none

def putSlot (width : ℕ) : Encoder WriteSlot := fun buf =>
  if hasRemaining buf width then
    some (.ok { start := buf.position, stop := buf.position + width },
      { buf with position := buf.position + width })
  else some (.error .bufferTooSmall, buf)

def fillSlot (slot : WriteSlot) (src : List UInt8) : Encoder Unit :=
  if src.length ≠ slot.stop - slot.start then Fallible.abort
  else putSliceAt src slot.start

def putSlice (src : List UInt8) : Encoder Unit := fun buf =>
  if hasRemaining buf src.length then
    (do
      putSliceAt src buf.position
      advanceCursor src.length : Encoder Unit) buf
  else some (.error .noCapacity, buf)

def writeSlice (src : List UInt8) : Encoder Unit := fun buf =>
  match putSlice src buf with
  | some (.error _, buf) => some (.error .bufferTooSmall, buf)
  | result => result

def write64 (n : BitVec 64) : Encoder Unit := writeSlice (leBytes 8 n.toNat)

def writeBytes (src : List UInt8) : Encoder Unit := do
  writeSlice src
  advanceCursor ((8 - src.length % 8) % 8)

def stringMask (s : String) : ℕ :=
  let len := (utf8 s).length
  if len = 0 then 0 else len % 2 ^ 16 ||| 1 <<< 15

def writeArgumentName (header : Header) (name : String) : Encoder Header := do
  writeBytes (utf8 name)
  return header.setNameRef (stringMask name)

def writeValue (header : Header) : Value → Encoder Header
  | .signedInt n => do
    write64 n
    return header.setType ArgType.i64.toNat
  | .unsignedInt n => do
    write64 n
    return header.setType ArgType.u64.toNat
  | .floating bits => do
    write64 bits
    return header.setType ArgType.f64.toNat
  | .boolean b => return (header.setType ArgType.bool.toNat).setBoolVal b
  | .text s => do
    writeBytes (utf8 s)
    return (header.setType ArgType.string.toNat).setValueRef (stringMask s)

def innerWriteArgument (callback : Header → Encoder Header) : Encoder Unit := do
  let startingIdx ← cursor
  let headerSlot ← putSlot 8
  let header ← callback 0
  let stop ← cursor
  let recordLen := stop - startingIdx
  if recordLen % 8 ≠ 0 then Fallible.abort
  else fillSlot headerSlot (leBytes 8 (header.setSizeWords (recordLen / 8 % 2 ^ 16)).toNat)

def writeArgument (argument : Argument) : Encoder Unit :=
  innerWriteArgument fun header => do
    let header ← writeArgumentName header argument.name
    writeValue header argument.value

def writeArguments : List Argument → Encoder Unit
  | [] => pure ()
  | argument :: arguments => do
    writeArgument argument
    writeArguments arguments

def writeInner (timestamp : BitVec 64) (severity : BitVec 8) (writeArgs : Encoder Unit) :
    Encoder Unit := do
  let startingIdx ← cursor
  let headerSlot ← putSlot 8
  write64 timestamp
  writeArgs
  let stop ← cursor
  let length := stop - startingIdx
  if length % 8 ≠ 0 then Fallible.abort
  else
    let header : Header := ((0 : Header).setType Constants.tracingFormatLogRecordType).setSeverity
      severity
    fillSlot headerSlot (leBytes 8 (header.setSizeWords (length / 8 % 2 ^ 16)).toNat)

def writeRecord (record : Record) : Encoder Unit :=
  writeInner record.timestamp record.severity (writeArguments record.arguments)

end Encoder

end Smos.Log
