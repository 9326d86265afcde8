import Smos.Log.Record
import Smos.Lib.Result

/-!
Parsing records.

How bytes that are not UTF-8 are replaced in a message is a parameter.
-/
namespace Smos.Log

open Lib.Bytes

inductive ParseError where
  | valueOutOfValidRange
  | unsupported
  | invalidHeader
  | invalidArgumentHeader
  | invalidTimestamp
  | invalidArgument
  | invalidRecordType
deriving DecidableEq

def ParseError.text : ParseError → String
  | .valueOutOfValidRange => "value out of range"
  | .unsupported => "unsupported value type"
  | .invalidHeader => "found invalid header"
  | .invalidArgumentHeader => "found invalid header in an argument"
  | .invalidTimestamp => "found invalid timestamp after header"
  | .invalidArgument => "found invalid argument"
  | .invalidRecordType => "found invalid record type"

def fromUtf8 (bytes : List UInt8) : Option String := String.fromUTF8? ⟨bytes.toArray⟩

def read64 (error : ParseError) (buf : List UInt8) : Except ParseError (BitVec 64 × List UInt8) :=
  if buf.length < 8 then .error error
  else .ok (BitVec.ofNat 64 (ofLE (buf.take 8)), buf.drop 8)

inductive ParseState where
  | initial
  | inMessage
  | inArguments
deriving DecidableEq

section Lossy

variable (fromUtf8Lossy : List UInt8 → String)

def stringRef (refMask : ℕ) (buf : List UInt8) (supportInvalidUtf8 : Bool) :
    Except ParseError (String × List UInt8) :=
  if refMask = 0 then .ok ("", buf)
  else if refMask &&& 1 <<< 15 = 0 then .error .unsupported
  else
    let nameLen := refMask &&& (2 ^ 15 - 1)
    if buf.length < nameLen then .error .valueOutOfValidRange
    else
      let name := buf.take nameLen
      let afterName := buf.drop nameLen
      let parsed := if supportInvalidUtf8 then some (fromUtf8Lossy name) else fromUtf8 name
      match parsed with
      | none => .error .valueOutOfValidRange
      | some parsed => .ok (parsed, afterName.drop (afterName.length % 8))

def parseValue (header : Header) (argTy : ArgType) (afterName : List UInt8)
    (inMessage : Bool) : Except ParseError (Value × List UInt8) :=
  match argTy with
  | .null => .ok (.unsignedInt 1, afterName)
  | .i64 => do
    let (n, rem) ← read64 .invalidArgument afterName
    return (.signedInt n, rem)
  | .u64 => do
    let (n, rem) ← read64 .invalidArgument afterName
    return (.unsignedInt n, rem)
  | .f64 => do
    let (n, rem) ← read64 .invalidArgument afterName
    return (.floating n, rem)
  | .string => do
    let (s, rem) ← stringRef fromUtf8Lossy header.valueRef afterName inMessage
    return (.text s, rem)
  | .bool => .ok (.boolean header.boolVal, afterName)
  | .pointer | .koid | .i32 | .u32 => .error .unsupported

def parseArgumentInternal (buf : List UInt8) (state : ParseState) :
    Except ParseError (Argument × List UInt8 × ParseState) := do
  let (header, afterHeader) ← read64 .invalidArgumentHeader buf
  match ArgType.tryFrom (Header.rawType header) with
  | none => .error .valueOutOfValidRange
  | some argTy => do
    let (name, afterName) ← stringRef fromUtf8Lossy (Header.nameRef header) afterHeader false
    let state := if state = .initial ∧ name = Constants.message then .inMessage else state
    let (value, afterValue) ←
      parseValue fromUtf8Lossy header argTy afterName (state = .inMessage)
    let state := if state = .inMessage then .inArguments else state
    return (Argument.new name value, afterValue, state)

/-- Parses arguments until the buffer is empty.  Each takes at least its header off the buffer, so
`fuel` does not run out when it is the length of the buffer. -/
def parseArguments : ℕ → List UInt8 → ParseState → Except ParseError (List Argument)
  | _, [], _ => .ok []
  | 0, _ :: _, _ => .error .valueOutOfValidRange
  | fuel + 1, b :: buf, state => do
    let (argument, rem, state) ← parseArgumentInternal fromUtf8Lossy (b :: buf) state
    let arguments ← parseArguments fuel rem state
    return argument :: arguments

def parseRecord (buf : List UInt8) : Except ParseError (Record × List UInt8) := do
  let (header, afterHeader) ← read64 .invalidHeader buf
  if Header.rawType header ≠ Constants.tracingFormatLogRecordType then
    .error .valueOutOfValidRange
  else do
    let (timestamp, remainingBuffer) ← read64 .invalidTimestamp afterHeader
    if Header.sizeWords header < 2 then .error .valueOutOfValidRange
    else
      let argumentsLength := (Header.sizeWords header - 2) * 8
      if remainingBuffer.length < argumentsLength then .error .valueOutOfValidRange
      else do
        let arguments ← parseArguments fromUtf8Lossy argumentsLength
          (remainingBuffer.take argumentsLength) .initial
        return ({ timestamp := timestamp, severity := Header.severity header,
                  arguments := arguments }, remainingBuffer.drop argumentsLength)

end Lossy

end Smos.Log
