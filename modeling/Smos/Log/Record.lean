import Smos.Inspect.Fields

/-!
Log records: their arguments and the header word of records and arguments.

A signed, an unsigned and a floating point value is its 64-bit pattern.
-/
namespace Smos.Log

open Inspect (BitField)

namespace Constants

def pid : String := "pid"
def tid : String := "tid"
def tag : String := "tag"
def numDropped : String := "num_dropped"
def message : String := "message"
def file : String := "file"
def line : String := "line"

def tracingFormatLogRecordType : ℕ := 9

end Constants

inductive Value where
  | signedInt (n : BitVec 64)
  | unsignedInt (n : BitVec 64)
  | floating (bits : BitVec 64)
  | boolean (b : Bool)
  | text (s : String)
deriving DecidableEq

inductive Argument where
  | pid (koid : BitVec 64)
  | tid (koid : BitVec 64)
  | tag (s : String)
  | dropped (n : BitVec 64)
  | file (s : String)
  | message (s : String)
  | line (n : BitVec 64)
  | other (name : String) (value : Value)
deriving DecidableEq

namespace Argument

def new (name : String) (value : Value) : Argument :=
  match value with
  | .unsignedInt n =>
    if name = Constants.pid then .pid n
    else if name = Constants.tid then .tid n
    else if name = Constants.numDropped then .dropped n
    else if name = Constants.line then .line n
    else .other name value
  | .text s =>
    if name = Constants.tag then .tag s
    else if name = Constants.file then .file s
    else if name = Constants.message then .message s
    else .other name value
  | _ => .other name value

def name : Argument → String
  | .pid _ => Constants.pid
  | .tid _ => Constants.tid
  | .tag _ => Constants.tag
  | .dropped _ => Constants.numDropped
  | .file _ => Constants.file
  | .line _ => Constants.line
  | .message _ => Constants.message
  | .other name _ => name

def value : Argument → Value
  | .pid koid => .unsignedInt koid
  | .tid koid => .unsignedInt koid
  | .tag s => .text s
  | .dropped n => .unsignedInt n
  | .file s => .text s
  | .message s => .text s
  | .line n => .unsignedInt n
  | .other _ value => value

end Argument

structure Record where
  timestamp : BitVec 64
  severity : BitVec 8
  arguments : List Argument
deriving DecidableEq

def utf8 (s : String) : List UInt8 := s.toUTF8.data.toList

abbrev Header := BitVec 64

namespace Header

def rawTypeField : BitField := ⟨3, 0⟩
def sizeWordsField : BitField := ⟨15, 4⟩
def nameRefField : BitField := ⟨31, 16⟩
def boolValField : BitField := ⟨32, 32⟩
def valueRefField : BitField := ⟨47, 32⟩
def severityField : BitField := ⟨63, 56⟩

def setField (header : Header) (field : BitField) (value : ℕ) : Header :=
  field.set header (BitVec.ofNat 64 (value % 2 ^ field.width))

def setType (header : Header) (value : ℕ) : Header := header.setField rawTypeField value
def setSizeWords (header : Header) (value : ℕ) : Header := header.setField sizeWordsField value
def setNameRef (header : Header) (value : ℕ) : Header := header.setField nameRefField value
def setBoolVal (header : Header) (value : Bool) : Header :=
  header.setField boolValField value.toNat
def setValueRef (header : Header) (value : ℕ) : Header := header.setField valueRefField value
def setSeverity (header : Header) (value : BitVec 8) : Header :=
  header.setField severityField value.toNat

def rawType (header : Header) : ℕ := rawTypeField.get header
def sizeWords (header : Header) : ℕ := sizeWordsField.get header
def nameRef (header : Header) : ℕ := nameRefField.get header
def boolVal (header : Header) : Bool := boolValField.get header ≠ 0
def valueRef (header : Header) : ℕ := valueRefField.get header
def severity (header : Header) : BitVec 8 := BitVec.ofNat 8 (severityField.get header)

end Header

inductive ArgType where
  | null
  | i32
  | u32
  | i64
  | u64
  | f64
  | string
  | pointer
  | koid
  | bool
deriving DecidableEq

def ArgType.toNat : ArgType → ℕ
  | .null => 0
  | .i32 => 1
  | .u32 => 2
  | .i64 => 3
  | .u64 => 4
  | .f64 => 5
  | .string => 6
  | .pointer => 7
  | .koid => 8
  | .bool => 9

def ArgType.tryFrom : ℕ → Option ArgType
  | 0 => some .null
  | 1 => some .i32
  | 2 => some .u32
  | 3 => some .i64
  | 4 => some .u64
  | 5 => some .f64
  | 6 => some .string
  | 7 => some .pointer
  | 8 => some .koid
  | 9 => some .bool
  | _ => none

namespace Header

variable {header : Header} {f g : BitField} {value : ℕ}

theorem get_setField_self (hf : f.Proper) : f.get (header.setField f value) = value % 2 ^ f.width :=
  BitField.get_set_self hf (Nat.mod_lt _ (Nat.two_pow_pos _))

theorem get_setField_of_apart (h : f.Proper ∧ g.Proper ∧ f.Apart g) :
    f.get (header.setField g value) = f.get header :=
  BitField.get_set_of_apart h.1 h.2.1 h.2.2 (Nat.mod_lt _ (Nat.two_pow_pos _))

end Header

end Smos.Log
