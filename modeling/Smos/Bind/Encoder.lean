import Smos.Bind.Compiler
import Smos.Lib.Bytes
import Smos.Lib.OrderedMap

/-!
The encoding of instructions as bytes (`bind/src/bytecode_encoder`), without debug information.

Strings are replaced by keys of a symbol table, which is encoded at the same time.  A jump is
encoded with a placeholder for its offset.  When all instructions are encoded, the offsets are
filled in from the map of the labels, which is a hash map: `LabelOrder` is the order in which its
entries are met.
-/
namespace Smos.Bind

open Lib.Bytes
open Std (TreeMap)

inductive BindRulesEncodeError where
  | invalidStringLength (value : String)
  | mismatchValueTypes (lhs rhs : ValueType)
  | incorrectTypesInValueComparison
  | duplicateLabel (id : ℕ)
  | missingLabel (id : ℕ)
  | invalidGotoLocation (id : ℕ)
  | jumpOffsetOutOfRange (id : ℕ)
  | matchNotSupported
  /-- The panic when the keys of the symbol table overflow. -/
  | symbolOverflow
  deriving DecidableEq, Repr

def maxStringLength : ℕ := 255

def symbTblStartKey : ℕ := 1

inductive RawOp where
  | equalCondition | inequalCondition | unconditionalJump | jumpIfEqual | jumpIfNotEqual
  | jumpLandPad | abort
  deriving DecidableEq, Repr

def RawOp.toU8 : RawOp → UInt8
  | .equalCondition => 0x01
  | .inequalCondition => 0x02
  | .unconditionalJump => 0x10
  | .jumpIfEqual => 0x11
  | .jumpIfNotEqual => 0x12
  | .jumpLandPad => 0x20
  | .abort => 0x30

inductive RawValueType where
  | key | numberValue | stringValue | boolValue | enumValue
  deriving DecidableEq, Repr

def RawValueType.toU8 : RawValueType → UInt8
  | .key => 0
  | .numberValue => 1
  | .stringValue => 2
  | .boolValue => 3
  | .enumValue => 4

def utf8Bytes (s : String) : List UInt8 := s.toByteArray.data.toList

/-- The symbols with their keys, in the order of their insertion, and the bytes that encode them. -/
structure SymbolTableEncoder where
  encodedSymbols : List (String × ℕ)
  uniqueKey : ℕ
  bytecode : List UInt8

namespace SymbolTableEncoder

def new : SymbolTableEncoder := ⟨[], symbTblStartKey, []⟩

def entryBytes (key : ℕ) (value : String) : List UInt8 :=
  leBytes 4 key ++ utf8Bytes value ++ [0]

def addSymbol (t : SymbolTableEncoder) (value : String) :
    Except BindRulesEncodeError (ℕ × SymbolTableEncoder) :=
  if maxStringLength < (utf8Bytes value).length then .error (.invalidStringLength value)
  else if t.uniqueKey + 1 < 4294967296 then
    .ok (t.uniqueKey,
      { encodedSymbols := t.encodedSymbols ++ [(value, t.uniqueKey)]
        uniqueKey := t.uniqueKey + 1
        bytecode := t.bytecode ++ entryBytes t.uniqueKey value })
  else .error .symbolOverflow

def getKey (t : SymbolTableEncoder) (value : String) :
    Except BindRulesEncodeError (ℕ × SymbolTableEncoder) :=
  match t.encodedSymbols.lookup value with
  | some key => .ok (key, t)
  | none => t.addSymbol value

end SymbolTableEncoder

/-- Where the offset of a jump is in the bytes, and how far it is from the end of the jump. -/
structure JumpInstructionOffsetInfo where
  index : ℕ
  instOffset : ℕ
  deriving DecidableEq, Repr

structure LabelInfo where
  index : Option ℕ
  jumpInstructions : List JumpInstructionOffsetInfo
  deriving DecidableEq, Repr

/-- The order in which the labels are met when the offsets are filled in. -/
structure LabelOrder where
  list : TreeMap ℕ LabelInfo → List (ℕ × LabelInfo)
  perm : ∀ m, (list m).Perm m.toList

structure InstructionEncoder where
  bytecode : List UInt8
  symbolTable : SymbolTableEncoder
  labelMap : TreeMap ℕ LabelInfo

namespace InstructionEncoder

def isSymbolKey : Symbol → Bool
  | .deprecatedKey _ | .key _ _ => true
  | _ => false

def isMatchingTypes (lhs rhs : ValueType) : Bool :=
  let isStringBased := fun t : ValueType => t == .str || t == .enum
  if isStringBased lhs && isStringBased rhs then true else lhs == rhs

def valueType : Symbol → Option ValueType
  | .numberValue _ => some .number
  | .stringValue _ => some .str
  | .boolValue _ => some .bool
  | .enumValue _ => some .enum
  | .deprecatedKey _ | .key _ _ => none

def appendByte (e : InstructionEncoder) (byte : UInt8) : InstructionEncoder :=
  { e with bytecode := e.bytecode ++ [byte] }

def appendU32 (e : InstructionEncoder) (value : ℕ) : InstructionEncoder :=
  { e with bytecode := e.bytecode ++ leBytes 4 value }

def rawValue (t : SymbolTableEncoder) : Symbol →
    Except BindRulesEncodeError (RawValueType × ℕ × SymbolTableEncoder)
  | .numberValue value => .ok (.numberValue, value.toUInt32.toNat, t)
  | .boolValue value => .ok (.boolValue, value.toNat, t)
  | .stringValue value => do
    let (key, t) ← t.getKey value
    return (.stringValue, key, t)
  | .key key _ => do
    let (key, t) ← t.getKey key
    return (.key, key, t)
  | .deprecatedKey key => .ok (.numberValue, key.toNat, t)
  | .enumValue value => do
    let (key, t) ← t.getKey value
    return (.enumValue, key, t)

def appendValue (e : InstructionEncoder) (symbol : Symbol) :
    Except BindRulesEncodeError InstructionEncoder := do
  let (rawType, value, t) ← rawValue e.symbolTable symbol
  return (({ e with symbolTable := t }).appendByte rawType.toU8).appendU32 value

/-- What `append_value_comparison` tests before it appends anything. -/
def checkComparison (lhs rhs : Symbol) : Except BindRulesEncodeError Unit :=
  if !isSymbolKey lhs then .error .incorrectTypesInValueComparison
  else
    match valueType rhs with
    | none => .error .incorrectTypesInValueComparison
    | some rhsType =>
      match lhs with
      | .key _ lhsType =>
        if !isMatchingTypes lhsType rhsType then .error (.mismatchValueTypes lhsType rhsType)
        else .ok ()
      | _ => .ok ()

def appendValueComparison (e : InstructionEncoder) (lhs rhs : Symbol) :
    Except BindRulesEncodeError InstructionEncoder := do
  checkComparison lhs rhs
  let e ← e.appendValue lhs
  e.appendValue rhs

/-- The rules abort when a condition fails, so the opposite condition is encoded. -/
def appendAbortInstruction (e : InstructionEncoder) :
    Instruction.Condition → Except BindRulesEncodeError InstructionEncoder
  | .always => .ok (e.appendByte RawOp.abort.toU8)
  | .equal lhs rhs => (e.appendByte RawOp.inequalCondition.toU8).appendValueComparison lhs rhs
  | .notEqual lhs rhs => (e.appendByte RawOp.equalCondition.toU8).appendValueComparison lhs rhs

def appendJmp (e : InstructionEncoder) :
    Instruction.Condition → Except BindRulesEncodeError InstructionEncoder
  | .always => .ok ((e.appendByte RawOp.unconditionalJump.toU8).appendU32 0)
  | .equal lhs rhs =>
    ((e.appendByte RawOp.jumpIfEqual.toU8).appendU32 0).appendValueComparison lhs rhs
  | .notEqual lhs rhs =>
    ((e.appendByte RawOp.jumpIfNotEqual.toU8).appendU32 0).appendValueComparison lhs rhs

def labelInfo (e : InstructionEncoder) (id : ℕ) : LabelInfo :=
  (e.labelMap[id]?).getD ⟨none, []⟩

def appendJmpStatement (e : InstructionEncoder) (condition : Instruction.Condition) (id : ℕ) :
    Except BindRulesEncodeError InstructionEncoder := do
  let offsetIndex := e.bytecode.length + 1
  let e ← e.appendJmp condition
  if (e.labelInfo id).index.isSome then throw (.invalidGotoLocation id)
  let usage := ⟨offsetIndex, e.bytecode.length - offsetIndex⟩
  return { e with
    labelMap := e.labelMap.insert id
      ⟨(e.labelInfo id).index, (e.labelInfo id).jumpInstructions ++ [usage]⟩ }

def appendAndUpdateLabel (e : InstructionEncoder) (id : ℕ) :
    Except BindRulesEncodeError InstructionEncoder :=
  if (e.labelInfo id).index.isSome then .error (.duplicateLabel id)
  else
    .ok ({ e with
      labelMap := e.labelMap.insert id
        ⟨some e.bytecode.length, (e.labelInfo id).jumpInstructions⟩ }.appendByte
          RawOp.jumpLandPad.toU8)

def encodeInstruction (e : InstructionEncoder) :
    Instruction → Except BindRulesEncodeError InstructionEncoder
  | .abort condition => e.appendAbortInstruction condition
  | .goto condition label => e.appendJmpStatement condition label
  | .label id => e.appendAndUpdateLabel id
  | .bind _ => .error .matchNotSupported

def encodeAll (e : InstructionEncoder) :
    List Instruction → Except BindRulesEncodeError InstructionEncoder
  | [] => .ok e
  | instruction :: rest => do
    let e ← e.encodeInstruction instruction
    e.encodeAll rest

/-- Fills in the offsets of the jumps to one label.  A difference that is negative wraps around
to a number that is out of range as well. -/
def patchUsages (id labelIndex : ℕ) :
    List JumpInstructionOffsetInfo → List UInt8 → Except BindRulesEncodeError (List UInt8)
  | [], bytecode => .ok bytecode
  | usage :: rest, bytecode =>
    if labelIndex < usage.index + usage.instOffset ∨
        4294967296 ≤ labelIndex - usage.index - usage.instOffset then
      .error (.jumpOffsetOutOfRange id)
    else
      patchUsages id labelIndex rest
        (splice bytecode usage.index (leBytes 4 (labelIndex - usage.index - usage.instOffset)))

def patchLabels :
    List (ℕ × LabelInfo) → List UInt8 → Except BindRulesEncodeError (List UInt8)
  | [], bytecode => .ok bytecode
  | (id, data) :: rest, bytecode =>
    match data.index with
    | none => .error (.missingLabel id)
    | some labelIndex => do
      let bytecode ← patchUsages id labelIndex data.jumpInstructions bytecode
      patchLabels rest bytecode

end InstructionEncoder

def encodeInstructions (order : LabelOrder) (instructions : List SymbolicInstruction)
    (symbolTable : SymbolTableEncoder) :
    Except BindRulesEncodeError (List UInt8 × SymbolTableEncoder) := do
  let e ← InstructionEncoder.encodeAll ⟨[], symbolTable, ∅⟩
    (instructions.map SymbolicInstruction.toInstruction)
  let bytecode ← InstructionEncoder.patchLabels (order.list e.labelMap) e.bytecode
  return (bytecode, e.symbolTable)

end Smos.Bind
