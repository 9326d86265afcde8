import Smos.Bind.Encoder

/-!
The interpreter of the bytecode (`bind/src/interpreter`).

An iterator over the bytes is the list of the bytes that are left.  The loops run on fuel; a result
`none` means that the fuel was not enough.
-/
namespace Smos.Bind

open Lib.Bytes

inductive BytecodeError where
  | unexpectedEnd
  | invalidStringLength
  | emptyString
  | utf8ConversionFailure
  | invalidSymbolTableKey (key : ℕ)
  | invalidOp (op : UInt8)
  | invalidValueType (valueType : UInt8)
  | invalidBoolValue (value : ℕ)
  | missingEntryInSymbolTable (key : ℕ)
  | mismatchValueTypes
  | invalidJumpLocation
  | invalidKeyType
  deriving DecidableEq, Repr

abbrev BytecodeIter := List UInt8

def nextU8 : BytecodeIter → Except BytecodeError (UInt8 × BytecodeIter)
  | byte :: iter => .ok (byte, iter)
  | [] => .error .unexpectedEnd

def nextU32 : BytecodeIter → Except BytecodeError (ℕ × BytecodeIter)
  | b₀ :: b₁ :: b₂ :: b₃ :: iter => .ok (ofLE [b₀, b₁, b₂, b₃], iter)
  | _ => .error .unexpectedEnd

def tryNextU32 : BytecodeIter → Except BytecodeError (Option (ℕ × BytecodeIter))
  | [] => .ok none
  | iter => (nextU32 iter).map some

def readStringBytes : List UInt8 → BytecodeIter → Except BytecodeError (List UInt8 × BytecodeIter)
  | _, [] => .error .unexpectedEnd
  | strBytes, byte :: iter =>
    if byte = 0 then .ok (strBytes, iter)
    else if maxStringLength < (strBytes ++ [byte]).length then .error .invalidStringLength
    else readStringBytes (strBytes ++ [byte]) iter

def readString (iter : BytecodeIter) : Except BytecodeError (String × BytecodeIter) := do
  let (strBytes, iter) ← readStringBytes [] iter
  if strBytes.isEmpty then throw .emptyString
  match String.fromUTF8? ⟨strBytes.toArray⟩ with
  | some s => return (s, iter)
  | none => throw .utf8ConversionFailure

abbrev SymbolMap := ℕ → Option String

def SymbolMap.insert (m : SymbolMap) (key : ℕ) (value : String) : SymbolMap :=
  fun k => if k = key then some value else m k

def readSymbols : ℕ → ℕ → SymbolMap → BytecodeIter → Option (Except BytecodeError SymbolMap)
  | 0, _, _, _ => none
  | fuel + 1, expectedKey, symbolTable, iter =>
    match tryNextU32 iter with
    | .error error => some (.error error)
    | .ok none => some (.ok symbolTable)
    | .ok (some (key, iter)) =>
      if key ≠ expectedKey then some (.error (.invalidSymbolTableKey key))
      else
        match readString iter with
        | .error error => some (.error error)
        | .ok (value, iter) =>
          readSymbols fuel (expectedKey + 1) (symbolTable.insert key value) iter

def readSymbolTable (bytecode : List UInt8) : Option (Except BytecodeError SymbolMap) :=
  readSymbols (bytecode.length + 1) symbTblStartKey (fun _ => none) bytecode

inductive PropertyKey where
  | numberKey (key : UInt64)
  | stringKey (key : String)
  deriving DecidableEq, Repr

abbrev DeviceProperties := PropertyKey → Option Symbol

def getDeprecatedKeyIdentifier : UInt32 → Option String
  | 0x0000 => some "fuchsia.BIND_FLAGS"
  | 0x0001 => some "fuchsia.BIND_PROTOCOL"
  | 0x0002 => some "fuchsia.BIND_AUTOBIND"
  | 0x0003 => some "fuchsia.BIND_COMPOSITE"
  | 0x0004 => some "fuchsia.BIND_FIDL_PROTOCOL"
  | 0x0100 => some "fuchsia.BIND_PCI_VID"
  | 0x0101 => some "fuchsia.BIND_PCI_DID"
  | 0x0102 => some "fuchsia.BIND_PCI_CLASS"
  | 0x0103 => some "fuchsia.BIND_PCI_SUBCLASS"
  | 0x0104 => some "fuchsia.BIND_PCI_INTERFACE"
  | 0x0105 => some "fuchsia.BIND_PCI_REVISION"
  | 0x0107 => some "fuchsia.BIND_PCI_TOPO"
  | 0x0200 => some "fuchsia.BIND_USB_VID"
  | 0x0201 => some "fuchsia.BIND_USB_PID"
  | 0x0202 => some "fuchsia.BIND_USB_CLASS"
  | 0x0203 => some "fuchsia.BIND_USB_SUBCLASS"
  | 0x0204 => some "fuchsia.BIND_USB_PROTOCOL"
  | 0x0205 => some "fuchsia.BIND_USB_INTERFACE_NUMBER"
  | 0x0300 => some "fuchsia.BIND_PLATFORM_DEV_VID"
  | 0x0301 => some "fuchsia.BIND_PLATFORM_DEV_PID"
  | 0x0302 => some "fuchsia.BIND_PLATFORM_DEV_DID"
  | 0x0304 => some "fuchsia.BIND_PLATFORM_DEV_INSTANCE_ID"
  | 0x0305 => some "fuchsia.BIND_PLATFORM_DEV_INTERRUPT_ID"
  | 0x0400 => some "fuchsia.BIND_ACPI_BUS_TYPE"
  | 0x0401 => some "fuchsia.BIND_ACPI_ID"
  | 0x0500 => some "fuchsia.BIND_IHDA_CODEC_VID"
  | 0x0501 => some "fuchsia.BIND_IHDA_CODEC_DID"
  | 0x0502 => some "fuchsia.BIND_IHDA_CODEC_MAJOR_REV"
  | 0x0503 => some "fuchsia.BIND_IHDA_CODEC_MINOR_REV"
  | 0x0504 => some "fuchsia.BIND_IHDA_CODEC_VENDOR_REV"
  | 0x0505 => some "fuchsia.BIND_IHDA_CODEC_VENDOR_STEP"
  | 0x0600 => some "fuchsia.BIND_SERIAL_CLASS"
  | 0x0601 => some "fuchsia.BIND_SERIAL_VID"
  | 0x0602 => some "fuchsia.BIND_SERIAL_PID"
  | 0x0700 => some "fuchsia.BIND_NAND_CLASS"
  | 0x0900 => some "fuchsia.BIND_SDIO_VID"
  | 0x0901 => some "fuchsia.BIND_SDIO_PID"
  | 0x0902 => some "fuchsia.BIND_SDIO_FUNCTION"
  | 0x0A00 => some "fuchsia.BIND_I2C_CLASS"
  | 0x0A01 => some "fuchsia.BIND_I2C_BUS_ID"
  | 0x0A02 => some "fuchsia.BIND_I2C_ADDRESS"
  | 0x0A03 => some "fuchsia.BIND_I2C_VID"
  | 0x0A04 => some "fuchsia.BIND_I2C_DID"
  | 0x0A10 => some "fuchsia.BIND_GPIO_PIN"
  | 0x0A11 => some "fuchsia.BIND_GPIO_CONTROLLER"
  | 0x0A20 => some "fuchsia.BIND_POWER_DOMAIN"
  | 0x0A21 => some "fuchsia.BIND_POWER_DOMAIN_COMPOSITE"
  | 0x0A30 => some "fuchsia.BIND_CLOCK_ID"
  | 0x0A41 => some "fuchsia.BIND_SPI_BUS_ID"
  | 0x0A42 => some "fuchsia.BIND_SPI_CHIP_SELECT"
  | 0x0A50 => some "fuchsia.BIND_PWM_ID"
  | 0x0A60 => some "fuchsia.BIND_INIT_STEP"
  | 0x0A70 => some "fuchsia.BIND_CODEC_INSTANCE"
  | 0x0A90 => some "fuchsia.BIND_POWER_SENSOR_DOMAIN"
  | 0x0AA0 => some "fuchsia.BIND_MAILBOX_ID"
  | _ => none

def RawOp.fromU8 : UInt8 → Option RawOp
  | 0x01 => some .equalCondition
  | 0x02 => some .inequalCondition
  | 0x10 => some .unconditionalJump
  | 0x11 => some .jumpIfEqual
  | 0x12 => some .jumpIfNotEqual
  | 0x20 => some .jumpLandPad
  | 0x30 => some .abort
  | _ => none

def RawValueType.fromU8 : UInt8 → Option RawValueType
  | 0 => some .key
  | 1 => some .numberValue
  | 2 => some .stringValue
  | 3 => some .boolValue
  | 4 => some .enumValue
  | _ => none

inductive Comparison where
  | equal | inequal
  deriving DecidableEq, Repr

/-- An enum value is compared as a string. -/
def Symbol.forCompare : Symbol → Symbol
  | .enumValue value => .stringValue value
  | symbol => symbol

inductive Discriminant where
  | deprecatedKey | key | numberValue | stringValue | boolValue | enumValue
  deriving DecidableEq, Repr

def Symbol.discriminant : Symbol → Discriminant
  | .deprecatedKey _ => .deprecatedKey
  | .key _ _ => .key
  | .numberValue _ => .numberValue
  | .stringValue _ => .stringValue
  | .boolValue _ => .boolValue
  | .enumValue _ => .enumValue

def compareSymbols (condition : Comparison) (lhs rhs : Symbol) : Except BytecodeError Bool :=
  if lhs.forCompare.discriminant ≠ rhs.forCompare.discriminant then .error .mismatchValueTypes
  else
    match condition with
    | .equal => .ok (decide (lhs.forCompare = rhs.forCompare))
    | .inequal => .ok (decide (lhs.forCompare ≠ rhs.forCompare))

structure DeviceMatcher where
  properties : DeviceProperties
  symbolTable : SymbolMap

namespace DeviceMatcher

def lookupSymbolTable (m : DeviceMatcher) (key : ℕ) : Except BytecodeError String :=
  match m.symbolTable key with
  | some value => .ok value
  | none => .error (.missingEntryInSymbolTable key)

/-- The value of a type and a number.  The type of a key is a placeholder. -/
def decodeValue (m : DeviceMatcher) (value : ℕ) : RawValueType → Except BytecodeError Symbol
  | .numberValue => .ok (.numberValue (UInt64.ofNat value))
  | .key => do return .key (← m.lookupSymbolTable value) .str
  | .stringValue => do return .stringValue (← m.lookupSymbolTable value)
  | .boolValue =>
    if value = 0 then .ok (.boolValue false)
    else if value = 1 then .ok (.boolValue true)
    else .error (.invalidBoolValue value)
  | .enumValue => do return .enumValue (← m.lookupSymbolTable value)

def readNextValue (m : DeviceMatcher) (iter : BytecodeIter) :
    Except BytecodeError (Symbol × BytecodeIter) := do
  let (valueType, iter) ← nextU8 iter
  match RawValueType.fromU8 valueType with
  | none => throw (.invalidValueType valueType)
  | some rawType =>
    let (value, iter) ← nextU32 iter
    let symbol ← m.decodeValue value rawType
    return (symbol, iter)

def propertyKey : Symbol → Except BytecodeError PropertyKey
  | .numberValue key => .ok (.numberKey key)
  | .stringValue key => .ok (.stringKey key)
  | .key key _ => .ok (.stringKey key)
  | _ => .error .invalidKeyType

/-- The value of a property.  An integer key that the device does not have is looked up again under
its deprecated string. -/
def nodePropertyValue (m : DeviceMatcher) (key : PropertyKey) : Option Symbol :=
  match m.properties key with
  | some value => some value
  | none =>
    match key with
    | .numberKey intKey =>
      match getDeprecatedKeyIdentifier intKey.toUInt32 with
      | some strKey => m.properties (.stringKey strKey)
      | none => none
    | .stringKey _ => none

def readAndEvaluateValues (m : DeviceMatcher) (condition : Comparison) (iter : BytecodeIter) :
    Except BytecodeError (Bool × BytecodeIter) := do
  let (keySymbol, iter) ← m.readNextValue iter
  let key ← propertyKey keySymbol
  let (expectedValue, iter) ← m.readNextValue iter
  match m.nodePropertyValue key with
  | none => return (condition == .inequal, iter)
  | some value => return (← compareSymbols condition expectedValue value, iter)

def skip : ℕ → BytecodeIter → Except BytecodeError BytecodeIter
  | 0, iter => .ok iter
  | n + 1, iter => do
    let (_, iter) ← nextU8 iter
    skip n iter

def jumpTo (offset : ℕ) (iter : BytecodeIter) : Except BytecodeError BytecodeIter := do
  let iter ← skip offset iter
  let (byte, iter) ← nextU8 iter
  if byte ≠ RawOp.jumpLandPad.toU8 then throw .invalidJumpLocation
  return iter

def evaluateJumpInst (m : DeviceMatcher) (condition : Option Comparison) (iter : BytecodeIter) :
    Except BytecodeError BytecodeIter := do
  let (offset, iter) ← nextU32 iter
  match condition with
  | none => jumpTo offset iter
  | some condition =>
    let (holds, iter) ← m.readAndEvaluateValues condition iter
    if holds then jumpTo offset iter else return iter

/-- One instruction: the verdict if there is one, and otherwise the bytes that are left. -/
def step (m : DeviceMatcher) (iter : BytecodeIter) :
    RawOp → Except BytecodeError (Bool ⊕ BytecodeIter)
  | .equalCondition => do
    let (holds, iter) ← m.readAndEvaluateValues .equal iter
    return if holds then .inr iter else .inl false
  | .inequalCondition => do
    let (holds, iter) ← m.readAndEvaluateValues .inequal iter
    return if holds then .inr iter else .inl false
  | .abort => .ok (.inl false)
  | .unconditionalJump => (m.evaluateJumpInst none iter).map .inr
  | .jumpIfEqual => (m.evaluateJumpInst (some .equal) iter).map .inr
  | .jumpIfNotEqual => (m.evaluateJumpInst (some .inequal) iter).map .inr
  | .jumpLandPad => .ok (.inr iter)

def matchLoop (m : DeviceMatcher) : ℕ → BytecodeIter → Option (Except BytecodeError Bool)
  | 0, _ => none
  | _ + 1, [] => some (.ok true)
  | fuel + 1, byte :: iter =>
    match RawOp.fromU8 byte with
    | none => some (.error (.invalidOp byte))
    | some op =>
      match m.step iter op with
      | .error error => some (.error error)
      | .ok (.inl verdict) => some (.ok verdict)
      | .ok (.inr iter) => m.matchLoop fuel iter

end DeviceMatcher

def matchBind (symbolTable : SymbolMap) (instructions : List UInt8)
    (properties : DeviceProperties) : Option (Except BytecodeError Bool) :=
  DeviceMatcher.matchLoop ⟨properties, symbolTable⟩ (instructions.length + 1) instructions

end Smos.Bind
