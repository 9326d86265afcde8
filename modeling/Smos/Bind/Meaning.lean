import Smos.Bind.Interpreter
import Smos.Lib.Result

/-!
The meaning of bind rules, and that the compiler keeps it.

A condition compares a property of the device with a literal.  A list of statements holds if every
statement holds; an `accept` holds if the property equals one of the values; an `if` means its first
block whose condition holds, or else its last block.  Instructions are given a meaning of their own,
in which a jump goes to a label further on, and the instructions for a block do what the block
means, whatever follows them.
-/
namespace Smos.Bind

open Lib.Result List

variable {table : SymbolTable} {properties : DeviceProperties}

def propertyOf (properties : DeviceProperties) : Symbol → Option Symbol
  | .key key _ => properties (.stringKey key)
  | .deprecatedKey key =>
    match properties (.numberKey key.toUInt64) with
    | some value => some value
    | none => (getDeprecatedKeyIdentifier key).bind fun name => properties (.stringKey name)
  | _ => none

/-- The kinds of values; strings and enum values are of one kind. -/
inductive Kind where
  | number | bool | text
  deriving DecidableEq, Repr

def Symbol.kind : Symbol → Option Kind
  | .numberValue _ => some .number
  | .boolValue _ => some .bool
  | .stringValue _ | .enumValue _ => some .text
  | .key _ _ | .deprecatedKey _ => none

def isEqual (properties : DeviceProperties) (lhs rhs : Symbol) : Bool :=
  match propertyOf properties lhs with
  | some value => decide (rhs.forCompare = value.forCompare)
  | none => false

/-- The property, if it is present, has the kind of the literal. -/
def Agrees (properties : DeviceProperties) (lhs rhs : Symbol) : Prop :=
  ∀ value, propertyOf properties lhs = some value → value.kind = rhs.kind

section Source

open Compiler (lookupIdentifier lookupValue)

variable (table : SymbolTable) (properties : DeviceProperties)

def valueEquals (identifier : CompoundIdentifier) (value : Value) : Bool :=
  match lookupIdentifier table identifier, lookupValue table value with
  | .ok lhs, .ok rhs => isEqual properties lhs rhs
  | _, _ => false

def valueAgrees (identifier : CompoundIdentifier) (value : Value) : Prop :=
  ∀ lhs rhs, lookupIdentifier table identifier = .ok lhs → lookupValue table value = .ok rhs →
    Agrees properties lhs rhs

def conditionHolds (condition : Condition) : Bool :=
  match condition.op with
  | .equals => valueEquals table properties condition.lhs condition.rhs
  | .notEquals => !valueEquals table properties condition.lhs condition.rhs

mutual

def blockHolds : List Statement → Bool
  | [] => true
  | statement :: rest => statementHolds statement && blockHolds rest

def statementHolds : Statement → Bool
  | .conditionStatement condition => conditionHolds table properties condition
  | .accept identifier values => values.any (valueEquals table properties identifier)
  | .ifElse blocks elseBlock => blocksHold (blockHolds elseBlock) blocks
  | .falseStatement => false
  | .trueStatement => true

/-- The first block whose condition holds, or else the last one. -/
def blocksHold (elseHolds : Bool) : List (Condition × List Statement) → Bool
  | [] => elseHolds
  | (condition, block) :: rest =>
    if conditionHolds table properties condition then blockHolds block
    else blocksHold elseHolds rest

end

/-- Among the values that are compared in turn, up to the first that is equal. -/
def valuesAgree (identifier : CompoundIdentifier) : List Value → Prop
  | [] => True
  | value :: rest => valueAgrees table properties identifier value ∧
      (valueEquals table properties identifier value = false → valuesAgree identifier rest)

mutual

/-- The comparisons that are made from top to bottom are between values of one kind. -/
def blockAgrees : List Statement → Prop
  | [] => True
  | statement :: rest => statementAgrees statement ∧
      (statementHolds table properties statement = true → blockAgrees rest)

def statementAgrees : Statement → Prop
  | .conditionStatement condition =>
    valueAgrees table properties condition.lhs condition.rhs
  | .accept identifier values => valuesAgree table properties identifier values
  | .ifElse blocks elseBlock => blocksAgree (blockAgrees elseBlock) blocks
  | .falseStatement => True
  | .trueStatement => True

def blocksAgree (elseAgrees : Prop) : List (Condition × List Statement) → Prop
  | [] => elseAgrees
  | (condition, block) :: rest =>
    valueAgrees table properties condition.lhs condition.rhs ∧
      if conditionHolds table properties condition then blockAgrees block
      else blocksAgree elseAgrees rest

end

variable (P : Symbol → Prop)

def identifierAll (identifier : CompoundIdentifier) : Prop :=
  ∀ symbol, lookupIdentifier table identifier = .ok symbol → P symbol

def valueAll (value : Value) : Prop := ∀ symbol, lookupValue table value = .ok symbol → P symbol

mutual

def blockAll : List Statement → Prop
  | [] => True
  | statement :: rest => statementAll statement ∧ blockAll rest

def statementAll : Statement → Prop
  | .conditionStatement condition =>
    identifierAll table P condition.lhs ∧ valueAll table P condition.rhs
  | .accept identifier values =>
    identifierAll table P identifier ∧ ∀ value ∈ values, valueAll table P value
  | .ifElse blocks elseBlock => blocksAll blocks ∧ blockAll elseBlock
  | .falseStatement => True
  | .trueStatement => True

def blocksAll : List (Condition × List Statement) → Prop
  | [] => True
  | (condition, block) :: rest =>
    (identifierAll table P condition.lhs ∧ valueAll table P condition.rhs) ∧
      blockAll block ∧ blocksAll rest

end

end Source

namespace Instruction

def Condition.holds (properties : DeviceProperties) : Condition → Bool
  | .always => true
  | .equal lhs rhs => isEqual properties lhs rhs
  | .notEqual lhs rhs => !isEqual properties lhs rhs

def Condition.Agrees (properties : DeviceProperties) : Condition → Prop
  | .always => True
  | .equal lhs rhs | .notEqual lhs rhs => Bind.Agrees properties lhs rhs

def Condition.All (P : Symbol → Prop) : Condition → Prop
  | .always => True
  | .equal lhs rhs | .notEqual lhs rhs => P lhs ∧ P rhs

def All (P : Symbol → Prop) : Instruction → Prop
  | .abort condition | .bind condition | .goto condition _ => condition.All P
  | .label _ => True

end Instruction

/-- What instructions do: the verdict at their end, or when one aborts. -/
inductive Exec (properties : DeviceProperties) : List Instruction → Bool → Prop
  | done : Exec properties [] true
  | abort {condition rest} (hagrees : condition.Agrees properties)
    (hholds : condition.holds properties = true) :
    Exec properties (.abort condition :: rest) false
  | pass {condition rest b} (hagrees : condition.Agrees properties)
    (hholds : condition.holds properties = false) (hrest : Exec properties rest b) :
    Exec properties (.abort condition :: rest) b
  | jump {condition label skipped rest b} (hagrees : condition.Agrees properties)
    (hholds : condition.holds properties = true) (hrest : Exec properties rest b) :
    Exec properties (.goto condition label :: (skipped ++ .label label :: rest)) b
  | stay {condition label rest b} (hagrees : condition.Agrees properties)
    (hholds : condition.holds properties = false) (hrest : Exec properties rest b) :
    Exec properties (.goto condition label :: rest) b
  | label {id rest b} (hrest : Exec properties rest b) :
    Exec properties (.label id :: rest) b

/-- The code aborts if `holds` is false, and goes on with what follows it otherwise. -/
def Implements (properties : DeviceProperties) (code : List Instruction) (holds : Bool) : Prop :=
  ∀ rest, (holds = false → Exec properties (code ++ rest) false) ∧
    (holds = true → ∀ b, Exec properties rest b → Exec properties (code ++ rest) b)

namespace Implements

variable {code code' : List Instruction} {holds holds' : Bool}

theorem nil : Implements properties [] true :=
  fun _ => ⟨nofun, fun _ _ hrest => hrest⟩

theorem append (h : Implements properties code holds)
    (h' : holds = true → Implements properties code' holds') :
    Implements properties (code ++ code') (holds && holds') := by
  intro rest
  rw [append_assoc]
  cases holds with
  | false => exact ⟨fun _ => (h _).1 rfl, nofun⟩
  | true =>
    obtain ⟨hfalse, htrue⟩ := h' rfl rest
    exact ⟨fun hf => (h _).2 rfl _ (hfalse hf), fun ht b hrest => (h _).2 rfl _ (htrue ht b hrest)⟩

/-- The instruction for a condition. -/
theorem abort {condition : Instruction.Condition} (hagrees : condition.Agrees properties)
    (hholds : condition.holds properties = !holds) :
    Implements properties [.abort condition] holds := by
  intro rest
  constructor
  · rintro rfl
    exact .abort hagrees hholds
  · rintro rfl b hrest
    exact .pass hagrees hholds hrest

/-- A label behind the code. -/
theorem label (h : Implements properties code holds) (id : ℕ) :
    Implements properties (code ++ [.label id]) holds := by
  intro rest
  rw [append_assoc]
  exact ⟨(h _).1, fun ht b hrest => (h _).2 ht b (.label hrest)⟩

/-- A block behind a jump over it to the code for when its condition fails. -/
theorem branch {jump : Instruction.Condition} {taken : Bool} {block tail : List Instruction}
    {blockHolds tailHolds : Bool} {finalLabel : ℕ} (label : ℕ)
    (hagrees : jump.Agrees properties) (hjump : jump.holds properties = !taken)
    (hblock : taken = true → Implements properties block blockHolds)
    (htail : taken = false →
      Implements properties (tail ++ [.label finalLabel]) tailHolds) :
    Implements properties
      (.goto jump label :: block ++ [.goto .always finalLabel, .label label] ++ tail ++
        [.label finalLabel])
      (if taken then blockHolds else tailHolds) := by
  intro rest
  cases taken with
  | true =>
    have hskip : ∀ b, Exec properties rest b → Exec properties
        (.goto .always finalLabel :: (.label label :: tail ++ .label finalLabel :: rest)) b :=
      fun b hrest => .jump trivial rfl hrest
    obtain ⟨hfalse, htrue⟩ := hblock rfl
      (.goto .always finalLabel :: (.label label :: tail ++ .label finalLabel :: rest))
    simp only [cons_append, append_assoc, nil_append] at hfalse htrue hskip ⊢
    exact ⟨fun hf => .stay hagrees hjump (hfalse hf),
      fun ht b hrest => .stay hagrees hjump (htrue ht b (hskip b hrest))⟩
  | false =>
    have hover : ∀ b, Exec properties (tail ++ [.label finalLabel] ++ rest) b → Exec properties
        (.goto jump label :: ((block ++ [.goto .always finalLabel]) ++ .label label ::
          (tail ++ [.label finalLabel] ++ rest))) b :=
      fun b hrest => .jump hagrees hjump hrest
    obtain ⟨hfalse, htrue⟩ := htail rfl rest
    simp only [cons_append, append_assoc, nil_append] at hfalse htrue hover ⊢
    exact ⟨fun hf => hover false (hfalse hf), fun ht b hrest => hover b (htrue ht b hrest)⟩

end Implements

end Smos.Bind
