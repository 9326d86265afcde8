import Mathlib.Data.List.Basic

/-!
Bind rules and their compilation to symbolic instructions (`bind/src/compiler/compiler.rs`).

A statement fails or holds for a device.  The compiler turns a list of statements into
instructions that abort as soon as a statement fails; an `accept` and an `if` become jumps to labels
further on.  Source spans and the locations kept for the debugger are left out.
-/
namespace Smos.Bind

structure CompoundIdentifier where
  «namespace» : List String
  name : String
  deriving DecidableEq, Repr

inductive ValueType where
  | number | str | bool | enum
  deriving DecidableEq, Repr

inductive Symbol where
  | deprecatedKey (key : UInt32)
  | key (key : String) (valueType : ValueType)
  | numberValue (value : UInt64)
  | stringValue (value : String)
  | boolValue (value : Bool)
  | enumValue (value : String)
  deriving DecidableEq, Repr

inductive Value where
  | numericLiteral (n : UInt64)
  | stringLiteral (s : String)
  | boolLiteral (b : Bool)
  | identifier (ident : CompoundIdentifier)
  deriving DecidableEq, Repr

inductive ConditionOp where
  | equals | notEquals
  deriving DecidableEq, Repr

structure Condition where
  lhs : CompoundIdentifier
  op : ConditionOp
  rhs : Value
  deriving DecidableEq, Repr

inductive Statement where
  | conditionStatement (condition : Condition)
  | accept (identifier : CompoundIdentifier) (values : List Value)
  | ifElse (blocks : List (Condition × List Statement)) (elseBlock : List Statement)
  | falseStatement
  | trueStatement

abbrev SymbolTable := CompoundIdentifier → Option Symbol

inductive SymbolicInstruction where
  | abortIfEqual (lhs rhs : Symbol)
  | abortIfNotEqual (lhs rhs : Symbol)
  | label (id : ℕ)
  | unconditionalJump (label : ℕ)
  | jumpIfEqual (lhs rhs : Symbol) (label : ℕ)
  | jumpIfNotEqual (lhs rhs : Symbol) (label : ℕ)
  | unconditionalAbort
  | unconditionalBind
  deriving DecidableEq, Repr

namespace Instruction

inductive Condition where
  | always
  | equal (lhs rhs : Symbol)
  | notEqual (lhs rhs : Symbol)
  deriving DecidableEq, Repr

end Instruction

inductive Instruction where
  | abort (condition : Instruction.Condition)
  | bind (condition : Instruction.Condition)
  | goto (condition : Instruction.Condition) (label : ℕ)
  | label (id : ℕ)
  deriving DecidableEq, Repr

/-- The instruction to encode; `bind` is `Instruction::Match`. -/
def SymbolicInstruction.toInstruction : SymbolicInstruction → Instruction
  | .abortIfEqual lhs rhs => .abort (.equal lhs rhs)
  | .abortIfNotEqual lhs rhs => .abort (.notEqual lhs rhs)
  | .label id => .label id
  | .unconditionalJump target => .goto .always target
  | .jumpIfEqual lhs rhs target => .goto (.equal lhs rhs) target
  | .jumpIfNotEqual lhs rhs target => .goto (.notEqual lhs rhs) target
  | .unconditionalAbort => .abort .always
  | .unconditionalBind => .bind .always

inductive CompilerError where
  | unknownKey (identifier : CompoundIdentifier)
  | ifStatementMustBeTerminal
  | trueStatementMustBeIsolated
  | falseStatementMustBeIsolated
  /-- The panic when the label ids overflow. -/
  | labelOverflow
  deriving DecidableEq, Repr

structure Compiler where
  instructions : List SymbolicInstruction
  nextLabelId : ℕ

namespace Compiler

def new : Compiler := ⟨[], 0⟩

def push (c : Compiler) (instruction : SymbolicInstruction) : Compiler :=
  { c with instructions := c.instructions ++ [instruction] }

def lookupIdentifier (table : SymbolTable) (identifier : CompoundIdentifier) :
    Except CompilerError Symbol :=
  match table identifier with
  | some symbol => .ok symbol
  | none => .error (.unknownKey identifier)

def lookupValue (table : SymbolTable) : Value → Except CompilerError Symbol
  | .numericLiteral n => .ok (.numberValue n)
  | .stringLiteral s => .ok (.stringValue s)
  | .boolLiteral b => .ok (.boolValue b)
  | .identifier ident => lookupIdentifier table ident

def getUniqueLabel (c : Compiler) : Except CompilerError (ℕ × Compiler) :=
  if c.nextLabelId + 1 < 4294967296 then
    .ok (c.nextLabelId, { c with nextLabelId := c.nextLabelId + 1 })
  else .error .labelOverflow

def compileValues (table : SymbolTable) (lhs : Symbol) (label : ℕ) :
    List Value → Compiler → Except CompilerError Compiler
  | [], c => .ok c
  | value :: rest, c => do
    let rhs ← lookupValue table value
    compileValues table lhs label rest (c.push (.jumpIfEqual lhs rhs label))

mutual

/-- The loop of `compile_block` over the rest of a block of `numStatements` statements. -/
def compileLoop (table : SymbolTable) (numStatements : ℕ) :
    List Statement → Compiler → Except CompilerError Compiler
  | [], c => .ok c
  | statement :: rest, c => do
    let c ← compileStatement table numStatements rest.isEmpty statement c
    compileLoop table numStatements rest c

def compileStatement (table : SymbolTable) (numStatements : ℕ) (last : Bool) :
    Statement → Compiler → Except CompilerError Compiler
  | .conditionStatement condition, c => do
    let lhs ← lookupIdentifier table condition.lhs
    let rhs ← lookupValue table condition.rhs
    return c.push (match condition.op with
      | .equals => .abortIfNotEqual lhs rhs
      | .notEquals => .abortIfEqual lhs rhs)
  | .accept identifier values, c => do
    let lhs ← lookupIdentifier table identifier
    let (label, c) ← c.getUniqueLabel
    let c ← compileValues table lhs label values c
    return (c.push .unconditionalAbort).push (.label label)
  | .ifElse blocks elseBlock, c => do
    if !last then throw .ifStatementMustBeTerminal
    let (finalLabel, c) ← c.getUniqueLabel
    let c ← compileBlocks table finalLabel blocks c
    let c ← compileLoop table elseBlock.length elseBlock c
    return c.push (.label finalLabel)
  | .falseStatement, c =>
    if numStatements ≠ 1 then .error .falseStatementMustBeIsolated
    else .ok (c.push .unconditionalAbort)
  | .trueStatement, c =>
    if numStatements ≠ 1 then .error .trueStatementMustBeIsolated else .ok c

/-- The blocks of an `if`, each behind a jump over it. -/
def compileBlocks (table : SymbolTable) (finalLabel : ℕ) :
    List (Condition × List Statement) → Compiler → Except CompilerError Compiler
  | [], c => .ok c
  | (condition, block) :: rest, c => do
    let lhs ← lookupIdentifier table condition.lhs
    let rhs ← lookupValue table condition.rhs
    let (label, c) ← c.getUniqueLabel
    let c := c.push (match condition.op with
      | .equals => .jumpIfNotEqual lhs rhs label
      | .notEquals => .jumpIfEqual lhs rhs label)
    let c ← compileLoop table block.length block c
    let c := (c.push (.unconditionalJump finalLabel)).push (.label label)
    compileBlocks table finalLabel rest c

end

def compileBlock (table : SymbolTable) (statements : List Statement) (c : Compiler) :
    Except CompilerError Compiler :=
  compileLoop table statements.length statements c

end Compiler

def compileStatements (statements : List Statement) (table : SymbolTable)
    (useNewBytecode : Bool) : Except CompilerError (List SymbolicInstruction) := do
  let c ← Compiler.compileBlock table statements Compiler.new
  return (if useNewBytecode then c else c.push .unconditionalBind).instructions

end Smos.Bind
