import Smos.Bind.Meaning

/-!
The instructions for a block do what the block means, whatever follows them.
-/
namespace Smos.Bind

open Lib.Result List SymbolicInstruction
open Compiler

variable {table : SymbolTable} {properties : DeviceProperties} {P : Symbol → Prop}
  {lhs rhs : Symbol} {identifier : CompoundIdentifier} {condition : Condition}

structure Appends (properties : DeviceProperties) (P : Symbol → Prop) (c c' : Compiler)
    (code : List SymbolicInstruction) (agrees : Prop) (holds : Bool) (all : Prop) : Prop where
  instructions_eq : c'.instructions = c.instructions ++ code
  implements : agrees →
    Implements properties (code.map toInstruction) holds
  all_symbols : all → ∀ i ∈ code, i.toInstruction.All P

theorem valueEquals_eq {value : Value}
    (hlhs : lookupIdentifier table identifier = .ok lhs)
    (hrhs : lookupValue table value = .ok rhs) :
    valueEquals table properties identifier value = isEqual properties lhs rhs := by
  rw [valueEquals, hlhs, hrhs]

/-- The label that is handed out does not change the instructions. -/
theorem getUniqueLabel_instructions {c c' : Compiler} {label : ℕ}
    (h : c.getUniqueLabel = .ok (label, c')) : c'.instructions = c.instructions := by
  unfold getUniqueLabel at h
  split at h
  · cases h
    rfl
  · cases h

/-- The code of an `accept`: jumps over the abort behind them. -/
theorem compileValues_spec {lhs : Symbol} {label : ℕ}
    (hlhs : lookupIdentifier table identifier = .ok lhs) :
    ∀ (values : List Value) (c c' : Compiler), compileValues table lhs label values c = .ok c' →
      ∃ code, c'.instructions = c.instructions ++ code ∧
        (valuesAgree table properties identifier values →
          Implements properties (code.map toInstruction ++
            [.abort .always, .label label])
            (values.any (valueEquals table properties identifier))) ∧
        (P lhs → (∀ value ∈ values, valueAll table P value) →
          ∀ i ∈ code, i.toInstruction.All P) := by
  intro values
  induction values with
  | nil =>
    intro c c' h
    cases h
    refine ⟨[], (append_nil _).symm, fun _ rest => ?_, nofun⟩
    exact ⟨fun _ => .abort trivial rfl, nofun⟩
  | cons value values ih =>
    intro c c' h
    obtain ⟨rhs, hrhs, hvalues⟩ := bind_eq_ok.mp h
    obtain ⟨code, hcode, himpl, hall⟩ := ih _ _ hvalues
    refine ⟨.jumpIfEqual lhs rhs label :: code, ?_, ?_, ?_⟩
    · rw [hcode]
      simp [push]
    · rintro ⟨hagree, hrest⟩ rest
      have hagrees : (Instruction.Condition.equal lhs rhs).Agrees properties :=
        hagree lhs rhs hlhs hrhs
      rw [any_cons, valueEquals_eq hlhs hrhs]
      rw [valueEquals_eq hlhs hrhs] at hrest
      cases heq : isEqual properties lhs rhs with
      | true =>
        have hjump : ∀ b, Exec properties rest b → Exec properties
            (.goto (.equal lhs rhs) label :: ((code.map toInstruction ++
              [.abort .always]) ++ .label label :: rest)) b :=
          fun b hb => .jump hagrees heq hb
        simp only [append_assoc, cons_append, nil_append] at hjump
        simp only [map_cons, cons_append, append_assoc, nil_append,
          Bool.true_or]
        exact ⟨nofun, fun _ b hb => hjump b hb⟩
      | false =>
        obtain ⟨hfalse, htrue⟩ := himpl (hrest heq) rest
        exact ⟨fun hf => .stay hagrees heq (hfalse hf),
          fun ht b hb => .stay hagrees heq (htrue ht b hb)⟩
    · intro hlhsP hvaluesP i hi
      rcases mem_cons.mp hi with rfl | hi
      · exact ⟨hlhsP, hvaluesP value (mem_cons_self ..) rhs hrhs⟩
      · exact hall hlhsP (forall_mem_cons.mp hvaluesP).2 i hi

/-- The condition of an instruction, from the condition of a statement. -/
theorem conditionHolds_eq (hlhs : lookupIdentifier table condition.lhs = .ok lhs)
    (hrhs : lookupValue table condition.rhs = .ok rhs) :
    conditionHolds table properties condition =
      match condition.op with
      | .equals => isEqual properties lhs rhs
      | .notEquals => !isEqual properties lhs rhs := by
  cases hop : condition.op with
  | equals | notEquals => simp only [conditionHolds, hop, valueEquals_eq hlhs hrhs]

/-- One more statement of a block. -/
theorem Appends.cons {c c₁ c' : Compiler} {code code' : List SymbolicInstruction}
    {agrees agrees' all all' : Prop} {holds holds' : Bool}
    (h : Appends properties P c c₁ code agrees holds all)
    (h' : Appends properties P c₁ c' code' agrees' holds' all') :
    Appends properties P c c' (code ++ code') (agrees ∧ (holds = true → agrees'))
      (holds && holds') (all ∧ all') where
  instructions_eq := by
    rw [h'.instructions_eq, h.instructions_eq, append_assoc]
  implements := by
    rintro ⟨hagrees, hrest⟩
    rw [map_append]
    exact (h.implements hagrees).append fun hholds => h'.implements (hrest hholds)
  all_symbols := by
    rintro ⟨hall, hall'⟩ i hi
    rcases mem_append.mp hi with hi | hi
    · exact h.all_symbols hall i hi
    · exact h'.all_symbols hall' i hi

theorem compileCondition_spec {c : Compiler} (hlhs : lookupIdentifier table condition.lhs = .ok lhs)
    (hrhs : lookupValue table condition.rhs = .ok rhs) :
    ∃ code, Appends properties P c
      (c.push (match condition.op with
        | .equals => .abortIfNotEqual lhs rhs
        | .notEquals => .abortIfEqual lhs rhs)) code
      (statementAgrees table properties (.conditionStatement condition))
      (statementHolds table properties (.conditionStatement condition))
      (statementAll table P (.conditionStatement condition)) := by
  refine ⟨[_], rfl, fun hagrees => ?_, fun hall i hi => ?_⟩
  · have hvalues := hagrees lhs rhs hlhs hrhs
    rw [statementHolds, conditionHolds_eq hlhs hrhs]
    cases condition.op with
    | equals => exact Implements.abort hvalues rfl
    | notEquals => exact Implements.abort hvalues (Bool.not_not _).symm
  · have hsymbols : P lhs ∧ P rhs := ⟨hall.1 lhs hlhs, hall.2 rhs hrhs⟩
    rw [mem_singleton.mp hi]
    cases condition.op with
    | equals => exact hsymbols
    | notEquals => exact hsymbols

theorem compileAccept_spec {values : List Value} {num : ℕ} {last : Bool} {c c' : Compiler}
    (h : compileStatement table num last (.accept identifier values) c = .ok c') :
    ∃ code, Appends properties P c c' code
      (statementAgrees table properties (.accept identifier values))
      (statementHolds table properties (.accept identifier values))
      (statementAll table P (.accept identifier values)) := by
  obtain ⟨lhs, hlhs, h⟩ := bind_eq_ok.mp h
  obtain ⟨⟨label, c₁⟩, hlabel, h⟩ := bind_eq_ok.mp h
  obtain ⟨c₂, hvalues, h⟩ := bind_eq_ok.mp h
  obtain ⟨code, hcode, himpl, hall⟩ := compileValues_spec hlhs values c₁ c₂ hvalues
  cases pure_eq_ok.mp h
  refine ⟨code ++ [.unconditionalAbort, .label label], ?_, fun hagrees => ?_, ?_⟩
  · simp only [push, hcode, getUniqueLabel_instructions hlabel, append_assoc,
      cons_append, nil_append]
  · rw [map_append]
    exact himpl hagrees
  · rintro ⟨hidentifier, hvaluesAll⟩ i hi
    rcases mem_append.mp hi with hi | hi
    · exact hall (hidentifier lhs hlhs) hvaluesAll i hi
    · simp only [mem_cons, not_mem_nil, or_false] at hi
      rcases hi with rfl | rfl
      · trivial
      · trivial

/-- The code of the blocks of an `if`, in front of the code of its last block. -/
structure AppendsBlocks (properties : DeviceProperties) (P : Symbol → Prop) (table : SymbolTable)
    (c c' : Compiler) (code : List SymbolicInstruction) (finalLabel : ℕ)
    (blocks : List (Condition × List Statement)) : Prop where
  instructions_eq : c'.instructions = c.instructions ++ code
  implements : ∀ (elseCode : List Instruction) (elseHolds : Bool) (elseAgrees : Prop),
    (elseAgrees → Implements properties (elseCode ++ [.label finalLabel]) elseHolds) →
    blocksAgree table properties elseAgrees blocks →
      Implements properties (code.map toInstruction ++ elseCode ++
        [.label finalLabel]) (blocksHold table properties elseHolds blocks)
  all_symbols : blocksAll table P blocks → ∀ i ∈ code, i.toInstruction.All P

/-- One more block in front of the others. -/
theorem AppendsBlocks.cons {c c₁ c₂ c' : Compiler} {label finalLabel : ℕ}
    {block : List Statement} {blocks : List (Condition × List Statement)}
    {blockCode code : List SymbolicInstruction}
    (hlhs : lookupIdentifier table condition.lhs = .ok lhs)
    (hrhs : lookupValue table condition.rhs = .ok rhs)
    (hlabel : c.getUniqueLabel = .ok (label, c₁))
    (hblock : Appends properties P
      (c₁.push (match condition.op with
        | .equals => .jumpIfNotEqual lhs rhs label
        | .notEquals => .jumpIfEqual lhs rhs label)) c₂ blockCode
      (blockAgrees table properties block) (blockHolds table properties block)
      (blockAll table P block))
    (hrest : AppendsBlocks properties P table
      ((c₂.push (.unconditionalJump finalLabel)).push (.label label)) c' code finalLabel blocks) :
    AppendsBlocks properties P table c c'
      ((match condition.op with
        | .equals => .jumpIfNotEqual lhs rhs label
        | .notEquals => .jumpIfEqual lhs rhs label) :: blockCode ++
          [.unconditionalJump finalLabel, .label label] ++ code)
      finalLabel ((condition, block) :: blocks) where
  instructions_eq := by
    rw [hrest.instructions_eq]
    simp only [push, hblock.instructions_eq, getUniqueLabel_instructions hlabel,
      append_assoc, cons_append, nil_append]
  implements := by
    intro elseCode elseHolds elseAgrees helse hagrees
    obtain ⟨hvalues, hagrees⟩ := hagrees
    have hcondition : conditionHolds table properties condition = _ := conditionHolds_eq hlhs hrhs
    have htail : conditionHolds table properties condition = false →
        Implements properties ((code.map toInstruction ++ elseCode) ++
          [.label finalLabel]) (blocksHold table properties elseHolds blocks) := by
      intro hfails
      rw [hfails] at hagrees
      exact hrest.implements elseCode elseHolds elseAgrees helse hagrees
    have hbody : conditionHolds table properties condition = true →
        Implements properties (blockCode.map toInstruction)
          (blockHolds table properties block) := by
      intro htakes
      rw [htakes] at hagrees
      exact hblock.implements hagrees
    rw [blocksHold]
    simp only [map_append, map_cons, map_nil, append_assoc]
    cases hop : condition.op with
    | equals =>
      rw [hop] at hcondition
      have hagree : (Instruction.Condition.notEqual lhs rhs).Agrees properties :=
        hvalues lhs rhs hlhs hrhs
      have hbranch := Implements.branch label hagree (by rw [hcondition]; rfl) hbody htail
      simpa only [toInstruction, append_assoc, cons_append]
        using hbranch
    | notEquals =>
      rw [hop] at hcondition
      have hagree : (Instruction.Condition.equal lhs rhs).Agrees properties :=
        hvalues lhs rhs hlhs hrhs
      have hbranch := Implements.branch label hagree (by rw [hcondition, Bool.not_not]; rfl)
        hbody htail
      simpa only [toInstruction, append_assoc, cons_append]
        using hbranch
  all_symbols := by
    rintro ⟨hcondition, hblockAll, hblocksAll⟩ i hi
    have hsymbols : P lhs ∧ P rhs := ⟨hcondition.1 lhs hlhs, hcondition.2 rhs hrhs⟩
    simp only [cons_append, append_assoc, mem_cons, mem_append,
      nil_append] at hi
    rcases hi with rfl | hi | rfl | rfl | hi
    · cases condition.op with
      | equals => exact hsymbols
      | notEquals => exact hsymbols
    · exact hblock.all_symbols hblockAll i hi
    · trivial
    · trivial
    · exact hrest.all_symbols hblocksAll i hi

mutual

theorem compileLoop_spec (num : ℕ) : ∀ (statements : List Statement) (c c' : Compiler),
    compileLoop table num statements c = .ok c' →
      ∃ code, Appends properties P c c' code (blockAgrees table properties statements)
        (blockHolds table properties statements) (blockAll table P statements)
  | [], c, c', h => by
    rw [compileLoop] at h
    cases h
    refine ⟨[], (append_nil _).symm, fun _ => ?_, nofun⟩
    rw [blockHolds]
    exact Implements.nil
  | statement :: rest, c, c', h => by
    rw [compileLoop] at h
    obtain ⟨c₁, hstatement, hrest⟩ := bind_eq_ok.mp h
    obtain ⟨code, hcode⟩ := compileStatement_spec num rest.isEmpty statement c c₁ hstatement
    obtain ⟨code', hcode'⟩ := compileLoop_spec num rest c₁ c' hrest
    rw [blockAgrees, blockHolds, blockAll]
    exact ⟨code ++ code', hcode.cons hcode'⟩

theorem compileStatement_spec (num : ℕ) (last : Bool) :
    ∀ (statement : Statement) (c c' : Compiler),
      compileStatement table num last statement c = .ok c' →
        ∃ code, Appends properties P c c' code (statementAgrees table properties statement)
          (statementHolds table properties statement) (statementAll table P statement)
  | .conditionStatement condition, c, c', h => by
    rw [compileStatement] at h
    obtain ⟨lhs, hlhs, h⟩ := bind_eq_ok.mp h
    obtain ⟨rhs, hrhs, h⟩ := bind_eq_ok.mp h
    cases pure_eq_ok.mp h
    exact compileCondition_spec hlhs hrhs
  | .accept identifier values, c, c', h => compileAccept_spec h
  | .ifElse blocks elseBlock, c, c', h => by
    rw [compileStatement] at h
    split at h
    · cases h
    obtain ⟨⟨finalLabel, c₁⟩, hlabel, h⟩ := bind_eq_ok.mp h
    obtain ⟨c₂, hblocks, h⟩ := bind_eq_ok.mp h
    obtain ⟨c₃, helse, h⟩ := bind_eq_ok.mp h
    cases pure_eq_ok.mp h
    obtain ⟨code, hcode⟩ := compileBlocks_spec finalLabel blocks c₁ c₂ hblocks
    obtain ⟨elseCode, helseCode⟩ := compileLoop_spec elseBlock.length elseBlock c₂ c₃ helse
    rw [statementAgrees, statementHolds, statementAll]
    refine ⟨code ++ elseCode ++ [.label finalLabel], ?_, fun hagrees => ?_, ?_⟩
    · simp only [push, helseCode.instructions_eq, hcode.instructions_eq,
        getUniqueLabel_instructions hlabel, append_assoc]
    · rw [map_append, map_append]
      exact hcode.implements _ _ _ (fun h => (helseCode.implements h).label finalLabel) hagrees
    · rintro ⟨hblocksAll, helseAll⟩ i hi
      rcases mem_append.mp hi with hi | hi
      · rcases mem_append.mp hi with hi | hi
        · exact hcode.all_symbols hblocksAll i hi
        · exact helseCode.all_symbols helseAll i hi
      · rw [mem_singleton.mp hi]
        trivial
  | .falseStatement, c, c', h => by
    rw [compileStatement] at h
    split at h
    · cases h
    · cases h
      rw [statementHolds]
      refine ⟨[.unconditionalAbort], rfl, fun _ => Implements.abort trivial rfl, ?_⟩
      intro _ i hi
      rw [mem_singleton.mp hi]
      trivial
  | .trueStatement, c, c', h => by
    rw [compileStatement] at h
    split at h
    · cases h
    · cases h
      rw [statementHolds]
      exact ⟨[], (append_nil _).symm, fun _ => Implements.nil, nofun⟩

theorem compileBlocks_spec (finalLabel : ℕ) :
    ∀ (blocks : List (Condition × List Statement)) (c c' : Compiler),
      compileBlocks table finalLabel blocks c = .ok c' →
        ∃ code, AppendsBlocks properties P table c c' code finalLabel blocks
  | [], c, c', h => by
    rw [compileBlocks] at h
    cases h
    refine ⟨[], (append_nil _).symm, fun elseCode elseHolds elseAgrees helse hagrees => ?_,
      nofun⟩
    rw [blocksHold]
    rw [blocksAgree] at hagrees
    exact helse hagrees
  | (condition, block) :: rest, c, c', h => by
    rw [compileBlocks] at h
    obtain ⟨lhs, hlhs, h⟩ := bind_eq_ok.mp h
    obtain ⟨rhs, hrhs, h⟩ := bind_eq_ok.mp h
    obtain ⟨⟨label, c₁⟩, hlabel, h⟩ := bind_eq_ok.mp h
    obtain ⟨c₂, hblock, h⟩ := bind_eq_ok.mp h
    obtain ⟨blockCode, hblockCode⟩ := compileLoop_spec block.length block _ c₂ hblock
    obtain ⟨code, hcode⟩ := compileBlocks_spec finalLabel rest _ c' h
    exact ⟨_, AppendsBlocks.cons hlhs hrhs hlabel hblockCode hcode⟩

end

/-- The instructions for a list of statements match a device if the statements hold for it. -/
theorem compileStatements_spec {statements : List Statement}
    {instructions : List SymbolicInstruction}
    (h : compileStatements statements table true = .ok instructions) :
    (blockAgrees table properties statements →
      Exec properties (instructions.map toInstruction)
        (blockHolds table properties statements)) ∧
    (blockAll table P statements → ∀ i ∈ instructions, i.toInstruction.All P) := by
  obtain ⟨c, hc, hresult⟩ := bind_eq_ok.mp h
  cases pure_eq_ok.mp hresult
  obtain ⟨code, hcode⟩ : ∃ code, Appends properties P new c code
      (blockAgrees table properties statements) (blockHolds table properties statements)
      (blockAll table P statements) := compileLoop_spec _ statements new c hc
  have heq : c.instructions = code := by
    rw [hcode.instructions_eq]
    rfl
  rw [if_pos rfl, heq]
  refine ⟨fun hagrees => ?_, hcode.all_symbols⟩
  obtain ⟨hfalse, htrue⟩ := hcode.implements hagrees []
  rw [append_nil] at hfalse htrue
  cases hholds : blockHolds table properties statements with
  | false => exact hfalse hholds
  | true => exact htrue hholds true .done

end Smos.Bind
