import Smos.Bind.CompilerCorrect
import Smos.Bind.EncoderCorrect

/-!
Matching a device with the bytecode gives the meaning of the rules.

The symbol table reads back, every symbol of an instruction reads back, and the interpreter does on
the bytes of a list of instructions what the instructions do.
-/
namespace Smos.Bind

open Lib.Bytes Lib.Result DeviceMatcher List Instruction.Condition
open InstructionEncoder SymbolTableEncoder

section Reading

theorem nextU32_leBytes {n : ℕ} (h : n < 4294967296) (rest : List UInt8) :
    nextU32 (leBytes 4 n ++ rest) = .ok (n, rest) := by
  have hvalue : ofLE (leBytes 4 n) = n := ofLE_leBytes_of_lt h
  simp only [leBytes] at hvalue
  simp only [leBytes, cons_append, nil_append, nextU32, hvalue]

theorem readStringBytes_append {bytes rest : List UInt8} (hzero : (0 : UInt8) ∉ bytes) :
    ∀ front : List UInt8, front.length + bytes.length ≤ maxStringLength →
      readStringBytes front (bytes ++ 0 :: rest) = .ok (front ++ bytes, rest) := by
  induction bytes with
  | nil =>
    intro front _
    rw [nil_append, readStringBytes, if_pos rfl, append_nil]
  | cons byte bytes ih =>
    intro front hlen
    rw [mem_cons, not_or] at hzero
    rw [length_cons] at hlen
    rw [cons_append, readStringBytes, if_neg (Ne.symm hzero.1),
      if_neg (by rw [length_append, length_singleton]; omega),
      ih hzero.2 _ (by rw [length_append, length_singleton]; omega), append_assoc,
      singleton_append]

theorem fromUTF8?_utf8Bytes (s : String) : String.fromUTF8? ⟨(utf8Bytes s).toArray⟩ = some s := by
  have harray : (⟨(utf8Bytes s).toArray⟩ : ByteArray) = s.toByteArray := by
    rw [utf8Bytes]
  rw [harray, String.fromUTF8?, dif_pos s.isValidUTF8]
  rfl

theorem utf8Bytes_ne_nil {s : String} (h : s ≠ "") : utf8Bytes s ≠ [] := by
  intro hnil
  apply h
  apply String.toByteArray_inj.mp
  apply ByteArray.ext
  simpa [utf8Bytes] using hnil

/-- A string reads back. -/
theorem readString_append {s : String} (hs : Encodable s)
    (hlen : (utf8Bytes s).length ≤ maxStringLength) (rest : List UInt8) :
    readString (utf8Bytes s ++ 0 :: rest) = .ok (s, rest) := by
  have hbytes : readStringBytes [] (utf8Bytes s ++ 0 :: rest) = .ok (utf8Bytes s, rest) := by
    rw [readStringBytes_append hs.2 [] (by rw [length_nil]; omega), nil_append]
  have hne : (utf8Bytes s).isEmpty = false := by
    rw [isEmpty_eq_false_iff]
    exact utf8Bytes_ne_nil hs.1
  unfold readString
  rw [hbytes]
  change (if (utf8Bytes s).isEmpty = true then _ else _) = _
  rw [hne, fromUTF8?_utf8Bytes]
  rfl

/-- The symbol table reads back. -/
theorem readSymbols_entries : ∀ (strings : List String) (key fuel : ℕ) (m : SymbolMap),
    strings.length < fuel → key + strings.length ≤ 4294967296 →
    (∀ s ∈ strings, Encodable s ∧ (utf8Bytes s).length ≤ maxStringLength) →
    ∃ m', readSymbols fuel key m (entries key strings) = some (.ok m') ∧
      (∀ k, k < key → m' k = m k) ∧
      ∀ i s, strings[i]? = some s → m' (key + i) = some s := by
  intro strings
  induction strings with
  | nil =>
    intro key fuel m hfuel _ _
    obtain ⟨fuel, rfl⟩ := Nat.exists_eq_add_of_lt hfuel
    exact ⟨m, rfl, fun _ _ => rfl, fun i s hs => (by simp at hs)⟩
  | cons s strings ih =>
    intro key fuel m hfuel hkeys hencodable
    rw [length_cons] at hfuel hkeys
    obtain ⟨fuel, rfl⟩ : ∃ n, fuel = n + 1 := ⟨fuel - 1, by omega⟩
    obtain ⟨hs, hlen⟩ := hencodable s (mem_cons_self ..)
    obtain ⟨m', hread, hbefore, hafter⟩ := ih (key + 1) fuel (m.insert key s) (by omega) (by omega)
      (forall_mem_cons.mp hencodable).2
    refine ⟨m', ?_, ?_, ?_⟩
    · have hnext : tryNextU32 (entries key (s :: strings)) =
          .ok (some (key, utf8Bytes s ++ 0 :: entries (key + 1) strings)) := by
        rw [entries, entryBytes]
        simp only [append_assoc, singleton_append]
        change (nextU32 (leBytes 4 key ++ (utf8Bytes s ++ 0 :: entries (key + 1) strings))).map
          some = _
        rw [nextU32_leBytes (by omega)]
        rfl
      rw [readSymbols, hnext]
      simp only [ne_eq, not_true_eq_false, if_false]
      rw [readString_append hs hlen]
      exact hread
    · intro k hk
      rw [hbefore k (by omega), SymbolMap.insert, if_neg (by omega)]
    · intro i r hr
      cases i with
      | zero =>
        rw [getElem?_cons_zero, Option.some.injEq] at hr
        subst hr
        rw [Nat.add_zero, hbefore key (Nat.lt_succ_self _), SymbolMap.insert, if_pos rfl]
      | succ i =>
        have hnext := hafter i r hr
        rwa [Nat.add_right_comm] at hnext

theorem length_le_length_entries (key : ℕ) (strings : List String) :
    strings.length ≤ (entries key strings).length := by
  induction strings generalizing key with
  | nil => exact Nat.zero_le _
  | cons s strings ih =>
    have hrest := ih (key + 1)
    simp only [entries, entryBytes, length_append, length_cons, length_leBytes]
    omega

/-- The symbol table that is read has every string under its key. -/
theorem readSymbolTable_holds {t : SymbolTableEncoder} {strings : List String}
    (h : t.Holds strings) :
    ∃ m, readSymbolTable t.bytecode = some (.ok m) ∧
      ∀ s key, t.encodedSymbols.lookup s = some key → m key = some s := by
  have huniq := h.uniqueKey_eq
  have hlt := h.uniqueKey_lt
  have hlen := length_le_length_entries symbTblStartKey strings
  rw [h.bytecode_eq]
  obtain ⟨m, hread, -, hm⟩ := readSymbols_entries strings symbTblStartKey
    ((entries symbTblStartKey strings).length + 1) (fun _ => none) (by omega) (by omega) h.encodable
  refine ⟨m, hread, fun s key hkey => ?_⟩
  obtain ⟨hle, hget, -⟩ := h.getElem?_keyOf hkey
  have hvalue := hm _ s hget
  rwa [Nat.add_sub_cancel' hle] at hvalue

end Reading

section Matching

variable {m : DeviceMatcher} {t : SymbolTableEncoder} {lhs rhs symbol : Symbol}

def Reads (m : DeviceMatcher) (t : SymbolTableEncoder) : Prop :=
  ∀ s key, t.encodedSymbols.lookup s = some key → m.symbolTable key = some s ∧ key < 4294967296

def Symbol.readBack : Symbol → Symbol
  | .key s _ => .key s .str
  | .deprecatedKey number => .numberValue number.toUInt64
  | symbol => symbol

/-- The value that a string's key is read as. -/
theorem lookupSymbolTable_keyOf (hm : Reads m t) {s : String} {key : ℕ}
    (hkey : t.encodedSymbols.lookup s = some key) :
    m.lookupSymbolTable (t.keyOf s) = .ok s ∧ t.keyOf s < 4294967296 := by
  obtain ⟨hlookup, hlt⟩ := hm s key hkey
  rw [keyOf, hkey, Option.getD_some, lookupSymbolTable, hlookup]
  exact ⟨rfl, hlt⟩

theorem RawValueType.fromU8_toU8 (rawType : RawValueType) :
    RawValueType.fromU8 rawType.toU8 = some rawType := by
  cases rawType <;> rfl

theorem RawOp.fromU8_toU8 (op : RawOp) : RawOp.fromU8 op.toU8 = some op := by
  cases op <;> rfl

theorem readNextValue_eq {rawType : RawValueType} {value : ℕ} {result : Symbol}
    (hvalue : value < 4294967296) (hdecode : m.decodeValue value rawType = .ok result)
    (rest : List UInt8) :
    m.readNextValue (rawType.toU8 :: leBytes 4 value ++ rest) = .ok (result, rest) := by
  rw [cons_append, readNextValue, nextU8]
  simp only [bind, Except.bind, RawValueType.fromU8_toU8]
  rw [nextU32_leBytes hvalue]
  simp only [hdecode]
  rfl

/-- A symbol reads back. -/
theorem readNextValue_rawBytes (hm : Reads m t) (hkeyed : t.Keyed symbol)
    (hsymbol : symbol.Encodable) (rest : List UInt8) :
    m.readNextValue (symbol.rawBytes t.keyOf ++ rest) = .ok (symbol.readBack, rest) := by
  cases symbol with
  | numberValue value =>
    have hnat : value.toUInt32.toNat = value.toNat := by
      exact Nat.mod_eq_of_lt hsymbol
    apply readNextValue_eq
    · rw [hnat]
      exact hsymbol
    · rw [decodeValue, hnat, UInt64.ofNat_toNat]
      rfl
  | deprecatedKey key =>
    apply readNextValue_eq
    · exact key.toNat_lt
    · have hkey : UInt64.ofNat key.toNat = key.toUInt64 := by
        apply UInt64.toNat_inj.mp
        exact Nat.mod_eq_of_lt (key.toNat_lt.trans (by decide))
      rw [decodeValue, hkey, Symbol.readBack]
  | boolValue value =>
    cases value with
    | false | true => exact readNextValue_eq (by decide) rfl rest
  | stringValue s | enumValue s | key s _ =>
    obtain ⟨key, hkey⟩ := hkeyed s rfl
    obtain ⟨hlookup, hlt⟩ := lookupSymbolTable_keyOf hm hkey
    apply readNextValue_eq hlt
    rw [decodeValue, hlookup]
    rfl

/-- The property under the key that is read is the property of the key that was written. -/
theorem nodePropertyValue_readBack (hlhs : isSymbolKey lhs = true) :
    ∃ key, propertyKey lhs.readBack = .ok key ∧
      m.nodePropertyValue key = propertyOf m.properties lhs := by
  cases lhs with
  | numberValue _ | stringValue _ | boolValue _ | enumValue _ => cases hlhs
  | key s valueType =>
    refine ⟨.stringKey s, rfl, ?_⟩
    rw [nodePropertyValue, propertyOf]
    cases m.properties (.stringKey s) with
    | none => rfl
    | some value => rfl
  | deprecatedKey key =>
    refine ⟨.numberKey key.toUInt64, rfl, ?_⟩
    rw [nodePropertyValue, propertyOf]
    cases m.properties (.numberKey key.toUInt64) with
    | some value => rfl
    | none =>
      simp only [UInt32.toUInt32_toUInt64]
      cases getDeprecatedKeyIdentifier key with
      | none => rfl
      | some name => rfl

/-- A literal reads back as itself. -/
theorem readBack_of_valueType (hrhs : (valueType rhs).isSome) : rhs.readBack = rhs := by
  cases rhs with
  | numberValue _ | stringValue _ | boolValue _ | enumValue _ => rfl
  | key _ _ | deprecatedKey _ => cases hrhs

theorem discriminant_eq_of_kind {value : Symbol} (hrhs : (valueType rhs).isSome)
    (hkind : value.kind = rhs.kind) :
    rhs.forCompare.discriminant = value.forCompare.discriminant := by
  cases rhs with
  | key _ _ | deprecatedKey _ => cases hrhs
  | numberValue _ | stringValue _ | boolValue _ | enumValue _ =>
    cases value <;> first | rfl | cases hkind

def Comparison.holds (properties : DeviceProperties) (lhs rhs : Symbol) : Comparison → Bool
  | .equal => isEqual properties lhs rhs
  | .inequal => !isEqual properties lhs rhs

theorem readAndEvaluateValues_eq (hm : Reads m t) (comparison : Comparison)
    (hkeyed : t.Keyed lhs ∧ t.Keyed rhs) (hencodable : lhs.Encodable ∧ rhs.Encodable)
    (hchecked : isSymbolKey lhs = true ∧ (valueType rhs).isSome)
    (hagrees : Agrees m.properties lhs rhs) (rest : List UInt8) :
    m.readAndEvaluateValues comparison
        (lhs.rawBytes t.keyOf ++ rhs.rawBytes t.keyOf ++ rest) =
      .ok (comparison.holds m.properties lhs rhs, rest) := by
  obtain ⟨key, hkey, hproperty⟩ := nodePropertyValue_readBack (m := m) hchecked.1
  unfold readAndEvaluateValues
  rw [append_assoc, readNextValue_rawBytes hm hkeyed.1 hencodable.1]
  change (propertyKey lhs.readBack >>= _) = _
  rw [hkey]
  rw [readNextValue_rawBytes hm hkeyed.2 hencodable.2, readBack_of_valueType hchecked.2]
  simp only [bind, Except.bind, hproperty]
  cases hvalue : propertyOf m.properties lhs with
  | none => cases comparison <;> simp [Comparison.holds, isEqual, hvalue, pure, Except.pure]
  | some value =>
    have hsame := discriminant_eq_of_kind hchecked.2 (hagrees value hvalue)
    change (compareSymbols comparison rhs value >>= _) = _
    unfold compareSymbols
    rw [if_neg (not_not.mpr hsame)]
    cases comparison <;>
      simp [Comparison.holds, isEqual, hvalue, bind, Except.bind, pure, Except.pure]

structure Readable (t : SymbolTableEncoder) (properties : DeviceProperties)
    (condition : Instruction.Condition) : Prop where
  keyed : condition.All t.Keyed
  encodable : condition.All Symbol.Encodable
  checked : condition.Checked
  agrees : condition.Agrees properties

variable {condition : Instruction.Condition}

section

variable (hm : Reads m t) (h : Readable t m.properties condition)
include hm h

/-- What a loop does after an instruction whose condition decides. -/
theorem matchLoop_abort (fuel : ℕ) (rest : List UInt8) :
    m.matchLoop (fuel + 1)
        (condition.abortOp.toU8 :: (condition.rawBytes t.keyOf ++ rest)) =
      if condition.holds m.properties then some (.ok false) else m.matchLoop fuel rest := by
  cases condition with
  | always => rfl
  | equal lhs rhs =>
    rw [matchLoop, RawOp.fromU8_toU8, abortOp]
    simp only
    rw [step, rawBytes,
      readAndEvaluateValues_eq hm .inequal h.keyed h.encodable h.checked h.agrees,
      holds, Comparison.holds]
    cases isEqual m.properties lhs rhs <;> rfl
  | notEqual lhs rhs =>
    rw [matchLoop, RawOp.fromU8_toU8, abortOp]
    simp only
    rw [step, rawBytes,
      readAndEvaluateValues_eq hm .equal h.keyed h.encodable h.checked h.agrees,
      holds, Comparison.holds]
    cases isEqual m.properties lhs rhs <;> rfl

/-- The offset of a jump and its condition. -/
theorem evaluateJumpInst_eq {offset : ℕ} (hoffset : offset < 4294967296) (rest : List UInt8) :
    m.step (leBytes 4 offset ++ (condition.rawBytes t.keyOf ++ rest)) condition.jumpOp =
      (if condition.holds m.properties then jumpTo offset rest
        else .ok rest).map .inr := by
  cases condition
  all_goals rw [jumpOp, step, evaluateJumpInst,
    nextU32_leBytes hoffset]
  case always => rfl
  case equal lhs rhs =>
    change (Except.map _ (m.readAndEvaluateValues .equal _ >>= _)) = _
    rw [rawBytes,
      readAndEvaluateValues_eq hm .equal h.keyed h.encodable h.checked h.agrees]
    rfl
  case notEqual lhs rhs =>
    change (Except.map _ (m.readAndEvaluateValues .inequal _ >>= _)) = _
    rw [rawBytes,
      readAndEvaluateValues_eq hm .inequal h.keyed h.encodable h.checked h.agrees]
    rfl

theorem matchLoop_goto {offset : ℕ} (hoffset : offset < 4294967296) (fuel : ℕ) (rest : List UInt8) :
    m.matchLoop (fuel + 1)
        (condition.jumpOp.toU8 :: (leBytes 4 offset ++ condition.rawBytes t.keyOf) ++ rest) =
      match (if condition.holds m.properties then jumpTo offset rest
        else .ok rest) with
      | .error error => some (.error error)
      | .ok iter => m.matchLoop fuel iter := by
  rw [cons_append, append_assoc, matchLoop, RawOp.fromU8_toU8]
  simp only
  rw [evaluateJumpInst_eq hm h hoffset]
  cases (if condition.holds m.properties then jumpTo offset rest
    else .ok rest) with
  | error error => rfl
  | ok iter => rfl

end

theorem skip_append (skipped rest : List UInt8) :
    skip skipped.length (skipped ++ rest) = .ok rest := by
  induction skipped with
  | nil => rfl
  | cons byte skipped ih =>
    exact ih

/-- A jump lands behind its landing pad. -/
theorem jumpTo_append (skipped rest : List UInt8) :
    jumpTo skipped.length
      (skipped ++ RawOp.jumpLandPad.toU8 :: rest) = .ok rest := by
  unfold jumpTo
  rw [skip_append]
  rfl

structure Layout (t : SymbolTableEncoder) (target : ℕ → ℕ) (pos : ℕ)
    (instructions : List Instruction) : Prop where
  keyed : ∀ i ∈ instructions, i.All t.Keyed
  encodable : ∀ i ∈ instructions, i.All Symbol.Encodable
  checked : ∀ i ∈ instructions, i.Checked
  placed : ∀ a label b, instructions = a ++ .label label :: b → target label = pos + totalSize a
  in_range : ∀ label, InRange (target label) label pos instructions

variable {target : ℕ → ℕ} {pos : ℕ} {front rest : List Instruction}

theorem Layout.drop (h : Layout t target pos (front ++ rest)) :
    Layout t target (pos + totalSize front) rest where
  keyed := fun i hi => h.keyed i (mem_append_right _ hi)
  encodable := fun i hi => h.encodable i (mem_append_right _ hi)
  checked := fun i hi => h.checked i (mem_append_right _ hi)
  placed := by
    intro a label b hrest
    rw [h.placed (front ++ a) label b (by rw [hrest, append_assoc]), totalSize_append,
      Nat.add_assoc]
  in_range := by
    intro label a condition b hrest
    have hfits := h.in_range label (front ++ a) condition b (by rw [hrest, append_assoc])
    rw [totalSize_append] at hfits
    rwa [Nat.add_assoc pos]

theorem Layout.tail {i : Instruction} (h : Layout t target pos (i :: rest)) :
    Layout t target (pos + i.size) rest := by
  have hdrop : Layout t target (pos + totalSize [i]) rest := Layout.drop h
  rwa [totalSize_cons, totalSize_nil] at hdrop

theorem Layout.head {i : Instruction} (h : Layout t target pos (i :: rest)) :
    i.All t.Keyed ∧ i.All Symbol.Encodable ∧ i.Checked :=
  ⟨h.keyed i mem_cons_self, h.encodable i mem_cons_self, h.checked i mem_cons_self⟩

theorem Layout.goto_fits {label : ℕ} (h : Layout t target pos (.goto condition label :: rest)) :
    target label - (pos + (Instruction.goto condition label).size) < 4294967296 :=
  h.in_range label [] condition rest rfl

/-- The interpreter does on the bytes what the instructions do. -/
theorem Exec.matchLoop (hm : Reads m t) {instructions : List Instruction} {b : Bool} {fuel : ℕ}
    (hexec : Exec m.properties instructions b) (hlayout : Layout t target pos instructions)
    (hfuel : totalSize instructions < fuel) :
    m.matchLoop fuel (layOut t.keyOf (fun label stop => target label - stop) pos instructions) =
      some (.ok b) := by
  induction hexec generalizing pos fuel with
  | done =>
    obtain ⟨fuel, rfl⟩ : ∃ n, fuel = n + 1 := ⟨fuel - 1, by omega⟩
    rfl
  | @abort condition rest hagrees hholds =>
    obtain ⟨fuel, rfl⟩ : ∃ n, fuel = n + 1 := ⟨fuel - 1, by omega⟩
    obtain ⟨hkeyed, hencodable, hchecked⟩ := hlayout.head
    rw [layOut, Instruction.rawBytes, cons_append,
      matchLoop_abort hm ⟨hkeyed, hencodable, hchecked, hagrees⟩, hholds, if_pos rfl]
  | @pass condition rest b hagrees hholds _ ih =>
    obtain ⟨fuel, rfl⟩ : ∃ n, fuel = n + 1 := ⟨fuel - 1, by omega⟩
    rw [totalSize_cons, Instruction.size] at hfuel
    obtain ⟨hkeyed, hencodable, hchecked⟩ := hlayout.head
    rw [layOut, Instruction.rawBytes, cons_append,
      matchLoop_abort hm ⟨hkeyed, hencodable, hchecked, hagrees⟩, hholds]
    exact ih hlayout.tail (by omega)
  | @jump condition label skipped rest b hagrees hholds _ ih =>
    obtain ⟨fuel, rfl⟩ : ∃ n, fuel = n + 1 := ⟨fuel - 1, by omega⟩
    have htarget := hlayout.tail.placed skipped label rest rfl
    have hskipped : (layOut t.keyOf (fun label stop => target label - stop)
        (pos + (Instruction.goto condition label).size) skipped).length =
          target label - (pos + (Instruction.goto condition label).size) := by
      rw [length_layOut]
      omega
    rw [totalSize_cons, totalSize_append, totalSize_cons, Instruction.size] at hfuel
    obtain ⟨hkeyed, hencodable, hchecked⟩ := hlayout.head
    rw [layOut, Instruction.rawBytes, Instruction.offset,
      matchLoop_goto hm ⟨hkeyed, hencodable, hchecked, hagrees⟩ hlayout.goto_fits, hholds,
      layOut_append, layOut, Instruction.rawBytes, singleton_append, ← hskipped,
      jumpTo_append]
    exact ih hlayout.tail.drop.tail (by omega)
  | @stay condition label rest b hagrees hholds _ ih =>
    obtain ⟨fuel, rfl⟩ : ∃ n, fuel = n + 1 := ⟨fuel - 1, by omega⟩
    rw [totalSize_cons, Instruction.size] at hfuel
    obtain ⟨hkeyed, hencodable, hchecked⟩ := hlayout.head
    rw [layOut, Instruction.rawBytes, Instruction.offset,
      matchLoop_goto hm ⟨hkeyed, hencodable, hchecked, hagrees⟩ hlayout.goto_fits, hholds]
    exact ih hlayout.tail (by omega)
  | @label id rest b _ ih =>
    obtain ⟨fuel, rfl⟩ : ∃ n, fuel = n + 1 := ⟨fuel - 1, by omega⟩
    rw [totalSize_cons, Instruction.size] at hfuel
    exact ih hlayout.tail (by omega)

end Matching

/-- Rules that compile and encode match a device exactly if they hold for it, provided that their
numbers have 32 bits, their strings can be stored, and the properties that are compared have the
kind of the literal. -/
theorem matchBind_eq_blockHolds (statements : List Statement) (table : SymbolTable)
    (order : LabelOrder) (instructions : List SymbolicInstruction) (bytecode : List UInt8)
    (encoder : SymbolTableEncoder) (properties : DeviceProperties)
    (hcompile : compileStatements statements table true = .ok instructions)
    (hencode : encodeInstructions order instructions new =
      .ok (bytecode, encoder))
    (hencodable : blockAll table Symbol.Encodable statements)
    (hagrees : blockAgrees table properties statements) :
    ∃ symbolTable, readSymbolTable encoder.bytecode = some (.ok symbolTable) ∧
      matchBind symbolTable bytecode properties =
        some (.ok (blockHolds table properties statements)) := by
  obtain ⟨hexec, hall⟩ := compileStatements_spec hcompile
  obtain ⟨strings, target, hprogram⟩ := encodeInstructions_spec (hall hencodable) hencode
  obtain ⟨symbolTable, hread, hlookup⟩ := readSymbolTable_holds hprogram.holds
  refine ⟨symbolTable, hread, ?_⟩
  have hreads : Reads ⟨properties, symbolTable⟩ encoder := fun s key hkey =>
    ⟨hlookup s key hkey, (hprogram.holds.getElem?_keyOf hkey).2.2⟩
  have hlayout : Layout encoder target 0
      (instructions.map SymbolicInstruction.toInstruction) := {
    keyed := hprogram.keyed
    encodable := by
      intro i hi
      obtain ⟨j, hj, rfl⟩ := mem_map.mp hi
      exact hall hencodable j hj
    checked := hprogram.checked
    placed := by
      intro a label b hcode
      rw [hprogram.placed a label b hcode, Nat.zero_add]
    in_range := hprogram.in_range }
  rw [hprogram.bytecode_eq]
  refine Exec.matchLoop (m := ⟨properties, symbolTable⟩) hreads (hexec hagrees) hlayout ?_
  rw [length_layOut]
  exact Nat.lt_succ_self _

def LabelOrder.byId : LabelOrder := ⟨fun m => m.toList, fun _ => List.Perm.refl _⟩

def speedKey : CompoundIdentifier := ⟨["lib"], "speed"⟩

def speedTable : SymbolTable := fun identifier =>
  if identifier = speedKey then some (.key "lib.speed" .number) else none

/-- Accepts the speeds 1 and 2, and then excludes 2. -/
def twoSpeeds : List Statement :=
  [.accept speedKey [.numericLiteral 1, .numericLiteral 2],
    .ifElse [(⟨speedKey, .equals, .numericLiteral 2⟩, [.falseStatement])]
      [.conditionStatement ⟨speedKey, .notEquals, .numericLiteral 3⟩]]

def speedOne : DeviceProperties := fun key =>
  if key = .stringKey "lib.speed" then some (.numberValue 1) else none

theorem twoSpeeds_encodable : blockAll speedTable Symbol.Encodable twoSpeeds := by
  have hkey : identifierAll speedTable Symbol.Encodable speedKey := by
    intro symbol h
    cases h
    exact ⟨by decide, by decide⟩
  have hvalue : ∀ n : UInt64, n.toNat < 4294967296 →
      valueAll speedTable Symbol.Encodable (.numericLiteral n) := by
    intro n hn symbol h
    cases h
    exact hn
  have hone := hvalue 1 (by decide)
  have htwo := hvalue 2 (by decide)
  have hthree := hvalue 3 (by decide)
  simp [blockAll, statementAll, blocksAll, twoSpeeds, hkey, hone, htwo, hthree]

theorem twoSpeeds_agrees : blockAgrees speedTable speedOne twoSpeeds := by
  have hvalue : ∀ n, valueAgrees speedTable speedOne speedKey (.numericLiteral n) := by
    intro n lhs rhs hlhs hrhs value hproperty
    cases hlhs
    cases hrhs
    cases hproperty
    rfl
  simp [blockAgrees, statementAgrees, valuesAgree, blocksAgree, twoSpeeds, hvalue]

theorem matchBind_eq_blockHolds_two_speeds : ∃ instructions bytecode encoder symbolTable,
    compileStatements twoSpeeds speedTable true = .ok instructions ∧
    encodeInstructions LabelOrder.byId instructions new =
      .ok (bytecode, encoder) ∧
    readSymbolTable encoder.bytecode = some (.ok symbolTable) ∧
    matchBind symbolTable bytecode speedOne = some (.ok true) := by
  obtain ⟨instructions, bytecode, encoder, hcompile, hencode⟩ :
      ∃ instructions bytecode encoder,
        compileStatements twoSpeeds speedTable true = .ok instructions ∧
        encodeInstructions LabelOrder.byId instructions new =
          .ok (bytecode, encoder) := ⟨_, _, _, rfl, rfl⟩
  obtain ⟨symbolTable, hread, hmatch⟩ := matchBind_eq_blockHolds twoSpeeds speedTable
    LabelOrder.byId instructions bytecode encoder speedOne hcompile hencode twoSpeeds_encodable
    twoSpeeds_agrees
  exact ⟨instructions, bytecode, encoder, symbolTable, hcompile, hencode, hread, hmatch⟩

end Smos.Bind
