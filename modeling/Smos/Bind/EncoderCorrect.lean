import Smos.Bind.EncoderLayout

/-!
What the encoder leaves behind when it succeeds.

The symbol table holds each string once, under consecutive keys, and a key that was handed out stays
the key of its string.  The bytes are the instructions laid out with the distances to the labels,
and each label is where its landing pad is.
-/
namespace Smos.Bind

open Lib.Bytes Lib.Result List Option
open InstructionEncoder

variable {s : String} {symbol : Symbol} {t : SymbolTableEncoder}

def Encodable (s : String) : Prop := s ≠ "" ∧ (0 : UInt8) ∉ utf8Bytes s

/-- A symbol that can be read back: a number of 32 bits, or a string. -/
def Symbol.Encodable : Symbol → Prop
  | .numberValue value => value.toNat < 4294967296
  | .stringValue s | .enumValue s | .key s _ => Bind.Encodable s
  | .boolValue _ | .deprecatedKey _ => True

theorem Symbol.Encodable.text (h : symbol.Encodable)
    (hs : symbol.text = some s) : Bind.Encodable s := by
  cases symbol with
  | numberValue _ | boolValue _ | deprecatedKey _ => cases hs
  | stringValue _ | enumValue _ | key _ _ =>
    cases hs
    exact h

namespace SymbolTableEncoder

variable {t' : SymbolTableEncoder} {strings : List String}

def entries : ℕ → List String → List UInt8
  | _, [] => []
  | key, s :: rest => entryBytes key s ++ entries (key + 1) rest

theorem entries_append (key : ℕ) (a b : List String) :
    entries key (a ++ b) = entries key a ++ entries (key + a.length) b := by
  induction a generalizing key with
  | nil => rfl
  | cons s rest ih =>
    rw [cons_append, entries, entries, ih, append_assoc, length_cons,
      Nat.add_right_comm, Nat.add_assoc]

structure Holds (t : SymbolTableEncoder) (strings : List String) : Prop where
  symbols_eq : t.encodedSymbols = strings.zipIdx symbTblStartKey
  uniqueKey_eq : t.uniqueKey = symbTblStartKey + strings.length
  uniqueKey_lt : t.uniqueKey < 4294967296
  bytecode_eq : t.bytecode = entries symbTblStartKey strings
  encodable : ∀ s ∈ strings, Encodable s ∧ (utf8Bytes s).length ≤ maxStringLength

def Extends (t t' : SymbolTableEncoder) : Prop :=
  ∀ s key, t.encodedSymbols.lookup s = some key → t'.encodedSymbols.lookup s = some key

theorem Extends.refl : Extends t t := fun _ _ h => h

def keyOf (t : SymbolTableEncoder) (s : String) : ℕ := (t.encodedSymbols.lookup s).getD 0

def Keyed (t : SymbolTableEncoder) (symbol : Symbol) : Prop :=
  ∀ s, symbol.text = some s → ∃ key, t.encodedSymbols.lookup s = some key

theorem Keyed.extends (h : t.Keyed symbol) (hext : Extends t t') :
    t'.Keyed symbol := by
  intro s hs
  obtain ⟨key, hkey⟩ := h s hs
  exact ⟨key, hext s key hkey⟩

theorem Keyed.keyOf_eq (h : t.Keyed symbol) (hext : Extends t t') (s : String)
    (hs : symbol.text = some s) : t.keyOf s = t'.keyOf s := by
  obtain ⟨key, hkey⟩ := h s hs
  rw [keyOf, keyOf, hkey, hext s key hkey]

/-- The key of a string is its place in the table. -/
theorem Holds.getElem?_keyOf (h : t.Holds strings) {key : ℕ}
    (hkey : t.encodedSymbols.lookup s = some key) :
    symbTblStartKey ≤ key ∧ strings[key - symbTblStartKey]? = some s ∧ key < 4294967296 := by
  obtain ⟨before, after, heq, -⟩ := List.lookup_eq_some_iff.mp hkey
  have hmem : (s, key) ∈ strings.zipIdx symbTblStartKey := by
    rw [← h.symbols_eq, heq]
    exact List.mem_append_right _ (List.mem_cons_self ..)
  obtain ⟨hle, hget⟩ := List.mk_mem_zipIdx_iff_le_and_getElem?_sub.mp hmem
  have hlt := (List.getElem?_eq_some_iff.mp hget).1
  have huniq := h.uniqueKey_eq
  have hbound := h.uniqueKey_lt
  exact ⟨hle, hget, by omega⟩

/-- A string that is asked for has its key afterwards. -/
theorem Holds.getKey (h : t.Holds strings) (hs : Encodable s) {key : ℕ}
    (hkey : t.getKey s = .ok (key, t')) :
    (∃ strings', t'.Holds strings') ∧ Extends t t' ∧ t'.encodedSymbols.lookup s = some key := by
  unfold SymbolTableEncoder.getKey at hkey
  split at hkey
  · next found hfound =>
    cases hkey
    exact ⟨⟨strings, h⟩, Extends.refl, hfound⟩
  next hmissing =>
  unfold addSymbol at hkey
  split at hkey
  · cases hkey
  next hlength =>
  split at hkey
  · next hroom =>
    cases hkey
    refine ⟨⟨strings ++ [s], ?_⟩, ?_, ?_⟩
    · exact {
        symbols_eq := by
          rw [zipIdx_append, h.symbols_eq, h.uniqueKey_eq]
          rfl
        uniqueKey_eq := by
          rw [length_append, h.uniqueKey_eq]
          rfl
        uniqueKey_lt := hroom
        bytecode_eq := by
          rw [entries_append, h.bytecode_eq, h.uniqueKey_eq, entries, entries, append_nil]
        encodable :=
          forall_mem_append.mpr ⟨h.encodable, forall_mem_singleton.mpr ⟨hs, by omega⟩⟩ }
    · intro r k hr
      rw [lookup_append, hr, some_or]
    · rw [lookup_append, hmissing, none_or, lookup_cons_self]
  · cases hkey

end SymbolTableEncoder

open SymbolTableEncoder

/-- What a symbol is encoded as. -/
theorem rawValue_spec {t' : SymbolTableEncoder} {strings : List String}
    {rawType : RawValueType} {value : ℕ} (ht : t.Holds strings) (hsymbol : symbol.Encodable)
    (h : rawValue t symbol = .ok (rawType, value, t')) :
    (∃ strings', t'.Holds strings') ∧ Extends t t' ∧ t'.Keyed symbol ∧
      rawType.toU8 :: leBytes 4 value = symbol.rawBytes t'.keyOf := by
  -- the three kinds of strings differ in the type byte only
  have hstring : ∀ (s : String) (key : ℕ) (t' : SymbolTableEncoder), symbol.text = some s →
      t.getKey s = .ok (key, t') →
        (∃ strings', t'.Holds strings') ∧ Extends t t' ∧ t'.Keyed symbol ∧ t'.keyOf s = key := by
    intro s key t' hs hkey
    obtain ⟨hholds, hext, hlookup⟩ := ht.getKey (hsymbol.text hs) hkey
    refine ⟨hholds, hext, fun r hr => ?_, by rw [keyOf, hlookup, getD_some]⟩
    rw [hs] at hr
    cases hr
    exact ⟨key, hlookup⟩
  cases symbol with
  | numberValue v | boolValue v | deprecatedKey v =>
    cases h
    exact ⟨⟨strings, ht⟩, Extends.refl, nofun, rfl⟩
  | stringValue s | key s _ | enumValue s =>
    obtain ⟨⟨key, t''⟩, hkey, hresult⟩ := bind_eq_ok.mp h
    cases pure_eq_ok.mp hresult
    obtain ⟨hholds, hext, hkeyed, hkeyOf⟩ := hstring s _ _ rfl hkey
    rw [Symbol.rawBytes, hkeyOf]
    exact ⟨hholds, hext, hkeyed, rfl⟩

/-- The comparison has a key on its left side and a value on its right side. -/
def Instruction.Condition.Checked : Instruction.Condition → Prop
  | .always => True
  | .equal lhs rhs | .notEqual lhs rhs => isSymbolKey lhs = true ∧ (valueType rhs).isSome

def Instruction.Checked : Instruction → Prop
  | .abort condition | .goto condition _ => condition.Checked
  | .bind _ => False
  | .label _ => True

theorem checkComparison_spec {lhs rhs : Symbol} (h : checkComparison lhs rhs = .ok ()) :
    isSymbolKey lhs = true ∧ (valueType rhs).isSome := by
  unfold checkComparison at h
  split at h
  · cases h
  next hkey =>
  split at h
  · cases h
  next rhsType hrhs =>
  refine ⟨by simpa using hkey, by rw [hrhs, isSome_some]⟩

namespace InstructionEncoder

variable {e e' : InstructionEncoder} {condition : Instruction.Condition} {id : ℕ}

structure Grows (e e' : InstructionEncoder) (bytes : List UInt8) : Prop where
  holds : ∃ strings, e'.symbolTable.Holds strings
  keeps : Extends e.symbolTable e'.symbolTable
  bytecode_eq : e'.bytecode = e.bytecode ++ bytes
  labelMap_eq : e'.labelMap = e.labelMap

theorem appendValue_spec (he : ∃ strings, e.symbolTable.Holds strings)
    (hsymbol : symbol.Encodable) (h : e.appendValue symbol = .ok e') :
    Grows e e' (symbol.rawBytes e'.symbolTable.keyOf) ∧ e'.symbolTable.Keyed symbol := by
  obtain ⟨strings, hholds⟩ := he
  obtain ⟨⟨rawType, value, t⟩, hraw, hresult⟩ := bind_eq_ok.mp h
  cases pure_eq_ok.mp hresult
  obtain ⟨hok, hext, hkeyed, hbytes⟩ := rawValue_spec hholds hsymbol hraw
  refine ⟨⟨hok, hext, ?_, rfl⟩, hkeyed⟩
  change e.bytecode ++ [rawType.toU8] ++ leBytes 4 value = e.bytecode ++ symbol.rawBytes t.keyOf
  rw [← hbytes, append_assoc, singleton_append]

def appendComparison (e : InstructionEncoder) :
    Instruction.Condition → Except BindRulesEncodeError InstructionEncoder
  | .always => .ok e
  | .equal lhs rhs | .notEqual lhs rhs => e.appendValueComparison lhs rhs

theorem appendAbortInstruction_eq (condition : Instruction.Condition) :
    e.appendAbortInstruction condition =
      (e.appendByte condition.abortOp.toU8).appendComparison condition := by
  cases condition <;> rfl

theorem appendJmp_eq (condition : Instruction.Condition) :
    e.appendJmp condition =
      ((e.appendByte condition.jumpOp.toU8).appendU32 0).appendComparison condition := by
  cases condition <;> rfl

theorem appendValueComparison_spec {lhs rhs : Symbol}
    (he : ∃ strings, e.symbolTable.Holds strings) (hlhs : lhs.Encodable) (hrhs : rhs.Encodable)
    (h : e.appendValueComparison lhs rhs = .ok e') :
    Grows e e' (lhs.rawBytes e'.symbolTable.keyOf ++ rhs.rawBytes e'.symbolTable.keyOf) ∧
      (e'.symbolTable.Keyed lhs ∧ e'.symbolTable.Keyed rhs) ∧
      isSymbolKey lhs = true ∧ (valueType rhs).isSome := by
  obtain ⟨⟨⟩, hcheck, h⟩ := bind_eq_ok.mp h
  obtain ⟨e₁, hfirst, hsecond⟩ := bind_eq_ok.mp h
  obtain ⟨hgrows, hkeyed⟩ := appendValue_spec he hlhs hfirst
  obtain ⟨hgrows', hkeyed'⟩ := appendValue_spec hgrows.holds hrhs hsecond
  refine ⟨⟨hgrows'.holds, fun s key hs => hgrows'.keeps s key (hgrows.keeps s key hs), ?_,
    hgrows'.labelMap_eq.trans hgrows.labelMap_eq⟩,
    ⟨hkeyed.extends hgrows'.keeps, hkeyed'⟩, checkComparison_spec hcheck⟩
  rw [hgrows'.bytecode_eq, hgrows.bytecode_eq, append_assoc,
    Symbol.rawBytes_congr (hkeyed.keyOf_eq hgrows'.keeps)]

theorem appendComparison_spec
    (he : ∃ strings, e.symbolTable.Holds strings) (hall : condition.All Symbol.Encodable)
    (h : e.appendComparison condition = .ok e') :
    Grows e e' (condition.rawBytes e'.symbolTable.keyOf) ∧
      condition.All e'.symbolTable.Keyed ∧ condition.Checked := by
  cases condition with
  | always =>
    cases h
    exact ⟨⟨he, Extends.refl, (append_nil _).symm, rfl⟩, trivial, trivial⟩
  | equal lhs rhs | notEqual lhs rhs => exact appendValueComparison_spec he hall.1 hall.2 h

structure Encoded (done : List Instruction) (e : InstructionEncoder) : Prop where
  holds : ∃ strings, e.symbolTable.Holds strings
  bytecode_eq : e.bytecode = layOut e.symbolTable.keyOf (fun _ _ => 0) 0 done
  keyed : ∀ i ∈ done, i.All e.symbolTable.Keyed
  checked : ∀ i ∈ done, i.Checked
  labelInfo_eq : ∀ label, e.labelInfo label = ⟨labelIndex label 0 done, usages label 0 done⟩
  mem_labelMap : ∀ condition label, .goto condition label ∈ done →
    (e.labelMap[label]?).isSome = true
  placed : ∀ a label b, done = a ++ .label label :: b →
    labelIndex label 0 done = some (totalSize a)

theorem encoded_nil (ht : ∃ strings, t.Holds strings) :
    Encoded [] ⟨[], t, ∅⟩ where
  holds := ht
  bytecode_eq := rfl
  keyed := by simp
  checked := by simp
  labelInfo_eq := by
    intro label
    rfl
  mem_labelMap := by simp
  placed := by
    intro a label b h
    simp at h

variable {done : List Instruction} {instructions : List Instruction}

theorem Encoded.length_bytecode (h : Encoded done e) : e.bytecode.length = totalSize done := by
  rw [h.bytecode_eq, length_layOut]

/-- One more instruction. -/
theorem Encoded.snoc (h : Encoded done e) {i : Instruction}
    (hholds : ∃ strings, e'.symbolTable.Holds strings)
    (hkeeps : Extends e.symbolTable e'.symbolTable)
    (hbytes : e'.bytecode = e.bytecode ++ i.rawBytes e'.symbolTable.keyOf 0)
    (hkeyed : i.All e'.symbolTable.Keyed) (hchecked : i.Checked)
    (hinfo : ∀ label, e'.labelInfo label =
      ⟨(labelIndex label 0 done).or (labelIndex label (totalSize done) [i]),
        usages label 0 done ++ usages label (totalSize done) [i]⟩)
    (hmem : ∀ label, (e.labelMap[label]?).isSome = true ∨ (∃ condition, i = .goto condition label) →
      (e'.labelMap[label]?).isSome = true)
    (hnew : ∀ label, i = .label label → labelIndex label 0 done = none) :
    Encoded (done ++ [i]) e' where
  holds := hholds
  bytecode_eq := by
    have hzero : i.offset (fun _ _ => 0) (0 + totalSize done + i.size) = 0 := by
      cases i <;> rfl
    rw [hbytes, h.bytecode_eq, layOut_append, layOut, layOut, append_nil, hzero]
    congr 1
    apply layOut_congr_key
    intro j hj
    exact (h.keyed j hj).imp fun symbol hsymbol => hsymbol.keyOf_eq hkeeps
  keyed :=
    forall_mem_append.mpr
      ⟨fun j hj => (h.keyed j hj).imp fun symbol hsymbol => hsymbol.extends hkeeps,
        forall_mem_singleton.mpr hkeyed⟩
  checked :=
    forall_mem_append.mpr ⟨h.checked, forall_mem_singleton.mpr hchecked⟩
  labelInfo_eq := by
    intro label
    rw [hinfo, labelIndex_append, usages_append, Nat.zero_add]
  mem_labelMap := by
    intro condition label hgoto
    rcases mem_append.mp hgoto with hgoto | hgoto
    · exact hmem label (.inl (h.mem_labelMap condition label hgoto))
    · exact hmem label (.inr ⟨condition, (mem_singleton.mp hgoto).symm⟩)
  placed := by
    intro a label b heq
    rw [labelIndex_append, Nat.zero_add]
    rcases eq_nil_or_concat b with rfl | ⟨b', j, rfl⟩
    · -- the label is the new instruction
      obtain ⟨rfl, hi⟩ := append_inj' heq rfl
      obtain rfl := singleton_inj.mp hi
      rw [hnew label rfl, none_or, labelIndex, if_pos rfl]
    · rw [concat_eq_append, ← cons_append, ← append_assoc] at heq
      obtain ⟨hdone, -⟩ := append_inj' heq rfl
      rw [h.placed a label b' hdone, some_or]

theorem labelInfo_insert (e : InstructionEncoder) (id label : ℕ) (info : LabelInfo)
    (bytes : List UInt8) (t : SymbolTableEncoder) :
    labelInfo ⟨bytes, t, e.labelMap.insert id info⟩ label =
      if id = label then info else e.labelInfo label := by
  rw [labelInfo, Lib.OrderedMap.getElem?_insert]
  by_cases hid : id = label
  · rw [if_pos hid, if_pos hid, getD_some]
  · rw [if_neg hid, if_neg hid, labelInfo]

theorem isSome_insert {e : InstructionEncoder} {label : ℕ} {info : LabelInfo}
    (h : (e.labelMap[label]?).isSome = true ∨ id = label) :
    ((e.labelMap.insert id info)[label]?).isSome = true := by
  rw [Lib.OrderedMap.getElem?_insert]
  by_cases hid : id = label
  · rw [if_pos hid, isSome_some]
  · rw [if_neg hid]
    exact h.resolve_right hid

theorem Encoded.abort (h : Encoded done e)
    (hall : condition.All Symbol.Encodable) (habort : e.appendAbortInstruction condition = .ok e') :
    Encoded (done ++ [.abort condition]) e' := by
  rw [appendAbortInstruction_eq] at habort
  have hstart : ∃ strings, (e.appendByte condition.abortOp.toU8).symbolTable.Holds strings :=
    h.holds
  obtain ⟨hgrows, hkeyed, hchecked⟩ := appendComparison_spec hstart hall habort
  have hmap : e'.labelMap = e.labelMap := hgrows.labelMap_eq
  refine h.snoc hgrows.holds hgrows.keeps ?_ hkeyed hchecked ?_ ?_ nofun
  · rw [hgrows.bytecode_eq, appendByte, Instruction.rawBytes, append_assoc,
      singleton_append]
  · intro label
    have hone : labelIndex label (totalSize done) [.abort condition] = none := rfl
    have hnone : usages label (totalSize done) [.abort condition] = [] := rfl
    rw [labelInfo, hmap, ← labelInfo, h.labelInfo_eq, hone, hnone, or_none, append_nil]
  · rintro label (hsome | ⟨condition', hi⟩)
    · rw [hmap]
      exact hsome
    · cases hi

theorem Encoded.goto (h : Encoded done e)
    (hall : condition.All Symbol.Encodable) (hjmp : e.appendJmpStatement condition id = .ok e') :
    Encoded (done ++ [.goto condition id]) e' := by
  obtain ⟨e₁, hfirst, hjmp⟩ := bind_eq_ok.mp hjmp
  rw [appendJmp_eq] at hfirst
  have hstart : ∃ strings,
      ((e.appendByte condition.jumpOp.toU8).appendU32 0).symbolTable.Holds strings := h.holds
  obtain ⟨hgrows, hkeyed, hchecked⟩ := appendComparison_spec hstart hall hfirst
  have hmap : e₁.labelMap = e.labelMap := hgrows.labelMap_eq
  have hinfo : ∀ label, e₁.labelInfo label =
      ⟨labelIndex label 0 done, usages label 0 done⟩ := by
    intro label
    rw [labelInfo, hmap, ← labelInfo, h.labelInfo_eq]
  have hbytes : e₁.bytecode = e.bytecode ++
      (Instruction.goto condition id).rawBytes e₁.symbolTable.keyOf 0 := by
    rw [hgrows.bytecode_eq, appendU32, appendByte, Instruction.rawBytes]
    simp only [append_assoc, cons_append, nil_append]
  have hlength : e₁.bytecode.length = totalSize done + (5 + condition.width) := by
    rw [hbytes, length_append, h.length_bytecode, Instruction.length_rawBytes,
      Instruction.size]
  split at hjmp
  · cases hjmp
  cases pure_eq_ok.mp hjmp
  refine h.snoc hgrows.holds hgrows.keeps hbytes hkeyed hchecked ?_ ?_ fun _ hi => by cases hi
  · intro label
    have hone : labelIndex label (totalSize done) [.goto condition id] = none := rfl
    rw [labelInfo_insert, hinfo, hinfo, hone, or_none, usages, usages]
    by_cases hid : id = label
    · subst hid
      have hrest : e₁.bytecode.length - (e.bytecode.length + 1) = 4 + condition.width := by
        rw [h.length_bytecode]
        omega
      rw [if_pos rfl, if_pos rfl, hrest, h.length_bytecode]
    · rw [if_neg hid, if_neg hid, append_nil]
  · rintro label (hsome | ⟨condition', hi⟩)
    · exact isSome_insert (.inl (by rw [hmap]; exact hsome))
    · cases hi
      exact isSome_insert (.inr rfl)

theorem Encoded.label (h : Encoded done e) (hlabel : e.appendAndUpdateLabel id = .ok e') :
    Encoded (done ++ [.label id]) e' := by
  unfold appendAndUpdateLabel at hlabel
  split at hlabel
  · cases hlabel
  next hfresh =>
  cases hlabel
  have hnone : labelIndex id 0 done = none := by
    rw [h.labelInfo_eq] at hfresh
    simpa using hfresh
  refine h.snoc h.holds Extends.refl rfl trivial trivial ?_ ?_ ?_
  · intro label
    change labelInfo ⟨_, _, e.labelMap.insert id _⟩ label = _
    have hnil : usages label (totalSize done) [.label id] = [] := rfl
    rw [labelInfo_insert, h.labelInfo_eq, h.labelInfo_eq, labelIndex, labelIndex, hnil,
      append_nil]
    by_cases hid : id = label
    · subst hid
      rw [if_pos rfl, if_pos rfl, hnone, none_or, h.length_bytecode]
    · rw [if_neg hid, if_neg hid, or_none]
  · rintro label (hsome | ⟨condition', hi⟩)
    · exact isSome_insert (.inl hsome)
    · cases hi
  · intro label hi
    cases hi
    exact hnone

/-- All instructions, one after the other. -/
theorem Encoded.encodeAll (hall : ∀ i ∈ instructions, i.All Symbol.Encodable) (h : Encoded done e)
    (hencode : e.encodeAll instructions = .ok e') : Encoded (done ++ instructions) e' := by
  induction instructions generalizing done e with
  | nil =>
    cases hencode
    rwa [append_nil]
  | cons i rest ih =>
    obtain ⟨e₁, hfirst, hrest⟩ := bind_eq_ok.mp hencode
    have hi := hall i (mem_cons_self ..)
    have hstep : Encoded (done ++ [i]) e₁ := by
      cases i with
      | abort condition => exact h.abort hi hfirst
      | goto condition id => exact h.goto hi hfirst
      | label id => exact h.label hfirst
      | bind condition => cases hfirst
    have hdone := ih (forall_mem_cons.mp hall).2 hstep hrest
    rwa [append_assoc] at hdone

/-- Filling in the offsets of all labels. -/
theorem patchLabels_spec {key : String → ℕ} {target : ℕ → ℕ} :
    ∀ (entries : List (ℕ × LabelInfo)) (off : ℕ → ℕ → ℕ) (bytecode : List UInt8),
      (∀ label info, (label, info) ∈ entries →
        info = ⟨labelIndex label 0 instructions, usages label 0 instructions⟩) →
      (∀ label index, labelIndex label 0 instructions = some index → target label = index) →
      patchLabels entries (layOut key off 0 instructions) = .ok bytecode →
      ∃ off', bytecode = layOut key off' 0 instructions ∧
        (∀ label stop, label ∉ entries.map Prod.fst → off' label stop = off label stop) ∧
        ∀ label ∈ entries.map Prod.fst, (∀ stop, off' label stop = target label - stop) ∧
          InRange (target label) label 0 instructions := by
  intro entries
  induction entries with
  | nil =>
    intro off bytecode _ _ h
    cases h
    exact ⟨off, rfl, fun _ _ _ => rfl, nofun⟩
  | cons entry rest ih =>
    obtain ⟨id, data⟩ := entry
    intro off bytecode hentries htarget h
    have hdata := hentries id data (mem_cons_self ..)
    subst hdata
    rw [patchLabels] at h
    split at h
    · cases h
    next index hindex =>
    obtain ⟨patched, husages, hrest⟩ := bind_eq_ok.mp h
    obtain ⟨heq, hrange⟩ := patchUsages_spec instructions 0 [] patched rfl husages
    have hid : target id = index := htarget id index hindex
    rw [heq] at hrest
    obtain ⟨off', hbytes, hother, hall⟩ := ih _ bytecode
      (fun label info hmem => hentries label info (mem_cons_of_mem _ hmem)) htarget hrest
    refine ⟨off', hbytes, ?_, ?_⟩
    · intro label stop hlabel
      rw [map_cons, mem_cons, not_or] at hlabel
      rw [hother label stop hlabel.2, Function.update_of_ne hlabel.1]
    · intro label hlabel
      by_cases hin : label ∈ rest.map Prod.fst
      · exact hall label hin
      · obtain rfl : label = id := by
          rw [map_cons, mem_cons] at hlabel
          exact hlabel.resolve_right hin
        refine ⟨fun stop => ?_, hid ▸ hrange⟩
        rw [hother label stop hin, Function.update_self, hid]

end InstructionEncoder

structure Program (instructions : List Instruction) (bytecode : List UInt8)
    (t : SymbolTableEncoder) (strings : List String) (target : ℕ → ℕ) : Prop where
  holds : t.Holds strings
  bytecode_eq : bytecode = layOut t.keyOf (fun label stop => target label - stop) 0 instructions
  keyed : ∀ i ∈ instructions, i.All t.Keyed
  checked : ∀ i ∈ instructions, i.Checked
  placed : ∀ a label b, instructions = a ++ .label label :: b → target label = totalSize a
  in_range : ∀ label, InRange (target label) label 0 instructions

theorem encodeInstructions_spec {order : LabelOrder} {instructions : List SymbolicInstruction}
    {bytecode : List UInt8}
    (hall : ∀ i ∈ instructions, i.toInstruction.All Symbol.Encodable)
    (h : encodeInstructions order instructions SymbolTableEncoder.new = .ok (bytecode, t)) :
    ∃ strings target, Program (instructions.map SymbolicInstruction.toInstruction) bytecode t
      strings target := by
  obtain ⟨e, hencode, h⟩ := bind_eq_ok.mp h
  obtain ⟨patched, hpatch, h⟩ := bind_eq_ok.mp h
  cases pure_eq_ok.mp h
  have hdone := (encoded_nil ⟨[], rfl, rfl, by decide, rfl, nofun⟩).encodeAll (by
    intro i hi
    obtain ⟨j, hj, rfl⟩ := mem_map.mp hi
    exact hall j hj) hencode
  rw [nil_append] at hdone
  generalize instructions.map SymbolicInstruction.toInstruction = code at hdone ⊢
  obtain ⟨strings, hholds⟩ := hdone.holds
  have hmem : ∀ label info, (label, info) ∈ order.list e.labelMap ↔
      e.labelMap[label]? = some info := by
    intro label info
    rw [(order.perm e.labelMap).mem_iff, Std.TreeMap.mem_toList_iff_getElem?_eq_some]
  have hentries : ∀ label info, (label, info) ∈ order.list e.labelMap →
      info = ⟨labelIndex label 0 code, usages label 0 code⟩ := by
    intro label info hin
    rw [← hdone.labelInfo_eq, labelInfo, (hmem label info).mp hin, getD_some]
  rw [hdone.bytecode_eq] at hpatch
  have htarget : ∀ label index, labelIndex label 0 code = some index →
      (fun label => (labelIndex label 0 code).getD 0) label = index := by
    intro label index hindex
    change (labelIndex label 0 code).getD 0 = index
    rw [hindex, getD_some]
  obtain ⟨off', hbytes, -, hoff⟩ := patchLabels_spec _ _ _ hentries htarget hpatch
  have hused : ∀ condition label, .goto condition label ∈ code →
      label ∈ (order.list e.labelMap).map Prod.fst := by
    intro condition label hgoto
    obtain ⟨info, hinfo⟩ := isSome_iff_exists.mp (hdone.mem_labelMap condition label hgoto)
    exact mem_map.mpr ⟨(label, info), (hmem label info).mpr hinfo, rfl⟩
  refine ⟨strings, fun label => (labelIndex label 0 code).getD 0, hholds, ?_, hdone.keyed,
    hdone.checked, ?_, ?_⟩
  · rw [hbytes]
    exact layOut_congr_off 0 fun condition label hgoto =>
      (hoff label (hused condition label hgoto)).1
  · intro a label b hcode
    rw [hdone.placed a label b hcode, getD_some]
  · intro label a condition b hcode
    have hgoto : .goto condition label ∈ code := by
      rw [hcode]
      exact mem_append_right _ (mem_cons_self ..)
    exact (hoff label (hused condition label hgoto)).2 a condition b hcode

end Smos.Bind
