import Smos.Bind.Meaning

/-!
Where the encoder puts the instructions.

The bytes of a list of instructions are laid out one after the other.  They depend on the keys of
the strings and on the offsets of the jumps; the encoder first writes them with offsets zero and
then, label by label, with the distance to the label.
-/
namespace Smos.Bind

open Lib.Bytes Lib.Result List Instruction Function
open InstructionEncoder

variable {i : Instruction} {key key' : String → ℕ}

def Symbol.rawBytes (key : String → ℕ) : Symbol → List UInt8
  | .numberValue value => RawValueType.numberValue.toU8 :: leBytes 4 value.toUInt32.toNat
  | .boolValue value => RawValueType.boolValue.toU8 :: leBytes 4 value.toNat
  | .stringValue value => RawValueType.stringValue.toU8 :: leBytes 4 (key value)
  | .key value _ => RawValueType.key.toU8 :: leBytes 4 (key value)
  | .deprecatedKey value => RawValueType.numberValue.toU8 :: leBytes 4 value.toNat
  | .enumValue value => RawValueType.enumValue.toU8 :: leBytes 4 (key value)

def Symbol.text : Symbol → Option String
  | .stringValue value | .key value _ | .enumValue value => some value
  | _ => none

@[simp] theorem Symbol.length_rawBytes (key : String → ℕ) (symbol : Symbol) :
    (symbol.rawBytes key).length = 5 := by
  cases symbol <;> rfl

theorem Symbol.rawBytes_congr {symbol : Symbol}
    (h : ∀ s, symbol.text = some s → key s = key' s) :
    symbol.rawBytes key = symbol.rawBytes key' := by
  cases symbol with
  | numberValue _ | boolValue _ | deprecatedKey _ => rfl
  | stringValue s | key s _ | enumValue s =>
    simp only [rawBytes, h s rfl]

namespace Instruction

namespace Condition

def rawBytes (key : String → ℕ) : Condition → List UInt8
  | .always => []
  | .equal lhs rhs | .notEqual lhs rhs => lhs.rawBytes key ++ rhs.rawBytes key

def width : Condition → ℕ
  | .always => 0
  | .equal _ _ | .notEqual _ _ => 10

def abortOp : Condition → RawOp
  | .always => .abort
  | .equal _ _ => .inequalCondition
  | .notEqual _ _ => .equalCondition

def jumpOp : Condition → RawOp
  | .always => .unconditionalJump
  | .equal _ _ => .jumpIfEqual
  | .notEqual _ _ => .jumpIfNotEqual

@[simp] theorem length_rawBytes (key : String → ℕ) (condition : Condition) :
    (condition.rawBytes key).length = condition.width := by
  cases condition with
  | always => rfl
  | equal lhs rhs | notEqual lhs rhs =>
    rw [rawBytes, length_append, Symbol.length_rawBytes, Symbol.length_rawBytes, width]

theorem rawBytes_congr {condition : Condition}
    (h : condition.All fun symbol => ∀ s, symbol.text = some s → key s = key' s) :
    condition.rawBytes key = condition.rawBytes key' := by
  cases condition with
  | always => rfl
  | equal lhs rhs | notEqual lhs rhs =>
    rw [rawBytes, rawBytes, Symbol.rawBytes_congr h.1, Symbol.rawBytes_congr h.2]

theorem All.imp {P Q : Symbol → Prop} {condition : Condition} (h : condition.All P)
    (himp : ∀ s, P s → Q s) : condition.All Q := by
  cases condition with
  | always => trivial
  | equal lhs rhs | notEqual lhs rhs => exact ⟨himp _ h.1, himp _ h.2⟩

end Condition

theorem All.imp {P Q : Symbol → Prop} (h : i.All P) (himp : ∀ s, P s → Q s) :
    i.All Q := by
  cases i with
  | label id => trivial
  | abort condition | bind condition | goto condition label => exact Condition.All.imp h himp

def size : Instruction → ℕ
  | .abort condition => 1 + condition.width
  | .bind _ => 0
  | .goto condition _ => 5 + condition.width
  | .label _ => 1

def offset (off : ℕ → ℕ → ℕ) (stop : ℕ) : Instruction → ℕ
  | .goto _ target => off target stop
  | _ => 0

def rawBytes (key : String → ℕ) (offset : ℕ) : Instruction → List UInt8
  | .abort condition => condition.abortOp.toU8 :: condition.rawBytes key
  | .bind _ => []
  | .goto condition _ => condition.jumpOp.toU8 :: (leBytes 4 offset ++ condition.rawBytes key)
  | .label _ => [RawOp.jumpLandPad.toU8]

@[simp] theorem length_rawBytes (key : String → ℕ) (offset : ℕ) (i : Instruction) :
    (i.rawBytes key offset).length = i.size := by
  cases i with
  | abort condition | goto condition label =>
    simp only [rawBytes, size, length_cons, length_append, length_leBytes,
      Condition.length_rawBytes]
    omega
  | bind condition | label id => rfl

theorem rawBytes_congr {offset : ℕ}
    (h : i.All fun symbol => ∀ s, symbol.text = some s → key s = key' s) :
    i.rawBytes key offset = i.rawBytes key' offset := by
  cases i with
  | bind condition | label id => rfl
  | abort condition | goto condition label =>
    rw [rawBytes, rawBytes, Condition.rawBytes_congr h]

end Instruction

def totalSize (instructions : List Instruction) : ℕ := (instructions.map size).sum

@[simp] theorem totalSize_nil : totalSize [] = 0 := rfl

@[simp] theorem totalSize_cons (i : Instruction) (rest : List Instruction) :
    totalSize (i :: rest) = i.size + totalSize rest := by
  simp [totalSize]

@[simp] theorem totalSize_append (a b : List Instruction) :
    totalSize (a ++ b) = totalSize a + totalSize b := by
  simp [totalSize]

def layOut (key : String → ℕ) (off : ℕ → ℕ → ℕ) : ℕ → List Instruction → List UInt8
  | _, [] => []
  | pos, i :: rest =>
    i.rawBytes key (i.offset off (pos + i.size)) ++ layOut key off (pos + i.size) rest

section LayOut

variable {off off' : ℕ → ℕ → ℕ} {instructions : List Instruction}

@[simp] theorem length_layOut (pos : ℕ) (instructions : List Instruction) :
    (layOut key off pos instructions).length = totalSize instructions := by
  induction instructions generalizing pos with
  | nil => rfl
  | cons i rest ih =>
    rw [layOut, length_append, length_rawBytes, ih, totalSize_cons]

theorem layOut_append (pos : ℕ) (a b : List Instruction) :
    layOut key off pos (a ++ b) =
      layOut key off pos a ++ layOut key off (pos + totalSize a) b := by
  induction a generalizing pos with
  | nil => rfl
  | cons i rest ih =>
    rw [cons_append, layOut, layOut, ih, append_assoc, totalSize_cons, Nat.add_assoc]

/-- The bytes depend on the keys of the strings that occur only. -/
theorem layOut_congr_key (pos : ℕ)
    (h : ∀ i ∈ instructions, i.All fun symbol => ∀ s, symbol.text = some s → key s = key' s) :
    layOut key off pos instructions = layOut key' off pos instructions := by
  induction instructions generalizing pos with
  | nil => rfl
  | cons i rest ih =>
    rw [layOut, layOut, rawBytes_congr (h i (mem_cons_self ..)),
      ih _ (forall_mem_cons.mp h).2]

/-- The bytes depend on the offsets of the labels that are jumped to only. -/
theorem layOut_congr_off (pos : ℕ)
    (h : ∀ condition label, .goto condition label ∈ instructions → ∀ stop,
      off label stop = off' label stop) :
    layOut key off pos instructions = layOut key off' pos instructions := by
  induction instructions generalizing pos with
  | nil => rfl
  | cons i rest ih =>
    have hoffset : i.offset off (pos + i.size) = i.offset off' (pos + i.size) := by
      cases i with
      | goto condition label => exact h condition label (mem_cons_self ..) _
      | abort condition | bind condition | label id => rfl
    rw [layOut, layOut, hoffset, ih _ fun c l hl => h c l (mem_cons_of_mem _ hl)]

end LayOut

def labelIndex (label : ℕ) : ℕ → List Instruction → Option ℕ
  | _, [] => none
  | pos, .label id :: rest => if id = label then some pos else labelIndex label (pos + 1) rest
  | pos, i :: rest => labelIndex label (pos + i.size) rest

def usages (label : ℕ) : ℕ → List Instruction → List JumpInstructionOffsetInfo
  | _, [] => []
  | pos, .goto condition target :: rest =>
    if target = label then
      ⟨pos + 1, 4 + condition.width⟩ :: usages label (pos + (5 + condition.width)) rest
    else usages label (pos + (5 + condition.width)) rest
  | pos, i :: rest => usages label (pos + i.size) rest

theorem labelIndex_append (label pos : ℕ) (a b : List Instruction) :
    labelIndex label pos (a ++ b) =
      (labelIndex label pos a).or (labelIndex label (pos + totalSize a) b) := by
  induction a generalizing pos with
  | nil => rfl
  | cons i rest ih =>
    cases i with
    | label id =>
      rw [cons_append, labelIndex, labelIndex]
      by_cases hid : id = label
      · rw [if_pos hid, if_pos hid, Option.some_or]
      · rw [if_neg hid, if_neg hid, ih, totalSize_cons, Nat.add_assoc, size]
    | abort condition | bind condition | goto condition target =>
      simp only [cons_append, labelIndex, ih, totalSize_cons, Nat.add_assoc]

theorem usages_append (label pos : ℕ) (a b : List Instruction) :
    usages label pos (a ++ b) = usages label pos a ++ usages label (pos + totalSize a) b := by
  induction a generalizing pos with
  | nil => rfl
  | cons i rest ih =>
    cases i with
    | goto condition target =>
      rw [cons_append, usages, usages, totalSize_cons, size,
        ← Nat.add_assoc pos (5 + condition.width)]
      by_cases htarget : target = label
      · rw [if_pos htarget, if_pos htarget, ih, cons_append]
      · rw [if_neg htarget, if_neg htarget, ih]
    | abort condition | bind condition | label id =>
      simp only [cons_append, usages, ih, totalSize_cons, Nat.add_assoc]

def InRange (target : ℕ) (label pos : ℕ) (instructions : List Instruction) : Prop :=
  ∀ a condition b, instructions = a ++ .goto condition label :: b →
    target - (pos + totalSize a + (5 + condition.width)) < 4294967296

theorem InRange.cons {target label pos : ℕ} {rest : List Instruction}
    (h : InRange target label (pos + i.size) rest)
    (hi : ∀ condition, i = .goto condition label →
      target - (pos + (5 + condition.width)) < 4294967296) :
    InRange target label pos (i :: rest) := by
  intro a condition b heq
  cases a with
  | nil =>
    obtain ⟨rfl, -⟩ := List.cons.inj heq
    simpa using hi condition rfl
  | cons j a =>
    obtain ⟨rfl, hrest⟩ := List.cons.inj heq
    have hfits := h a condition b hrest
    rw [totalSize_cons]
    omega

/-- Filling in the offsets of the jumps to one label. -/
theorem patchUsages_spec {off : ℕ → ℕ → ℕ} {label target : ℕ} :
    ∀ (instructions : List Instruction) (pos : ℕ) (front bytecode : List UInt8),
      front.length = pos →
      patchUsages label target (usages label pos instructions)
        (front ++ layOut key off pos instructions) = .ok bytecode →
      bytecode = front ++ layOut key (update off label fun stop => target - stop) pos
        instructions ∧ InRange target label pos instructions := by
  intro instructions
  induction instructions with
  | nil =>
    intro pos front bytecode _ h
    cases h
    exact ⟨rfl, fun a condition b heq => by simp at heq⟩
  | cons i rest ih =>
    intro pos front bytecode hlen h
    -- the part of the bytes up to the end of this instruction is final
    have hrest : ∀ bytes : List UInt8, bytes.length = i.size →
        bytes = i.rawBytes key (i.offset (update off label fun stop => target - stop)
          (pos + i.size)) →
        patchUsages label target (usages label (pos + i.size) rest)
          (front ++ (bytes ++ layOut key off (pos + i.size) rest)) = .ok bytecode →
        bytecode = front ++ layOut key (update off label fun stop => target - stop) pos
          (i :: rest) ∧ InRange target label (pos + i.size) rest := by
      intro bytes hbytes hfinal hpatch
      rw [← append_assoc] at hpatch
      obtain ⟨heq, hrange⟩ := ih (pos + i.size) (front ++ bytes) bytecode
        (by rw [length_append]; omega) hpatch
      rw [layOut, ← hfinal, heq, append_assoc]
      exact ⟨rfl, hrange⟩
    rw [layOut] at h
    cases i with
    | abort condition | bind condition | label id =>
      obtain ⟨heq, hrange⟩ := hrest _ (length_rawBytes ..) rfl h
      exact ⟨heq, hrange.cons nofun⟩
    | goto condition id =>
      rw [usages] at h
      by_cases hid : id = label
      · subst hid
        rw [if_pos rfl, patchUsages] at h
        split at h
        · cases h
        next hfits =>
        have hdiff : target - (pos + 1) - (4 + condition.width) =
            target - (pos + (5 + condition.width)) := by omega
        rw [hdiff] at h hfits
        have hsplice : splice (front ++ (rawBytes key
            (offset off (pos + (5 + condition.width)) (.goto condition id))
            (.goto condition id) ++ layOut key off (pos + (5 + condition.width)) rest)) (pos + 1)
            (leBytes 4 (target - (pos + (5 + condition.width)))) =
            front ++ (rawBytes key (target - (pos + (5 + condition.width)))
              (.goto condition id) ++ layOut key off (pos + (5 + condition.width)) rest) := by
          have hfront : (front ++ [condition.jumpOp.toU8]).length = pos + 1 := by
            rw [length_append, hlen, length_singleton]
          have hsame : ∀ old new tail : List UInt8, old.length = new.length →
              splice (front ++ [condition.jumpOp.toU8] ++ (old ++ tail)) (pos + 1) new =
                front ++ [condition.jumpOp.toU8] ++ (new ++ tail) := by
            intro old new tail hwidth
            rw [← hfront, splice_append hwidth]
          have hoffset := hsame (leBytes 4 (off id (pos + (5 + condition.width))))
            (leBytes 4 (target - (pos + (5 + condition.width))))
            (condition.rawBytes key ++ layOut key off (pos + (5 + condition.width)) rest)
            (by rw [length_leBytes, length_leBytes])
          simpa only [rawBytes, offset, append_assoc,
            cons_append, nil_append] using hoffset
        rw [size] at h
        rw [hsplice] at h
        obtain ⟨heq, hrange⟩ := hrest _ (length_rawBytes ..)
          (by rw [offset, update_self, size]) h
        refine ⟨heq, hrange.cons ?_⟩
        intro condition' hgoto
        cases hgoto
        omega
      · rw [if_neg hid] at h
        obtain ⟨heq, hrange⟩ := hrest _ (length_rawBytes ..)
          (by rw [offset, offset, update_of_ne hid]) h
        refine ⟨heq, hrange.cons ?_⟩
        intro condition' hgoto
        cases hgoto
        exact absurd rfl hid

end Smos.Bind
