import Smos.Log.Encode
import Smos.Log.Parse

/-!
Encoding a record and parsing it back.

What the encoder writes is given by a function on records.  The parser skips the padding of a
string by the length of what remains, which is a multiple of eight at the start of each string.
-/
namespace Smos.Log

open Lib Lib.Bytes Lib.Result Header Encoder List Nat

section Layout

def pad (bytes : List UInt8) : List UInt8 :=
  bytes ++ List.replicate ((8 - bytes.length % 8) % 8) 0

theorem length_pad (bytes : List UInt8) :
    (pad bytes).length = bytes.length + (8 - bytes.length % 8) % 8 := by
  rw [pad, length_append, length_replicate]

theorem length_pad_mod (bytes : List UInt8) : (pad bytes).length % 8 = 0 := by
  rw [length_pad]
  omega

def valueBytes : Value → List UInt8
  | .signedInt n | .unsignedInt n | .floating n => leBytes 8 n.toNat
  | .boolean _ => []
  | .text s => pad (utf8 s)

theorem length_valueBytes_mod (value : Value) : (valueBytes value).length % 8 = 0 := by
  cases value with
  | text s => exact length_pad_mod _
  | boolean b => rfl
  | _ => simp [valueBytes]

def valueHeader (header : Header) : Value → Header
  | .signedInt _ => header.setType ArgType.i64.toNat
  | .unsignedInt _ => header.setType ArgType.u64.toNat
  | .floating _ => header.setType ArgType.f64.toNat
  | .boolean b => (header.setType ArgType.bool.toNat).setBoolVal b
  | .text s => (header.setType ArgType.string.toNat).setValueRef (Encoder.stringMask s)

def argumentBody (argument : Argument) : List UInt8 :=
  pad (utf8 argument.name) ++ valueBytes argument.value

def argumentHeader (argument : Argument) : Header :=
  (valueHeader ((0 : Header).setNameRef (Encoder.stringMask argument.name))
    argument.value).setSizeWords ((8 + (argumentBody argument).length) / 8 % 2 ^ 16)

def argumentBytes (argument : Argument) : List UInt8 :=
  leBytes 8 (argumentHeader argument).toNat ++ argumentBody argument

def argumentsBytes (arguments : List Argument) : List UInt8 := arguments.flatMap argumentBytes

def recordHeader (record : Record) : Header :=
  (((0 : Header).setType Constants.tracingFormatLogRecordType).setSeverity
    record.severity).setSizeWords ((16 + (argumentsBytes record.arguments).length) / 8 % 2 ^ 16)

def recordBytes (record : Record) : List UInt8 :=
  leBytes 8 (recordHeader record).toNat ++
    (leBytes 8 record.timestamp.toNat ++ argumentsBytes record.arguments)

theorem length_argumentBody_mod (argument : Argument) :
    (argumentBody argument).length % 8 = 0 := by
  rw [argumentBody, length_append]
  have hname := length_pad_mod (utf8 argument.name)
  have hvalue := length_valueBytes_mod argument.value
  omega

theorem length_argumentBytes (argument : Argument) :
    (argumentBytes argument).length = 8 + (argumentBody argument).length := by
  rw [argumentBytes, length_append, length_leBytes]

theorem length_argumentsBytes_mod (arguments : List Argument) :
    (argumentsBytes arguments).length % 8 = 0 := by
  induction arguments with
  | nil => rfl
  | cons argument arguments ih =>
    have hbody := length_argumentBody_mod argument
    have hlength := length_argumentBytes argument
    simp only [argumentsBytes, flatMap_cons, length_append] at ih ⊢
    omega

end Layout

namespace Encoder

variable {buf : Buffer} {written src : List UInt8} {room : ℕ}

/-- The buffer holds what was written, then zeros, and the cursor is between them. -/
structure Holds (buf : Buffer) (written : List UInt8) (room : ℕ) : Prop where
  bytes : buf.bytes = written ++ List.replicate room 0
  position : buf.position = written.length

def Appends {α : Type} (m : Encoder α) (src : List UInt8) (result : α) : Prop :=
  ∀ buf written room, Holds buf written room → src.length ≤ room →
    ∃ buf', m buf = some (.ok result, buf') ∧ Holds buf' (written ++ src) (room - src.length)

theorem Appends.bind {α β : Type} {m : Encoder α} {f : α → Encoder β} {src' : List UInt8} {a : α}
    {b : β} (hm : Appends m src a) (hf : Appends (f a) src' b) :
    Appends (m >>= f) (src ++ src') b := by
  intro buf written room hbuf hroom
  rw [length_append] at hroom
  obtain ⟨buf₁, hrun₁, hbuf₁⟩ := hm buf written room hbuf (by omega)
  obtain ⟨buf₂, hrun₂, hbuf₂⟩ := hf buf₁ _ _ hbuf₁ (by omega)
  refine ⟨buf₂, (Fallible.bind_ok hrun₁).trans hrun₂, ?_⟩
  rw [← append_assoc, length_append, ← Nat.sub_sub]
  exact hbuf₂

theorem appends_pure {α : Type} (a : α) : Appends (pure a) [] a := by
  intro buf written room hbuf _
  refine ⟨buf, rfl, ?_⟩
  rw [append_nil]
  exact hbuf

/-- Skipping over zeros writes zeros. -/
theorem Holds.skip (h : Holds buf written room) {n : ℕ} (hn : n ≤ room) :
    Holds { buf with position := buf.position + n } (written ++ replicate n 0)
      (room - n) where
  bytes := by
    rw [append_assoc, replicate_append_replicate, Nat.add_sub_cancel' hn]
    exact h.bytes
  position := by
    rw [length_append, length_replicate, h.position]

theorem appends_advanceCursor (n : ℕ) : Appends (advanceCursor n) (replicate n 0) () := by
  intro buf written room hbuf hroom
  rw [length_replicate] at hroom ⊢
  exact ⟨_, rfl, hbuf.skip hroom⟩

/-- Overwriting zeros after what was written. -/
theorem Holds.overwrite (h : Holds buf written room) (hroom : src.length ≤ room) :
    splice buf.bytes buf.position src = written ++ src ++ replicate (room - src.length) 0 := by
  have hsplit : replicate room (0 : UInt8) =
      replicate src.length 0 ++ replicate (room - src.length) 0 := by
    rw [replicate_append_replicate, Nat.add_sub_cancel' hroom]
  rw [h.bytes, h.position, hsplit, splice_append length_replicate, append_assoc]

theorem appends_writeSlice (src : List UInt8) : Appends (writeSlice src) src () := by
  intro buf written room hbuf hroom
  have hlength : buf.bytes.length = written.length + room := by
    rw [hbuf.bytes, length_append, length_replicate]
  have hremaining : hasRemaining buf src.length = true := by
    rw [hasRemaining, decide_eq_true_iff, hbuf.position]
    omega
  have hfits : buf.position + src.length ≤ buf.bytes.length := by
    rw [hbuf.position]
    omega
  have hput : putSliceAt src buf.position buf =
      some (.ok (), { buf with bytes := splice buf.bytes buf.position src }) := if_pos hfits
  refine ⟨⟨splice buf.bytes buf.position src, buf.position + src.length⟩, ?_,
    hbuf.overwrite hroom, ?_⟩
  · have hrun : putSlice src buf =
        some (.ok (), ⟨splice buf.bytes buf.position src, buf.position + src.length⟩) := by
      rw [putSlice, if_pos hremaining, Fallible.bind_ok hput]
      rfl
    rw [writeSlice, hrun]
  · rw [length_append, hbuf.position]

theorem appends_write64 (n : BitVec 64) : Appends (write64 n) (leBytes 8 n.toNat) () :=
  appends_writeSlice _

theorem appends_writeBytes (src : List UInt8) : Appends (writeBytes src) (pad src) () :=
  (appends_writeSlice src).bind (appends_advanceCursor _)

theorem appends_writeValue (header : Header) (value : Value) :
    Appends (writeValue header value) (valueBytes value) (valueHeader header value) := by
  cases value with
  | boolean b => exact appends_pure _
  | text s =>
    rw [← append_nil (valueBytes (.text s))]
    exact (appends_writeBytes _).bind (appends_pure _)
  | _ =>
    exact (appends_write64 _).bind (appends_pure _)

/-- Filling the slot before what was written after it. -/
theorem fillSlot_run {front rest : List UInt8} (h : Holds buf (front ++ replicate 8 0 ++ rest) room)
    (hsrc : src.length = 8) :
    ∃ buf', fillSlot ⟨front.length, front.length + 8⟩ src buf = some (.ok (), buf') ∧
      Holds buf' (front ++ (src ++ rest)) room := by
  have hsplice : splice buf.bytes front.length src =
      front ++ (src ++ rest) ++ replicate room 0 := by
    rw [h.bytes, append_assoc, append_assoc,
      splice_append (by rw [length_replicate, hsrc]), append_assoc, append_assoc]
  have hfits : front.length + src.length ≤ buf.bytes.length := by
    rw [h.bytes]
    simp only [length_append, length_replicate]
    omega
  have hlength : ¬ src.length ≠ front.length + 8 - front.length := by omega
  refine ⟨{ buf with bytes := splice buf.bytes front.length src }, ?_, hsplice, ?_⟩
  · rw [fillSlot, if_neg hlength]
    exact if_pos hfits
  · rw [h.position]
    simp only [length_append, length_replicate, hsrc]
    omega

/-- A header is filled into its slot once what it precedes was written. -/
theorem appends_withHeader {α : Type} {callback : Encoder α} {body : List UInt8} {result : α}
    (final : α → ℕ → Header) (hbody : body.length % 8 = 0)
    (hcallback : Appends callback body result) :
    Appends (do
      let startingIdx ← cursor
      let headerSlot ← putSlot 8
      let result ← callback
      let stop ← cursor
      if (stop - startingIdx) % 8 ≠ 0 then Fallible.abort
      else fillSlot headerSlot (leBytes 8 (final result (stop - startingIdx)).toNat))
      (leBytes 8 (final result (8 + body.length)).toNat ++ body) () := by
  intro buf written room hbuf hroom
  rw [length_append, length_leBytes] at hroom
  have hremaining : hasRemaining buf 8 = true := by
    rw [hasRemaining, decide_eq_true_iff, hbuf.position, hbuf.bytes, length_append,
      length_replicate]
    omega
  have hslot : putSlot 8 buf = some (.ok ⟨written.length, written.length + 8⟩,
      { buf with position := buf.position + 8 }) := by
    rw [putSlot, if_pos hremaining, hbuf.position]
  obtain ⟨buf₁, hrun, hbuf₁⟩ := hcallback _ _ _ (hbuf.skip (by omega : 8 ≤ room)) (by omega)
  have hstop : buf₁.position - buf.position = 8 + body.length := by
    rw [hbuf₁.position, hbuf.position]
    simp only [length_append, length_replicate]
    omega
  obtain ⟨buf₂, hfill, hbuf₂⟩ := fillSlot_run hbuf₁
    (length_leBytes 8 (final result (8 + body.length)).toNat)
  refine ⟨buf₂, ?_, ?_⟩
  · change (putSlot 8 >>= _) buf = _
    rw [Fallible.bind_ok hslot, Fallible.bind_ok hrun]
    change (if (buf₁.position - buf.position) % 8 ≠ 0 then _ else _ : Encoder Unit) buf₁ = _
    rw [hstop, if_neg (by omega)]
    exact hfill
  · rw [length_append, ← Nat.sub_sub]
    exact hbuf₂

theorem appends_writeArgument (argument : Argument) :
    Appends (writeArgument argument) (argumentBytes argument) () := by
  have hcallback : Appends
      (writeArgumentName 0 argument.name >>= fun header => writeValue header argument.value)
      (argumentBody argument)
      (valueHeader ((0 : Header).setNameRef (stringMask argument.name)) argument.value) := by
    refine Appends.bind ?_ (appends_writeValue _ argument.value)
    rw [← append_nil (pad (utf8 argument.name))]
    exact (appends_writeBytes _).bind (appends_pure _)
  have hwith := appends_withHeader
    (fun header length => header.setSizeWords (length / 8 % 2 ^ 16))
    (length_argumentBody_mod argument) hcallback
  exact hwith

theorem appends_writeArguments (arguments : List Argument) :
    Appends (writeArguments arguments) (argumentsBytes arguments) () := by
  induction arguments with
  | nil => exact appends_pure ()
  | cons argument arguments ih => exact (appends_writeArgument argument).bind ih

theorem appends_writeRecord (record : Record) :
    Appends (writeRecord record) (recordBytes record) () := by
  have hbody : (leBytes 8 record.timestamp.toNat ++
      argumentsBytes record.arguments).length % 8 = 0 := by
    rw [length_append, length_leBytes]
    have hargs := length_argumentsBytes_mod record.arguments
    omega
  have hwith := appends_withHeader
    (fun _ length => (((0 : Header).setType Constants.tracingFormatLogRecordType).setSeverity
      record.severity).setSizeWords (length / 8 % 2 ^ 16)) hbody
    ((appends_write64 record.timestamp).bind (f := fun _ => writeArguments record.arguments)
      (appends_writeArguments record.arguments))
  simp only [Fallible.bind_assoc] at hwith
  rw [length_append, ← Nat.add_assoc] at hwith
  exact hwith

end Encoder

section Parser

variable {fromUtf8Lossy : List UInt8 → String} {rest : List UInt8} {argument : Argument}
  {s : String}

/-- The field of a string of less than 32768 bytes that is not empty. -/
theorem stringMask_eq (hpos : 0 < (utf8 s).length) (hlt : (utf8 s).length < 2 ^ 15) :
    stringMask s = 2 ^ 15 + (utf8 s).length := by
  have hor := two_pow_add_eq_or_of_lt hlt 1
  rw [Nat.mul_one] at hor
  rw [stringMask, if_neg hpos.ne', mod_eq_of_lt (by omega), one_shiftLeft,
    Nat.or_comm, hor]

theorem stringMask_lt (hlt : (utf8 s).length < 2 ^ 15) :
    stringMask s < 2 ^ 16 := by
  rcases Nat.eq_zero_or_pos (utf8 s).length with hzero | hpos
  · rw [stringMask, if_pos hzero]
    decide
  · rw [stringMask_eq hpos hlt]
    omega

theorem fromUtf8_utf8 (s : String) : fromUtf8 (utf8 s) = some s :=
  dif_pos s.isValidUTF8

theorem drop_padding (bytes : List UInt8) (hrest : rest.length % 8 = 0) :
    ((pad bytes ++ rest).drop bytes.length).drop
      (((pad bytes ++ rest).drop bytes.length).length % 8) = rest := by
  have hdrop : (pad bytes ++ rest).drop bytes.length =
      replicate ((8 - bytes.length % 8) % 8) 0 ++ rest := by
    rw [pad, append_assoc, drop_left]
  have hlength : (replicate ((8 - bytes.length % 8) % 8) (0 : UInt8) ++ rest).length % 8 =
      (replicate ((8 - bytes.length % 8) % 8) (0 : UInt8)).length := by
    rw [length_append, length_replicate]
    omega
  rw [hdrop, hlength, drop_left]

/-- A padded string is read back, and its padding is skipped. -/
theorem stringRef_pad (hlossy : ∀ s, fromUtf8Lossy (utf8 s) = s)
    (hlt : (utf8 s).length < 2 ^ 15) (hrest : rest.length % 8 = 0) (lossy : Bool) :
    stringRef fromUtf8Lossy (stringMask s) (pad (utf8 s) ++ rest) lossy =
      .ok (s, rest) := by
  rcases Nat.eq_zero_or_pos (utf8 s).length with hzero | hpos
  · have hnil : utf8 s = [] := length_eq_zero_iff.mp hzero
    have hs : s = "" := by
      have hsome := fromUtf8_utf8 s
      rw [hnil] at hsome
      exact (Option.some.inj hsome).symm
    rw [stringRef, stringMask, if_pos hzero, hs]
    rfl
  · rw [stringMask_eq hpos hlt]
    have hne : ¬ 2 ^ 15 + (utf8 s).length = 0 := by omega
    have hbit : ¬ (2 ^ 15 + (utf8 s).length) &&& 1 <<< 15 = 0 := by
      rw [one_shiftLeft, and_two_pow]
      have htest : (2 ^ 15 + (utf8 s).length).testBit 15 = true := by
        rw [testBit_two_pow_add_eq, testBit_lt_two_pow hlt]
        rfl
      rw [htest]
      decide
    have hlen : (2 ^ 15 + (utf8 s).length) &&& (2 ^ 15 - 1) = (utf8 s).length := by
      rw [and_two_pow_sub_one_eq_mod, add_mod_left, mod_eq_of_lt hlt]
    have hfits : ¬ (pad (utf8 s) ++ rest).length < (utf8 s).length := by
      rw [length_append, length_pad]
      omega
    have htake : (pad (utf8 s) ++ rest).take (utf8 s).length = utf8 s := by
      rw [pad, append_assoc, take_left]
    have hparsed : (if lossy then some (fromUtf8Lossy (utf8 s)) else fromUtf8 (utf8 s)) =
        some s := by
      cases lossy with
      | true => rw [if_pos rfl, hlossy]
      | false => exact fromUtf8_utf8 s
    simp only [stringRef, if_neg hne, if_neg hbit, hlen, if_neg hfits, htake, hparsed,
      drop_padding _ hrest]

theorem read64_leBytes {error : ParseError} (n : BitVec 64) :
    read64 error (leBytes 8 n.toNat ++ rest) = .ok (n, rest) := by
  have hlength : ¬ (leBytes 8 n.toNat ++ rest).length < 8 := by
    rw [length_append, length_leBytes]
    omega
  have hof : ofLE (leBytes 8 n.toNat) = n.toNat := ofLE_leBytes_of_lt n.isLt
  have htake : (leBytes 8 n.toNat ++ rest).take 8 = leBytes 8 n.toNat :=
    take_left' (length_leBytes 8 _)
  have hdrop : (leBytes 8 n.toNat ++ rest).drop 8 = rest := drop_left' (length_leBytes 8 _)
  rw [read64, if_neg hlength, htake, hdrop, hof, BitVec.ofNat_toNat, BitVec.setWidth_eq]

def argType : Value → ArgType
  | .signedInt _ => .i64
  | .unsignedInt _ => .u64
  | .floating _ => .f64
  | .boolean _ => .bool
  | .text _ => .string

theorem tryFrom_argType (value : Value) :
    ArgType.tryFrom (argType value).toNat = some (argType value) := by
  cases value <;> rfl

/-- A field that no value sets keeps its contents. -/
theorem get_valueHeader {header : Header} {f : Inspect.BitField} (value : Value) (hf : f.Proper)
    (htype : f.Apart rawTypeField) (hbool : f.Apart boolValField)
    (hvalue : f.Apart valueRefField) : f.get (valueHeader header value) = f.get header := by
  cases value with
  | boolean b =>
    exact (get_setField_of_apart ⟨hf, by decide, hbool⟩).trans
      (get_setField_of_apart ⟨hf, by decide, htype⟩)
  | text s =>
    exact (get_setField_of_apart ⟨hf, by decide, hvalue⟩).trans
      (get_setField_of_apart ⟨hf, by decide, htype⟩)
  | _ => exact get_setField_of_apart ⟨hf, by decide, htype⟩

theorem nameRef_argumentHeader
    (hname : (utf8 argument.name).length < 2 ^ 15) :
    nameRef (argumentHeader argument) = stringMask argument.name := by
  refine (get_setField_of_apart (by decide)).trans ?_
  refine (get_valueHeader _ (by decide) (by decide) (by decide) (by decide)).trans ?_
  refine (get_setField_self (by decide)).trans ?_
  exact mod_eq_of_lt (stringMask_lt hname)

theorem rawType_argumentHeader (argument : Argument) :
    rawType (argumentHeader argument) = (argType argument.value).toNat := by
  refine (get_setField_of_apart (by decide)).trans ?_
  cases argument.value with
  | boolean b | text s =>
    exact (get_setField_of_apart (by decide)).trans (get_setField_self (by decide))
  | _ => exact get_setField_self (by decide)

theorem valueRef_argumentHeader
    (hvalue : argument.value = .text s) (hlt : (utf8 s).length < 2 ^ 15) :
    valueRef (argumentHeader argument) = stringMask s := by
  refine (get_setField_of_apart (by decide)).trans ?_
  rw [hvalue]
  refine (get_setField_self (by decide)).trans ?_
  exact mod_eq_of_lt (stringMask_lt hlt)

theorem boolVal_argumentHeader {b : Bool}
    (hvalue : argument.value = .boolean b) : boolVal (argumentHeader argument) = b := by
  have hget : boolValField.get (argumentHeader argument) = b.toNat := by
    refine (get_setField_of_apart (by decide)).trans ?_
    rw [hvalue]
    refine (get_setField_self (by decide)).trans ?_
    cases b <;> rfl
  rw [boolVal, hget]
  cases b <;> rfl

/-- The name and the text of an argument are shorter than 32768 bytes. -/
structure Short (argument : Argument) : Prop where
  name : (utf8 argument.name).length < 2 ^ 15
  text : ∀ s, argument.value = .text s → (utf8 s).length < 2 ^ 15

section

variable (hlossy : ∀ s, fromUtf8Lossy (utf8 s) = s)
include hlossy

theorem parseValue_valueBytes
    (hshort : Short argument) (hrest : rest.length % 8 = 0) (inMessage : Bool) :
    parseValue fromUtf8Lossy (argumentHeader argument) (argType argument.value)
      (valueBytes argument.value ++ rest) inMessage = .ok (argument.value, rest) := by
  cases hvalue : argument.value with
  | boolean b =>
    simp only [parseValue, argType, valueBytes, boolVal_argumentHeader hvalue, nil_append]
  | text s =>
    have hlt := hshort.text s hvalue
    simp only [parseValue, argType, valueBytes, valueRef_argumentHeader hvalue hlt,
      stringRef_pad hlossy hlt hrest]
    rfl
  | _ =>
    simp only [parseValue, argType, valueBytes, read64_leBytes]
    rfl

/-- An argument is read back, whatever the state of the parser. -/
theorem parseArgumentInternal_argumentBytes (hshort : Short argument) (hrest : rest.length % 8 = 0)
    (state : ParseState) :
    ∃ state', parseArgumentInternal fromUtf8Lossy (argumentBytes argument ++ rest) state =
      .ok (Argument.new argument.name argument.value, rest, state') := by
  have hafter : (valueBytes argument.value ++ rest).length % 8 = 0 := by
    rw [length_append]
    have hvalue := length_valueBytes_mod argument.value
    omega
  have hname : stringRef fromUtf8Lossy (nameRef (argumentHeader argument))
      (pad (utf8 argument.name) ++ (valueBytes argument.value ++ rest)) false =
        .ok (argument.name, valueBytes argument.value ++ rest) := by
    rw [nameRef_argumentHeader hshort.name]
    exact stringRef_pad hlossy hshort.name hafter false
  have hbytes : argumentBytes argument ++ rest = leBytes 8 (argumentHeader argument).toNat ++
      (pad (utf8 argument.name) ++ (valueBytes argument.value ++ rest)) := by
    simp only [argumentBytes, argumentBody, append_assoc]
  rw [hbytes]
  rw [parseArgumentInternal, read64_leBytes]
  apply Exists.intro
  refine bind_eq_ok.mpr ⟨_, rfl, ?_⟩
  simp only [rawType_argumentHeader, tryFrom_argType]
  exact bind_eq_ok.mpr ⟨_, hname, bind_eq_ok.mpr
    ⟨_, parseValue_valueBytes hlossy hshort hrest _, rfl⟩⟩

theorem parseArguments_argumentsBytes
    {arguments : List Argument} (hshort : ∀ a ∈ arguments, Short a) {fuel : ℕ}
    (hfuel : arguments.length ≤ fuel) (state : ParseState) :
    parseArguments fromUtf8Lossy fuel (argumentsBytes arguments) state =
      .ok (arguments.map fun a => Argument.new a.name a.value) := by
  induction arguments generalizing fuel state with
  | nil => cases fuel <;> rfl
  | cons argument arguments ih =>
    cases fuel with
    | zero => cases hfuel
    | succ fuel =>
      obtain ⟨state', hparse⟩ := parseArgumentInternal_argumentBytes hlossy
        (hshort argument mem_cons_self) (length_argumentsBytes_mod arguments) state
      have hrest := @ih (forall_mem_cons.mp hshort).2 fuel
        (le_of_succ_le_succ hfuel) state'
      exact bind_eq_ok.mpr ⟨_, hparse, bind_eq_ok.mpr ⟨_, hrest, rfl⟩⟩

end

theorem length_le_length_argumentsBytes (arguments : List Argument) :
    arguments.length ≤ (argumentsBytes arguments).length := by
  induction arguments with
  | nil => exact Nat.le_refl 0
  | cons argument arguments ih =>
    have hlength := length_argumentBytes argument
    simp only [argumentsBytes, flatMap_cons, length_append, length_cons] at ih ⊢
    omega

theorem sizeWords_recordHeader {record : Record} (hsize : (recordBytes record).length ≤ 4095 * 8) :
    sizeWords (recordHeader record) * 8 = 16 + (argumentsBytes record.arguments).length := by
  simp only [recordBytes, length_append, length_leBytes] at hsize
  have hmod := length_argumentsBytes_mod record.arguments
  have hget : sizeWords (recordHeader record) =
      (16 + (argumentsBytes record.arguments).length) / 8 % 2 ^ 16 % 2 ^ 12 :=
    get_setField_self (by decide)
  omega

theorem rawType_recordHeader (record : Record) :
    rawType (recordHeader record) = Constants.tracingFormatLogRecordType := by
  refine (get_setField_of_apart (by decide)).trans ?_
  refine (get_setField_of_apart (by decide)).trans ?_
  exact get_setField_self (by decide)

theorem severity_recordHeader (record : Record) :
    severity (recordHeader record) = record.severity := by
  have hget : severityField.get (recordHeader record) = record.severity.toNat := by
    refine (get_setField_of_apart (by decide)).trans ?_
    refine (get_setField_self (by decide)).trans ?_
    exact mod_eq_of_lt record.severity.isLt
  rw [severity, hget, BitVec.ofNat_toNat, BitVec.setWidth_eq]

theorem parseRecord_recordBytes (hlossy : ∀ s, fromUtf8Lossy (utf8 s) = s) {record : Record}
    (hshort : ∀ a ∈ record.arguments, Short a)
    (hsize : (recordBytes record).length ≤ 4095 * 8) (further : List UInt8) :
    parseRecord fromUtf8Lossy (recordBytes record ++ further) =
      .ok ({ record with
        arguments := record.arguments.map fun a => Argument.new a.name a.value }, further) := by
  have hwords := sizeWords_recordHeader hsize
  have hargs : (sizeWords (recordHeader record) - 2) * 8 =
      (argumentsBytes record.arguments).length := by
    omega
  have htwo : ¬ sizeWords (recordHeader record) < 2 := by omega
  have hfits : ¬ (argumentsBytes record.arguments ++ further).length <
      (argumentsBytes record.arguments).length := by
    rw [length_append]
    omega
  have htype : ¬ rawType (recordHeader record) ≠ Constants.tracingFormatLogRecordType :=
    fun hne => hne (rawType_recordHeader record)
  have hparse := parseArguments_argumentsBytes hlossy hshort
    (length_le_length_argumentsBytes record.arguments) .initial
  have hbytes : recordBytes record ++ further = leBytes 8 (recordHeader record).toNat ++
      (leBytes 8 record.timestamp.toNat ++ (argumentsBytes record.arguments ++ further)) := by
    simp only [recordBytes, append_assoc]
  rw [hbytes]
  refine bind_eq_ok.mpr ⟨_, read64_leBytes _, ?_⟩
  simp only [if_neg htype]
  refine bind_eq_ok.mpr ⟨_, read64_leBytes _, ?_⟩
  simp only [if_neg htwo, hargs, if_neg hfits, take_left, drop_left]
  refine bind_eq_ok.mpr ⟨_, hparse, ?_⟩
  rw [severity_recordHeader]
  rfl

end Parser

/-- A record whose strings are shorter than 32768 bytes and whose encoding has at most 4095 words
is written to a buffer with room for it, and parsing what was written, with any bytes after it,
gives the record back, each argument rebuilt from its name and value, and the bytes after it. -/
theorem writeRecord_parseRecord {fromUtf8Lossy : List UInt8 → String}
    (hlossy : ∀ s, fromUtf8Lossy (utf8 s) = s) {record : Record}
    (hshort : ∀ a ∈ record.arguments, Short a)
    (hsize : (recordBytes record).length ≤ 4095 * 8) {buf : Buffer} {written : List UInt8}
    {room : ℕ} (hbuf : Encoder.Holds buf written room)
    (hroom : (recordBytes record).length ≤ room) :
    ∃ buf', Encoder.writeRecord record buf = some (.ok (), buf') ∧
      ∀ further, parseRecord fromUtf8Lossy
          (slice buf'.bytes buf.position (buf'.position - buf.position) ++ further) =
        .ok ({ record with
          arguments := record.arguments.map fun a => Argument.new a.name a.value }, further) := by
  obtain ⟨buf', hrun, hbuf'⟩ := appends_writeRecord record buf written room hbuf hroom
  refine ⟨buf', hrun, ?_⟩
  intro further
  have hslice : slice buf'.bytes buf.position (buf'.position - buf.position) =
      recordBytes record := by
    rw [hbuf'.bytes, hbuf'.position, hbuf.position, length_append, Nat.add_sub_cancel_left,
      slice_append_left (by rw [length_append]), slice_append_right]
  rw [hslice]
  exact parseRecord_recordBytes hlossy hshort hsize further

def greeting : Record where
  timestamp := 72
  severity := 0x30
  arguments := [.other "message" (.text "hello"), .other "ok" (.boolean true)]

theorem writeRecord_parseRecord_greeting :
    ∃ buf', Encoder.writeRecord greeting ⟨List.replicate 64 0, 0⟩ = some (.ok (), buf') ∧
      ∀ further, parseRecord (fun bytes => (fromUtf8 bytes).getD "")
          (slice buf'.bytes 0 (buf'.position - 0) ++ further) =
        .ok ({ greeting with
          arguments := [.message "hello", .other "ok" (.boolean true)] }, further) := by
  have hbuf : Encoder.Holds ⟨replicate 64 0, 0⟩ [] 64 := ⟨rfl, rfl⟩
  refine writeRecord_parseRecord ?_ ?_ ?_ hbuf ?_
  · intro s
    rw [fromUtf8_utf8]
    rfl
  · intro a ha
    rcases mem_pair.mp ha with rfl | rfl
    · refine ⟨by decide, ?_⟩
      intro s hs
      cases hs
      decide
    · refine ⟨by decide, ?_⟩
      intro s hs
      cases hs
  · decide
  · decide

end Smos.Log
