import Mathlib.Algebra.BigOperators.Ring.List
import Mathlib.Algebra.Ring.Nat
import Smos.Archivist.SharedBuffer
import Smos.Lib.RingBuffer

/-!
The records in the ring.

The history of the ring is the list of all records that were ever put into it; those from some
number on have not been popped, and their bytes are still in the ring.  A record reads back as long
as its header gives its own length.
-/
namespace Smos.Archivist

open Lib Lib.Bytes Log List Function

section Slab

namespace Slab

variable {α : Type} {slab slab' : Slab α} {i j id : ℕ} {a : α}

/-- The free slots are distinct and not in use, and ids fit 32 bits. -/
structure Valid (slab : Slab α) : Prop where
  nodup : slab.freeSlots.Nodup
  unused : ∀ i ∈ slab.freeSlots, slab.slots[i]? = some none
  length_lt : slab.slots.length < 2 ^ 32

section

variable (h : slab.get i = some a)
include h

theorem lt_of_get : i < slab.slots.length := by
  by_contra hge
  rw [get, getElem?_eq_none (Nat.le_of_not_lt hge)] at h
  cases h

theorem getElem?_of_get : slab.slots[i]? = some (some a) := by
  have hlt := lt_of_get h
  rw [get, getElem?_eq_getElem hlt] at h
  rw [getElem?_eq_getElem hlt]
  exact congrArg some h

theorem get_set (b : α) :
    (slab.set i b).get j = if j = i then some b else slab.get j := by
  have hlt := lt_of_get h
  rw [get, set]
  by_cases hij : j = i
  · subst hij
    rw [getElem?_set_self hlt, if_pos rfl]
    rfl
  · rw [getElem?_set_ne (Ne.symm hij), if_neg hij]
    rfl

theorem Valid.set (hslab : slab.Valid) (b : α) : (slab.set i b).Valid := by
  refine ⟨hslab.nodup, ?_, ?_⟩
  · intro j hj
    have hne : i ≠ j := by
      rintro rfl
      have hused := getElem?_of_get h
      rw [hslab.unused i hj] at hused
      cases hused
    exact (getElem?_set_ne hne).trans (hslab.unused j hj)
  · rw [Slab.set, length_set]
    exact hslab.length_lt

theorem free_spec (hslab : slab.Valid) :
    ∃ slab', slab.free i = some slab' ∧ slab'.Valid ∧
      ∀ j, slab'.get j = if j = i then none else slab.get j := by
  have hlt := lt_of_get h
  have hused := getElem?_of_get h
  refine ⟨_, by rw [free, h]; rfl, ⟨?_, ?_, ?_⟩, ?_⟩
  · refine nodup_cons.mpr ⟨fun hmem => ?_, hslab.nodup⟩
    rw [hslab.unused i hmem] at hused
    cases hused
  · intro j hj
    by_cases hij : j = i
    · subst hij
      exact getElem?_set_self hlt
    · have hj' := (mem_cons.mp hj).resolve_left hij
      exact (getElem?_set_ne (Ne.symm hij)).trans (hslab.unused j hj')
  · rw [length_set]
    exact hslab.length_lt
  · intro j
    rw [get]
    by_cases hij : j = i
    · subst hij
      rw [getElem?_set_self hlt, if_pos rfl]
      rfl
    · rw [getElem?_set_ne (Ne.symm hij), if_neg hij]
      rfl

end

theorem insert_spec (hslab : slab.Valid) (h : slab.insert a = some (id, slab')) :
    slab'.Valid ∧ slab.get id = none ∧
      ∀ j, slab'.get j = if j = id then some a else slab.get j := by
  cases hfree : slab.freeSlots with
  | cons i rest =>
    rw [insert, hfree] at h
    cases h
    have hunused := hslab.unused id (by rw [hfree]; exact mem_cons_self)
    have hlt : id < slab.slots.length := (List.getElem?_eq_some_iff.mp hunused).1
    have hnodup := hslab.nodup
    rw [hfree] at hnodup
    obtain ⟨hnot, hrest⟩ := nodup_cons.mp hnodup
    refine ⟨⟨hrest, ?_, ?_⟩, ?_, ?_⟩
    · intro j hj
      have hne : id ≠ j := by
        rintro rfl
        exact hnot hj
      refine (getElem?_set_ne hne).trans (hslab.unused j ?_)
      rw [hfree]
      exact mem_cons_of_mem id hj
    · rw [length_set]
      exact hslab.length_lt
    · rw [get, hunused]
      rfl
    · intro j
      rw [get]
      by_cases hij : j = id
      · subst hij
        rw [getElem?_set_self hlt, if_pos rfl]
        rfl
      · rw [getElem?_set_ne (Ne.symm hij), if_neg hij]
        rfl
  | nil =>
    rw [insert, hfree] at h
    split_ifs at h with hlt
    cases h
    refine ⟨⟨nodup_nil, by simp, ?_⟩, ?_, ?_⟩
    · rw [length_append, length_singleton]
      omega
    · rw [get, getElem?_eq_none (Nat.le_refl _)]
      rfl
    · intro j
      rw [get]
      rcases Nat.lt_trichotomy j slab.slots.length with hj | rfl | hj
      · rw [getElem?_append_left hj, if_neg (by omega)]
        rfl
      · rw [getElem?_concat_length, if_pos rfl]
        rfl
      · rw [getElem?_eq_none (by simp; omega), if_neg (by omega), get,
          getElem?_eq_none (by omega)]

end Slab

end Slab

section Buffer

namespace Buffer

variable {buffer : Buffer} {p q first : ℕ} {data : List UInt8}

@[simp] theorem len_write : (buffer.write p data).len = buffer.len := by
  induction data generalizing buffer p with
  | nil => rfl
  | cons byte data ih =>
    rw [write, ih]

/-- Inside a window as long as the buffer a write changes what it covers and nothing else. -/
theorem bytes_write (hp : first ≤ p) (hend : p + data.length ≤ first + buffer.len)
    (hq : first ≤ q) (hq' : q < first + buffer.len) :
    (buffer.write p data).bytes (q % buffer.len) =
      if p ≤ q then data[q - p]?.getD (buffer.bytes (q % buffer.len))
      else buffer.bytes (q % buffer.len) := by
  induction data generalizing buffer p with
  | nil =>
    split_ifs <;> rfl
  | cons byte data ih =>
    rw [length_cons] at hend
    have hstep := @ih { buffer with bytes := update buffer.bytes (p % buffer.len) byte }
      (p + 1) (by omega) (by change _ ≤ first + buffer.len; omega) hq'
    refine hstep.trans ?_
    rcases Nat.lt_trichotomy q p with hlt | rfl | hlt
    · have hslot : q % buffer.len ≠ p % buffer.len := RingBuffer.mod_ne_mod hlt (by omega)
      rw [if_neg (by omega), if_neg (by omega)]
      exact update_of_ne hslot _ _
    · rw [if_neg (by omega), if_pos (Nat.le_refl _), Nat.sub_self]
      exact update_self _ _ _
    · have hslot : p % buffer.len ≠ q % buffer.len := RingBuffer.mod_ne_mod hlt (by omega)
      have hsub : q - p = q - (p + 1) + 1 := by omega
      rw [if_pos (by omega), if_pos (by omega), hsub]
      congr 1
      exact update_of_ne (Ne.symm hslot) _ _

section

variable {history : List UInt8} (h : RingBuffer.Holds buffer.bytes buffer.len history first)
include h

/-- The bytes of the ring are those of its history. -/
theorem read_eq_slice {n : ℕ} (hp : first ≤ p)
    (hend : p + n ≤ history.length) : buffer.read p n = slice history p n := by
  apply ext_getElem?
  intro i
  rw [getElem?_slice, read, getElem?_map]
  rcases Nat.lt_or_ge i n with hlt | hge
  · obtain ⟨x, hx⟩ : ∃ x, history[p + i]? = some x :=
      ⟨_, getElem?_eq_getElem (by omega)⟩
    rw [getElem?_range hlt, if_pos hlt, hx]
    exact congrArg some (h (p + i) x (by omega) hx)
  · rw [getElem?_eq_none (by rw [length_range]; exact hge), if_neg (by omega)]
    rfl

/-- A record is written behind the history: its contents first, then the word before them. -/
theorem holds_write_write {word : List UInt8} (hfirst : first ≤ history.length)
    (hroom : history.length + (word.length + data.length) ≤ first + buffer.len) :
    RingBuffer.Holds ((buffer.write (history.length + word.length) data).write history.length
        word).bytes buffer.len (history ++ (word ++ data)) first := by
  intro i x hi hx
  have hlt := (List.getElem?_eq_some_iff.mp hx).1
  simp only [length_append] at hlt
  have hword := @bytes_write (buffer.write (history.length + word.length) data) history.length i
    first word hfirst (by rw [len_write]; omega) hi (by rw [len_write]; omega)
  have hdata := @bytes_write buffer (history.length + word.length) i first data (by omega)
    (by omega) hi (by omega)
  rw [len_write] at hword
  rw [hword, hdata]
  rcases Nat.lt_or_ge i history.length with hlt' | hge
  · rw [getElem?_append_left hlt'] at hx
    rw [if_neg (by omega), if_neg (by omega)]
    exact h i x hi hx
  · rw [getElem?_append_right hge] at hx
    rw [if_pos hge]
    rcases Nat.lt_or_ge (i - history.length) word.length with hin | hout
    · rw [getElem?_append_left hin] at hx
      rw [hx]
      rfl
    · rw [getElem?_append_right hout] at hx
      have hsub : i - (history.length + word.length) = i - history.length - word.length := by omega
      rw [getElem?_eq_none hout, if_pos (by omega), hsub, hx]
      rfl

/-- A write into the free part of the ring leaves its history in place. -/
theorem holds_write (hp : history.length ≤ p) (hroom : p + data.length ≤ first + buffer.len) :
    RingBuffer.Holds (buffer.write p data).bytes buffer.len history first := by
  intro i x hi hx
  have hlt := (List.getElem?_eq_some_iff.mp hx).1
  rw [bytes_write (by omega) hroom hi (by omega), if_neg (by omega)]
  exact h i x hi hx

end

end Buffer

end Buffer

section Record

structure StoredRecord where
  container : ℕ
  msgId : ℕ
  bytes : List UInt8

namespace StoredRecord

def encode (record : StoredRecord) : List UInt8 :=
  leBytes 8 (Inner.containerMsgId record.container record.msgId) ++ record.bytes

/-- The header of a record gives its own length, which is at least a number of words. -/
structure Ok (w : ℕ) (record : StoredRecord) : Prop where
  container_lt : record.container < 2 ^ 32
  rawType : (headerOf record.bytes).rawType = Constants.tracingFormatLogRecordType
  words : w ≤ (headerOf record.bytes).sizeWords
  length_eq : record.bytes.length = msgLen record.bytes

theorem Ok.length_ge {w : ℕ} {record : StoredRecord} (h : record.Ok w) :
    w * 8 ≤ record.bytes.length := by
  rw [h.length_eq]
  exact Nat.mul_le_mul_right 8 h.words

theorem length_encode (record : StoredRecord) :
    record.encode.length = 8 + record.bytes.length := by
  rw [encode, length_append, length_leBytes]

end StoredRecord

def encodeAll (log : List StoredRecord) : List UInt8 := log.flatMap StoredRecord.encode

def pos (log : List StoredRecord) (j : ℕ) : ℕ := (encodeAll (log.take j)).length

variable {log : List StoredRecord} {r : StoredRecord} {i j k : ℕ}

theorem encodeAll_append (log log' : List StoredRecord) :
    encodeAll (log ++ log') = encodeAll log ++ encodeAll log' := flatMap_append

theorem pos_append_le {log' : List StoredRecord} (h : j ≤ log.length) :
    pos (log ++ log') j = pos log j := by
  rw [pos, take_append_of_le_length h, pos]

theorem pos_length (log : List StoredRecord) : pos log log.length = (encodeAll log).length := by
  rw [pos, take_length]

theorem pos_succ (h : log[j]? = some r) : pos log (j + 1) = pos log j + (8 + r.bytes.length) := by
  rw [pos, pos, take_add_one, h, encodeAll_append, length_append]
  have hone : encodeAll [r] = r.encode := flatMap_singleton _ _
  change _ + (encodeAll [r]).length = _
  rw [hone, r.length_encode]

theorem pos_mono (h : i ≤ j) : pos log i ≤ pos log j := by
  obtain ⟨d, rfl⟩ := Nat.exists_eq_add_of_le h
  rw [pos, pos, take_add, encodeAll_append, length_append]
  exact Nat.le_add_right _ _

theorem pos_lt (h : i < j) (hi : i < log.length) : pos log i < pos log j := by
  have hsucc := pos_succ (getElem?_eq_getElem hi)
  have hmono := @pos_mono log (i + 1) j h
  omega

theorem encodeAll_split (h : log[j]? = some r) :
    encodeAll log = encodeAll (log.take j) ++ (r.encode ++ encodeAll (log.drop (j + 1))) := by
  obtain ⟨hlt, hr⟩ := List.getElem?_eq_some_iff.mp h
  have hsplit : log = log.take j ++ r :: log.drop (j + 1) := by
    rw [← hr, getElem_cons_drop, take_append_drop]
  conv_lhs => rw [hsplit]
  rw [encodeAll_append]
  rfl

theorem mem_drop_of_getElem? (hk : k ≤ j) (hr : log[j]? = some r) : r ∈ log.drop k := by
  have hget : (log.drop k)[j - k]? = some r := by
    rw [getElem?_drop, Nat.add_sub_cancel' hk]
    exact hr
  exact mem_of_getElem? hget

theorem drop_cons (hr : log[j]? = some r) : log.drop j = r :: log.drop (j + 1) := by
  obtain ⟨hlt, heq⟩ := List.getElem?_eq_some_iff.mp hr
  rw [drop_eq_getElem_cons hlt, heq]

structure Ring (w : ℕ) (inner : Inner) (log : List StoredRecord) (k : ℕ) : Prop where
  popped_le : k ≤ log.length
  head_eq : inner.head = (encodeAll log).length
  tail_eq : inner.tail = pos log k
  fits : inner.head ≤ inner.tail + inner.buffer.len
  len_ge : minBufferSize ≤ inner.buffer.len
  holds : RingBuffer.Holds inner.buffer.bytes inner.buffer.len (encodeAll log) inner.tail
  ok : ∀ r ∈ log, r.Ok w

variable {w : ℕ} {inner : Inner}

theorem Ring.tail_le_head (h : Ring w inner log k) : inner.tail ≤ inner.head := by
  rw [h.tail_eq, h.head_eq, ← pos_length]
  exact pos_mono h.popped_le

/-- Records are whole words. -/
theorem Ring.aligned (h : Ring w inner log k) : 8 ∣ inner.head := by
  rw [h.head_eq, encodeAll, length_flatMap]
  refine dvd_sum fun n hn => ?_
  obtain ⟨r, hr, rfl⟩ := mem_map.mp hn
  rw [r.length_encode, (h.ok r hr).length_eq, msgLen]
  exact Nat.dvd_add (Nat.dvd_refl 8) (Nat.dvd_mul_left 8 _)

/-- A record that was not popped reads back. -/
theorem Ring.parseRecord (h : Ring w inner log k) (hw : 1 ≤ w) (hj : k ≤ j)
    (hr : log[j]? = some r) :
    ∃ timestamp, inner.parseRecord (pos log j) =
      (r.container, r.msgId % 2 ^ 32, r.bytes, timestamp) := by
  have hok := h.ok r (mem_of_getElem? hr)
  have hsplit := encodeAll_split hr
  have hle : inner.tail ≤ pos log j := by
    rw [h.tail_eq]
    exact pos_mono hj
  have htotal : pos log j + (8 + r.bytes.length) ≤ (encodeAll log).length := by
    rw [hsplit, length_append, length_append, r.length_encode, pos]
    omega
  have hheader : 8 ≤ r.bytes.length := by
    have hlength := hok.length_ge
    omega
  have hread : ∀ off n, off + n ≤ 8 + r.bytes.length →
      inner.buffer.read (pos log j + off) n = slice r.encode off n := by
    intro off n hoff
    rw [Buffer.read_eq_slice h.holds (by omega) (by omega), hsplit, slice, slice, pos,
      drop_append, drop_of_length_le (by omega), nil_append,
      Nat.add_sub_cancel_left, drop_append, take_append_of_le_length]
    · rw [length_drop, r.length_encode]
      omega
  have hword : inner.buffer.read (pos log j) 8 =
      leBytes 8 (Inner.containerMsgId r.container r.msgId) := by
    have h0 := hread 0 8 (by omega)
    rw [Nat.add_zero] at h0
    rw [h0, slice, drop_zero, StoredRecord.encode, take_append_of_le_length (by simp),
      take_of_length_le (by simp)]
  have hbytes : ∀ n, n ≤ r.bytes.length →
      inner.buffer.read (pos log j + 8) n = r.bytes.take n := by
    intro n hn
    rw [hread 8 n (by omega), slice, StoredRecord.encode, drop_append,
      drop_of_length_le (by simp), nil_append, length_leBytes, drop_zero]
  have hlen : Header.sizeWords (BitVec.ofNat 64 (ofLE (inner.buffer.read (pos log j + 8) 8))) * 8 =
      r.bytes.length := by
    rw [hbytes 8 hheader, hok.length_eq]
    rfl
  have hid : ofLE (leBytes 8 (Inner.containerMsgId r.container r.msgId)) =
      r.container * 2 ^ 32 + r.msgId % 2 ^ 32 := by
    refine ofLE_leBytes_of_lt ?_
    have hcontainer := hok.container_lt
    rw [Inner.containerMsgId]
    omega
  refine ⟨BitVec.ofNat 64 (ofLE (inner.buffer.read (pos log j + 16) 8)), ?_⟩
  rw [Inner.parseRecord, hword, hid, hlen, hbytes _ (Nat.le_refl _), take_length]
  have hdiv : (r.container * 2 ^ 32 + r.msgId % 2 ^ 32) / 2 ^ 32 = r.container := by omega
  have hrem : (r.container * 2 ^ 32 + r.msgId % 2 ^ 32) % 2 ^ 32 = r.msgId % 2 ^ 32 := by omega
  rw [hdiv, hrem]

end Record

end Smos.Archivist
