import Mathlib.Data.List.Basic
import Mathlib.Tactic.Ring

/-!
Reading and overwriting parts of a buffer, and little-endian numbers in it.

`slice` reads `n` entries from a position on and `splice` overwrites the entries from a position on.
A number is stored in a fixed count of bytes, the least significant first.
-/
namespace Smos.Lib.Bytes

open List

section Buffer

variable {α : Type*} {buf new : List α} {off pos n : ℕ}

def slice (buf : List α) (off n : ℕ) : List α := (buf.drop off).take n

/-- The buffer with the entries from position `off` on overwritten by `new`. -/
def splice (buf : List α) (off : ℕ) (new : List α) : List α :=
  buf.take off ++ new ++ buf.drop (off + new.length)

theorem length_slice (h : off + n ≤ buf.length) : (slice buf off n).length = n := by
  simp only [slice, length_take, length_drop]
  omega

theorem length_splice (h : off + new.length ≤ buf.length) :
    (splice buf off new).length = buf.length := by
  simp only [splice, length_append, length_take, length_drop]
  omega

/-- Entry `i` after an overwrite comes from `new` inside the overwritten part only. -/
theorem getElem?_splice (h : off + new.length ≤ buf.length) (i : ℕ) :
    (splice buf off new)[i]? =
      if i < off ∨ off + new.length ≤ i then buf[i]? else new[i - off]? := by
  have hoff : (buf.take off).length = off := by
    rw [length_take]
    omega
  rw [splice, append_assoc]
  rcases Nat.lt_or_ge i off with hlt | hge
  · rw [getElem?_append_left (by omega), getElem?_take_of_lt hlt, if_pos (Or.inl hlt)]
  rw [getElem?_append_right (by omega), hoff]
  rcases Nat.lt_or_ge i (off + new.length) with hin | hout
  · rw [getElem?_append_left (by omega), if_neg (by omega)]
  · rw [getElem?_append_right (by omega), getElem?_drop, if_pos (Or.inr hout)]
    congr 1
    omega

theorem getElem?_slice (i : ℕ) :
    (slice buf off n)[i]? = if i < n then buf[off + i]? else none := by
  rw [slice, getElem?_take, getElem?_drop]

/-- What was overwritten reads back. -/
theorem slice_splice_self (h : off + new.length ≤ buf.length) :
    slice (splice buf off new) off new.length = new := by
  apply ext_getElem?
  intro i
  rw [getElem?_slice, getElem?_splice h]
  rcases Nat.lt_or_ge i new.length with hlt | hge
  · rw [if_pos hlt, if_neg (by omega), Nat.add_sub_cancel_left]
  · rw [if_neg (by omega), List.getElem?_eq_none hge]

/-- An overwrite leaves every part that it does not touch. -/
theorem slice_splice_of_disjoint (h : off + new.length ≤ buf.length)
    (hdisj : pos + n ≤ off ∨ off + new.length ≤ pos) :
    slice (splice buf off new) pos n = slice buf pos n := by
  apply ext_getElem?
  intro i
  rw [getElem?_slice, getElem?_slice, getElem?_splice h]
  rcases Nat.lt_or_ge i n with hlt | hge
  · rw [if_pos hlt, if_pos hlt, if_pos (by omega)]
  · rw [if_neg (by omega), if_neg (by omega)]

theorem getElem?_concat {i : ℕ} {a x : α} :
    (buf ++ [a])[i]? = some x ↔ buf[i]? = some x ∨ i = buf.length ∧ x = a := by
  rcases Nat.lt_trichotomy i buf.length with hi | rfl | hi
  · rw [getElem?_append_left hi]
    exact ⟨.inl, fun h => h.resolve_right fun heq => absurd heq.1 hi.ne⟩
  · simp [eq_comm]
  · rw [getElem?_eq_none (by simp; omega), getElem?_eq_none hi.le]
    simp [hi.ne']

/-- Overwriting one part of a buffer by a part of the same length. -/
theorem splice_append {front old rest : List α} (h : old.length = new.length) :
    splice (front ++ (old ++ rest)) front.length new = front ++ (new ++ rest) := by
  have hdrop : (front ++ (old ++ rest)).drop (front.length + new.length) = rest := by
    rw [← drop_drop, drop_left, ← h, drop_left]
  rw [splice, take_left, hdrop, append_assoc]

theorem slice_take {m : ℕ} (h : off + n ≤ m) : slice (buf.take m) off n = slice buf off n := by
  apply ext_getElem?
  intro i
  rw [getElem?_slice, getElem?_slice]
  rcases Nat.lt_or_ge i n with hlt | hge
  · rw [if_pos hlt, if_pos hlt, List.getElem?_take_of_lt (by omega)]
  · rw [if_neg (by omega), if_neg (by omega)]

theorem slice_append_left {rest : List α} (h : off + n ≤ buf.length) :
    slice (buf ++ rest) off n = slice buf off n := by
  have hslice : slice ((buf ++ rest).take buf.length) off n = slice (buf ++ rest) off n :=
    slice_take h
  rw [← hslice, take_left]

theorem slice_append_right (rest : List α) :
    slice (buf ++ rest) buf.length rest.length = rest := by
  rw [slice, drop_left, take_length]

end Buffer

section LittleEndian

def ofLE : List UInt8 → ℕ
  | [] => 0
  | b :: bs => b.toNat + 256 * ofLE bs

def ofBE (bytes : List UInt8) : ℕ := ofLE bytes.reverse

def leBytes : ℕ → ℕ → List UInt8
  | 0, _ => []
  | w + 1, n => UInt8.ofNat n :: leBytes w (n / 256)

@[simp] theorem length_leBytes (w n : ℕ) : (leBytes w n).length = w := by
  induction w generalizing n with
  | zero => rfl
  | succ w ih => rw [leBytes, length_cons, ih]

theorem ofLE_leBytes (w n : ℕ) : ofLE (leBytes w n) = n % 256 ^ w := by
  induction w generalizing n with
  | zero => simp only [leBytes, ofLE, pow_zero, Nat.mod_one]
  | succ w ih =>
    have hbyte : (UInt8.ofNat n).toNat = n % 256 := UInt8.toNat_ofNat'
    rw [leBytes, ofLE, ih, hbyte, pow_succ', Nat.mod_mul]

theorem ofLE_leBytes_of_lt {w n : ℕ} (h : n < 256 ^ w) : ofLE (leBytes w n) = n := by
  rw [ofLE_leBytes, Nat.mod_eq_of_lt h]

end LittleEndian

end Smos.Lib.Bytes
