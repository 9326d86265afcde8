import Mathlib.Data.List.Basic
import Mathlib.Data.Nat.ModEq
import Mathlib.Tactic.NormNum

/-!
Ring buffers over an unbounded history.

Entry `i` of the history is kept in slot `i % size`.  A ring holds the entries from some position on
as long as no more than `size` of them are kept.  Positions are counted by 16-bit counters that
wrap around; `counter n` is what such a counter shows after `n` steps.
-/
namespace Smos.Lib.RingBuffer

variable {α : Type*} {ring : ℕ → α} {size first : ℕ} {history : List α}

/-- The slots of the entries from position `first` on have not been written again. -/
def Holds (ring : ℕ → α) (size : ℕ) (history : List α) (first : ℕ) : Prop :=
  ∀ i x, first ≤ i → history[i]? = some x → ring (i % size) = x

theorem Holds.nil : Holds ring size [] first := by
  simp [Holds]

theorem Holds.mono {first' : ℕ} (h : Holds ring size history first) (hle : first ≤ first') :
    Holds ring size history first' :=
  fun i x hi hx => h i x (hle.trans hi) hx

/-- Two positions less than `size` apart have different slots. -/
theorem mod_ne_mod {i j : ℕ} (hij : i < j) (hlt : j < i + size) : i % size ≠ j % size := by
  intro h
  have hdvd : size ∣ j - i := (Nat.modEq_iff_dvd' hij.le).mp h
  have hle := Nat.le_of_dvd (by omega) hdvd
  omega

/-- Writing the slot of the next position disturbs no kept entry. -/
theorem Holds.write (h : Holds ring size history first) (hroom : history.length < first + size)
    (x : α) : Holds (Function.update ring (history.length % size) x) size history first := by
  intro i y hi hy
  have hlt : i < history.length := (List.getElem?_eq_some_iff.mp hy).1
  rw [Function.update_of_ne (mod_ne_mod hlt (by omega))]
  exact h i y hi hy

/-- An entry that is in its slot may be added to the history. -/
theorem Holds.concat {x : α} (h : Holds ring size history first)
    (hx : ring (history.length % size) = x) : Holds ring size (history ++ [x]) first := by
  intro i y hi hy
  rcases Nat.lt_or_ge i history.length with hlt | hge
  · rw [List.getElem?_append_left hlt] at hy
    exact h i y hi hy
  · have hi' : i = history.length := by
      have hlen := (List.getElem?_eq_some_iff.mp hy).1
      simp only [List.length_append, List.length_singleton] at hlen
      omega
    subst hi'
    rw [List.getElem?_concat_length] at hy
    rw [hx]
    exact Option.some.inj hy

/-- The front of a history grows by the next entry. -/
theorem prefix_concat {front : List α} {x : α} (h : front <+: history)
    (hx : history[front.length]? = some x) : front ++ [x] <+: history := by
  obtain ⟨rest, rfl⟩ := h
  rw [List.getElem?_append_right le_rfl, Nat.sub_self, ← List.head?_eq_getElem?] at hx
  obtain ⟨rest', rfl⟩ := List.head?_eq_some_iff.mp hx
  exact ⟨rest', by simp⟩

def counter (n : ℕ) : UInt16 := UInt16.ofNat n

theorem counter_toNat (n : ℕ) : (counter n).toNat = n % 65536 := by
  simp [counter]

theorem counter_succ (n : ℕ) : counter n + 1 = counter (n + 1) := by
  apply UInt16.toNat_inj.mp
  rw [UInt16.toNat_add, counter_toNat, counter_toNat]
  simp

/-- Wrapping around does not change the slot when the size divides 65536. -/
theorem counter_mod {size : UInt16} (hdvd : size.toNat ∣ 65536) (n : ℕ) :
    (counter n % size).toNat = n % size.toNat := by
  rw [UInt16.toNat_mod, counter_toNat, Nat.mod_mod_of_dvd _ hdvd]

/-- The sizes of rings with 16-bit counters. -/
theorem dvd_of_isPowerOfTwo {size : UInt16} (h : size.toNat.isPowerOfTwo) :
    size.toNat ∣ 65536 := by
  obtain ⟨k, hk⟩ := h
  have hlt : 2 ^ k < 2 ^ 16 := hk ▸ size.toNat_lt
  have hk16 : k < 16 := (Nat.pow_lt_pow_iff_right (by omega)).mp hlt
  have hdvd := Nat.pow_dvd_pow 2 hk16.le
  rwa [hk]

end Smos.Lib.RingBuffer
