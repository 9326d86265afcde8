import Mathlib.Data.Nat.Bitwise
import Mathlib.Tactic.Ring

/-!
The arithmetic of buddy systems: blocks of `2 ^ k` units at multiples of their
own size that tile an interval, with the splits and merges that keep it tiled.
-/
namespace Smos.Lib.Buddy

open Function Nat

section Aligned

variable {i j k l a u : ℕ}

theorem xor_of_dvd (h : 2 ^ (k + 1) ∣ i) : i ^^^ 2 ^ k = i + 2 ^ k := by
  obtain ⟨q, rfl⟩ := h
  apply eq_of_testBit_eq
  intro b
  have hlt : 2 ^ k < 2 ^ (k + 1) := Nat.pow_lt_pow_right (by omega) (by omega)
  rw [testBit_xor, testBit_two_pow_mul_add _ hlt, testBit_two_pow_mul]
  by_cases hb : b < k + 1
  · simp [hb, Nat.not_le.mpr hb]
  · have hne : k ≠ b := by omega
    simp [hb, Nat.not_lt.mp hb, hne]

/-- The buddy of a block is the other half of the block of twice its size. -/
theorem buddy_cases (h : 2 ^ k ∣ i) :
    2 ^ (k + 1) ∣ i ∧ i ^^^ 2 ^ k = i + 2 ^ k ∨
      2 ^ (k + 1) ∣ i ^^^ 2 ^ k ∧ i = (i ^^^ 2 ^ k) + 2 ^ k := by
  obtain ⟨q, rfl⟩ := h
  rcases even_or_odd' q with ⟨r, rfl | rfl⟩
  · have hdvd : 2 ^ (k + 1) ∣ 2 ^ k * (2 * r) := ⟨r, by ring⟩
    exact .inl ⟨hdvd, xor_of_dvd hdvd⟩
  · have hsum : 2 ^ k * (2 * r + 1) = 2 ^ (k + 1) * r + 2 ^ k := by ring
    have hdvd : 2 ^ (k + 1) ∣ 2 ^ (k + 1) * r := ⟨r, rfl⟩
    have hxor : 2 ^ k * (2 * r + 1) ^^^ 2 ^ k = 2 ^ (k + 1) * r := by
      rw [hsum, ← xor_of_dvd hdvd, Nat.xor_assoc, Nat.xor_self, xor_zero]
    rw [hxor]
    exact .inr ⟨hdvd, hsum⟩

/-- Of two aligned blocks with a common unit, the larger contains the smaller. -/
theorem contains_of_common (hi : 2 ^ l ∣ i) (ha : 2 ^ j ∣ a) (hjl : j ≤ l)
    (hiu : i ≤ u) (hui : u < i + 2 ^ l) (hau : a ≤ u) (hua : u < a + 2 ^ j) :
    i ≤ a ∧ a + 2 ^ j ≤ i + 2 ^ l := by
  have hdvd : 2 ^ j ∣ 2 ^ l := Nat.pow_dvd_pow 2 hjl
  have hi' : 2 ^ j ∣ i := hdvd.trans hi
  -- All ends are multiples of `2 ^ j`, so none is inside the smaller block.
  constructor
  · exact le_of_lt_add_of_dvd (by omega) hi' ha
  · exact le_of_lt_add_of_dvd (by omega) (Nat.dvd_add ha dvd_rfl) (Nat.dvd_add hi' hdvd)

end Aligned

/-- The blocks `B` (the order of the block that starts at a unit) tile the first
`n` units; no order is above `m`. -/
structure Tiles (m : ℕ) (B : ℕ → Option ℕ) (n : ℕ) : Prop where
  order_le : ∀ {i k}, B i = some k → k ≤ m
  aligned : ∀ {i k}, B i = some k → 2 ^ k ∣ i
  inside : ∀ {i k}, B i = some k → i + 2 ^ k ≤ n
  disjoint : ∀ {i k j l}, B i = some k → B j = some l → i < j → i + 2 ^ k ≤ j
  cover : ∀ {u}, u < n → ∃ i k, B i = some k ∧ i ≤ u ∧ u < i + 2 ^ k

def split (B : ℕ → Option ℕ) (i k : ℕ) : ℕ → Option ℕ :=
  update (update B i (some k)) (i + 2 ^ k) (some k)

def merge (B : ℕ → Option ℕ) (i k : ℕ) : ℕ → Option ℕ :=
  update (update B (i + 2 ^ k) none) i (some (k + 1))

section Updates

variable {B : ℕ → Option ℕ} {i j k l : ℕ}

theorem split_eq_some : split B i k j = some l ↔
    (j = i ∨ j = i + 2 ^ k) ∧ l = k ∨ j ≠ i ∧ j ≠ i + 2 ^ k ∧ B j = some l := by
  unfold split
  by_cases h1 : j = i + 2 ^ k
  · subst h1
    simp [eq_comm]
  · by_cases h2 : j = i
    · subst h2
      simp [eq_comm]
    · simp [h1, h2]

theorem merge_eq_some : merge B i k j = some l ↔
    j = i ∧ l = k + 1 ∨ j ≠ i ∧ j ≠ i + 2 ^ k ∧ B j = some l := by
  unfold merge
  by_cases h2 : j = i
  · subst h2
    simp [eq_comm]
  · by_cases h1 : j = i + 2 ^ k
    · subst h1
      simp
    · simp [h1, h2]

end Updates

namespace Tiles

variable {m n : ℕ} {B : ℕ → Option ℕ} {i j k l u : ℕ} (h : Tiles m B n)
include h

theorem lt (hi : B i = some k) : i < n := by
  have hin := h.inside hi
  have hpos : 0 < 2 ^ k := Nat.two_pow_pos k
  omega

/-- No block starts inside another one. -/
theorem eq_of_mem (hi : B i = some k) (hj : B j = some l) (hij : i ≤ j)
    (hlt : j < i + 2 ^ k) : j = i := by
  by_contra hne
  have hd := h.disjoint hi hj (by omega)
  omega

theorem none_of_inside (hi : B i = some k) (hij : i < j) (hlt : j < i + 2 ^ k) : B j = none := by
  cases hj : B j with
  | none => rfl
  | some l => exact absurd (h.eq_of_mem hi hj (by omega) hlt) (by omega)

/-- Blocks that tile an interval replace those that were in it. -/
theorem replace (lo hi : ℕ) {n' : ℕ} {B' : ℕ → Option ℕ} {new kept : ℕ → ℕ → Prop}
    (hle : hi ≤ n') (hn : n ≤ n') (hend : ∀ u, n ≤ u → u < n' → lo ≤ u ∧ u < hi)
    (hiff : ∀ {j l}, B' j = some l ↔ new j l ∨ kept j l)
    (hkept : ∀ {j l}, kept j l → B j = some l ∧ (j + 2 ^ l ≤ lo ∨ hi ≤ j))
    (hold : ∀ {j l}, B j = some l → kept j l ∨ lo ≤ j ∧ j + 2 ^ l ≤ hi)
    (hnew : ∀ {j l}, new j l → l ≤ m ∧ 2 ^ l ∣ j ∧ lo ≤ j ∧ j + 2 ^ l ≤ hi)
    (hdisjoint : ∀ {i k j l}, new i k → new j l → i < j → i + 2 ^ k ≤ j)
    (hcover : ∀ u, lo ≤ u → u < hi → ∃ i k, new i k ∧ i ≤ u ∧ u < i + 2 ^ k) :
    Tiles m B' n' := by
  constructor
  · intro j l hj
    rcases hiff.mp hj with hj | hj
    · exact (hnew hj).1
    · exact h.order_le (hkept hj).1
  · intro j l hj
    rcases hiff.mp hj with hj | hj
    · exact (hnew hj).2.1
    · exact h.aligned (hkept hj).1
  · intro j l hj
    rcases hiff.mp hj with hj | hj
    · exact (hnew hj).2.2.2.trans hle
    · exact (h.inside (hkept hj).1).trans hn
  · intro i k j l hi hj hij
    have hpos : 0 < 2 ^ l := Nat.two_pow_pos l
    rcases hiff.mp hi with hi | hi
    · have hin := hnew hi
      rcases hiff.mp hj with hj | hj
      · exact hdisjoint hi hj hij
      · have hout := (hkept hj).2
        omega
    · have hout := (hkept hi).2
      rcases hiff.mp hj with hj | hj
      · have hin := hnew hj
        omega
      · exact h.disjoint (hkept hi).1 (hkept hj).1 hij
  · intro u hu
    by_cases hin : lo ≤ u ∧ u < hi
    · obtain ⟨i, k, hi, hiu⟩ := hcover u hin.1 hin.2
      exact ⟨i, k, hiff.mpr (.inl hi), hiu⟩
    · obtain ⟨i, k, hi, hiu⟩ := h.cover (Nat.lt_of_not_le fun hnu => hin (hend u hnu hu))
      rcases hold hi with hi | hi
      · exact ⟨i, k, hiff.mpr (.inr hi), hiu⟩
      · omega

theorem split (hi : B i = some (k + 1)) : Tiles m (Buddy.split B i k) n := by
  have hle := h.order_le hi
  have hal : 2 ^ k ∣ i := Nat.dvd_trans ⟨2, by rw [Nat.pow_succ]⟩ (h.aligned hi)
  refine h.replace i (i + 2 ^ (k + 1)) (h.inside hi) (Nat.le_refl n) (by omega) split_eq_some
    ?_ ?_ ?_ ?_ ?_
  · rintro j l ⟨hne, -, hj⟩
    rcases Nat.lt_or_gt_of_ne hne with hlt | hgt
    · exact ⟨hj, .inl (h.disjoint hj hi hlt)⟩
    · exact ⟨hj, .inr (h.disjoint hi hj hgt)⟩
  · intro j l hj
    by_cases hne : j = i
    · subst hne
      rw [hi, Option.some.injEq] at hj
      exact .inr ⟨Nat.le_refl j, hj ▸ Nat.le_refl _⟩
    · refine .inl ⟨hne, ?_, hj⟩
      rintro rfl
      rw [h.none_of_inside hi (by omega) (by omega)] at hj
      cases hj
  · rintro j l ⟨rfl | rfl, rfl⟩
    · exact ⟨by omega, hal, by omega, by omega⟩
    · exact ⟨by omega, Nat.dvd_add hal (Nat.dvd_refl _), by omega, by omega⟩
  · rintro a x b y ⟨ha, rfl⟩ ⟨hb, rfl⟩ hab
    omega
  · intro u hlo hhi
    rcases Nat.lt_or_ge u (i + 2 ^ k) with hlt | hge
    · exact ⟨i, k, ⟨.inl rfl, rfl⟩, hlo, hlt⟩
    · exact ⟨i + 2 ^ k, k, ⟨.inr rfl, rfl⟩, hge, by omega⟩

theorem merge (hi : B i = some k) (hj : B (i + 2 ^ k) = some k)
    (hal : 2 ^ (k + 1) ∣ i) (hk : k < m) : Tiles m (Buddy.merge B i k) n := by
  have hin := h.inside hj
  refine h.replace i (i + 2 ^ (k + 1)) (by omega) (Nat.le_refl n) (by omega) merge_eq_some
    ?_ ?_ ?_ ?_ ?_
  · rintro a l ⟨hne, hne', ha⟩
    rcases Nat.lt_or_gt_of_ne hne with hlt | hgt
    · exact ⟨ha, .inl (h.disjoint ha hi hlt)⟩
    · have hd := h.disjoint hi ha hgt
      have hd' := h.disjoint hj ha (by omega)
      exact ⟨ha, by omega⟩
  · intro a l ha
    by_cases hne : a = i
    · subst hne
      rw [hi, Option.some.injEq] at ha
      subst ha
      omega
    · by_cases hne' : a = i + 2 ^ k
      · subst hne'
        rw [hj, Option.some.injEq] at ha
        subst ha
        omega
      · exact .inl ⟨hne, hne', ha⟩
  · rintro a l ⟨rfl, rfl⟩
    exact ⟨hk, hal, Nat.le_refl a, Nat.le_refl _⟩
  · rintro a x b y ⟨rfl, -⟩ ⟨rfl, -⟩ hab
    omega
  · intro u hlo hhi
    exact ⟨i, k + 1, ⟨rfl, rfl⟩, hlo, hhi⟩

/-- A block of the largest order behind the others. -/
theorem extend (hn : 2 ^ m ∣ n) : Tiles m (update B n (some m)) (n + 2 ^ m) := by
  have hsome : ∀ {a l}, update B n (some m) a = some l ↔
      a = n ∧ l = m ∨ a ≠ n ∧ B a = some l := by
    intro a l
    by_cases ha : a = n
    · subst ha
      simp [eq_comm]
    · simp [ha]
  refine h.replace n (n + 2 ^ m) (Nat.le_refl _) (Nat.le_add_right n _) (by omega) hsome
    ?_ ?_ ?_ ?_ ?_
  · rintro a l ⟨-, ha⟩
    exact ⟨ha, .inl (h.inside ha)⟩
  · intro a l ha
    exact .inl ⟨Nat.ne_of_lt (h.lt ha), ha⟩
  · rintro a l ⟨rfl, rfl⟩
    exact ⟨Nat.le_refl l, hn, Nat.le_refl a, Nat.le_refl _⟩
  · rintro a x b y ⟨rfl, -⟩ ⟨rfl, -⟩ hab
    omega
  · intro u hlo hhi
    exact ⟨n, m, ⟨rfl, rfl⟩, hlo, hhi⟩

/-- At the place of a block's buddy a block starts, and it is not larger than the buddy. -/
theorem buddy_start (hn : 2 ^ m ∣ n) (hi : B i = some k) (hk : k < m) :
    ∃ l ≤ k, B (i ^^^ 2 ^ k) = some l := by
  have hal := h.aligned hi
  have hin := h.inside hi
  -- The two buddies fill a block of twice the size, which does not cross the end.
  obtain ⟨p, hp, hip, hbp⟩ : ∃ p, 2 ^ (k + 1) ∣ p ∧ (i = p ∨ i = p + 2 ^ k) ∧
      (i ^^^ 2 ^ k = p ∧ i = p + 2 ^ k ∨ i ^^^ 2 ^ k = p + 2 ^ k ∧ i = p) := by
    rcases buddy_cases hal with ⟨hd, hx⟩ | ⟨hd, hx⟩
    · exact ⟨i, hd, .inl rfl, .inr ⟨hx, rfl⟩⟩
    · exact ⟨_, hd, .inr hx, .inl ⟨rfl, hx⟩⟩
  have hend : p + 2 ^ (k + 1) ≤ n := by
    have hdn : 2 ^ (k + 1) ∣ n := Nat.dvd_trans (Nat.pow_dvd_pow 2 hk) hn
    obtain ⟨x, rfl⟩ := hp
    obtain ⟨y, rfl⟩ := hdn
    have hlt : 2 ^ (k + 1) * x < 2 ^ (k + 1) * y := by omega
    have hxy : x + 1 ≤ y := Nat.lt_of_mul_lt_mul_left hlt
    calc 2 ^ (k + 1) * x + 2 ^ (k + 1) = 2 ^ (k + 1) * (x + 1) := by ring
      _ ≤ 2 ^ (k + 1) * y := Nat.mul_le_mul_left _ hxy
  obtain ⟨a, l, ha, hau, hua⟩ := h.cover (u := i ^^^ 2 ^ k) (by omega)
  have hbal : 2 ^ k ∣ i ^^^ 2 ^ k := by
    have hpk : 2 ^ k ∣ p := Nat.dvd_trans ⟨2, by rw [Nat.pow_succ]⟩ hp
    rcases hbp with ⟨hx, -⟩ | ⟨hx, -⟩
    · rwa [hx]
    · rw [hx]
      exact Nat.dvd_add hpk (Nat.dvd_refl _)
  rcases Nat.lt_or_ge k l with hkl | hlk
  · -- A larger block there would contain the block itself.
    have hc := contains_of_common (h.aligned ha) hp hkl hau hua (by omega) (by omega)
    have heq : i = a := h.eq_of_mem ha hi (by omega) (by omega)
    subst heq
    rw [hi, Option.some.injEq] at ha
    omega
  · have hc := contains_of_common hbal (h.aligned ha) hlk (Nat.le_refl _) (by omega) hau hua
    have heq : a = i ^^^ 2 ^ k := by omega
    exact ⟨l, hlk, heq ▸ ha⟩

/-- Behind a block the next one starts, or the end is reached. -/
theorem next_start (hi : B i = some k) :
    i + 2 ^ k = n ∨ ∃ l, B (i + 2 ^ k) = some l := by
  have hpos : 0 < 2 ^ k := Nat.two_pow_pos k
  rcases Nat.lt_or_ge (i + 2 ^ k) n with hlt | hge
  · obtain ⟨a, l, ha, hau, hua⟩ := h.cover hlt
    have heq : a = i + 2 ^ k := by
      rcases Nat.lt_trichotomy a i with hai | rfl | hai
      · have hd := h.disjoint ha hi hai
        omega
      · rw [hi, Option.some.injEq] at ha
        subst ha
        omega
      · have hd := h.disjoint hi ha hai
        omega
    exact .inr ⟨l, heq ▸ ha⟩
  · have hin := h.inside hi
    exact .inl (by omega)

/-- Where all blocks are free and no two free buddies of an order below the
largest are left, an aligned region lies in one block. -/
theorem merged {free : ℕ → Prop}
    (hbuddies : ∀ i k, k < m → B i = some k → free i → B (i ^^^ 2 ^ k) = some k →
      ¬free (i ^^^ 2 ^ k))
    {a : ℕ} (hj : j ≤ m) (hal : 2 ^ j ∣ a) (hin : a + 2 ^ j ≤ n)
    (hfree : ∀ i k, B i = some k → a ≤ i → i < a + 2 ^ j → free i) :
    ∃ i k, B i = some k ∧ i ≤ a ∧ a + 2 ^ j ≤ i + 2 ^ k := by
  induction j generalizing a with
  | zero =>
    obtain ⟨i, k, hi, hia, hai⟩ := h.cover (u := a) (by omega)
    exact ⟨i, k, hi, hia, by omega⟩
  | succ j ih =>
    have haj : 2 ^ j ∣ a := Nat.dvd_trans ⟨2, by rw [Nat.pow_succ]⟩ hal
    obtain ⟨i, k, hi, hia, hai⟩ := ih (by omega) haj (by omega)
      fun b l hb h1 h2 => hfree b l hb h1 (by omega)
    obtain ⟨i', k', hi', hia', hai'⟩ := ih (a := a + 2 ^ j) (by omega)
      (Nat.dvd_add haj (Nat.dvd_refl _)) (by omega)
      fun b l hb h1 h2 => hfree b l hb (by omega) (by omega)
    -- A block of order `j` that contains an aligned half is that half.
    have hhalf : ∀ {b c l}, B b = some l → 2 ^ j ∣ c → b ≤ c → c + 2 ^ j ≤ b + 2 ^ l →
        j < l ∨ b = c ∧ l = j := by
      intro b c l hb hc h1 h2
      rcases Nat.lt_trichotomy j l with hlt | rfl | hgt
      · exact .inl hlt
      · exact .inr ⟨by omega, rfl⟩
      · have hlt : 2 ^ l < 2 ^ j := Nat.pow_lt_pow_right (by omega) hgt
        omega
    rcases hhalf hi haj hia hai with hlt | ⟨rfl, rfl⟩
    · have hc := contains_of_common (h.aligned hi) hal hlt hia (by omega) (Nat.le_refl a) (by omega)
      exact ⟨i, k, hi, hc.1, hc.2⟩
    rcases hhalf hi' (Nat.dvd_add haj (Nat.dvd_refl _)) hia' hai' with hlt | ⟨rfl, rfl⟩
    · have hc := contains_of_common (h.aligned hi') hal hlt hia' (by omega)
        (Nat.le_add_right _ _) (by omega)
      exact ⟨i', k', hi', hc.1, hc.2⟩
    · have hxor := xor_of_dvd hal
      exact absurd (hxor ▸ hfree _ _ hi' (by omega) (by omega))
        (hbuddies _ _ hj hi (hfree _ _ hi (by omega) (by omega)) (hxor ▸ hi'))

end Tiles

def Consecutive : ℕ → List (ℕ × ℕ) → ℕ → Prop
  | u, [], n => u = n
  | u, (i, k) :: blocks, n => i = u ∧ Consecutive (u + 2 ^ k) blocks n

def walk (order : ℕ → ℕ) (n : ℕ) : ℕ → ℕ → List (ℕ × ℕ)
  | 0, _ => []
  | fuel + 1, u => if u < n then (u, order u) :: walk order n fuel (u + 2 ^ order u) else []

section Walk

variable {m n : ℕ} {B : ℕ → Option ℕ} {order : ℕ → ℕ} {fuel u : ℕ}

theorem walk_from (h : Tiles m B n) (horder : ∀ i k, B i = some k → order i = k)
    (hu : u = n ∨ ∃ k, B u = some k) (hfuel : n - u < fuel) :
    Consecutive u (walk order n fuel u) n ∧
      ∀ i k, (i, k) ∈ walk order n fuel u ↔ B i = some k ∧ u ≤ i := by
  induction fuel generalizing u with
  | zero => omega
  | succ fuel ih =>
    rcases hu with rfl | ⟨k, hk⟩
    · refine ⟨by simp [walk, Consecutive], fun i k => ?_⟩
      simp only [walk, Nat.lt_irrefl, if_false, List.not_mem_nil, false_iff, not_and]
      intro hi hle
      have hlt := h.lt hi
      omega
    · have hpos : 0 < 2 ^ k := Nat.two_pow_pos k
      have hin := h.inside hk
      have hnext : u + 2 ^ k = n ∨ ∃ l, B (u + 2 ^ k) = some l := h.next_start hk
      obtain ⟨hcons, hmem⟩ := ih hnext (by omega)
      have hwalk : walk order n (fuel + 1) u = (u, k) :: walk order n fuel (u + 2 ^ k) := by
        rw [walk, if_pos (h.lt hk), horder u k hk]
      rw [hwalk]
      refine ⟨⟨rfl, hcons⟩, fun i l => ?_⟩
      rw [List.mem_cons, hmem, Prod.mk.injEq]
      constructor
      · rintro (⟨rfl, rfl⟩ | ⟨hi, hle⟩)
        · exact ⟨hk, Nat.le_refl _⟩
        · exact ⟨hi, by omega⟩
      · rintro ⟨hi, hle⟩
        rcases Nat.eq_or_lt_of_le hle with rfl | hlt
        · rw [hk, Option.some.injEq] at hi
          exact .inl ⟨rfl, hi.symm⟩
        · exact .inr ⟨hi, h.disjoint hk hi hlt⟩

end Walk

end Smos.Lib.Buddy
