import Mathlib

/-!
Items that span an interval of points, layers of such items, and stacks of layers.

Each item has a meaning at every point, a value of a monoid that is trivial outside the item's
interval.  A layer means the product of its items, a stack means the product of its layers from
the newest to the oldest.  With a monoid in which the first value wins this is the reading of
layered storage in which a newer layer hides an older one.  A merge step replaces the first items
of two layers and may emit an item; `MergeSound` says what such a step has to respect for the
meaning of the stack to be preserved.
-/
namespace Smos.Lib.Spans

open List

/-- How an item is read: the points it spans, its meaning at a point, a size that bounds the work
left on it, and which items are well formed. -/
structure Span (α P M : Type*) [LinearOrder P] [Monoid M] where
  lo : α → P
  hi : α → P
  den : α → P → M
  weight : α → ℕ
  Ok : α → Prop
  lo_lt_hi : ∀ x, Ok x → lo x < hi x
  den_before : ∀ x p, p < lo x → den x p = 1
  den_after : ∀ x p, hi x ≤ p → den x p = 1
  weight_pos : ∀ x, 0 < weight x

variable {α P M : Type*} [LinearOrder P] [Monoid M] (S : Span α P M) {x : α} {l : List α} {p : P}

/-- A layer: well-formed items, each ending before the next one starts. -/
structure IsLayer (l : List α) : Prop where
  ok : ∀ x ∈ l, S.Ok x
  sorted : l.Pairwise fun x y => S.hi x ≤ S.lo y

def listDen (l : List α) (p : P) : M := (l.map fun x => S.den x p).prod

def optDen (x : Option α) (p : P) : M := listDen S x.toList p

@[simp] theorem listDen_nil (p : P) : listDen S [] p = 1 := rfl

@[simp] theorem listDen_cons (x : α) (l : List α) (p : P) :
    listDen S (x :: l) p = S.den x p * listDen S l p := by
  simp [listDen]

@[simp] theorem listDen_append (l m : List α) (p : P) :
    listDen S (l ++ m) p = listDen S l p * listDen S m p := by
  simp [listDen]

@[simp] theorem optDen_none (p : P) : optDen S none p = 1 := rfl

@[simp] theorem optDen_some (x : α) (p : P) : optDen S (some x) p = S.den x p := by
  simp [optDen]

theorem listDen_eq_one (h : ∀ x ∈ l, S.den x p = 1) :
    listDen S l p = 1 := by
  apply prod_eq_one
  intro m hm
  obtain ⟨x, hx, rfl⟩ := mem_map.mp hm
  exact h x hx

theorem listDen_before {p q : P} (hl : ∀ x ∈ l, q ≤ S.lo x) (hp : p < q) :
    listDen S l p = 1 :=
  listDen_eq_one S fun x hx => S.den_before x p (hp.trans_le (hl x hx))

variable {S}

theorem IsLayer.nil : IsLayer S [] := ⟨by simp, List.Pairwise.nil⟩

section

variable (h : IsLayer S (x :: l))
include h

theorem IsLayer.tail : IsLayer S l :=
  ⟨fun y hy => h.ok y (mem_cons_of_mem x hy), (pairwise_cons.mp h.sorted).2⟩

theorem IsLayer.head_ok : S.Ok x :=
  h.ok x mem_cons_self

theorem IsLayer.hi_le :
    ∀ y ∈ l, S.hi x ≤ S.lo y := (pairwise_cons.mp h.sorted).1

theorem IsLayer.lo_le :
    ∀ y ∈ x :: l, S.lo x ≤ S.lo y :=
  forall_mem_cons.mpr
    ⟨le_rfl, fun y hy => (S.lo_lt_hi x h.head_ok).le.trans (h.hi_le y hy)⟩

end

theorem IsLayer.cons (hx : S.Ok x) (hl : IsLayer S l) (h : ∀ y ∈ l, S.hi x ≤ S.lo y) :
    IsLayer S (x :: l) :=
  ⟨forall_mem_cons.mpr ⟨hx, hl.ok⟩, pairwise_cons.mpr ⟨h, hl.sorted⟩⟩

theorem IsLayer.append {l m : List α} (hl : IsLayer S l) (hm : IsLayer S m)
    (h : ∀ x ∈ l, ∀ y ∈ m, S.hi x ≤ S.lo y) : IsLayer S (l ++ m) :=
  ⟨forall_mem_append.mpr ⟨hl.ok, hm.ok⟩, pairwise_append.mpr ⟨hl.sorted, hm.sorted, h⟩⟩

theorem IsLayer.of_append {l m : List α} (h : IsLayer S (l ++ m)) :
    IsLayer S l ∧ IsLayer S m ∧ ∀ x ∈ l, ∀ y ∈ m, S.hi x ≤ S.lo y := by
  obtain ⟨hl, hm, hlm⟩ := pairwise_append.mp h.sorted
  exact ⟨⟨fun x hx => h.ok x (mem_append_left m hx), hl⟩,
    ⟨fun x hx => h.ok x (mem_append_right l hx), hm⟩, hlm⟩

variable (S) {rem : ℕ → List α}

def stackDen (n : ℕ) (rem : ℕ → List α) (p : P) : M :=
  ((List.range n).map fun i => listDen S (rem i) p).prod

private def segProd (f : ℕ → M) (s len : ℕ) : M := ((List.range' s len).map f).prod

private theorem segProd_congr {f g : ℕ → M} {s len : ℕ}
    (h : ∀ i, s ≤ i → i < s + len → f i = g i) : segProd f s len = segProd g s len := by
  unfold segProd
  congr 1
  apply map_congr_left
  intro i hi
  obtain ⟨hlo, hhi⟩ := mem_range'_1.mp hi
  exact h i hlo hhi

private theorem segProd_eq_one {f : ℕ → M} {s len : ℕ}
    (h : ∀ i, s ≤ i → i < s + len → f i = 1) : segProd f s len = 1 := by
  apply prod_eq_one
  intro m hm
  obtain ⟨i, hi, rfl⟩ := mem_map.mp hm
  obtain ⟨hlo, hhi⟩ := mem_range'_1.mp hi
  exact h i hlo hhi

private theorem segProd_append (f : ℕ → M) (s m n : ℕ) :
    segProd f s (m + n) = segProd f s m * segProd f (s + m) n := by
  unfold segProd
  rw [← prod_append, ← map_append, range'_append_1]

private theorem segProd_one (f : ℕ → M) (s : ℕ) : segProd f s 1 = f s := by
  simp [segProd]

/-- A product over the layers, cut at two of them. -/
private theorem prod_range_split (f : ℕ → M) {a b n : ℕ} (hab : a < b) (hb : b < n) :
    ((range n).map f).prod =
      segProd f 0 a * (f a * segProd f (a + 1) (b - a - 1) * f b) *
        segProd f (b + 1) (n - b - 1) := by
  have hn : n = a + (1 + ((b - a - 1) + (1 + (n - b - 1)))) := by omega
  have hb' : a + 1 + (b - a - 1) = b := by omega
  calc ((range n).map f).prod = segProd f 0 n := by
        rw [segProd, range_eq_range']
    _ = segProd f 0 (a + (1 + ((b - a - 1) + (1 + (n - b - 1))))) := by rw [← hn]
    _ = _ := by
        simp only [segProd_append, segProd_one, Nat.zero_add, hb', mul_assoc]

/-- A product over the layers, cut at one of them. -/
private theorem prod_range_cut (f : ℕ → M) {a n : ℕ} (ha : a < n) :
    ((range n).map f).prod =
      segProd f 0 a * f a * segProd f (a + 1) (n - a - 1) := by
  have hn : n = a + (1 + (n - a - 1)) := by omega
  calc ((range n).map f).prod = segProd f 0 n := by
        rw [segProd, range_eq_range']
    _ = segProd f 0 (a + (1 + (n - a - 1))) := by rw [← hn]
    _ = _ := by
        simp only [segProd_append, segProd_one, Nat.zero_add, mul_assoc]

theorem stackDen_eq_one {n : ℕ}
    (h : ∀ i, i < n → listDen S (rem i) p = 1) : stackDen S n rem p = 1 := by
  apply prod_eq_one
  intro m hm
  obtain ⟨i, hi, rfl⟩ := mem_map.mp hm
  exact h i (mem_range.mp hi)

theorem stackDen_congr {n : ℕ} {rem rem' : ℕ → List α}
    (h : ∀ i, i < n → listDen S (rem i) p = listDen S (rem' i) p) :
    stackDen S n rem p = stackDen S n rem' p := by
  unfold stackDen
  congr 1
  apply map_congr_left
  intro i hi
  exact h i (mem_range.mp hi)

/-- Only one layer means something at the point. -/
private theorem stackDen_single {n a : ℕ} (ha : a < n) (h : ∀ i, i ≠ a → listDen S (rem i) p = 1) :
    stackDen S n rem p = listDen S (rem a) p := by
  rw [stackDen, prod_range_cut _ ha, segProd_eq_one, segProd_eq_one, one_mul, mul_one]
  · intro i hi _
    exact h i (by omega)
  · intro i _ hi
    exact h i (by omega)

/-- Emitting the first item of a layer when every other item starts after it ends. -/
theorem stackDen_emit {n a : ℕ} {rem rem' : ℕ → List α} (ha : a < n) (hrem : rem a = x :: l)
    (hrem' : rem' a = l) (hsame : ∀ i, i ≠ a → rem' i = rem i)
    (hafter : ∀ i, ∀ y ∈ rem' i, S.hi x ≤ S.lo y) (p : P) :
    S.den x p * stackDen S n rem' p = stackDen S n rem p := by
  rcases lt_or_ge p (S.hi x) with hp | hp
  · have hone : ∀ i, listDen S (rem' i) p = 1 := fun i => listDen_before S (hafter i) hp
    have hl : listDen S l p = 1 := hrem' ▸ hone a
    rw [stackDen_eq_one S fun i _ => hone i, stackDen_single S ha fun i hi => hsame i hi ▸ hone i,
      hrem, listDen_cons, hl]
  · have hx := S.den_after x p hp
    rw [hx, one_mul]
    apply stackDen_congr
    intro i _
    by_cases hi : i = a
    · subst hi
      rw [hrem, hrem', listDen_cons, hx, one_mul]
    · rw [hsame i hi]

/-- Two values with a third one between them, the one of the newer layer first. -/
def around (a b : ℕ) (x mid y : M) : M := if a < b then x * mid * y else y * mid * x

/-- What a merge of the first items `left` of layer `a` and `right` of layer `b` into an emitted
item and new first items `l` and `r` must respect.  `left` is the lowest item of the stack and
`right` the second lowest, so that nothing but these two layers has a meaning before `right`. -/
structure MergeSound (a : ℕ) (left : α) (b : ℕ) (right : α) (emit l r : Option α) : Prop where
  touch : S.lo right ≤ S.hi left
  before : ∀ p, p < S.lo right →
    optDen S emit p * around a b (optDen S l p) 1 (optDen S r p) = S.den left p
  from_right : ∀ p, S.lo right ≤ p → ∀ mid : M, (a + 1 = b ∨ b + 1 = a → mid = 1) →
    around a b (optDen S l p) mid (optDen S r p) = around a b (S.den left p) mid (S.den right p)
  emit_ok : ∀ e ∈ emit, S.Ok e ∧ S.lo left ≤ S.lo e ∧ S.hi e ≤ S.lo right
  left_ok : ∀ x ∈ l, S.Ok x ∧ S.lo left ≤ S.lo x ∧ S.hi x ≤ S.hi left
  right_ok : ∀ x ∈ r, S.Ok x ∧ S.lo left ≤ S.lo x ∧ S.hi x ≤ S.hi right
  emit_first : ∀ e ∈ emit, ∀ x, x ∈ l ∨ x ∈ r → S.hi e ≤ S.lo x
  shrinks : (l.toList.map S.weight).sum + (r.toList.map S.weight).sum <
    S.weight left + S.weight right

structure Merged (rem rem' : ℕ → List α) (a : ℕ) (left : α) (ra : List α) (b : ℕ) (right : α)
    (rb : List α) (l r : Option α) : Prop where
  left_eq : rem a = left :: ra
  right_eq : rem b = right :: rb
  left_eq' : rem' a = l.toList ++ ra
  right_eq' : rem' b = r.toList ++ rb
  same : ∀ i, i ≠ a → i ≠ b → rem' i = rem i

section Merge

variable {S} {n a b : ℕ} {rem rem' : ℕ → List α} {left right : α} {ra rb : List α}
  {emit l r : Option α}

/-- A stack cut at two of its layers: what comes before, between and after them. -/
private theorem stackDen_pair (rem : ℕ → List α) (hab : a ≠ b) (ha : a < n) (hb : b < n)
    (p : P) :
    ∃ pre mid post : M, (a + 1 = b ∨ b + 1 = a → mid = 1) ∧
      ((∀ i, i ≠ a → i ≠ b → listDen S (rem i) p = 1) → pre = 1 ∧ mid = 1 ∧ post = 1) ∧
      ∀ rem' : ℕ → List α, (∀ i, i ≠ a → i ≠ b → rem' i = rem i) →
        stackDen S n rem' p =
          pre * around a b (listDen S (rem' a) p) mid (listDen S (rem' b) p) * post := by
  have key : ∀ {a b : ℕ}, a < b → b < n → ∃ pre mid post : M, (a + 1 = b → mid = 1) ∧
      ((∀ i, i ≠ a → i ≠ b → listDen S (rem i) p = 1) → pre = 1 ∧ mid = 1 ∧ post = 1) ∧
      ∀ rem' : ℕ → List α, (∀ i, i ≠ a → i ≠ b → rem' i = rem i) →
        stackDen S n rem' p =
          pre * (listDen S (rem' a) p * mid * listDen S (rem' b) p) * post := by
    intro a b hab hb
    refine ⟨segProd (fun i => listDen S (rem i) p) 0 a,
      segProd (fun i => listDen S (rem i) p) (a + 1) (b - a - 1),
      segProd (fun i => listDen S (rem i) p) (b + 1) (n - b - 1), ?_, ?_, ?_⟩
    · intro h
      apply segProd_eq_one
      intro i _ _
      omega
    · intro h
      refine ⟨segProd_eq_one ?_, segProd_eq_one ?_, segProd_eq_one ?_⟩
      all_goals
        intro i _ _
        exact h i (by omega) (by omega)
    · intro rem' hsame
      have hcongr : ∀ s len, (∀ i, s ≤ i → i < s + len → i ≠ a ∧ i ≠ b) →
          segProd (fun i => listDen S (rem' i) p) s len =
            segProd (fun i => listDen S (rem i) p) s len := by
        intro s len h
        apply segProd_congr
        intro i hlo hhi
        rw [hsame i (h i hlo hhi).1 (h i hlo hhi).2]
      rw [stackDen, prod_range_split _ hab hb, hcongr 0 a, hcongr (a + 1) (b - a - 1),
        hcongr (b + 1) (n - b - 1)]
      all_goals
        intro i _ _
        omega
  rcases Nat.lt_or_gt_of_ne hab with h | h
  · obtain ⟨pre, mid, post, hmid, hone, hsplit⟩ := key h hb
    refine ⟨pre, mid, post, fun hadj => hmid (by omega), hone, ?_⟩
    intro rem' hsame
    rw [hsplit rem' hsame, around, if_pos h]
  · obtain ⟨pre, mid, post, hmid, hone, hsplit⟩ := key h ha
    refine ⟨pre, mid, post, fun hadj => hmid (by omega),
      fun h => hone fun i hb ha => h i ha hb, ?_⟩
    intro rem' hsame
    rw [hsplit rem' fun i hb ha => hsame i ha hb, around, if_neg (by omega)]

/-- Before the second lowest item only the lowest one means something. -/
private theorem stackDen_merge_before (hab : a ≠ b) (ha : a < n) (hb : b < n)
    (hm : Merged rem rem' a left ra b right rb l r)
    (hs : MergeSound S a left b right emit l r)
    (hla : IsLayer S (rem a)) (hlb : IsLayer S (rem b))
    (hothers : ∀ i, i ≠ a → i ≠ b → ∀ x ∈ rem i, S.lo right ≤ S.lo x)
    (hp : p < S.lo right) :
    optDen S emit p * stackDen S n rem' p = stackDen S n rem p := by
  rw [hm.left_eq] at hla
  rw [hm.right_eq] at hlb
  have hra : listDen S ra p = 1 := listDen_before S hla.hi_le (hp.trans_le hs.touch)
  have hrb : listDen S (right :: rb) p = 1 := listDen_before S hlb.lo_le hp
  have hrb' : listDen S rb p = 1 := by
    rw [listDen_cons, S.den_before right p hp, one_mul] at hrb
    exact hrb
  obtain ⟨pre, mid, post, -, hone, hsplit⟩ := stackDen_pair (S := S) rem hab ha hb p
  obtain ⟨rfl, rfl, rfl⟩ := hone fun i hia hib => listDen_before S (hothers i hia hib) hp
  rw [hsplit rem' hm.same, hsplit rem fun i _ _ => rfl, hm.left_eq, hm.right_eq, hm.left_eq',
    hm.right_eq', hrb, listDen_append, listDen_append, listDen_cons, hra, hrb']
  have h := hs.before p hp
  simp only [around, mul_one, one_mul, ite_self] at h ⊢
  exact h

/-- From the second lowest item on the two layers mean together what they meant before. -/
private theorem around_merge (hs : MergeSound S a left b right emit l r)
    (hla : IsLayer S (left :: ra)) (hlb : IsLayer S (right :: rb))
    (hp : S.lo right ≤ p) {mid : M} (hmid : a + 1 = b ∨ b + 1 = a → mid = 1) :
    around a b (listDen S (l.toList ++ ra) p) mid (listDen S (r.toList ++ rb) p) =
      around a b (listDen S (left :: ra) p) mid (listDen S (right :: rb) p) := by
  have hl : S.hi left ≤ p → optDen S l p = 1 := by
    intro h
    cases l with
    | none => rfl
    | some x =>
      rw [optDen_some]
      exact S.den_after x p (((hs.left_ok x rfl).2.2).trans h)
  have hr : S.hi right ≤ p → optDen S r p = 1 := by
    intro h
    cases r with
    | none => rfl
    | some x =>
      rw [optDen_some]
      exact S.den_after x p (((hs.right_ok x rfl).2.2).trans h)
  have hone := hs.from_right p hp 1 fun _ => rfl
  have hwith := hs.from_right p hp mid hmid
  simp only [listDen_append, listDen_cons, around] at hone hwith ⊢
  change (if a < b then optDen S l p * _ * mid * (optDen S r p * _)
    else optDen S r p * _ * mid * (optDen S l p * _)) = _
  split
  · next hlt =>
    simp only [if_pos hlt] at hone hwith
    rcases lt_or_ge p (S.hi left) with h | h
    · rw [listDen_before S hla.hi_le h, mul_one, mul_one, ← mul_assoc, ← mul_assoc, hwith]
    · rw [hl h, S.den_after left p h] at hone ⊢
      simp only [one_mul] at hone ⊢
      rw [hone]
  · next hlt =>
    simp only [if_neg hlt] at hone hwith
    rcases lt_or_ge p (S.hi right) with h | h
    · rw [listDen_before S hlb.hi_le h, mul_one, mul_one, ← mul_assoc, ← mul_assoc, hwith]
    · rw [hr h, S.den_after right p h] at hone ⊢
      simp only [one_mul] at hone ⊢
      rw [hone]

/-- A sound merge of the two lowest items preserves the meaning of the stack. -/
theorem stackDen_merge (hab : a ≠ b) (ha : a < n) (hb : b < n)
    (hm : Merged rem rem' a left ra b right rb l r)
    (hs : MergeSound S a left b right emit l r)
    (hla : IsLayer S (rem a)) (hlb : IsLayer S (rem b))
    (hothers : ∀ i, i ≠ a → i ≠ b → ∀ x ∈ rem i, S.lo right ≤ S.lo x) (p : P) :
    optDen S emit p * stackDen S n rem' p = stackDen S n rem p := by
  rcases lt_or_ge p (S.lo right) with hp | hp
  · exact stackDen_merge_before hab ha hb hm hs hla hlb hothers hp
  · have hemit : optDen S emit p = 1 := by
      cases emit with
      | none => rfl
      | some e =>
        rw [optDen_some]
        exact S.den_after e p (((hs.emit_ok e rfl).2.2).trans hp)
    obtain ⟨pre, mid, post, hmid, -, hsplit⟩ := stackDen_pair (S := S) rem hab ha hb p
    rw [hm.left_eq] at hla
    rw [hm.right_eq] at hlb
    rw [hemit, one_mul, hsplit rem' hm.same, hsplit rem fun i _ _ => rfl, hm.left_eq,
      hm.right_eq, hm.left_eq', hm.right_eq', around_merge hs hla hlb hp hmid]

private def pairRem (x y : List α) : ℕ → List α
  | 0 => x
  | 1 => y
  | _ => []

private theorem stackDen_pairRem (x y : List α) (p : P) :
    stackDen S 2 (pairRem x y) p = listDen S x p * listDen S y p := by
  simp [stackDen, range_succ, pairRem]

/-- A sound merge of two layers, the lowest item being of the newer one. -/
theorem pairDen_merge_left (hs : MergeSound S 0 left 1 right emit l r)
    (hla : IsLayer S (left :: ra)) (hlb : IsLayer S (right :: rb)) (p : P) :
    optDen S emit p * (listDen S (l.toList ++ ra) p * listDen S (r.toList ++ rb) p) =
      listDen S (left :: ra) p * listDen S (right :: rb) p := by
  rw [← stackDen_pairRem, ← stackDen_pairRem]
  refine stackDen_merge (by omega) (by omega) (by omega) ⟨rfl, rfl, rfl, rfl, ?_⟩ hs hla hlb ?_ p
  all_goals
    intro i hi hi'
    match i with
    | 0 => exact absurd rfl hi
    | 1 => exact absurd rfl hi'
    | i + 2 => simp [pairRem]

/-- A sound merge of two layers, the lowest item being of the older one. -/
theorem pairDen_merge_right (hs : MergeSound S 1 left 0 right emit l r)
    (hla : IsLayer S (left :: ra)) (hlb : IsLayer S (right :: rb)) (p : P) :
    optDen S emit p * (listDen S (r.toList ++ rb) p * listDen S (l.toList ++ ra) p) =
      listDen S (right :: rb) p * listDen S (left :: ra) p := by
  rw [← stackDen_pairRem, ← stackDen_pairRem]
  refine stackDen_merge (by omega) (by omega) (by omega) ⟨rfl, rfl, rfl, rfl, ?_⟩ hs hla hlb ?_ p
  all_goals
    intro i hi hi'
    match i with
    | 0 => exact absurd rfl hi'
    | 1 => exact absurd rfl hi
    | i + 2 => simp [pairRem]

section

variable (hs : MergeSound S a left b right emit l r)
include hs

theorem MergeSound.left_layer (h : IsLayer S (left :: ra)) : IsLayer S (l.toList ++ ra) := by
  cases l with
  | none => exact h.tail
  | some x =>
    obtain ⟨hok, -, hhi⟩ := hs.left_ok x rfl
    exact IsLayer.cons hok h.tail fun y hy => hhi.trans (h.hi_le y hy)

theorem MergeSound.right_layer (h : IsLayer S (right :: rb)) : IsLayer S (r.toList ++ rb) := by
  cases r with
  | none => exact h.tail
  | some x =>
    obtain ⟨hok, -, hhi⟩ := hs.right_ok x rfl
    exact IsLayer.cons hok h.tail fun y hy => hhi.trans (h.hi_le y hy)

/-- Whatever a sound merge leaves of the two layers starts after the lowest item started and after
the emitted item ends. -/
theorem MergeSound.lo_le
    (hla : IsLayer S (left :: ra)) (hlb : IsLayer S (right :: rb)) (hle : S.lo left ≤ S.lo right)
    {z : α} (hz : z ∈ l.toList ++ ra ∨ z ∈ r.toList ++ rb) :
    S.lo left ≤ S.lo z ∧ ∀ e ∈ emit, S.hi e ≤ S.lo z := by
  simp only [mem_append, Option.mem_toList] at hz
  rcases hz with (hz | hz) | hz | hz
  · exact ⟨(hs.left_ok z hz).2.1, fun e he => hs.emit_first e he z (.inl hz)⟩
  · exact ⟨hla.lo_le z (mem_cons_of_mem left hz), fun e he =>
      ((hs.emit_ok e he).2.2.trans hs.touch).trans (hla.hi_le z hz)⟩
  · exact ⟨(hs.right_ok z hz).2.1, fun e he => hs.emit_first e he z (.inr hz)⟩
  · have hright := hlb.lo_le z (mem_cons_of_mem right hz)
    exact ⟨hle.trans hright, fun e he => (hs.emit_ok e he).2.2.trans hright⟩

end

end Merge

end Smos.Lib.Spans
