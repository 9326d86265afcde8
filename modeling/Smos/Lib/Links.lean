import Mathlib.Data.List.Basic

/-!
Linked lists over a memory that is seen through the pointers of its nodes: doubly linked ones,
by the next and the previous pointer, and singly linked ones that end at a given node.
-/
namespace Smos.Lib.Links

section Doubly

variable {α : Type*} {next prev next' prev' : α → Option α} {l : List α}

/-- The nodes of a list are linked in its order; `p` stands before the first
of them and `n` behind the last. -/
def Segment (next prev : α → Option α) : Option α → List α → Option α → Prop
  | _, [], _ => True
  | p, a :: l, n => prev a = p ∧ next a = l.head?.or n ∧ Segment next prev (some a) l n

theorem Segment.append {l r : List α} : ∀ {p n : Option α},
    Segment next prev p (l ++ r) n ↔
      Segment next prev p l (r.head?.or n) ∧ Segment next prev (l.getLast?.or p) r n := by
  induction l with
  | nil => simp [Segment]
  | cons a l ih =>
    intro p n
    have hlast : (a :: l).getLast?.or p = l.getLast?.or (some a) := by
      cases l <;> simp [List.getLast?_cons]
    simp only [List.cons_append, Segment, ih, hlast, List.head?_append, Option.or_assoc]
    tauto

theorem Segment.congr {p n : Option α} (h : Segment next prev p l n)
    (hnext : ∀ a ∈ l, next' a = next a) (hprev : ∀ a ∈ l, prev' a = prev a) :
    Segment next' prev' p l n := by
  induction l generalizing p with
  | nil => trivial
  | cons a l ih =>
    obtain ⟨hp, hn, hl⟩ := h
    refine ⟨(hprev a (by simp)).trans hp, (hnext a (by simp)).trans hn, ih hl ?_ ?_⟩
    · exact (List.forall_mem_cons.mp hnext).2
    · exact (List.forall_mem_cons.mp hprev).2

/-- Writing the next pointer of the last node changes what the segment runs into. -/
theorem Segment.set_next {p n n' : Option α} {b : α} (h : Segment next prev p (l ++ [b]) n)
    (hnext : ∀ a ∈ l, next' a = next a) (hlast : next' b = n')
    (hprev : ∀ a ∈ l ++ [b], prev' a = prev a) :
    Segment next' prev' p (l ++ [b]) n' := by
  rw [Segment.append] at h ⊢
  obtain ⟨hl, hb, -⟩ := h
  refine ⟨?_, ?_, by simpa using hlast, trivial⟩
  · exact hl.congr hnext fun a ha => hprev a (by simp [ha])
  · exact (hprev b (by simp)).trans hb

/-- Writing the previous pointer of the first node changes what the segment hangs on. -/
theorem Segment.set_prev {p p' n : Option α} {b : α} (h : Segment next prev p (b :: l) n)
    (hprev : ∀ a ∈ l, prev' a = prev a) (hhead : prev' b = p')
    (hnext : ∀ a ∈ b :: l, next' a = next a) :
    Segment next' prev' p' (b :: l) n := by
  obtain ⟨-, hn, hl⟩ := h
  refine ⟨hhead, (hnext b (by simp)).trans hn, hl.congr ?_ hprev⟩
  exact (List.forall_mem_cons.mp hnext).2

end Doubly

section Singly

variable {α : Type*} {next next' : α → α} {s e : α} {l r : List α}

def Chain (next : α → α) : α → List α → α → Prop
  | s, [], e => s = e
  | s, a :: l, e => s = a ∧ Chain next (next a) l e

theorem Chain.append : Chain next s (l ++ r) e ↔ ∃ m, Chain next s l m ∧ Chain next m r e := by
  induction l generalizing s with
  | nil => simp [Chain]
  | cons a l ih => simp [Chain, ih, and_assoc]

theorem Chain.congr (h : Chain next s l e) (hnext : ∀ a ∈ l, next' a = next a) :
    Chain next' s l e := by
  induction l generalizing s with
  | nil => exact h
  | cons a l ih =>
    refine ⟨h.1, ?_⟩
    rw [hnext a (by simp)]
    exact ih h.2 (List.forall_mem_cons.mp hnext).2

/-- The chain starts at its first node. -/
theorem Chain.head (h : Chain next s l e) : s = l.headD e := by
  cases l with
  | nil => exact h
  | cons a l => exact h.1

theorem Chain.head_mem (h : Chain next s l e) (hl : l ≠ []) : s ∈ l := by
  cases l with
  | nil => exact absurd rfl hl
  | cons a l => exact h.1 ▸ List.mem_cons_self

/-- Taking the node `i` out: the last node before it points to what follows it. -/
theorem Chain.unlink {x : List α} {p i : α} (h : Chain next s (x ++ p :: i :: r) e)
    (hother : ∀ a ∈ x ++ r, next' a = next a) (hp : next' p = next i) :
    Chain next' s (x ++ p :: r) e := by
  obtain ⟨m, hx, hpm, hpi, hr⟩ := Chain.append.mp h
  refine Chain.append.mpr ⟨m, hx.congr fun a ha => hother a (by simp [ha]), hpm, ?_⟩
  rw [hp]
  exact hr.congr fun a ha => hother a (by simp [ha])

end Singly

end Smos.Lib.Links
