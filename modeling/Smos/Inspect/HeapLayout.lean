import Mathlib.Data.List.Nodup
import Mathlib.Data.List.Perm.Subperm
import Smos.Inspect.Heap
import Smos.Lib.Buddy
import Smos.Lib.Links

/-!
What holds of the heap between two operations: its blocks tile it, and the free list of each order
has the free blocks of that order.  Blocks that an operation has taken off their list but not yet
put to use are in limbo.
-/
namespace Smos.Inspect.Heap

open Lib.Buddy Lib.Links Container Function List Constants

variable {h : Heap} {i k u : ℕ}

def units (h : Heap) : ℕ := h.currentSizeBytes / minOrderSize

/-- The order of the block that starts at a unit, the free list of each order, and the blocks that
are in limbo. -/
structure Shape where
  blocks : ℕ → Option ℕ
  free : ℕ → List BlockIndex
  limbo : ℕ → Prop

/-- The heap has whole pages, inside the container and the largest VMO. -/
structure Sized (h : Heap) : Prop where
  pages : ∃ p, h.currentSizeBytes = 4096 * (p + 1)
  fits : h.currentSizeBytes ≤ h.container.length
  bound : h.currentSizeBytes ≤ maxVmoSize

namespace Sized

theorem dvd_units (hs : h.Sized) : 2 ^ 7 ∣ h.units := by
  obtain ⟨p, hp⟩ := hs.pages
  refine ⟨2 * (p + 1), ?_⟩
  unfold units minOrderSize
  omega

theorem hasHeader (hs : h.Sized) (hi : i < h.units) : h.container.HasHeader i := by
  have hfits := hs.fits
  unfold units minOrderSize at hi
  unfold Container.HasHeader headerOffset minOrderSize
  omega

/-- Every index of a block fits in the field for the next index. -/
theorem index_lt (hs : h.Sized) (hi : i < h.units) :
    i < 2 ^ HeaderFields.freeNextIndex.width := by
  have hb := hs.bound
  have hwidth : HeaderFields.freeNextIndex.width = 24 := rfl
  rw [hwidth]
  unfold units minOrderSize at hi
  unfold maxVmoSize at hb
  omega

end Sized

structure Layout (h : Heap) (s : Shape) : Prop where
  sized : h.Sized
  tiles : Tiles 7 s.blocks h.units
  order : ∀ {i k}, s.blocks i = some k → h.container.order i = k
  header : s.blocks 0 = some 1
  headerType : h.container.blockType 0 = BlockType.header.toNat
  hasHeader : h.hasHeader = true
  list : ∀ k ≤ 7, Chain h.container.freeNextIndex (h.freeHeadPerOrder k) (s.free k) 0
  nodup : ∀ k, (s.free k).Nodup
  mem : ∀ {i k}, i ∈ s.free k →
    s.blocks i = some k ∧ h.container.blockType i = BlockType.free.toNat ∧ ¬s.limbo i
  listed : ∀ {i k}, s.blocks i = some k → h.container.blockType i = BlockType.free.toNat →
    ¬s.limbo i → i ∈ s.free k

/-- A unit that the heap may write to: it is behind the heap, free or in limbo. -/
def Spare (h : Heap) (s : Shape) (u : ℕ) : Prop :=
  h.units ≤ u ∨
    ∃ i k, s.blocks i = some k ∧ (i ∈ s.free k ∨ s.limbo i) ∧ i ≤ u ∧ u < i + 2 ^ k

theorem spare_congr {h' : Heap} {s s' : Shape} {u : ℕ} (hu : h'.units ≤ u ↔ h.units ≤ u)
    (hloose : ∀ i k, s.blocks i = some k →
      (i ∈ s'.free k ∨ s'.limbo i ↔ i ∈ s.free k ∨ s.limbo i))
    (hblocks : s'.blocks = s.blocks := by rfl) : h'.Spare s' u ↔ h.Spare s u := by
  unfold Spare
  rw [hblocks]
  exact or_congr hu (exists₂_congr fun i k => and_congr_right fun hi =>
    and_congr_left' (hloose i k hi))

/-- The same units are spare, and the blocks in use stay as they are; of their bytes only the size
of the heap in the header block changes, which is in unit 1. -/
structure Keeps (h : Heap) (s : Shape) (h' : Heap) (s' : Shape) : Prop where
  spare : ∀ u, h'.Spare s' u ↔ h.Spare s u
  blocks : ∀ u, ¬h.Spare s u → s'.blocks u = s.blocks u
  unit : ∀ u, ¬h.Spare s u → u ≠ 1 → h'.container.unit u = h.container.unit u
  length : h'.container.length = h.container.length

/-- The type of a unit changes only where a block starts; unit 1 has the size of the heap. -/
def Retypes (h h' : Heap) (s' : Shape) : Prop :=
  ∀ u, u ≠ 1 → h'.container.blockType u = h.container.blockType u ∨ s'.blocks u ≠ none

theorem Retypes.trans {h' h'' : Heap} {s' s'' : Shape} (hr : Retypes h h' s')
    (hr' : Retypes h' h'' s'') (hstarts : ∀ u, s'.blocks u ≠ none → s''.blocks u ≠ none) :
    Retypes h h'' s'' := by
  intro u h1
  rcases hr' u h1 with heq | hstart
  · exact (hr u h1).imp heq.trans (hstarts u)
  · exact .inr hstart

/-- Two blocks were added, or replaced. -/
theorem starts_update {B : ℕ → Option ℕ} {a b : ℕ} (hu : u = a ∨ u = b ∨ B u ≠ none) :
    update (update B a (some k)) b (some k) u ≠ none := by
  by_cases hb : u = b
  · simp [hb]
  · by_cases ha : u = a
    · subst ha
      simp [hb]
    · simpa [ha, hb] using hu

theorem Keeps.refl (h : Heap) (s : Shape) : Keeps h s h s :=
  ⟨fun _ => Iff.rfl, fun _ _ => rfl, fun _ _ _ => rfl, rfl⟩

theorem Keeps.trans {h' h'' : Heap} {s s' s'' : Shape} (hk : Keeps h s h' s')
    (hk' : Keeps h' s' h'' s'') : Keeps h s h'' s'' where
  spare := fun u => (hk'.spare u).trans (hk.spare u)
  blocks := fun u hu => (hk'.blocks u fun h' => hu ((hk.spare u).mp h')).trans (hk.blocks u hu)
  unit := fun u hu h1 =>
    (hk'.unit u (fun h' => hu ((hk.spare u).mp h')) h1).trans (hk.unit u hu h1)
  length := hk'.length.trans hk.length

namespace Layout

variable {s : Shape}

section

variable (hl : h.Layout s)
include hl

theorem lt_units (hi : s.blocks i = some k) : i < h.units := hl.tiles.lt hi

theorem order_le (hi : s.blocks i = some k) : k ≤ 7 := hl.tiles.order_le hi

theorem hasHeaderAt (hi : s.blocks i = some k) : h.container.HasHeader i :=
  hl.sized.hasHeader (hl.lt_units hi)

theorem zero_not_free : 0 ∉ s.free k := by
  intro h0
  have htype := (hl.mem h0).2.1
  rw [hl.headerType] at htype
  exact absurd htype (by decide)

/-- The start of a free list fits in the field for the next index. -/
theorem head_lt (hk : k ≤ 7) :
    h.freeHeadPerOrder k < 2 ^ HeaderFields.freeNextIndex.width := by
  rw [(hl.list k hk).head]
  cases hf : s.free k with
  | nil => decide
  | cons a l => exact hl.sized.index_lt (hl.lt_units (hl.mem (k := k) (by simp [hf])).1)

theorem isFreeBlock (hi : i ∈ s.free k) : h.isFreeBlock i k = true := by
  obtain ⟨hb, htype, -⟩ := hl.mem hi
  have hlt : ¬h.currentSizeBytes / minOrderSize ≤ i := Nat.not_le.mpr (hl.lt_units hb)
  rw [Heap.isFreeBlock, if_neg hlt]
  simp [isFree, htype, hl.order hb]

/-- A free list is no longer than the container, so the walk along it has enough fuel. -/
theorem length_free_le (k : ℕ) : (s.free k).length ≤ h.container.length := by
  have hsub : s.free k ⊆ range h.units := fun j hj =>
    mem_range.mpr (hl.lt_units (hl.mem hj).1)
  have hle : (s.free k).length ≤ h.units := by
    simpa using (List.Nodup.subperm (hl.nodup k) hsub).length_le
  have hfits := hl.sized.fits
  have hunits : h.units ≤ h.currentSizeBytes := Nat.div_le_self _ _
  omega

end

end Layout

/-- The walk along a free list finds the block before `i`. -/
theorem unlinkLoop_eq {freeNextIndex p : ℕ} {x : List BlockIndex} {curr fuel : ℕ}
    (hchain : Chain h.container.freeNextIndex curr (x ++ [p]) i)
    (hfree : ∀ a ∈ x ++ [p], h.isFreeBlock a k = true) (hne : i ∉ x ++ [p])
    (hfuel : x.length < fuel) :
    h.unlinkLoop i freeNextIndex k fuel curr =
      some { h with container := h.container.setFreeNextIndex p freeNextIndex } := by
  induction x generalizing curr fuel with
  | nil =>
    obtain ⟨fuel, rfl⟩ := Nat.exists_eq_succ_of_ne_zero (Nat.ne_of_gt hfuel)
    obtain ⟨rfl, hnext⟩ := hchain
    have hnext : h.container.freeNextIndex curr = i := hnext
    simp only [unlinkLoop, hfree curr (by simp), hnext, if_true]
  | cons a x ih =>
    obtain ⟨fuel, rfl⟩ := Nat.exists_eq_succ_of_ne_zero (Nat.ne_of_gt (Nat.zero_lt_of_lt hfuel))
    obtain ⟨rfl, hrest⟩ := hchain
    have hin : i ∉ x ++ [p] := fun hi => hne (mem_cons_of_mem _ hi)
    have hnext : h.container.freeNextIndex curr ≠ i :=
      ne_of_mem_of_not_mem (hrest.head_mem (by simp)) hin
    simp only [unlinkLoop, hfree curr (by simp), if_true, if_neg hnext]
    exact ih hrest (forall_mem_cons.mp hfree).2 hin (by simpa using hfuel)

def Shape.unlist (s : Shape) (i k : ℕ) : Shape :=
  { s with
    free := Function.update s.free k ((s.free k).erase i)
    limbo := fun j => j = i ∨ s.limbo j }

namespace Layout

variable {s : Shape}

theorem order_unique {l : ℕ} (hl : h.Layout s) (hk : i ∈ s.free k) (hi : s.blocks i = some l) :
    l = k :=
  Option.some.inj (hi.symm.trans (hl.mem hk).1)

theorem mem_unlist {j l : ℕ} (hl : h.Layout s) (hi : i ∈ s.free k) :
    j ∈ (s.unlist i k).free l ↔ j ∈ s.free l ∧ j ≠ i := by
  unfold Shape.unlist
  by_cases hlk : l = k
  · subst hlk
    simp [(hl.nodup l).mem_erase_iff, and_comm]
  · have hne : j ∈ s.free l → j ≠ i := by
      rintro hj rfl
      exact hlk (hl.order_unique hi (hl.mem hj).1)
    simpa [hlk] using hne

/-- New next indexes and list heads chain the list of order `k` as `x ++ y`; nothing else changes,
and the units of `x` are the only ones that are written. -/
structure Unlinks (h : Heap) (k : ℕ) (x y : List BlockIndex) (c' : Container)
    (heads : ℕ → BlockIndex) : Prop where
  length : c'.length = h.container.length
  order : ∀ j, c'.order j = h.container.order j
  blockType : ∀ j, c'.blockType j = h.container.blockType j
  unit : ∀ j, j ∉ x → c'.unit j = h.container.unit j
  heads_eq : ∀ l, l ≠ k → heads l = h.freeHeadPerOrder l
  chain : Chain c'.freeNextIndex (heads k) (x ++ y) 0

section Unlinks

variable {x y : List BlockIndex} {c' : Container} {heads : ℕ → BlockIndex} (hl : h.Layout s)
  (hxy : s.free k = x ++ i :: y)
include hl hxy

theorem notMem_of_free_eq : i ∉ x := by
  have hnd := hl.nodup k
  rw [hxy] at hnd
  exact fun hx => (nodup_append.mp hnd).2.2 i hx i (by simp) rfl

theorem erase_of_free_eq : (s.free k).erase i = x ++ y := by
  rw [hxy, erase_append_right _ (hl.notMem_of_free_eq hxy), erase_cons_head]

theorem unlinks_layout (hu : Unlinks h k x y c' heads) :
    Layout { h with container := c', freeHeadPerOrder := heads } (s.unlist i k) := by
  have hi : i ∈ s.free k := by simp [hxy]
  refine ⟨⟨hl.sized.pages, hu.length ▸ hl.sized.fits, hl.sized.bound⟩, hl.tiles,
    fun hj => (hu.order _).trans (hl.order hj), hl.header,
    (hu.blockType 0).trans hl.headerType, hl.hasHeader, ?_, ?_, ?_, ?_⟩
  · intro l hl7
    by_cases hlk : l = k
    · subst hlk
      simpa [Shape.unlist, hl.erase_of_free_eq hxy] using hu.chain
    · have hfree : (s.unlist i k).free l = s.free l := by simp [Shape.unlist, hlk]
      change Chain c'.freeNextIndex (heads l) _ 0
      rw [hfree, hu.heads_eq l hlk]
      refine (hl.list l hl7).congr fun a ha => ?_
      have hax : a ∉ x := fun hax =>
        hlk (hl.order_unique (by simp [hxy, hax] : a ∈ s.free k) (hl.mem ha).1)
      exact congrArg View.next (view_of_unit hu.length (hu.unit a hax))
  · intro l
    by_cases hlk : l = k
    · subst hlk
      simpa [Shape.unlist] using (hl.nodup l).erase i
    · simpa [Shape.unlist, hlk] using hl.nodup l
  · intro j l hj
    obtain ⟨hj', hne⟩ := (hl.mem_unlist hi).mp hj
    obtain ⟨hjb, hjt, hjl⟩ := hl.mem hj'
    exact ⟨hjb, (hu.blockType j).trans hjt, not_or.mpr ⟨hne, hjl⟩⟩
  · intro j l hjb hjt hjl
    have hjl : j ≠ i ∧ ¬s.limbo j := not_or.mp hjl
    exact (hl.mem_unlist hi).mpr ⟨hl.listed hjb ((hu.blockType j).symm.trans hjt) hjl.2, hjl.1⟩

theorem unlinks_keeps (hu : Unlinks h k x y c' heads) :
    Keeps h s { h with container := c', freeHeadPerOrder := heads } (s.unlist i k) := by
  have hi : i ∈ s.free k := by simp [hxy]
  refine ⟨?_, fun _ _ => rfl, ?_, hu.length⟩
  · intro u
    refine spare_congr Iff.rfl fun j l hjb => ?_
    rw [hl.mem_unlist hi]
    by_cases hji : j = i
    · subst hji
      obtain rfl := hl.order_unique hi hjb
      simp [Shape.unlist, hi]
    · simp [Shape.unlist, hji]
  · intro u hspare _
    refine hu.unit u fun hux => hspare ?_
    have hfree : u ∈ s.free k := by simp [hxy, hux]
    exact .inr ⟨u, k, (hl.mem hfree).1, .inl hfree, Nat.le_refl u,
      Nat.lt_add_of_pos_right (Nat.two_pow_pos k)⟩

theorem not_numOrders_le : ¬numOrders ≤ h.container.order i := by
  have hb := (hl.mem (by simp [hxy] : i ∈ s.free k)).1
  rw [hl.order hb]
  exact Nat.not_le.mpr (Nat.lt_succ_of_le (hl.order_le hb))

end Unlinks

/-- The head of a list is taken off it. -/
theorem removeFree_head {y : List BlockIndex} (hl : h.Layout s) (hxy : s.free k = i :: y) :
    ∃ heads, h.removeFree i = some { h with freeHeadPerOrder := heads } ∧
      Unlinks h k [] y h.container heads := by
  have hb := (hl.mem (by simp [hxy] : i ∈ s.free k)).1
  have hnot : ¬numOrders ≤ h.container.order i := hl.not_numOrders_le (x := []) hxy
  have hchain := hl.list k (hl.order_le hb)
  rw [hxy] at hchain
  obtain ⟨hhead, hrest⟩ := hchain
  rw [hl.order hb] at hnot
  refine ⟨update h.freeHeadPerOrder k (h.container.freeNextIndex i), ?_, rfl, fun _ => rfl,
    fun _ => rfl, fun _ _ => rfl, fun l hlk => update_of_ne hlk _ _, ?_⟩
  · simp only [Heap.removeFree, hl.order hb, if_neg hnot, hhead, if_true, setFreeHead]
  · rw [update_self]
    exact hrest

/-- The block before another one in a list is linked to the one behind that. -/
theorem removeFree_after {x y : List BlockIndex} {p : BlockIndex} (hl : h.Layout s)
    (hxy : s.free k = (x ++ [p]) ++ i :: y) :
    ∃ c', h.removeFree i = some { h with container := c' } ∧
      Unlinks h k (x ++ [p]) y c' h.freeHeadPerOrder := by
  have hix := hl.notMem_of_free_eq hxy
  have hb := (hl.mem (by simp [hxy] : i ∈ s.free k)).1
  have hp : p ∈ s.free k := by simp [hxy]
  have hnot := hl.not_numOrders_le hxy
  have hnd := hl.nodup k
  have hchain := hl.list k (hl.order_le hb)
  rw [hxy] at hnd hchain
  have hseg : Chain h.container.freeNextIndex (h.freeHeadPerOrder k) (x ++ [p]) i := by
    obtain ⟨m, hm, hmi, -⟩ := Chain.append.mp hchain
    exact hmi ▸ hm
  have hne : h.freeHeadPerOrder k ≠ i := ne_of_mem_of_not_mem (hseg.head_mem (by simp)) hix
  have hview := view_setFreeNextIndex (hl.hasHeaderAt (hl.mem hp).1)
    (h.container.freeNextIndex_lt i)
  have hother : ∀ j, j ≠ p →
      (h.container.setFreeNextIndex p (h.container.freeNextIndex i)).view j =
        h.container.view j :=
    fun _ hjp => view_of_unit length_setFreeNextIndex (unit_setHeaderField hjp)
  refine ⟨h.container.setFreeNextIndex p (h.container.freeNextIndex i), ?_,
    length_setFreeNextIndex, fun j => ?_, fun j => ?_, fun j hj => ?_, fun _ _ => rfl, ?_⟩
  · rw [hl.order hb] at hnot
    simp only [Heap.removeFree, hl.order hb, if_neg hnot, if_neg hne]
    refine unlinkLoop_eq hseg (fun a ha => ?_) hix ?_
    · exact hl.isFreeBlock (by rw [hxy]; exact mem_append_left _ ha)
    · have hle := hl.length_free_le k
      rw [hxy] at hle
      simp only [length_append, length_cons] at hle
      omega
  · by_cases hjp : j = p
    · subst hjp
      exact congrArg View.order hview
    · exact congrArg View.order (hother j hjp)
  · by_cases hjp : j = p
    · subst hjp
      exact congrArg View.blockType hview
    · exact congrArg View.blockType (hother j hjp)
  · exact unit_setHeaderField fun hjp => hj (by simp [hjp])
  · rw [append_assoc] at hchain ⊢
    refine hchain.unlink (fun a ha => ?_) (congrArg View.next hview)
    have hap : a ≠ p := by
      rintro rfl
      rw [append_assoc, singleton_append, nodup_middle, nodup_cons] at hnd
      refine hnd.1 ?_
      rcases mem_append.mp ha with ha | ha <;> simp [ha]
    exact congrArg View.next (hother a hap)

/-- Taking a block off its list writes at most the next index of another free block. -/
theorem removeFree (hl : h.Layout s) (hi : i ∈ s.free k) :
    ∃ c' heads, h.removeFree i = some { h with container := c', freeHeadPerOrder := heads } ∧
      Layout { h with container := c', freeHeadPerOrder := heads } (s.unlist i k) ∧
      Keeps h s { h with container := c', freeHeadPerOrder := heads } (s.unlist i k) ∧
      ∀ j, c'.blockType j = h.container.blockType j := by
  obtain ⟨x, y, hxy⟩ := append_of_mem hi
  obtain ⟨c', heads, hrun, hu⟩ : ∃ c' heads,
      h.removeFree i = some { h with container := c', freeHeadPerOrder := heads } ∧
      Unlinks h k x y c' heads := by
    rcases eq_nil_or_concat x with rfl | ⟨x, p, rfl⟩
    · obtain ⟨heads, hrun, hu⟩ := hl.removeFree_head hxy
      exact ⟨_, heads, hrun, hu⟩
    · rw [concat_eq_append] at *
      obtain ⟨c', hrun, hu⟩ := hl.removeFree_after hxy
      exact ⟨c', _, hrun, hu⟩
  exact ⟨c', heads, hrun, hl.unlinks_layout hxy hu, hl.unlinks_keeps hxy hu, hu.blockType⟩

/-- New free blocks are put at the head of the list of their order, and the other blocks stay as
they are. -/
theorem prepend {h' : Heap} {s' : Shape} (new : List BlockIndex) (hl : h.Layout s)
    (hsized : h'.Sized) (htiles : Tiles 7 s'.blocks h'.units) (hheader : h'.hasHeader = true)
    (hzero : 0 ∉ new) (hheads : ∀ l, l ≠ k → h'.freeHeadPerOrder l = h.freeHeadPerOrder l)
    (hchain : Chain h'.container.freeNextIndex (h'.freeHeadPerOrder k) new (h.freeHeadPerOrder k))
    (hnodup : new.Nodup) (hfree : s'.free = update s.free k (new ++ s.free k))
    (hnew : ∀ j ∈ new, s'.blocks j = some k ∧ h'.container.order j = k ∧
      h'.container.blockType j = BlockType.free.toNat ∧ ¬s'.limbo j ∧ ∀ l, j ∉ s.free l)
    (hold : ∀ j ∉ new, s'.blocks j = s.blocks j ∧ (s'.limbo j ↔ s.limbo j) ∧
      ∀ l, s.blocks j = some l → h'.container.view j = h.container.view j) : h'.Layout s' := by
  have hnot : ∀ {j l}, j ∈ s.free l → j ∉ new := fun hj hjn => (hnew _ hjn).2.2.2.2 _ hj
  have htype : ∀ {j l}, j ∉ new → s.blocks j = some l →
      h'.container.blockType j = h.container.blockType j := fun hjn hj =>
    congrArg View.blockType ((hold _ hjn).2.2 _ hj)
  have hmem : ∀ {j l}, j ∈ s'.free l ↔ l = k ∧ j ∈ new ∨ j ∈ s.free l := by
    intro j l
    rw [hfree]
    by_cases hlk : l = k
    · subst hlk
      simp
    · simp [hlk]
  refine ⟨hsized, htiles, ?_, ?_, ?_, hheader, ?_, ?_, ?_, ?_⟩
  · intro j l hj
    by_cases hjn : j ∈ new
    · obtain ⟨hjb, horder, -⟩ := hnew j hjn
      exact horder.trans (Option.some.inj (hjb.symm.trans hj))
    · rw [(hold j hjn).1] at hj
      exact (congrArg View.order ((hold j hjn).2.2 l hj)).trans (hl.order hj)
  · exact (hold 0 hzero).1.trans hl.header
  · exact (htype hzero hl.header).trans hl.headerType
  · intro l hl7
    have hlist := (hl.list l hl7).congr fun a ha =>
      congrArg View.next ((hold a (hnot ha)).2.2 l (hl.mem ha).1)
    rw [hfree]
    by_cases hlk : l = k
    · subst hlk
      rw [update_self]
      exact Chain.append.mpr ⟨_, hchain, hlist⟩
    · rw [update_of_ne hlk, hheads l hlk]
      exact hlist
  · intro l
    rw [hfree]
    by_cases hlk : l = k
    · subst hlk
      rw [update_self, nodup_append]
      exact ⟨hnodup, hl.nodup l, fun a ha b hb hab => hnot hb (hab ▸ ha)⟩
    · rw [update_of_ne hlk]
      exact hl.nodup l
  · intro j l hj
    rcases hmem.mp hj with ⟨rfl, hjn⟩ | hj
    · obtain ⟨hjb, -, hjt, hjl, -⟩ := hnew j hjn
      exact ⟨hjb, hjt, hjl⟩
    · obtain ⟨hjb, hjt, hjl⟩ := hl.mem hj
      obtain ⟨hblocks, hlimbo, -⟩ := hold j (hnot hj)
      exact ⟨hblocks.trans hjb, (htype (hnot hj) hjb).trans hjt, mt hlimbo.mp hjl⟩
  · intro j l hj hjt hjl
    refine hmem.mpr ?_
    by_cases hjn : j ∈ new
    · exact .inl ⟨Option.some.inj (hj.symm.trans (hnew j hjn).1), hjn⟩
    · obtain ⟨hblocks, hlimbo, -⟩ := hold j hjn
      rw [hblocks] at hj
      exact .inr (hl.listed hj ((htype hjn hj).symm.trans hjt) (mt hlimbo.mpr hjl))

end Layout

end Smos.Inspect.Heap
