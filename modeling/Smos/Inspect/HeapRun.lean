import Smos.Inspect.HeapUse

/-!
Runs of the heap: any sequence of allocations and of frees of blocks that were handed out.
-/
namespace Smos.Inspect.Heap

open Lib.Buddy Lib.Links Function List Nat Constants

/-- The blocks that are found by walking headers from offset 0, with their orders. -/
def blocks (h : Heap) : List (BlockIndex × ℕ) :=
  walk h.container.order h.units (h.units + 1) 0

def freeWalk (h : Heap) (order : ℕ) : ℕ → BlockIndex → Option (List BlockIndex)
  | 0, _ => none
  | fuel + 1, index =>
    if h.isFreeBlock index order then
      (h.freeWalk order fuel (h.container.freeNextIndex index)).map (index :: ·)
    else some []

def freeList (h : Heap) (order : ℕ) : Option (List BlockIndex) :=
  h.freeWalk order (h.container.length + 1) (h.freeHeadPerOrder order)

/-- The heaps that allocations of at least one byte and frees of live blocks lead to, with the
blocks that are handed out and the sizes they were asked for. -/
inductive Run (c : Container) : Heap → List (BlockIndex × ℕ) → Prop
  | new {h} : Heap.new c = some (.ok h) → Run c h []
  | allocate {h h' live size i} : Run c h live → 1 ≤ size →
      h.allocateBlock size = some (.ok i, h') → Run c h' ((i, size) :: live)
  | refused {h h' live size error} : Run c h live → 1 ≤ size →
      h.allocateBlock size = some (.error error, h') → Run c h' live
  | free {h h' live size i result} : Run c h live → (i, size) ∈ live →
      h.freeBlock i = some (result, h') → Run c h' (live.erase (i, size))

inductive Call : Heap → List (BlockIndex × ℕ) → Heap → List (BlockIndex × ℕ) → Prop
  | allocate {h h' live size i} : 1 ≤ size → h.allocateBlock size = some (.ok i, h') →
      Call h live h' ((i, size) :: live)
  | refused {h h' live size error} : 1 ≤ size → h.allocateBlock size = some (.error error, h') →
      Call h live h' live
  | free {h h' live size i result} : (i, size) ∈ live → h.freeBlock i = some (result, h') →
      Call h live h' (live.erase (i, size))

structure Sound (h : Heap) (live : List (BlockIndex × ℕ)) : Prop where
  size : h.currentSizeBytes = minOrderSize * h.units
  tile : Consecutive 0 h.blocks h.units
  aligned : ∀ i k, (i, k) ∈ h.blocks → Utils.orderToSize k ∣ Container.headerOffset i
  lists : ∀ order < numOrders, ∃ l, h.freeList order = some l ∧ l.Nodup ∧
    ∀ i, i ∈ l ↔ (i, order) ∈ h.blocks ∧ h.container.isFree i = true
  buddies : ∀ i k, k < numOrders - 1 → (i, k) ∈ h.blocks →
    h.container.isFree i = true → (buddy i k, k) ∈ h.blocks →
    h.container.isFree (buddy i k) = false
  header : (Container.headerIndex, headerOrder) ∈ h.blocks
  distinct : live.Pairwise fun a b =>
    a.1 + 2 ^ Utils.fitOrder a.2 ≤ b.1 ∨ b.1 + 2 ^ Utils.fitOrder b.2 ≤ a.1
  mem : ∀ i size, (i, size) ∈ live → (i, Utils.fitOrder size) ∈ h.blocks ∧
    h.container.isFree i = false ∧ 2 ^ headerOrder ≤ i ∧
    size ≤ Utils.orderToSize (Utils.fitOrder size) ∧
    ∀ k < Utils.fitOrder size, Utils.orderToSize k < size

structure Owns (used : ℕ → Option ℕ) (live : List (BlockIndex × ℕ)) : Prop where
  distinct : (live.map Prod.fst).Nodup
  mem : ∀ {i size}, (i, size) ∈ live → 1 ≤ size ∧ i ≠ 0 ∧ used i = some (Utils.fitOrder size)
  all : ∀ {i k}, used i = some k → i ≠ 0 → ∃ size, (i, size) ∈ live

section Steps

variable {used : ℕ → Option ℕ} {live : List (BlockIndex × ℕ)} {i size : ℕ}

namespace Owns

theorem cons (ho : Owns used live) (h0 : used 0 ≠ none) (hi : used i = none) (hsize : 1 ≤ size) :
    Owns (update used i (some (Utils.fitOrder size))) ((i, size) :: live) := by
  have hnot : ∀ {j n}, (j, n) ∈ live → j ≠ i := by
    rintro j n hj rfl
    rw [(ho.mem hj).2.2] at hi
    cases hi
  constructor
  · rw [map_cons, nodup_cons]
    refine ⟨fun hmem => ?_, ho.distinct⟩
    obtain ⟨⟨j, n⟩, hj, hji⟩ := mem_map.mp hmem
    exact hnot hj hji
  · intro j n hj
    rcases mem_cons.mp hj with heq | hj
    · cases heq
      refine ⟨hsize, ?_, update_self ..⟩
      rintro rfl
      exact h0 hi
    · obtain ⟨h1, h2, h3⟩ := ho.mem hj
      exact ⟨h1, h2, (update_of_ne (hnot hj) ..).trans h3⟩
  · intro j k hj hj0
    by_cases hji : j = i
    · exact ⟨size, by simp [hji]⟩
    · rw [update_of_ne hji] at hj
      obtain ⟨n, hn⟩ := ho.all hj hj0
      exact ⟨n, mem_cons_of_mem _ hn⟩

theorem mem_erase (ho : Owns used live) (hi : (i, size) ∈ live) {j n : ℕ} :
    (j, n) ∈ live.erase (i, size) ↔ j ≠ i ∧ (j, n) ∈ live := by
  have hnd : live.Nodup := ho.distinct.of_map _
  rw [hnd.mem_erase_iff]
  refine and_congr_left fun hj => not_congr ⟨fun heq => congrArg Prod.fst heq, fun hji => ?_⟩
  exact inj_on_of_nodup_map ho.distinct hj hi hji

theorem erase (ho : Owns used live) (hi : (i, size) ∈ live) :
    Owns (update used i none) (live.erase (i, size)) := by
  constructor
  · exact ho.distinct.sublist (erase_sublist.map _)
  · intro j n hj
    obtain ⟨hji, hj⟩ := (ho.mem_erase hi).mp hj
    obtain ⟨h1, h2, h3⟩ := ho.mem hj
    exact ⟨h1, h2, (update_of_ne hji ..).trans h3⟩
  · intro j k hj hj0
    by_cases hji : j = i
    · rw [hji, update_self] at hj
      cases hj
    · rw [update_of_ne hji] at hj
      obtain ⟨n, hn⟩ := ho.all hj hj0
      exact ⟨n, (ho.mem_erase hi).mpr ⟨hji, hn⟩⟩

/-- Only the header is in use. -/
theorem header : Owns (update (fun _ => none) 0 (some 1)) [] := by
  refine ⟨by simp, nofun, fun {j k} hj hj0 => ?_⟩
  rw [update_of_ne hj0] at hj
  cases hj

end Owns

end Steps

variable {c : Container} {h : Heap} {s : Shape} {used : ℕ → Option ℕ}
  {live : List (BlockIndex × ℕ)} {i k : ℕ}

theorem Call.holds {h' : Heap} {live' : List (BlockIndex × ℕ)} (hcall : Call h live h' live')
    (hh : h.Holds s used) (ho : Owns used live) :
    ∃ s' used', h'.Holds s' used' ∧ Owns used' live' ∧ Retypes h h' s' := by
  cases hcall with
  | @allocate _ _ size i hsize hcall =>
    rcases hh.allocateBlock size with ⟨i', h₁, s', hcall', hh', hnone, -, -, hretype⟩ |
      ⟨error, n, hcall'⟩
    · cases hcall'.symm.trans hcall
      exact ⟨s', _, hh', ho.cons (by rw [hh.header]; nofun) hnone hsize, hretype⟩
    · cases hcall'.symm.trans hcall
  | @refused _ _ size error _ hcall =>
    rcases hh.allocateBlock size with ⟨i', h₁, s', hcall', -⟩ | ⟨error', n, hcall'⟩
    · cases hcall'.symm.trans hcall
    · cases hcall'.symm.trans hcall
      -- the count of failures is no part of the layout
      exact ⟨s, used, { hh with layout := { hh.layout with sized := { hh.layout.sized with } } },
        ho, fun _ _ => .inl rfl⟩
  | free hlive hcall =>
    obtain ⟨-, hi0, hi⟩ := ho.mem hlive
    obtain ⟨h₁, s', hcall', hh', -, hretype⟩ := hh.freeBlock hi hi0
    cases hcall'.symm.trans hcall
    exact ⟨s', _, hh', ho.erase hlive, hretype⟩

/-- A new heap takes one page. -/
theorem length_of_new (hnew : Heap.new c = some (.ok h)) : 4096 ≤ c.length := by
  by_contra hlt
  have hroom : c.length < pageSizeBytes := Nat.not_le.mp hlt
  simp [Heap.new, empty, growHeap, Except.map, hroom] at hnew

/-- Every run keeps the heap's layout. -/
theorem Run.holds (hrun : Run c h live) :
    ∃ s used, h.Holds s used ∧ Owns used live := by
  have hstep : ∀ {h live h' live'}, Call h live h' live' → (∃ s used, h.Holds s used ∧
      Owns used live) → ∃ s used, h'.Holds s used ∧ Owns used live' := by
    rintro h live h' live' hcall ⟨s, used, hh, ho⟩
    obtain ⟨s', used', hh', ho', -⟩ := hcall.holds hh ho
    exact ⟨s', used', hh', ho'⟩
  induction hrun with
  | @new h hnew =>
    obtain ⟨h', B, hnew', hh⟩ := new_holds (length_of_new hnew)
    cases hnew'.symm.trans hnew
    exact ⟨newShape B, _, hh, .header⟩
  | allocate _ hsize hcall ih => exact hstep (.allocate hsize hcall) ih
  | refused _ hsize hcall ih => exact hstep (.refused hsize hcall) ih
  | free _ hlive hcall ih => exact hstep (.free hlive hcall) ih

theorem Run.freeBlock {size : ℕ} (hrun : Run c h live) (hlive : (i, size) ∈ live) :
    ∃ h', h.freeBlock i = some (.ok (), h') := by
  obtain ⟨s, used, hh, ho⟩ := hrun.holds
  obtain ⟨-, hi0, hi⟩ := ho.mem hlive
  obtain ⟨h', s', hcall, -⟩ := hh.freeBlock hi hi0
  exact ⟨h', hcall⟩

namespace Holds

theorem walk_blocks (hh : h.Holds s used) :
    Consecutive 0 h.blocks h.units ∧ ∀ i k, (i, k) ∈ h.blocks ↔ s.blocks i = some k := by
  obtain ⟨hcons, hmem⟩ := walk_from hh.layout.tiles (fun i k hi => hh.layout.order hi)
    (.inr ⟨1, hh.layout.header⟩) (show h.units - 0 < h.units + 1 by omega)
  exact ⟨hcons, fun i k => (hmem i k).trans ⟨And.left, fun hb => ⟨hb, Nat.zero_le i⟩⟩⟩

theorem mem_free_iff (hh : h.Holds s used) :
    i ∈ s.free k ↔ (i, k) ∈ h.blocks ∧ h.container.isFree i = true := by
  rw [hh.walk_blocks.2, Container.isFree, beq_iff_eq]
  exact ⟨fun hi => ⟨(hh.layout.mem hi).1, (hh.layout.mem hi).2.1⟩,
    fun hi => hh.layout.listed hi.1 hi.2 (hh.limbo i)⟩

theorem mem_free_of_not_live (hh : h.Holds s used) (ho : Owns used live)
    (hi : s.blocks i = some k) (hi0 : i ≠ 0) (hlive : ∀ size, (i, size) ∉ live) : i ∈ s.free k := by
  refine hh.layout.listed hi ?_ (hh.limbo i)
  by_contra ht
  obtain ⟨n, hn⟩ := ho.all ((hh.used i k).mpr ⟨hi, ht⟩) hi0
  exact hlive n hn

end Holds

theorem freeWalk_eq {l : List BlockIndex} {index fuel : ℕ}
    (hchain : Chain h.container.freeNextIndex index l 0)
    (hfree : ∀ a ∈ l, h.isFreeBlock a k = true) (hend : h.isFreeBlock 0 k = false)
    (hfuel : l.length < fuel) : h.freeWalk k fuel index = some l := by
  induction l generalizing index fuel with
  | nil =>
    obtain ⟨fuel, rfl⟩ := exists_eq_succ_of_ne_zero (Nat.ne_of_gt hfuel)
    have hindex : index = 0 := hchain
    simp [freeWalk, hindex, hend]
  | cons a l ih =>
    obtain ⟨fuel, rfl⟩ := exists_eq_succ_of_ne_zero (Nat.ne_of_gt (zero_lt_of_lt hfuel))
    obtain ⟨rfl, hrest⟩ := hchain
    have hnext := ih hrest (forall_mem_cons.mp hfree).2 (by simpa using hfuel)
    simp [freeWalk, hfree index (by simp), hnext]

/-- The count of failures is not read by the walk along a free list. -/
theorem freeList_failedAllocations (n order : ℕ) :
    { h with failedAllocations := n }.freeList order = h.freeList order := by
  have hwalk : ∀ fuel index,
      { h with failedAllocations := n }.freeWalk order fuel index =
        h.freeWalk order fuel index := by
    intro fuel
    induction fuel with
    | zero => exact fun _ => rfl
    | succ fuel ih =>
      intro index
      simp only [freeWalk, ih]
      rfl
  exact hwalk _ _

theorem Holds.freeList (hh : h.Holds s used) (hk : k ≤ 7) : h.freeList k = some (s.free k) := by
  refine freeWalk_eq (hh.layout.list k hk) (fun a ha => hh.layout.isFreeBlock ha) ?_
    (lt_succ_of_le (hh.layout.length_free_le k))
  have hnot : h.container.isFree 0 = false := by
    simp [Container.isFree, hh.layout.headerType, BlockType.toNat]
  simp [Heap.isFreeBlock, hnot]

theorem Holds.sound (hh : h.Holds s used) (ho : Owns used live) : h.Sound live := by
  have hmem := hh.walk_blocks.2
  constructor
  · obtain ⟨p, hp⟩ := hh.layout.sized.pages
    unfold units minOrderSize
    omega
  · exact hh.walk_blocks.1
  · intro i k hi
    have hal := hh.layout.tiles.aligned ((hmem i k).mp hi)
    unfold Utils.orderToSize Container.headerOffset
    rw [shiftLeft_eq, Nat.mul_comm]
    exact Nat.mul_dvd_mul_right hal _
  · intro order horder
    exact ⟨s.free order, hh.freeList (le_of_lt_succ horder), hh.layout.nodup order,
      fun i => hh.mem_free_iff⟩
  · intro i k hk hi hif hb
    rw [Bool.eq_false_iff]
    intro hbf
    rw [buddy_eq] at hb hbf
    exact (hh.buddies i k hk (hh.mem_free_iff.mpr ⟨hi, hif⟩)
      (hh.mem_free_iff.mpr ⟨hb, hbf⟩)).elim id id
  · exact (hmem 0 1).mpr hh.layout.header
  · refine (pairwise_map.mp ho.distinct).imp_of_mem ?_
    rintro ⟨i, n⟩ ⟨j, m⟩ hi hj hne
    rcases Nat.lt_or_gt_of_ne hne with hlt | hgt
    · exact .inl (hh.disjoint (ho.mem hi).2.2 (ho.mem hj).2.2 hlt)
    · exact .inr (hh.disjoint (ho.mem hj).2.2 (ho.mem hi).2.2 hgt)
  · intro i size hi
    obtain ⟨hsize, hi0, hu⟩ := ho.mem hi
    obtain ⟨hb, ht⟩ := (hh.used i _).mp hu
    refine ⟨(hmem i _).mpr hb, ?_, ?_, (fitOrder_le_iff hsize).mp (Nat.le_refl _), fun k hk => ?_⟩
    · simpa [Container.isFree] using ht
    · exact hh.disjoint hh.header hu (Nat.pos_of_ne_zero hi0) |>.trans' (Nat.le_of_eq (by simp
        [headerOrder]))
    · rw [← Nat.not_le, ← fitOrder_le_iff hsize]
      exact Nat.not_le.mpr hk

/-- If only the header is in use, every other block is merged as far as it goes. -/
theorem Holds.merged (hh : h.Holds s used) (ho : Owns used []) :
    (i, k) ∈ h.blocks ↔ i = 0 ∧ k = 1 ∨ 1 ≤ k ∧ k ≤ 6 ∧ i = 2 ^ k ∨
      k = 7 ∧ 128 ∣ i ∧ 128 ≤ i ∧ i < h.units := by
  have htiles := hh.layout.tiles
  have hdvd := hh.layout.sized.dvd_units
  have hfree : ∀ {i k}, s.blocks i = some k → i ≠ 0 → i ∈ s.free k := fun hi hi0 =>
    hh.mem_free_of_not_live ho hi hi0 nofun
  have hbuddies : ∀ i k, k < 7 → s.blocks i = some k → i ≠ 0 →
      s.blocks (i ^^^ 2 ^ k) = some k → ¬i ^^^ 2 ^ k ≠ 0 := by
    intro i k hk hi hi0 hb hb0
    exact (hh.buddies i k hk (hfree hi hi0) (hfree hb hb0)).elim id id
  -- An aligned region behind the header lies in one block.
  have hregion : ∀ {a j}, j ≤ 7 → 2 ^ j ∣ a → a + 2 ^ j ≤ h.units → 2 ≤ a →
      ∃ i k, s.blocks i = some k ∧ i ≤ a ∧ a + 2 ^ j ≤ i + 2 ^ k := by
    intro a j hj hal hin h2
    exact htiles.merged hbuddies hj hal hin fun i k _ hai _ => by omega
  have hmono : ∀ {a b : ℕ}, 2 ^ a ≤ 2 ^ b → a ≤ b := fun hab =>
    (Nat.pow_le_pow_iff_right (by decide)).mp hab
  have hpage : 256 ≤ h.units := by
    obtain ⟨p, hp⟩ := hh.layout.sized.pages
    unfold units minOrderSize
    omega
  have hsmall : ∀ {j}, 1 ≤ j → j ≤ 6 → s.blocks (2 ^ j) = some j := by
    intro j h1 h6
    have hpow : 2 ^ j ≤ 2 ^ 6 := Nat.pow_le_pow_right (by decide) h6
    have htwo : 2 ^ 1 ≤ 2 ^ j := Nat.pow_le_pow_right (by decide) h1
    obtain ⟨i, k, hi, hij, hji⟩ := hregion (by omega) (Nat.dvd_refl (2 ^ j)) (by omega) htwo
    have hi0 : i ≠ 0 := by
      rintro rfl
      have hk : k = 1 := Option.some.inj (hi.symm.trans hh.layout.header)
      subst hk
      omega
    have hki : 2 ^ k ≤ i := le_of_dvd (Nat.pos_of_ne_zero hi0) (htiles.aligned hi)
    have hkj : k = j := Nat.le_antisymm (hmono (by omega)) (hmono (by omega))
    subst hkj
    have hik : i = 2 ^ k := by omega
    rw [← hik]
    exact hi
  have hlarge : ∀ {a}, 128 ∣ a → 128 ≤ a → a < h.units → s.blocks a = some 7 := by
    intro a hal ha hlt
    have hin : a + 2 ^ 7 ≤ h.units := by omega
    obtain ⟨i, k, hi, hia, hai⟩ := hregion (Nat.le_refl 7) hal hin (by omega)
    have hk : k = 7 := Nat.le_antisymm (htiles.order_le hi) (hmono (by omega))
    subst hk
    have hia' : i = a := by omega
    rw [← hia']
    exact hi
  rw [hh.walk_blocks.2]
  constructor
  · intro hi
    have hlt := htiles.lt hi
    -- The region that a block behind the header starts in is one block, so it starts there.
    have hstart : ∀ {a j}, s.blocks a = some j → a ≤ i → i < a + 2 ^ j → i = a ∧ k = j := by
      intro a j ha hai hia
      have heq := htiles.eq_of_mem ha hi hai hia
      subst heq
      exact ⟨rfl, Option.some.inj (hi.symm.trans ha)⟩
    by_cases hi0 : i = 0
    · subst hi0
      exact .inl ⟨rfl, Option.some.inj (hi.symm.trans hh.layout.header)⟩
    · have h2 : 2 ≤ i := htiles.disjoint hh.layout.header hi (Nat.pos_of_ne_zero hi0)
      rcases Nat.lt_or_ge i 128 with h128 | h128
      · have hlog := log2_self_le hi0
        have hlog' : i < 2 ^ (i.log2 + 1) := lt_log2_self
        have hl1 : 1 ≤ i.log2 := (le_log2 hi0).mpr h2
        have hl6 : i.log2 < 7 := (log2_lt hi0).mpr h128
        rw [two_pow_succ] at hlog'
        obtain ⟨hia, hkj⟩ := hstart (hsmall hl1 (le_of_lt_succ hl6)) hlog hlog'
        rw [← hkj] at hia hl1 hl6
        exact .inr (.inl ⟨hl1, le_of_lt_succ hl6, hia⟩)
      · have hblock := hlarge (a := 128 * (i / 128)) ⟨_, rfl⟩ (by omega) (by omega)
        obtain ⟨hia, hk⟩ := hstart hblock (by omega) (by omega)
        exact .inr (.inr ⟨hk, ⟨_, hia⟩, h128, hlt⟩)
  · rintro (⟨rfl, rfl⟩ | ⟨h1, h6, rfl⟩ | ⟨rfl, hal, h128, hlt⟩)
    · exact hh.layout.header
    · exact hsmall h1 h6
    · exact hlarge hal h128 hlt

/-- Every heap of a container of a page or more stays sound along every run: its blocks tile it,
its free lists are exact, no two free buddies are left, and the live blocks are apart from each
other and the header.  A refused allocation changes neither the blocks nor the lists, a live block
can always be freed, and once all are freed the blocks are merged up to those that the header
splits off. -/
theorem Run.sound_heap (hlen : 4096 ≤ c.length) :
    (∃ h, Heap.new c = some (.ok h)) ∧
    ∀ h live, Run c h live →
      h.Sound live ∧
      (∀ size, 1 ≤ size → ∃ result h', h.allocateBlock size = some (result, h') ∧
        ∀ error, result = .error error →
          h'.blocks = h.blocks ∧ ∀ order, h'.freeList order = h.freeList order) ∧
      (∀ i size, (i, size) ∈ live → ∃ h', h.freeBlock i = some (.ok (), h')) ∧
      (live = [] → ∀ i k, (i, k) ∈ h.blocks ↔ i = 0 ∧ k = 1 ∨ 1 ≤ k ∧ k ≤ 6 ∧ i = 2 ^ k ∨
        k = 7 ∧ 128 ∣ i ∧ 128 ≤ i ∧ i < h.units) := by
  refine ⟨?_, fun h live hrun => ?_⟩
  · obtain ⟨h, s, hnew, -⟩ := new_holds hlen
    exact ⟨h, hnew⟩
  · obtain ⟨s, used, hh, ho⟩ := hrun.holds
    refine ⟨hh.sound ho, fun size _ => ?_, fun i size hi => hrun.freeBlock hi, ?_⟩
    · rcases hh.allocateBlock size with ⟨i, h', s', hcall, -⟩ | ⟨error, n, hcall⟩
      · exact ⟨.ok i, h', hcall, nofun⟩
      · exact ⟨.error error, _, hcall, fun _ _ => ⟨rfl, freeList_failedAllocations n⟩⟩
    · rintro rfl i k
      exact hh.merged ho

/-- The block at the head of the first list that is not empty is handed out. -/
theorem Holds.allocate_head {size : ℕ} (hh : h.Holds s used)
    (hfind : h.findOrder (Utils.fitOrder size) = some k) :
    ∃ h', h.allocateBlock size = some (.ok (h.freeHeadPerOrder k), h') := by
  obtain ⟨hle, h7, hne⟩ := hh.layout.findOrder_some hfind
  obtain ⟨h', s', hrun, -⟩ := hh.layout.allocateFrom hne h7 hle hh.limbo hh.buddies
  have hbig : ¬numOrders ≤ Utils.fitOrder size :=
    Nat.not_le.mpr (Nat.lt_succ_of_le (hle.trans h7))
  exact ⟨h', by simp only [Heap.allocateBlock, if_neg hbig, hfind, hrun]⟩

theorem range_numOrders : range' 0 (numOrders - 0) = [0, 1, 2, 3, 4, 5, 6, 7] := by decide

/-- The first allocation of 16 bytes splits the block of order 1 behind the header. -/
theorem allocate_lower (hlen : 4096 ≤ c.length) :
    ∃ h₀ h₁ s used, Heap.new c = some (.ok h₀) ∧ h₀.allocateBlock 16 = some (.ok 2, h₁) ∧
      h₁.Holds s used ∧ Owns used [(2, 16)] := by
  have horder : Utils.fitOrder 16 = 0 := by decide
  obtain ⟨h₀, B, hnew, hh₀⟩ := new_holds hlen
  have hhead : h₀.freeHeadPerOrder 1 = 2 := (hh₀.layout.list 1 (by decide)).head
  have hfind : h₀.findOrder (Utils.fitOrder 16) = some 1 := by
    have hzero : h₀.freeHeadPerOrder 0 = 0 := (hh₀.layout.list 0 (by decide)).head
    have hheader : h₀.isFreeBlock 0 0 = false := by
      simp [isFreeBlock, Container.isFree, hh₀.layout.headerType, BlockType.toNat]
    have hfree : h₀.isFreeBlock 2 1 = true := hh₀.layout.isFreeBlock (mem_newShape.mpr (by decide))
    rw [horder, findOrder, range_numOrders]
    simp [hzero, hheader, hhead, hfree]
  obtain ⟨h₁, hcall⟩ := hh₀.allocate_head hfind
  rw [hhead] at hcall
  obtain ⟨s, used, hh₁, ho₁, -⟩ := (Call.allocate (by decide) hcall).holds hh₀ .header
  exact ⟨h₀, h₁, s, used, hnew, hcall, hh₁, ho₁⟩

/-- With only the block of 16 bytes at 2 live, its upper half at 3 is the only free block of
order 0: the buddy of any other would be free. -/
theorem Holds.free_upper (hh : h.Holds s used) (ho : Owns used [(2, 16)]) :
    3 ∈ s.free 0 ∧ ∀ j ∈ s.free 0, j = 3 := by
  have hbuddy : ∀ {j}, s.blocks j = some 0 → s.blocks (j ^^^ 1) = some 0 := by
    intro j hj
    obtain ⟨l, hl, hb⟩ := hh.layout.tiles.buddy_start hh.layout.sized.dvd_units hj (by decide)
    rwa [Nat.le_zero.mp hl] at hb
  have hother : ∀ {j}, s.blocks j = some 0 → j ≠ 2 → j ∈ s.free 0 := by
    intro j hj hne
    refine hh.mem_free_of_not_live ho hj ?_ (by simpa using hne)
    rintro rfl
    cases hj.symm.trans hh.layout.header
  refine ⟨hother (hbuddy (hh.block (ho.mem (List.mem_singleton.mpr rfl)).2.2)) (by decide), ?_⟩
  intro j hj
  by_contra hne
  have hne2 : j ^^^ 1 ≠ 2 := fun heq =>
    hne (by rw [← Nat.xor_xor_cancel_right j 1, heq]; rfl)
  have hfree := hother (hbuddy (hh.layout.mem hj).1) hne2
  exact (hh.buddies j 0 (by decide) hj hfree).elim id id

/-- The first two blocks of 16 bytes are at 2 and 3; the one at 2 is freed. -/
theorem run_upper (hlen : 4096 ≤ c.length) :
    ∃ h₀ h₁ h₂ h₃, Heap.new c = some (.ok h₀) ∧ h₀.allocateBlock 16 = some (.ok 2, h₁) ∧
      h₁.allocateBlock 16 = some (.ok 3, h₂) ∧ h₂.freeBlock 2 = some (.ok (), h₃) ∧
      Run c h₃ [(3, 16)] := by
  have horder : Utils.fitOrder 16 = 0 := by decide
  obtain ⟨h₀, h₁, s, used, hnew, hcall₁, hh, ho⟩ := allocate_lower hlen
  obtain ⟨h3, hall⟩ := hh.free_upper ho
  have hhead : h₁.freeHeadPerOrder 0 = 3 := by
    rw [(hh.layout.list 0 (by decide)).head]
    obtain ⟨j, l, hfree⟩ := exists_cons_of_ne_nil (ne_nil_of_mem h3)
    rw [hfree]
    exact hall j (by simp [hfree])
  have hfind : h₁.findOrder (Utils.fitOrder 16) = some 0 := by
    rw [horder, findOrder, range_numOrders]
    simp [hhead, hh.layout.isFreeBlock h3]
  obtain ⟨h₂, hcall₂⟩ := hh.allocate_head hfind
  rw [hhead] at hcall₂
  have hrun : Run c h₂ [(3, 16), (2, 16)] :=
    .allocate (.allocate (.new hnew) (by decide) hcall₁) (by decide) hcall₂
  have hlower : (2, 16) ∈ [(3, 16), (2, 16)] := by decide
  obtain ⟨h₃, hcall₃⟩ := hrun.freeBlock hlower
  exact ⟨h₀, h₁, h₂, h₃, hnew, hcall₁, hcall₂, hcall₃, .free hrun hlower hcall₃⟩

/-- A container of one page. -/
theorem page_length : 4096 ≤ (replicate 4096 0 : Container).length := by
  rw [length_replicate]

/-- Two blocks are allocated and freed again. -/
theorem Run.sound_heap_page : ∃ h₀ h₁ h₂ h₃ h₄, Heap.new (List.replicate 4096 0) = some (.ok h₀) ∧
    h₀.allocateBlock 16 = some (.ok 2, h₁) ∧ h₁.allocateBlock 16 = some (.ok 3, h₂) ∧
    h₂.freeBlock 2 = some (.ok (), h₃) ∧ h₃.Sound [(3, 16)] ∧
    h₃.freeBlock 3 = some (.ok (), h₄) ∧ h₄.Sound [] ∧
    ∀ i k, (i, k) ∈ h₄.blocks ↔ i = 0 ∧ k = 1 ∨ 1 ≤ k ∧ k ≤ 6 ∧ i = 2 ^ k ∨
      k = 7 ∧ 128 ∣ i ∧ 128 ≤ i ∧ i < h₄.units := by
  obtain ⟨h₀, h₁, h₂, h₃, hnew, hcall₁, hcall₂, hcall₃, hrun⟩ := run_upper page_length
  have hupper : (3, 16) ∈ [(3, 16)] := by decide
  obtain ⟨hsound, -, hfree, -⟩ := (Run.sound_heap page_length).2 h₃ _ hrun
  obtain ⟨h₄, hcall₄⟩ := hfree 3 16 hupper
  obtain ⟨hsound', -, -, hmerged⟩ :=
    (Run.sound_heap page_length).2 h₄ [] (.free hrun hupper hcall₄)
  exact ⟨h₀, h₁, h₂, h₃, h₄, hnew, hcall₁, hcall₂, hcall₃, hsound, hcall₄, hsound', hmerged rfl⟩

end Smos.Inspect.Heap
