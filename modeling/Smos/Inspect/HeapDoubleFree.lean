import Smos.Inspect.HeapRun

/-!
What a second free of a block meets.

`free_block` reads the type in the header at the index it is given.  A block that is merged into its
lower buddy by its own free keeps the type it had until a block starts at its index again.
-/
namespace Smos.Inspect.Heap

open Lib.Buddy List

variable {c : Container} {h h' : Heap} {s : Shape} {used : ℕ → Option ℕ} {past : List Heap}
  {live : List (BlockIndex × ℕ)} {i k : ℕ}

/-- A heap that is reached after the live block at `i` was freed, with those before it since then,
the last one first.  The index has not been handed out again. -/
inductive Freed (c : Container) (i : BlockIndex) :
    Heap → List Heap → List (BlockIndex × ℕ) → Prop
  | free {h h' live size} : Run c h live → (i, size) ∈ live →
      h.freeBlock i = some (.ok (), h') → Freed c i h' [] (live.erase (i, size))
  | call {h h' past live live'} : Freed c i h past live → Call h live h' live' →
      (∀ size, (i, size) ∉ live') → Freed c i h' (h :: past) live'

/-- A free that fails behind the first check fails with the format. -/
theorem mergeLoop_error {fuel : ℕ} {buddyIndex blockIndex : BlockIndex} {e : WriterError}
    (hrun : mergeLoop fuel h buddyIndex blockIndex = some (.error e, h')) :
    ∃ error, e = .vmoFormat error := by
  induction fuel generalizing h buddyIndex blockIndex with
  | zero => cases hrun
  | succ fuel ih =>
    rw [mergeLoop] at hrun
    split_ifs at hrun
    · cases hremove : h.removeFree buddyIndex with
      | none => simp [hremove] at hrun
      | some h₁ =>
        simp only [hremove] at hrun
        split at hrun
        · cases hrun
          exact ⟨_, rfl⟩
        · exact ih hrun
    · cases hrun

theorem freeBlock_refused_iff :
    h.freeBlock i = some (.error (.blockAlreadyFree i), h) ↔ h.container.isFree i = true := by
  constructor
  · intro hrun
    by_contra hno
    rw [freeBlock, if_neg hno] at hrun
    split at hrun
    · cases hrun
    · next e h₁ hmerge =>
      obtain ⟨error, rfl⟩ := mergeLoop_error hmerge
      cases hrun
    · dsimp only at hrun
      split_ifs at hrun
      cases hrun
  · intro hfree
    simp [freeBlock, hfree]

/-- What a call leaves in the header at an index that is not live. -/
theorem Holds.isFree_iff (hh : h'.Holds s used) (ho : Owns used live) (hr : Retypes h h' s)
    (h2 : 2 ≤ i) (hi : ∀ size, (i, size) ∉ live) :
    h'.container.isFree i = true ↔ h.container.isFree i = true ∨ ∃ k, (i, k) ∈ h'.blocks := by
  have hstart : (∃ k, (i, k) ∈ h'.blocks) → h'.container.isFree i = true := by
    rintro ⟨k, hk⟩
    have hb := (hh.walk_blocks.2 i k).mp hk
    exact (hh.mem_free_iff.mp (hh.mem_free_of_not_live ho hb (by omega) hi)).2
  have h1 : i ≠ 1 := by omega
  rcases hr i h1 with heq | hb
  · have hsame : h'.container.isFree i = h.container.isFree i := by simp [Container.isFree, heq]
    rw [← hsame]
    exact ⟨.inl, fun hf => hf.elim id hstart⟩
  · obtain ⟨k, hk⟩ := Option.ne_none_iff_exists'.mp hb
    have hblock : ∃ k, (i, k) ∈ h'.blocks := ⟨k, (hh.walk_blocks.2 i k).mpr hk⟩
    exact ⟨fun _ => .inr hblock, fun _ => hstart hblock⟩

/-- Along every run the type at the freed index tells whether a block has started there since. -/
theorem Freed.holds (hfreed : Freed c i h past live) :
    ∃ s used, h.Holds s used ∧ Owns used live ∧ 2 ≤ i ∧
      (h.container.isFree i = true ↔ ∃ g ∈ h :: past, ∃ k, (i, k) ∈ g.blocks) := by
  induction hfreed with
  | @free h h' live size hrun hlive hcall =>
    obtain ⟨s, used, hh, ho⟩ := hrun.holds
    obtain ⟨s', used', hh', ho', hretype⟩ := (Call.free hlive hcall).holds hh ho
    obtain ⟨-, hi0, hi⟩ := ho.mem hlive
    have h2 : 2 ≤ i := hh.disjoint hh.header hi (Nat.pos_of_ne_zero hi0)
    have hnot : h.container.isFree i = false := by
      simpa [Container.isFree] using ((hh.used i _).mp hi).2
    refine ⟨s', used', hh', ho', h2, ?_⟩
    rw [hh'.isFree_iff ho' hretype h2 fun n hn => ((ho.mem_erase hlive).mp hn).1 rfl, hnot]
    simp
  | @call h h' past live live' _ hcall hi ih =>
    obtain ⟨s, used, hh, ho, h2, hfree⟩ := ih
    obtain ⟨s', used', hh', ho', hretype⟩ := hcall.holds hh ho
    refine ⟨s', used', hh', ho', h2, ?_⟩
    rw [hh'.isFree_iff ho' hretype h2 hi, hfree, or_comm]
    exact (exists_mem_cons_iff (fun g : Heap => ∃ k, (i, k) ∈ g.blocks) h' (h :: past)).symm

/-- A second free is refused, and changes nothing, exactly if a block has started at the index at
some time since the first. -/
theorem Freed.refused_iff (hfreed : Freed c i h past live) :
    h.freeBlock i = some (.error (.blockAlreadyFree i), h) ↔
      ∃ g ∈ h :: past, ∃ k, (i, k) ∈ g.blocks := by
  obtain ⟨s, used, -, -, -, hfree⟩ := hfreed.holds
  rw [freeBlock_refused_iff, hfree]

/-- The first two blocks of 16 bytes are at 2 and 3; the one at 3 is freed after the other. -/
theorem freed_upper (hlen : 4096 ≤ c.length) :
    ∃ h₀ h₁ h₂ h₃ h₄, Heap.new c = some (.ok h₀) ∧ h₀.allocateBlock 16 = some (.ok 2, h₁) ∧
      h₁.allocateBlock 16 = some (.ok 3, h₂) ∧ h₂.freeBlock 2 = some (.ok (), h₃) ∧
      h₃.freeBlock 3 = some (.ok (), h₄) ∧ Freed c 3 h₄ [] [] := by
  obtain ⟨h₀, h₁, h₂, h₃, hnew, hcall₁, hcall₂, hcall₃, hrun⟩ := run_upper hlen
  have hupper : (3, 16) ∈ [(3, 16)] := by decide
  obtain ⟨h₄, hcall₄⟩ := hrun.freeBlock hupper
  exact ⟨h₀, h₁, h₂, h₃, h₄, hnew, hcall₁, hcall₂, hcall₃, hcall₄, .free hrun hupper hcall₄⟩

theorem Freed.refused_iff_upper : ∃ h, Freed (replicate 4096 0) 3 h [] [] ∧
    (h.freeBlock 3 = some (.error (.blockAlreadyFree 3), h) ↔
      ∃ g ∈ [h], ∃ k, (3, k) ∈ g.blocks) := by
  obtain ⟨-, -, -, -, h, -, -, -, -, -, hfreed⟩ := freed_upper page_length
  exact ⟨h, hfreed, hfreed.refused_iff⟩

/-- The block at 3 was merged into the one at 2, and no block starts at 3 any more. -/
theorem freeBlock_not_refused :
    ∃ h₀ h₁ h₂ h₃ h₄, Heap.new (replicate 4096 0) = some (.ok h₀) ∧
      h₀.allocateBlock 16 = some (.ok 2, h₁) ∧ h₁.allocateBlock 16 = some (.ok 3, h₂) ∧
      h₂.freeBlock 2 = some (.ok (), h₃) ∧ h₃.freeBlock 3 = some (.ok (), h₄) ∧
      Freed (replicate 4096 0) 3 h₄ [] [] ∧
      h₄.freeBlock 3 ≠ some (.error (.blockAlreadyFree 3), h₄) := by
  obtain ⟨h₀, h₁, h₂, h₃, h, hnew, hcall₁, hcall₂, hcall₃, hcall₄, hfreed⟩ :=
    freed_upper page_length
  refine ⟨h₀, h₁, h₂, h₃, h, hnew, hcall₁, hcall₂, hcall₃, hcall₄, hfreed, ?_⟩
  obtain ⟨s, used, hh, ho, -, hfree⟩ := hfreed.holds
  rw [Ne, freeBlock_refused_iff, hfree]
  rintro ⟨g, hg, k, hk⟩
  rw [List.mem_singleton.mp hg, hh.merged ho] at hk
  have hpow : 1 ≤ k → 2 ∣ 2 ^ k := fun h1 => Dvd.dvd.pow (Nat.dvd_refl 2) (by omega)
  omega

end Smos.Inspect.Heap
