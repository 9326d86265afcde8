import Smos.Fxfs.StrategyRun

/-!
What the best-fit strategy makes of a double free.

`free` looks for an overlap at the first tracked range that ends at the start of the new range or
behind it.  Where that range ends exactly there it is merged, and the next one is not looked at.
-/
namespace Smos.Fxfs.Allocator.BestFit

open Lib.OrderedMap Option Relation

variable {s s' : BestFit} {range : Range} {e : Error} {result : Except Error Unit}

def Overlaps (s : BestFit) (range : Range) : Prop :=
  ∃ t, s.Tracks t ∧ t.start < range.stop ∧ range.start < t.stop

def Follows (s : BestFit) (range : Range) : Prop := ∃ t, s.Tracks t ∧ t.stop = range.start

/-- A range that overlaps a tracked one is refused and nothing changes, any other range is freed,
and the tracked ranges stay disjoint. -/
structure DetectsDoubleFree (s : BestFit) (range : Range) : Prop where
  refused : s.Overlaps range →
    ∃ e : Error, e.error = .inconsistent ∧ s.free range = some (.error e, s)
  freed : ¬ s.Overlaps range → ∃ s', s.free range = some (.ok (), s')
  disjoint : ∀ result s', s.free range = some (result, s') → ∀ r t, s'.Tracks r → s'.Tracks t →
    r = t ∨ r.stop ≤ t.start ∨ t.stop ≤ r.start

/-- What an insertion does to `by_end`, whether or not the range overlaps a tracked one.  It is
refused only where another range has its end. -/
theorem insertRange_cases (h : s.Linked) (hlt : range.start < range.stop)
    (hrun : s.insertRange range = some (result, s')) :
    (∀ k, k ≠ range.stop → s'.byEnd[k]? = s.byEnd[k]? ∨ s'.byEnd[k]? = none) ∧
    ((∃ e, result = .error e) ∧ s.byEnd[range.stop]? ≠ none ∨
      result = .ok () ∧ s'.Linked ∧
        (s'.byEnd[range.stop]? = some range.start ∨ s'.byEnd[range.stop]? = none)) := by
  have hother : ∀ k, k ≠ range.stop →
      (s.byEnd.insert range.stop range.start)[k]? = s.byEnd[k]? := by
    intro k hk
    rw [getElem?_insert, if_neg (Ne.symm hk)]
  cases hstop : s.byEnd[range.stop]? with
  | some start =>
    simp only [insertRange, hstop] at hrun
    split_ifs at hrun
    · cases hrun
      exact ⟨fun _ _ => .inl rfl, .inl ⟨⟨_, rfl⟩, some_ne_none _⟩⟩
    · cases hrun
      exact ⟨fun k hk => .inl (hother k hk), .inl ⟨⟨_, rfl⟩, some_ne_none _⟩⟩
  | none =>
    obtain ⟨s₁, hrun', ⟨overflow, rfl⟩ | ⟨bucket, last, hlast, -, hget, hranges, hbyEnd⟩⟩ :=
      insertRange_linked h range hlt hstop
    · cases hrun.symm.trans hrun'
      exact ⟨fun k hk => .inl (hother k hk),
        .inr ⟨rfl, addRange_linked h hlt.le hstop, .inl (by simp [addRange])⟩⟩
    · cases hrun.symm.trans hrun'
      rw [hbyEnd]
      dsimp only [dropOffset, addRange]
      refine ⟨fun k hk => ?_, .inr ⟨rfl, fun len start => ?_, ?_⟩⟩
      · rw [getElem?_erase, hother k hk]
        split_ifs
        · exact .inr rfl
        · exact .inl rfl
      · rw [hranges, Tracks, hbyEnd]
        exact dropOffset_linked (addRange_linked h hlt.le hstop) hget hlast len start
      · rw [getElem?_erase]
        split_ifs
        · exact .inr rfl
        · exact .inl (by simp)

/-- An end at which no range from `start` stops is left so by an insertion that is refused. -/
theorem insertRange_error {mark start : ℕ} (h : s.Linked)
    (hlt : range.start < range.stop)
    (hmark : s.byEnd[mark]? = none ∨ range.stop < mark ∧ s.byEnd[mark]? ≠ some start)
    (hrun : s.insertRange range = some (.error e, s')) : s'.byEnd[mark]? ≠ some start := by
  obtain ⟨hkeep, ⟨-, hstop⟩ | ⟨hok, -⟩⟩ := insertRange_cases h hlt hrun
  · have hne : mark ≠ range.stop := by
      rintro rfl
      exact hmark.elim hstop fun hlt => Nat.lt_irrefl _ hlt.1
    rcases hkeep mark hne with heq | hnone
    · rw [heq]
      exact hmark.elim (fun hnone => by simp [hnone]) fun hopen => hopen.2
    · simp [hnone]
  · cases hok

/-- A loop that fails has its first piece refused, or its rest. -/
theorem insertPieces_cases {fuel start stop : ℕ}
    (hrun : insertPieces fuel s ⟨start, stop⟩ = some (.error e, s')) :
    (∃ first e', first < stop ∧ s.insertRange ⟨first, stop⟩ = some (.error e', s')) ∨
    ∃ rest s₁, fuel = rest + 1 ∧ start + defaultMaxExtentSize ≤ stop ∧
      s.insertRange ⟨stop - defaultMaxExtentSize, stop⟩ = some (.ok (), s₁) ∧
      insertPieces rest s₁ ⟨start, stop - defaultMaxExtentSize⟩ = some (.error e, s') := by
  unfold insertPieces at hrun
  dsimp only at hrun
  split_ifs at hrun with hlarge hlt
  · cases fuel with
    | zero => cases hrun
    | succ rest =>
      cases hins : s.insertRange ⟨stop - defaultMaxExtentSize, stop⟩ with
      | none => simp [hins] at hrun
      | some p =>
        obtain ⟨e' | _, s₁⟩ := p
        · simp only [hins] at hrun
          cases hrun
          exact .inl ⟨_, e', by unfold defaultMaxExtentSize at *; omega, hins⟩
        · simp only [hins] at hrun
          exact .inr ⟨rest, s₁, rfl, by unfold defaultMaxExtentSize at *; omega, rfl, hrun⟩
  · cases hins : s.insertRange ⟨start, stop⟩ with
    | none => simp [hins] at hrun
    | some p =>
      obtain ⟨e' | _, s₁⟩ := p
      · simp only [hins] at hrun
        cases hrun
        exact .inl ⟨start, e', hlt, hins⟩
      · simp [hins] at hrun
  · cases hrun

theorem insertPieces_self (fuel : ℕ) (s : BestFit) (start : ℕ) :
    insertPieces fuel s ⟨start, start⟩ = some (.ok (), s) := by
  have hpos : ¬ start - start ≥ defaultMaxExtentSize := by
    rw [Nat.sub_self]
    decide
  rw [insertPieces.eq_def, if_neg hpos, if_neg (Nat.lt_irrefl start)]

/-- So it is by the loop: the piece from `start` on is the last one. -/
theorem insertPieces_error {fuel start stop mark : ℕ} (h : s.Linked)
    (hmark : s.byEnd[mark]? = none ∨ stop < mark ∧ s.byEnd[mark]? ≠ some start)
    (hrun : insertPieces fuel s ⟨start, stop⟩ = some (.error e, s')) :
    s'.byEnd[mark]? ≠ some start := by
  induction fuel generalizing s stop with
  | zero =>
    obtain ⟨first, e', hlt, hins⟩ | ⟨rest, s₁, hfuel, -⟩ := insertPieces_cases hrun
    · exact insertRange_error h hlt hmark hins
    · cases hfuel
  | succ fuel ih =>
    obtain ⟨first, e', hlt, hins⟩ | ⟨rest, s₁, hfuel, hlarge, hins, hrest⟩ :=
      insertPieces_cases hrun
    · exact insertRange_error h hlt hmark hins
    cases hfuel
    have hpos : 0 < defaultMaxExtentSize := by decide
    obtain ⟨hkeep, ⟨⟨e', herror⟩, -⟩ | ⟨-, hlinked, hstop⟩⟩ :=
      insertRange_cases h (by dsimp only; omega) hins
    · cases herror
    refine ih hlinked ?_ hrest
    by_cases heq : mark = stop
    · subst heq
      rcases hstop with hsome | hnone
      · -- a last piece that ends here leaves nothing to fail
        refine .inr ⟨by omega, ?_⟩
        rw [hsome]
        intro hstart
        have heq : mark - defaultMaxExtentSize = start := Option.some.inj hstart
        rw [heq, insertPieces_self] at hrest
        cases hrest
      · exact .inl hnone
    · rcases hkeep mark heq with hold | hnone
      · rw [hold]
        exact hmark.imp_right fun hlt => ⟨by omega, hlt.2⟩
      · exact .inl hnone

/-- A preceding range is merged, and no failure behind that brings it back. -/
theorem free_ne_error (h : s.Inv) (hf : s.Follows range) (ho : s.Overlaps range) (e : Error) :
    s.free range ≠ some (.error e, s) := by
  obtain ⟨⟨a, stop⟩, ht, hstop⟩ := hf
  obtain rfl : stop = range.start := hstop
  obtain ⟨u, hu, hlo, hhi⟩ := ho
  have hlt : a < range.start := h.nonempty ht
  obtain ⟨s₁, hremove, hinv, -, htracks⟩ := removeRange_spec h ht
  have hhead : (rangeFrom s.byEnd range.start).head? = some (range.start, a) := by
    cases hhead : (rangeFrom s.byEnd range.start).head? with
    | none => exact absurd (lt_of_head?_rangeFrom hhead ht) (Nat.lt_irrefl _)
    | some item =>
      obtain ⟨stop, start⟩ := item
      obtain ⟨hget, hge, hleast⟩ := le_of_head?_rangeFrom hhead
      obtain rfl := Nat.le_antisymm hge (hleast ht le_rfl)
      rw [Option.some.inj (hget.symm.trans ht)]
  have hgone : s₁.byEnd[range.start]? = none := by
    refine Option.eq_none_iff_forall_ne_some.mpr fun start hget => ?_
    obtain ⟨hold, hne⟩ := (htracks ⟨start, range.start⟩).mp hget
    exact hne (hold.eq_of_stop ht rfl)
  have hu₁ : s₁.Tracks u := (htracks u).mpr ⟨hu, fun heq => by simp [heq] at hhi⟩
  intro hrun
  simp only [free, hhead, if_true, hremove, bind_eq_bind, bind_some] at hrun
  have hadd : insertPieces ((range.stop - a) / defaultMaxExtentSize) s₁ ⟨a, range.stop⟩ =
      some (.error e, s) := by
    cases hnext : (rangeFrom s₁.byEnd (a + 1)).head? with
    | none => simpa only [freeBefore, hnext] using hrun
    | some item =>
      obtain ⟨stop, start⟩ := item
      obtain ⟨hget, -, hleast⟩ := le_of_head?_rangeFrom hnext
      have hle : stop ≤ u.stop := hleast hu₁ (by omega)
      -- the next range does not start behind the new one: the overlapping one does not
      have hne : start ≠ range.stop := by
        intro heq
        have hr : s₁.Tracks ⟨start, stop⟩ := hget
        have hlt' := hinv.nonempty hr
        rcases hinv.disjoint hr hu₁ with rfl | hbefore | hbehind
        all_goals dsimp only at *; omega
      simpa only [freeBefore, hnext, if_neg hne] using hrun
  exact insertPieces_error hinv.linked (.inl hgone) hadd ht

/-- Without a preceding range the first one that `free` finds overlaps, if any does. -/
theorem free_of_overlaps (h : s.Inv) (hf : ¬ s.Follows range) (ho : s.Overlaps range) :
    s.free range = some (.error ⟨.inconsistent, ["overlapping free"]⟩, s) := by
  obtain ⟨u, hu, hlo, hhi⟩ := ho
  cases hhead : (rangeFrom s.byEnd range.start).head? with
  | none => exact absurd (lt_of_head?_rangeFrom hhead hu) (by omega)
  | some item =>
    obtain ⟨stop, start⟩ := item
    obtain ⟨hget, hge, hleast⟩ := le_of_head?_rangeFrom hhead
    have hr : s.Tracks ⟨start, stop⟩ := hget
    have hle : stop ≤ u.stop := hleast hu hhi.le
    have hne : stop ≠ range.start := fun heq => hf ⟨_, hr, heq⟩
    have hlt : start < range.stop := by
      have hlt' := h.nonempty hr
      rcases h.disjoint hr hu with rfl | hbefore | hbehind
      all_goals dsimp only at *; omega
    simp only [free, hhead, if_neg hne, if_pos hlt]

theorem disjoint_of_not_overlaps (h : ¬ s.Overlaps range) :
    Disjoint s.bytes (Set.Ico range.start range.stop) := by
  refine Set.disjoint_left.mpr ?_
  rintro x ⟨t, ht, hx⟩ ⟨hlo, hhi⟩
  exact h ⟨t, ht, by omega, by omega⟩

/-- One operation in a run where no range is freed that starts at the end of a tracked range and
overlaps another one. -/
inductive Checked : BestFit → BestFit → Prop where
  | free {s s' : BestFit} {range : Range} {result : Except Error Unit}
      (hlt : range.start < range.stop)
      (hnot : ¬ (s.Follows range ∧ s.Overlaps range)) (hrun : s.free range = some (result, s')) :
      Checked s s'
  | step {s s' : BestFit} {F F' : Set ℕ} (hstep : Step (s, F) (s', F')) : Checked s s'

theorem Checked.inv (h : s.Inv) (hstep : Checked s s') : s'.Inv := by
  cases hstep with
  | @free range result hlt hnot hrun =>
    by_cases ho : s.Overlaps range
    · cases hrun.symm.trans (free_of_overlaps h (fun hf => hnot ⟨hf, ho⟩) ho)
      exact h
    · obtain ⟨result', s'', hrun', hfreed, -⟩ :=
        free_spec range h hlt.le (disjoint_of_not_overlaps ho)
      cases hrun.symm.trans hrun'
      exact hfreed.inv
  | step hstep => exact (hstep.accounts h).inv

theorem checked_run_inv (h : s.Inv) (hrun : ReflTransGen Checked s s') : s'.Inv := by
  induction hrun with
  | refl => exact h
  | tail _ hstep ih => exact hstep.inv ih

/-- Double frees are detected exactly where no tracked range ends at the start of a range that
overlaps another one.  Runs without such frees keep the two indexes consistent. -/
theorem detectsDoubleFree_iff (h : s.Inv) (hlt : range.start < range.stop) :
    (s.DetectsDoubleFree range ↔ ¬ (s.Follows range ∧ s.Overlaps range)) ∧
    ∀ s', ReflTransGen Checked s s' → s'.Inv := by
  refine ⟨⟨?_, ?_⟩, fun s' hrun => checked_run_inv h hrun⟩
  · rintro hd ⟨hf, ho⟩
    obtain ⟨e, -, hrun⟩ := hd.refused ho
    exact free_ne_error h hf ho e hrun
  intro hnot
  have hdisjoint : ∀ result s', s.free range = some (result, s') → ∀ r t, s'.Tracks r →
      s'.Tracks t → r = t ∨ r.stop ≤ t.start ∨ t.stop ≤ r.start :=
    fun result s' hrun r t => (Checked.free hlt hnot hrun |>.inv h).disjoint
  by_cases ho : s.Overlaps range
  · have hrun := free_of_overlaps h (fun hf => hnot ⟨hf, ho⟩) ho
    exact ⟨fun _ => ⟨_, rfl, hrun⟩, fun hno => absurd ho hno, hdisjoint⟩
  · obtain ⟨result, s', hrun, -, hok⟩ := free_spec range h hlt.le (disjoint_of_not_overlaps ho)
    obtain rfl := hok hlt
    exact ⟨fun hyes => absurd hyes ho, fun _ => ⟨s', hrun⟩, hdisjoint⟩

theorem detectsDoubleFree_after_free : ∃ s, ({} : BestFit).free ⟨0, 10⟩ = some (.ok (), s) ∧
    s.Overlaps ⟨5, 15⟩ ∧ s.DetectsDoubleFree ⟨5, 15⟩ ∧
    ∀ s', ReflTransGen Checked s s' → s'.Inv := by
  have hdisj : Disjoint ({} : BestFit).bytes (Set.Ico 0 10) := by simp [bytes_empty]
  obtain ⟨result, s', hrun, hfreed, -⟩ := free_spec ⟨0, 10⟩ inv_empty (Nat.zero_le 10) hdisj
  obtain ⟨s, hrun', hget, hnone⟩ : ∃ s, ({} : BestFit).free ⟨0, 10⟩ = some (.ok (), s) ∧
      s.byEnd[10]? = some 0 ∧ s.byEnd[5]? = none := ⟨_, rfl, rfl, rfl⟩
  cases hrun.symm.trans hrun'
  obtain ⟨hdetects, hinv⟩ := @detectsDoubleFree_iff s' ⟨5, 15⟩ hfreed.inv (by decide)
  refine ⟨s', hrun', ⟨⟨0, 10⟩, hget, by decide, by decide⟩, hdetects.mpr ?_, hinv⟩
  rintro ⟨⟨⟨start, stop⟩, ht, hstop⟩, -⟩
  obtain rfl : stop = 5 := hstop
  exact absurd (hnone.symm.trans ht) (by simp)

/-- Bytes 15 to 20 are free already, but the range from 0 to 10 is merged without a look at them. -/
theorem free_overlapping : ∃ s₁ s₂ s₃, ({} : BestFit).free ⟨0, 10⟩ = some (.ok (), s₁) ∧
    s₁.free ⟨15, 25⟩ = some (.ok (), s₂) ∧ s₂.Overlaps ⟨10, 20⟩ ∧
    s₂.free ⟨10, 20⟩ = some (.ok (), s₃) ∧ s₃.Tracks ⟨0, 20⟩ ∧ s₃.Tracks ⟨15, 25⟩ ∧
    ¬ s₂.DetectsDoubleFree ⟨10, 20⟩ := by
  obtain ⟨s₁, s₂, s₃, hfirst, hsecond, hrun, hmerged, hold⟩ :
      ∃ s₁ s₂ s₃, ({} : BestFit).free ⟨0, 10⟩ = some (.ok (), s₁) ∧
        s₁.free ⟨15, 25⟩ = some (.ok (), s₂) ∧ s₂.free ⟨10, 20⟩ = some (.ok (), s₃) ∧
        s₃.Tracks ⟨0, 20⟩ ∧ s₃.Tracks ⟨15, 25⟩ ∧ s₂.Tracks ⟨15, 25⟩ :=
    ⟨_, _, _, rfl, rfl, rfl, rfl, rfl, rfl⟩
  have ho : s₂.Overlaps ⟨10, 20⟩ := ⟨⟨15, 25⟩, hold.2, by decide, by decide⟩
  refine ⟨s₁, s₂, s₃, hfirst, hsecond, ho, hrun, hmerged, hold.1, fun hd => ?_⟩
  obtain ⟨e, -, hrun'⟩ := hd.refused ho
  cases hrun.symm.trans hrun'

end Smos.Fxfs.Allocator.BestFit
