import Smos.Fxfs.ChecksumList

/-!
The rounds of the verification of checksums.

A round leaves behind what it has verified.  What matters of an entry is therefore what it is once
all of its checksums are verified, which no round changes.  A round that fails goes back to the
start of an entry that blocks all offsets in between.
-/
namespace Smos.Fxfs

open List

variable {device : ℕ → ℕ → ℕ} {c offset journalOffset : ℕ} {entry : ChecksumEntry}
  {checksums : List (ChecksumState × ℕ)} {entries : List ChecksumEntry} {entry' : ChecksumEntry}
  {entries' : List ChecksumEntry}

section Entries

structure ChecksumEntry.Aligned (c : ℕ) (entry : ChecksumEntry) : Prop where
  dvd : c ∣ entry.deviceRange.start
  stop_eq : entry.deviceRange.stop = entry.deviceRange.start + c * entry.checksums.length
  nonempty : 0 < entry.checksums.length

theorem ChecksumEntry.Aligned.chunkSize (h : entry.Aligned c) : entry.chunkSize = .ok c := by
  have hle : ¬ entry.deviceRange.stop < entry.deviceRange.start := by
    rw [h.stop_eq]
    exact Nat.not_lt.mpr (Nat.le_add_right _ _)
  have hdiv : (entry.deviceRange.stop - entry.deviceRange.start) / entry.checksums.length = c := by
    rw [h.stop_eq, Nat.add_sub_cancel_left]
    exact Nat.mul_div_cancel c h.nonempty
  rw [ChecksumEntry.chunkSize, Range.checkedLength, if_neg hle]
  change checkedDiv _ _ = _
  rw [checkedDiv, if_neg h.nonempty.ne', hdiv]

variable (device c)

def verified : ℕ → List (ChecksumState × ℕ) → List (ChecksumState × ℕ)
  | _, [] => []
  | offset, (state, dependency) :: rest =>
    (state.verify device offset c, dependency) :: verified (offset + c) rest

def ChecksumEntry.verified (entry : ChecksumEntry) : ChecksumEntry :=
  { entry with checksums := Fxfs.verified device c entry.deviceRange.start entry.checksums }

/-- An entry that keeps the journal from being replayed up to an offset: it starts before it, and a
checksum that does not end before it is wrong. -/
def ChecksumEntry.Blocks (entry : ChecksumEntry) (journalOffset : ℕ) : Prop :=
  entry.startJournalOffset < journalOffset ∧
    ∃ dependency, journalOffset ≤ dependency ∧
      (.invalid, dependency) ∈ (entry.verified device c).checksums

variable {device c}

theorem ChecksumState.verify_verify (state : ChecksumState) :
    (state.verify device offset c).verify device offset c = state.verify device offset c := by
  cases state with
  | unverified checksums =>
    rw [ChecksumState.verify]
    split_ifs <;> rfl
  | valid => rfl
  | invalid => rfl

theorem length_verified : (verified device c offset checksums).length = checksums.length := by
  induction checksums generalizing offset with
  | nil => rfl
  | cons checksum rest ih =>
    rw [verified, length_cons, ih, length_cons]

theorem getElem?_verified (m : ℕ) : (verified device c offset checksums)[m]? =
    checksums[m]?.map fun s => (s.1.verify device (offset + c * m) c, s.2) := by
  induction checksums generalizing offset m with
  | nil => rfl
  | cons checksum rest ih =>
    cases m with
    | zero => rfl
    | succ m =>
      rw [verified, getElem?_cons_succ, getElem?_cons_succ, ih, Nat.mul_succ,
        Nat.add_comm (c * m) c, Nat.add_assoc]

theorem verified_verifyChecksums :
    verified device c offset (verifyChecksums device journalOffset c offset checksums).1 =
      verified device c offset checksums := by
  induction checksums generalizing offset with
  | nil => rfl
  | cons checksum rest ih =>
    obtain ⟨state, dependency⟩ := checksum
    rw [verifyChecksums]
    have hhead : (if journalOffset ≤ dependency then state.verify device offset c
        else state).verify device offset c = state.verify device offset c := by
      split_ifs
      · exact state.verify_verify
      · rfl
    by_cases hfail : journalOffset ≤ dependency ∧
        (if journalOffset ≤ dependency then state.verify device offset c else state) = .invalid
    · rw [if_pos hfail, verified, hhead, verified]
    · rw [if_neg hfail, verified, hhead, verified, ih]

theorem verifyChecksums_failed :
    (verifyChecksums device journalOffset c offset checksums).2 = true ↔
      ∃ dependency, journalOffset ≤ dependency ∧
        (.invalid, dependency) ∈ verified device c offset checksums := by
  induction checksums generalizing offset with
  | nil => simp [verifyChecksums, verified]
  | cons checksum rest ih =>
    obtain ⟨state, dependency⟩ := checksum
    rw [verifyChecksums, verified]
    by_cases hfail : journalOffset ≤ dependency ∧
        (if journalOffset ≤ dependency then state.verify device offset c else state) = .invalid
    · rw [if_pos hfail]
      obtain ⟨hle, hinvalid⟩ := hfail
      rw [if_pos hle] at hinvalid
      refine iff_of_true rfl ⟨dependency, hle, ?_⟩
      rw [hinvalid]
      exact mem_cons_self
    · rw [if_neg hfail]
      refine ih.trans ?_
      constructor
      · rintro ⟨d, hle, hmem⟩
        exact ⟨d, hle, mem_cons_of_mem _ hmem⟩
      · rintro ⟨d, hle, hmem⟩
        rcases mem_cons.mp hmem with heq | hmem
        · obtain ⟨hstate, hd⟩ := Prod.mk.inj heq
          rw [hd] at hle
          exact absurd ⟨hle, by rw [if_pos hle]; exact hstate.symm⟩ hfail
        · exact ⟨d, hle, hmem⟩

end Entries

section Rounds

theorem blocks_of_verified_eq (h : entry'.verified device c = entry.verified device c) :
    entry'.Blocks device c journalOffset ↔ entry.Blocks device c journalOffset := by
  have hstart : entry'.startJournalOffset = entry.startJournalOffset := by
    change (entry'.verified device c).startJournalOffset = _
    rw [h]
    rfl
  rw [ChecksumEntry.Blocks, ChecksumEntry.Blocks, h, hstart]

theorem aligned_of_verified_eq
    (h : entry'.verified device c = entry.verified device c) (haligned : entry.Aligned c) :
    entry'.Aligned c := by
  have hrange : entry'.deviceRange = entry.deviceRange := by
    change (entry'.verified device c).deviceRange = _
    rw [h]
    rfl
  have hlength : entry'.checksums.length = entry.checksums.length := by
    have hverified := congrArg (fun e => e.checksums.length) h
    dsimp only [ChecksumEntry.verified] at hverified
    rw [length_verified, length_verified] at hverified
    exact hverified
  refine ⟨?_, ?_, ?_⟩
  · rw [hrange]
    exact haligned.dvd
  · rw [hrange, hlength]
    exact haligned.stop_eq
  · rw [hlength]
    exact haligned.nonempty

structure EntriesOk (c : ℕ) (entries : List ChecksumEntry) : Prop where
  aligned : ∀ e ∈ entries, e.Aligned c
  sorted : entries.Pairwise fun e e' => e.startJournalOffset ≤ e'.startJournalOffset

theorem EntriesOk.of_verified_eq (h : EntriesOk c entries)
    (heq : entries'.map (·.verified device c) = entries.map (·.verified device c)) :
    EntriesOk c entries' := by
  refine ⟨?_, ?_⟩
  · intro e' he'
    have hmem : e'.verified device c ∈ entries.map (·.verified device c) := by
      rw [← heq]
      exact mem_map_of_mem he'
    obtain ⟨e, he, hverified⟩ := mem_map.mp hmem
    exact aligned_of_verified_eq hverified.symm (h.aligned e he)
  · have hstarts : entries'.map (·.startJournalOffset) = entries.map (·.startJournalOffset) := by
      have hmap := congrArg (map ChecksumEntry.startJournalOffset) heq
      rw [map_map, map_map] at hmap
      exact hmap
    have hsorted := pairwise_map.mpr h.sorted
    rw [← hstarts] at hsorted
    exact pairwise_map.mp hsorted

/-- A round of verification. -/
theorem verifyEntries_spec (h : EntriesOk c entries) :
    ∃ entries' failed, verifyEntries device journalOffset entries = .ok (entries', failed) ∧
      entries'.map (·.verified device c) = entries.map (·.verified device c) ∧
      match failed with
      | none => ∀ e ∈ entries, ¬ e.Blocks device c journalOffset
      | some start => ∃ e ∈ entries, e.Blocks device c journalOffset ∧
          start = e.startJournalOffset := by
  induction entries with
  | nil => exact ⟨[], none, rfl, rfl, by simp⟩
  | cons e rest ih =>
    rw [verifyEntries]
    obtain ⟨hfirst, hsorted⟩ := pairwise_cons.mp h.sorted
    by_cases hstop : journalOffset ≤ e.startJournalOffset
    · rw [if_pos hstop]
      refine ⟨e :: rest, none, rfl, rfl, ?_⟩
      -- all entries after this one start at or after it
      intro e' he' hblocks
      have hle : e.startJournalOffset ≤ e'.startJournalOffset := by
        rcases mem_cons.mp he' with rfl | he'
        · exact Nat.le_refl _
        · exact hfirst e' he'
      exact Nat.not_lt.mpr (hstop.trans hle) hblocks.1
    rw [if_neg hstop, (h.aligned e mem_cons_self).chunkSize]
    have hlt := Nat.lt_of_not_le hstop
    have hfailed := @verifyChecksums_failed device c e.deviceRange.start journalOffset e.checksums
    have hverified : ChecksumEntry.verified device c
        { e with checksums :=
            (verifyChecksums device journalOffset c e.deviceRange.start e.checksums).1 } =
        e.verified device c := by
      rw [ChecksumEntry.verified, verified_verifyChecksums, ChecksumEntry.verified]
    change ∃ entries' failed, (if
      (verifyChecksums device journalOffset c e.deviceRange.start e.checksums).2 = true
      then _ else _) = Except.ok (entries', failed) ∧ _
    by_cases hbad : (verifyChecksums device journalOffset c e.deviceRange.start e.checksums).2 =
      true
    · rw [if_pos hbad]
      refine ⟨_, some e.startJournalOffset, rfl, ?_, e, mem_cons_self,
        ⟨hlt, hfailed.mp hbad⟩, rfl⟩
      rw [map_cons, map_cons, hverified]
    · rw [if_neg hbad]
      obtain ⟨entries', failed, hrun, hsame, hresult⟩ :=
        ih ⟨fun e' he' => h.aligned e' (mem_cons_of_mem e he'), hsorted⟩
      rw [hrun]
      refine ⟨_, failed, rfl, ?_, ?_⟩
      · rw [map_cons, map_cons, hverified, hsame]
      · have hgood : ¬ e.Blocks device c journalOffset := fun hblocks =>
          hbad (hfailed.mpr hblocks.2)
        cases failed with
        | none => exact forall_mem_cons.mpr ⟨hgood, hresult⟩
        | some start =>
          obtain ⟨e', he', hblocks⟩ := hresult
          exact ⟨e', mem_cons_of_mem e he', hblocks⟩

def unblocked (device : ℕ → ℕ → ℕ) (c : ℕ) (entries : List ChecksumEntry) (journalOffset : ℕ) :
    Set ℕ :=
  {offset | offset ≤ journalOffset ∧ ∀ e ∈ entries, ¬ e.Blocks device c offset}

theorem unblocked_of_verified_eq
    (heq : entries'.map (·.verified device c) = entries.map (·.verified device c)) :
    unblocked device c entries' journalOffset ⊆ unblocked device c entries journalOffset := by
  rintro offset ⟨hle, hnone⟩
  refine ⟨hle, ?_⟩
  intro e he hblocks
  have hmem : e.verified device c ∈ entries'.map (·.verified device c) := by
    rw [heq]
    exact mem_map_of_mem he
  obtain ⟨e', he', hverified⟩ := mem_map.mp hmem
  exact hnone e' he' ((blocks_of_verified_eq hverified).mpr hblocks)

/-- The rounds come to an end, at the greatest offset that no entry blocks. -/
theorem verifyLoop_spec {fuel : ℕ} (h : EntriesOk c entries) (hfuel : journalOffset < fuel) :
    ∃ offset entries', verifyLoop device fuel journalOffset entries =
      some (.ok (offset, entries')) ∧
      IsGreatest (unblocked device c entries journalOffset) offset := by
  induction fuel generalizing journalOffset entries with
  | zero => exact absurd hfuel (Nat.not_lt_zero _)
  | succ fuel ih =>
    obtain ⟨entries', failed, hrun, hsame, hresult⟩ :=
      @verifyEntries_spec device c journalOffset entries h
    rw [verifyLoop, hrun]
    cases failed with
    | none => exact ⟨journalOffset, entries', rfl, ⟨Nat.le_refl _, hresult⟩, fun _ hmem => hmem.1⟩
    | some start =>
      obtain ⟨e, he, hblocks, rfl⟩ := hresult
      have hback : e.startJournalOffset < journalOffset := hblocks.1
      obtain ⟨offset, entries'', hloop, hmem, hgreatest⟩ :=
        ih (h.of_verified_eq hsame) (show e.startJournalOffset < fuel by omega)
      have hmem' := unblocked_of_verified_eq hsame hmem
      refine ⟨offset, entries'', hloop, ⟨hmem'.1.trans hback.le, hmem'.2⟩, ?_⟩
      intro offset' hoffset'
      refine hgreatest (unblocked_of_verified_eq hsame.symm ⟨?_, hoffset'.2⟩)
      -- the entry that failed blocks every offset between its start and where the round began
      by_contra hgt
      obtain ⟨-, dependency, hle, hinvalid⟩ := hblocks
      exact hoffset'.2 e he
        ⟨Nat.lt_of_not_le hgt, dependency, hoffset'.1.trans hle, hinvalid⟩

theorem ChecksumList.verify_spec (device : ℕ → ℕ → ℕ) {list : ChecksumList}
    (h : EntriesOk c list.checksumEntries) (journalOffset : ℕ) :
    ∃ offset list', list.verify device journalOffset = some (.ok (offset, list')) ∧
      IsGreatest (unblocked device c list.checksumEntries journalOffset) offset := by
  obtain ⟨offset, entries', hrun, hgreatest⟩ :=
    @verifyLoop_spec device c journalOffset list.checksumEntries _ h (Nat.lt_succ_self _)
  refine ⟨offset, { list with checksumEntries := entries' }, ?_, hgreatest⟩
  rw [ChecksumList.verify, hrun]
  rfl

end Rounds

end Smos.Fxfs
