import Smos.Fxfs.ExtentRecord
import Smos.Lib.OrderedMap
import Smos.Lib.Result

/-!
The checksums that journal replay verifies (`object_store/journal/checksum_list.rs`).

The device is the checksum of so many bytes from an offset on.
-/
namespace Smos.Fxfs

open Std (TreeMap)
open Lib

inductive ChecksumState
  | unverified (checksums : List ℕ)
  | valid
  | invalid
deriving DecidableEq

structure ChecksumEntry where
  startJournalOffset : ℕ
  deviceRange : Range
  checksums : List (ChecksumState × ℕ)

structure ChecksumList where
  flushedOffset : ℕ
  checksumEntries : List ChecksumEntry
  deviceOffsetToChecksumEntry : TreeMap ℕ ℕ
  maxChunkSize : ℕ

inductive ChecksumError
  | inconsistent (context : String)
  | panic
deriving DecidableEq

def checkedDiv (a b : ℕ) : Except ChecksumError ℕ := if b = 0 then .error .panic else .ok (a / b)

def Range.checkedLength (self : Range) : Except ChecksumError ℕ :=
  if self.stop < self.start then .error .panic else .ok (self.stop - self.start)

def splitAt {α : Type} (n : ℕ) (l : List α) : Except ChecksumError (List α × List α) :=
  if l.length < n then .error .panic else .ok (l.take n, l.drop n)

namespace ChecksumEntry

def chunkSize (self : ChecksumEntry) : Except ChecksumError ℕ := do
  let length ← self.deviceRange.checkedLength
  checkedDiv length self.checksums.length

def ofChecksums (journalOffset : ℕ) (deviceRange : Range) (checksums : List ℕ) : ChecksumEntry :=
  ⟨journalOffset, deviceRange, checksums.map fun c => (.unverified [c], u64Max)⟩

def indexFrom (self : ChecksumEntry) (start chunkSize : ℕ) : Except ChecksumError ℕ :=
  if start < self.deviceRange.start then .ok 0
  else checkedDiv (start - self.deviceRange.start) chunkSize

/-- A function on the checksums of an index range, which panics if there is no such range. -/
def updateSlice (self : ChecksumEntry) (first last : ℕ)
    (f : List (ChecksumState × ℕ) → Except ChecksumError (List (ChecksumState × ℕ))) :
    Except ChecksumError ChecksumEntry :=
  if last < first ∨ self.checksums.length < last then .error .panic
  else do
    let slice ← f ((self.checksums.take last).drop first)
    .ok { self with
      checksums := self.checksums.take first ++ slice ++ self.checksums.drop last }

end ChecksumEntry

def pushChecksums : List (ChecksumState × ℕ) → List ℕ →
    Except ChecksumError (List (ChecksumState × ℕ))
  | (.unverified checksums, last) :: rest, new :: news => do
    let rest ← pushChecksums rest news
    .ok ((.unverified (checksums ++ [new]), last) :: rest)
  | _ :: _, _ :: _ => .error .panic
  | rest, [] => .ok rest
  | [], _ :: _ => .ok []

structure PushState where
  entries : List ChecksumEntry
  start : ℕ
  checksums : List ℕ
  gapEntries : List (ℕ × ℕ)

/-- The checksums of a gap before an entry are put aside. -/
def splitGap (gap : Range) (chunkSize : ℕ) (checksums : List ℕ) :
    Except ChecksumError (List ℕ × List ℕ) :=
  if gap.stop ≤ gap.start then .ok ([], checksums)
  else do
    let n ← checkedDiv (gap.stop - gap.start) chunkSize
    splitAt n checksums

/-- The loop of `push` over the entries that end after the start of the range. -/
def pushLoop (journalOffset stop chunkSize : ℕ) (firstWrite : Bool) :
    List (ℕ × ℕ) → PushState → Except ChecksumError PushState
  | [], st => .ok st
  | (_, index) :: rest, st =>
    match st.entries[index]? with
    | none => .error .panic
    | some entry =>
      if stop ≤ entry.deviceRange.start then .ok st
      else do
        let gap : Range := ⟨st.start, entry.deviceRange.start⟩
        let (gapChecksums, checksums) ← splitGap gap chunkSize st.checksums
        let entryChunkSize ← entry.chunkSize
        if entryChunkSize ≠ chunkSize then
          .error (.inconsistent "Wrong number of checksums for device range")
        else do
          let overlap : Range :=
            ⟨max st.start entry.deviceRange.start, min stop entry.deviceRange.stop⟩
          let first ← checkedDiv (overlap.start - entry.deviceRange.start) chunkSize
          let last ← checkedDiv (overlap.stop - entry.deviceRange.start) chunkSize
          let (head, checksums) ← splitAt (last - first) checksums
          let entry ← entry.updateSlice first last fun slice => pushChecksums slice head
          let st : PushState :=
            { st with
              entries := st.entries.set index entry
              start := overlap.stop
              checksums := checksums }
          let st : PushState :=
            if gap.start < gap.stop ∧ firstWrite then
              { st with
                entries := st.entries ++ [.ofChecksums journalOffset gap gapChecksums]
                gapEntries := st.gapEntries ++ [(gap.stop, st.entries.length)] }
            else st
          if stop ≤ st.start then .ok st
          else pushLoop journalOffset stop chunkSize firstWrite rest st

namespace ChecksumList

def new (flushedOffset : ℕ) : ChecksumList := ⟨flushedOffset, [], ∅, 0⟩

def push (self : ChecksumList) (journalOffset : ℕ) (deviceRange : Range) (checksums : List ℕ)
    (firstWrite : Bool) : Except ChecksumError ChecksumList :=
  if journalOffset < self.flushedOffset then .ok self
  else do
    let length ← deviceRange.checkedLength
    let chunkSize ← checkedDiv length checksums.length
    let st ← pushLoop journalOffset deviceRange.stop chunkSize firstWrite
      (OrderedMap.rangeFrom self.deviceOffsetToChecksumEntry (deviceRange.start + 1))
      ⟨self.checksumEntries, deviceRange.start, checksums, []⟩
    let map := st.gapEntries.foldl (fun map gap => map.insert gap.1 gap.2)
      self.deviceOffsetToChecksumEntry
    let list : ChecksumList :=
      { self with
        checksumEntries := st.entries
        deviceOffsetToChecksumEntry := map
        maxChunkSize := max self.maxChunkSize chunkSize }
    if st.start < deviceRange.stop ∧ firstWrite then
      .ok { list with
        checksumEntries := st.entries ++
          [.ofChecksums journalOffset ⟨st.start, deviceRange.stop⟩ st.checksums]
        deviceOffsetToChecksumEntry := map.insert deviceRange.stop st.entries.length }
    else .ok list

def endAt (journalOffset : ℕ) (slice : List (ChecksumState × ℕ)) :
    Except ChecksumError (List (ChecksumState × ℕ)) :=
  .ok (slice.map fun c => (c.1, journalOffset))

def deallocateLoop (journalOffset stop : ℕ) :
    List (ℕ × ℕ) → ℕ → List ChecksumEntry → Except ChecksumError (List ChecksumEntry)
  | [], _, entries => .ok entries
  | (_, index) :: rest, start, entries =>
    match entries[index]? with
    | none => .error .panic
    | some entry =>
      if stop ≤ entry.deviceRange.start then .ok entries
      else do
        let chunkSize ← entry.chunkSize
        let first ← entry.indexFrom start chunkSize
        if stop ≤ entry.deviceRange.stop then do
          -- this entry covers the remainder
          let last ← checkedDiv (stop - entry.deviceRange.start) chunkSize
          let entry ← entry.updateSlice first last (endAt journalOffset)
          .ok (entries.set index entry)
        else do
          let marked ← entry.updateSlice first entry.checksums.length (endAt journalOffset)
          deallocateLoop journalOffset stop rest entry.deviceRange.stop (entries.set index marked)

def markDeallocated (self : ChecksumList) (journalOffset : ℕ) (deviceRange : Range) :
    Except ChecksumError ChecksumList :=
  if journalOffset < self.flushedOffset then .ok self
  else do
    let entries ← deallocateLoop journalOffset deviceRange.stop
      (OrderedMap.rangeFrom self.deviceOffsetToChecksumEntry (deviceRange.start + 1))
      deviceRange.start self.checksumEntries
    .ok { self with checksumEntries := entries }

end ChecksumList

section Verify

variable (device : ℕ → ℕ → ℕ)

def ChecksumState.verify (offset chunkSize : ℕ) : ChecksumState → ChecksumState
  | .unverified checksums => if device offset chunkSize ∈ checksums then .valid else .invalid
  | state => state

/-- The inner loop of `verify`; whether verification failed. -/
def verifyChecksums (journalOffset chunkSize : ℕ) :
    ℕ → List (ChecksumState × ℕ) → List (ChecksumState × ℕ) × Bool
  | _, [] => ([], false)
  | offset, (state, dependency) :: rest =>
    let state := if journalOffset ≤ dependency then state.verify device offset chunkSize else state
    if journalOffset ≤ dependency ∧ state = .invalid then ((state, dependency) :: rest, true)
    else
      let (rest, failed) := verifyChecksums journalOffset chunkSize (offset + chunkSize) rest
      ((state, dependency) :: rest, failed)

/-- One round of `verify`; where the entry that failed starts. -/
def verifyEntries (journalOffset : ℕ) :
    List ChecksumEntry → Except ChecksumError (List ChecksumEntry × Option ℕ)
  | [] => .ok ([], none)
  | entry :: entries =>
    if journalOffset ≤ entry.startJournalOffset then .ok (entry :: entries, none)
    else do
      let chunkSize ← entry.chunkSize
      let (checksums, failed) :=
        verifyChecksums device journalOffset chunkSize entry.deviceRange.start entry.checksums
      let entry := { entry with checksums := checksums }
      if failed then .ok (entry :: entries, some entry.startJournalOffset)
      else do
        let (entries, failed) ← verifyEntries journalOffset entries
        .ok (entry :: entries, failed)

def verifyLoop : ℕ → ℕ → List ChecksumEntry →
    Option (Except ChecksumError (ℕ × List ChecksumEntry))
  | 0, _, _ => none
  | fuel + 1, journalOffset, entries =>
    match verifyEntries device journalOffset entries with
    | .error error => some (.error error)
    | .ok (entries, none) => some (.ok (journalOffset, entries))
    | .ok (entries, some start) => verifyLoop fuel start entries

/-- `verify`; each round that fails goes back to an earlier offset. -/
def ChecksumList.verify (self : ChecksumList) (journalOffset : ℕ) :
    Option (Except ChecksumError (ℕ × ChecksumList)) :=
  (verifyLoop device (journalOffset + 1) journalOffset self.checksumEntries).map
    (Except.map fun result => (result.1, { self with checksumEntries := result.2 }))

end Verify

end Smos.Fxfs
