import Smos.Lib.Bytes
import Smos.Lib.Result

/-!
The translation table of a QCOW file: how it is loaded and how linear addresses are looked up.

A linear address is split into an index into the L1 table, an index into an L2 table and an offset
in a cluster.  A file is the list of its bytes.  A function that returns an `Option` of its result
returns `none` where the code panics: at an index out of bounds, at a failed conversion and, in a
build that checks for it, at an arithmetic overflow.
-/
namespace Smos.Qcow

open Lib.Bytes

def qcowMagic : ℕ := 0x514649fb

def qcowCryptNone : ℕ := 0

def clusterSize (clusterBits : ℕ) : ℕ := 1 <<< clusterBits

def clusterMask (clusterBits : ℕ) : ℕ := clusterSize clusterBits - 1

def l2Bits (clusterBits : ℕ) : ℕ := clusterBits - 3

def l2Size (clusterBits : ℕ) : ℕ := 1 <<< l2Bits clusterBits

def l2Mask (clusterBits : ℕ) : ℕ := l2Size clusterBits - 1

def l1EntrySize (clusterBits : ℕ) : ℕ := clusterSize clusterBits * l2Size clusterBits

/-- What an arithmetic overflow does: a build with debug assertions panics, and a release build
wraps. -/
inductive Overflow where
  | panics
  | wraps
deriving DecidableEq

def requiredL1Size (overflow : Overflow) (diskSize clusterBits : ℕ) : Option ℕ :=
  if overflow = .panics ∧ 2 ^ 64 ≤ diskSize + l1EntrySize clusterBits then none
  else
    -- the sum is a `u64`, the result a `u32`
    let required := (diskSize + l1EntrySize clusterBits - 1) % 2 ^ 64 / l1EntrySize clusterBits
    if required < 2 ^ 32 then some required else none

structure Header where
  magic : ℕ
  version : ℕ
  backingFileOffset : ℕ
  backingFileSize : ℕ
  clusterBits : ℕ
  size : ℕ
  cryptMethod : ℕ
  l1Size : ℕ
  l1TableOffset : ℕ
  refcountTableOffset : ℕ
  nbSnapshots : ℕ
  snapshotsOffset : ℕ
  incompatibleFeatures : ℕ
  compatibleFeatures : ℕ
  autoclearFeatures : ℕ
  refcountOrder : ℕ
  headerLength : ℕ

inductive LoadError where
  | unexpectedEof
  | badMagic
  | unsupportedVersion (version : ℕ)
  | backingFile
  | clusterBits
  | zeroSize
  | encryption
  | l1TooSmall
  | compressed
deriving DecidableEq, Repr

def LoadError.text : LoadError → String
  | .unexpectedEof => "failed to fill whole buffer"
  | .badMagic => "File has bad magic"
  | .unsupportedVersion version => "QCOW file has unsupported version " ++ toString version
  | .backingFile => "QCOW file has backing file, which is not supported"
  | .clusterBits => "cluster_bits is out of the supported range."
  | .zeroSize => "QCOW file has 0 size"
  | .encryption => "QCOW encryption is not supported"
  | .l1TooSmall => "QCOW L1 table is not large enough to address the entire disk"
  | .compressed => "QCOW contains compressed sectors"

def readExact (file : List UInt8) (offset n : ℕ) : Except LoadError (List UInt8) :=
  let bytes := slice file offset n
  if bytes.length = n then .ok bytes else .error .unexpectedEof

def headerSize : ℕ := 100

def readHeader (file : List UInt8) : Except LoadError Header := do
  let buf ← readExact file 0 headerSize
  let be (offset width : ℕ) : ℕ := ofBE (slice buf offset width)
  return {
    magic := be 0 4
    version := be 4 4
    backingFileOffset := be 8 8
    backingFileSize := be 16 4
    clusterBits := be 20 4
    size := be 24 8
    cryptMethod := be 32 4
    l1Size := be 36 4
    l1TableOffset := be 40 8
    refcountTableOffset := be 48 8
    nbSnapshots := be 56 4
    snapshotsOffset := be 60 8
    incompatibleFeatures := be 68 8
    compatibleFeatures := be 76 8
    autoclearFeatures := be 84 8
    refcountOrder := be 92 4
    headerLength := be 96 4 }

def qcowLutOffsetMask : ℕ := 0xfffffffffffe00

def lutEntryToOffset (entry : ℕ) : Option ℕ :=
  let offset := entry &&& qcowLutOffsetMask
  if offset = 0 then none else some offset

structure L1Entry where
  raw : ℕ

def L1Entry.offset (entry : L1Entry) : Option ℕ := lutEntryToOffset entry.raw

structure L2Entry where
  raw : ℕ
deriving DecidableEq

def L2Entry.compressed (entry : L2Entry) : Bool := entry.raw &&& (1 <<< 62) != 0

def L2Entry.offset (entry : L2Entry) : Option ℕ := lutEntryToOffset entry.raw

def loadTranslationTable {Entry : Type} (make : ℕ → Entry) (file : List UInt8)
    (numEntries tableOffset : ℕ) : Except LoadError (List Entry) := do
  let table ← readExact file tableOffset (numEntries * 8)
  return (List.range numEntries).map fun i => make (ofBE (slice table (8 * i) 8))

structure TranslationTable where
  clusterBits : ℕ
  linearSize : ℕ
  l1 : List (Option (List L2Entry))
deriving DecidableEq

def loadL2 (file : List UInt8) (clusterBits : ℕ) (entry : L1Entry) :
    Except LoadError (Option (List L2Entry)) :=
  match entry.offset with
  | none => .ok none
  | some offset => do
    let l2 ← loadTranslationTable L2Entry.mk file (l2Size clusterBits) offset
    if l2.any L2Entry.compressed then .error .compressed
    else return some l2

def loadTables (file : List UInt8) (header : Header) : Except LoadError TranslationTable := do
  let l1Entries ← loadTranslationTable L1Entry.mk file header.l1Size header.l1TableOffset
  let l1 ← l1Entries.mapM (loadL2 file header.clusterBits)
  return { clusterBits := header.clusterBits, linearSize := header.size, l1 := l1 }

/-- What a version 2 file has in the fields that were added in version 3. -/
def Header.withDefaults (header : Header) : Header :=
  if header.version = 2 then
    { header with
      incompatibleFeatures := 0
      compatibleFeatures := 0
      autoclearFeatures := 0
      refcountOrder := 4
      headerLength := 72 }
  else header

/-- The checks of the header that come before its L1 table is compared with its disk size. -/
def Header.check (header : Header) : Except LoadError Unit :=
  if header.magic ≠ qcowMagic then .error .badMagic
  else if header.version ≠ 2 ∧ header.version ≠ 3 then
    .error (.unsupportedVersion header.version)
  else if header.withDefaults.backingFileSize ≠ 0 then .error .backingFile
  else if header.withDefaults.clusterBits < 9 ∨ header.withDefaults.clusterBits > 22 then
    .error .clusterBits
  else if header.withDefaults.size = 0 then .error .zeroSize
  else if header.withDefaults.cryptMethod ≠ qcowCryptNone then .error .encryption
  else .ok ()

def load (overflow : Overflow) (file : List UInt8) : Option (Except LoadError TranslationTable) :=
  match readHeader file with
  | .error e => some (.error e)
  | .ok header =>
    match header.check with
    | .error e => some (.error e)
    | .ok () =>
      let header := header.withDefaults
      match requiredL1Size overflow header.size header.clusterBits with
      | none => none
      | some required =>
        if header.l1Size < required then some (.error .l1TooSmall)
        else some (loadTables file header)

inductive Mapping where
  | mapped (physicalOffset length : ℕ)
  | unmapped (length : ℕ)
deriving DecidableEq, Repr

def Mapping.len : Mapping → ℕ
  | .mapped _ length => length
  | .unmapped length => length

/-- The entry of the L2 table at `l2Index` of the table at `l1Index`, decoded. -/
def TranslationTable.physicalCluster (table : TranslationTable) (l1Index l2Index : ℕ) :
    Option (Option ℕ) := do
  match ← table.l1[l1Index]? with
  | none => some none
  | some l2Table =>
    let entry ← l2Table[l2Index]?
    some entry.offset

def TranslationTable.translateRange (table : TranslationTable) (start stop : ℕ) :
    Option (Option Mapping) :=
  if start ≥ table.linearSize then some none
  else
    let clusterOffset := start &&& clusterMask table.clusterBits
    let offset := start >>> table.clusterBits
    let l2Index := offset &&& l2Mask table.clusterBits
    let l1Index := (offset >>> l2Bits table.clusterBits) % 2 ^ 32
    match table.physicalCluster l1Index l2Index with
    | none => none
    | some maybePhysicalCluster =>
      let length := min (stop - start) (clusterSize table.clusterBits - clusterOffset)
      match maybePhysicalCluster with
      | some physicalCluster =>
        if physicalCluster + clusterOffset < 2 ^ 64 then
          some (some (.mapped (physicalCluster + clusterOffset) length))
        else none
      | none => some (some (.unmapped length))

structure Translation where
  translation : TranslationTable
  start : ℕ
  stop : ℕ

def Translation.next (it : Translation) : Option (Option Mapping × Translation) :=
  if it.stop ≤ it.start then some (none, it)
  else
    match it.translation.translateRange it.start it.stop with
    | none => none
    | some none => some (none, it)
    | some (some mapping) => some (some mapping, { it with start := it.start + mapping.len })

def TranslationTable.translate (table : TranslationTable) (start stop : ℕ) : Translation :=
  { translation := table, start := start, stop := stop }

/-- What an iterator yields until its first `None`, with at most `fuel` calls of `next`. -/
def Translation.mappings : ℕ → Translation → Option (List Mapping)
  | 0, _ => none
  | fuel + 1, it =>
    match it.next with
    | none => none
    | some (none, _) => some []
    | some (some mapping, it') => (it'.mappings fuel).map (mapping :: ·)

end Smos.Qcow
