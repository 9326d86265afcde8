import Smos.Fxfs.AllocatorMerge
import Smos.Fxfs.ChecksumList
import Smos.Fxfs.ObjectRecord

/-!
The filters that say whether a layer file might hold a key (`lsm_tree/bloom_filter.rs`), and the
hashes of the keys that go into them.

A range key is hashed once for every bucket of the offset space that it touches, so two ranges that
share an offset share a hash.  Division by zero and an index out of bounds are `none`.
-/
namespace Smos.Fxfs

open List Option

/-- `BitVec::to_bytes`: the first bit of a byte is its highest one. -/
def toBytes (bits : List Bool) : List ℕ :=
  (List.range (bits.length / 8 + if bits.length % 8 = 0 then 0 else 1)).map fun byte =>
    Nat.ofBits fun i : Fin 8 => bits[byte * 8 + (7 - i.val)]?.getD false

def fromBytes (bytes : List ℕ) : List Bool :=
  (List.range (bytes.length * 8)).map fun i => (bytes[i / 8]?.getD 0).testBit (7 - i % 8)

/-- What the filters take from other crates and from floating point arithmetic: the random numbers,
the hasher, and the estimates for a number of items. -/
structure Crates (R H : Type) where
  seedFromU64 : ℕ → R
  gen : R → ℕ × R
  /-- A new hasher that a number was fed to. -/
  hash : ℕ → H
  writeU64 : H → ℕ → H
  finish : H → ℕ
  estimateBits : ℕ → ℕ
  estimateHashes : ℕ → ℕ → ℕ

structure BloomFilterReader where
  data : List Bool
  hashNonces : List ℕ

structure BloomFilterWriter where
  data : List Bool
  seed : ℕ
  hashNonces : List ℕ

section Filter

variable {R H V : Type} (C : Crates R H) (fuzzyHash : V → List ℕ)

def nonces : ℕ → R → List ℕ
  | 0, _ => []
  | n + 1, rng => (C.gen rng).1 :: nonces n (C.gen rng).2

def generateHashNonces (seed numNonces : ℕ) : List ℕ := nonces C numNonces (C.seedFromU64 seed)

def estimateParams (numItems : ℕ) : Option (ℕ × ℕ) :=
  if numItems = 0 then some (0, 0) else
    let bits := 2 ^ Nat.clog 2 (max (C.estimateBits numItems) 8)
    -- `next_power_of_two` overflows
    if u64Max < bits then none else some (bits, C.estimateHashes numItems bits)

def hashIndex (len : ℕ) (hasher : H) : Option ℕ :=
  if len = 0 then none else some (C.finish hasher % len)

def setBits : H → List ℕ → List Bool → Option (List Bool)
  | _, [], data => some data
  | hasher, nonce :: rest, data => do
    let hasher := C.writeU64 hasher nonce
    let idx ← hashIndex C data.length hasher
    if idx < data.length then setBits hasher rest (data.set idx true) else none

def testBits (data : List Bool) : H → List ℕ → Option Bool
  | _, [] => some true
  | hasher, nonce :: rest => do
    let hasher := C.writeU64 hasher nonce
    let idx ← hashIndex C data.length hasher
    if ← data[idx]? then testBits data hasher rest else some false

namespace BloomFilterReader

def read (buf : List ℕ) (seed numNonces : ℕ) : BloomFilterReader :=
  ⟨fromBytes buf, generateHashNonces C seed numNonces⟩

def maybeContainsInner (r : BloomFilterReader) (initialHash : ℕ) : Option Bool :=
  testBits C r.data (C.hash initialHash) r.hashNonces

end BloomFilterReader

namespace BloomFilterWriter

def new (seed numItems : ℕ) : Option BloomFilterWriter := do
  let (bits, numNonces) ← estimateParams C numItems
  some ⟨List.replicate bits false, seed, generateHashNonces C seed numNonces⟩

def numNonces (w : BloomFilterWriter) : ℕ := w.hashNonces.length

def write (w : BloomFilterWriter) : List ℕ := toBytes w.data

def insertInner (w : BloomFilterWriter) (initialHash : ℕ) : Option BloomFilterWriter := do
  let data ← setBits C (C.hash initialHash) w.hashNonces w.data
  some { w with data }

def insert (w : BloomFilterWriter) (value : V) : Option BloomFilterWriter :=
  (fuzzyHash value).foldlM (insertInner C) w

/-- What `new` establishes: whole bytes, no hashes without bits, and the nonces of the seed. -/
structure Ok (w : BloomFilterWriter) : Prop where
  bytes : 8 ∣ w.data.length
  bits : w.data.length = 0 → w.hashNonces = []
  nonces : generateHashNonces C w.seed w.numNonces = w.hashNonces

structure Keeps (data later : List Bool) : Prop where
  length : later.length = data.length
  bits : ∀ i : ℕ, data[i]? = some true → later[i]? = some true

theorem Keeps.refl (data : List Bool) : Keeps data data := ⟨rfl, fun _ h => h⟩

theorem Keeps.trans {a b c : List Bool} (h : Keeps a b) (h' : Keeps b c) : Keeps a c :=
  ⟨h'.length.trans h.length, fun i hi => h'.bits i (h.bits i hi)⟩

structure Grows (w later : BloomFilterWriter) : Prop where
  seed : later.seed = w.seed
  hashNonces : later.hashNonces = w.hashNonces
  keeps : Keeps w.data later.data

variable {C fuzzyHash} {w w' w'' : BloomFilterWriter}

theorem Grows.trans (h : Grows w w') (h' : Grows w' w'') : Grows w w'' :=
  ⟨h'.seed.trans h.seed, h'.hashNonces.trans h.hashNonces, h.keeps.trans h'.keeps⟩

def Finds (C : Crates R H) (hash : ℕ) (w : BloomFilterWriter) : Prop :=
  BloomFilterReader.maybeContainsInner C ⟨w.data, w.hashNonces⟩ hash = some true

end BloomFilterWriter

end Filter

section Buckets

open Allocator

def extentHashBucketSize : ℕ := 1024 * 1024

def saturatingAdd (a b : ℕ) : ℕ := min (a + b) u64Max

def roundDown (offset blockSize : ℕ) : ℕ := offset - offset % blockSize

def roundUp (offset blockSize : ℕ) : Option ℕ :=
  if offset + (blockSize - 1) ≤ u64Max then some (roundDown (offset + (blockSize - 1)) blockSize)
  else none

theorem sub_saturatingAdd_lt {start stop : ℕ} (hstop : stop ≤ u64Max) (h : ¬ start ≥ stop) :
    stop - saturatingAdd start extentHashBucketSize < stop - start := by
  unfold saturatingAdd extentHashBucketSize
  omega

/-- The ranges that an `ExtentKeyPartitionIterator` of the range `start..stop` yields.  The one of
allocator keys has the same text. -/
def partitions {stop : ℕ} (hstop : stop ≤ u64Max) (start : ℕ) : List Range :=
  if start ≥ stop then [] else
    ⟨start, min (saturatingAdd start extentHashBucketSize) stop⟩ ::
      partitions hstop (saturatingAdd start extentHashBucketSize)
termination_by stop - start
decreasing_by exact sub_saturatingAdd_lt hstop ‹¬ start ≥ stop›

/-- Rounding up stays in the number range, ends at a bucket or at the end of the number range, and
loses no offset. -/
theorem roundUp_spec (offset : ℕ) :
    (roundUp offset extentHashBucketSize).getD u64Max ≤ u64Max ∧
      ((roundUp offset extentHashBucketSize).getD u64Max % extentHashBucketSize = 0 ∨
        (roundUp offset extentHashBucketSize).getD u64Max = u64Max) ∧
      ∀ x < u64Max, x < offset → x < (roundUp offset extentHashBucketSize).getD u64Max := by
  rcases Nat.lt_or_ge u64Max (offset + (extentHashBucketSize - 1)) with hover | hfits
  · rw [roundUp, if_neg (Nat.not_le.mpr hover)]
    exact ⟨Nat.le_refl u64Max, Or.inr rfl, fun x hx _ => hx⟩
  · rw [roundUp, if_pos hfits, getD_some]
    simp only [roundDown, extentHashBucketSize] at *
    refine ⟨?_, Or.inl ?_, ?_⟩
    all_goals omega

def Range.partitions (range : Range) : List Range :=
  Fxfs.partitions (roundUp_spec range.stop).1
    (roundDown range.start extentHashBucketSize)

def ExtentKey.fuzzyHashPartition (key : ExtentKey) : List Range := key.range.partitions

def Allocator.AllocatorKey.fuzzyHash (hash : AllocatorKey → ℕ) (key : AllocatorKey) : List ℕ :=
  key.deviceRange.partitions.map fun range => hash ⟨range⟩

def ObjectKey.fuzzyHash (hash : ObjectKey → ℕ) (key : ObjectKey) : List ℕ :=
  match key.data with
  | .attribute attributeId (.extent extent) =>
    extent.fuzzyHashPartition.map fun range => hash (.extent key.objectId attributeId range)
  | _ => [hash key]

/-- The bucket of an offset; the last one ends at the largest number and not behind it. -/
def bucket (x : ℕ) : Range :=
  ⟨roundDown x extentHashBucketSize,
    saturatingAdd (roundDown x extentHashBucketSize) extentHashBucketSize⟩

/-- The range touches a bucket: it is not empty at a bucket's start, and not inverted. -/
def Range.HasBucket (range : Range) : Prop :=
  roundDown range.start extentHashBucketSize <
    (roundUp range.stop extentHashBucketSize).getD u64Max

theorem Range.HasBucket.ne_nil {range : Range} (h : range.HasBucket) : range.partitions ≠ [] := by
  rw [Range.partitions, Fxfs.partitions, if_neg (Nat.not_le.mpr h)]
  exact cons_ne_nil _ _

def ObjectKey.HasBucket (key : ObjectKey) : Prop :=
  ∀ objectId attributeId range, key = .extent objectId attributeId range → range.HasBucket

theorem ObjectKey.HasBucket.ne_nil {key : ObjectKey} (h : key.HasBucket) (hash : ObjectKey → ℕ) :
    key.fuzzyHash hash ≠ [] := by
  obtain ⟨objectId, data⟩ := key
  unfold ObjectKey.fuzzyHash
  split
  · next attributeId extent hdata =>
    cases hdata
    exact mt map_eq_nil_iff.mp (h objectId attributeId extent.range rfl).ne_nil
  · exact cons_ne_nil _ _

end Buckets

end Smos.Fxfs
