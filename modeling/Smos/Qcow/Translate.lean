import Smos.Qcow.TranslationTable
import Mathlib.Data.List.Forall2

/-!
The mappings that a loaded translation table yields for a range of the disk.

The only check on the tables' sizes is the one that `load` makes on the header: the L1 table has an
entry for each part of the disk that one L2 table addresses.  Unless the disk size wraps in it,
every index of a lookup is in bounds, and the mappings tile the range and agree with the tables at
every byte.
-/
namespace Smos.Qcow

open Lib.Bytes Lib.Result TranslationTable List Nat

variable {file : List UInt8} {overflow : Overflow} {table : TranslationTable}
  {clusterBits x start stop : ℕ}

@[simp] theorem clusterSize_eq : clusterSize clusterBits = 2 ^ clusterBits := one_shiftLeft _

@[simp] theorem l2Size_eq : l2Size clusterBits = 2 ^ l2Bits clusterBits := one_shiftLeft _

theorem clusterSize_pos : 0 < clusterSize clusterBits := by
  rw [clusterSize_eq]
  exact Nat.two_pow_pos _

theorem l2Size_pos : 0 < l2Size clusterBits := by
  rw [l2Size_eq]
  exact Nat.two_pow_pos _

theorem and_clusterMask : x &&& clusterMask clusterBits = x % clusterSize clusterBits := by
  rw [clusterMask, clusterSize_eq, and_two_pow_sub_one_eq_mod]

theorem and_l2Mask : x &&& l2Mask clusterBits = x % l2Size clusterBits := by
  rw [l2Mask, l2Size_eq, and_two_pow_sub_one_eq_mod]

theorem shiftRight_clusterBits : x >>> clusterBits = x / clusterSize clusterBits := by
  rw [shiftRight_eq_div_pow, clusterSize_eq]

theorem shiftRight_l2Bits : x >>> l2Bits clusterBits = x / l2Size clusterBits := by
  rw [shiftRight_eq_div_pow, l2Size_eq]

theorem l1EntrySize_pos : 0 < l1EntrySize clusterBits := Nat.mul_pos clusterSize_pos l2Size_pos

/-- The required number of L1 entries addresses the entire disk, unless the sum wraps. -/
theorem requiredL1Size_covers {diskSize required : ℕ}
    (h : requiredL1Size overflow diskSize clusterBits = some required)
    (hsize : overflow = .wraps → diskSize + l1EntrySize clusterBits < 2 ^ 64) :
    diskSize ≤ required * l1EntrySize clusterBits ∧ required < 2 ^ 32 := by
  have hpos := @l1EntrySize_pos clusterBits
  have hfits : diskSize + l1EntrySize clusterBits < 2 ^ 64 := by
    cases overflow with
    | wraps => exact hsize rfl
    | panics =>
      refine Nat.lt_of_not_le fun hle => ?_
      rw [requiredL1Size, if_pos ⟨rfl, hle⟩] at h
      cases h
  rw [requiredL1Size, if_neg (fun hle => absurd hfits (Nat.not_lt.mpr hle.2)),
    mod_eq_of_lt (by omega)] at h
  dsimp only at h
  split at h
  case isFalse => cases h
  case isTrue hlt =>
    cases h
    refine ⟨?_, hlt⟩
    have hdiv := div_add_mod (diskSize + l1EntrySize clusterBits - 1) (l1EntrySize clusterBits)
    have hmod := mod_lt (diskSize + l1EntrySize clusterBits - 1) hpos
    rw [Nat.mul_comm] at hdiv
    omega

section Load

structure Loaded (table : TranslationTable) : Prop where
  clusterBits_ge : 9 ≤ table.clusterBits
  clusterBits_le : table.clusterBits ≤ 22
  covered : table.linearSize ≤ table.l1.length * l1EntrySize table.clusterBits
  indexed : table.linearSize ≤ 2 ^ 32 * l1EntrySize table.clusterBits
  tables : ∀ l2, some l2 ∈ table.l1 → l2.length = l2Size table.clusterBits

theorem length_loadTranslationTable {Entry : Type} {make : ℕ → Entry} {n offset : ℕ}
    {entries : List Entry} (h : loadTranslationTable make file n offset = .ok entries) :
    entries.length = n := by
  obtain ⟨bytes, -, hentries⟩ := bind_eq_ok.mp h
  cases pure_eq_ok.mp hentries
  rw [length_map, length_range]

theorem length_loadL2 {entry : L1Entry} {l2 : List L2Entry}
    (h : loadL2 file clusterBits entry = .ok (some l2)) : l2.length = l2Size clusterBits := by
  unfold loadL2 at h
  split at h
  · cases h
  · obtain ⟨entries, hentries, hcheck⟩ := bind_eq_ok.mp h
    split at hcheck
    · cases hcheck
    · cases pure_eq_ok.mp hcheck
      exact length_loadTranslationTable hentries

/-- The tables that are loaded for a header. -/
theorem loadTables_spec {header : Header} (h : loadTables file header = .ok table) :
    table.clusterBits = header.clusterBits ∧ table.linearSize = header.size ∧
    table.l1.length = header.l1Size ∧
    ∀ l2, some l2 ∈ table.l1 → l2.length = l2Size header.clusterBits := by
  obtain ⟨entries, hentries, h⟩ := bind_eq_ok.mp h
  obtain ⟨l1, hl1, h⟩ := bind_eq_ok.mp h
  cases pure_eq_ok.mp h
  refine ⟨rfl, rfl, ?_, ?_⟩
  · rw [← (forall₂_of_mapM_eq_ok hl1).length_eq]
    exact length_loadTranslationTable hentries
  · intro l2 hl2
    obtain ⟨entry, -, hentry⟩ := exists_of_mapM_eq_ok hl1 hl2
    exact length_loadL2 hentry

theorem load_loaded (h : load overflow file = some (.ok table))
    (hwrap : overflow = .wraps → table.linearSize + l1EntrySize table.clusterBits < 2 ^ 64) :
    Loaded table := by
  unfold load at h
  split at h
  case h_1 => cases h
  case h_2 header _ =>
    split at h
    case h_1 => cases h
    case h_2 hcheck =>
      dsimp only at h
      split at h
      case h_1 => cases h
      case h_2 required hrequired =>
        split at h
        case isTrue => cases h
        case isFalse hsize =>
          obtain ⟨hbits, hlinear, hlength, htables⟩ := loadTables_spec (Option.some.inj h)
          rw [hbits, hlinear] at hwrap
          obtain ⟨hcovers, hlt⟩ := requiredL1Size_covers hrequired hwrap
          rw [Header.check] at hcheck
          split_ifs at hcheck
          constructor
          · omega
          · omega
          · rw [hbits, hlinear, hlength]
            exact hcovers.trans (Nat.mul_le_mul_right _ (Nat.le_of_not_lt hsize))
          · rw [hbits, hlinear]
            exact hcovers.trans (Nat.mul_le_mul_right _ hlt.le)
          · rwa [hbits]

end Load

def TranslationTable.l1Index (table : TranslationTable) (x : ℕ) : ℕ :=
  x / l1EntrySize table.clusterBits

def TranslationTable.l2Index (table : TranslationTable) (x : ℕ) : ℕ :=
  x / clusterSize table.clusterBits % l2Size table.clusterBits

/-- Where a byte of the disk is stored in the file: at its offset in the cluster that its L2 entry
points to, if both its L1 and its L2 entry are present. -/
def TranslationTable.physical (table : TranslationTable) (x : ℕ) : Option ℕ := do
  let l2Table ← (table.l1[table.l1Index x]?).join
  let entry ← l2Table[table.l2Index x]?
  let cluster ← entry.offset
  return cluster + x % clusterSize table.clusterBits

def Mapping.physical (mapping : Mapping) (k : ℕ) : Option ℕ :=
  match mapping with
  | .mapped physicalOffset _ => some (physicalOffset + k)
  | .unmapped _ => none

def TranslationTable.InBounds (table : TranslationTable) (x : ℕ) : Prop :=
  table.l1Index x < table.l1.length ∧
    ∀ l2Table, table.l1[table.l1Index x]? = some (some l2Table) →
      table.l2Index x < l2Table.length

theorem Loaded.inBounds (h : Loaded table) (hx : x < table.linearSize) : table.InBounds x := by
  constructor
  · exact Nat.div_lt_of_lt_mul (Nat.mul_comm _ _ ▸ hx.trans_le h.covered)
  · intro l2Table hl2
    rw [h.tables l2Table (mem_of_getElem? hl2)]
    exact mod_lt _ l2Size_pos

theorem offset_lt {entry : L2Entry} {cluster : ℕ} (h : entry.offset = some cluster) :
    cluster < 2 ^ 56 := by
  simp only [L2Entry.offset, lutEntryToOffset] at h
  split at h
  · cases h
  · cases h
    exact Nat.lt_of_le_of_lt and_le_right (by decide)

/-- A lookup reads the entries of the address. -/
theorem Loaded.physicalCluster (h : Loaded table) (hx : x < table.linearSize) :
    ∃ cluster, table.physicalCluster (table.l1Index x) (table.l2Index x) = some cluster ∧
      table.physical x = cluster.map (· + x % clusterSize table.clusterBits) ∧
      ∀ c, cluster = some c → c < 2 ^ 56 := by
  obtain ⟨hl1, hl2⟩ := h.inBounds hx
  obtain ⟨entry, hentry⟩ : ∃ entry, table.l1[table.l1Index x]? = some entry :=
    ⟨_, getElem?_eq_getElem hl1⟩
  rw [hentry] at hl2
  cases entry with
  | none =>
    refine ⟨none, ?_, ?_, by simp⟩
    · simp [TranslationTable.physicalCluster, hentry]
    · simp [TranslationTable.physical, hentry]
  | some l2Table =>
    obtain ⟨entry, hindex⟩ : ∃ entry, l2Table[table.l2Index x]? = some entry :=
      ⟨_, getElem?_eq_getElem (hl2 l2Table rfl)⟩
    refine ⟨entry.offset, ?_, ?_, ?_⟩
    · simp [TranslationTable.physicalCluster, hentry, hindex]
    · simp [TranslationTable.physical, hentry, hindex, Option.map_eq_bind]
    · intro c hc
      exact offset_lt hc

theorem div_eq_of_within {n y : ℕ} (hle : x ≤ y) (hlt : y < x - x % n + n) : y / n = x / n := by
  have hdiv := div_add_mod x n
  apply Nat.div_eq_of_lt_le
  · rw [Nat.mul_comm]
    omega
  · rw [succ_mul, Nat.mul_comm]
    omega

/-- Inside one cluster the physical address moves with the linear one. -/
theorem physical_add {k : ℕ}
    (hk : x % clusterSize table.clusterBits + k < clusterSize table.clusterBits) :
    table.physical (x + k) = (table.physical x).map (· + k) := by
  have hdiv : (x + k) / clusterSize table.clusterBits = x / clusterSize table.clusterBits := by
    exact div_eq_of_within (Nat.le_add_right x k) (by omega)
  have hmod : (x + k) % clusterSize table.clusterBits = x % clusterSize table.clusterBits + k := by
    rw [add_mod, mod_eq_of_lt (by omega : k < clusterSize table.clusterBits),
      mod_eq_of_lt hk]
  have hl1 : table.l1Index (x + k) = table.l1Index x := by
    rw [l1Index, l1Index, l1EntrySize, ← Nat.div_div_eq_div_mul, hdiv, Nat.div_div_eq_div_mul]
  have hl2 : table.l2Index (x + k) = table.l2Index x := by
    rw [l2Index, l2Index, hdiv]
  simp only [physical, hl1, hl2, hmod]
  simp [Option.map_bind, Nat.add_assoc]

/-- What one mapping of a range has to satisfy: it is not empty, lies in the range and in one
cluster, and agrees with the tables at each of its bytes. -/
structure Fits (table : TranslationTable) (start stop : ℕ) (mapping : Mapping) : Prop where
  len_pos : 0 < mapping.len
  len_le : start + mapping.len ≤ stop
  in_cluster : (start + mapping.len - 1) / clusterSize table.clusterBits =
    start / clusterSize table.clusterBits
  physical : ∀ k < mapping.len, mapping.physical k = table.physical (start + k)

theorem fits_of_len {mapping : Mapping} (hlt : start < stop)
    (hlen : mapping.len = min (stop - start)
      (clusterSize table.clusterBits - start % clusterSize table.clusterBits))
    (hphys : ∀ k, mapping.physical k = (table.physical start).map (· + k)) :
    Fits table start stop mapping := by
  have hmod := mod_lt start (clusterSize_pos : 0 < clusterSize table.clusterBits)
  constructor
  · omega
  · omega
  · exact div_eq_of_within (by omega) (by omega)
  · intro k hk
    rw [physical_add (by omega), hphys]

theorem Loaded.translateRange (h : Loaded table) (hlt : start < stop)
    (hx : start < table.linearSize) :
    ∃ mapping, table.translateRange start stop = some (some mapping) ∧
      Fits table start stop mapping ∧ mapping.len = min (stop - start)
        (clusterSize table.clusterBits - start % clusterSize table.clusterBits) := by
  obtain ⟨cluster, hcluster, hphys, hbound⟩ := h.physicalCluster hx
  -- the cut of the L1 index to 32 bits loses nothing
  have hindex : start / clusterSize table.clusterBits / l2Size table.clusterBits % 2 ^ 32 =
      table.l1Index start := by
    rw [Nat.div_div_eq_div_mul]
    exact mod_eq_of_lt (Nat.div_lt_of_lt_mul (Nat.mul_comm _ _ ▸ hx.trans_le h.indexed))
  unfold TranslationTable.translateRange
  rw [if_neg (by omega)]
  simp only [and_clusterMask, and_l2Mask, shiftRight_l2Bits]
  rw [shiftRight_clusterBits, hindex]
  rw [l2Index] at hcluster
  rw [hcluster]
  cases cluster with
  | none =>
    refine ⟨_, rfl, fits_of_len hlt rfl ?_, rfl⟩
    intro k
    rw [hphys]
    rfl
  | some c =>
    have hc := hbound c rfl
    have hsize : clusterSize table.clusterBits ≤ 2 ^ 22 := by
      rw [clusterSize_eq]
      exact Nat.pow_le_pow_right (by decide) h.clusterBits_le
    have hmod := mod_lt start (clusterSize_pos : 0 < clusterSize table.clusterBits)
    refine ⟨_, if_pos (by omega), fits_of_len hlt rfl ?_, rfl⟩
    intro k
    rw [hphys]
    rfl

def placed : ℕ → List Mapping → List (ℕ × Mapping)
  | _, [] => []
  | start, mapping :: rest => (start, mapping) :: placed (start + mapping.len) rest

structure Tiles (table : TranslationTable) (start stop : ℕ) (mappings : List Mapping) : Prop where
  total : (mappings.map Mapping.len).sum = stop - start
  fits : ∀ p ∈ placed start mappings, Fits table p.1 stop p.2
  covers : ∀ x, start ≤ x → x < stop →
    ∃ p ∈ placed start mappings, p.1 ≤ x ∧ x < p.1 + p.2.len

theorem tiles_nil (h : stop ≤ start) : Tiles table start stop [] := by
  constructor
  · simp only [map_nil, sum_nil]
    omega
  · intro p hp
    cases hp
  · intro x hge hlt
    omega

theorem Tiles.cons {mapping : Mapping} {rest : List Mapping} (hfits : Fits table start stop mapping)
    (h : Tiles table (start + mapping.len) stop rest) :
    Tiles table start stop (mapping :: rest) := by
  have hlen := hfits.len_le
  constructor
  · rw [map_cons, sum_cons, h.total]
    omega
  · exact forall_mem_cons.mpr ⟨hfits, h.fits⟩
  · intro x hge hlt
    rcases Nat.lt_or_ge x (start + mapping.len) with hin | hout
    · exact ⟨(start, mapping), mem_cons_self, hge, hin⟩
    · obtain ⟨p, hp, hcover⟩ := h.covers x hout hlt
      exact ⟨p, mem_cons_of_mem _ hp, hcover⟩

/-- A mapping goes beyond a disk that ends inside its cluster, and one that ends with the disk ends
with its cluster if the range goes on. -/
theorem dvd_of_len {c size len : ℕ} (hc : 0 < c) (hlen : len = min (stop - start) (c - start % c))
    (hx : start < size) :
    (size < start + len → ¬ c ∣ size) ∧ (size = start + len → size < stop → c ∣ size) := by
  have hmod := mod_lt start hc
  have hle := mod_le start c
  have hdvd : c ∣ start - start % c := dvd_sub_mod start
  constructor
  · intro hlt hsize
    have hpos : 0 < size - (start - start % c) := by omega
    have hge := le_of_dvd hpos (Nat.dvd_sub hsize hdvd)
    omega
  · intro heq hlt
    have hsize : size = start - start % c + c := by omega
    rw [hsize]
    exact Nat.dvd_add hdvd (Nat.dvd_refl c)

/-- The iterator runs to its end.  Its mappings tile a range of the disk; those of any range follow
each other from its start, and end with the range or with the disk unless the disk ends before the
range and inside a cluster. -/
theorem Loaded.mappings (h : Loaded table) {fuel : ℕ} (hfuel : stop - start < fuel) :
    ∃ mappings, (table.translate start stop).mappings fuel = some mappings ∧
      (stop ≤ table.linearSize → Tiles table start stop mappings) ∧
      ((mappings.map Mapping.len).sum = min stop table.linearSize - start ↔
        stop ≤ table.linearSize ∨ table.linearSize ≤ start ∨
          clusterSize table.clusterBits ∣ table.linearSize) := by
  induction fuel generalizing start with
  | zero => omega
  | succ fuel ih =>
    by_cases hin : start < stop ∧ start < table.linearSize
    · obtain ⟨hlt, hx⟩ := hin
      obtain ⟨mapping, hmapping, hfits, hlen⟩ := h.translateRange hlt hx
      have hpos := hfits.len_pos
      have hle := hfits.len_le
      obtain ⟨rest, hrest, htiles, hsum⟩ := @ih (start + mapping.len) (by omega)
      refine ⟨mapping :: rest, ?_, fun hstop => (htiles hstop).cons hfits, ?_⟩
      · have hnext : (table.translate start stop).next =
            some (some mapping, table.translate (start + mapping.len) stop) := by
          simp only [Translation.next, TranslationTable.translate, if_neg (Nat.not_le_of_gt hlt),
            hmapping]
        simp only [Translation.mappings, hnext, hrest, Option.map_some]
      · obtain ⟨hbeyond, hend⟩ := dvd_of_len clusterSize_pos hlen hx
        rw [map_cons, sum_cons]
        by_cases hdvd : clusterSize table.clusterBits ∣ table.linearSize
        · simp only [hdvd, or_true, iff_true] at hsum ⊢
          have hnot : ¬ table.linearSize < start + mapping.len := fun hlt => hbeyond hlt hdvd
          omega
        · have hnot : ¬ (table.linearSize = start + mapping.len ∧ table.linearSize < stop) :=
            fun heq => hdvd (hend heq.1 heq.2)
          simp only [hdvd, or_false] at hsum ⊢
          omega
    · have hnext : (table.translate start stop).next = some (none, table.translate start stop) := by
        by_cases hge : stop ≤ start
        · exact if_pos hge
        · have hnone : table.translateRange start stop = some none := if_pos (by omega)
          simp only [Translation.next, TranslationTable.translate, if_neg hge, hnone]
      refine ⟨[], by simp only [Translation.mappings, hnext], fun hstop => tiles_nil (by omega), ?_⟩
      simp only [map_nil, sum_nil]
      omega

/-- What loading computes from a header does not overflow. -/
def Header.Addressable (header : Header) : Prop :=
  header.size + l1EntrySize header.clusterBits < 2 ^ 64 ∧
    header.size ≤ (2 ^ 32 - 1) * l1EntrySize header.clusterBits

theorem requiredL1Size_eq_none_iff {header : Header} :
    requiredL1Size .panics header.size header.clusterBits = none ↔ ¬ header.Addressable := by
  have hpos := @l1EntrySize_pos header.clusterBits
  rw [requiredL1Size, Header.Addressable]
  by_cases hlt : header.size + l1EntrySize header.clusterBits < 2 ^ 64
  · rw [if_neg (fun hle => absurd hlt (Nat.not_lt.mpr hle.2)), mod_eq_of_lt (by omega),
      ite_eq_right_iff, Nat.div_lt_iff_lt_mul hpos]
    simp only [reduceCtorEq, imp_false]
    omega
  · rw [if_pos ⟨rfl, Nat.not_lt.mp hlt⟩]
    exact iff_of_true rfl fun haddr => hlt haddr.1

/-- Loading overflows or fails a conversion exactly if a header that passes the checks has fields
that are too large, and the mappings of a range cover what is below the size of the disk exactly if
the range is inside the disk or outside it, or the disk is a whole number of clusters. -/
theorem load_translate_robust_iff (file : List UInt8) :
    (load .panics file = none ↔ ∃ header, readHeader file = .ok header ∧ header.check = .ok () ∧
      ¬ header.Addressable) ∧
    ∀ overflow table, load overflow file = some (.ok table) →
      (overflow = .wraps → table.linearSize + l1EntrySize table.clusterBits < 2 ^ 64) →
      ∀ start stop fuel, stop - start < fuel →
      ∃ mappings, (table.translate start stop).mappings fuel = some mappings ∧
        ((mappings.map Mapping.len).sum = min stop table.linearSize - start ↔
          stop ≤ table.linearSize ∨ table.linearSize ≤ start ∨
            clusterSize table.clusterBits ∣ table.linearSize) := by
  refine ⟨?_, ?_⟩
  · unfold load
    cases hread : readHeader file with
    | error e => simp
    | ok header =>
      cases hcheck : header.check with
      | error e => simp [hcheck]
      | ok =>
        have hdefaults :
            requiredL1Size .panics header.withDefaults.size header.withDefaults.clusterBits =
              requiredL1Size .panics header.size header.clusterBits := by
          rw [Header.withDefaults]
          split <;> rfl
        simp only [hdefaults, Except.ok.injEq, exists_eq_left', hcheck, true_and,
          ← requiredL1Size_eq_none_iff]
        cases requiredL1Size .panics header.size header.clusterBits with
        | none => simp
        | some required =>
          dsimp only
          split_ifs <;> simp
  · intro overflow table hload hwrap start stop fuel hfuel
    obtain ⟨mappings, hrun, -, hsum⟩ := (load_loaded hload hwrap).mappings hfuel
    exact ⟨mappings, hrun, hsum⟩

/-- A version 3 header with clusters of 512 bytes, a disk size of `u64::MAX` and no L1 table. -/
def hugeDisk : List UInt8 :=
  [0x51, 0x46, 0x49, 0xfb, 0, 0, 0, 3] ++ replicate 12 0 ++ [0, 0, 0, 9] ++ replicate 8 255 ++
    replicate 68 0

/-- The rounding of the disk size overflows. -/
theorem load_hugeDisk : load .panics hugeDisk = none := by
  decide +kernel

end Smos.Qcow
