import Smos.Fxfs.LsmScan
import Smos.Fxfs.ObjectRecord
import Smos.Lib.FirstWins
import Smos.Lib.Overlay

/-!
The merge function of the object store (`object_store/merge.rs`) and the meaning it preserves.

At each position of a stream an item says one thing: an extent gives the location of an offset or
deletes it, any other record gives its value, and a project's usage record is an amount that adds up
over the layers.
-/
namespace Smos.Fxfs.ObjectStore

open Lib Lib.Spans Fxfs.Lsm ObjectKey

variable {D : Type} {p : List ℕ ×ₗ ℕ}

abbrev ObjectItem (D : Type) := Item ObjectKey (ObjectValue D)

def mergeDeletedExtents (objectId attributeId : ℕ) (leftKey rightKey : ExtentKey)
    (sequence : ℕ) : MergeResult (ObjectItem D) :=
  if leftKey.range.stop < rightKey.range.start then .emitLeft
  else if leftKey.range.stop ≥ rightKey.range.stop then .other none .keep .discard
  else .other none .discard (.replace
    ⟨.extent objectId attributeId ⟨leftKey.range.start, rightKey.range.stop⟩,
      .extent .deletedExtent, sequence⟩)

def mergeExtents (objectId attributeId : ℕ) (left right : LayerItem ObjectKey (ObjectValue D))
    (leftKey rightKey : ExtentKey) (leftValue rightValue : ExtentValue) :
    MergeResult (ObjectItem D) :=
  let l := leftKey.range
  let r := rightKey.range
  let sequence := min left.sequence right.sequence
  if leftValue = .none ∧ rightValue = .none ∧
      (left.layerIndex + 1 = right.layerIndex ∨ right.layerIndex + 1 = left.layerIndex) then
    mergeDeletedExtents objectId attributeId leftKey rightKey sequence
  else if l.stop ≤ r.start then .emitLeft
  else if right.layerIndex < left.layerIndex then
    .other
      (some ⟨.extent objectId attributeId ⟨l.start, r.start⟩,
        .extent (leftValue.shrunk (l.stop - l.start) (r.start - l.start)), sequence⟩)
      (.replace ⟨.extent objectId attributeId ⟨r.start, l.stop⟩,
        .extent (leftValue.offsetBy (r.start - l.start) (l.stop - l.start)), sequence⟩)
      .keep
  else if l.stop ≥ r.stop then .other none .keep .discard
  else
    .other none .keep (.replace ⟨.extent objectId attributeId ⟨l.stop, r.stop⟩,
      .extent (rightValue.offsetBy (l.stop - r.start) (r.stop - r.start)), sequence⟩)

def merge (left right : LayerItem ObjectKey (ObjectValue D)) : MergeResult (ObjectItem D) :=
  if left.key.objectId ≠ right.key.objectId then .emitLeft
  else
    match left.key.data, right.key.data, left.value, right.value with
    | .attribute i (.extent l), .attribute j (.extent r), .extent v, .extent w =>
      if i = j then mergeExtents left.key.objectId i left right l r v w else .emitLeft
    | .project i .usage, .project j .usage, .bytesAndNodes leftBytes leftNodes,
        .bytesAndNodes rightBytes rightNodes =>
      if i = j then
        let bytes := leftBytes + rightBytes
        let nodes := leftNodes + rightNodes
        if bytes = 0 ∧ nodes = 0 then .other none .discard .discard
        else .other none .discard
          (.replace ⟨right.key, .bytesAndNodes bytes nodes, right.sequence⟩)
      else .emitLeft
    | .object, _, .none, _ =>
      if left.layerIndex > right.layerIndex then .emitLeft else .other none .keep .discard
    | _, _, _, _ =>
      if left.key = right.key then .other none .keep .discard else .emitLeft

def isTombstone (item : ObjectItem D) : Bool :=
  match item.key.data, item.value with
  | .object, .none => true
  | _, _ => false

/-- The merge function with the tombstones of objects treated as records like any other. -/
def mergeRecords (left right : LayerItem ObjectKey (ObjectValue D)) : MergeResult (ObjectItem D) :=
  if isTombstone left.toItem then
    if left.key = right.key then .other none .keep .discard else .emitLeft
  else merge left right

@[ext]
structure Usage where
  bytes : Int64
  nodes : Int64
  deriving DecidableEq

namespace Usage

instance : Add Usage where
  add u w := ⟨u.bytes + w.bytes, u.nodes + w.nodes⟩

instance : Zero Usage where
  zero := ⟨0, 0⟩

@[simp] theorem add_bytes (u w : Usage) : (u + w).bytes = u.bytes + w.bytes := rfl

@[simp] theorem add_nodes (u w : Usage) : (u + w).nodes = u.nodes + w.nodes := rfl

@[simp] theorem zero_bytes : (0 : Usage).bytes = 0 := rfl

@[simp] theorem zero_nodes : (0 : Usage).nodes = 0 := rfl

instance : AddCommMonoid Usage where
  add_assoc u v w := by ext <;> simp [Int64.add_assoc]
  zero_add u := by ext <;> simp
  add_zero u := by ext <;> simp
  add_comm u w := by ext <;> simp [Int64.add_comm]
  nsmul := nsmulRec

end Usage

inductive PointValue (D : Type) where
  | extent (point : ExtentPoint)
  | record (value : ObjectValue D)
  deriving DecidableEq

abbrev Meaning (D : Type) := FirstWins (PointValue D) Usage

def meaningAt (blockSize : ℕ) (item : ObjectItem D) (x : ℕ) : Meaning D :=
  match item.key.data, item.value with
  | .attribute _ (.extent e), .extent v => .of (.extent (v.pointAt blockSize e.range.start x))
  | .project _ .usage, .bytesAndNodes bytes nodes => .amount ⟨bytes, nodes⟩
  | _, v => .of (.record v)

def Covers (item : ObjectItem D) (p : List ℕ ×ₗ ℕ) : Prop :=
  item.key.stream = (ofLex p).1 ∧ item.key.range.start ≤ (ofLex p).2 ∧
    (ofLex p).2 < item.key.range.stop

instance (item : ObjectItem D) (p : List ℕ ×ₗ ℕ) : Decidable (Covers item p) :=
  inferInstanceAs (Decidable (_ ∧ _ ∧ _))

structure ItemRules where
  /-- The keys whose usage records must not be zero. -/
  nonzero : ObjectKey → Prop
  /-- Whether objects may be tombstones. -/
  tombstones : Prop

namespace ItemRules

abbrev noTombstones : ItemRules := ⟨fun _ => False, False⟩

abbrev any : ItemRules := ⟨fun _ => False, True⟩

end ItemRules

/-- A well-formed item: an extent key has an extent value, with everything block aligned, and a
usage key has an amount. -/
def ItemOk (blockSize : ℕ) (rules : ItemRules) (item : ObjectItem D) : Prop :=
  match item.key.data with
  | .attribute _ (.extent e) => ∃ v, item.value = .extent v ∧ ExtentOk blockSize e.range v
  | .project _ .usage => ∃ bytes nodes, item.value = .bytesAndNodes bytes nodes ∧
      (rules.nonzero item.key → ¬ (bytes = 0 ∧ nodes = 0))
  | .object => item.value = .none → rules.tombstones
  | _ => True

variable {item : ObjectItem D}

theorem not_covers_of_lt_lo (h : p < item.key.lo) : ¬ Covers item p := by
  rintro ⟨hstream, hlo, -⟩
  rw [← toLex_ofLex p, lo, Prod.Lex.toLex_lt_toLex] at h
  rcases h with h | ⟨-, h⟩
  · exact absurd hstream.symm h.ne
  · exact absurd hlo (not_le.mpr h)

theorem not_covers_of_hi_le (h : item.key.hi ≤ p) : ¬ Covers item p := by
  rintro ⟨hstream, -, hhi⟩
  rw [← toLex_ofLex p, hi, Prod.Lex.toLex_le_toLex] at h
  rcases h with h | ⟨-, h⟩
  · exact absurd hstream h.ne
  · exact absurd hhi (not_lt.mpr h)

/-- What lies between the ends of a key is covered by it. -/
theorem covers_of_le_of_lt (hlo : item.key.lo ≤ p) (hhi : p < item.key.hi) : Covers item p := by
  rw [← toLex_ofLex p] at hlo hhi
  simp only [lo, hi, Prod.Lex.toLex_le_toLex, Prod.Lex.toLex_lt_toLex]
    at hlo hhi
  rcases hlo with hlo | ⟨hs, hlo⟩
  · rcases hhi with hhi | ⟨hs, -⟩
    · exact absurd (hlo.trans hhi) (lt_irrefl _)
    · exact absurd hs hlo.ne'
  · rcases hhi with hhi | ⟨-, hhi⟩
    · exact absurd hs hhi.ne'
    · exact ⟨hs, hlo, hhi⟩

theorem ItemOk.range_lt {b : ℕ} {rules : ItemRules} (h : ItemOk b rules item) :
    item.key.range.start < item.key.range.stop := by
  unfold ItemOk at h
  unfold ObjectKey.range
  split at h
  · next hdata =>
    obtain ⟨v, -, hok⟩ := h
    simpa [hdata] using hok.nonempty
  · next hdata => simp [hdata]
  · next hdata => simp [hdata]
  · next hext _ _ =>
    split
    · next i e hdata => exact absurd hdata (hext i e)
    · exact Nat.zero_lt_one

def span (D : Type) (b : ℕ) (rules : ItemRules) :
    Span (ObjectItem D) (List ℕ ×ₗ ℕ) (Meaning D) where
  lo item := item.key.lo
  hi item := item.key.hi
  den item p := if Covers item p then meaningAt b item (ofLex p).2 else 1
  weight item := item.key.range.stop - item.key.range.start + 1
  Ok := ItemOk b rules
  lo_lt_hi item h := Prod.Lex.toLex_lt_toLex.mpr (.inr ⟨rfl, h.range_lt⟩)
  den_before item p h := if_neg (not_covers_of_lt_lo h)
  den_after item p h := if_neg (not_covers_of_hi_le h)
  weight_pos _ := by omega

section Laws

variable {b i objectId x y : ℕ} {rules : ItemRules}
  {left right : LayerItem ObjectKey (ObjectValue D)} {l r : ExtentKey} {u : Usage}
  {v w : ExtentValue}

/-- An item of another stream that starts no later ends before. -/
theorem hi_le_lo_of_stream_ne {j k : ObjectKey} (hle : j.lo ≤ k.lo) (hne : j.stream ≠ k.stream) :
    j.hi ≤ k.lo := by
  simp only [lo, hi, Prod.Lex.toLex_le_toLex] at hle ⊢
  rcases hle with h | ⟨h, -⟩
  · exact .inl h
  · exact absurd h hne

/-- The four situations in which the merge function finds two well-formed items. -/
inductive MergeCase (b : ℕ) (left right : LayerItem ObjectKey (ObjectValue D)) : Prop where
  /-- The items belong to different streams. -/
  | apart (hne : left.key.stream ≠ right.key.stream) (hmerge : mergeRecords left right = .emitLeft)
  /-- Two extents of one attribute. -/
  | extents (objectId attributeId : ℕ) (l r : ExtentKey) (v w : ExtentValue)
      (hl : left.key = .extent objectId attributeId l.range)
      (hr : right.key = .extent objectId attributeId r.range)
      (hv : left.value = .extent v) (hw : right.value = .extent w)
      (hokl : ExtentOk b l.range v) (hokr : ExtentOk b r.range w)
      (hmerge : mergeRecords left right = mergeExtents objectId attributeId left right l r v w)
  /-- Two usage records of one project. -/
  | usage (objectId projectId : ℕ) (u w : Usage)
      (hl : left.key = ⟨objectId, .project projectId .usage⟩)
      (hr : right.key = ⟨objectId, .project projectId .usage⟩)
      (hu : left.value = .bytesAndNodes u.bytes u.nodes)
      (hw : right.value = .bytesAndNodes w.bytes w.nodes)
      (hmerge : mergeRecords left right = if (u + w).bytes = 0 ∧ (u + w).nodes = 0 then
        .other none .discard .discard
      else .other none .discard
        (.replace ⟨right.key, .bytesAndNodes (u + w).bytes (u + w).nodes, right.sequence⟩))
  /-- Two records of one key of any other kind. -/
  | same (hkey : left.key = right.key) (hext : ∀ i e, left.key.data ≠ .attribute i (.extent e))
      (husage : ∀ i, left.key.data ≠ .project i .usage)
      (hmerge : mergeRecords left right = .other none .keep .discard)

theorem mergeRecords_of_stream_ne (hne : left.key.stream ≠ right.key.stream) :
    mergeRecords left right = .emitLeft := by
  have hkey : left.key ≠ right.key := fun h => hne (congrArg stream h)
  unfold mergeRecords
  by_cases hlive : isTombstone left.toItem = true
  · rw [if_pos hlive, if_neg hkey]
  rw [if_neg hlive]
  unfold merge
  by_cases hoid : left.key.objectId = right.key.objectId
  · rw [if_neg (not_not.mpr hoid)]
    split
    · next i l j r v w hdl hdr _ _ =>
      rw [if_neg]
      intro hij
      apply hne
      simp [stream, hdl, hdr, hoid, hij, ObjectKeyData.index, ObjectKeyData.stream,
        AttributeKey.index]
    · next i j _ _ _ _ hdl hdr _ _ =>
      rw [if_neg]
      intro hij
      apply hne
      simp [stream, hdl, hdr, hoid, hij, ObjectKeyData.index, ObjectKeyData.stream]
    · next hdl hvl => exact absurd (by simp [isTombstone, hdl, hvl]) hlive
    · rw [if_neg hkey]
  · rw [if_pos hoid]

private theorem mergeRecords_of_extents
    (hl : left.key = .extent objectId i l.range) (hr : right.key = .extent objectId i r.range)
    (hv : left.value = .extent v) (hw : right.value = .extent w) :
    mergeRecords left right = mergeExtents objectId i left right l r v w := by
  have hlive : isTombstone left.toItem = false := by simp [isTombstone, hl, extent]
  unfold mergeRecords merge
  simp only [hlive, hl, Bool.false_eq_true, hr, hv, hw, extent, ne_eq, not_true_eq_false, if_false,
    if_true]

private theorem mergeRecords_of_usage {w : Usage}
    (hl : left.key = ⟨objectId, .project i .usage⟩)
    (hr : right.key = ⟨objectId, .project i .usage⟩)
    (hu : left.value = .bytesAndNodes u.bytes u.nodes)
    (hw : right.value = .bytesAndNodes w.bytes w.nodes) :
    mergeRecords left right = if (u + w).bytes = 0 ∧ (u + w).nodes = 0 then
        .other none .discard .discard
      else .other none .discard
        (.replace ⟨right.key, .bytesAndNodes (u + w).bytes (u + w).nodes, right.sequence⟩) := by
  have hlive : isTombstone left.toItem = false := by simp [isTombstone, hl]
  unfold mergeRecords merge
  simp only [hlive, hl, Bool.false_eq_true, hr, hu, hw, ne_eq, not_true_eq_false, if_false, if_true]
  rfl

private theorem mergeRecords_of_same (hkey : left.key = right.key)
    (hext : ∀ i e, left.key.data ≠ .attribute i (.extent e))
    (husage : ∀ i, left.key.data ≠ .project i .usage) :
    mergeRecords left right = .other none .keep .discard := by
  unfold mergeRecords
  by_cases hlive : isTombstone left.toItem = true
  · rw [if_pos hlive, if_pos hkey]
  rw [if_neg hlive]
  unfold merge
  rw [if_neg (not_not.mpr (congrArg objectId hkey))]
  split
  · next i l j r v w hdl _ _ _ => exact absurd hdl (hext i l)
  · next i j _ _ _ _ hdl _ _ _ => exact absurd hdl (husage i)
  · next hdl hvl => exact absurd (by simp [isTombstone, hdl, hvl]) hlive
  · rw [if_pos hkey]

theorem extent_of_data {key : ObjectKey} {e : ExtentKey}
    (h : key.data = .attribute i (.extent e)) : key = .extent key.objectId i e.range := by
  obtain ⟨oid, data⟩ := key
  cases h
  rfl

/-- Two well-formed items are found in one of the four situations. -/
theorem mergeCase (hl : ItemOk b rules left.toItem) (hr : ItemOk b rules right.toItem) :
    MergeCase b left right := by
  by_cases hstream : left.key.stream = right.key.stream
  · by_cases hext : ∃ i e, left.key.data = .attribute i (.extent e)
    · obtain ⟨i, l, hdl⟩ := hext
      obtain ⟨j, r, hdr, hoid, rfl⟩ : ∃ j r, right.key.data = .attribute j (.extent r) ∧
          left.key.objectId = right.key.objectId ∧ i = j :=
        extent_of_stream_eq hstream hdl
      simp only [ItemOk, hdl, hdr] at hl hr
      obtain ⟨v, hv, hokl⟩ := hl
      obtain ⟨w, hw, hokr⟩ := hr
      have hkl := extent_of_data hdl
      have hkr := extent_of_data hdr
      rw [← hoid] at hkr
      exact .extents _ i l r v w hkl hkr hv hw hokl hokr (mergeRecords_of_extents hkl hkr hv hw)
    · have hext : ∀ i e, left.key.data ≠ .attribute i (.extent e) := by
        intro i e h
        exact hext ⟨i, e, h⟩
      have hkey := eq_of_stream_eq hstream hext
      by_cases husage : ∃ i, left.key.data = .project i .usage
      · obtain ⟨i, hdl⟩ := husage
        have hdr : right.key.data = .project i .usage := hkey ▸ hdl
        simp only [ItemOk, hdl, hdr] at hl hr
        obtain ⟨lb, ln, hu, -⟩ := hl
        obtain ⟨rb, rn, hw, -⟩ := hr
        have hkl : left.key = ⟨left.key.objectId, .project i .usage⟩ := by rw [← hdl]
        have hkr := hkey.symm.trans hkl
        exact .usage _ i ⟨lb, ln⟩ ⟨rb, rn⟩ hkl hkr hu hw (mergeRecords_of_usage hkl hkr hu hw)
      · have husage : ∀ i, left.key.data ≠ .project i .usage := by
          intro i h
          exact husage ⟨i, h⟩
        exact .same hkey hext husage (mergeRecords_of_same hkey hext husage)
  · exact .apart hstream (mergeRecords_of_stream_ne hstream)

def extentPos (objectId attributeId x : ℕ) : List ℕ ×ₗ ℕ :=
  toLex ((ObjectKey.extent objectId attributeId ⟨0, 0⟩).stream, x)

variable {oid : ℕ}

@[simp] theorem extentPos_le : extentPos oid i x ≤ extentPos oid i y ↔ x ≤ y := by
  simp [extentPos, Prod.Lex.toLex_le_toLex]

@[simp] theorem extentPos_lt : extentPos oid i x < extentPos oid i y ↔ x < y := by
  simp [extentPos, Prod.Lex.toLex_lt_toLex]

@[simp] theorem ofLex_extentPos (x : ℕ) :
    ofLex (extentPos oid i x) = ((extent oid i ⟨0, 0⟩).stream, x) := rfl

theorem extent_lo (range : Range) : (extent oid i range).lo = extentPos oid i range.start :=
  rfl

theorem extent_hi (range : Range) : (extent oid i range).hi = extentPos oid i range.stop :=
  rfl

/-- A position between two of a stream is in the stream. -/
theorem eq_extentPos (oid i : ℕ) (hlo : extentPos oid i x ≤ p)
    (hhi : p < extentPos oid i y) : ∃ z, p = extentPos oid i z ∧ x ≤ z ∧ z < y := by
  have h : Covers (⟨.extent oid i ⟨x, y⟩, .none, 0⟩ : ObjectItem Unit) p :=
    covers_of_le_of_lt hlo hhi
  exact ⟨(ofLex p).2, congrArg (fun s => toLex (s, (ofLex p).2)) h.1.symm, h.2⟩

abbrev extentItem (D : Type) (oid i : ℕ) (range : Range) (v : ExtentValue) (seq : ℕ) :
    ObjectItem D :=
  ⟨.extent oid i range, .extent v, seq⟩

theorem den_extentItem (range : Range) (v : ExtentValue) {seq : ℕ} (hlo : range.start ≤ x)
    (hhi : x < range.stop) :
    (span D b rules).den (extentItem D oid i range v seq) (extentPos oid i x) =
      .of (.extent (v.pointAt b range.start x)) := by
  change (if Covers _ _ then _ else _) = _
  rw [if_pos ⟨rfl, hlo, hhi⟩]
  rfl

variable {range : Range} {seq : ℕ} {emit : Option (ObjectItem D)} {lop rop : ItemOp (ObjectItem D)}

theorem extentItem_absorbs : Absorbs (span D b rules) (extentItem D oid i range v seq) := by
  intro p hlo hhi m
  obtain ⟨x, rfl, hx, hx'⟩ := eq_extentPos oid i hlo hhi
  rw [den_extentItem range v hx hx', FirstWins.of_mul]

theorem deleted_hasValue :
    HasValue (span D b rules) (extentItem D oid i range .none seq)
      (.of (.extent .deleted)) := by
  intro p hlo hhi
  obtain ⟨x, rfl, hx, hx'⟩ := eq_extentPos oid i hlo hhi
  rw [den_extentItem range _ hx hx']
  rfl

theorem extentItem_ok (rules : ItemRules) (h : ExtentOk b range v) :
    ItemOk b rules (extentItem D oid i range v seq) := ⟨v, rfl, h⟩

/-- A part of an extent that says what the extent says about its offsets. -/
theorem extentItem_restricts {part : Range} {w : ExtentValue} {seq' : ℕ} (hok : ExtentOk b part w)
    (hlo : range.start ≤ part.start) (hhi : part.stop ≤ range.stop)
    (hpoint : ∀ x, part.start ≤ x → x < part.stop →
      w.pointAt b part.start x = v.pointAt b range.start x) :
    Restricts (span D b rules) (extentItem D oid i part w seq') (extentItem D oid i range v seq)
      (extentPos oid i part.start) (extentPos oid i part.stop) := by
  refine ⟨extentItem_ok rules hok, rfl, rfl, ?_⟩
  intro p hlop hhip
  obtain ⟨x, rfl, hx, hx'⟩ := eq_extentPos oid i hlop hhip
  rw [den_extentItem part w hx hx', den_extentItem range v (hlo.trans hx) (hx'.trans_le hhi),
    hpoint x hx hx']

theorem mergeDeletedExtents_sound {a c ls rs seq : ℕ}
    (hl : ExtentOk b l.range .none) (hr : ExtentOk b r.range .none)
    (hle : l.range.start ≤ r.range.start) (hadj : a + 1 = c ∨ c + 1 = a)
    (hres : mergeDeletedExtents oid i l r seq = .other emit lop rop) :
    MergeSound (span D b rules) a (extentItem D oid i l.range .none ls) c
      (extentItem D oid i r.range .none rs) emit
      (lop.apply (extentItem D oid i l.range .none ls))
      (rop.apply (extentItem D oid i r.range .none rs)) := by
  have hmul : ∀ m : Meaning D, .of (.extent .deleted) * m = .of (.extent .deleted) :=
    FirstWins.of_mul _
  unfold mergeDeletedExtents at hres
  split_ifs at hres with hgap hcontains
  · cases hres
    exact .absorb_right hmul hadj (extentItem_ok rules hl)
      (extentPos_le.mpr (Nat.le_of_not_lt hgap)) (extentPos_le.mpr hcontains)
      (extentPos_le.mpr hle) deleted_hasValue deleted_hasValue
  · cases hres
    have hok : ExtentOk b ⟨l.range.start, r.range.stop⟩ .none :=
      ⟨hl.block_pos, hle.trans_lt hr.nonempty, hl.start_dvd, hr.stop_dvd, by simp⟩
    refine .join_right hmul (.inr hadj) (extentPos_le.mpr (Nat.le_of_not_lt hgap))
      (extentPos_le.mpr (Nat.le_of_not_le hcontains)) (extentPos_le.mpr hle) deleted_hasValue
      deleted_hasValue (extentItem_ok rules hok) rfl rfl deleted_hasValue ?_
    change r.range.stop - l.range.start + 1 <
      (l.range.stop - l.range.start + 1) + (r.range.stop - r.range.start + 1)
    omega

theorem mergeExtents_sound {a c ls rs : ℕ}
    (hl : ExtentOk b l.range v) (hr : ExtentOk b r.range w)
    (hle : l.range.start ≤ r.range.start) (htie : l.range.start = r.range.start → a < c)
    (hne : a ≠ c) (hres : mergeExtents oid i ⟨extentItem D oid i l.range v ls, a⟩
      ⟨extentItem D oid i r.range w rs, c⟩ l r v w = .other emit lop rop) :
    MergeSound (span D b rules) a (extentItem D oid i l.range v ls) c
      (extentItem D oid i r.range w rs) emit
      (lop.apply (extentItem D oid i l.range v ls))
      (rop.apply (extentItem D oid i r.range w rs)) := by
  simp only [mergeExtents] at hres
  split_ifs at hres with hdeleted hapart hnewer hcontains
  · obtain ⟨rfl, rfl, hadj⟩ := hdeleted
    exact mergeDeletedExtents_sound hl hr hle hadj hres
  · -- The right item is newer: the part of the left one before it is final.
    cases hres
    have hlt : l.range.start < r.range.start := by omega
    have hapart' := Nat.lt_of_not_le hapart
    refine .split_left (extentItem_ok rules hr) (extentPos_lt.mpr hapart') (extentPos_le.mpr hle)
      (extentItem_restricts (hl.shrunk hr.start_dvd hlt hapart'.le) le_rfl hapart'.le fun _ =>
        hl.pointAt_shrunk hr.start_dvd)
      (extentItem_restricts (hl.offsetBy hr.start_dvd hle hapart') hle le_rfl fun _ hx _ =>
        hl.pointAt_offsetBy hr.start_dvd hle hx) ?_
    change l.range.stop - r.range.start + 1 < l.range.stop - l.range.start + 1
    omega
  · cases hres
    exact .discard_right (by omega) (extentItem_ok rules hl) (extentPos_le.mpr hle)
      (extentPos_lt.mpr (Nat.lt_of_not_le hapart)) (extentPos_le.mpr hcontains) extentItem_absorbs
  · cases hres
    have hapart' := Nat.lt_of_not_le hapart
    refine .trim_right (by omega) (extentItem_ok rules hl) (extentPos_le.mpr hle)
      (extentPos_lt.mpr hapart') extentItem_absorbs
      (extentItem_restricts (hr.offsetBy hl.stop_dvd hapart'.le (by omega)) hapart'.le le_rfl
        fun _ hx _ => hr.pointAt_offsetBy hl.stop_dvd hapart'.le hx) ?_
    change r.range.stop - l.range.stop + 1 < r.range.stop - r.range.start + 1
    omega

private theorem precedes_lo_le (h : Precedes lo left right) : left.key.lo ≤ right.key.lo := by
  rcases h with h | h
  · exact h.le
  · exact h.1.le

/-- An item that is left alone ends before the next one starts. -/
theorem mergeRecords_emitLeft (hl : ItemOk b rules left.toItem) (hr : ItemOk b rules right.toItem)
    (hle : left.key.lo ≤ right.key.lo) (hres : mergeRecords left right = .emitLeft) :
    left.key.hi ≤ right.key.lo := by
  cases mergeCase hl hr with
  | apart hne hmerge => exact hi_le_lo_of_stream_ne hle hne
  | extents objectId i l r v w hkl hkr hv hw hokl hokr hmerge =>
    rw [hkl, hkr, extent_hi, extent_lo, extentPos_le]
    rw [hmerge, mergeExtents, mergeDeletedExtents] at hres
    split_ifs at hres
    all_goals omega
  | usage objectId i u w hkl hkr hu hw hmerge =>
    rw [hmerge] at hres
    split_ifs at hres
  | same hkey hext husage hmerge =>
    rw [hmerge] at hres
    cases hres

section

variable (hext : ∀ i e, item.key.data ≠ .attribute i (.extent e))
  (husage : ∀ i, item.key.data ≠ .project i .usage)
include hext husage

theorem meaningAt_record (x : ℕ) :
    meaningAt b item x = .of (.record item.value) := by
  unfold meaningAt
  split
  · next i e _ hdata _ => exact absurd hdata (hext i e)
  · next i _ _ hdata _ => exact absurd hdata (husage i)
  · rfl

/-- A record that is neither an extent nor a usage hides older ones. -/
theorem record_absorbs : Absorbs (span D b rules) item := by
  intro p hlo hhi m
  have hden : (span D b rules).den item p = .of (.record item.value) :=
    (if_pos (covers_of_le_of_lt hlo hhi)).trans (meaningAt_record hext husage _)
  rw [hden, FirstWins.of_mul]

end

private theorem around_amount (a c : ℕ) (u w : Usage) (mid : Meaning D) :
    around a c 1 mid (.amount (u + w)) = around a c (.amount u) mid (.amount w) := by
  cases mid with
  | of d => simp [around]
  | amount x =>
    simp only [around, one_mul, mul_one, FirstWins.amount_mul_amount]
    congr 2
    · exact add_left_comm x u w |>.trans (add_assoc u x w).symm
    · rw [add_comm u w, add_right_comm]

private theorem den_usage (item : ObjectItem D)
    (hkey : item.key = ⟨objectId, .project i .usage⟩)
    (hvalue : item.value = .bytesAndNodes u.bytes u.nodes) (p : List ℕ ×ₗ ℕ) :
    (span D b rules).den item p = if Covers item p then .amount u else 1 := by
  simp [span, meaningAt, hkey, hvalue]

/-- Two usage records are added up in place of the right one, or both dropped. -/
theorem merge_sound_usage {w : Usage}
    (hl : left.key = ⟨objectId, .project i .usage⟩)
    (hr : right.key = ⟨objectId, .project i .usage⟩)
    (hu : left.value = .bytesAndNodes u.bytes u.nodes)
    (hw : right.value = .bytesAndNodes w.bytes w.nodes) {r : Option (ObjectItem D)}
    (hnone : r = none → u + w = 0)
    (hsome : ∀ x ∈ r, u + w ≠ 0 ∧
      x = ⟨right.key, .bytesAndNodes (u + w).bytes (u + w).nodes, right.sequence⟩) :
    MergeSound (span D b rules) left.layerIndex left.toItem right.layerIndex right.toItem none
      none r := by
  have hkey : left.key = right.key := hl.trans hr.symm
  have hrange : right.key.range = ⟨0, 1⟩ := by rw [hr]; rfl
  refine .combine_right (congrArg lo hkey) ?_ ?_ ?_ ?_
  · change right.key.lo ≤ left.key.hi
    rw [hkey, lo, hi, hrange]
    exact Prod.Lex.toLex_le_toLex.mpr (.inr ⟨rfl, Nat.zero_le 1⟩)
  · intro x hx
    obtain ⟨hne, rfl⟩ := hsome x hx
    refine ⟨?_, rfl, rfl⟩
    simp only [hr]
    exact ⟨_, _, rfl, fun _ h => hne (Usage.ext h.1 h.2)⟩
  · intro p _ mid
    have hopt : optDen (span D b rules) r p =
        if Covers right.toItem p then .amount (u + w) else 1 := by
      cases r with
      | none => simp [hnone rfl, FirstWins.one_def]
      | some x =>
        obtain ⟨-, rfl⟩ := hsome x rfl
        rw [optDen_some]
        exact den_usage ⟨right.key, .bytesAndNodes (u + w).bytes (u + w).nodes, _⟩ hr rfl p
    have hcovers : Covers left.toItem p ↔ Covers right.toItem p := by
      unfold Covers
      rw [hkey]
    rw [hopt, den_usage left.toItem hl hu, den_usage right.toItem hr hw]
    by_cases h : Covers right.toItem p
    · simp only [hcovers, if_pos h, around_amount]
    · simp only [hcovers, if_neg h]
  · cases r with
    | none => exact Nat.zero_le _
    | some x =>
      obtain ⟨-, rfl⟩ := hsome x rfl
      simp [span]

/-- Every answer other than to emit the left item is a sound merge step. -/
private theorem mergeRecords_other_sound (left right : LayerItem ObjectKey (ObjectValue D))
    (emit : Option (ObjectItem D)) (lop rop : ItemOp (ObjectItem D))
    (hl : ItemOk b rules left.toItem) (hr : ItemOk b rules right.toItem)
    (hprec : Precedes lo left right) (hne : left.layerIndex ≠ right.layerIndex)
    (hres : mergeRecords left right = .other emit lop rop) :
    MergeSound (span D b rules) left.layerIndex left.toItem right.layerIndex right.toItem emit
      (lop.apply left.toItem) (rop.apply right.toItem) := by
  have hle := precedes_lo_le hprec
  cases mergeCase hl hr with
  | apart hne hmerge =>
    rw [hmerge] at hres
    cases hres
  | extents objectId i l r v w hkl hkr hv hw hokl hokr hmerge =>
    rw [hmerge] at hres
    obtain ⟨⟨lk, lv, ls⟩, a⟩ := left
    obtain ⟨⟨rk, rv, rs⟩, c⟩ := right
    subst hkl hkr hv hw
    refine mergeExtents_sound hokl hokr (extentPos_le.mp hle) ?_ hne hres
    intro hstart
    rcases hprec with h | h
    · exact absurd hstart (extentPos_lt.mp h).ne
    · exact h.2
  | usage objectId i u w hkl hkr hu hw hmerge =>
    rw [hmerge] at hres
    split_ifs at hres with hzero <;> cases hres
    · exact merge_sound_usage hkl hkr hu hw (fun _ => Usage.ext hzero.1 hzero.2)
        (by simp [ItemOp.apply])
    · refine merge_sound_usage hkl hkr hu hw (by simp [ItemOp.apply]) ?_
      rintro x ⟨⟩
      exact ⟨fun h => hzero ⟨congrArg Usage.bytes h, congrArg Usage.nodes h⟩, rfl⟩
  | same hkey hext husage hmerge =>
    rw [hmerge] at hres
    cases hres
    have hlt := (span D b rules).lo_lt_hi left.toItem hl
    rcases hprec with h | h
    · exact absurd (congrArg lo hkey) h.ne
    · refine .discard_right h.2 hl hle ?_ ?_ (record_absorbs hext husage)
      · change right.key.lo < left.key.hi
        exact hkey ▸ hlt
      · change right.key.hi ≤ left.key.hi
        rw [hkey]

/-- The answers about records are sound for any two items that the heap presents. -/
theorem mergeRecordsLaws (D : Type) (b : ℕ) (rules : ItemRules) :
    MergeLaws (span D b rules) lo mergeRecords where
  cmp_eq j k := by
    rw [← cmp_eq_compare]
    exact (cmpLowerBound_compares j k).cmp_eq.symm
  lo_le _ _ h := h
  emitLeft left right hl hr hprec _ hres := mergeRecords_emitLeft hl hr (precedes_lo_le hprec) hres
  other := mergeRecords_other_sound

theorem isTombstone_eq_false (hrules : ¬ rules.tombstones) (h : ItemOk b rules item) :
    isTombstone item = false := by
  unfold isTombstone
  split
  · next hdata hvalue =>
    simp only [ItemOk, hdata] at h
    exact absurd (h hvalue) hrules
  · rfl

theorem mergeRecords_eq_merge {left : LayerItem ObjectKey (ObjectValue D)}
    (hrules : ¬ rules.tombstones) (h : ItemOk b rules left.toItem)
    (right : LayerItem ObjectKey (ObjectValue D)) : mergeRecords left right = merge left right := by
  simp [mergeRecords, isTombstone_eq_false hrules h]

/-- Without tombstones the merge function's answers are sound. -/
theorem mergeLaws (D : Type) (b : ℕ) {rules : ItemRules} (hrules : ¬ rules.tombstones) :
    MergeLaws (span D b rules) lo merge := by
  have laws := mergeRecordsLaws D b rules
  refine ⟨laws.cmp_eq, laws.lo_le, ?_, ?_⟩
  · intro left right hl hr hprec hne hres
    have heq := mergeRecords_eq_merge hrules hl right
    exact laws.emitLeft left right hl hr hprec hne (heq.trans hres)
  · intro left right emit l r hl hr hprec hne hres
    have heq := mergeRecords_eq_merge hrules hl right
    exact laws.other left right emit l r hl hr hprec hne (heq.trans hres)

end Laws

end Smos.Fxfs.ObjectStore
