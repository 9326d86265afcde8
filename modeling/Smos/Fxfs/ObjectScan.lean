import Smos.Fxfs.ObjectMerge

/-!
The full scan of the object store's layers.  Its result is stated in the terms of the records: the
location of every offset of an attribute, the value of every other key, and the total usage of
every project.
-/
namespace Smos.Fxfs.ObjectStore

open Lib Lib.Spans Fxfs.Lsm ObjectKey FirstWins
open List hiding range

variable {D : Type}

/-- A layer of the object store: well-formed items in the order of their upper bounds, the extents
of an attribute disjoint. -/
structure IsObjectLayer (b : ℕ) (rules : ItemRules) (items : List (ObjectItem D)) : Prop where
  ok : ∀ x ∈ items, ItemOk b rules x
  sorted : items.Pairwise fun x y => x.key.cmpUpperBound y.key = .lt
  disjoint : items.Pairwise fun x y => ∀ objectId attributeId r s,
    x.key = .extent objectId attributeId r → y.key = .extent objectId attributeId s →
      r.stop ≤ s.start ∨ s.stop ≤ r.start

def itemExtentAt (b objectId attributeId x : ℕ) (item : ObjectItem D) : Option ExtentPoint :=
  match item.key.data, item.value with
  | .attribute j (.extent e), .extent v =>
    if item.key.objectId = objectId ∧ j = attributeId ∧ e.range.start ≤ x ∧ x < e.range.stop then
      some (v.pointAt b e.range.start x)
    else none
  | _, _ => none

def extentAt (b : ℕ) (items : List (ObjectItem D)) (objectId attributeId x : ℕ) :
    Option ExtentPoint :=
  items.findSome? (itemExtentAt b objectId attributeId x)

def valuesOf (items : List (ObjectItem D)) (key : ObjectKey) : List (ObjectValue D) :=
  (items.filter fun item => item.key = key).map (·.value)

def usageOf : ObjectValue D → Usage
  | .bytesAndNodes bytes nodes => ⟨bytes, nodes⟩
  | _ => 0

def totalUsage (layers : List (Layer ObjectKey (ObjectValue D))) (key : ObjectKey) : Usage :=
  (layers.map fun layer => ((valuesOf layer.items key).map usageOf).sum).sum

variable {b oid i : ℕ} {rules : ItemRules} {item : ObjectItem D} {items : List (ObjectItem D)}

def isExtentOf (objectId attributeId : ℕ) (item : ObjectItem D) : Bool :=
  match item.key.data with
  | .attribute j (.extent _) => item.key.objectId = objectId ∧ j = attributeId
  | _ => false

theorem isExtentOf_iff : isExtentOf oid i item = true ↔
    item.key.objectId = oid ∧ ∃ e, item.key.data = .attribute i (.extent e) := by
  unfold isExtentOf
  split
  · next j e hdata => simp [hdata]
  · next hdata =>
    simp only [Bool.false_eq_true, false_iff, not_and, not_exists]
    exact fun _ e he => hdata i e he

theorem isExtentOf_of_key {range : Range} (h : item.key = .extent oid i range) :
    isExtentOf oid i item = true := by
  rw [isExtentOf_iff, h]
  exact ⟨rfl, _, rfl⟩

theorem isExtentOf_of_stream_eq {x y : ObjectItem D} (h : x.key.stream = y.key.stream)
    (hx : isExtentOf oid i x = true) : isExtentOf oid i y = true := by
  obtain ⟨rfl, e, hdata⟩ := isExtentOf_iff.mp hx
  obtain ⟨j, f, hdata', hoid, rfl⟩ := extent_of_stream_eq h hdata
  exact isExtentOf_iff.mpr ⟨hoid.symm, f, hdata'⟩

theorem ItemOk.of_ne_zero (h : ItemOk b .noTombstones item)
    (hne : rules.nonzero item.key → item.value ≠ .bytesAndNodes 0 0) : ItemOk b rules item := by
  unfold ItemOk at h ⊢
  split
  · next hdata => simpa only [hdata] using h
  · next hdata =>
    simp only [hdata] at h
    obtain ⟨bytes, nodes, hvalue, -⟩ := h
    refine ⟨bytes, nodes, hvalue, fun hkey hzero => hne hkey ?_⟩
    rw [hvalue, hzero.1, hzero.2]
  · next hdata =>
    simp only [hdata] at h
    exact fun hvalue => (h hvalue).elim
  · trivial

/-- Sorted and disjoint in the sense of the keys is sorted in the sense of the spans. -/
theorem IsObjectLayer.isLayer (h : IsObjectLayer b rules items) :
    IsLayer (span D b rules) items := by
  refine ⟨h.ok, ?_⟩
  refine (h.sorted.and h.disjoint).imp_of_mem ?_
  rintro x y hx hy ⟨hlt, hdisjoint⟩
  have hlt : x.key.hi < y.key.hi := (cmpUpperBound_compares _ _).eq_lt.mp hlt
  change x.key.hi ≤ y.key.lo
  by_cases hstream : x.key.stream = y.key.stream
  · by_cases hext : ∃ i e, x.key.data = .attribute i (.extent e)
    · obtain ⟨i, e, hdx⟩ := hext
      obtain ⟨j, f, hdy, hoid, rfl⟩ := extent_of_stream_eq hstream hdx
      have hkx := extent_of_data hdx
      have hky := extent_of_data hdy
      rw [← hoid] at hky
      rw [hkx, hky, extent_hi, extent_hi, extentPos_lt] at hlt
      rw [hkx, hky, extent_hi, extent_lo, extentPos_le]
      have hne : e.range.start < e.range.stop := by
        simpa [range, hdx] using (h.ok x hx).range_lt
      rcases hdisjoint _ _ _ _ hkx hky with h | h
      · exact h
      · omega
    · have hkey := eq_of_stream_eq hstream fun i e h => hext ⟨i, e, h⟩
      rw [hkey] at hlt
      exact absurd hlt (lt_irrefl _)
  · simp only [hi, lo, Prod.Lex.toLex_lt_toLex, Prod.Lex.toLex_le_toLex,
      hstream, false_and, or_false] at hlt ⊢
    exact hlt

theorem isObjectLayer_of_isLayer (h : IsLayer (span D b rules) items) :
    IsObjectLayer b rules items ∧ items.Pairwise fun x y => x.key.cmpLowerBound y.key = .lt := by
  have hlt : items.Pairwise fun x y => x.key.lo < y.key.lo ∧ x.key.hi < y.key.hi := by
    refine h.sorted.imp_of_mem ?_
    intro x y hx hy hle
    have hxlt := (span D b rules).lo_lt_hi x (h.ok x hx)
    have hylt := (span D b rules).lo_lt_hi y (h.ok y hy)
    exact ⟨lt_of_lt_of_le hxlt hle, lt_of_le_of_lt hle hylt⟩
  refine ⟨⟨h.ok, ?_, ?_⟩, ?_⟩
  · exact hlt.imp fun h => (cmpUpperBound_compares _ _).eq_lt.mpr h.2
  · refine h.sorted.imp ?_
    intro x y hle objectId attributeId r s hx hy
    change x.key.hi ≤ y.key.lo at hle
    rw [hx, hy, extent_hi, extent_lo, extentPos_le] at hle
    exact .inl hle
  · exact hlt.imp fun h => (cmpLowerBound_compares _ _).eq_lt.mpr h.1

/-- The meaning of an item at an offset of an attribute. -/
theorem toOption_den_extentPos (h : ItemOk b rules item) (oid i x : ℕ) :
    ((span D b rules).den item (extentPos oid i x)).toOption =
      (itemExtentAt b oid i x item).map PointValue.extent := by
  by_cases hcovers : Covers item (extentPos oid i x)
  · have hden : (span D b rules).den item (extentPos oid i x) = meaningAt b item x :=
      if_pos hcovers
    obtain ⟨hstream, hlo, hhi⟩ := hcovers
    obtain ⟨j, e, hdata, rfl, rfl⟩ :=
      extent_of_stream_eq (j := .extent oid i ⟨0, 0⟩) hstream.symm rfl
    simp only [ItemOk, hdata] at h
    obtain ⟨v, hvalue, -⟩ := h
    have hx : e.range.start ≤ x ∧ x < e.range.stop := by
      simpa [range, hdata] using And.intro hlo hhi
    rw [hden]
    simp only [meaningAt, itemExtentAt, hdata, hvalue, hx, and_self, if_true]
    rfl
  · have hden : (span D b rules).den item (extentPos oid i x) = 1 := if_neg hcovers
    have hnone : itemExtentAt b oid i x item = none := by
      unfold itemExtentAt
      split
      · next j e v hdata hvalue =>
        rw [if_neg]
        rintro ⟨rfl, rfl, hx⟩
        refine hcovers ⟨?_, ?_⟩
        · rw [extent_of_data hdata]
          rfl
        · simpa [range, hdata] using hx
      · rfl
    rw [hden, hnone]
    rfl

theorem extentAt_eq_listDen (hok : ∀ x ∈ items, ItemOk b rules x) (oid i x : ℕ) :
    (extentAt b items oid i x).map PointValue.extent =
      (listDen (span D b rules) items (extentPos oid i x)).toOption := by
  rw [listDen, toOption_prod_map, extentAt]
  induction items with
  | nil => rfl
  | cons y l ih =>
    have hl := ih fun z hz => hok z (mem_cons_of_mem y hz)
    rw [findSome?_cons, findSome?_cons, ← hl,
      toOption_den_extentPos (hok y mem_cons_self)]
    cases itemExtentAt b oid i x y <;> rfl

section Keys

variable {key : ObjectKey}

/-- Only the items of the key itself cover the position of a key that is not an extent. -/
theorem covers_lo_iff (hext : ∀ i e, key.data ≠ .attribute i (.extent e)) :
    Covers item key.lo ↔ item.key = key := by
  constructor
  · intro h
    exact (eq_of_stream_eq h.1.symm hext).symm
  · intro h
    subst h
    refine ⟨rfl, le_rfl, ?_⟩
    change item.key.range.start < item.key.range.stop
    rw [range_of_not_extent hext]
    exact Nat.zero_lt_one

theorem valuesOf_cons (item : ObjectItem D) (items : List (ObjectItem D)) :
    valuesOf (item :: items) key =
      if item.key = key then item.value :: valuesOf items key else valuesOf items key := by
  unfold valuesOf
  by_cases h : item.key = key
  · simp [h]
  · simp [h]

theorem mem_valuesOf {v : ObjectValue D} :
    v ∈ valuesOf items key ↔ ∃ item ∈ items, item.key = key ∧ item.value = v := by
  simp [valuesOf, and_assoc]

/-- The meaning of a list of items at a key that is neither an extent nor a usage. -/
theorem toOption_listDen_lo (hext : ∀ i e, key.data ≠ .attribute i (.extent e))
    (husage : ∀ i, key.data ≠ .project i .usage) (items : List (ObjectItem D)) :
    (listDen (span D b rules) items key.lo).toOption =
      (valuesOf items key).head?.map PointValue.record := by
  induction items with
  | nil => rfl
  | cons item l ih =>
    rw [listDen_cons, toOption_mul, ih, valuesOf_cons]
    by_cases hkey : item.key = key
    · have hden : (span D b rules).den item key.lo = .of (.record item.value) := by
        subst hkey
        exact (if_pos ((covers_lo_iff hext).mpr rfl)).trans (meaningAt_record hext husage _)
      rw [hden, if_pos hkey]
      rfl
    · have hden : (span D b rules).den item key.lo = 1 :=
        if_neg fun h => hkey ((covers_lo_iff hext).mp h)
      rw [hden, if_neg hkey, toOption_one, Option.none_or]

/-- The meaning of a list of items at a usage key is the sum of what they record. -/
theorem listDen_usage {oid i : ℕ} (hkey : key = ⟨oid, .project i .usage⟩)
    (hok : ∀ x ∈ items, ItemOk b rules x) :
    listDen (span D b rules) items key.lo =
      .amount ((valuesOf items key).map usageOf).sum := by
  have hext : ∀ i e, key.data ≠ .attribute i (.extent e) := by simp [hkey]
  induction items with
  | nil => rfl
  | cons item l ih =>
    rw [listDen_cons, ih fun x hx => hok x (mem_cons_of_mem item hx), valuesOf_cons]
    by_cases h : item.key = key
    · have hitem := hok item mem_cons_self
      simp only [ItemOk, h, hkey] at hitem
      obtain ⟨bytes, nodes, hvalue, -⟩ := hitem
      have hden : (span D b rules).den item key.lo = .amount (usageOf item.value) := by
        refine (if_pos ((covers_lo_iff hext).mpr h)).trans ?_
        simp only [meaningAt, h, hkey, hvalue, usageOf]
      rw [hden, if_pos h, amount_mul_amount, map_cons, sum_cons]
    · have hden : (span D b rules).den item key.lo = 1 :=
        if_neg fun hc => h ((covers_lo_iff hext).mp hc)
      rw [hden, if_neg h, one_mul]

theorem valuesOf_length_le (h : IsLayer (span D b rules) items) (key : ObjectKey) :
    (valuesOf items key).length ≤ 1 := by
  have hnodup : (items.map (·.key)).Nodup := by
    rw [nodup_iff_pairwise_ne, pairwise_map]
    refine h.sorted.imp_of_mem ?_
    intro x y hx hy hle heq
    have hlt : x.key.lo < x.key.hi := (span D b rules).lo_lt_hi x (h.ok x hx)
    have hle : x.key.hi ≤ y.key.lo := hle
    rw [← heq] at hle
    exact absurd (hlt.trans_le hle) (lt_irrefl _)
  have hcount := nodup_iff_count_le_one.mp hnodup key
  rw [count, countP_map] at hcount
  rw [valuesOf, length_map, ← countP_eq_length_filter]
  refine le_trans (le_of_eq ?_) hcount
  congr 1

end Keys

section Scan

variable {layers : List (Layer ObjectKey (ObjectValue D))} {out : List (ObjectItem D)}
  {key : ObjectKey} (hlayers : ∀ layer ∈ layers, IsLayer (span D b rules) layer.items)
  (hout : IsLayer (span D b rules) out)
  (hden : ∀ p, listDen (span D b rules) out p = layersDen (span D b rules) layers p)

include hlayers in
/-- The meaning of a layer set at an offset of an attribute. -/
theorem toOption_layersDen_extentPos (oid i x : ℕ) :
    (layersDen (span D b rules) layers (extentPos oid i x)).toOption =
      (layers.findSome? fun layer => extentAt b layer.items oid i x).map PointValue.extent := by
  rw [layersDen, toOption_prod_map, map_findSome?]
  induction layers with
  | nil => rfl
  | cons layer l ih =>
    rw [findSome?_cons, findSome?_cons, Function.comp_apply,
      extentAt_eq_listDen (hlayers layer mem_cons_self).ok,
      ih fun y hy => hlayers y (mem_cons_of_mem layer hy)]

include hlayers hout hden in
/-- Offsets of attributes are read from the newest layer with an extent there. -/
theorem extentAt_scan (oid i x : ℕ) :
    extentAt b out oid i x = layers.findSome? fun layer => extentAt b layer.items oid i x := by
  apply Option.map_injective (fun _ _ h => PointValue.extent.inj h)
  rw [extentAt_eq_listDen hout.ok, hden, toOption_layersDen_extentPos hlayers]

include hout hden in
/-- Other keys have the one value of the newest layer that holds them. -/
theorem valuesOf_scan (hext : ∀ i e, key.data ≠ .attribute i (.extent e))
    (husage : ∀ i, key.data ≠ .project i .usage) :
    valuesOf out key =
      (layers.findSome? fun layer => (valuesOf layer.items key).head?).toList := by
  have hhead : (valuesOf out key).head? =
      layers.findSome? fun layer => (valuesOf layer.items key).head? := by
    apply Option.map_injective (fun _ _ h => PointValue.record.inj h)
    rw [← toOption_listDen_lo hext husage, hden, layersDen, toOption_prod_map,
      map_findSome?]
    simp only [toOption_listDen_lo hext husage]
    rfl
  rw [← hhead]
  have hlen := valuesOf_length_le hout key
  cases hvalues : valuesOf out key with
  | nil => rfl
  | cons v l =>
    rw [hvalues, length_cons] at hlen
    rw [eq_nil_of_length_eq_zero (by omega : l.length = 0)]
    rfl

include hlayers hout hden

/-- The usage records of all layers are added up. -/
theorem sum_usage_scan {oid i : ℕ} (hkey : key = ⟨oid, .project i .usage⟩) :
    ((valuesOf out key).map usageOf).sum = totalUsage layers key := by
  have hlayersDen : layersDen (span D b rules) layers key.lo =
      .amount (totalUsage layers key) := by
    clear hden hout
    induction layers with
    | nil => rfl
    | cons layer l ih =>
      have hl := ih fun y hy => hlayers y (mem_cons_of_mem layer hy)
      unfold layersDen totalUsage at hl ⊢
      rw [map_cons, prod_cons, hl,
        listDen_usage hkey (hlayers layer mem_cons_self).ok, amount_mul_amount,
        map_cons, sum_cons]
  have h := hden key.lo
  rw [hlayersDen, listDen_usage hkey hout.ok] at h
  exact amount.inj h

/-- A usage record that is emitted carries the total, which is zero if none is emitted. -/
theorem valuesOf_usage_scan {oid i : ℕ} (hkey : key = ⟨oid, .project i .usage⟩) :
    (valuesOf out key = [] ∧ totalUsage layers key = 0) ∨
      (valuesOf out key =
          [.bytesAndNodes (totalUsage layers key).bytes (totalUsage layers key).nodes] ∧
        (rules.nonzero key → totalUsage layers key ≠ 0)) := by
  have hsum := sum_usage_scan hlayers hout hden hkey
  have hlen := valuesOf_length_le hout key
  cases hvalues : valuesOf out key with
  | nil =>
    rw [hvalues] at hsum
    exact .inl ⟨rfl, hsum.symm⟩
  | cons v l =>
    rw [hvalues, length_cons] at hlen
    obtain rfl := eq_nil_of_length_eq_zero (by omega : l.length = 0)
    obtain ⟨item, hmem, hitem, rfl⟩ : ∃ item ∈ out, item.key = key ∧ item.value = v :=
      mem_valuesOf.mp (hvalues ▸ mem_singleton_self v)
    have hok : ItemOk b rules item := hout.ok item hmem
    simp only [ItemOk, hitem, hkey] at hok
    obtain ⟨bytes, nodes, hvalue, hne⟩ := hok
    have htotal : totalUsage layers key = ⟨bytes, nodes⟩ := by
      rw [← hsum, hvalues, hvalue]
      simp [usageOf]
    refine .inr ⟨by rw [hvalue, htotal], ?_⟩
    intro hnonzero hzero
    rw [htotal] at hzero
    exact hne (hkey ▸ hnonzero) ⟨congrArg Usage.bytes hzero, congrArg Usage.nodes hzero⟩

end Scan

theorem isObjectLayer_singleton (h : ItemOk b rules item) :
    IsObjectLayer b rules [item] :=
  ⟨by simpa using h, pairwise_singleton _ _, pairwise_singleton _ _⟩

/-- A full scan of at most 65536 object-store layers returns sorted, disjoint and well-formed
items.  An offset of an attribute is what the newest extent over it says, and any other key has the
newest value, except that the usage records of a project are added up.  A usage of zero is dropped
unless a layer holds one itself. -/
theorem fullScan_newest_wins (layers : List (Layer ObjectKey (ObjectValue D)))
    (hlen : layers.length ≤ 65536) (b : ℕ)
    (hlayers : ∀ layer ∈ layers, IsObjectLayer b .noTombstones layer.items) (fuel : ℕ)
    (hfuel : layersWeight (span D b .noTombstones) layers < fuel) :
    ∃ out, fullScan merge fuel layers = some out ∧ IsObjectLayer b .noTombstones out ∧
      (out.Pairwise fun x y => x.key.cmpLowerBound y.key = .lt) ∧
      (∀ objectId attributeId x, extentAt b out objectId attributeId x =
        layers.findSome? fun layer => extentAt b layer.items objectId attributeId x) ∧
      (∀ key : ObjectKey, (∀ i e, key.data ≠ .attribute i (.extent e)) →
        (∀ i, key.data ≠ .project i .usage) → valuesOf out key =
          (layers.findSome? fun layer => (valuesOf layer.items key).head?).toList) ∧
      ∀ objectId projectId, ∀ key : ObjectKey, key = ⟨objectId, .project projectId .usage⟩ →
        ((valuesOf out key = [] ∧ totalUsage layers key = 0) ∨ valuesOf out key =
          [.bytesAndNodes (totalUsage layers key).bytes (totalUsage layers key).nodes]) ∧
        ((∀ layer ∈ layers, .bytesAndNodes 0 0 ∉ valuesOf layer.items key) →
          (valuesOf out key = [] ↔ totalUsage layers key = 0)) := by
  have hl : ∀ layer ∈ layers, IsLayer (span D b .noTombstones) layer.items :=
    fun layer h => (hlayers layer h).isLayer
  obtain ⟨out, hscan, hout, hden⟩ := fullScan_spec (mergeLaws D b id) hlen hl hfuel
  obtain ⟨hobject, hstarts⟩ := isObjectLayer_of_isLayer hout
  refine ⟨out, hscan, hobject, hstarts, extentAt_scan hl hout hden,
    fun key hext husage => valuesOf_scan hout hden hext husage, ?_⟩
  intro oid i key hkey
  refine ⟨(valuesOf_usage_scan hl hout hden hkey).imp id And.left, ?_⟩
  intro hzero
  -- The same scan, seen with the requirement that the usage records of this key are not zero.
  let rules : ItemRules := ⟨fun k => k = key, False⟩
  have hl' : ∀ layer ∈ layers, IsLayer (span D b rules) layer.items := by
    intro layer hlayer
    have h := hlayers layer hlayer
    have hok : ∀ x ∈ layer.items, ItemOk b rules x := by
      intro x hx
      refine (h.ok x hx).of_ne_zero fun hxkey hvalue => ?_
      exact hzero layer hlayer (mem_valuesOf.mpr ⟨x, hx, hxkey, hvalue⟩)
    exact IsObjectLayer.isLayer ⟨hok, h.sorted, h.disjoint⟩
  obtain ⟨out', hscan', hout', hden'⟩ :=
    fullScan_spec (mergeLaws D b id) hlen hl' hfuel
  obtain rfl : out' = out := Option.some.inj (hscan'.symm.trans hscan)
  rcases valuesOf_usage_scan hl' hout' hden' hkey with h | h
  · simp [h]
  · simp [h.1, h.2 rfl]

/-- A deletion over the first block of a file, and the usage of its project. -/
theorem fullScan_deletion_over_file :
    let deletion : Layer ObjectKey (ObjectValue Unit) :=
      ⟨[⟨.extent 1 0 ⟨0, 4⟩, .extent .none, 0⟩], fun _ => true⟩
    let file : Layer ObjectKey (ObjectValue Unit) :=
      ⟨[⟨.extent 1 0 ⟨0, 8⟩, .extent (.some 16 (.cow [7, 9]) 0), 0⟩], fun _ => true⟩
    let usage : Layer ObjectKey (ObjectValue Unit) :=
      ⟨[⟨⟨2, .project 3 .usage⟩, .bytesAndNodes 8 1, 0⟩], fun _ => true⟩
    ∃ out, fullScan merge 100 [deletion, file, usage] = some out ∧
      IsObjectLayer 4 .noTombstones out ∧ extentAt 4 out 1 0 0 = some .deleted ∧
      extentAt 4 out 1 0 5 = some (.mapped 21 (.cow (some 9)) 0) ∧
      valuesOf out ⟨2, .project 3 .usage⟩ = [.bytesAndNodes 8 1] := by
  intro deletion file usage
  obtain ⟨out, hscan, hlayer, -, hextents, -, husage⟩ :=
    fullScan_newest_wins [deletion, file, usage] (by decide) 4
      (by
        intro layer hlayer
        simp only [mem_cons, not_mem_nil, or_false] at hlayer
        rcases hlayer with rfl | rfl | rfl
        · exact isObjectLayer_singleton ⟨.none, rfl, by decide, by decide, by decide, by decide,
            by simp⟩
        · refine isObjectLayer_singleton ⟨_, rfl, by decide, by decide, by decide, by decide, ?_⟩
          intro offset mode keyId h
          cases h
          exact .inr rfl
        · exact isObjectLayer_singleton ⟨_, _, rfl, False.elim⟩)
      100 (by decide)
  refine ⟨out, hscan, hlayer, (hextents 1 0 0).trans rfl, (hextents 1 0 5).trans rfl, ?_⟩
  rcases (husage 2 3 _ rfl).1 with h | h
  · exact absurd h.2 (by decide)
  · exact h

/-- A layer's own usage of zero is not dropped; and with 65537 layers the index of the last one
wraps around, and its extent hides the deletion of a newer layer. -/
theorem fullScan_keeps_zero_and_wraps :
    (∃ layers : List (Layer ObjectKey (ObjectValue Unit)), layers.length = 1 ∧
      (∀ layer ∈ layers, IsObjectLayer 4 .noTombstones layer.items) ∧
      totalUsage layers ⟨2, .project 3 .usage⟩ = 0 ∧
      ∃ out, fullScan merge 100 layers = some out ∧
        valuesOf out ⟨2, .project 3 .usage⟩ = [.bytesAndNodes 0 0]) ∧
    ∃ layers : List (Layer ObjectKey (ObjectValue Unit)), layers.length = 65537 ∧
      (∀ layer ∈ layers, IsObjectLayer 4 .noTombstones layer.items) ∧
      (layers.findSome? fun layer => extentAt 4 layer.items 1 0 0) = some .deleted ∧
      ∃ out, fullScan merge 100 layers = some out ∧
        extentAt 4 out 1 0 0 = some (.mapped 16 .raw 0) := by
  let zero : ObjectItem Unit := ⟨⟨2, .project 3 .usage⟩, .bytesAndNodes 0 0, 0⟩
  let newer : ObjectItem Unit := ⟨.extent 1 0 ⟨0, 4⟩, .extent .none, 0⟩
  let older : ObjectItem Unit := ⟨.extent 1 0 ⟨0, 4⟩, .extent (.some 16 .raw 0), 0⟩
  have hnewer : ItemOk 4 .noTombstones newer :=
    ⟨.none, rfl, by decide, by decide, by decide, by decide, by simp⟩
  have holder : ItemOk 4 .noTombstones older := by
    refine ⟨_, rfl, by decide, by decide, by decide, by decide, ?_⟩
    intro offset mode keyId h
    cases h
    trivial
  refine ⟨⟨[{ items := [zero] }], rfl, ?_, rfl, [zero], rfl, rfl⟩,
    wrappedLayers 65534 [newer] [older], ?_, ?_, rfl, [older], ?_, rfl⟩
  · intro layer hlayer
    obtain rfl := mem_singleton.mp hlayer
    exact isObjectLayer_singleton ⟨_, _, rfl, False.elim⟩
  · simp only [wrappedLayers, length_cons, length_append, length_replicate,
      length_nil]
  · intro layer hlayer
    simp only [wrappedLayers, mem_cons, mem_append, mem_replicate,
      not_mem_nil, or_false] at hlayer
    have hnil : IsObjectLayer 4 .noTombstones ([] : List (ObjectItem Unit)) := ⟨by simp, .nil, .nil⟩
    rcases hlayer with rfl | rfl | ⟨-, rfl⟩ | rfl
    · exact hnil
    · exact isObjectLayer_singleton hnewer
    · exact hnil
    · exact isObjectLayer_singleton holder
  · have hquery := mergerQuery_wrappedLayers (merge (D := Unit)) 100 (m := 65534) rfl newer older
      [] []
    simp only [fullScan, hquery]
    rfl

end Smos.Fxfs.ObjectStore
