import Mathlib.Data.Finset.Max

/-!
Ordered maps read from a key on, and the first and last entries of such a reading.
-/
namespace Smos.Lib.OrderedMap

open Std (TreeMap)

variable {K V : Type*} [LinearOrder K] {m : TreeMap K V} {k k' : K} {v : V}

@[simp] theorem getElem?_insert (m : TreeMap K V) (k a : K) (v : V) :
    (m.insert k v)[a]? = if k = a then some v else m[a]? := by
  simp only [TreeMap.getElem?_insert, compare_eq_iff_eq]

@[simp] theorem getElem?_erase (m : TreeMap K V) (k a : K) :
    (m.erase k)[a]? = if k = a then none else m[a]? := by
  simp only [TreeMap.getElem?_erase, compare_eq_iff_eq]

def rangeFrom (m : TreeMap K V) (k : K) : List (K × V) :=
  m.toList.filter fun e => k ≤ e.1

theorem mem_rangeFrom : (k', v) ∈ rangeFrom m k ↔ m[k']? = some v ∧ k ≤ k' := by
  simp only [rangeFrom, List.mem_filter, TreeMap.mem_toList_iff_getElem?_eq_some,
    decide_eq_true_eq]

theorem rangeFrom_sorted (m : TreeMap K V) (k : K) :
    (rangeFrom m k).Pairwise fun d e => d.1 < e.1 := by
  refine List.Pairwise.filter _ ?_
  simpa only [compare_lt_iff_lt] using TreeMap.ordered_keys_toList (t := m)

/-- The first entry from a key on is the one with the least key. -/
theorem le_of_head?_rangeFrom (h : (rangeFrom m k).head? = some (k', v)) :
    m[k']? = some v ∧ k ≤ k' ∧ ∀ {a w}, m[a]? = some w → k ≤ a → k' ≤ a := by
  obtain ⟨l, hl⟩ := List.head?_eq_some_iff.mp h
  have hmem : (k', v) ∈ rangeFrom m k := hl ▸ List.mem_cons_self
  obtain ⟨hget, hle⟩ := mem_rangeFrom.mp hmem
  refine ⟨hget, hle, fun {a w} ha hka => ?_⟩
  have hsorted := rangeFrom_sorted m k
  have ha : (a, w) ∈ rangeFrom m k := mem_rangeFrom.mpr ⟨ha, hka⟩
  rw [hl] at hsorted ha
  rcases List.mem_cons.mp ha with heq | ha
  · exact (congrArg Prod.fst heq).ge
  · exact ((List.pairwise_cons.mp hsorted).1 _ ha).le

theorem lt_of_head?_rangeFrom (h : (rangeFrom m k).head? = none) {a : K} {w : V}
    (ha : m[a]? = some w) : a < k := by
  rw [List.head?_eq_none_iff] at h
  by_contra hle
  have hmem : (a, w) ∈ rangeFrom m k := mem_rangeFrom.mpr ⟨ha, not_lt.mp hle⟩
  rw [h] at hmem
  cases hmem

theorem getElem?_of_getLast?_eq_none (h : m.toList.getLast? = none) (a : K) : m[a]? = none := by
  rw [List.getLast?_eq_none_iff] at h
  by_contra hne
  obtain ⟨w, hw⟩ := Option.ne_none_iff_exists'.mp hne
  have hmem : (a, w) ∈ m.toList := TreeMap.mem_toList_iff_getElem?_eq_some.mpr hw
  rw [h] at hmem
  cases hmem

end Smos.Lib.OrderedMap
