import Smos.Fxfs.LayerUpdate

/-!
The tree of the allocator over whole runs.  Mutations are merged into the mutable layer, a flush
seals that layer, and when it ends one layer of live records replaces all the immutable ones.
-/
namespace Smos.Fxfs.Allocator

open Lib.Spans Fxfs.Lsm List

abbrev LayerSet := List (Layer AllocatorKey AllocatorValue)

structure Tree where
  mutableLayer : List AllocatorItem
  layers : LayerSet

namespace Tree

variable {t : Tree} {log : List AllocatorItem} {fuel : ℕ}

def layerSet (t : Tree) : LayerSet := { items := t.mutableLayer } :: t.layers

/-- The trees of all runs in which no index of a layer wraps, and the records merged so far, the
last one first. -/
inductive Run : Tree → List AllocatorItem → Prop
  | new : Run ⟨[], []⟩ []
  | mergeInto {t : Tree} {log items : List AllocatorItem} (item : AllocatorItem) (h : Run t log)
    (hok : span.Ok item)
    (hrun : mergeInto merge (span.weight item + (t.mutableLayer.map span.weight).sum + 1)
      t.mutableLayer item item.key.lowerBoundForMergeInto = some items) :
    Run ⟨items, t.layers⟩ (item :: log)
  | beginFlush {t : Tree} {log : List AllocatorItem} (h : Run t log)
    (hlen : t.layers.length < 65535) : Run ⟨[], t.layerSet⟩ log
  | endFlush {t : Tree} {log items : List AllocatorItem} (h : Run t log)
    (hrun : scanAllocations (layersWeight span t.layers + 1) t.layers = some items) :
    Run ⟨t.mutableLayer, [{ items }]⟩ log

theorem newestValue_layerSet (p : ℕ) :
    newestValue t.layerSet p = (lookup t.mutableLayer p).or (newestValue t.layers p) := by
  simp only [newestValue, layerSet, findSome?_cons]
  cases lookup t.mutableLayer p <;> rfl

theorem Run.inv (h : Run t log) :
    t.layers.length < 65536 ∧ IsLayer span t.mutableLayer ∧
    (∀ layer ∈ t.layers, IsLayer span layer.items) ∧
    ∀ p, (newestValue t.layerSet p).filter (· != .none) = (lookup log p).filter (· != .none) := by
  induction h with
  | new => exact ⟨by decide, .nil, by simp, fun p => rfl⟩
  | mergeInto item _ hok hrun ih =>
    obtain ⟨hlen, hmutable, hlayers, hlive⟩ := ih
    obtain ⟨out, hout, hlayer, hlookup⟩ := mergeInto_lookup hmutable item hok (Nat.lt_succ_self _)
    cases hout.symm.trans hrun
    refine ⟨hlen, hlayer, hlayers, fun p => ?_⟩
    have hp := hlive p
    simp only [newestValue_layerSet, hlookup, lookup_cons] at hp ⊢
    split_ifs
    · rfl
    · exact hp
  | beginFlush _ hlen ih =>
    obtain ⟨-, hmutable, hlayers, hlive⟩ := ih
    exact ⟨Nat.succ_lt_succ hlen, .nil, forall_mem_cons.mpr ⟨hmutable, hlayers⟩, hlive⟩
  | @endFlush t _ _ _ hrun ih =>
    obtain ⟨hlen, hmutable, hlayers, hlive⟩ := ih
    obtain ⟨out, hout, hlayer, -, hlookup⟩ := scanAllocations_spec hlen.le hlayers
      (Nat.lt_succ_self _)
    cases hout.symm.trans hrun
    refine ⟨by simp, hmutable, by simpa using hlayer, fun p => ?_⟩
    -- A dropped tombstone uncovers nothing: no older layer is left.
    rw [← hlive p, newestValue_layerSet, newestValue_layerSet]
    cases lookup t.mutableLayer p <;> simp [newestValue, hlookup]

/-- After every run, a scan shows of each device byte what the last record on it says. -/
theorem Run.scan_log (h : Run t log) (hfuel : layersWeight span t.layerSet < fuel) :
    ∃ out, scanAllocations fuel t.layerSet = some out ∧
      ∀ p, lookup out p = (lookup log p).filter (· != .none) := by
  obtain ⟨hlen, hmutable, hlayers, hlive⟩ := h.inv
  obtain ⟨out, hscan, -, -, hlookup⟩ := @scanAllocations_spec t.layerSet fuel hlen
    (forall_mem_cons.mpr ⟨hmutable, hlayers⟩) hfuel
  exact ⟨out, hscan, fun p => (hlookup p).trans (hlive p)⟩

/-- Part of an allocation is freed during a flush. -/
theorem Run.scan_log_free :
    ∃ t : Tree, ∃ out, scanAllocations 99 t.layerSet = some out ∧ ∀ p, lookup out p =
      (lookup [⟨⟨⟨4, 6⟩⟩, .none, 1⟩, ⟨⟨⟨0, 9⟩⟩, .abs 1 7, 0⟩] p).filter (· != .none) := by
  have hrun := ((Run.new.mergeInto ⟨⟨⟨0, 9⟩⟩, .abs 1 7, 0⟩ (by decide : 0 < 9) rfl).beginFlush
    (by decide)).mergeInto ⟨⟨⟨4, 6⟩⟩, .none, 1⟩ (by decide : 4 < 6) rfl
  exact ⟨_, (hrun.endFlush rfl).scan_log (by decide)⟩

end Tree

end Smos.Fxfs.Allocator
