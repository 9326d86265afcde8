import Smos.Virtio.Queue

/-!
What holds in every run of a virtqueue and its driver.  The 16-bit indices are the lengths of the
histories reduced modulo 65536; the rings hold what is outstanding because the driver never has more
chains outstanding than there are slots.
-/
namespace Smos.Virtio

open Lib.RingBuffer List

def Progress.inFlight : Progress → List DescChain
  | .returning chain _ => [chain]
  | _ => []

@[simp] theorem inFlight_idle : Progress.idle.inFlight = [] := rfl

@[simp] theorem inFlight_taking : Progress.taking.inFlight = [] := rfl

@[simp] theorem inFlight_returning (chain : DescChain) (written : UInt32) :
    (Progress.returning chain written).inFlight = [chain] := rfl

namespace System

def chains (s : System) : List DescChain :=
  s.returned.map Prod.fst ++ (s.progress.inFlight ++ s.held)

structure Inv (s : System) : Prop where
  next_eq : s.queue.next = counter s.yielded.length
  nextUsed_eq : s.queue.nextUsed = counter (s.returned.length + s.progress.inFlight.length)
  availIdx_eq : s.mem.availIdx = counter s.published.length
  usedIdx_eq : s.mem.usedIdx = counter s.returned.length
  lastUsed_eq : s.lastUsed = counter s.consumed.length
  outstanding : s.published.length + s.pending.toList.length ≤
    s.consumed.length + s.queue.queueSize.toNat
  yielded_prefix : s.yielded <+: s.published
  taking : s.progress = .taking → s.yielded.length < s.published.length
  positions : (s.chains.map DescChain.position).Perm (range s.yielded.length)
  firstDesc : ∀ chain ∈ s.chains, s.yielded[chain.position]? = some chain.firstDesc
  avail_holds : Holds s.mem.avail s.queue.queueSize.toNat s.published s.consumed.length
  pending_slot : ∀ head, s.pending = some head →
    s.mem.avail (s.published.length % s.queue.queueSize.toNat) = head
  used_holds : Holds s.mem.used s.queue.queueSize.toNat (s.returned.map usedEntry)
    s.consumed.length
  returning_slot : ∀ chain written, s.progress = .returning chain written →
    s.mem.used (s.returned.length % s.queue.queueSize.toNat) = usedEntry (chain, written)
  consumed_prefix : s.consumed <+: s.returned.map usedEntry

theorem inv_start (queueSize : UInt16) (h : queueSize.toNat.isPowerOfTwo) (avail : ℕ → UInt16)
    (used : ℕ → Used) : (start queueSize h avail used).Inv where
  next_eq := rfl
  nextUsed_eq := rfl
  availIdx_eq := rfl
  usedIdx_eq := rfl
  lastUsed_eq := rfl
  outstanding := Nat.zero_le _
  yielded_prefix := prefix_rfl
  taking := by simp [start]
  positions := by simp [start, chains]
  firstDesc := by simp [start, chains]
  avail_holds := Holds.nil
  pending_slot := by simp [start]
  used_holds := Holds.nil
  returning_slot := by simp [start]
  consumed_prefix := prefix_rfl

namespace Inv

variable {s : System}

theorem consumed_le (h : s.Inv) : s.consumed.length ≤ s.returned.length := by
  simpa using h.consumed_prefix.length_le

/-- Every chain that is returned, or about to be, has been yielded. -/
theorem returned_le (h : s.Inv) :
    s.returned.length + s.progress.inFlight.length + s.held.length = s.yielded.length := by
  simpa [chains, Nat.add_assoc] using h.positions.length_eq

theorem yielded_le (h : s.Inv) : s.yielded.length ≤ s.published.length := h.yielded_prefix.length_le

theorem size_dvd (s : System) : s.queue.queueSize.toNat ∣ 65536 :=
  dvd_of_isPowerOfTwo s.queue.isPowerOfTwo

section

variable (h : s.Inv)
include h

/-- The head in the next slot of the available ring. -/
theorem readAvail_eq (hlt : s.yielded.length < s.published.length) :
    s.published[s.yielded.length]? = some (s.mem.readAvail s.queue.queueSize s.queue.next) := by
  have hle := h.consumed_le
  have hret := h.returned_le
  obtain ⟨head, hhead⟩ : ∃ head, s.published[s.yielded.length]? = some head :=
    ⟨_, getElem?_eq_getElem hlt⟩
  rw [Rings.readAvail, h.next_eq, counter_mod (size_dvd s), hhead,
    h.avail_holds _ head (by omega) hhead]

theorem next_ne_iff :
    s.queue.next ≠ s.mem.availIdx ↔ s.yielded.length < s.published.length := by
  have hle := h.consumed_le
  have hret := h.returned_le
  have hyield := h.yielded_le
  have hout := h.outstanding
  have hsize := s.queue.queueSize.toNat_lt
  rw [h.next_eq, h.availIdx_eq, ne_eq, ← UInt16.toNat_inj, counter_toNat, counter_toNat]
  omega

theorem driverWrite (head : UInt16)
    (hroom : s.published.length - s.consumed.length < s.queue.queueSize.toNat) :
    Inv { s with pending := some head, mem := s.mem.writeAvail s.queue.queueSize head } := by
  have hslot : (s.mem.availIdx % s.queue.queueSize).toNat =
      s.published.length % s.queue.queueSize.toNat := by
    rw [h.availIdx_eq, counter_mod (size_dvd s)]
  refine { h with outstanding := ?_, avail_holds := ?_, pending_slot := ?_ }
  · simp only [Option.toList_some, length_singleton]
    omega
  · simp only [Rings.writeAvail, hslot]
    exact h.avail_holds.write (by omega) head
  · intro head' hhead
    simp only [Option.some.injEq] at hhead
    simp [Rings.writeAvail, hslot, hhead]

theorem driverPublish {head : UInt16} (hpending : s.pending = some head) :
    Inv { s with
      pending := none
      published := s.published ++ [head]
      mem := { s.mem with availIdx := s.mem.availIdx + 1 } } := by
  have hout := h.outstanding
  simp only [hpending, Option.toList_some, length_singleton] at hout
  refine { h with
    availIdx_eq := ?_, outstanding := ?_, yielded_prefix := ?_, taking := ?_, avail_holds := ?_,
    pending_slot := by simp }
  · simp only [h.availIdx_eq, counter_succ, length_append, length_singleton]
  · simpa using hout
  · exact h.yielded_prefix.trans (prefix_append _ _)
  · intro htaking
    have := h.taking htaking
    simp only [length_append, length_singleton]
    omega
  · exact h.avail_holds.concat (h.pending_slot head hpending)

theorem driverConsume (hne : s.mem.usedIdx ≠ s.lastUsed) :
    Inv { s with
      lastUsed := s.lastUsed + 1
      consumed := s.consumed ++ [s.mem.used (s.lastUsed % s.queue.queueSize).toNat] } := by
  have hle := h.consumed_le
  have hlt : s.consumed.length < s.returned.length := by
    refine lt_of_le_of_ne hle fun heq => hne ?_
    rw [h.usedIdx_eq, h.lastUsed_eq, heq]
  obtain ⟨entry, hentry⟩ : ∃ entry, (s.returned.map usedEntry)[s.consumed.length]? = some entry :=
    ⟨_, getElem?_eq_getElem (by simpa using hlt)⟩
  have hread : s.mem.used (s.lastUsed % s.queue.queueSize).toNat = entry := by
    rw [h.lastUsed_eq, counter_mod (size_dvd s)]
    exact h.used_holds _ entry le_rfl hentry
  have hout := h.outstanding
  refine { h with
    lastUsed_eq := ?_, outstanding := ?_, avail_holds := ?_, used_holds := ?_,
    consumed_prefix := ?_ }
  · simp only [h.lastUsed_eq, counter_succ, length_append, length_singleton]
  · simp only [length_append, length_singleton]
    omega
  · exact h.avail_holds.mono (by simp)
  · exact h.used_holds.mono (by simp)
  · rw [hread]
    exact prefix_concat h.consumed_prefix hentry

theorem loadAvail (hidle : s.progress = .idle)
    (hne : s.queue.next ≠ s.mem.availIdx) : Inv { s with progress := .taking } := by
  have hchains : chains { s with progress := .taking } = s.chains := by
    simp [chains, hidle]
  refine { h with
    nextUsed_eq := ?_, taking := fun _ => h.next_ne_iff.mp hne, positions := hchains ▸ h.positions,
    firstDesc := hchains ▸ h.firstDesc, returning_slot := by simp }
  rw [h.nextUsed_eq, hidle]
  rfl

theorem readAvail (htaking : s.progress = .taking) :
    Inv { s with
      progress := .idle
      queue := { s.queue with next := s.queue.next + 1 }
      held := ⟨s.mem.readAvail s.queue.queueSize s.queue.next, s.yielded.length⟩ :: s.held
      yielded := s.yielded ++ [s.mem.readAvail s.queue.queueSize s.queue.next] } := by
  have hlt := h.taking htaking
  have hhead := h.readAvail_eq hlt
  have hinFlight : s.progress.inFlight = [] := by simp [htaking]
  have hperm (chain : DescChain) :
      (s.returned.map Prod.fst ++ chain :: s.held).Perm (chain :: s.chains) := by
    simp only [chains, hinFlight, nil_append]
    exact perm_middle
  refine { h with
    next_eq := ?_, nextUsed_eq := ?_, yielded_prefix := ?_, taking := by simp, positions := ?_,
    firstDesc := ?_, returning_slot := by simp }
  · simp only [h.next_eq, counter_succ, length_append, length_singleton]
  · simp only [h.nextUsed_eq, hinFlight, inFlight_idle]
  · exact prefix_concat h.yielded_prefix hhead
  · refine ((hperm _).map DescChain.position).trans ?_
    simp only [map_cons, length_append, length_singleton, range_succ]
    exact (h.positions.cons s.yielded.length).trans (perm_append_singleton _ _).symm
  · intro chain hchain
    rcases mem_cons.mp ((hperm _).mem_iff.mp hchain) with rfl | hchain
    · simp
    · have hget := h.firstDesc chain hchain
      have hpos := (List.getElem?_eq_some_iff.mp hget).1
      rw [List.getElem?_append_left hpos]
      exact hget

theorem insertUsed {chain : DescChain} (written : UInt32) (hidle : s.progress = .idle)
    (hmem : chain ∈ s.held) :
    Inv { s with
      progress := .returning chain written
      held := s.held.erase chain
      queue := { s.queue with nextUsed := s.queue.nextUsed + 1 }
      mem := s.mem.insertUsed s.queue.queueSize (Used.new chain.firstDesc written)
        s.queue.nextUsed } := by
  have hinFlight : s.progress.inFlight = [] := by simp [hidle]
  have hnextUsed : s.queue.nextUsed = counter s.returned.length := by
    rw [h.nextUsed_eq, hinFlight]
    rfl
  have hslot : (s.queue.nextUsed % s.queue.queueSize).toNat =
      (s.returned.map usedEntry).length % s.queue.queueSize.toNat := by
    rw [hnextUsed, counter_mod (size_dvd s), length_map]
  have hperm : (s.returned.map Prod.fst ++ ([chain] ++ s.held.erase chain)).Perm s.chains := by
    simp only [chains, hinFlight, nil_append]
    exact (perm_cons_erase hmem).symm.append_left _
  -- The chain is outstanding, so there is a slot that no unconsumed entry is in.
  have hroom : (s.returned.map usedEntry).length < s.consumed.length + s.queue.queueSize.toNat := by
    have hlen := length_pos_of_mem hmem
    have hret := h.returned_le
    have hyield := h.yielded_le
    have hout := h.outstanding
    rw [length_map]
    omega
  refine { h with
    nextUsed_eq := ?_, taking := by simp, positions := ?_, firstDesc := ?_, used_holds := ?_,
    returning_slot := ?_ }
  · simp only [hnextUsed, counter_succ, inFlight_returning, length_singleton]
  · exact (hperm.map DescChain.position).trans h.positions
  · intro chain' hchain
    exact h.firstDesc chain' (hperm.mem_iff.mp hchain)
  · simp only [Rings.insertUsed, hslot]
    exact h.used_holds.write hroom _
  · intro chain' written' heq
    obtain ⟨rfl, rfl⟩ := heq
    simp only [Rings.insertUsed, hslot, length_map, Function.update_self]
    rfl

theorem publishUsed {chain : DescChain} {written : UInt32}
    (hprogress : s.progress = .returning chain written) :
    Inv { s with
      progress := .idle
      returned := s.returned ++ [(chain, written)]
      mem := s.mem.publishUsed s.queue.nextUsed } := by
  have hinFlight : s.progress.inFlight = [chain] := by simp [hprogress]
  have hnextUsed : s.queue.nextUsed = counter (s.returned.length + 1) := by
    rw [h.nextUsed_eq, hinFlight]
    rfl
  have hchains : chains { s with
      progress := .idle
      returned := s.returned ++ [(chain, written)]
      mem := s.mem.publishUsed s.queue.nextUsed } = s.chains := by
    simp [chains, hinFlight]
  refine { h with
    nextUsed_eq := ?_, usedIdx_eq := ?_, taking := by simp, positions := hchains ▸ h.positions,
    firstDesc := hchains ▸ h.firstDesc, used_holds := ?_, returning_slot := by simp,
    consumed_prefix := ?_ }
  · simp [hnextUsed]
  · simp [hnextUsed, Rings.publishUsed]
  · simp only [map_append, map_cons, map_nil, Rings.publishUsed]
    refine h.used_holds.concat ?_
    rw [length_map]
    exact h.returning_slot chain written hprogress
  · simp only [map_append]
    exact h.consumed_prefix.trans (prefix_append _ _)

/-- Every step keeps the invariant. -/
theorem step {s' : System} (hstep : Step s s') : s'.Inv := by
  cases hstep with
  | driverWrite head _ hroom => exact h.driverWrite head hroom
  | driverPublish hpending => exact h.driverPublish hpending
  | driverConsume hne => exact h.driverConsume hne
  | loadAvail hidle hne => exact h.loadAvail hidle hne
  | readAvail htaking => exact h.readAvail htaking
  | insertUsed written hidle hmem => exact h.insertUsed written hidle hmem
  | publishUsed hprogress => exact h.publishUsed hprogress

theorem run {s' : System} (hrun : Run s s') : s'.Inv := by
  induction hrun with
  | refl => exact h
  | tail _ hstep ih => exact ih.step hstep

end

end Inv

/-- In every run of a queue and a driver that never has more than `queueSize` chains outstanding,
chains are yielded in the order of their publication, the used ring shows the returned chains in
the order of their return, with no unconsumed entry overwritten, and every chain is returned at most
once. -/
theorem run_returns_once (queueSize : UInt16) (hsize : queueSize.toNat.isPowerOfTwo)
    (avail : ℕ → UInt16) (used : ℕ → Used) (s : System)
    (hrun : Run (start queueSize hsize avail used) s) :
    s.yielded <+: s.published ∧
    (s.queue.takeAvail s.mem).1 = s.published[s.yielded.length]? ∧
    s.mem.usedIdx = counter s.returned.length ∧
    (∀ i entry, s.consumed.length ≤ i → (s.returned.map usedEntry)[i]? = some entry →
      s.mem.used (i % s.queue.queueSize.toNat) = entry) ∧
    s.consumed <+: s.returned.map usedEntry ∧
    (s.chains.map DescChain.position).Nodup ∧
    (∀ chain ∈ s.chains, s.published[chain.position]? = some chain.firstDesc) := by
  have h := (inv_start queueSize hsize avail used).run hrun
  refine ⟨h.yielded_prefix, ?_, h.usedIdx_eq, h.used_holds, h.consumed_prefix,
    h.positions.nodup_iff.mpr nodup_range, ?_⟩
  · unfold Queue.takeAvail Rings.getAvail
    by_cases hlt : s.yielded.length < s.published.length
    · rw [if_pos (h.next_ne_iff.mpr hlt), h.readAvail_eq hlt]
    · rw [if_neg (mt h.next_ne_iff.mp hlt), getElem?_eq_none (by omega)]
  · intro chain hchain
    have hget := h.firstDesc chain hchain
    obtain ⟨rest, hrest⟩ := h.yielded_prefix
    rw [← hrest, List.getElem?_append_left (List.getElem?_eq_some_iff.mp hget).1]
    exact hget

/-- One chain on its way from the driver and back. -/
theorem run_returns_once_one_chain :
    ∃ s, Run (start 2 ⟨1, rfl⟩ (fun _ => 0) fun _ => ⟨0, 0⟩) s ∧ s.published = [1] ∧
      s.returned = [(⟨1, 0⟩, 5)] ∧ s.consumed = [⟨1, 5⟩] ∧
      s.consumed <+: s.returned.map usedEntry ∧ (s.chains.map DescChain.position).Nodup := by
  have hpublish := ((Relation.ReflTransGen.refl
    (a := start 2 ⟨1, rfl⟩ (fun _ => 0) fun _ => ⟨0, 0⟩)).tail
    (Step.driverWrite 1 rfl (by decide))).tail (Step.driverPublish rfl)
  have htake := (hpublish.tail (Step.loadAvail rfl (by decide))).tail (Step.readAvail rfl)
  have hreturn := (htake.tail (Step.insertUsed 5 rfl mem_cons_self)).tail (Step.publishUsed rfl)
  have hrun := hreturn.tail (Step.driverConsume (by decide))
  obtain ⟨-, -, -, -, hconsumed, hnodup, -⟩ := run_returns_once _ _ _ _ _ hrun
  exact ⟨_, hrun, rfl, rfl, rfl, hconsumed, hnodup⟩

end System

end Smos.Virtio
