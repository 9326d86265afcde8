import Smos.Socket.MBufChain

/-!
Where the buffers of a chain are.

Every buffer is in the chain, on the free list or in the hands of the running call, and in one of
them only.  The write cursor is then the last buffer of the chain whenever there is one, so the
insertions behind the cursor are insertions at the end.
-/
namespace Smos.Socket

open List

def bytes (l : List MBuf) : List UInt8 := l.flatMap MBuf.data

@[simp] theorem bytes_nil : bytes [] = [] := rfl

@[simp] theorem bytes_cons (buf : MBuf) (l : List MBuf) : bytes (buf :: l) = buf.data ++ bytes l :=
  flatMap_cons

@[simp] theorem bytes_append (l m : List MBuf) : bytes (l ++ m) = bytes l ++ bytes m :=
  flatMap_append

section Addresses

variable {init : List MBuf} {last : MBuf}

section

variable (h : ∀ buf ∈ init, buf.address ≠ last.address)
include h

theorem insertAfter_last (next : MBuf) :
    insertAfter last.address next (init ++ [last]) = init ++ [last, next] := by
  induction init with
  | nil => simp [insertAfter]
  | cons buf rest ih =>
    have hne := h buf mem_cons_self
    have hrest := ih (forall_mem_cons.mp h).2
    simp [insertAfter, hne, hrest]

theorem lookup_last :
    lookup last.address (init ++ [last]) = some last := by
  have hnone : init.find? (fun b => decide (b.address = last.address)) = none := by
    apply find?_eq_none.mpr
    intro buf hbuf
    simpa using h buf hbuf
  simp [lookup, find?_append, hnone]

theorem appendData_last (src : List UInt8) :
    appendData last.address src (init ++ [last]) =
      init ++ [{ last with data := last.data ++ src }] := by
  have hinit : appendData last.address src init = init := by
    conv_rhs => rw [← map_id init]
    apply map_congr_left
    intro buf hbuf
    simp [h buf hbuf]
  change (init ++ [last]).map _ = _
  rw [map_append]
  exact congrArg₂ (· ++ ·) hinit (by simp)

end

end Addresses

namespace MBufChain

def addresses (c : MBufChain) (taken : List ℕ) : List ℕ :=
  c.buffers.map MBuf.address ++ (taken ++ c.freelist.map MBuf.address)

/-- No buffer is in two places, those on the free list are reset, and the write cursor is the last
buffer of the chain. -/
structure Storage (c : MBufChain) (taken : List ℕ) : Prop where
  nodup : (c.addresses taken).Nodup
  below : ∀ a ∈ c.addresses taken, a < c.heap
  clean : ∀ buf ∈ c.freelist, buf.data = [] ∧ buf.pktLen = 0
  cursor : c.writeCursor = c.buffers.getLast?.map MBuf.address

/-- A call has not touched the chain itself, only the free list and the heap. -/
structure SameQueue (c c' : MBufChain) : Prop where
  buffers : c'.buffers = c.buffers
  readCursorOff : c'.readCursorOff = c.readCursorOff
  writeCursor : c'.writeCursor = c.writeCursor
  size : c'.size = c.size

theorem SameQueue.refl (c : MBufChain) : SameQueue c c := ⟨rfl, rfl, rfl, rfl⟩

theorem SameQueue.trans {c d e : MBufChain} (h : SameQueue c d) (k : SameQueue d e) :
    SameQueue c e :=
  ⟨k.buffers.trans h.buffers, k.readCursorOff.trans h.readCursorOff,
    k.writeCursor.trans h.writeCursor, k.size.trans h.size⟩

theorem Storage.new : Storage new [] where
  nodup := nodup_nil
  below _ h := absurd h not_mem_nil
  clean _ h := absurd h not_mem_nil
  cursor := rfl

variable {c : MBufChain} {taken : List ℕ} {buf : MBuf}

/-- The buffers before the last one have other addresses. -/
theorem Storage.ne_last (h : Storage c taken) {init : List MBuf} {last : MBuf}
    (hl : c.buffers = init ++ [last]) : ∀ buf ∈ init, buf.address ≠ last.address := by
  intro buf hbuf heq
  have hnodup := (nodup_append.mp h.nodup).1
  rw [hl, map_append, nodup_append] at hnodup
  exact hnodup.2.2 _ (mem_map_of_mem hbuf) _
    (mem_map_of_mem (mem_singleton_self _)) heq

/-- What changes no address and no list end keeps the storage. -/
theorem Storage.of_addresses (h : Storage c taken) {c' : MBufChain}
    (hbuffers : c'.buffers.map MBuf.address = c.buffers.map MBuf.address)
    (hfree : c'.freelist = c.freelist) (hheap : c'.heap = c.heap)
    (hcursor : c'.writeCursor = c.writeCursor) : Storage c' taken := by
  have haddr : c'.addresses taken = c.addresses taken := by
    rw [addresses, addresses, hbuffers, hfree]
  refine ⟨haddr ▸ h.nodup, ?_, hfree ▸ h.clean, ?_⟩
  · rw [haddr, hheap]
    exact h.below
  · rw [hcursor, h.cursor, ← getLast?_map, ← getLast?_map, hbuffers]

/-- What `AllocMBuf` gives: an empty buffer that nobody else has. -/
theorem Storage.allocMBuf (h : Storage c taken) {hasMemory : Bool} {c' : MBufChain}
    (ha : c.allocMBuf hasMemory = some (buf, c')) :
    Storage c' (buf.address :: taken) ∧ SameQueue c c' ∧ buf.data = [] ∧ buf.pktLen = 0 := by
  unfold MBufChain.allocMBuf at ha
  cases hf : c.freelist with
  | nil =>
    -- a new buffer, at an address that was not given out
    rw [hf] at ha
    cases hasMemory with
    | false => simp at ha
    | true =>
      obtain ⟨rfl, rfl⟩ := ha
      have hnot : c.heap ∉ c.addresses taken := fun hm => Nat.lt_irrefl _ (h.below _ hm)
      have hperm : Perm (c.buffers.map MBuf.address ++ (c.heap :: taken ++ []))
          (c.heap :: c.addresses taken) := by
        rw [addresses, hf]
        exact perm_middle
      refine ⟨⟨?_, ?_, fun _ hm => absurd hm not_mem_nil, h.cursor⟩, ⟨rfl, rfl, rfl, rfl⟩,
        rfl, rfl⟩
      · exact hperm.nodup_iff.mpr (nodup_cons.mpr ⟨hnot, h.nodup⟩)
      · intro a ha
        rcases mem_cons.mp (hperm.mem_iff.mp ha) with rfl | hmem
        · exact Nat.lt_succ_self _
        · exact Nat.lt_succ_of_lt (h.below a hmem)
  | cons front rest =>
    -- the front of the free list
    rw [hf] at ha
    simp only [Option.some.injEq, Prod.mk.injEq] at ha
    obtain ⟨rfl, rfl⟩ := ha
    have hperm : Perm (c.buffers.map MBuf.address ++
        (front.address :: taken ++ rest.map MBuf.address)) (c.addresses taken) := by
      rw [addresses, hf]
      exact (perm_middle.symm).append_left _
    have hclean := h.clean front (hf ▸ mem_cons_self)
    refine ⟨⟨hperm.nodup_iff.mpr h.nodup, ?_, ?_, h.cursor⟩, ⟨rfl, rfl, rfl, rfl⟩, hclean⟩
    · intro a ha
      exact h.below a (hperm.mem_iff.mp ha)
    · intro buf hbuf
      exact h.clean buf (hf ▸ mem_cons_of_mem _ hbuf)

theorem Storage.freeMBuf (h : Storage c (buf.address :: taken)) :
    Storage (c.freeMBuf buf) taken := by
  have hperm : Perm ((c.freeMBuf buf).addresses taken) (c.addresses (buf.address :: taken)) :=
    perm_middle.append_left _
  refine ⟨hperm.nodup_iff.mpr h.nodup, ?_, ?_, h.cursor⟩
  · intro a ha
    exact h.below a (hperm.mem_iff.mp ha)
  · exact forall_mem_cons.mpr ⟨⟨rfl, rfl⟩, h.clean⟩

theorem Storage.freeAll {bufs : List MBuf} (h : Storage c (bufs.map MBuf.address ++ taken)) :
    Storage (c.freeAll bufs) taken ∧ SameQueue c (c.freeAll bufs) := by
  induction bufs generalizing c with
  | nil => exact ⟨h, SameQueue.refl c⟩
  | cons buf rest ih =>
    obtain ⟨hstorage, hsame⟩ := ih h.freeMBuf
    have hfreed : SameQueue c (c.freeMBuf buf) := ⟨rfl, rfl, rfl, rfl⟩
    exact ⟨hstorage, hfreed.trans hsame⟩

/-- The front buffer goes to the free list, and the cursor with it if it was the only one. -/
theorem Storage.popFront (h : Storage c taken) {rest : List MBuf}
    (hl : c.buffers = buf :: rest) : Storage (c.popFront buf) taken := by
  apply Storage.freeMBuf
  -- between the two steps the call holds the buffer
  have hperm : Perm (c.buffers.tail.map MBuf.address ++
      (buf.address :: taken ++ c.freelist.map MBuf.address)) (c.addresses taken) := by
    rw [addresses, hl]
    exact perm_middle
  refine ⟨hperm.nodup_iff.mpr h.nodup, fun a ha => h.below a (hperm.mem_iff.mp ha), h.clean, ?_⟩
  rw [h.cursor, hl]
  cases hrest : rest.getLast? with
  | none =>
    rw [getLast?_eq_none_iff] at hrest
    simp [hrest]
  | some last =>
    -- the last buffer is another one, so the cursor stays
    have hne : last.address ≠ buf.address := by
      intro heq
      have hnodup := (nodup_append.mp h.nodup).1
      rw [hl, map_cons, nodup_cons] at hnodup
      exact hnodup.1 (heq ▸ mem_map_of_mem (mem_of_getLast? hrest))
    simp [getLast?_cons, hrest, hne]

@[simp] theorem append_size (c : MBufChain) (next : MBuf) : (c.append next).size = c.size := by
  unfold MBufChain.append
  split <;> rfl

@[simp] theorem append_readCursorOff (c : MBufChain) (next : MBuf) :
    (c.append next).readCursorOff = c.readCursorOff := by
  unfold MBufChain.append
  split <;> rfl

/-- A buffer that the call holds is put behind the last one. -/
theorem Storage.append {next : MBuf} (h : Storage c (next.address :: taken)) :
    (c.append next).buffers = c.buffers ++ [next] ∧ Storage (c.append next) taken := by
  have hbuffers : (c.append next).buffers = c.buffers ++ [next] := by
    unfold MBufChain.append
    rcases eq_nil_or_concat c.buffers with hnil | ⟨init, last, hl⟩
    · simp [h.cursor, hnil]
    · rw [concat_eq_append] at hl
      have hcursor : c.writeCursor = some last.address := by simp [h.cursor, hl]
      have hinsert := insertAfter_last (h.ne_last hl) next
      simp [hcursor, hl, hinsert]
  have hcursor : (c.append next).writeCursor = some next.address := by
    unfold MBufChain.append
    split <;> rfl
  have hfree : (c.append next).freelist = c.freelist ∧ (c.append next).heap = c.heap := by
    unfold MBufChain.append
    split <;> exact ⟨rfl, rfl⟩
  have haddr : (c.append next).addresses taken = c.addresses (next.address :: taken) := by
    rw [addresses, addresses, hbuffers, hfree.1]
    simp
  refine ⟨hbuffers, haddr ▸ h.nodup, ?_, hfree.1 ▸ h.clean, ?_⟩
  · rw [haddr, hfree.2]
    exact h.below
  · simp [hcursor, hbuffers]

end MBufChain

end Smos.Socket
