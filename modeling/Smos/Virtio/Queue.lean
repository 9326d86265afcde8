import Mathlib.Data.List.Perm.Basic
import Smos.Lib.RingBuffer

/-!
Virtqueues (`virtio-device/src/ring.rs`, `virtio-device/src/queue.rs`).

The rings are memory shared with the driver, which publishes descriptor chains in one ring and
consumes returned chains from the other one.  `System` is a queue together with its driver and the
histories of both; every access to shared memory is a step of its own, so that the steps of the
driver fall between any two accesses of the device.  The mutex of the queue lets one critical
section of the device be under way at a time.
-/
namespace Smos.Virtio

open Lib.RingBuffer

structure Used where
  id : UInt32
  len : UInt32
  deriving DecidableEq, Repr

def Used.new (id : UInt16) (len : UInt32) : Used := ⟨id.toUInt32, len⟩

/-- The rings of a queue; only slots below the queue size are used. -/
structure Rings where
  avail : ℕ → UInt16
  availIdx : UInt16
  used : ℕ → Used
  usedIdx : UInt16

namespace Rings

def writeAvail (mem : Rings) (queueSize head : UInt16) : Rings :=
  { mem with avail := Function.update mem.avail (mem.availIdx % queueSize).toNat head }

def readAvail (mem : Rings) (queueSize index : UInt16) : UInt16 :=
  mem.avail (index % queueSize).toNat

def getAvail (mem : Rings) (queueSize nextIndex : UInt16) : Option UInt16 :=
  if nextIndex ≠ mem.availIdx then some (mem.readAvail queueSize nextIndex) else none

def insertUsed (mem : Rings) (queueSize : UInt16) (used : Used) (index : UInt16) : Rings :=
  { mem with used := Function.update mem.used (index % queueSize).toNat used }

def publishUsed (mem : Rings) (index : UInt16) : Rings :=
  { mem with usedIdx := index }

end Rings

/-- `Queue` with its `State`; the rings that `Queue::new` accepts have a power of two of slots. -/
structure Queue where
  queueSize : UInt16
  isPowerOfTwo : queueSize.toNat.isPowerOfTwo
  next : UInt16 := 0
  nextUsed : UInt16 := 0

namespace Queue

def takeAvail (queue : Queue) (mem : Rings) : Option UInt16 × Queue :=
  match mem.getAvail queue.queueSize queue.next with
  | some head => (some head, { queue with next := queue.next + 1 })
  | none => (none, queue)

/-- `State::return_chain`, which also returns the index it publishes at. -/
def returnChain (queue : Queue) (mem : Rings) (used : Used) : UInt16 × Queue × Rings :=
  let submit := queue.nextUsed
  let mem := mem.insertUsed queue.queueSize used submit
  let queue := { queue with nextUsed := submit + 1 }
  (submit, queue, mem.publishUsed queue.nextUsed)

end Queue

structure DescChain where
  firstDesc : UInt16
  /-- Not in the code: the place of the chain among those the queue has yielded. -/
  position : ℕ
  deriving DecidableEq, Repr

inductive Progress where
  | idle
  | taking
  | returning (chain : DescChain) (written : UInt32)
  deriving DecidableEq, Repr

/-- A queue, the chains it has handed out, the driver and what has happened so far. -/
structure System where
  queue : Queue
  mem : Rings
  progress : Progress := .idle
  held : List DescChain := []
  /-- The head that the driver has put into its slot and not published yet. -/
  pending : Option UInt16 := none
  /-- The next used entry that the driver will consume. -/
  lastUsed : UInt16 := 0
  published : List UInt16 := []
  yielded : List UInt16 := []
  returned : List (DescChain × UInt32) := []
  consumed : List Used := []

def usedEntry (chain : DescChain × UInt32) : Used := Used.new chain.1.firstDesc chain.2

namespace System

def start (queueSize : UInt16) (h : queueSize.toNat.isPowerOfTwo) (avail : ℕ → UInt16)
    (used : ℕ → Used) : System where
  queue := { queueSize := queueSize, isPowerOfTwo := h }
  mem := { avail := avail, availIdx := 0, used := used, usedIdx := 0 }

/-- A driver that writes a head must not have `queueSize` chains outstanding, that is published and
not consumed.  Chains are returned by `return_written`, or by a drop with nothing written. -/
inductive Step : System → System → Prop where
  | driverWrite {s : System} (head : UInt16) : s.pending = none →
      s.published.length - s.consumed.length < s.queue.queueSize.toNat →
      Step s { s with
        pending := some head
        mem := s.mem.writeAvail s.queue.queueSize head }
  | driverPublish {s : System} {head : UInt16} : s.pending = some head →
      Step s { s with
        pending := none
        published := s.published ++ [head]
        mem := { s.mem with availIdx := s.mem.availIdx + 1 } }
  | driverConsume {s : System} : s.mem.usedIdx ≠ s.lastUsed →
      Step s { s with
        lastUsed := s.lastUsed + 1
        consumed := s.consumed ++ [s.mem.used (s.lastUsed % s.queue.queueSize).toNat] }
  | loadAvail {s : System} : s.progress = .idle → s.queue.next ≠ s.mem.availIdx →
      Step s { s with progress := .taking }
  | readAvail {s : System} : s.progress = .taking →
      Step s { s with
        progress := .idle
        queue := { s.queue with next := s.queue.next + 1 }
        held := ⟨s.mem.readAvail s.queue.queueSize s.queue.next, s.yielded.length⟩ :: s.held
        yielded := s.yielded ++ [s.mem.readAvail s.queue.queueSize s.queue.next] }
  | insertUsed {s : System} {chain : DescChain} (written : UInt32) : s.progress = .idle →
      chain ∈ s.held →
      Step s { s with
        progress := .returning chain written
        held := s.held.erase chain
        queue := { s.queue with nextUsed := s.queue.nextUsed + 1 }
        mem := s.mem.insertUsed s.queue.queueSize (Used.new chain.firstDesc written)
          s.queue.nextUsed }
  | publishUsed {s : System} {chain : DescChain} {written : UInt32} :
      s.progress = .returning chain written →
      Step s { s with
        progress := .idle
        returned := s.returned ++ [(chain, written)]
        mem := s.mem.publishUsed s.queue.nextUsed }

abbrev Run : System → System → Prop := Relation.ReflTransGen Step

/-- Without interference of the driver the two accesses of `take_avail` make the whole. -/
theorem run_takeAvail {s : System} {head : UInt16} {queue : Queue} (hidle : s.progress = .idle)
    (h : s.queue.takeAvail s.mem = (some head, queue)) :
    Run s { s with
      queue := queue
      held := ⟨head, s.yielded.length⟩ :: s.held
      yielded := s.yielded ++ [head] } := by
  unfold Queue.takeAvail Rings.getAvail at h
  by_cases hnext : s.queue.next ≠ s.mem.availIdx
  · simp only [if_pos hnext, Prod.mk.injEq, Option.some.injEq] at h
    obtain ⟨rfl, rfl⟩ := h
    have hread := Step.readAvail (s := { s with progress := .taking }) rfl
    refine .tail (.single (.loadAvail hidle hnext)) ?_
    rw [← hidle] at hread
    exact hread
  · simp [if_neg hnext] at h

/-- Without interference of the driver the two accesses of `return_chain` make the whole. -/
theorem run_returnChain {s : System} {chain : DescChain} (written : UInt32) {submit : UInt16}
    (hidle : s.progress = .idle) (hmem : chain ∈ s.held) {queue : Queue} {mem : Rings}
    (h : s.queue.returnChain s.mem (Used.new chain.firstDesc written) =
      (submit, queue, mem)) :
    Run s { s with
      queue := queue
      mem := mem
      held := s.held.erase chain
      returned := s.returned ++ [(chain, written)] } := by
  obtain ⟨-, rfl, rfl⟩ := h
  have hinsert := Step.insertUsed (s := s) written hidle hmem
  have hpublish := Step.publishUsed (s := { s with
    progress := .returning chain written
    held := s.held.erase chain
    queue := { s.queue with nextUsed := s.queue.nextUsed + 1 }
    mem := s.mem.insertUsed s.queue.queueSize (Used.new chain.firstDesc written)
      s.queue.nextUsed }) rfl
  rw [← hidle] at hpublish
  exact .tail (.single hinsert) hpublish

end System

end Smos.Virtio
