import Mathlib.Data.List.Sort
import Mathlib.Data.List.Destutter

/-!
The lock manager of the object store: reader, transaction and writer locks on
keys, with upgrades, downgrades and cancellation of waiting futures.

The wakers live in the futures that wait on them and are chained into the
entry's list by raw pointers. They are modelled as a memory of nodes, from which a
node disappears with its future: following a pointer to such a node gives
`none`, as do the source's panics.
-/
namespace Smos.Fxfs.LockManager

open Function

inductive LockState where
  | readLock
  | locked
  | writeLock
  deriving DecidableEq, Repr

inductive WakerState where
  | pending
  | registered
  | woken
  deriving DecidableEq, Repr

structure LockWaker (K : Type) where
  next : Option ℕ
  prev : Option ℕ
  key : K
  waker : WakerState
  targetState : LockState
  isUpgrade : Bool
  deriving DecidableEq, Repr

structure LockEntry where
  readCount : ℕ
  state : LockState
  head : Option ℕ
  tail : Option ℕ
  deriving DecidableEq, Repr

abbrev Wakers (K : Type) := ℕ → Option (LockWaker K)

variable {K : Type}

namespace Wakers

def modify (m : Wakers K) (a : ℕ) (f : LockWaker K → LockWaker K) : Option (Wakers K) := do
  let w ← m a
  some (update m a (some (f w)))

def setNext (m : Wakers K) (a : ℕ) (v : Option ℕ) : Option (Wakers K) :=
  m.modify a fun w => { w with next := v }

def setPrev (m : Wakers K) (a : ℕ) (v : Option ℕ) : Option (Wakers K) :=
  m.modify a fun w => { w with prev := v }

def next (m : Wakers K) (a : ℕ) : Option ℕ := (m a).bind LockWaker.next

def prev (m : Wakers K) (a : ℕ) : Option ℕ := (m a).bind LockWaker.prev

end Wakers

namespace LockEntry

/-- Whether a lock with the given target can proceed; `isHead` if nothing waits before it. -/
def isAllowed (m : Wakers K) (e : LockEntry) (target : LockState) (isHead : Bool) :
    Option Bool :=
  match e.state with
  | .readLock =>
    some ((e.readCount == 0 || target == .locked || target == .readLock) && isHead)
  | .locked =>
    if target = .readLock then
      if isHead then some true
      else do
        let a ← e.head
        let w ← m a
        some !w.isUpgrade
    else some false
  | .writeLock => some false

def linkNext (m : Wakers K) (e : LockEntry) (p n : Option ℕ) : Option (Wakers K × LockEntry) :=
  match p with
  | none => some (m, { e with head := n })
  | some p => do
    let m ← m.setNext p n
    some (m, e)

def linkPrev (m : Wakers K) (e : LockEntry) (n p : Option ℕ) : Option (Wakers K × LockEntry) :=
  match n with
  | none => some (m, { e with tail := p })
  | some n => do
    let m ← m.setPrev n p
    some (m, e)

def popAndWake (m : Wakers K) (e : LockEntry) : Option (Wakers K × LockEntry) := do
  let a ← e.head
  let w ← m a
  let (m, e) ← { e with head := w.next }.linkPrev m w.next none
  let e :=
    if w.targetState = .readLock then { e with readCount := e.readCount + 1 }
    else { e with state := w.targetState }
  let m ← m.modify a fun w => { w with waker := .woken }
  some (m, e)

def wakeReaders : ℕ → Wakers K → LockEntry → Option (Wakers K × LockEntry)
  | 0, _, _ => none
  | fuel + 1, m, e =>
    match e.head with
    | none => some (m, e)
    | some a => do
      let w ← m a
      if w.targetState = .readLock then do
        let (m, e) ← e.popAndWake m
        wakeReaders fuel m e
      else some (m, e)

def canWake (m : Wakers K) (e : LockEntry) (w : LockWaker K) : Option Bool :=
  if w.isUpgrade then some (e.readCount == 0) else e.isAllowed m w.targetState true

def wake (fuel : ℕ) (m : Wakers K) (e : LockEntry) : Option (Wakers K × LockEntry) :=
  match e.head with
  | none => some (m, e)
  | some a =>
    if e.state = .writeLock then some (m, e)
    else do
      let w ← m a
      let proceed ← e.canWake m w
      if proceed then do
        let (m, e) ← e.popAndWake m
        if w.targetState = .writeLock then some (m, e) else e.wakeReaders fuel m
      else some (m, e)

def canRemove (e : LockEntry) : Bool :=
  e.state == .readLock && e.readCount == 0

def removeWaker (fuel : ℕ) (m : Wakers K) (e : LockEntry) (a : ℕ) :
    Option (Wakers K × LockEntry) := do
  let w ← m a
  let (m, e) ← e.linkNext m w.prev w.next
  let (m, e) ← e.linkPrev m w.next w.prev
  -- The removed waker may have been what the ones behind it were waiting for.
  if w.prev.isNone then e.wake fuel m else some (m, e)

def downgradeLock (fuel : ℕ) (m : Wakers K) (e : LockEntry) : Option (Wakers K × LockEntry) :=
  if e.state = .writeLock then { e with state := .locked }.wake fuel m else none

def pushTail (m : Wakers K) (e : LockEntry) (a : ℕ) (key : K) (target : LockState) :
    Option (Wakers K × LockEntry) :=
  let m : Wakers K := update m a (some
    { next := none, prev := e.tail, key, waker := .pending, targetState := target,
      isUpgrade := false })
  { e with tail := some a }.linkNext m e.tail (some a)

def pushHead (m : Wakers K) (e : LockEntry) (a : ℕ) (key : K) :
    Option (Wakers K × LockEntry) :=
  let m : Wakers K := update m a (some
    { next := e.head, prev := none, key, waker := .pending, targetState := .writeLock,
      isUpgrade := true })
  { e with head := some a }.linkPrev m e.head (some a)

end LockEntry

/-- The state behind the manager's mutex, with the wakers it points to;
`nextWaker` is the address of the next waker that is made. -/
structure Locks (K : Type) where
  keys : K → Option LockEntry
  wakers : Wakers K
  nextWaker : ℕ

namespace Locks

variable [DecidableEq K]

def new : Locks K := ⟨fun _ => none, fun _ => none, 0⟩

def set (L : Locks K) (key : K) (entry : Option LockEntry) (m : Wakers K) : Locks K :=
  { L with keys := update L.keys key entry, wakers := m }

/-- The waker's memory goes with the future that owned it. -/
def free (L : Locks K) (a : ℕ) : Locks K :=
  { L with wakers := update L.wakers a none }

def dropLock (L : Locks K) (key : K) (state : LockState) : Option (Locks K) := do
  let e ← L.keys key
  let (e, wake) ← match state with
    | .readLock =>
      if e.readCount = 0 then none
      else some ({ e with readCount := e.readCount - 1 }, e.readCount - 1 == 0)
    | .locked | .writeLock => some ({ e with state := .readLock }, true)
  if wake then do
    let (m, e) ← e.wake (L.nextWaker + 1) L.wakers
    some (L.set key (if e.canRemove then none else some e) m)
  else some (L.set key (some e) L.wakers)

def dropLocks (state : LockState) : List K → Locks K → Option (Locks K)
  | [], L => some L
  | key :: lockKeys, L => do
    let L ← L.dropLock key state
    dropLocks state lockKeys L

def dropReadLocks : List K → Locks K → Option (Locks K) := dropLocks .readLock

-- Treats `Locked` and `WriteLock` the same.
def dropWriteLocks : List K → Locks K → Option (Locks K) := dropLocks .writeLock

def downgradeLock (L : Locks K) (key : K) : Option (Locks K) := do
  let e ← L.keys key
  let (m, e) ← e.downgradeLock (L.nextWaker + 1) L.wakers
  some (L.set key (some e) m)

def downgradeLocks : List K → Locks K → Option (Locks K)
  | [], L => some L
  | key :: lockKeys, L => do
    let L ← L.downgradeLock key
    downgradeLocks lockKeys L

/-- One key of `lock`, under the mutex; the waker, if the lock has to be waited for. -/
def lockKey (L : Locks K) (key : K) (target : LockState) : Option (Locks K × Option ℕ) :=
  match L.keys key with
  | none =>
    let e := { readCount := if target = .readLock then 1 else 0, state := target,
               head := none, tail := none }
    some (L.set key (some e) L.wakers, none)
  | some e => do
    let allowed ← e.isAllowed L.wakers target e.head.isNone
    if allowed then
      let e :=
        if target = .readLock then { e with readCount := e.readCount + 1 }
        else { e with state := target }
      some (L.set key (some e) L.wakers, none)
    else do
      let (m, e) ← e.pushTail L.wakers L.nextWaker key target
      some ({ L.set key (some e) m with nextWaker := L.nextWaker + 1 }, some L.nextWaker)

def prepareKey (L : Locks K) (key : K) : Option (Locks K × Option ℕ) := do
  let e ← L.keys key
  if e.state = .locked then
    if e.readCount = 0 then
      some (L.set key (some { e with state := .writeLock }) L.wakers, none)
    else do
      let (m, e) ← e.pushHead L.wakers L.nextWaker key
      some ({ L.set key (some e) m with nextWaker := L.nextWaker + 1 }, some L.nextWaker)
  else none

/-- A poll of `wait`: done once the waker was woken, which lets go of it. -/
def poll (L : Locks K) (a : ℕ) : Option (Locks K × Bool) := do
  let w ← L.wakers a
  if w.waker = .woken then some (L.free a, true)
  else do
    let m ← L.wakers.modify a fun w => { w with waker := .registered }
    some ({ L with wakers := m }, false)

/-- The guard of `wait`, run when the future is dropped before it is done. -/
def dropWaiter (L : Locks K) (a : ℕ) : Option (Locks K) := do
  let w ← L.wakers a
  let L ←
    if w.waker = .woken then
      if w.isUpgrade then L.downgradeLock w.key else L.dropLock w.key w.targetState
    else do
      let e ← L.keys w.key
      let (m, e) ← e.removeWaker (L.nextWaker + 1) L.wakers a
      some (L.set w.key (some e) m)
  some (L.free a)

end Locks

/-- Where a task stands with its guard: still acquiring it, holding it, or
waiting in `commit_prepare` for the readers of its keys. -/
inductive Phase (K : Type) where
  | locking (todo : List K) (waiter : Option ℕ)
  | held
  | preparing (todo : List K) (waiter : Option ℕ)
  deriving DecidableEq, Repr

/-- A guard (a transaction has taken over the keys of its guard), with the
future that works on it if there is one. -/
structure Task (K : Type) where
  target : LockState
  lockKeys : List K
  phase : Phase K
  deriving DecidableEq, Repr

namespace Task

variable [DecidableEq K]

def lock [LinearOrder K] (target : LockState) (lockKeys : List K) : Task K :=
  let lockKeys := (lockKeys.insertionSort (· ≤ ·)).destutter (· ≠ ·)
  { target, lockKeys := [], phase := .locking lockKeys none }

def waiter (t : Task K) : Option ℕ :=
  match t.phase with
  | .locking _ waiter => waiter
  | .held => none
  | .preparing _ waiter => waiter

def run (L : Locks K) (t : Task K) : Option (Locks K × Task K) :=
  match t.phase with
  | .held => none
  | .locking [] _ => some (L, { t with phase := .held })
  | .locking (key :: todo) none => do
    let (L, waiter) ← L.lockKey key t.target
    match waiter with
    | none => some (L, { t with lockKeys := t.lockKeys ++ [key], phase := .locking todo none })
    | some a => some (L, { t with phase := .locking (key :: todo) (some a) })
  | .locking (key :: todo) (some a) => do
    let (L, ready) ← L.poll a
    if ready then
      some (L, { t with lockKeys := t.lockKeys ++ [key], phase := .locking todo none })
    else some (L, t)
  | .preparing [] _ => some (L, { t with phase := .held })
  | .preparing (key :: todo) none => do
    let (L, waiter) ← L.prepareKey key
    match waiter with
    | none => some (L, { t with phase := .preparing todo none })
    | some a => some (L, { t with phase := .preparing (key :: todo) (some a) })
  | .preparing (_ :: todo) (some a) => do
    let (L, ready) ← L.poll a
    if ready then some (L, { t with phase := .preparing todo none })
    else some (L, t)

def cancel (L : Locks K) (t : Task K) : Option (Locks K × Task K) := do
  let L ← match t.waiter with
    | none => some L
    | some a => L.dropWaiter a
  some (L, { t with phase := .held })

/-- Starts `commit_prepare`, which only the owner of a write guard can do. -/
def commitPrepare (L : Locks K) (t : Task K) : Option (Locks K × Task K) :=
  if t.phase = .held ∧ t.target ≠ .readLock then
    some (L, { t with phase := .preparing t.lockKeys none })
  else none

def downgradeLocks (L : Locks K) (t : Task K) : Option (Locks K × Task K) :=
  if t.phase = .held ∧ t.target ≠ .readLock then do
    let L ← L.downgradeLocks t.lockKeys
    some (L, t)
  else none

def drop (L : Locks K) (t : Task K) : Option (Locks K × Task K) :=
  if t.phase = .held then do
    let L ← if t.target = .readLock then L.dropReadLocks t.lockKeys
      else L.dropWriteLocks t.lockKeys
    some (L, { t with lockKeys := [] })
  else none

end Task

inductive Op where
  | run
  | cancel
  | commitPrepare
  | downgradeLocks
  | drop
  deriving DecidableEq, Repr

def Task.act [DecidableEq K] (L : Locks K) (t : Task K) : Op → Option (Locks K × Task K)
  | .run => t.run L
  | .cancel => t.cancel L
  | .commitPrepare => t.commitPrepare L
  | .downgradeLocks => t.downgradeLocks L
  | .drop => t.drop L

structure System (K : Type) where
  locks : Locks K
  tasks : List (Task K)

/-- A new call of `read_lock`, `txn_lock` or `write_lock`, or the next step of task `i`. -/
inductive Action (K : Type) where
  | lock (target : LockState) (lockKeys : List K)
  | act (i : ℕ) (op : Op)
  deriving DecidableEq, Repr

namespace System

variable [LinearOrder K]

def new : System K := ⟨Locks.new, []⟩

def step (s : System K) : Action K → Option (System K)
  | .lock target lockKeys => some { s with tasks := s.tasks ++ [Task.lock target lockKeys] }
  | .act i op => do
    let t ← s.tasks[i]?
    let (L, t) ← t.act s.locks op
    some { locks := L, tasks := s.tasks.set i t }

inductive Reachable : System K → Prop where
  | new : Reachable System.new
  | step {s s' : System K} (a : Action K) : Reachable s → s.step a = some s' → Reachable s'

end System

end Smos.Fxfs.LockManager
