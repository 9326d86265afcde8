import Smos.Archivist.System

/-!
What the shared buffer guarantees over its runs.

A run whose messages have at least one word keeps the ring a sequence of records.  Cursors then
account for every id once; that a snapshot ends where it should needs messages of two words.
-/
namespace Smos.Archivist

open Lib Lib.Bytes Log List

variable {w capacity pageSize : ℕ} {s : System} {inner : Inner} {log : List StoredRecord} {k : ℕ}
  {t : Tracked}

section Layout

/-- The ring is a sequence of records, each a word and a message whose header gives its length, and
the records of a container are those of its ids.  The next word is written at an aligned place. -/
structure Layout (inner : Inner) (records : List StoredRecord) : Prop where
  bytes : inner.buffer.read inner.tail (inner.head - inner.tail) = encodeAll records
  length_eq : ∀ r ∈ records, 8 ≤ r.bytes.length ∧ r.bytes.length = msgLen r.bytes
  tail_le : inner.tail ≤ inner.head
  fits : inner.head - inner.tail ≤ inner.buffer.len
  aligned : 8 ∣ inner.head
  ids : ∀ c info, inner.containers.get c = some info →
    idsOf c records = range' info.start (info.stop - info.start)
  registered : ∀ r ∈ records, (inner.containers.get r.container).isSome

structure NoPanic (inner : Inner) : Prop where
  pop : inner.pop.isSome
  ensureSpace : ∀ required, required ≤ inner.buffer.len → (inner.ensureSpace required).isSome
  ingest : ∀ msg c, PushOk 1 msg → (inner.ingest msg c).isSome
  readSocket : ∀ c closed datagrams, (∀ d ∈ datagrams, d.length ≤ maxDatagramLenBytes) →
    (Inner.readSocket c closed datagrams inner).isSome

theorem Sound.layout (hw : 1 ≤ w) (h : Sound w inner log k) : Layout inner (log.drop k) := by
  have htail := h.ring.tail_le_head
  have hfits := h.ring.fits
  refine ⟨?_, ?_, htail, by omega, h.ring.aligned, fun c info hget => (h.table.ids c info hget).2,
    h.table.registered⟩
  · have hsplit : encodeAll log = encodeAll (log.take k) ++ encodeAll (log.drop k) := by
      rw [← encodeAll_append, take_append_drop]
    have hlength := congrArg length hsplit
    rw [length_append] at hlength
    have htail_eq : inner.tail = (encodeAll (log.take k)).length := h.ring.tail_eq
    have hhead := h.ring.head_eq
    rw [Buffer.read_eq_slice h.ring.holds (Nat.le_refl _) (by omega), slice, hsplit, htail_eq,
      drop_left]
    exact take_of_length_le (by omega)
  · intro r hr
    have hok := h.ring.ok r (mem_of_mem_drop hr)
    have hlength := hok.length_ge
    exact ⟨by omega, hok.length_eq⟩

theorem Sound.noPanic (h : Sound 1 inner log k) : NoPanic inner := by
  refine ⟨?_, ?_, ?_, ?_⟩
  · rcases Nat.eq_or_lt_of_le h.ring.popped_le with heq | hlt
    · have hempty : inner.head = inner.tail := by
        rw [h.ring.head_eq, h.ring.tail_eq, heq, pos_length]
      rw [Inner.pop, if_pos hempty]
      rfl
    · obtain ⟨inner', r, -, hrun, -⟩ := pop_spec (Nat.le_refl 1) h hlt
      rw [hrun]
      rfl
  · intro required hrequired
    obtain ⟨inner', k', hrun, -⟩ := ensureSpace_spec (Nat.le_refl 1) h hrequired
    rw [hrun]
    rfl
  · intro msg c hmsg
    obtain ⟨inner', log', k', hrun, -⟩ := ingest_spec (Nat.le_refl 1) h hmsg c
    rw [hrun]
    rfl
  · intro c closed datagrams hdatagrams
    obtain ⟨close, inner', log', k', hrun, -⟩ :=
      @readSocket_spec 1 inner log k c datagrams (Nat.le_refl 1) closed h
        fun d hd => datagramOk_one (hdatagrams d hd)
    rw [hrun]
    rfl

/-- In every run in which each message that is pushed and not rejected has at least one word, the
ring is a sequence of the records of the containers and no operation on it panics. -/
theorem Reachable.integrity (h : Reachable 1 capacity pageSize s) :
    (∃ records, Layout s.inner records) ∧ NoPanic s.inner := by
  obtain ⟨log, k, hinv⟩ := h.inv (Nat.le_refl 1)
  exact ⟨⟨log.drop k, hinv.sound.layout (Nat.le_refl 1)⟩, hinv.sound.noPanic⟩

def oneContainer : Inner :=
  { Inner.new 65536 4096 with containers := ⟨[some .new], []⟩ }

theorem reachable_oneContainer (w : ℕ) : Reachable w 65536 4096 ⟨oneContainer, []⟩ :=
  .step .start (.newContainer (c := 0) rfl)

def twoWords : List UInt8 := 41 :: replicate 15 0

theorem Reachable.integrity_twoWords : ∃ inner, oneContainer.ingest twoWords 0 = some inner ∧
    (∃ records, Layout inner records) ∧ NoPanic inner := by
  have hstart := Reachable.integrity (reachable_oneContainer 1)
  have hmsg : PushOk 1 twoWords := fun _ _ _ => by decide
  obtain ⟨inner, hrun⟩ := Option.isSome_iff_exists.mp (hstart.2.ingest twoWords 0 hmsg)
  exact ⟨inner, hrun, Reachable.integrity
    (.step (reachable_oneContainer 1) (.pushBack twoWords 0 hmsg hrun))⟩

def noWords : List UInt8 := 9 :: replicate 7 0

/-- A message whose header gives no words is stored without its header. -/
theorem not_layout_noWords : ∃ s, Reachable 0 65536 4096 s ∧
    ¬ ∃ records, Layout s.inner records := by
  obtain ⟨inner, hrun, hhead⟩ : ∃ inner, oneContainer.ingest noWords 0 = some inner ∧
      inner.head - inner.tail = 8 :=
    ⟨Inner.commit oneContainer 0 .new 0, rfl, rfl⟩
  refine ⟨⟨inner, []⟩, .step (reachable_oneContainer 0)
    (.pushBack noWords 0 (fun _ _ _ => Nat.zero_le _) hrun), ?_⟩
  rintro ⟨records, hlayout⟩
  have hlength := congrArg length hlayout.bytes
  rw [Buffer.read, length_map, length_range, hhead] at hlength
  cases records with
  | nil => cases hlength
  | cons r rest =>
    have hr := (hlayout.length_eq r mem_cons_self).1
    have hcons : encodeAll (r :: rest) = r.encode ++ encodeAll rest := flatMap_cons
    rw [hcons, length_append, r.length_encode] at hlength
    omega

end Layout

section Delivery

def ReadsOk (w : ℕ) (reads : ℕ → List (List UInt8) × Bool) : Prop :=
  ∀ socket, ∀ d ∈ (reads socket).1, DatagramOk w d

/-- A poll of a cursor of a run returns, and accounts for the ids from its next one on: messages
that are returned have the bytes in the ring, those that are rolled out are no longer in the ring,
those that are skipped cannot be read, and there is nothing to return otherwise.  If all messages
have two words, or the cursor is a stream, it has accounted for all ids from the one it started
from and moves on.  If all messages have two words, a snapshot does not pass its end and does not
wait. -/
theorem Reachable.delivery (hw : 1 ≤ w) (h : Reachable w capacity pageSize s) (ht : t ∈ s.cursors)
    {reads : ℕ → List (List UInt8) × Bool} (hreads : ReadsOk w reads) :
    ∃ result cursor' inner' records info,
      s.inner.pollNext t.cursor reads = some (result, cursor', inner') ∧
      Layout inner' records ∧ inner'.containers.get t.cursor.containerId = some info ∧
      cursor'.containerId = t.cursor.containerId ∧
      cursor'.end_ = t.cursor.end_.fix info.stop ∧
      Accounted records info (t.cursor.end_.fix info.stop).endId t.cursor result cursor'.nextId ∧
      (2 ≤ w ∨ t.cursor.end_ = .stream →
        t.startId + t.ledger.length = t.cursor.nextId ∧ t.cursor.nextId ≤ cursor'.nextId) ∧
      (2 ≤ w → ∀ e, cursor'.end_ = .snapshot (some e) →
        cursor'.nextId ≤ e ∧ result ≠ .pending) := by
  obtain ⟨log, k, hinv⟩ := h.inv hw
  obtain ⟨result, cursor', inner', log', k', info, hrun, hprogress, hget, hok, hmono, hends⟩ :=
    hinv.pollNext_spec hw ht hreads
  refine ⟨result, cursor', inner', log'.drop k', info, hrun, hprogress.sound.layout hw, hget,
    hok.containerId, hok.end_, hok.accounted, ?_, ?_⟩
  · intro hcase
    exact ⟨(hinv.tracked t ht).ledger hcase, hmono hcase⟩
  · intro hw₂ e he
    exact (hends hw₂ e he).2

def idle : ℕ → List (List UInt8) × Bool := fun _ => ([], false)

theorem readsOk_idle (w : ℕ) : ReadsOk w idle := by
  intro socket d hd
  cases hd

/-- The first poll of a snapshot of a container with one message. -/
def polledOnce : Option (PollResult × Cursor × Inner) := do
  let inner ← oneContainer.ingest twoWords 0
  let cursor ← (inner.cursor 0 .snapshot).1
  (inner.cursor 0 .snapshot).2.pollNext cursor idle

/-- The message is returned, and it is the last one. -/
theorem Reachable.delivery_twoWords : ∃ inner cursor inner' cursor' inner'' records info,
    oneContainer.ingest twoWords 0 = some inner ∧
    inner.cursor 0 .snapshot = (some cursor, inner') ∧
    inner'.pollNext cursor idle = some (.next twoWords, cursor', inner'') ∧
    Layout inner'' records ∧ inner''.containers.get cursor.containerId = some info ∧
    Accounted records info (cursor.end_.fix info.stop).endId cursor (.next twoWords)
      cursor'.nextId ∧
    cursor'.end_ = .snapshot (some 1) ∧ cursor'.nextId ≤ 1 := by
  have hmsg : PushOk 2 twoWords := fun _ _ _ => by decide
  have heval : polledOnce.map (fun polled => (polled.1, polled.2.1.end_)) =
      some (.next twoWords, .snapshot (some 1)) := by decide +kernel
  obtain ⟨⟨result, cursor', inner''⟩, hpolled, heq⟩ := Option.map_eq_some_iff.mp heval
  obtain ⟨rfl, hend⟩ := Prod.mk.inj heq
  rw [polledOnce] at hpolled
  obtain ⟨inner, hpush, hpolled⟩ := Option.bind_eq_some_iff.mp hpolled
  obtain ⟨cursor, hcursor, hpoll⟩ := Option.bind_eq_some_iff.mp hpolled
  have hreach := Reachable.step (.step (reachable_oneContainer 2)
    (.pushBack twoWords 0 hmsg hpush)) (.cursor 0 .snapshot (Prod.ext hcursor rfl))
  obtain ⟨_, _, _, records, info, hrun, hlayout, hget, -, -, haccounted, -, hends⟩ :=
    Reachable.delivery (by decide) hreach mem_cons_self (readsOk_idle 2)
  rw [hpoll] at hrun
  cases hrun
  exact ⟨inner, cursor, _, cursor', inner'', records, info, hpush, Prod.ext hcursor rfl, hpoll,
    hlayout, hget, haccounted, hend, (hends (Nat.le_refl 2) 1 hend).1⟩

/-- A message of one word, which has no timestamp. -/
def oneWord : List UInt8 := 25 :: replicate 7 0

/-- A snapshot over a message of two words and one of one word, after its first poll. -/
def polledSnapshot : Option (PollResult × Cursor × Inner) := do
  let inner ← oneContainer.ingest twoWords 0
  let inner ← inner.ingest oneWord 0
  let cursor ← (inner.cursor 0 .snapshot).1
  (inner.cursor 0 .snapshot).2.pollNext cursor idle

/-- A snapshot that skips the last message before its end waits for the next one. -/
theorem snapshot_pending_oneWord : ∃ s t, Reachable 1 65536 4096 s ∧ t ∈ s.cursors ∧
    t.cursor.end_ = .snapshot (some 2) ∧
    ∃ cursor' inner', s.inner.pollNext t.cursor idle = some (.pending, cursor', inner') := by
  have heval : polledSnapshot.bind (fun polled => (polled.2.2.pollNext polled.2.1 idle).map
      fun again => (polled.2.1.end_, again.1)) = some (.snapshot (some 2), .pending) := by
    decide +kernel
  obtain ⟨⟨result, cursor', inner'⟩, hpolled, hagain⟩ := Option.bind_eq_some_iff.mp heval
  obtain ⟨⟨result', cursor'', inner''⟩, hrun, heq⟩ := Option.map_eq_some_iff.mp hagain
  rw [polledSnapshot] at hpolled
  obtain ⟨inner₁, hpush₁, hpolled⟩ := Option.bind_eq_some_iff.mp hpolled
  obtain ⟨inner₂, hpush₂, hpolled⟩ := Option.bind_eq_some_iff.mp hpolled
  obtain ⟨cursor, hcursor, hpoll⟩ := Option.bind_eq_some_iff.mp hpolled
  obtain ⟨hend, hpending⟩ := Prod.mk.inj heq
  have hmsg₁ : PushOk 1 twoWords := fun _ _ _ => by decide
  have hmsg₂ : PushOk 1 oneWord := fun _ _ _ => by decide
  have hreach := Reachable.step (.step (.step (reachable_oneContainer 1)
    (.pushBack twoWords 0 hmsg₁ hpush₁)) (.pushBack oneWord 0 hmsg₂ hpush₂))
    (.cursor 0 .snapshot (Prod.ext hcursor rfl))
  refine ⟨_, _, .step hreach (.poll [] _ [] idle rfl (readsOk_idle 1) hpoll), mem_cons_self,
    hend, cursor'', inner'', ?_⟩
  rw [← hpending]
  exact hrun

end Delivery

end Smos.Archivist
