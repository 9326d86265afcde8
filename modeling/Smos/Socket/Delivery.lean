import Smos.Socket.DatagramMode

/-!
Whole runs of a socket buffer.

A run is a list of calls on a new chain that is used in one mode, with any of the allocations and
copies failing.  Beside the chain the run keeps what its calls report: the bytes that were accepted
and delivered in stream mode, the packets that are waiting in datagram mode.
-/
namespace Smos.Socket

open MBufChain

/-- What `Read` and `Peek` of a chain do: they have the same status and deliver the same bytes,
those at the front of `source`, and `Peek` changes nothing.  They deliver all that was asked for
unless a copy fails. -/
def ReadsFrom (c : MBufChain) (datagram : Bool) (source : List UInt8) : Prop :=
  ∀ len copyOk, ∃ status out c', c.read len datagram copyOk = some (status, out, c') ∧
    c.peek len datagram copyOk = some (status, out, c) ∧ out <+: source.take len ∧
    (status = .ok → out = source.take len) ∧ ((∀ i, copyOk i = true) → status = .ok)

section Stream

inductive StreamCall
  | write (src : List UInt8) (firstMemory : Bool) (hasMemory copyOk : ℕ → Bool)
  | read (len : ℕ) (copyOk : ℕ → Bool)
  | peek (len : ℕ) (copyOk : ℕ → Bool)

/-- A chain, the bytes that its writes count as written and those that its reads delivered. -/
structure StreamRun where
  chain : MBufChain
  accepted : List UInt8
  delivered : List UInt8

namespace StreamRun

def step (s : StreamRun) : StreamCall → Option StreamRun
  | .write src firstMemory hasMemory copyOk => do
    let (_, written, chain) ← s.chain.writeStream src firstMemory hasMemory copyOk
    some { s with chain, accepted := s.accepted ++ src.take written }
  | .read len copyOk => do
    let (_, out, chain) ← s.chain.read len false copyOk
    some { s with chain, delivered := s.delivered ++ out }
  | .peek len copyOk => do
    let (_, _, chain) ← s.chain.peek len false copyOk
    some { s with chain }

def run (calls : List StreamCall) : Option StreamRun := calls.foldlM step ⟨new, [], []⟩

/-- Nothing is lost or repeated, and the size is that of the bytes held.  A write accepts the bytes
that fit unless an allocation or a copy fails. -/
structure Sound (s : StreamRun) : Prop where
  in_order : s.delivered ++ s.chain.held = s.accepted
  size_eq : s.chain.size = s.chain.held.length
  size_le : s.chain.size ≤ kSizeMax
  reads : ReadsFrom s.chain false s.chain.held
  writes : ∀ src hasMemory copyOk, (∀ i, hasMemory i = true) → (∀ i, copyOk i = true) →
    ∃ status c', s.chain.writeStream src true hasMemory copyOk =
      some (status, min src.length (kSizeMax - s.chain.size), c')

structure Inv (s : StreamRun) : Prop where
  valid : Valid s.chain
  in_order : s.delivered ++ s.chain.held = s.accepted

/-- Every call returns and keeps the invariant. -/
theorem Inv.step {s : StreamRun} (h : Inv s) (call : StreamCall) :
    ∃ s', s.step call = some s' ∧ Inv s' := by
  cases call with
  | write src firstMemory hasMemory copyOk =>
    obtain ⟨status, n, c', hwrite, -, hc', hheld, -⟩ :=
      h.valid.writeStream src firstMemory hasMemory copyOk
    refine ⟨{ s with chain := c', accepted := s.accepted ++ src.take n }, ?_, hc', ?_⟩
    · simp [StreamRun.step, hwrite]
    · rw [hheld, ← List.append_assoc, h.in_order]
  | read len copyOk =>
    obtain ⟨c', hread, hc', hheld⟩ := h.valid.read len copyOk
    refine ⟨{ s with
      chain := c', delivered := s.delivered ++ (s.chain.delivery len false copyOk).2 }, ?_, hc', ?_⟩
    · simp [StreamRun.step, hread]
    · rw [List.append_assoc, hheld, h.in_order]
  | peek len copyOk =>
    refine ⟨s, ?_, h⟩
    simp [StreamRun.step, peek_eq]

theorem Inv.sound {s : StreamRun} (h : Inv s) : Sound s where
  in_order := h.in_order
  size_eq := h.valid.length_held.symm
  size_le := h.valid.size_le
  reads len copyOk := by
    obtain ⟨c', hread, -, -⟩ := h.valid.read len copyOk
    obtain ⟨hfront, hall⟩ := h.valid.delivery_front len copyOk
    exact ⟨_, _, c', hread, peek_eq _ _ _ _, hfront, hall, delivery_ok _ _ _⟩
  writes src hasMemory copyOk hmemory hcopy := by
    obtain ⟨status, n, c', hwrite, -, -, -, hcount⟩ :=
      h.valid.writeStream src true hasMemory copyOk
    exact ⟨status, c', hcount rfl hmemory hcopy ▸ hwrite⟩

end StreamRun

end Stream

section Datagram

inductive DatagramCall
  | write (src : List UInt8) (hasMemory copyOk : ℕ → Bool)
  | read (len : ℕ) (copyOk : ℕ → Bool)
  | peek (len : ℕ) (copyOk : ℕ → Bool)

/-- A chain and the packets that were written to it and that no read of some bytes has met. -/
structure DatagramRun where
  chain : MBufChain
  waiting : List (List UInt8)

namespace DatagramRun

def step (s : DatagramRun) : DatagramCall → Option DatagramRun
  | .write src hasMemory copyOk =>
    let (status, _, chain) := s.chain.writeDatagram src hasMemory copyOk
    some { chain, waiting := if status = .ok then s.waiting ++ [src] else s.waiting }
  | .read len copyOk => do
    let (_, _, chain) ← s.chain.read len true copyOk
    some { chain, waiting := if len = 0 then s.waiting else s.waiting.tail }
  | .peek len copyOk => do
    let (_, _, chain) ← s.chain.peek len true copyOk
    some { s with chain }

def run (calls : List DatagramCall) : Option DatagramRun := calls.foldlM step ⟨new, []⟩

/-- The chain holds the waiting packets and no other bytes.  A read delivers the front of the
oldest one, and one of some bytes leaves the others whatever its status; a write that fails leaves
all of them and adds none, and a packet that fits is only refused if an allocation or a copy fails.
-/
structure Sound (s : DatagramRun) : Prop where
  packets_eq : s.chain.packets = s.waiting
  held_eq : s.chain.held = s.waiting.flatten
  size_eq : s.chain.size = s.chain.held.length
  size_le : s.chain.size ≤ kSizeMax
  reads : ReadsFrom s.chain true (s.waiting.headD [])
  removes : ∀ len copyOk status out c', 0 < len →
    s.chain.read len true copyOk = some (status, out, c') → c'.packets = s.waiting.tail
  fails : ∀ src hasMemory copyOk status written c', status ≠ .ok →
    s.chain.writeDatagram src hasMemory copyOk = (status, written, c') → SameQueue s.chain c'
  writes : ∀ src hasMemory copyOk, (∀ i, hasMemory i = true) → (∀ i, copyOk i = true) →
    0 < src.length → src.length + s.chain.size ≤ kSizeMax →
    (s.chain.writeDatagram src hasMemory copyOk).1 = .ok

theorem step_datagram {s : DatagramRun} (h : Datagram s.chain s.waiting) (call : DatagramCall) :
    ∃ s', s.step call = some s' ∧ Datagram s'.chain s'.waiting := by
  cases call with
  | write src hasMemory copyOk =>
    have hwrite := h.writeDatagram src hasMemory copyOk
    simp only [step]
    generalize s.chain.writeDatagram src hasMemory copyOk = w at hwrite
    obtain ⟨status, written, c'⟩ := w
    refine ⟨_, rfl, ?_⟩
    rcases hwrite with ⟨hok, hpush⟩ | ⟨hfail, -, hkeep⟩
    · simpa [show status = .ok from hok] using hpush
    · simpa [show status ≠ .ok from hfail] using hkeep
  | read len copyOk =>
    obtain ⟨c', hread, hc'⟩ := h.read len copyOk
    refine ⟨⟨c', if len = 0 then s.waiting else s.waiting.tail⟩, ?_, hc'⟩
    simp [step, hread]
  | peek len copyOk =>
    refine ⟨s, ?_, h⟩
    simp [step, peek_eq]

theorem sound_of_datagram {s : DatagramRun} (h : Datagram s.chain s.waiting) : Sound s where
  packets_eq := h.packets_eq
  held_eq := by rw [held, content, h.cursor_eq, List.drop_zero, h.packed.bytes_eq]
  size_eq := h.length_held.symm
  size_le := h.size_le
  reads len copyOk := by
    obtain ⟨c', hread, -⟩ := h.read len copyOk
    obtain ⟨hfront, hall⟩ := h.delivery_front len copyOk
    exact ⟨_, _, c', hread, peek_eq _ _ _ _, hfront, hall, delivery_ok _ _ _⟩
  removes := by
    intro len copyOk status out c' hlen hread
    obtain ⟨d, hd, hdatagram⟩ := h.read len copyOk
    rw [hread, Option.some.injEq, Prod.mk.injEq, Prod.mk.injEq] at hd
    rw [hd.2.2, hdatagram.packets_eq, if_neg (Nat.ne_of_gt hlen)]
  fails := by
    intro src hasMemory copyOk status written c' hstatus hwrite
    have hwritten := h.writeDatagram src hasMemory copyOk
    rw [hwrite] at hwritten
    rcases hwritten with ⟨hok, -⟩ | ⟨-, hsame, -⟩
    · exact absurd hok hstatus
    · exact hsame
  writes _ _ _ hmemory hcopy hpos hfit := writeDatagram_ok hmemory hcopy hpos hfit

end DatagramRun

end Datagram

/-- What every step keeps holds at the end of a run that cannot stop on the way. -/
theorem foldlM_total {σ κ : Type} {step : σ → κ → Option σ} {Inv : σ → Prop}
    (hstep : ∀ s call, Inv s → ∃ s', step s call = some s' ∧ Inv s') (calls : List κ) {s : σ}
    (h : Inv s) : ∃ s', calls.foldlM step s = some s' ∧ Inv s' := by
  induction calls generalizing s with
  | nil => exact ⟨s, rfl, h⟩
  | cons call rest ih =>
    obtain ⟨s₁, hfirst, h₁⟩ := hstep s call h
    obtain ⟨s', hrest, h'⟩ := ih h₁
    refine ⟨s', ?_, h'⟩
    rw [List.foldlM_cons, hfirst]
    exact hrest

/-- Every run of calls in one mode returns from all of them and is sound. -/
theorem runs_sound :
    (∀ calls, ∃ s, StreamRun.run calls = some s ∧ s.Sound) ∧
      ∀ calls, ∃ s, DatagramRun.run calls = some s ∧ s.Sound := by
  constructor
  · intro calls
    obtain ⟨s, hrun, hinv⟩ := foldlM_total (fun s call (h : StreamRun.Inv s) => h.step call) calls
      (s := ⟨new, [], []⟩) ⟨Valid.new, rfl⟩
    exact ⟨s, hrun, hinv.sound⟩
  · intro calls
    obtain ⟨s, hrun, hdatagram⟩ := foldlM_total
      (fun s call (h : Datagram s.chain s.waiting) => DatagramRun.step_datagram h call) calls
      (s := ⟨new, []⟩) Datagram.new
    exact ⟨s, hrun, DatagramRun.sound_of_datagram hdatagram⟩

end Smos.Socket
