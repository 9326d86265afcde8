import Smos.Vsock.Connection

/-!
Flow control over whole runs of a read-write connection.

A run interleaves packets sent to the guest, packets of the guest, credit updates, reads of the
socket's peer and its closing.  The counts of bytes are kept beside the connection without a
bound, and the connection's counters are these counts modulo `2 ^ 32`.
-/
namespace Smos.Vsock

open Lib.Counter ReadWrite Nat

/-- A header that was filled with the connection's credit, with the count of bytes that had left the
socket by then and whether its peer had been closed. -/
structure Report where
  header : VirtioVsockHeader
  forwarded : ℕ
  closed : Bool

/-- The header of a report has the count of the bytes that had left the socket when it was made, and
the maximum of the socket's buffer while there was a peer. -/
structure Report.Exact (max : ℕ) (r : Report) : Prop where
  alloc : r.header.bufAlloc.toNat = if r.closed then 0 else max
  fwd : r.header.fwdCnt = counter 32 r.forwarded

/-- A connection with what was counted about it: the bytes sent to the guest, the bytes that the
guest's last report acknowledges, the buffer of that report, the bytes received from the guest,
the bytes of them that have left the socket, whether the socket's peer is closed, and the reports
made to the guest, the latest first. -/
structure Conn where
  state : ReadWrite
  sent : ℕ
  acked : ℕ
  alloc : U32
  received : ℕ
  drained : ℕ
  closed : Bool
  reports : List Report

def takenBytes : List (Option (ℕ × Option ℕ)) → ℕ
  | some (length, some written) :: rest =>
    if written = length then length + takenBytes rest else 0
  | _ => 0

namespace Conn

variable {info : Except Status SocketInfo} {input : RxInput} {op : OpType}
  {packet : Option VirtioVsockHeader} {s s' : ReadWrite}

/-- `SocketDispatcher::GetInfo`: the maximum of the peer's buffer and the bytes that the peer has
not read, and nothing once the peer is closed. -/
def socketInfo (c : Conn) (max : ℕ) : SocketInfo :=
  if c.closed then { txBufMax := 0, txBufSize := 0 }
  else { txBufMax := max, txBufSize := c.received - c.drained }

def Answers (c : Conn) (max : ℕ) (info : Except Status SocketInfo) : Prop :=
  ∀ i, info = .ok i → i = c.socketInfo max

def report (c : Conn) (header : Option VirtioVsockHeader) : List Report :=
  (header.toList.map fun h => { header := h, forwarded := c.drained, closed := c.closed }) ++
    c.reports

inductive Step (max : ℕ) : Conn → Conn → Prop
  | send {c : Conn} {input : RxInput} {header : VirtioVsockHeader} {s : ReadWrite}
      (hinfo : c.Answers max input.info)
      (hrun : c.state.handleRxChain input = some (.ok (some header, s))) :
      Step max c { c with
        state := s, sent := c.sent + header.len.toNat, reports := c.report (some header) }
  | receive {c : Conn} {op : OpType} {header : VirtioVsockHeader} {input : TxInput} {fwd : ℕ}
      {packet : Option VirtioVsockHeader} {s : ReadWrite}
      (hinfo : c.Answers max input.info) (hopen : c.state.connFlags.shutdownSend = false)
      (hfwd : header.fwdCnt = counter 32 fwd) (hback : c.acked ≤ fwd) (hpass : fwd ≤ c.sent)
      -- a write to a closed peer fails
      (hpeer : c.closed = true → takenBytes input.ranges = 0)
      (hrun : c.state.handleTxChain op header input = some (.ok (packet, s))) :
      Step max c { c with
        state := s, acked := fwd, alloc := header.bufAlloc
        received := c.received + takenBytes input.ranges, reports := c.report packet }
  | ignore {c : Conn} {op : OpType} {header : VirtioVsockHeader} {input : TxInput}
      {packet : Option VirtioVsockHeader} {s : ReadWrite}
      (hclosed : c.state.connFlags.shutdownSend = true)
      (hrun : c.state.handleTxChain op header input = some (.ok (packet, s))) :
      Step max c { c with state := s }
  | update {c : Conn} {info : Except Status SocketInfo} {packet : VirtioVsockHeader}
      {s : ReadWrite} (hinfo : c.Answers max info)
      (hrun : c.state.sendCreditUpdate info = .ok (packet, s)) :
      Step max c { c with state := s, reports := c.report (some packet) }
  | drain {c : Conn} (k : ℕ) (hk : c.drained + k ≤ c.received) :
      Step max c { c with drained := c.drained + k }
  -- the bytes that were not read are gone with the peer
  | close {c : Conn} : Step max c { c with closed := true, drained := c.received }
  | flags {c : Conn} (flags : VirtioVsockFlags) (leeway : ℕ) :
      Step max c { c with state := { c.state with
        connFlags := c.state.connFlags.union flags, txShutdownLeeway := leeway } }

/-- A connection whose first report from the guest acknowledges nothing, since nothing was sent. -/
inductive Initial : Conn → Prop
  | intro {key : VsockConnectionKey} {header : VirtioVsockHeader} {now : ℕ}
      (hfwd : header.fwdCnt = counter 32 0) :
      Initial { state := new key header now, sent := 0, acked := 0
                alloc := header.bufAlloc, received := 0, drained := 0, closed := false
                reports := [] }

def Reachable (max : ℕ) (c : Conn) : Prop :=
  ∃ c₀, Initial c₀ ∧ Relation.ReflTransGen (Step max) c₀ c

/-- The counters are the counts modulo `2 ^ 32`, and every report is exact. -/
structure Counted (max : ℕ) (c : Conn) : Prop where
  rx : c.state.credit.rxCount = counter 32 c.sent
  fwd : c.state.credit.guestFwdCount = counter 32 c.acked
  alloc : c.state.credit.guestBufAlloc = c.alloc
  acked_le : c.acked ≤ c.sent
  tx : c.state.credit.txCount = counter 32 c.received
  drained_le : c.drained ≤ c.received
  closed_drained : c.closed = true → c.drained = c.received
  reported : ∀ r ∈ c.reports, r.Exact max ∧ r.forwarded ≤ c.drained
  last : ∀ r, c.reports.head? = some r →
    c.state.credit.lastReportedTotalBuf = r.header.bufAlloc ∧
    c.state.credit.lastReportedFwdCount = r.header.fwdCnt

variable {max : ℕ} {c c' : Conn} {header : VirtioVsockHeader}
  {ranges : List (Option (ℕ × Option ℕ))}

/-- Filling a header changes its credit and the last report only. -/
theorem writeCredit_ok {credit credit' : ConnectionCredit} {header header' : VirtioVsockHeader}
    (h : credit.writeCredit info header = .ok (credit', header')) :
    header' = { header with bufAlloc := header'.bufAlloc, fwdCnt := header'.fwdCnt } ∧
    credit' = { credit with
      lastReportedTotalBuf := header'.bufAlloc, lastReportedFwdCount := header'.fwdCnt } ∧
    ∃ i, info = .ok i ∧ i.txBufMax < 2 ^ 32 ∧ header'.bufAlloc = counter 32 i.txBufMax ∧
      header'.fwdCnt = credit.txCount - counter 32 i.txBufSize := by
  cases info with
  | error status => cases h
  | ok i =>
    simp only [ConnectionCredit.writeCredit] at h
    split_ifs at h with hmax hsize
    cases h
    exact ⟨rfl, rfl, i, rfl, Nat.not_le.mp hmax, rfl, rfl⟩

/-- A header that is filled with the socket's answer is exact. -/
theorem Counted.exact {credit credit' : ConnectionCredit} {header header' : VirtioVsockHeader}
    (h : Counted max c) (hinfo : c.Answers max info)
    (htx : credit.txCount = counter 32 c.received)
    (hwrite : credit.writeCredit info header = .ok (credit', header')) :
    Report.Exact max { header := header', forwarded := c.drained, closed := c.closed } := by
  obtain ⟨-, -, i, hi, hmax, halloc, hfwd⟩ := writeCredit_ok hwrite
  have hanswer := hinfo i hi
  rw [htx] at hfwd
  unfold socketInfo at hanswer
  cases hclosed : c.closed with
  | false =>
    simp only [hclosed, Bool.false_eq_true, if_false] at hanswer
    subst hanswer
    constructor
    · change header'.bufAlloc.toNat = max
      rw [halloc, counter, BitVec.toNat_ofNat, mod_eq_of_lt hmax]
    · change header'.fwdCnt = _
      rw [hfwd, counter_sub (sub_le _ _), Nat.sub_sub_self h.drained_le]
  | true =>
    simp only [hclosed, if_true] at hanswer
    subst hanswer
    constructor
    · change header'.bufAlloc.toNat = 0
      rw [halloc]
      rfl
    · change header'.fwdCnt = _
      rw [hfwd, counter_sub (Nat.zero_le _), Nat.sub_zero, h.closed_drained hclosed]

/-- What filling a header adds to the reports. -/
theorem Counted.report (h : Counted max c) (s : ReadWrite)
    (hexact : Report.Exact max { header := header, forwarded := c.drained, closed := c.closed })
    (hlast : s.credit.lastReportedTotalBuf = header.bufAlloc ∧
      s.credit.lastReportedFwdCount = header.fwdCnt) :
    (∀ r ∈ c.report (some header), r.Exact max ∧ r.forwarded ≤ c.drained) ∧
    ∀ r, (c.report (some header)).head? = some r →
      s.credit.lastReportedTotalBuf = r.header.bufAlloc ∧
      s.credit.lastReportedFwdCount = r.header.fwdCnt := by
  constructor
  · exact List.forall_mem_cons.mpr ⟨⟨hexact, Nat.le_refl _⟩, h.reported⟩
  · intro r hr
    cases hr
    exact hlast

/-- What a sent packet tells: its length is within the credit that the guest has left, and only
the count of sent bytes and the report move. -/
theorem handleRxChain_sent
    (h : s.handleRxChain input = some (.ok (some header, s'))) :
    ∃ count credit' header₀, count ≤ s.credit.peerFreeBytes.toNat ∧
      header₀.len = BitVec.ofNat 32 count ∧
      (s.credit.incrementRxCount (BitVec.ofNat 32 count)).writeCredit input.info header₀ =
        .ok (credit', header) ∧
      s' = { s with credit := credit' } := by
  unfold handleRxChain at h
  split at h
  case h_1 => cases h
  case h_2 chainBytes _ =>
    split at h
    case isTrue => cases h
    case isFalse =>
      split at h
      case h_1 => cases h
      case h_2 bytesOnSocket _ =>
        dsimp only at h
        split at h
        case isTrue => cases h
        case isFalse =>
          split at h
          case h_1 => cases h
          case h_2 credit' header' hwrite =>
            split at h
            case isFalse => cases h
            case isTrue =>
              split at h
              case h_1 => cases h
              case h_2 => cases h
              case h_3 =>
                cases h
                exact ⟨_, credit', _, Nat.min_le_left _ _, rfl, hwrite, rfl⟩

/-- A packet never exceeds the credit that the guest has left, whatever the socket answers. -/
theorem Counted.sent_le (h : Counted max c)
    (hrun : c.state.handleRxChain input = some (.ok (some header, s)))
    (hwithin : c.sent - c.acked ≤ c.alloc.toNat) :
    c.sent + header.len.toNat - c.acked ≤ c.alloc.toNat := by
  obtain ⟨count, credit', header₀, hcount, hlen, hwrite, -⟩ := handleRxChain_sent hrun
  obtain ⟨hheader, -, -⟩ := writeCredit_ok hwrite
  have hfree : c.state.credit.peerFreeBytes.toNat = c.alloc.toNat - (c.sent - c.acked) := by
    rw [ConnectionCredit.peerFreeBytes, h.rx, h.fwd, h.alloc]
    exact toNat_credit h.acked_le hwithin
  have hlen' : header.len.toNat ≤ count := by
    rw [hheader]
    rw [hlen]
    exact mod_le _ _
  omega

theorem Counted.send (h : Counted max c) (hinfo : c.Answers max input.info)
    (hrun : c.state.handleRxChain input = some (.ok (some header, s))) :
    Counted max { c with
      state := s, sent := c.sent + header.len.toNat, reports := c.report (some header) } := by
  obtain ⟨count, credit', header₀, -, hlen, hwrite, rfl⟩ := handleRxChain_sent hrun
  obtain ⟨hheader, hcredit, -⟩ := writeCredit_ok hwrite
  have hlen' : header.len = BitVec.ofNat 32 count := by
    rw [hheader]
    exact hlen
  have htx : (c.state.credit.incrementRxCount (BitVec.ofNat 32 count)).txCount =
      counter 32 c.received := h.tx
  obtain ⟨hreported, hlast⟩ := h.report { c.state with credit := credit' }
    (h.exact hinfo htx hwrite) (by rw [hcredit]; exact ⟨rfl, rfl⟩)
  refine ⟨?_, ?_, ?_, ?_, ?_, h.drained_le, h.closed_drained, hreported, hlast⟩
  · rw [hcredit, hlen']
    change c.state.credit.rxCount + _ = _
    rw [h.rx, counter_add]
  · rw [hcredit]
    exact h.fwd
  · rw [hcredit]
    exact h.alloc
  · exact le_add_right_of_le h.acked_le
  · rw [hcredit]
    exact h.tx

theorem Counted.update {packet : VirtioVsockHeader} (h : Counted max c) (hinfo : c.Answers max info)
    (hrun : c.state.sendCreditUpdate info = .ok (packet, s)) :
    Counted max { c with state := s, reports := c.report (some packet) } := by
  unfold sendCreditUpdate at hrun
  split at hrun
  case h_1 => cases hrun
  case h_2 credit' packet' hwrite =>
    obtain ⟨-, hcredit, -⟩ := writeCredit_ok hwrite
    obtain ⟨halloc, hfwd⟩ := h.exact hinfo h.tx hwrite
    cases hrun
    have hlast : credit'.lastReportedTotalBuf = packet'.bufAlloc ∧
        credit'.lastReportedFwdCount = packet'.fwdCnt := by
      rw [hcredit]
      exact ⟨rfl, rfl⟩
    obtain ⟨hreported, hlast⟩ := @Counted.report max c
      { packet' with op := .creditUpdate } h { c.state with credit := credit' } ⟨halloc, hfwd⟩ hlast
    refine ⟨?_, ?_, ?_, h.acked_le, ?_, h.drained_le, h.closed_drained, hreported, hlast⟩
    · rw [hcredit]
      exact h.rx
    · rw [hcredit]
      exact h.fwd
    · rw [hcredit]
      exact h.alloc
    · rw [hcredit]
      exact h.tx

/-- The guest's report is read first. -/
theorem Counted.readCredit {fwd : ℕ} (h : Counted max c) (hfwd : header.fwdCnt = counter 32 fwd)
    (hpass : fwd ≤ c.sent) :
    Counted max { c with
      state := { c.state with credit := c.state.credit.readCredit header }
      acked := fwd, alloc := header.bufAlloc } :=
  { h with fwd := hfwd, alloc := rfl, acked_le := hpass }

theorem sendHalfShutdownPacket_credit (s : ReadWrite) :
    s.sendHalfShutdownPacket.credit = s.credit := by
  unfold sendHalfShutdownPacket
  split <;> rfl

/-- Draining the ranges of a chain moves the count of received bytes only. -/
theorem drainRanges_credit {now : ℕ} {completed : Bool} {n : ℕ}
    (htx : s.credit.txCount = counter 32 n)
    (h : drainRanges now completed s ranges = some (.ok s')) :
    s'.credit = { s.credit with txCount := counter 32 (n + takenBytes ranges) } := by
  fun_induction drainRanges now completed s ranges generalizing n with
  | case1 s =>
    cases completed with
    | false => cases h
    | true =>
      cases h
      rw [takenBytes, Nat.add_zero, ← htx]
      intro _ _ _ h
      cases h
  | case2 => cases h
  | case3 =>
    cases h
    rw [sendHalfShutdownPacket_credit, takenBytes, Nat.add_zero, ← htx]
    intro _ _ _ h
    cases h
  | case4 => cases h
  | case5 => cases h
  | case6 s length written rest hwritten hlength ih =>
    have hnext : counter 32 n + BitVec.ofNat 32 length = counter 32 (n + length) := by
      rw [counter_add, BitVec.toNat_ofNat, mod_eq_of_lt (by omega)]
    have hcredit := ih (n := n + length) (by
      change s.credit.txCount + _ = _
      rw [htx, hnext]) h
    rw [hcredit, takenBytes, if_pos (by simpa using hwritten), Nat.add_assoc]
    rfl

theorem Counted.drainRanges {now : ℕ} {completed : Bool}
    (h : Counted max c) (hrun : drainRanges now completed c.state ranges = some (.ok s))
    (hpeer : c.closed = true → takenBytes ranges = 0) :
    Counted max { c with state := s, received := c.received + takenBytes ranges } := by
  have hcredit := drainRanges_credit h.tx hrun
  refine ⟨?_, ?_, ?_, h.acked_le, ?_, le_add_right_of_le h.drained_le, ?_, h.reported, ?_⟩
  · rw [hcredit]
    exact h.rx
  · rw [hcredit]
    exact h.fwd
  · rw [hcredit]
    exact h.alloc
  · rw [hcredit]
  · intro hclosed
    change c.drained = c.received + takenBytes ranges
    rw [hpeer hclosed, Nat.add_zero, h.closed_drained hclosed]
  · rw [hcredit]
    exact h.last

/-- How a packet of the guest is received: its credit is read, a request is answered and the
payload is written to the socket. -/
theorem handleTxChain_open {input : TxInput} (hopen : s.connFlags.shutdownSend = false)
    (h : s.handleTxChain op header input = some (.ok (packet, s'))) :
    ∃ s₁, answerRequest { s with credit := s.credit.readCredit header } op input.info =
        .ok (packet, s₁) ∧
      drainRanges input.now input.completed s₁ input.ranges = some (.ok s') := by
  unfold handleTxChain at h
  split at h
  case h_1 => cases h
  case h_2 chainBytes _ =>
    split at h
    case isTrue => cases h
    case isFalse =>
      rw [if_neg (by simp [hopen])] at h
      split at h
      case h_1 => cases h
      case h_2 packet₁ s₁ hanswer =>
        split at h
        case h_1 => cases h
        case h_2 => cases h
        case h_3 s₂ hdrain =>
          cases h
          exact ⟨s₁, hanswer, hdrain⟩

theorem handleTxChain_closed {input : TxInput} (hclosed : s.connFlags.shutdownSend = true)
    (h : s.handleTxChain op header input = some (.ok (packet, s'))) : s' = s := by
  unfold handleTxChain at h
  split at h
  case h_1 => cases h
  case h_2 chainBytes _ =>
    split at h
    case isTrue => cases h
    case isFalse =>
      split at h
      · cases h
      · cases h
        rfl

theorem Counted.answerRequest (h : Counted max c)
    (hinfo : c.Answers max info)
    (hrun : ReadWrite.answerRequest c.state op info = .ok (packet, s)) :
    Counted max { c with state := s, reports := c.report packet } := by
  unfold ReadWrite.answerRequest at hrun
  split at hrun
  case isTrue =>
    split at hrun
    case h_1 => cases hrun
    case h_2 packet' s' hupdate =>
      cases hrun
      exact h.update hinfo hupdate
  case isFalse =>
    cases hrun
    exact h

theorem Counted.step (h : Counted max c) (hstep : Step max c c') : Counted max c' := by
  cases hstep with
  | send hinfo hrun => exact h.send hinfo hrun
  | receive hinfo hopen hfwd hback hpass hpeer hrun =>
    obtain ⟨s₁, hanswer, hdrain⟩ := handleTxChain_open hopen hrun
    exact ((h.readCredit hfwd hpass).answerRequest hinfo hanswer).drainRanges hdrain hpeer
  | ignore hclosed hrun =>
    cases handleTxChain_closed hclosed hrun
    exact h
  | update hinfo hrun => exact h.update hinfo hrun
  | drain k hk =>
    refine { h with drained_le := hk, closed_drained := fun hclosed => ?_, reported := ?_ }
    · have hall := h.closed_drained hclosed
      change c.drained + k = c.received
      omega
    · intro r hr
      obtain ⟨hexact, hle⟩ := h.reported r hr
      exact ⟨hexact, le_add_right_of_le hle⟩
  | close =>
    refine { h with
      drained_le := Nat.le_refl _, closed_drained := fun _ => rfl, reported := ?_ }
    intro r hr
    obtain ⟨hexact, hle⟩ := h.reported r hr
    exact ⟨hexact, Nat.le_trans hle h.drained_le⟩
  | flags flags leeway =>
    exact { h with }

theorem Initial.counted (h : Initial c) : Counted max c := by
  cases h with
  | intro hfwd =>
    refine ⟨rfl, hfwd, rfl, Nat.le_refl _, rfl, Nat.le_refl _, fun _ => rfl, ?_, ?_⟩
    · intro r hr
      cases hr
    · intro r hr
      cases hr

theorem Reachable.counted (h : Reachable max c) : Counted max c := by
  obtain ⟨c₀, hinit, hrun⟩ := h
  induction hrun with
  | refl => exact hinit.counted
  | tail _ hstep ih => exact ih.step hstep

/-- The connection knows whether a guest that keeps to the last report may send more. -/
theorem Counted.believes_iff {r : Report} (h : Counted max c) (hr : c.reports.head? = some r)
    (hkeeps : c.received ≤ r.forwarded + r.header.bufAlloc.toNat) :
    c.state.credit.guestBelievesNoTxBufferAvailable = true ↔
      ∀ n, c.received + n ≤ r.forwarded + r.header.bufAlloc.toNat → n = 0 := by
  obtain ⟨htotal, hcount⟩ := h.last r hr
  obtain ⟨⟨-, hfwd⟩, hle⟩ := h.reported r (List.mem_of_head? hr)
  have hfwd_le : r.forwarded ≤ c.received := Nat.le_trans hle h.drained_le
  have hcredit : (saturatingSub r.header.bufAlloc
      (counter 32 c.received - counter 32 r.forwarded)).toNat =
        r.header.bufAlloc.toNat - (c.received - r.forwarded) :=
    toNat_credit hfwd_le (by omega)
  rw [ConnectionCredit.guestBelievesNoTxBufferAvailable, htotal, hcount, hfwd, h.tx,
    decide_eq_true_iff, ← BitVec.toNat_inj, hcredit]
  change r.header.bufAlloc.toNat - (c.received - r.forwarded) = 0 ↔ _
  constructor
  · intro hzero n hn
    omega
  · intro hnone
    have hrest := hnone (r.forwarded + r.header.bufAlloc.toNat - c.received) (by omega)
    omega

/-- Flow control in every run.  A packet sent to the guest keeps the unacknowledged bytes within
the buffer of the guest's last report.  Every header filled with credit has the socket's maximum,
or zero once the peer is closed, and the count of bytes that had left the socket by then modulo
`2 ^ 32`; a guest that keeps to it has at most the maximum unread in the socket, and the connection
believes that the guest has no buffer left exactly when a guest that keeps to the last header may
send nothing more. -/
theorem Reachable.credit_respected (h : Reachable max c) :
    (∀ input header s, c.state.handleRxChain input = some (.ok (some header, s)) →
      c.sent - c.acked ≤ c.alloc.toNat →
      c.sent + header.len.toNat - c.acked ≤ c.alloc.toNat) ∧
    (∀ r ∈ c.reports,
      r.header.bufAlloc.toNat = (if r.closed then 0 else max) ∧
      r.header.fwdCnt = counter 32 r.forwarded ∧
      (c.received ≤ r.forwarded + r.header.bufAlloc.toNat → c.received - c.drained ≤ max)) ∧
    ∀ r, c.reports.head? = some r →
      c.received ≤ r.forwarded + r.header.bufAlloc.toNat →
      (c.state.credit.guestBelievesNoTxBufferAvailable = true ↔
        ∀ n, c.received + n ≤ r.forwarded + r.header.bufAlloc.toNat → n = 0) := by
  have hcounted := h.counted
  refine ⟨?_, ?_, ?_⟩
  · intro input header s hrun hwithin
    exact hcounted.sent_le hrun hwithin
  · intro r hr
    obtain ⟨⟨halloc, hfwd⟩, hle⟩ := hcounted.reported r hr
    have hmax : r.header.bufAlloc.toNat ≤ max := by
      rw [halloc]
      split <;> omega
    exact ⟨halloc, hfwd, fun hkeeps => by omega⟩
  · intro r hr hkeeps
    exact hcounted.believes_iff hr hkeeps

def small : Conn where
  state := new ⟨2, 1, 3, 1⟩
    { getHeaderToGuestWithDefaults ⟨2, 1, 3, 1⟩ with op := .request, bufAlloc := 100 } 0
  sent := 0
  acked := 0
  alloc := 100
  received := 0
  drained := 0
  closed := false
  reports := []

def rxInput (count : ℕ) (info : SocketInfo) : RxInput where
  chainBytes := some (headerLength + count)
  bytesOnSocket := some count
  info := .ok info
  headerWritten := true
  ranges := [some (count, some count)]

def sendBytes (c : Conn) (count : ℕ) (info : SocketInfo) : Conn :=
  match c.state.handleRxChain (rxInput count info) with
  | some (.ok (some header, s)) =>
    { c with
      state := s, sent := c.sent + header.len.toNat, reports := c.report (some header) }
  | _ => c

def fortyBytes : VirtioVsockHeader :=
  { getHeaderToGuestWithDefaults ⟨2, 1, 3, 1⟩ with
    len := 40, op := .readWrite, bufAlloc := 100, fwdCnt := 20 }

def fortyBytesInput : TxInput where
  chainBytes := some 40
  now := 0
  info := .ok ⟨64, 0⟩
  ranges := [some (40, some 40)]
  completed := true

def smallBusy : Conn :=
  let c := small.sendBytes 30 ⟨64, 0⟩
  match c.state.handleTxChain .readWrite fortyBytes fortyBytesInput with
  | some (.ok (packet, s)) =>
    { c with
      state := s, acked := 20, alloc := 100, received := c.received + 40
      reports := c.report packet }
  | _ => c

/-- The peer has read 10 of the 40 bytes before it was closed, and 5 more bytes were sent. -/
def smallClosed : Conn :=
  let c := { smallBusy with drained := smallBusy.drained + 10 }
  { c with closed := true, drained := c.received }.sendBytes 5 ⟨0, 0⟩

theorem smallClosed_reachable : Reachable 64 smallClosed := by
  have hsend : Step 64 small (small.sendBytes 30 ⟨64, 0⟩) :=
    @Step.send 64 small (rxInput 30 ⟨64, 0⟩) _ _ (fun i hi => by cases hi; rfl) rfl
  have hreceive : Step 64 (small.sendBytes 30 ⟨64, 0⟩) smallBusy :=
    @Step.receive 64 _ .readWrite fortyBytes fortyBytesInput 20 _ _
      (fun i hi => by cases hi; rfl) rfl rfl (by decide) (by decide) (by decide) rfl
  have hlate := @Step.send 64
    { smallBusy with closed := true, drained := smallBusy.received } (rxInput 5 ⟨0, 0⟩) _ _
    (fun i hi => by cases hi; rfl) rfl
  refine ⟨small, .intro rfl, .tail (.tail (.tail (.tail (.single hsend) hreceive)
    (.drain 10 (by decide))) .close) hlate⟩

theorem Reachable.credit_respected_smallClosed :
    smallClosed.sent = 35 ∧ smallClosed.acked = 20 ∧ smallClosed.received = 40 ∧
    (∃ header s, smallClosed.state.handleRxChain (rxInput 7 ⟨0, 0⟩) =
        some (.ok (some header, s)) ∧ header.len = 7 ∧
      smallClosed.sent + header.len.toNat - smallClosed.acked ≤ smallClosed.alloc.toNat) ∧
    ∃ last first, smallClosed.reports = [last, first] ∧
      first.header.bufAlloc.toNat = 64 ∧ first.header.fwdCnt = counter 32 first.forwarded ∧
      smallClosed.received - smallClosed.drained ≤ 64 ∧
      last.header.bufAlloc.toNat = 0 ∧
      (smallClosed.state.credit.guestBelievesNoTxBufferAvailable = true ↔
        ∀ n, 40 + n ≤ last.forwarded + last.header.bufAlloc.toNat → n = 0) := by
  obtain ⟨hsend, hreports, hlast⟩ := Reachable.credit_respected smallClosed_reachable
  refine ⟨rfl, rfl, rfl, ⟨_, _, rfl, rfl, hsend (rxInput 7 ⟨0, 0⟩) _ _ rfl (by decide)⟩, ?_⟩
  obtain ⟨halloc, hfwd, hunread⟩ := hreports _ (.tail _ (.head _))
  exact ⟨_, _, rfl, halloc, hfwd, hunread (by decide), (hreports _ (.head _)).1,
    hlast _ rfl (by decide)⟩

end Conn

end Smos.Vsock
