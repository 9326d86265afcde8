import Mathlib
import Smos.Lib.Counter

/-!
A vsock connection in its read-write state: flow control and the handling of RX and TX chains.

What a function asks of its environment is an argument: the sizes of the ranges of a chain and
what the socket answers.  A function that returns an `Option` of its result returns `none` where
the code panics.  The 32-bit counters are bit vectors.  The locks, the wakers and the asynchronous
state action are not part of the model.
-/
namespace Smos.Vsock

open Lib.Counter

abbrev U32 : Type := BitVec 32

inductive Status where
  | outOfRange
  | other (code : ℤ)
deriving DecidableEq

inductive ReadWriteError where
  | chainRemaining
  | socketQuery
  | writeCredit (status : Status)
  | chainWrite
  | chainIterate
  | shortRead
  | socketRead
  | lengthMismatch (headerBytes chainBytes : ℕ)
  | txAfterShutdown
  | notHonoringCredit
  | chainComplete
deriving DecidableEq

def ReadWriteError.text : ReadWriteError → String
  | .chainRemaining => "Failed to query chain for remaining bytes: "
  | .socketQuery => ""
  | .writeCredit _ => "Failed to write current credit to header: "
  | .chainWrite => "failed to write to chain: "
  | .chainIterate => "Failed to iterate over chain: "
  | .shortRead => "Read returned fewer bytes than should have been available"
  | .socketRead => "Failed to read from socket: "
  | .lengthMismatch headerBytes chainBytes =>
    "Expected " ++ toString headerBytes ++ " bytes from reading header, but found " ++
      toString chainBytes ++ " bytes on chain"
  | .txAfterShutdown => "Guest sent TX when connection is in state SHUTDOWN_SEND"
  | .notHonoringCredit => "Guest is not honoring the reported socket credit"
  | .chainComplete => "Failed to complete chain: "

inductive OpType where
  | invalid
  | request
  | response
  | reset
  | shutdown
  | readWrite
  | creditUpdate
  | creditRequest
deriving DecidableEq

structure VirtioVsockFlags where
  shutdownReceive : Bool := false
  shutdownSend : Bool := false
deriving DecidableEq

def VirtioVsockFlags.union (a b : VirtioVsockFlags) : VirtioVsockFlags where
  shutdownReceive := a.shutdownReceive || b.shutdownReceive
  shutdownSend := a.shutdownSend || b.shutdownSend

structure VsockConnectionKey where
  hostCid : ℕ
  hostPort : ℕ
  guestCid : ℕ
  guestPort : ℕ
deriving DecidableEq

structure VirtioVsockHeader where
  srcCid : ℕ
  dstCid : ℕ
  srcPort : ℕ
  dstPort : ℕ
  len : U32
  op : OpType
  flags : VirtioVsockFlags
  bufAlloc : U32
  fwdCnt : U32
deriving DecidableEq

def headerLength : ℕ := 44

structure SocketInfo where
  txBufMax : ℕ
  txBufSize : ℕ

structure ConnectionCredit where
  rxCount : U32 := 0
  txCount : U32 := 0
  lastReportedTotalBuf : U32 := 0
  lastReportedFwdCount : U32 := 0
  guestBufAlloc : U32 := 0
  guestFwdCount : U32 := 0
deriving DecidableEq

namespace ConnectionCredit

def incrementRxCount (credit : ConnectionCredit) (count : U32) : ConnectionCredit :=
  { credit with rxCount := credit.rxCount + count }

def incrementTxCount (credit : ConnectionCredit) (count : U32) : ConnectionCredit :=
  { credit with txCount := credit.txCount + count }

def peerFreeBytes (credit : ConnectionCredit) : U32 :=
  saturatingSub credit.guestBufAlloc (credit.rxCount - credit.guestFwdCount)

def guestBelievesNoTxBufferAvailable (credit : ConnectionCredit) : Bool :=
  saturatingSub credit.lastReportedTotalBuf (credit.txCount - credit.lastReportedFwdCount) = 0

def readCredit (credit : ConnectionCredit) (header : VirtioVsockHeader) : ConnectionCredit :=
  { credit with guestBufAlloc := header.bufAlloc, guestFwdCount := header.fwdCnt }

def writeCredit (credit : ConnectionCredit) (info : Except Status SocketInfo)
    (header : VirtioVsockHeader) : Except Status (ConnectionCredit × VirtioVsockHeader) :=
  match info with
  | .error status => .error status
  | .ok info =>
    if 2 ^ 32 ≤ info.txBufMax then .error .outOfRange
    else if 2 ^ 32 ≤ info.txBufSize then .error .outOfRange
    else
      let total := BitVec.ofNat 32 info.txBufMax
      let fwd := credit.txCount - BitVec.ofNat 32 info.txBufSize
      .ok ({ credit with lastReportedTotalBuf := total, lastReportedFwdCount := fwd },
        { header with bufAlloc := total, fwdCnt := fwd })

end ConnectionCredit

structure ReadWrite where
  credit : ConnectionCredit
  connFlags : VirtioVsockFlags
  txShutdownLeeway : ℕ
  key : VsockConnectionKey
  controlPackets : List VirtioVsockHeader

def ReadWrite.new (key : VsockConnectionKey) (header : VirtioVsockHeader) (now : ℕ) :
    ReadWrite where
  credit := ({} : ConnectionCredit).readCredit header
  connFlags := {}
  txShutdownLeeway := now
  key := key
  controlPackets := []

def getHeaderToGuestWithDefaults (key : VsockConnectionKey) : VirtioVsockHeader where
  srcCid := key.hostCid
  dstCid := key.guestCid
  srcPort := key.hostPort
  dstPort := key.guestPort
  len := 0
  op := .invalid
  flags := {}
  bufAlloc := 0
  fwdCnt := 0

namespace ReadWrite

def sendCreditUpdate (s : ReadWrite) (info : Except Status SocketInfo) :
    Except ReadWriteError (VirtioVsockHeader × ReadWrite) :=
  match s.credit.writeCredit info (getHeaderToGuestWithDefaults s.key) with
  | .error status => .error (.writeCredit status)
  | .ok (credit, packet) =>
    let packet := { packet with op := .creditUpdate }
    .ok (packet, { s with credit := credit, controlPackets := s.controlPackets ++ [packet] })

def sendHalfShutdownPacket (s : ReadWrite) : ReadWrite :=
  if s.connFlags.shutdownReceive && s.connFlags.shutdownSend then s
  else
    { s with controlPackets := s.controlPackets ++
        [{ getHeaderToGuestWithDefaults s.key with op := .shutdown, flags := s.connFlags }] }

/-- What the environment of `handleRxChain` answers: the bytes that the chain and the socket have,
the socket's buffer, whether the header could be written, and for each range of the chain after
the header its length and the number of bytes that the socket read into it. -/
structure RxInput where
  chainBytes : Option ℕ
  bytesOnSocket : Option ℕ
  info : Except Status SocketInfo
  headerWritten : Bool
  ranges : List (Option (ℕ × Option ℕ))

def fillRanges : ℕ → List (Option (ℕ × Option ℕ)) → Option (Except ReadWriteError Unit)
  | bytesRemainingToSend, [] => if bytesRemainingToSend = 0 then some (.ok ()) else none
  | _, none :: _ => some (.error .chainIterate)
  | _, some (_, none) :: _ => some (.error .socketRead)
  | bytesRemainingToSend, some (length, some read) :: rest =>
    let slice := min length bytesRemainingToSend
    if read ≠ slice then some (.error .shortRead)
    else if bytesRemainingToSend - slice = 0 then some (.ok ())
    else fillRanges (bytesRemainingToSend - slice) rest

def bytesToSend (s : ReadWrite) (chainBytes bytesOnSocket : ℕ) : ℕ :=
  min s.credit.peerFreeBytes.toNat (min (chainBytes - headerLength) bytesOnSocket)

/-- Sends a packet to the guest; the result has the header of the packet, if one was sent. -/
def handleRxChain (s : ReadWrite) (input : RxInput) :
    Option (Except ReadWriteError (Option VirtioVsockHeader × ReadWrite)) :=
  match input.chainBytes with
  | none => some (.error .chainRemaining)
  | some chainBytes =>
    -- the chain is too small to transmit data
    if chainBytes ≤ headerLength then some (.ok (none, s))
    else match input.bytesOnSocket with
      | none => some (.error .socketQuery)
      | some bytesOnSocket =>
        let count := s.bytesToSend chainBytes bytesOnSocket
        if count = 0 then none
        else
          let credit := s.credit.incrementRxCount (BitVec.ofNat 32 count)
          let header : VirtioVsockHeader :=
            { srcCid := s.key.hostCid
              dstCid := s.key.guestCid
              srcPort := s.key.hostPort
              dstPort := s.key.guestPort
              len := BitVec.ofNat 32 count
              op := .readWrite
              flags := s.connFlags
              bufAlloc := 0
              fwdCnt := 0 }
          match credit.writeCredit input.info header with
          | .error status => some (.error (.writeCredit status))
          | .ok (credit, header) =>
            if input.headerWritten then
              match fillRanges count input.ranges with
              | none => none
              | some (.error e) => some (.error e)
              | some (.ok ()) => some (.ok (some header, { s with credit := credit }))
            else some (.error .chainWrite)

/-- What the environment of `handleTxChain` answers: the bytes of the chain, the time, the socket's
buffer, for each range of the chain its length and the number of bytes that the socket took of it,
and whether the chain could be completed. -/
structure TxInput where
  chainBytes : Option ℕ
  now : ℕ
  info : Except Status SocketInfo
  ranges : List (Option (ℕ × Option ℕ))
  completed : Bool

def drainRanges (now : ℕ) (completed : Bool) :
    ReadWrite → List (Option (ℕ × Option ℕ)) → Option (Except ReadWriteError ReadWrite)
  | s, [] => some (if completed then .ok s else .error .chainComplete)
  | _, none :: _ => some (.error .chainIterate)
  | s, some (_, none) :: _ =>
    -- the socket takes no more bytes: the guest has a second to stop
    let s := { s with
      txShutdownLeeway := now + 1000000000
      connFlags := { s.connFlags with shutdownSend := true } }
    some (.ok s.sendHalfShutdownPacket)
  | s, some (length, some written) :: rest =>
    if written ≠ length then some (.error .notHonoringCredit)
    else if 2 ^ 32 ≤ length then none
    else
      drainRanges now completed
        { s with credit := s.credit.incrementTxCount (BitVec.ofNat 32 length) } rest

def answerRequest (s : ReadWrite) (op : OpType) (info : Except Status SocketInfo) :
    Except ReadWriteError (Option VirtioVsockHeader × ReadWrite) :=
  if op = .creditRequest then
    match s.sendCreditUpdate info with
    | .error e => .error e
    | .ok (packet, s) => .ok (some packet, s)
  else .ok (none, s)

/-- Receives a packet of the guest; the result has the credit update that answers it, if any. -/
def handleTxChain (s : ReadWrite) (op : OpType) (header : VirtioVsockHeader) (input : TxInput) :
    Option (Except ReadWriteError (Option VirtioVsockHeader × ReadWrite)) :=
  match input.chainBytes with
  | none => some (.error .chainRemaining)
  | some chainBytes =>
    if chainBytes ≠ header.len.toNat then
      some (.error (.lengthMismatch header.len.toNat chainBytes))
    else if s.connFlags.shutdownSend then
      if s.txShutdownLeeway < input.now then some (.error .txAfterShutdown)
      else some (.ok (none, s))
    else
      match answerRequest { s with credit := s.credit.readCredit header } op input.info with
      | .error e => some (.error e)
      | .ok (packet, s) =>
        match drainRanges input.now input.completed s input.ranges with
        | none => none
        | some (.error e) => some (.error e)
        | some (.ok s) => some (.ok (packet, s))

end ReadWrite

end Smos.Vsock
