import Smos.Socket.Storage

/-!
What a read delivers.

`gather` is the outcome of reading from a list of buffers, whether they are consumed or not.  Every
round of the loop of `ReadHelper` keeps the outcome that is still to come, in both modes and for
`Read` as for `Peek`, so a `Peek` delivers what a `Read` would.
-/
namespace Smos.Socket

open List

variable {len : ℕ} {buf : MBuf} {rest : List MBuf}

/-- The status and the bytes of a read that starts at an offset in the first buffer and goes on
until it has enough bytes, a copy fails or the buffers end. -/
def gather (len : ℕ) (copyOk : ℕ → Bool) : List MBuf → ℕ → ℕ → List UInt8 → Status × List UInt8
  | [], _, _, out => (.ok, out)
  | buf :: rest, off, copies, out =>
    if out.length < len then
      if copyOk copies then
        gather len copyOk rest 0 (copies + 1) (out ++ (buf.data.drop off).take (len - out.length))
      else (.invalidArgs, out)
    else (.ok, out)

theorem gather_of_le (copyOk : ℕ → Bool) (l : List MBuf) (off copies : ℕ) {out : List UInt8}
    (h : len ≤ out.length) :
    gather len copyOk l off copies out = (.ok, out) := by
  cases l with
  | nil => rfl
  | cons buf rest => simp [gather, Nat.not_lt.mpr h]

/-- Only a copy that fails ends a read with an error. -/
theorem gather_ok {copyOk : ℕ → Bool} (hcopy : ∀ i, copyOk i = true) (l : List MBuf)
    (off copies : ℕ) (out : List UInt8) : (gather len copyOk l off copies out).1 = .ok := by
  induction l generalizing off copies out with
  | nil => rfl
  | cons buf rest ih =>
    by_cases hlen : out.length < len
    · rw [gather, if_pos hlen, if_pos (hcopy copies)]
      exact ih _ _ _
    · rw [gather_of_le copyOk _ _ _ (Nat.not_lt.mp hlen)]

def frontLen : List MBuf → ℕ
  | [] => 0
  | buf :: _ => buf.len

def content (l : List MBuf) (off : ℕ) : List UInt8 := (bytes l).drop off

theorem content_cons {off : ℕ} (rest : List MBuf) (h : off ≤ buf.len) :
    content (buf :: rest) off = buf.data.drop off ++ content rest 0 := by
  rw [content, bytes_cons, drop_append_of_le_length h]
  rfl

/-- The bytes are those at the front of the content, and all that were asked for if no copy fails.
-/
theorem gather_spec (len : ℕ) (copyOk : ℕ → Bool) (l : List MBuf) (off copies : ℕ)
    (out : List UInt8) (hoff : off ≤ frontLen l) :
    (gather len copyOk l off copies out).2 <+: out ++ (content l off).take (len - out.length) ∧
      ((gather len copyOk l off copies out).1 = .ok →
        (gather len copyOk l off copies out).2 =
          out ++ (content l off).take (len - out.length)) := by
  induction l generalizing off copies out with
  | nil => simp [gather, content]
  | cons buf rest ih =>
    rw [content_cons rest hoff]
    by_cases hlen : out.length < len
    · cases hcopy : copyOk copies with
      | false => simp [gather, hlen, hcopy]
      | true =>
        have hnext := ih 0 (copies + 1) (out ++ (buf.data.drop off).take (len - out.length))
          (Nat.zero_le _)
        -- the bytes of this buffer, then those of the others
        have hsplit : out ++ (buf.data.drop off ++ content rest 0).take (len - out.length) =
            out ++ (buf.data.drop off).take (len - out.length) ++ (content rest 0).take
              (len - (out ++ (buf.data.drop off).take (len - out.length)).length) := by
          rw [take_append, append_assoc]
          congr 3
          simp only [length_append, length_take, length_drop]
          omega
        rw [hsplit]
        simpa [gather, hlen, hcopy] using hnext
    · rw [gather_of_le copyOk _ off copies (Nat.not_lt.mp hlen)]
      simp [Nat.sub_eq_zero_of_le (Nat.not_lt.mp hlen)]

namespace MBufChain

variable {c c' : MBufChain} {r r' : Reader}

def held (c : MBufChain) : List UInt8 := content c.buffers c.readCursorOff

structure Counted (c : MBufChain) (off : ℕ) : Prop where
  off_le : off ≤ frontLen c.buffers
  size_eq : c.size + off = (bytes c.buffers).length

theorem Counted.length_content {off : ℕ} (h : Counted c off) :
    (content c.buffers off).length = c.size := by
  have hsize := h.size_eq
  rw [content, length_drop]
  omega

structure Valid (c : MBufChain) : Prop where
  storage : Storage c []
  counted : Counted c c.readCursorOff
  size_le : c.size ≤ kSizeMax
  fits : ∀ buf ∈ c.buffers, buf.len ≤ kPayloadSize

theorem Valid.new : Valid new where
  storage := Storage.new
  counted := ⟨Nat.le_refl _, rfl⟩
  size_le := Nat.zero_le _
  fits _ h := absurd h not_mem_nil

theorem Valid.length_held (h : Valid c) : c.held.length = c.size :=
  h.counted.length_content

/-- A part of the buffers at the end, with no more bytes, is still a valid chain. -/
theorem Valid.of_suffix (h : Valid c) (hstorage : Storage c' [])
    (hcounted : Counted c' c'.readCursorOff) (hsize : c'.size ≤ c.size)
    (hsuffix : c'.buffers <:+ c.buffers) : Valid c' :=
  ⟨hstorage, hcounted, Nat.le_trans hsize h.size_le,
    fun buf hbuf => h.fits buf (hsuffix.mem hbuf)⟩

def Reader.outcome (len : ℕ) (copyOk : ℕ → Bool) (r : Reader) : Status × List UInt8 :=
  if r.status = .ok then gather len copyOk r.iter r.readOff r.copies r.out else (r.status, r.out)

def Reader.Running (len : ℕ) (r : Reader) : Prop := r.out.length < len ∧ r.status = .ok

/-- At the end the outcome is what the reader has. -/
theorem Reader.outcome_stopped (copyOk : ℕ → Bool) (h : r.iter = [] ∨ ¬ r.Running len) :
    r.outcome len copyOk = (r.status, r.out) := by
  unfold Reader.outcome
  by_cases hstatus : r.status = .ok
  · rw [hstatus]
    rcases h with hiter | hstop
    · rw [hiter]
      rfl
    · exact gather_of_le copyOk _ _ _ (Nat.not_lt.mp fun hlt => hstop ⟨hlt, hstatus⟩)
  · rw [if_neg hstatus]

/-- The rule of the loop: what every round keeps holds at the end, and the loop ends, if every
round goes on to a shorter list of buffers or is the last one. -/
theorem readLoop_rule (consume datagram : Bool) (len : ℕ) (copyOk : ℕ → Bool)
    (Inv : Reader → Prop)
    (round : ∀ r buf rest r', r.iter = buf :: rest → r.Running len → Inv r →
      readRound consume datagram len copyOk r buf rest = r' →
        Inv r' ∧ (r'.iter = rest ∨ ¬ r'.Running len))
    (fuel : ℕ) (r : Reader) (hfuel : r.iter.length < fuel ∨ 0 < fuel ∧ ¬ r.Running len)
    (hr : Inv r) :
    ∃ r', readLoop consume datagram len copyOk fuel r = some r' ∧ Inv r' ∧
      (r'.iter = [] ∨ ¬ r'.Running len) := by
  induction fuel generalizing r with
  | zero => omega
  | succ fuel ih =>
    unfold readLoop
    cases hiter : r.iter with
    | nil => exact ⟨r, rfl, hr, .inl hiter⟩
    | cons buf rest =>
      by_cases hrun : r.Running len
      · obtain ⟨hinv, hnext⟩ := round r buf rest _ hiter hrun hr rfl
        have hlong : rest.length < fuel := by
          rcases hfuel with hlt | ⟨_, hstop⟩
          · rw [hiter, length_cons] at hlt
            omega
          · exact absurd hrun hstop
        obtain ⟨r', hloop, hr'⟩ := ih
          _
          (hnext.imp (fun hrest => by rw [congrArg length hrest]; exact hlong)
            (fun hstop => ⟨by omega, hstop⟩)) hinv
        refine ⟨r', ?_, hr'⟩
        simpa only [if_pos (show r.out.length < len ∧ r.status = .ok from hrun)] using hloop
      · refine ⟨r, ?_, hr, .inr hrun⟩
        simp only [if_neg (show ¬ (r.out.length < len ∧ r.status = .ok) from hrun)]

/-- The number of bytes that a round copies is cut at the end of the buffer by the copy itself. -/
theorem take_copyLen (buf : MBuf) (off n : ℕ) :
    (buf.data.drop off).take (min (buf.len - off) n) = (buf.data.drop off).take n := by
  rw [MBuf.len, ← length_drop, ← take_take]
  apply take_of_length_le
  rw [length_take]
  exact Nat.min_le_right _ _

structure Consuming (c : MBufChain) (r : Reader) : Prop where
  iter : r.iter = r.chain.buffers
  storage : Storage r.chain []
  counted : Counted r.chain r.readOff
  suffix : r.chain.buffers <:+ c.buffers

/-- The front buffer goes, with the bytes that are left of it. -/
theorem Consuming.pop (h : Consuming c r) (hl : r.chain.buffers = buf :: rest) (k : ℕ)
    (hk : r.readOff + k = buf.len) (out : List UInt8) (status : Status) (copies : ℕ) :
    Consuming c ⟨({ r.chain with size := r.chain.size - k } : MBufChain).popFront buf, rest, 0,
      out, status, copies⟩ := by
  have hsize := h.counted.size_eq
  rw [hl, bytes_cons, length_append] at hsize
  have htail : r.chain.buffers.tail = rest := by rw [hl, tail_cons]
  have hstorage : Storage { r.chain with size := r.chain.size - k } [] :=
    h.storage.of_addresses rfl rfl rfl rfl
  refine ⟨htail.symm, hstorage.popFront hl, ⟨Nat.zero_le _, ?_⟩, ?_⟩
  · change r.chain.size - k + 0 = (bytes r.chain.buffers.tail).length
    rw [htail]
    change r.readOff + k = buf.data.length at hk
    omega
  · exact (tail_suffix _).trans h.suffix

/-- What a running reader is going to have, from its next copy. -/
theorem Reader.outcome_running (copyOk : ℕ → Bool) (hiter : r.iter = buf :: rest)
    (hrun : r.Running len) :
    r.outcome len copyOk =
      if copyOk r.copies then
        gather len copyOk rest 0 (r.copies + 1)
          (r.out ++ (buf.data.drop r.readOff).take (len - r.out.length))
      else (.invalidArgs, r.out) := by
  rw [Reader.outcome, if_pos hrun.2, hiter, gather, if_pos hrun.1]

/-- A round of `Peek` goes to the next buffer. -/
theorem readRound_peek (datagram : Bool) (copyOk : ℕ → Bool) (hiter : r.iter = buf :: rest)
    (hrun : r.Running len) (hr' : readRound false datagram len copyOk r buf rest = r') :
    r'.chain = r.chain ∧ r'.iter = rest ∧ r'.outcome len copyOk = r.outcome len copyOk := by
  subst hr'
  refine ⟨rfl, rfl, ?_⟩
  rw [Reader.outcome_running copyOk hiter hrun]
  cases hcopy : copyOk r.copies with
  | false => simp [readRound, Reader.outcome, hcopy]
  | true => simp [readRound, Reader.outcome, hcopy, take_copyLen]

/-- The number of bytes that a read asks for: no more than the first packet in datagram mode. -/
def readLen (c : MBufChain) (len : ℕ) (datagram : Bool) : ℕ :=
  match c.buffers with
  | front :: _ => if datagram ∧ len > front.pktLen then front.pktLen else len
  | [] => len

def Reader.start (c : MBufChain) : Reader := ⟨c, c.buffers, c.readCursorOff, [], .ok, 0⟩

theorem Consuming.start (h : Valid c) : Consuming c (Reader.start c) :=
  ⟨rfl, h.storage, h.counted, suffix_rfl⟩

def delivery (c : MBufChain) (len : ℕ) (datagram : Bool) (copyOk : ℕ → Bool) :
    Status × List UInt8 :=
  if c.size = 0 then (.ok, [])
  else gather (c.readLen len datagram) copyOk c.buffers c.readCursorOff 0 []

theorem delivery_ok (c : MBufChain) (len : ℕ) (datagram : Bool) {copyOk : ℕ → Bool}
    (hcopy : ∀ i, copyOk i = true) : (c.delivery len datagram copyOk).1 = .ok := by
  unfold delivery
  split
  · rfl
  · exact gather_ok hcopy _ _ _ _

theorem Reader.outcome_start (c : MBufChain) (len : ℕ) (copyOk : ℕ → Bool) :
    (Reader.start c).outcome len copyOk = gather len copyOk c.buffers c.readCursorOff 0 [] :=
  if_pos rfl

/-- `ReadHelper` of a chain with bytes, from what its loop leaves. -/
theorem readHelper_of_loop {consume datagram : Bool} {copyOk : ℕ → Bool} (hsize : c.size ≠ 0)
    (hloop : readLoop consume datagram (c.readLen len datagram) copyOk (c.buffers.length + 1)
      (Reader.start c) = some r) :
    c.readHelper consume len datagram copyOk =
      if consume = false then some (r.status, r.out, r.chain)
      else
        let (chain, readOff) :=
          if datagram then r.chain.drain r.readOff r.chain.buffers else (r.chain, r.readOff)
        some (r.status, r.out, { chain with readCursorOff := readOff }) := by
  unfold readHelper
  rw [if_neg hsize]
  -- the number of bytes asked for is written out there
  dsimp only
  erw [hloop]

/-- `Peek` changes nothing. -/
theorem peek_eq (c : MBufChain) (len : ℕ) (datagram : Bool) (copyOk : ℕ → Bool) :
    c.peek len datagram copyOk =
      some ((c.delivery len datagram copyOk).1, (c.delivery len datagram copyOk).2, c) := by
  unfold peek delivery
  by_cases hsize : c.size = 0
  · simp [readHelper, hsize]
  · rw [if_neg hsize, ← Reader.outcome_start]
    generalize houtcome : (Reader.start c).outcome (c.readLen len datagram) copyOk = o
    obtain ⟨r, hloop, ⟨hchain, hr⟩, hstop⟩ :=
      readLoop_rule false datagram (c.readLen len datagram) copyOk
        (fun r => r.chain = c ∧ r.outcome (c.readLen len datagram) copyOk = o)
        (fun r buf rest r' hiter hrun hinv hr' => by
          have h := readRound_peek datagram copyOk hiter hrun hr'
          exact ⟨⟨h.1.trans hinv.1, h.2.2.trans hinv.2⟩, .inl h.2.1⟩)
        (c.buffers.length + 1) (Reader.start c) (.inl (Nat.lt_succ_self _)) ⟨rfl, houtcome⟩
    rw [Reader.outcome_stopped copyOk hstop] at hr
    rw [readHelper_of_loop hsize hloop, if_pos rfl, hchain, ← hr]

end MBufChain

end Smos.Socket
