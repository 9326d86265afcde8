import Smos.Socket.Reading

/-!
A chain of stream data.

The bytes that a chain holds are those of its buffers from the read cursor on.  A read takes its
bytes from the front of them and a write adds its bytes at the end.
-/
namespace Smos.Socket

open List Option

namespace MBufChain

variable {c c' : MBufChain} {r r' : Reader} {buf : MBuf} {rest : List MBuf} {len : ℕ}

section Read

structure Taking (c : MBufChain) (r : Reader) : Prop extends Consuming c r where
  conserved : r.out ++ content r.chain.buffers r.readOff = c.held

/-- The front buffer has been read to its end. -/
theorem Taking.pop (h : Taking c r) (hl : r.chain.buffers = buf :: rest) (k : ℕ)
    (hk : r.readOff + k = buf.len) (status : Status) (copies : ℕ) :
    Taking c ⟨({ r.chain with size := r.chain.size - k } : MBufChain).popFront buf, rest, 0,
      r.out ++ buf.data.drop r.readOff, status, copies⟩ := by
  refine ⟨h.toConsuming.pop hl k hk _ status copies, ?_⟩
  change r.out ++ buf.data.drop r.readOff ++ content r.chain.buffers.tail 0 = c.held
  rw [← h.conserved, hl, tail_cons, content_cons rest (by omega), append_assoc]

/-- A part of the front buffer has been read. -/
theorem Taking.advance (h : Taking c r) (hl : r.chain.buffers = buf :: rest) (k : ℕ)
    (hk : r.readOff + k ≤ buf.len) (status : Status) (copies : ℕ) :
    Taking c ⟨{ r.chain with size := r.chain.size - k }, r.iter, r.readOff + k,
      r.out ++ (buf.data.drop r.readOff).take k, status, copies⟩ := by
  have hsize := h.counted.size_eq
  rw [hl, bytes_cons, length_append] at hsize
  refine ⟨⟨h.iter, h.storage.of_addresses rfl rfl rfl rfl, ⟨?_, ?_⟩, h.suffix⟩, ?_⟩
  · rw [hl]
    exact hk
  · change r.chain.size - k + (r.readOff + k) = (bytes r.chain.buffers).length
    rw [hl, bytes_cons, length_append]
    change r.readOff + k ≤ buf.data.length at hk
    omega
  · rw [← h.conserved, hl, content_cons rest hk, content_cons rest (by omega), append_assoc,
      ← append_assoc (take _ _), ← drop_drop, take_append_drop]

theorem Taking.round (copyOk : ℕ → Bool) (h : Taking c r) (hiter : r.iter = buf :: rest)
    (hrun : r.Running len) (hr' : readRound true false len copyOk r buf rest = r') :
    Taking c r' ∧ r'.outcome len copyOk = r.outcome len copyOk ∧
      (r'.iter = rest ∨ ¬ r'.Running len) := by
  have hl : r.chain.buffers = buf :: rest := h.iter ▸ hiter
  have htail : r.chain.buffers.tail = rest := by rw [hl, tail_cons]
  have hoff : r.readOff ≤ buf.len := by
    have hle := h.counted.off_le
    rwa [hl] at hle
  rw [Reader.outcome_running copyOk hiter hrun]
  cases hcopy : copyOk r.copies with
  | false =>
    by_cases hend : r.readOff = buf.len
    · -- an empty rest: the buffer goes although the copy failed
      have heq : r' =
          ⟨r.chain.popFront buf, rest, 0, r.out, .invalidArgs, r.copies + 1⟩ := by
        simp [← hr', readRound, hcopy, hend, popFront, freeMBuf, htail]
      have htake := h.pop hl 0 (by omega) .invalidArgs (r.copies + 1)
      rw [hend, MBuf.len, drop_length, append_nil] at htake
      rw [heq]
      exact ⟨htake, by simp [Reader.outcome], .inl rfl⟩
    · have heq : r' = { r with status := .invalidArgs, copies := r.copies + 1 } := by
        simp [← hr', readRound, hcopy, hend]
      rw [heq]
      refine ⟨{ h with }, by simp [Reader.outcome], .inr ?_⟩
      simp [Reader.Running]
  | true =>
    by_cases hfull : buf.len - r.readOff ≤ len - r.out.length
    · have heq : r' =
          ⟨({ r.chain with size := r.chain.size - (buf.len - r.readOff) } : MBufChain).popFront buf,
            rest, 0, r.out ++ buf.data.drop r.readOff, .ok, r.copies + 1⟩ := by
        have hend : r.readOff + (buf.len - r.readOff) = buf.len := by omega
        have htake : (buf.data.drop r.readOff).take (buf.len - r.readOff) =
            buf.data.drop r.readOff := take_of_length_le (by simp [MBuf.len])
        simp [← hr', readRound, hcopy, Nat.min_eq_left hfull, hend, htake, popFront,
          freeMBuf, htail]
      have htake : (buf.data.drop r.readOff).take (len - r.out.length) =
          buf.data.drop r.readOff := take_of_length_le (by simpa [MBuf.len] using hfull)
      rw [heq]
      exact ⟨h.pop hl _ (by omega) _ _, by simp [Reader.outcome, htake], .inl rfl⟩
    · -- the read ends in this buffer
      have hmin : min (buf.len - r.readOff) (len - r.out.length) = len - r.out.length :=
        Nat.min_eq_right (by omega)
      have hlength :
          len ≤ (r.out ++ (buf.data.drop r.readOff).take (len - r.out.length)).length := by
        simp only [length_append, length_take, length_drop]
        change ¬ buf.data.length - r.readOff ≤ _ at hfull
        omega
      have heq : r' =
          ⟨{ r.chain with size := r.chain.size - (len - r.out.length) }, r.iter,
            r.readOff + (len - r.out.length),
            r.out ++ (buf.data.drop r.readOff).take (len - r.out.length), .ok, r.copies + 1⟩ := by
        have hne : r.readOff + (len - r.out.length) ≠ buf.len := by omega
        simp [← hr', readRound, hcopy, hmin, hne]
      rw [heq]
      refine ⟨h.advance hl _ (by omega) _ _, ?_, .inr fun hstop => ?_⟩
      · simp only [Reader.outcome, if_true]
        rw [gather_of_le copyOk _ _ _ hlength, gather_of_le copyOk _ _ _ hlength]
      · exact absurd hlength (Nat.not_le.mpr hstop.1)

/-- A `Read` in stream mode takes what it delivers from the front of the bytes held. -/
theorem Valid.read (h : Valid c) (len : ℕ) (copyOk : ℕ → Bool) :
    ∃ c', c.read len false copyOk =
        some ((c.delivery len false copyOk).1, (c.delivery len false copyOk).2, c') ∧
      Valid c' ∧ (c.delivery len false copyOk).2 ++ c'.held = c.held := by
  unfold MBufChain.read delivery
  by_cases hsize : c.size = 0
  · exact ⟨c, by simp [readHelper, hsize], h, by simp [hsize]⟩
  · rw [if_neg hsize, ← Reader.outcome_start]
    generalize houtcome : (Reader.start c).outcome (c.readLen len false) copyOk = o
    obtain ⟨r, hloop, ⟨htaking, hr⟩, hstop⟩ :=
      readLoop_rule true false (c.readLen len false) copyOk
        (fun r => Taking c r ∧ r.outcome (c.readLen len false) copyOk = o)
        (fun r buf rest r' hiter hrun hinv hr' => by
          obtain ⟨hnext, hkeep, hgo⟩ := hinv.1.round copyOk hiter hrun hr'
          exact ⟨⟨hnext, hkeep.trans hinv.2⟩, hgo⟩)
        (c.buffers.length + 1) (Reader.start c) (.inl (Nat.lt_succ_self _))
        ⟨⟨Consuming.start h, rfl⟩, houtcome⟩
    rw [Reader.outcome_stopped copyOk hstop] at hr
    rw [readHelper_of_loop hsize hloop, ← hr]
    have hlength := congrArg length htaking.conserved
    rw [length_append, htaking.counted.length_content, h.length_held] at hlength
    refine ⟨{ r.chain with readCursorOff := r.readOff }, by simp, ?_, htaking.conserved⟩
    exact h.of_suffix (htaking.storage.of_addresses rfl rfl rfl rfl)
      ⟨htaking.counted.off_le, htaking.counted.size_eq⟩
      (show r.chain.size ≤ c.size by omega) htaking.suffix

/-- What a read delivers is the front of the bytes held. -/
theorem Valid.delivery_front (h : Valid c) (len : ℕ) (copyOk : ℕ → Bool) :
    (c.delivery len false copyOk).2 <+: c.held.take len ∧
      ((c.delivery len false copyOk).1 = .ok →
        (c.delivery len false copyOk).2 = c.held.take len) := by
  unfold delivery
  by_cases hsize : c.size = 0
  · have hnil : c.held = [] := length_eq_zero_iff.mp (h.length_held.trans hsize)
    simp [hsize, hnil]
  · have hlen : c.readLen len false = len := by
      unfold readLen
      split <;> simp
    have hspec := gather_spec len copyOk c.buffers c.readCursorOff 0 [] h.counted.off_le
    rw [if_neg hsize, hlen]
    simpa [held] using hspec

end Read

section Write

theorem allocMBuf_ne_none (c : MBufChain) : c.allocMBuf true ≠ none := by
  unfold MBufChain.allocMBuf
  split <;> simp

theorem frontLen_le_append (l m : List MBuf) : frontLen l ≤ frontLen (l ++ m) := by
  cases l with
  | nil => exact Nat.zero_le _
  | cons buf rest => exact Nat.le_refl _

/-- Buffers that are put behind the others. -/
theorem Valid.of_append (h : Valid c) {l : List MBuf} (hstorage : Storage c' [])
    (hbuffers : c'.buffers = c.buffers ++ l) (hoff : c'.readCursorOff = c.readCursorOff)
    (hsize : c'.size = c.size + (bytes l).length) (hmax : c'.size ≤ kSizeMax)
    (hfits : ∀ buf ∈ l, buf.len ≤ kPayloadSize) : Valid c' := by
  have htotal := h.counted.size_eq
  refine ⟨hstorage, ⟨?_, ?_⟩, hmax, fun buf hbuf => ?_⟩
  · rw [hoff, hbuffers]
    exact Nat.le_trans h.counted.off_le (frontLen_le_append _ _)
  · rw [hbuffers, bytes_append, length_append]
    omega
  · rw [hbuffers] at hbuf
    exact (mem_append.mp hbuf).elim (h.fits buf) (hfits buf)

/-- An allocated buffer behind the last one changes nothing yet. -/
theorem Valid.appendEmpty (h : Valid c) {next : MBuf} (hstorage : Storage c' [next.address])
    (hsame : SameQueue c c') (hdata : next.data = []) :
    Valid (c'.append next) ∧ (c'.append next).buffers = c.buffers ++ [next] ∧
      (c'.append next).held = c.held := by
  obtain ⟨hbuffers, hkeep⟩ := hstorage.append
  rw [hsame.buffers] at hbuffers
  refine ⟨h.of_append hkeep hbuffers ?_ ?_ ?_ ?_, hbuffers, ?_⟩
  · simp [hsame.readCursorOff]
  · simp [hsame.size, hdata]
  · simpa [hsame.size] using h.size_le
  · simp [MBuf.len, hdata]
  · simp [held, content, hbuffers, hdata, hsame.readCursorOff]

theorem roomAfter_ne_none (c : MBufChain) (last : MBuf) : c.roomAfter last true ≠ none := by
  unfold MBufChain.roomAfter
  split
  · cases halloc : c.allocMBuf true with
    | none => exact absurd halloc (allocMBuf_ne_none c)
    | some p => simp
  · simp

/-- The buffer that the next bytes go to is the last one, and has room. -/
theorem Valid.roomAfter (h : Valid c) {init : List MBuf} {last : MBuf}
    (hl : c.buffers = init ++ [last]) {hasMemory : Bool} {cursor : MBuf} {c' : MBufChain}
    (hroom : c.roomAfter last hasMemory = some (cursor, c')) :
    Valid c' ∧ c'.held = c.held ∧ 0 < cursor.rem ∧ ∃ init', c'.buffers = init' ++ [cursor] := by
  unfold MBufChain.roomAfter at hroom
  by_cases hrem : last.rem = 0
  · rw [if_pos hrem] at hroom
    cases halloc : c.allocMBuf hasMemory with
    | none => simp [halloc] at hroom
    | some p =>
      obtain ⟨next, d⟩ := p
      obtain ⟨hstorage, hsame, hdata, -⟩ := h.storage.allocMBuf halloc
      have hcursor : d.writeCursor = some last.address := by
        rw [hsame.writeCursor, h.storage.cursor, hl]
        simp
      have happend : c' = d.append next ∧ cursor = next := by
        simp only [halloc, bind_eq_bind, bind_some, Option.some.injEq,
          Prod.mk.injEq] at hroom
        refine ⟨?_, hroom.1.symm⟩
        rw [← hroom.2]
        simp [MBufChain.append, hcursor]
      obtain ⟨rfl, rfl⟩ := happend
      obtain ⟨hstream, hbuffers, hheld⟩ := h.appendEmpty hstorage hsame hdata
      refine ⟨hstream, hheld, ?_, c.buffers, hbuffers⟩
      rw [MBuf.rem, MBuf.len, hdata]
      decide
  · rw [if_neg hrem] at hroom
    obtain ⟨rfl, rfl⟩ := hroom
    exact ⟨h, rfl, Nat.pos_of_ne_zero hrem, init, hl⟩

/-- Bytes that fit are added to the last buffer. -/
theorem Valid.grow (h : Valid c) {init : List MBuf} {cursor : MBuf}
    (hl : c.buffers = init ++ [cursor]) (src : List UInt8) (hrem : src.length ≤ cursor.rem)
    (hmax : c.size + src.length ≤ kSizeMax) :
    Valid { c with
      buffers := appendData cursor.address src c.buffers, size := c.size + src.length } ∧
    ({ c with buffers := appendData cursor.address src c.buffers,
              size := c.size + src.length } : MBufChain).held = c.held ++ src := by
  have hbuffers : appendData cursor.address src c.buffers =
      init ++ [{ cursor with data := cursor.data ++ src }] := by
    rw [hl]
    exact appendData_last (h.storage.ne_last hl) src
  have hbytes : bytes (appendData cursor.address src c.buffers) = bytes c.buffers ++ src := by
    rw [hbuffers, hl]
    simp
  have hsize := h.counted.size_eq
  have hoff := h.counted.off_le
  refine ⟨⟨?_, ⟨?_, ?_⟩, hmax, ?_⟩, ?_⟩
  · have haddr : (appendData cursor.address src c.buffers).map MBuf.address =
        c.buffers.map MBuf.address := by
      rw [hbuffers, hl]
      simp
    exact h.storage.of_addresses haddr rfl rfl rfl
  · rw [hbuffers]
    rw [hl] at hoff
    cases init with
    | nil =>
      simp only [nil_append, frontLen, MBuf.len, length_append] at hoff ⊢
      omega
    | cons buf rest => exact hoff
  · change c.size + src.length + c.readCursorOff = _
    rw [hbytes, length_append]
    omega
  · intro buf hbuf
    rw [hbuffers] at hbuf
    rcases mem_append.mp hbuf with hold | hnew
    · exact h.fits buf (hl ▸ mem_append_left _ hold)
    · have hcursor := h.fits cursor (hl ▸ mem_append_right _ (mem_singleton_self _))
      rw [MBuf.rem] at hrem
      rw [mem_singleton.mp hnew]
      simp only [MBuf.len, length_append] at hcursor hrem ⊢
      omega
  · change (bytes (appendData cursor.address src c.buffers)).drop c.readCursorOff = _
    rw [hbytes, drop_append_of_le_length (by omega)]
    rfl

/-- The loop of `WriteStream` ends, and adds the bytes that it counts at the end: those that fit,
if no allocation and no copy fails. -/
theorem Valid.writeLoop (hasMemory copyOk : ℕ → Bool) {fuel : ℕ} (h : Valid c)
    (hne : c.buffers ≠ []) (src : List UInt8) (pos rounds : ℕ) (hfuel : src.length < fuel) :
    ∃ status n c', MBufChain.writeLoop hasMemory copyOk fuel c src pos rounds =
        some (status, pos + n, c') ∧
      n ≤ src.length ∧ Valid c' ∧ c'.held = c.held ++ src.take n ∧
      ((∀ i, hasMemory i = true) → (∀ i, copyOk i = true) →
        n = min src.length (kSizeMax - c.size)) := by
  induction fuel generalizing c src pos rounds with
  | zero => omega
  | succ fuel ih =>
    unfold MBufChain.writeLoop
    by_cases hsrc : src = []
    · rw [if_pos hsrc]
      exact ⟨_, 0, c, rfl, Nat.zero_le _, h, by simp, by simp [hsrc]⟩
    · rw [if_neg hsrc]
      obtain ⟨init, last, hl⟩ := (eq_nil_or_concat c.buffers).resolve_left hne
      rw [concat_eq_append] at hl
      have hlookup : c.writeCursor.bind (lookup · c.buffers) = some last := by
        have hcursor : c.writeCursor = some last.address := by simp [h.storage.cursor, hl]
        rw [hcursor, hl]
        exact lookup_last (h.storage.ne_last hl)
      rw [hlookup]
      simp only [bind_eq_bind, bind_some]
      cases hroom : c.roomAfter last (hasMemory rounds) with
      | none =>
        refine ⟨_, 0, c, rfl, Nat.zero_le _, h, by simp, fun hmemory _ => ?_⟩
        rw [hmemory rounds] at hroom
        exact absurd hroom (roomAfter_ne_none c last)
      | some p =>
        obtain ⟨cursor, d⟩ := p
        obtain ⟨hd, hheld, hrem, init', hl'⟩ := h.roomAfter hl hroom
        have hsize : d.size = c.size := by rw [← hd.length_held, hheld, h.length_held]
        have hpos := length_pos_of_ne_nil hsrc
        simp only
        generalize hcopyLen : (if d.size + min cursor.rem src.length > kSizeMax
          then kSizeMax - d.size else min cursor.rem src.length) = copyLen
        split
        · rename_i hfull
          refine ⟨_, 0, d, rfl, Nat.zero_le _, hd, by simp [hheld], fun _ _ => ?_⟩
          rw [if_pos hfull.1] at hcopyLen
          omega
        · rename_i hgo
          -- the copy has some bytes, which fit in the buffer and below the limit
          have hbounds : 0 < copyLen ∧ copyLen ≤ src.length ∧ copyLen ≤ cursor.rem ∧
              d.size + copyLen ≤ kSizeMax := by
            split at hcopyLen <;> omega
          obtain ⟨hpositive, hle, hfit, hmax⟩ := hbounds
          cases hcopy : copyOk rounds with
          | false =>
            refine ⟨_, 0, d, rfl, Nat.zero_le _, hd, by simp [hheld], fun _ hall => ?_⟩
            rw [hall rounds] at hcopy
            cases hcopy
          | true =>
            have hlength : (src.take copyLen).length = copyLen := length_take_of_le hle
            have hgrow := hd.grow hl' (src.take copyLen) (by omega) (by omega)
            rw [hlength] at hgrow
            have hnonempty : appendData cursor.address (src.take copyLen) d.buffers ≠ [] := by
              rw [hl']
              simp [appendData]
            obtain ⟨status, n, c', hloop, hn, hstream, hc', hcount⟩ := ih hgrow.1 hnonempty
              (src.drop copyLen) (pos + copyLen) (rounds + 1) (by rw [length_drop]; omega)
            rw [length_drop] at hn
            refine ⟨status, copyLen + n, c', ?_, by omega, hstream, ?_, fun hmemory hall => ?_⟩
            · rw [← Nat.add_assoc]
              exact hloop
            · rw [hc', hgrow.2, hheld, append_assoc, take_add]
            · have hrest := hcount hmemory hall
              rw [length_drop] at hrest
              change n = min _ (kSizeMax - (d.size + copyLen)) at hrest
              omega

/-- `WriteStream` adds the bytes that it counts at the end of the bytes held: those that fit, if no
allocation and no copy fails. -/
theorem Valid.writeStream (h : Valid c) (src : List UInt8) (firstMemory : Bool)
    (hasMemory copyOk : ℕ → Bool) :
    ∃ status n c', c.writeStream src firstMemory hasMemory copyOk = some (status, n, c') ∧
      n ≤ src.length ∧ Valid c' ∧ c'.held = c.held ++ src.take n ∧
      (firstMemory = true → (∀ i, hasMemory i = true) → (∀ i, copyOk i = true) →
        n = min src.length (kSizeMax - c.size)) := by
  unfold MBufChain.writeStream
  cases hcursor : c.writeCursor with
  | some cursor =>
    have hne : c.buffers ≠ [] := by
      intro hnil
      rw [h.storage.cursor, hnil] at hcursor
      simp at hcursor
    obtain ⟨status, n, c', hloop, hn, hc', hheld, hcount⟩ :=
      h.writeLoop hasMemory copyOk hne src 0 0 (Nat.lt_succ_self _)
    exact ⟨status, n, c', by rw [hloop, Nat.zero_add], hn, hc', hheld, fun _ => hcount⟩
  | none =>
    cases halloc : c.allocMBuf firstMemory with
    | none =>
      refine ⟨_, 0, c, rfl, Nat.zero_le _, h, by simp, fun hmemory => ?_⟩
      rw [hmemory] at halloc
      exact absurd halloc (allocMBuf_ne_none c)
    | some p =>
      obtain ⟨buf, d⟩ := p
      obtain ⟨hstorage, hsame, hdata, -⟩ := h.storage.allocMBuf halloc
      obtain ⟨hstream, hbuffers, hheld⟩ := h.appendEmpty hstorage hsame hdata
      have happend : ({ d with buffers := buf :: d.buffers, writeCursor := some buf.address } :
          MBufChain) = d.append buf := by
        simp [MBufChain.append, hsame.writeCursor, hcursor]
      have hsize : (d.append buf).size = c.size := by rw [append_size, hsame.size]
      obtain ⟨status, n, c', hloop, hn, hc', hkeep, hcount⟩ :=
        hstream.writeLoop hasMemory copyOk (by simp [hbuffers]) src 0 0 (Nat.lt_succ_self _)
      refine ⟨status, n, c', ?_, hn, hc', by rw [hkeep, hheld], fun _ => hsize ▸ hcount⟩
      simp only [happend, hloop, Nat.zero_add]

end Write

end MBufChain

end Smos.Socket
