import Smos.Socket.StreamMode

/-!
A chain of datagrams.

The buffers of a packet follow each other, and only the first one has the length of the packet.  A
read drops the buffers of the first packet, those that it copies and those that are left, and a
write adds the buffers of one packet at the end or none.
-/
namespace Smos.Socket

open List

variable {buf : MBuf} {rest l rest : List MBuf} {q : List (List UInt8)}

/-- The packets in a list of buffers, after the bytes of a packet that started before. -/
def packetsFrom : List MBuf → List UInt8 × List (List UInt8)
  | [] => ([], [])
  | buf :: rest =>
    let (body, packets) := packetsFrom rest
    if buf.pktLen = 0 then (buf.data ++ body, packets) else ([], (buf.data ++ body) :: packets)

inductive Packed : List MBuf → List (List UInt8) → Prop
  | nil : Packed [] []
  | cons {first : MBuf} {rest l : List MBuf} {q : List (List UInt8)}
      (len_eq : first.pktLen = (bytes (first :: rest)).length) (starts : first.pktLen ≠ 0)
      (body : ∀ buf ∈ rest, buf.pktLen = 0) (others : Packed l q) :
      Packed (first :: rest ++ l) (bytes (first :: rest) :: q)

theorem packetsFrom_body (hbody : ∀ buf ∈ rest, buf.pktLen = 0)
    (hl : packetsFrom l = ([], q)) :
    packetsFrom (rest ++ l) = (bytes rest, q) := by
  induction rest with
  | nil => exact hl
  | cons buf rest ih =>
    have hrest := ih (forall_mem_cons.mp hbody).2
    simp [packetsFrom, hrest, hbody buf mem_cons_self]

theorem Packed.packetsFrom_eq (h : Packed l q) :
    packetsFrom l = ([], q) := by
  induction h with
  | nil => rfl
  | cons len_eq starts body others ih =>
    simp [packetsFrom, packetsFrom_body body ih, starts]

theorem Packed.bytes_eq (h : Packed l q) :
    bytes l = q.flatten := by
  induction h with
  | nil => rfl
  | cons len_eq starts body others ih => rw [bytes_append, ih, flatten_cons]

theorem Packed.append {m : List MBuf} {q p : List (List UInt8)} (h : Packed l q)
    (k : Packed m p) : Packed (l ++ m) (q ++ p) := by
  induction h with
  | nil => exact k
  | cons len_eq starts body others ih =>
    rw [append_assoc]
    exact Packed.cons len_eq starts body ih

theorem Packed.starts (h : Packed l q) :
    ∀ buf ∈ l.head?, buf.pktLen ≠ 0 := by
  intro buf hbuf
  cases h with
  | nil => simp at hbuf
  | cons len_eq starts body others =>
    rw [cons_append, head?_cons, Option.mem_some_iff] at hbuf
    exact hbuf ▸ starts

/-- The first packet of a list of buffers, if there is one. -/
theorem Packed.front (h : Packed l q) :
    (l = [] ∧ q = []) ∨ ∃ first rest others p, l = first :: rest ++ others ∧
      q = bytes (first :: rest) :: p ∧ first.pktLen = (bytes (first :: rest)).length ∧
      first.pktLen ≠ 0 ∧ (∀ buf ∈ rest, buf.pktLen = 0) ∧ Packed others p := by
  cases h with
  | nil => exact .inl ⟨rfl, rfl⟩
  | cons len_eq starts body others =>
    exact .inr ⟨_, _, _, _, rfl, rfl, len_eq, starts, body, others⟩

namespace MBufChain

variable {c c' : MBufChain} {r r' : Reader} {len : ℕ} {first : MBuf}

def packets (c : MBufChain) : List (List UInt8) := (packetsFrom c.buffers).2

structure Datagram (c : MBufChain) (q : List (List UInt8)) : Prop extends Valid c where
  packed : Packed c.buffers q
  cursor_eq : c.readCursorOff = 0

theorem Datagram.new : Datagram new [] := ⟨Valid.new, Packed.nil, rfl⟩

theorem Datagram.size_eq (h : Datagram c q) :
    c.size = (bytes c.buffers).length := by
  have hsize := h.counted.size_eq
  rwa [h.cursor_eq] at hsize

theorem Datagram.packets_eq (h : Datagram c q) :
    c.packets = q := by
  rw [packets, h.packed.packetsFrom_eq]

section Read

structure Dropping (c : MBufChain) (r : Reader) : Prop extends Consuming c r where
  off : r.readOff = 0

theorem Dropping.round (copyOk : ℕ → Bool) (h : Dropping c r) (hiter : r.iter = buf :: rest)
    (hrun : r.Running len) (hr' : readRound true true len copyOk r buf rest = r') :
    Dropping c r' ∧ r'.chain.buffers = rest ∧ r'.outcome len copyOk = r.outcome len copyOk ∧
      (r'.status = .ok → r'.out = r.out ++ buf.data.take (len - r.out.length)) := by
  have hl : r.chain.buffers = buf :: rest := h.iter ▸ hiter
  have htail : r.chain.buffers.tail = rest := by rw [hl, tail_cons]
  have htake := take_copyLen buf 0 (len - r.out.length)
  rw [Nat.sub_zero, drop_zero] at htake
  rw [Reader.outcome_running copyOk hiter hrun, h.off]
  -- the size goes down by the whole buffer, however much of it was copied
  have hround : r' =
      ⟨({ r.chain with size := r.chain.size - buf.len } : MBufChain).popFront buf, rest, 0,
        if copyOk r.copies then r.out ++ buf.data.take (len - r.out.length) else r.out,
        if copyOk r.copies then .ok else .invalidArgs, r.copies + 1⟩ := by
    cases hcopy : copyOk r.copies with
    | false => simp [← hr', readRound, hcopy, h.off, popFront, freeMBuf, htail]
    | true =>
      have hsub : r.chain.size - min buf.len (len - r.out.length) -
          (buf.len - min buf.len (len - r.out.length)) = r.chain.size - buf.len := by omega
      simp [← hr', readRound, hcopy, h.off, popFront, freeMBuf, htail, htake, hsub]
  rw [hround]
  refine ⟨⟨h.toConsuming.pop hl buf.len (by rw [h.off, Nat.zero_add]) _ _ _, rfl⟩, htail, ?_, ?_⟩
  · cases hcopy : copyOk r.copies <;> simp [Reader.outcome]
  · cases hcopy : copyOk r.copies <;> simp

/-- The buffers that are left of a packet are dropped. -/
theorem Dropping.drain (h : Dropping c r) {group : List MBuf}
    (hl : r.chain.buffers = group ++ l) (hbody : ∀ buf ∈ group, buf.pktLen = 0)
    (hstart : ∀ buf ∈ l.head?, buf.pktLen ≠ 0) :
    ∃ c', r.chain.drain 0 (group ++ l) = (c', 0) ∧ c'.buffers = l ∧ Storage c' [] ∧
      Counted c' 0 := by
  induction group generalizing r with
  | nil =>
    refine ⟨r.chain, ?_, hl, h.storage, h.off ▸ h.counted⟩
    cases l with
    | nil => rfl
    | cons buf rest =>
      rw [nil_append, MBufChain.drain, if_neg (hstart buf rfl)]
  | cons buf rest ih =>
    have hpop := h.toConsuming.pop hl buf.len (by rw [h.off, Nat.zero_add]) r.out r.status r.copies
    obtain ⟨c', hdrain, hc'⟩ := ih ⟨hpop, rfl⟩ hpop.iter.symm
      (forall_mem_cons.mp hbody).2
    refine ⟨c', ?_, hc'⟩
    rw [cons_append, MBufChain.drain, if_pos (hbody buf mem_cons_self)]
    exact hdrain

/-- The loop of a `Read` of some bytes drops the first buffer of the packet and maybe others. -/
theorem Datagram.readLoop_first (h : Datagram c q) {others : List MBuf}
    (hl : c.buffers = first :: rest ++ others) (hlen : 0 < len)
    (hle : len ≤ (bytes (first :: rest)).length) (copyOk : ℕ → Bool) :
    ∃ r group, readLoop true true len copyOk (c.buffers.length + 1) (Reader.start c) = some r ∧
      (r.status, r.out) = (Reader.start c).outcome len copyOk ∧ Dropping c r ∧
      group <:+ rest ∧ r.chain.buffers = group ++ others := by
  generalize houtcome : (Reader.start c).outcome len copyOk = o
  -- what is left of the packet has the bytes that are still asked for
  let Inv : Reader → Prop := fun r => Dropping c r ∧ r.outcome len copyOk = o ∧
    (r = Reader.start c ∨ ∃ group, group <:+ rest ∧ r.chain.buffers = group ++ others ∧
      (r.status = .ok → len ≤ r.out.length + (bytes group).length))
  have hround : ∀ r buf tail r', r.iter = buf :: tail → r.Running len → Inv r →
      readRound true true len copyOk r buf tail = r' →
        Inv r' ∧ (r'.iter = tail ∨ ¬ r'.Running len) := by
    intro r buf tail r' hiter hrun hinv hr'
    obtain ⟨hdrop, hout, hplace⟩ := hinv
    obtain ⟨hnext, hbuffers, hkeep, hcopied⟩ := hdrop.round copyOk hiter hrun hr'
    have hr : r.chain.buffers = buf :: tail := hdrop.iter ▸ hiter
    refine ⟨⟨hnext, hkeep.trans hout, .inr ?_⟩, .inl (hnext.iter.trans hbuffers)⟩
    rcases hplace with rfl | ⟨group, hsuffix, hgroup, hbytes⟩
    · -- the first buffer of the packet
      change c.buffers = buf :: tail at hr
      rw [hl, cons_append] at hr
      obtain ⟨rfl, rfl⟩ := hr
      refine ⟨rest, suffix_rfl, hbuffers, fun hok => ?_⟩
      rw [hcopied hok]
      rw [bytes_cons, length_append] at hle
      simp only [length_append, length_take]
      omega
    · cases group with
      | nil =>
        have hbytes := hbytes hrun.2
        have hlt := hrun.1
        rw [bytes_nil, length_nil] at hbytes
        omega
      | cons front group =>
        rw [hr, cons_append] at hgroup
        obtain ⟨rfl, rfl⟩ := hgroup
        refine ⟨group, (suffix_cons _ _).trans hsuffix, hbuffers, fun hok => ?_⟩
        have hbytes := hbytes hrun.2
        rw [hcopied hok]
        rw [bytes_cons, length_append] at hbytes
        simp only [length_append, length_take]
        omega
  have hstart : Dropping c (Reader.start c) := ⟨Consuming.start h.toValid, h.cursor_eq⟩
  obtain ⟨r, hloop, ⟨hdrop, hout, hplace⟩, hstop⟩ :=
    readLoop_rule true true len copyOk Inv hround (c.buffers.length + 1) (Reader.start c)
      (.inl (Nat.lt_succ_self _)) ⟨hstart, houtcome, .inl rfl⟩
  rw [Reader.outcome_stopped copyOk hstop] at hout
  rcases hplace with rfl | ⟨group, hsuffix, hgroup, -⟩
  · -- the loop has not ended where it starts
    rcases hstop with hnil | hstop
    · change c.buffers = [] at hnil
      rw [hl] at hnil
      cases hnil
    · exact absurd ⟨hlen, rfl⟩ hstop
  · exact ⟨r, group, hloop, hout, hdrop, hsuffix, hgroup⟩

/-- Without packets at the front a chain is still one in datagram mode. -/
theorem Datagram.later {q p : List (List UInt8)} (h : Datagram c q) (hstorage : Storage c' [])
    (hcounted : Counted c' 0) (hsuffix : c'.buffers <:+ c.buffers) (hpacked : Packed c'.buffers p) :
    Datagram { c' with readCursorOff := 0 } p := by
  have hsize := hcounted.size_eq
  have htotal := h.size_eq
  have hle : (bytes c'.buffers).length ≤ (bytes c.buffers).length := by
    obtain ⟨before, hbefore⟩ := hsuffix
    rw [← hbefore, bytes_append, length_append]
    omega
  exact ⟨h.toValid.of_suffix (hstorage.of_addresses rfl rfl rfl rfl)
    ⟨hcounted.off_le, hcounted.size_eq⟩ (show c'.size ≤ c.size by omega) hsuffix, hpacked, rfl⟩

theorem Datagram.size_pos (h : Datagram c q) {others : List MBuf}
    (hl : c.buffers = first :: rest ++ others)
    (hlen : first.pktLen = (bytes (first :: rest)).length) (hstarts : first.pktLen ≠ 0) :
    c.size ≠ 0 := by
  have hsize := h.size_eq
  rw [hl, bytes_append, length_append] at hsize
  omega

/-- The length that a read asks for is cut at the end of the packet. -/
theorem readLen_datagram (hl : c.buffers = first :: rest) (len : ℕ) :
    c.readLen len true = min len first.pktLen := by
  unfold readLen
  rw [hl]
  simp only [true_and]
  split <;> omega

/-- A `Read` of some bytes removes the first packet, whether its copies fail or not. -/
theorem Datagram.read (h : Datagram c q) (len : ℕ) (copyOk : ℕ → Bool) :
    ∃ c', c.read len true copyOk =
        some ((c.delivery len true copyOk).1, (c.delivery len true copyOk).2, c') ∧
      Datagram c' (if len = 0 then q else q.tail) := by
  unfold MBufChain.read delivery
  rcases h.packed.front with ⟨hnil, hq⟩ | ⟨first, rest, others, p, hl, hq, hlength, hstarts, hbody,
    hothers⟩
  · have hsize : c.size = 0 := by simpa [hnil] using h.size_eq
    refine ⟨c, by simp [readHelper, hsize], ?_⟩
    rw [hq] at h ⊢
    simpa using h
  · have hsize := h.size_pos hl hlength hstarts
    rw [if_neg hsize, ← Reader.outcome_start, readLen_datagram hl]
    rcases Nat.eq_zero_or_pos len with rfl | hpos
    · -- nothing is read, and the first buffer starts a packet
      have hloop : readLoop true true (c.readLen 0 true) copyOk (c.buffers.length + 1)
          (Reader.start c) = some (Reader.start c) := by
        rw [readLen_datagram hl]
        unfold MBufChain.readLoop Reader.start
        simp only [hl, cons_append]
        simp
      have hstart : Dropping c (Reader.start c) := ⟨Consuming.start h.toValid, h.cursor_eq⟩
      obtain ⟨c', hdrain, hbuffers, hstorage, hcounted⟩ :=
        hstart.drain (nil_append c.buffers).symm (fun _ hb => absurd hb not_mem_nil)
          h.packed.starts
      rw [readHelper_of_loop hsize hloop]
      refine ⟨{ c' with readCursorOff := 0 }, ?_, ?_⟩
      · rw [Nat.zero_min, Reader.outcome_start, gather_of_le copyOk _ _ _ (Nat.zero_le _)]
        change some (Status.ok, ([] : List UInt8), _) = _
        change c.drain 0 c.buffers = (c', 0) at hdrain
        simp only [Reader.start, h.cursor_eq, hdrain]
      · exact h.later hstorage hcounted (hbuffers ▸ suffix_rfl) (by rw [hbuffers]; exact h.packed)
    · have hmin : 0 < min len first.pktLen := by omega
      obtain ⟨r, group, hloop, hout, hdrop, hsuffix, hgroup⟩ :=
        h.readLoop_first hl hmin (by omega) copyOk
      obtain ⟨c', hdrain, hbuffers, hstorage, hcounted⟩ :=
        hdrop.drain hgroup (fun buf hb => hbody buf (hsuffix.mem hb)) hothers.starts
      rw [← readLen_datagram hl] at hloop
      rw [readHelper_of_loop hsize hloop, ← hout]
      refine ⟨{ c' with readCursorOff := 0 }, ?_, ?_⟩
      · rw [← hgroup] at hdrain
        simp [hdrop.off, hdrain]
      · rw [if_neg (Nat.ne_of_gt hpos), hq]
        have hpart : c'.buffers <:+ c.buffers := by
          rw [hbuffers, hl]
          exact suffix_append _ _
        exact h.later hstorage hcounted hpart (by rw [hbuffers]; exact hothers)

/-- What a read delivers is the front of the oldest packet. -/
theorem Datagram.delivery_front (h : Datagram c q) (len : ℕ) (copyOk : ℕ → Bool) :
    (c.delivery len true copyOk).2 <+: (q.headD []).take len ∧
      ((c.delivery len true copyOk).1 = .ok →
        (c.delivery len true copyOk).2 = (q.headD []).take len) := by
  unfold MBufChain.delivery
  rcases h.packed.front with ⟨hnil, hq⟩ | ⟨first, rest, others, p, hl, hq, hlength, hstarts, -, -⟩
  · have hsize : c.size = 0 := by simpa [hnil] using h.size_eq
    simp [hsize, hq]
  · have hspec := gather_spec (min len first.pktLen) copyOk c.buffers c.readCursorOff 0 []
      (h.cursor_eq ▸ Nat.zero_le _)
    have hfront : (content c.buffers c.readCursorOff).take (min len first.pktLen - 0) =
        (bytes (first :: rest)).take len := by
      rw [content, h.cursor_eq, drop_zero, hl, bytes_append, Nat.sub_zero, hlength,
        take_append_of_le_length (Nat.min_le_right _ _), ← take_take, take_length]
    rw [length_nil, hfront] at hspec
    rw [if_neg (h.size_pos hl hlength hstarts), readLen_datagram hl, hq]
    exact hspec

end Read

section Write

/-- The buffers for a packet are all there and empty, or none is kept. -/
theorem Storage.allocAll (hasMemory : ℕ → Bool) (bufs : List MBuf) (need : ℕ)
    (h : Storage c (bufs.map MBuf.address))
    (hclean : ∀ buf ∈ bufs, buf.data = [] ∧ buf.pktLen = 0) :
    SameQueue c (c.allocAll hasMemory bufs need).2 ∧
      match (c.allocAll hasMemory bufs need).1 with
      | none => Storage (c.allocAll hasMemory bufs need).2 []
      | some l => Storage (c.allocAll hasMemory bufs need).2 (l.map MBuf.address) ∧
        (∀ buf ∈ l, buf.data = [] ∧ buf.pktLen = 0) ∧ l.length = bufs.length + need := by
  induction need generalizing c bufs with
  | zero => exact ⟨SameQueue.refl c, h, hclean, rfl⟩
  | succ need ih =>
    unfold MBufChain.allocAll
    cases halloc : c.allocMBuf (hasMemory need) with
    | none =>
      rw [← append_nil (bufs.map MBuf.address)] at h
      exact ⟨h.freeAll.2, h.freeAll.1⟩
    | some p =>
      obtain ⟨buf, d⟩ := p
      obtain ⟨hstorage, hsame, hdata⟩ := h.allocMBuf halloc
      have hnext : ∀ b ∈ buf :: bufs, b.data = [] ∧ b.pktLen = 0 :=
        forall_mem_cons.mpr ⟨hdata, hclean⟩
      obtain ⟨hkeep, hresult⟩ := ih (buf :: bufs) hstorage hnext
      refine ⟨hsame.trans hkeep, ?_⟩
      split
      · rename_i hnone
        rw [hnone] at hresult
        exact hresult
      · rename_i l hsome
        rw [hsome] at hresult
        refine ⟨hresult.1, hresult.2.1, ?_⟩
        rw [hresult.2.2, length_cons]
        omega

/-- The filled buffers are the same ones, with the bytes in order. -/
theorem fill_spec {copyOk : ℕ → Bool} {copies : ℕ} {src : List UInt8} {bufs filled : List MBuf}
    (h : fill copyOk copies src bufs = some filled)
    (hclean : ∀ buf ∈ bufs, buf.data = [] ∧ buf.pktLen = 0)
    (hroom : src.length ≤ bufs.length * kPayloadSize) :
    filled.map MBuf.address = bufs.map MBuf.address ∧ bytes filled = src ∧
      ∀ buf ∈ filled, buf.pktLen = 0 ∧ buf.len ≤ kPayloadSize := by
  induction bufs generalizing copies src filled with
  | nil =>
    rw [fill, Option.some.injEq] at h
    subst h
    have hsrc : src = [] := length_eq_zero_iff.mp (by simpa using hroom)
    simp [hsrc]
  | cons buf rest ih =>
    unfold fill at h
    cases hcopy : copyOk copies with
    | false => simp [hcopy] at h
    | true =>
      simp only [hcopy, if_true, Option.map_eq_some_iff] at h
      obtain ⟨tail, htail, rfl⟩ := h
      have hbuf := hclean buf mem_cons_self
      have hshort : (src.drop (min kPayloadSize src.length)).length ≤
          rest.length * kPayloadSize := by
        rw [length_cons, Nat.add_mul] at hroom
        rw [length_drop]
        omega
      obtain ⟨haddr, hbytes, hall⟩ :=
        ih htail (forall_mem_cons.mp hclean).2 hshort
      refine ⟨by rw [map_cons, map_cons, haddr], ?_, ?_⟩
      · rw [bytes_cons, hbytes, hbuf.1, nil_append, take_append_drop]
      · intro b hb
        rcases mem_cons.mp hb with rfl | hb
        · refine ⟨hbuf.2, ?_⟩
          rw [MBuf.len, hbuf.1, nil_append, length_take]
          omega
        · exact hall b hb

theorem Storage.appendAll (h : Storage c (l.map MBuf.address)) :
    (l.foldl MBufChain.append c).buffers = c.buffers ++ l ∧
      Storage (l.foldl MBufChain.append c) [] ∧
      (l.foldl MBufChain.append c).size = c.size ∧
      (l.foldl MBufChain.append c).readCursorOff = c.readCursorOff := by
  induction l generalizing c with
  | nil => exact ⟨(append_nil _).symm, h, rfl, rfl⟩
  | cons next rest ih =>
    obtain ⟨hbuffers, hstorage⟩ := h.append
    obtain ⟨hall, hkeep, hsize, hoff⟩ := ih hstorage
    refine ⟨?_, hkeep, ?_, ?_⟩
    · rw [foldl_cons, hall, hbuffers, append_assoc, singleton_append]
    · rw [foldl_cons, hsize, append_size]
    · rw [foldl_cons, hoff, append_readCursorOff]

theorem Datagram.sameQueue (h : Datagram c q) (hstorage : Storage c' []) (hsame : SameQueue c c') :
    Datagram c' q := by
  have hcounted : Counted c' c'.readCursorOff := by
    constructor
    · rw [hsame.readCursorOff, hsame.buffers]
      exact h.counted.off_le
    · rw [hsame.size, hsame.readCursorOff, hsame.buffers]
      exact h.counted.size_eq
  refine ⟨h.toValid.of_suffix hstorage hcounted (Nat.le_of_eq hsame.size)
    (hsame.buffers ▸ suffix_rfl), ?_, hsame.readCursorOff.trans h.cursor_eq⟩
  rw [hsame.buffers]
  exact h.packed

/-- The buffers of a packet are put behind the others. -/
theorem Datagram.push (h : Datagram c q) (hsame : SameQueue c c')
    {src : List UInt8} (hstorage : Storage c' ((first :: rest).map MBuf.address))
    (hbytes : bytes (first :: rest) = src) (hlen : first.pktLen = src.length)
    (hsrc : src.length ≠ 0) (hbody : ∀ buf ∈ rest, buf.pktLen = 0)
    (hfits : ∀ buf ∈ first :: rest, buf.len ≤ kPayloadSize)
    (hmax : src.length + c.size ≤ kSizeMax) :
    Datagram { (first :: rest).foldl MBufChain.append c' with
      size := ((first :: rest).foldl MBufChain.append c').size + src.length } (q ++ [src]) := by
  obtain ⟨hbuffers, hkeep, hsize, hoff⟩ := hstorage.appendAll
  generalize (first :: rest).foldl MBufChain.append c' = d at *
  rw [hsame.buffers] at hbuffers
  rw [hsame.size] at hsize
  rw [hsame.readCursorOff, h.cursor_eq] at hoff
  have hpacket : Packed (first :: rest) [src] := by
    have hcons := Packed.cons (hbytes ▸ hlen) (hlen ▸ hsrc) hbody Packed.nil
    rwa [append_nil, hbytes] at hcons
  refine ⟨h.toValid.of_append (hkeep.of_addresses rfl rfl rfl rfl) hbuffers
    (hoff.trans h.cursor_eq.symm) ?_ ?_ hfits, ?_, hoff⟩
  · rw [hsize, hbytes]
  · change d.size + src.length ≤ kSizeMax
    omega
  · rw [hbuffers]
    exact h.packed.append hpacket

/-- `WriteDatagram` adds the whole packet, or nothing if it fails. -/
theorem Datagram.writeDatagram (h : Datagram c q) (src : List UInt8) (hasMemory copyOk : ℕ → Bool) :
    (c.writeDatagram src hasMemory copyOk).1 = .ok ∧
        Datagram (c.writeDatagram src hasMemory copyOk).2.2 (q ++ [src]) ∨
      (c.writeDatagram src hasMemory copyOk).1 ≠ .ok ∧
        SameQueue c (c.writeDatagram src hasMemory copyOk).2.2 ∧
        Datagram (c.writeDatagram src hasMemory copyOk).2.2 q := by
  unfold MBufChain.writeDatagram
  have hrefused : ∀ status : Status, status ≠ .ok →
      status ≠ .ok ∧ SameQueue c c ∧ Datagram c q := fun _ hne => ⟨hne, SameQueue.refl c, h⟩
  by_cases hzero : src.length = 0
  · rw [if_pos hzero]
    exact .inr (hrefused .invalidArgs (by simp))
  by_cases hlarge : src.length > kSizeMax
  · rw [if_neg hzero, if_pos hlarge]
    exact .inr (hrefused .outOfRange (by simp))
  by_cases hfull : src.length + c.size > kSizeMax
  · rw [if_neg hzero, if_neg hlarge, if_pos hfull]
    exact .inr (hrefused .shouldWait (by simp))
  simp only [if_neg hzero, if_neg hlarge, if_neg hfull]
  have halloc := Storage.allocAll hasMemory [] (1 + (src.length - 1) / kPayloadSize) h.storage
    (fun _ hb => absurd hb not_mem_nil)
  generalize c.allocAll hasMemory [] (1 + (src.length - 1) / kPayloadSize) = a at *
  obtain ⟨bufs?, d⟩ := a
  obtain ⟨hsame, hresult⟩ := halloc
  cases bufs? with
  | none => exact .inr ⟨by simp, hsame, h.sameQueue hresult hsame⟩
  | some bufs =>
    obtain ⟨hstorage, hclean, hlength⟩ := hresult
    -- the number of buffers is enough for the packet
    have hroom : src.length ≤ bufs.length * kPayloadSize := by
      rw [hlength, show kPayloadSize = 2008 from rfl]
      omega
    simp only
    cases hfill : fill copyOk 0 src bufs with
    | none =>
      have hfree : Storage (d.freeAll bufs) [] ∧ SameQueue d (d.freeAll bufs) :=
        Storage.freeAll (by simpa using hstorage)
      have hkeep := hsame.trans hfree.2
      exact .inr ⟨by simp, hkeep, h.sameQueue hfree.1 hkeep⟩
    | some filled =>
      obtain ⟨haddr, hbytes, hall⟩ := fill_spec hfill hclean hroom
      cases filled with
      | nil => exact absurd (by rw [← hbytes]; rfl) hzero
      | cons first rest =>
        refine .inl ⟨rfl, ?_⟩
        have hpacket : Storage d (({ first with pktLen := src.length } :: rest).map MBuf.address) :=
          haddr ▸ hstorage
        exact h.push hsame hpacket hbytes rfl hzero
          (fun buf hb => (hall buf (mem_cons_of_mem _ hb)).1)
          (fun buf hb => by
            rcases mem_cons.mp hb with rfl | hb
            · exact (hall first mem_cons_self).2
            · exact (hall buf (mem_cons_of_mem _ hb)).2) (by omega)

theorem allocAll_eq_some {hasMemory : ℕ → Bool} (hmemory : ∀ i, hasMemory i = true)
    (c : MBufChain) (bufs : List MBuf) (need : ℕ) :
    ∃ l d, c.allocAll hasMemory bufs need = (some l, d) := by
  induction need generalizing c bufs with
  | zero => exact ⟨bufs, c, rfl⟩
  | succ need ih =>
    rw [MBufChain.allocAll, hmemory]
    cases halloc : c.allocMBuf true with
    | none => exact absurd halloc (allocMBuf_ne_none c)
    | some p => exact ih p.2 (p.1 :: bufs)

theorem fill_eq_some {copyOk : ℕ → Bool} (hcopy : ∀ i, copyOk i = true) (copies : ℕ)
    (src : List UInt8) (bufs : List MBuf) :
    ∃ filled, fill copyOk copies src bufs = some filled := by
  induction bufs generalizing copies src with
  | nil => exact ⟨[], rfl⟩
  | cons buf rest ih =>
    obtain ⟨filled, hrest⟩ := ih (copies + 1) (src.drop (min kPayloadSize src.length))
    rw [fill, if_pos (hcopy copies), hrest]
    exact ⟨_, rfl⟩

/-- A packet that fits is only refused if an allocation or a copy fails. -/
theorem writeDatagram_ok {src : List UInt8} {hasMemory copyOk : ℕ → Bool}
    (hmemory : ∀ i, hasMemory i = true) (hcopy : ∀ i, copyOk i = true) (hpos : 0 < src.length)
    (hfit : src.length + c.size ≤ kSizeMax) :
    (c.writeDatagram src hasMemory copyOk).1 = .ok := by
  have hlarge : ¬ src.length > kSizeMax := by omega
  obtain ⟨bufs, d, halloc⟩ :=
    allocAll_eq_some hmemory c [] (1 + (src.length - 1) / kPayloadSize)
  obtain ⟨filled, hfill⟩ := fill_eq_some hcopy 0 src bufs
  unfold MBufChain.writeDatagram
  simp only [if_neg (Nat.ne_of_gt hpos), if_neg hlarge, if_neg (Nat.not_lt.mpr hfit), halloc, hfill]
  cases filled <;> rfl

end Write

end MBufChain

end Smos.Socket
