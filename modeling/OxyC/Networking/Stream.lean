import OxyC.Networking.Transfer

/-!
# The byte stream of a transfer

Invariants of the two parties relative to the client's file: every segment
carries the file's bytes at its stream position, the server has written a
prefix of the file, and the client still holds what has not been acknowledged.
-/

namespace OxyC.Networking

open OxyC.Foundation

theorem toNat_add_ofNat {a : UInt32} {n : Nat} (h : a.toNat + n < 2 ^ 32) :
    (a + UInt32.ofNat n).toNat = a.toNat + n := by
  rw [UInt32.toNat_add, UInt32.toNat_ofNat']
  omega

namespace Session

variable (q : Session)

/-- `payload` is the part of the file at the stream position `seq`. -/
def Segment (seq : UInt32) (payload : List UInt8) : Prop :=
  ∃ off, seq.toNat = q.first + off ∧ SliceAt q.contents off payload

theorem first_pos : 0 < q.first := by
  unfold first
  omega

/-- What the server holds: a prefix of the file, written, and segments of it, buffered. -/
structure Rebuilds (r : Reassembly) : Prop where
  expected_eq : r.expected.toNat = q.first + r.out.length
  out_eq : r.out = q.contents.take r.out.length
  buffered : ∀ b ∈ r.bufs, b.seq ≠ 0 → q.Segment b.seq b.bytes ∧ b.len = b.bytes.length

variable {q}

namespace Rebuilds

theorem expected_ne_zero {r : Reassembly} (h : q.Rebuilds r) : r.expected ≠ 0 := by
  intro hzero
  have heq := h.expected_eq
  have hpos := q.first_pos
  rw [hzero] at heq
  simp at heq
  omega

theorem append (hq : q.NoWrap) {r : Reassembly} (h : q.Rebuilds r) {payload : List UInt8}
    (hseg : q.Segment r.expected payload) :
    (r.expected + UInt32.ofNat payload.length).toNat =
        q.first + (r.out ++ payload).length ∧
      r.out ++ payload = q.contents.take (r.out ++ payload).length := by
  obtain ⟨off, hoff, hslice⟩ := hseg
  have heq := h.expected_eq
  have hle := hslice.le_length
  have hoff' : off = r.out.length := by omega
  subst hoff'
  constructor
  · rw [List.length_append, toNat_add_ofNat]
    · omega
    · unfold NoWrap at hq
      omega
  · rw [List.length_append, ← hslice.take_append, ← h.out_eq]

theorem releases (hq : q.NoWrap) {r r' : Reassembly} (h : q.Rebuilds r)
    (hrel : Reassembly.Releases r r') : q.Rebuilds r' := by
  have hmem := fun b => hrel.mem_of_occupied (b := b)
  obtain ⟨before, after, b, hbufs, hseq, hbufs', hexpected, hout⟩ := hrel
  have hb : b ∈ r.bufs := by simp [hbufs]
  obtain ⟨hseg, hlen⟩ := h.buffered b hb (by
    rw [hseq]
    exact h.expected_ne_zero)
  rw [hseq] at hseg
  obtain ⟨hnext, hprefix⟩ := h.append hq hseg
  exact
    { expected_eq := by rw [hexpected, hout, hlen, hnext]
      out_eq := by rw [hout, ← hprefix]
      buffered := fun c hc hne => h.buffered c (hmem c hc hne) hne }

theorem write (hq : q.NoWrap) {r : Reassembly} (h : q.Rebuilds r) {payload : List UInt8}
    (hseg : q.Segment r.expected payload) : q.Rebuilds (r.write payload) := by
  obtain ⟨hnext, hprefix⟩ := h.append hq hseg
  exact ⟨hnext, hprefix, h.buffered⟩

theorem place {r : Reassembly} (h : q.Rebuilds r) {seq : UInt32} {payload : List UInt8}
    (hseg : q.Segment seq payload) : q.Rebuilds (r.place seq payload) := by
  refine ⟨h.expected_eq, h.out_eq, ?_⟩
  intro b hb hne
  rcases Reassembly.mem_place hb with hb | ⟨a, -, -, rfl⟩
  · exact h.buffered b hb hne
  · simpa using hseg

end Rebuilds

/--
The receive loop's reaction to a segment of the file, or to a datagram from
before the first file byte: it returns, and it only extends what is written.
-/
theorem Rebuilds.receive (hq : q.NoWrap) {r : Reassembly} (h : q.Rebuilds r) {seq : UInt32}
    {payload : List UInt8} (hpacket : seq.toNat < q.first ∨ q.Segment seq payload) :
    ∃ r', r.receive seq payload = some r' ∧ q.Rebuilds r' ∧
      r.out.length ≤ r'.out.length := by
  have heq := h.expected_eq
  by_cases horder : seq = r.expected
  · have hseg : q.Segment r.expected payload := by
      rcases hpacket with hold | hseg
      · rw [horder] at hold
        omega
      · rwa [← horder]
    have hwrite : q.Rebuilds (r.write payload) ∧ r.out.length ≤ (r.write payload).out.length :=
      ⟨h.write hq hseg, by simp⟩
    have hstep : ∀ s s' : Reassembly, q.Rebuilds s ∧ r.out.length ≤ s.out.length →
        Reassembly.Releases s s' → q.Rebuilds s' ∧ r.out.length ≤ s'.out.length := by
      rintro s s' ⟨hs, hle⟩ hrel
      refine ⟨hs.releases hq hrel, ?_⟩
      obtain ⟨before, after, b, -, -, -, -, hout⟩ := hrel
      rw [hout, List.length_append]
      omega
    obtain ⟨r', hdrain⟩ :=
      Reassembly.drain_isSome hstep (fun s hs => hs.1.expected_ne_zero) hwrite
    refine ⟨r', by simp [Reassembly.receive, horder, hdrain], ?_⟩
    exact Reassembly.drain_invariant hstep hwrite hdrain
  · by_cases hlater : r.expected < seq
    · have hseg : q.Segment seq payload := by
        rcases hpacket with hold | hseg
        · rw [UInt32.lt_iff_toNat_lt] at hlater
          omega
        · exact hseg
      exact ⟨r.place seq payload, by simp [Reassembly.receive, horder, hlater],
        h.place hseg, le_rfl⟩
    · exact ⟨r, by simp [Reassembly.receive, horder, hlater], h, le_rfl⟩

/-- The file position, `nextseq` and the slots in use agree with the file. -/
structure Holds (q : Session) (c : Client) : Prop where
  contents_eq : c.input.contents = q.contents
  nextseq_eq : c.nextseq.toNat = q.first + c.input.pos
  held : ∀ i, c.inUse i = true →
    q.Segment (c.inflight i).seq (c.inflight i).bytes ∧
      (c.inflight i).len = (c.inflight i).bytes.length

/-- Slot `i` is in use and holds the byte at offset `k` of the file. -/
def HeldIn (q : Session) (c : Client) (i : Fin maxInflight) (k : Nat) : Prop :=
  c.inUse i = true ∧ (c.inflight i).seq.toNat ≤ q.first + k ∧
    q.first + k < (c.inflight i).seq.toNat + (c.inflight i).len

/-- Every byte below `nextseq` is among the first `written` ones or in a slot. -/
def Covered (q : Session) (c : Client) (written : Nat) : Prop :=
  ∀ k, q.first + k < c.nextseq.toNat → k < written ∨ ∃ i, q.HeldIn c i k

theorem Covered.mono {c : Client} {n m : Nat} (h : q.Covered c n) (hle : n ≤ m) :
    q.Covered c m := fun k hk => (h k hk).imp_left fun hlt => by omega

theorem Holds.congr {c c' : Client} (h : q.Holds c)
    (hcontents : c'.input.contents = c.input.contents) (hpos : c'.input.pos = c.input.pos)
    (hnext : c'.nextseq = c.nextseq)
    (hslot : ∀ i, c'.inUse i = true → c.inUse i = true ∧
      (c'.inflight i).seq = (c.inflight i).seq ∧ (c'.inflight i).len = (c.inflight i).len ∧
      (c'.inflight i).data = (c.inflight i).data) : q.Holds c' := by
  refine ⟨hcontents.trans h.contents_eq, by rw [hnext, hpos, h.nextseq_eq], ?_⟩
  intro i hi
  obtain ⟨huse, hseq, hlen, hdata⟩ := hslot i hi
  have hbytes : (c'.inflight i).bytes = (c.inflight i).bytes := by
    simp [OutPkt.bytes, hlen, hdata]
  rw [hseq, hlen, hbytes]
  exact h.held i huse

theorem Covered.congr {c c' : Client} {n : Nat} (h : q.Covered c n)
    (hnext : c'.nextseq = c.nextseq)
    (hslot : ∀ i, c.inUse i = true → c'.inUse i = true ∧
      (c'.inflight i).seq = (c.inflight i).seq ∧ (c'.inflight i).len = (c.inflight i).len) :
    q.Covered c' n := by
  intro k hk
  rw [hnext] at hk
  refine (h k hk).imp_right ?_
  rintro ⟨i, huse, hlo, hhi⟩
  obtain ⟨huse', hseq, hlen⟩ := hslot i huse
  exact ⟨i, huse', by rw [hseq]; exact hlo, by rw [hseq, hlen]; exact hhi⟩

/-! ## Steps of the client -/

section ClientSteps

variable {c : Client}

theorem Holds.readInto (h : q.Holds c) {i : Fin maxInflight} (hfree : c.inUse i = false)
    {input : InputFile UInt8} (hcontents : input.contents = c.input.contents)
    (hpos : input.pos = c.input.pos) (pc : ClientPc) :
    q.Holds { c.readInto i with pc := pc, input := input } := by
  refine h.congr hcontents hpos rfl ?_
  intro j hj
  have hne : j ≠ i := by
    rintro rfl
    simp [Client.readInto, hfree] at hj
  simp [Client.readInto, hne] at hj ⊢
  exact hj

theorem Covered.readInto {n : Nat} (h : q.Covered c n) {i : Fin maxInflight}
    (hfree : c.inUse i = false) (pc : ClientPc) (input : InputFile UInt8) :
    q.Covered { c.readInto i with pc := pc, input := input } n := by
  refine h.congr rfl ?_
  intro j hj
  have hne : j ≠ i := by
    rintro rfl
    simp [hfree] at hj
  simp [Client.readInto, hne, hj]

theorem Holds.segment_chunk (h : q.Holds c) :
    q.Segment c.nextseq (c.input.chunk shamMtu) := by
  refine ⟨c.input.pos, h.nextseq_eq, ?_⟩
  rw [← h.contents_eq]
  exact c.input.sliceAt_chunk shamMtu

theorem Holds.nextseq_add_chunk (hq : q.NoWrap) (h : q.Holds c) :
    (c.nextseq + UInt32.ofNat (c.input.chunk shamMtu).length).toNat =
      c.nextseq.toNat + (c.input.chunk shamMtu).length := by
  apply toNat_add_ofNat
  have hle := c.input.pos_add_length_chunk_le shamMtu
  rw [h.contents_eq] at hle
  have heq := h.nextseq_eq
  unfold NoWrap at hq
  omega

theorem Holds.fill (hq : q.NoWrap) (h : q.Holds c) (i : Fin maxInflight) (now : Timeval) :
    q.Holds (c.fill i now).1 := by
  refine ⟨h.contents_eq, ?_, ?_⟩
  · have hadd := h.nextseq_add_chunk hq
    have heq := h.nextseq_eq
    simp only [Client.fill, InputFile.pos_fread]
    omega
  · intro j hj
    by_cases hji : j = i
    · subst hji
      simpa [Client.fill, OutPkt.bytes] using h.segment_chunk
    · simp only [Client.fill, ne_eq, hji, not_false_eq_true, Function.update_of_ne] at hj ⊢
      exact h.held j hj

theorem Covered.fill (hq : q.NoWrap) (h : q.Holds c) {n : Nat} (hcov : q.Covered c n)
    {i : Fin maxInflight} (hfree : c.inUse i = false) (now : Timeval) :
    q.Covered (c.fill i now).1 n := by
  intro k hk
  have hadd := h.nextseq_add_chunk hq
  simp only [Client.fill] at hk
  by_cases hold : q.first + k < c.nextseq.toNat
  · refine (hcov k hold).imp_right ?_
    rintro ⟨j, huse, hlo, hhi⟩
    have hne : j ≠ i := by
      rintro rfl
      simp [hfree] at huse
    exact ⟨j, by simpa [Client.fill, hne] using huse, by simpa [Client.fill, hne] using hlo,
      by simpa [Client.fill, hne] using hhi⟩
  · refine .inr ⟨i, by simp [Client.fill], ?_, ?_⟩
    · simp only [Client.fill, Function.update_self]
      omega
    · simp only [Client.fill, Function.update_self]
      omega

theorem Holds.processAck (h : q.Holds c) (hdr : Header) : q.Holds (c.processAck hdr) := by
  refine h.congr rfl rfl rfl ?_
  intro i hi
  simp only [Client.processAck] at hi ⊢
  split at hi
  · simp at hi
  · rename_i hkeep
    rw [if_neg hkeep]
    exact ⟨hi, rfl, rfl, rfl⟩

/-- A slot freed by an ACK for written bytes holds written bytes only. -/
theorem Covered.processAck {n : Nat} (h : q.Covered c n) {hdr : Header}
    (hack : hdr.ackNum.toNat ≤ q.first + n) : q.Covered (c.processAck hdr) n := by
  intro k hk
  rcases h k hk with hlt | ⟨i, huse, hlo, hhi⟩
  · exact .inl hlt
  · by_cases hfreed : (c.inflight i).seq.toNat + (c.inflight i).len ≤ hdr.ackNum.toNat
    · left
      omega
    · refine .inr ⟨i, ?_, ?_, ?_⟩ <;> simp [Client.processAck, hfreed, huse, hlo, hhi]

theorem Holds.recvAck (h : q.Holds c) (received : Option Header) :
    q.Holds (c.recvAck received) := by
  unfold Client.recvAck
  cases received with
  | none => exact h
  | some hdr =>
      dsimp only
      split
      · exact Holds.processAck (c := { c with buf := hdr }) ⟨h.1, h.2, h.3⟩ hdr
      · exact ⟨h.1, h.2, h.3⟩

theorem Covered.recvAck {n : Nat} (h : q.Covered c n) {received : Option Header}
    (hack : ∀ hdr, received = some hdr → hdr.has shamAck = true →
      hdr.ackNum.toNat ≤ q.first + n) : q.Covered (c.recvAck received) n := by
  unfold Client.recvAck
  cases received with
  | none => exact h
  | some hdr =>
      dsimp only
      split
      · rename_i hflag
        exact Covered.processAck (c := { c with buf := hdr }) h (hack hdr rfl hflag)
      · exact h

theorem Holds.retransmitDue (h : q.Holds c) (env : ClientEnv) :
    q.Holds (c.retransmitDue env).1 := by
  refine h.congr rfl rfl rfl ?_
  intro i hi
  simp only [Client.retransmitDue] at hi ⊢
  split <;> simp [hi]

theorem Covered.retransmitDue {n : Nat} (h : q.Covered c n) (env : ClientEnv) :
    q.Covered (c.retransmitDue env).1 n := by
  refine h.congr rfl ?_
  intro i hi
  simp only [Client.retransmitDue] at hi ⊢
  split <;> simp [hi]

theorem Holds.segment_of_retransmitted (h : q.Holds c) {env : ClientEnv} {p : Packet}
    (hp : p ∈ (c.retransmitDue env).2) :
    p.hdr.has shamFin = false ∧ q.Segment p.hdr.seqNum p.data := by
  simp only [Client.retransmitDue, List.mem_map, List.mem_filter, List.mem_finRange,
    true_and] at hp
  obtain ⟨i, hdue, rfl⟩ := hp
  have huse : c.inUse i = true := by
    simp only [Client.isDue, Bool.and_eq_true] at hdue
    exact hdue.1.1
  exact ⟨Client.has_sendPacket _ _ _ _, (h.held i huse).1⟩

end ClientSteps

/-- A datagram without FIN that the server may receive. -/
def Sent (q : Session) (p : Packet) : Prop :=
  p.hdr.seqNum.toNat < q.first ∨ q.Segment p.hdr.seqNum p.data

theorem sent_ackOf (q : Session) (hdr : Header) : q.Sent (Client.ackOf hdr) := by
  left
  simpa [Client.ackOf] using q.first_pos

structure Keeps (q : Session) (c c' : Client) (out : List Packet) (n : Nat) : Prop where
  holds : q.Holds c'
  covered : q.Covered c' n
  sent : ∀ p ∈ out, p.hdr.has shamFin = false → q.Sent p
  fin : ∀ p ∈ out, p.hdr.has shamFin = true → c'.sending = false
  sending : c'.sending = true → c.sending = true

theorem Keeps.leave {c d : Client} {n : Nat} (h : q.Holds d) (hcov : q.Covered d n) :
    q.Keeps c d.leave.1 d.leave.2 n where
  holds := ⟨h.1, h.2, h.3⟩
  covered := hcov
  sent := by simp [Client.leave]
  fin := fun _ _ _ => rfl
  sending := by simp [Client.leave, Client.sending]

theorem Keeps.round (hq : q.NoWrap) {c c' : Client} {out : List Packet} {n : Nat}
    {i : Fin maxInflight} {now : Timeval} (h : q.Holds c) (hcov : q.Covered c n)
    (hpc : c.pc = .round i) (hround : c.round i now = (c', out)) : q.Keeps c c' out n := by
  have hsending : c.sending = true := by simp [Client.sending, hpc]
  rcases c.round_cases i now with
    ⟨-, heq⟩ | ⟨-, -, heq⟩ | ⟨-, -, -, heq⟩ | ⟨hfree, -, -, hzero, heq⟩ |
    ⟨hfree, -, -, -, -, heq⟩ | ⟨hfree, -, -, -, -, heq⟩ <;>
    rw [hround] at heq
  · cases heq
    exact ⟨⟨h.1, h.2, h.3⟩, hcov, by simp, by simp, fun _ => hsending⟩
  · have hleave := Keeps.leave (c := c) h hcov
    rwa [← heq] at hleave
  · cases heq
    exact ⟨⟨h.1, h.2, h.3⟩, hcov, by simp, by simp, fun _ => hsending⟩
  · have hholds := h.readInto hfree (InputFile.contents_fread shamMtu c.input)
      (by simp [hzero]) .finTest
    have hleave := Keeps.leave (c := c) (d := c.readInto i) ⟨hholds.1, hholds.2, hholds.3⟩
      (hcov.readInto hfree c.pc _)
    rwa [← heq] at hleave
  · cases heq
    have hback := h.readInto hfree (InputFile.contents_fseekBack
      (c.input.chunk shamMtu).length (c.input.fread shamMtu)) (by simp) .whileTest
    exact ⟨hback, hcov.readInto hfree .whileTest _, by simp, by simp, fun _ => hsending⟩
  · have hc' : c' = (c.fill i now).1 := congrArg Prod.fst heq
    have hout : out = (c.fill i now).2 := congrArg Prod.snd heq
    subst hc' hout
    refine ⟨h.fill hq i now, hcov.fill hq h hfree now, ?_, ?_, fun _ => hsending⟩
    · intro p hp _
      simp only [Client.fill, List.mem_singleton] at hp
      subst hp
      right
      simpa [Client.sendPacket, OutPkt.bytes] using h.segment_chunk
    · intro p hp hfin
      simp only [Client.fill, List.mem_singleton] at hp
      subst hp
      simp at hfin

theorem Keeps.poll {c c' : Client} {out : List Packet} {n : Nat} {i : Fin maxInflight}
    {env : ClientEnv} (h : q.Holds c) (hcov : q.Covered c n)
    (hack : ∀ hdr, env.received = some hdr → hdr.has shamAck = true →
      hdr.ackNum.toNat ≤ q.first + n)
    (hpc : c.pc = .select i) (hpoll : c.poll i env = (c', out)) : q.Keeps c c' out n := by
  let d : Client := { c.recvAck env.received with pc := Client.nextRound i }
  have hrecv := h.recvAck env.received
  have hd : q.Holds d := ⟨hrecv.1, hrecv.2, hrecv.3⟩
  have hcovd : q.Covered d n := hcov.recvAck hack
  have heq : d.retransmitDue env = (c', out) := hpoll
  obtain ⟨rfl, rfl⟩ : (d.retransmitDue env).1 = c' ∧ (d.retransmitDue env).2 = out := by
    simp [heq]
  refine ⟨hd.retransmitDue env, hcovd.retransmitDue env, ?_, ?_, ?_⟩
  · intro p hp _
    exact .inr (hd.segment_of_retransmitted hp).2
  · intro p hp hfin
    rw [(hd.segment_of_retransmitted hp).1] at hfin
    simp at hfin
  · intro _
    simp [Client.sending, hpc]

theorem Keeps.recvFin {c c' : Client} {out : List Packet} {n : Nat}
    {received : Option Header} (h : q.Holds c) (hcov : q.Covered c n)
    (hrecv : c.recvFin received = (c', out)) : q.Keeps c c' out n := by
  obtain ⟨huse, hinflight, hinput, hnext, hpc, hout⟩ := Client.frame_recvFin hrecv
  refine ⟨h.congr (by rw [hinput]) (by rw [hinput]) hnext ?_, hcov.congr hnext ?_, ?_, ?_, ?_⟩
  · intro i hi
    rw [huse] at hi
    simp [hi, hinflight]
  · intro i hi
    simp [huse, hi, hinflight]
  · intro p hp _
    obtain ⟨hdr, rfl⟩ := hout p hp
    exact q.sent_ackOf hdr
  · intro p hp hfin
    simp [Client.sending, hpc]
  · simp [Client.sending, hpc]

theorem Keeps.step (hq : q.NoWrap) {c c' : Client} {out : List Packet} {n : Nat}
    {env : ClientEnv} (h : q.Holds c) (hcov : q.Covered c n)
    (hack : c.sending = true → ∀ hdr, env.received = some hdr → hdr.has shamAck = true →
      hdr.ackNum.toNat ≤ q.first + n)
    (hstep : c.step env = some (c', out)) : q.Keeps c c' out n := by
  rcases Client.step_cases hstep with
    ⟨hpc, rfl, rfl⟩ | ⟨i, hpc, hround⟩ | ⟨i, hpc, hpoll⟩ | ⟨hpc, rfl, rfl⟩ |
    ⟨hpc, rfl, hout⟩ | ⟨hpc, hrecv⟩
  · exact ⟨⟨h.1, h.2, h.3⟩, hcov, by simp, by simp, fun _ => by simp [Client.sending, hpc]⟩
  · exact Keeps.round hq h hcov hpc hround
  · exact Keeps.poll h hcov (hack (by simp [Client.sending, hpc])) hpc hpoll
  · refine ⟨⟨h.1, h.2, h.3⟩, hcov, ?_, by simp, by simp [Client.sending]⟩
    intro p hp _
    simp only [List.mem_singleton] at hp
    subst hp
    exact q.sent_ackOf c.buf
  · refine ⟨⟨h.1, h.2, h.3⟩, hcov, ?_, by simp [Client.sending], by simp [Client.sending]⟩
    intro p hp hfin
    rw [hout p hp] at hfin
    simp at hfin
  · exact Keeps.recvFin h hcov hrecv

end Session

end OxyC.Networking
