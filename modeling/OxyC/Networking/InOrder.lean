import OxyC.Networking.Translation

/-!
# Transfers in order

Every full segment is sent, delivered and acknowledged before the next one is
read.  A slot is freed as long as its segment ends below `2 ^ 32`: the client
adds in 64 bits, and the cumulative ACK has 32.
-/

namespace OxyC.Networking

open OxyC.Foundation

namespace Session

def slotOf (k : Nat) : Fin maxInflight := ⟨k % maxInflight, Nat.mod_lt k (by decide)⟩

def exchange (k : Nat) : List Action :=
  [tick, .server (3 + k) false, .client (some ⟨1 + k, none⟩) ⟨0, 0⟩ fun _ => ⟨0, 0⟩]

/-- The first `k` segments in order; `tick` passes the test of the outer loop. -/
def inOrder : Nat → List Action
  | 0 => [tick]
  | k + 1 => inOrder k ++ (exchange k ++ if (k + 1) % maxInflight = 0 then [tick] else [])

/-- Both parties are at the end of segment `k - 1`. -/
structure Synced (q : Session) (k : Nat) (s : Transfer) : Prop where
  contents : s.client.input.contents = q.contents
  pos : s.client.input.pos = shamMtu * k
  eof : s.client.input.eof = false
  nextseq : s.client.nextseq = q.seqAt (shamMtu * k)
  phase : s.server.phase = .receiving
  expected : s.server.reassembly.expected = q.seqAt (shamMtu * k)
  empty : ∀ b ∈ s.server.reassembly.bufs, b.seq = 0
  toServer : s.toServer.length = 3 + k
  toClient : s.toClient.length = 1 + k

/-- The client is about to read segment `k`, and all slots are free. -/
structure Ready (q : Session) (k : Nat) (s : Transfer) : Prop where
  synced : q.Synced k s
  pc : s.client.pc = .round (slotOf k)
  free : ∀ i, s.client.inUse i = false
  inFlightBytes : s.client.inFlightBytes ≤ shamMtu * (k % maxInflight)
  window : shamMtu * (k % maxInflight + 1) ≤ s.client.remoteWin.toNat

/-- The ACK of segment `k` has been read. -/
structure Exchanged (q : Session) (k : Nat) (s s' : Transfer) : Prop where
  synced : q.Synced (k + 1) s'
  pc : s'.client.pc = Client.nextRound (slotOf k)
  inUse : ∀ i, s'.client.inUse i = true ↔ i = slotOf k ∧
    (q.seqAt (shamMtu * (k + 1))).toNat < (q.seqAt (shamMtu * k)).toNat + shamMtu
  inFlightBytes : s'.client.inFlightBytes = s.client.inFlightBytes + shamMtu
  window : s'.client.remoteWin = 65535

def afterExchange (k : Nat) (s : Transfer) : Transfer :=
  let sent := s.client.fill (slotOf k) ⟨0, 0⟩
  let r := s.server.reassembly.write (s.client.input.chunk shamMtu)
  let ack := Server.cumulativeAck r
  { client :=
      { sent.1.processAck ack.hdr with pc := Client.nextRound (slotOf k), buf := ack.hdr }
    server := { s.server with reassembly := r }
    toServer := s.toServer ++ sent.2
    toClient := s.toClient ++ [ack] }

variable {q : Session} {k : Nat} {s : Transfer}

theorem drain_of_empty {r : Reassembly} (hempty : ∀ b ∈ r.bufs, b.seq = 0)
    (hexpected : r.expected ≠ 0) : r.drain = some r := by
  have hstep : ∀ t t' : Reassembly, t = r → Reassembly.Releases t t' → t' = r := by
    intro t t' ht hrel
    subst ht
    cases hrel with
    | «at» before after b hbufs hseq =>
        have hb : b ∈ t.bufs := by simp [hbufs]
        rw [hempty b hb] at hseq
        exact absurd hseq.symm hexpected
  have hne : ∀ t : Reassembly, t = r → t.expected ≠ 0 := by
    intro t ht
    rw [ht]
    exact hexpected
  obtain ⟨r', hr'⟩ := Reassembly.drain_isSome (P := fun t => t = r) hstep hne rfl
  have heq : r' = r := Reassembly.drain_invariant (P := fun t => t = r) hstep rfl hr'
  rw [hr', heq]

theorem avail_of_empty {r : Reassembly} (hempty : ∀ b ∈ r.bufs, b.seq = 0) :
    r.avail = 65535 := by
  have hnone : r.bufs.filter (fun b => b.seq != 0) = [] := by
    rw [List.filter_eq_nil_iff]
    intro b hb
    simp [hempty b hb]
  simp only [Reassembly.avail, Reassembly.bufferedBytes, hnone]
  decide

theorem Ready.length_chunk (h : q.Ready k s) (hfull : shamMtu * (k + 1) ≤ q.contents.length) :
    (s.client.input.chunk shamMtu).length = shamMtu := by
  rw [InputFile.length_chunk, h.synced.contents, h.synced.pos]
  rw [Nat.mul_succ] at hfull
  omega

theorem Ready.sends (h : q.Ready k s) (hfull : shamMtu * (k + 1) ≤ q.contents.length) :
    s.client.step ⟨none, ⟨0, 0⟩, fun _ => ⟨0, 0⟩⟩ =
      some (s.client.fill (slotOf k) ⟨0, 0⟩) := by
  have hlen := h.length_chunk hfull
  have hbytes := h.inFlightBytes
  have hwindow := h.window
  rw [Nat.mul_succ] at hwindow
  have hmtu : shamMtu = 1024 := rfl
  simp only [Client.step, h.pc, Option.some.injEq]
  rcases s.client.round_cases (slotOf k) ⟨0, 0⟩ with
    ⟨huse, -⟩ | ⟨-, heof, -⟩ | ⟨-, -, hclosed, -⟩ | ⟨-, -, -, hzero, -⟩ |
    ⟨-, -, -, -, hover, -⟩ | ⟨-, -, -, -, -, heq⟩
  · simp [h.free] at huse
  · simp [h.synced.eof] at heof
  · omega
  · omega
  · omega
  · exact heq

theorem Synced.accepts (h : q.Synced k s) {payload : List UInt8}
    (hlen : payload.length = shamMtu) (hne : q.seqAt (shamMtu * (k + 1)) ≠ 0) (win : UInt16) :
    s.server.step ⟨Client.sendPacket (q.seqAt (shamMtu * k)) payload win, false⟩ =
      some ({ s.server with reassembly := s.server.reassembly.write payload },
        [Server.cumulativeAck (s.server.reassembly.write payload)]) := by
  have hnext : (s.server.reassembly.write payload).expected ≠ 0 := by
    rw [Reassembly.expected_write, h.expected, hlen, seqAt_add]
    exact hne
  have hdrain : (s.server.reassembly.write payload).drain =
      some (s.server.reassembly.write payload) := drain_of_empty h.empty hnext
  have hreceive : s.server.reassembly.receive (q.seqAt (shamMtu * k)) payload =
      some (s.server.reassembly.write payload) := by
    rw [Reassembly.receive, if_pos h.expected.symm, hdrain]
  simp only [Server.step, h.phase, Client.has_sendPacket, Bool.false_eq_true, if_false]
  rw [Client.sendPacket, hreceive]

theorem inUse_processAck_fill {c : Client} (i : Fin maxInflight) (hfree : ∀ j, c.inUse j = false)
    (hdr : Header) (now : Timeval) (j : Fin maxInflight) :
    ((c.fill i now).1.processAck hdr).inUse j = true ↔ j = i ∧
      hdr.ackNum.toNat < c.nextseq.toNat + (c.input.chunk shamMtu).length := by
  by_cases hji : j = i
  · subst hji
    simp [Client.processAck, Client.fill]
  · simp [Client.processAck, Client.fill, hji, hfree]

theorem isDue_processAck_fill {c : Client} (i : Fin maxInflight)
    (hfree : ∀ j, c.inUse j = false) (hdr : Header) (now : Timeval) (j : Fin maxInflight) :
    ((c.fill i now).1.processAck hdr).isDue now j = false := by
  by_cases hji : j = i
  · subst hji
    have hzero : now.msSince now = 0 := by simp [Timeval.msSince]
    have hsent : (((c.fill j now).1.processAck hdr).inflight j).sent = now := by
      simp only [Client.processAck, Client.fill, Function.update_self]
      split <;> rfl
    simp [Client.isDue, hsent, hzero, rtoMs]
  · have huse : ((c.fill i now).1.processAck hdr).inUse j = false := by
      simp [Client.processAck, Client.fill, hji, hfree]
    simp [Client.isDue, huse]

theorem retransmitDue_of_not_due {c : Client} {env : ClientEnv}
    (hdue : ∀ j, c.isDue env.now j = false) : c.retransmitDue env = (c, []) := by
  have hnone : (List.finRange maxInflight).filter (c.isDue env.now) = [] := by
    rw [List.filter_eq_nil_iff]
    intro j _
    simp [hdue j]
  simp [Client.retransmitDue, hdue, hnone]

theorem poll_fill {c : Client} (i : Fin maxInflight) (hfree : ∀ j, c.inUse j = false)
    {hdr : Header} (hack : hdr.has shamAck = true) (now : Timeval)
    (resentAt : Fin maxInflight → Timeval) :
    (c.fill i now).1.poll i ⟨some hdr, now, resentAt⟩ =
      ({ (c.fill i now).1.processAck hdr with pc := Client.nextRound i, buf := hdr }, []) := by
  simp only [Client.poll, Client.recvAck, hack, if_true]
  exact retransmitDue_of_not_due (isDue_processAck_fill i hfree hdr now)

theorem step_idle {s : Transfer} {c : Client} {sent : List Packet} {now : Timeval}
    {resentAt : Fin maxInflight → Timeval}
    (hstep : s.client.step ⟨none, now, resentAt⟩ = some (c, sent)) :
    Transfer.step (.client none now resentAt) s =
      some ({ s with client := c, toServer := s.toServer ++ sent }, []) := by
  simp [Transfer.step, Transfer.received, hstep]

theorem step_delivered {s : Transfer} {i : Nat} {p : Packet} {c : Client} {sent : List Packet}
    {now : Timeval} {resentAt : Fin maxInflight → Timeval} (hget : s.toClient[i]? = some p)
    (hstep : s.client.step ⟨some p.hdr, now, resentAt⟩ = some (c, sent)) :
    Transfer.step (.client (some ⟨i, none⟩) now resentAt) s =
      some ({ s with client := c, toServer := s.toServer ++ sent }, []) := by
  simp [Transfer.step, Transfer.received, Transfer.deliver, hget, hstep]

theorem step_arrived {s : Transfer} {i : Nat} {p : Packet} {v : Server} {sent : List Packet}
    (hget : s.toServer[i]? = some p) (hstep : s.server.step ⟨p, false⟩ = some (v, sent)) :
    Transfer.step (.server i false) s =
      some ({ s with server := v, toClient := s.toClient ++ sent }, []) := by
  simp [Transfer.step, hget, hstep]

theorem Ready.run_exchange (h : q.Ready k s) (hfull : shamMtu * (k + 1) ≤ q.contents.length)
    (hne : q.seqAt (shamMtu * (k + 1)) ≠ 0) :
    Transfer.machine.run (exchange k) s = some (afterExchange k s, []) := by
  let c := (s.client.fill (slotOf k) ⟨0, 0⟩).1
  let p := Client.sendPacket (q.seqAt (shamMtu * k)) (s.client.input.chunk shamMtu)
    s.client.remoteWin
  let ack := Server.cumulativeAck (s.server.reassembly.write (s.client.input.chunk shamMtu))
  have hfill : s.client.fill (slotOf k) ⟨0, 0⟩ = (c, [p]) := by
    simp [c, p, Client.fill, OutPkt.bytes, h.synced.nextseq]
  have hsend : Transfer.step tick s =
      some ({ s with client := c, toServer := s.toServer ++ [p] }, []) :=
    step_idle ((h.sends hfull).trans (congrArg some hfill))
  have hdeliver : Transfer.step (.server (3 + k) false)
      { s with client := c, toServer := s.toServer ++ [p] } =
      some ({ afterExchange k s with client := c }, []) := by
    have hget : (s.toServer ++ [p])[3 + k]? = some p := by
      rw [← h.synced.toServer, List.getElem?_concat_length]
    refine (step_arrived (s := { s with client := c, toServer := s.toServer ++ [p] }) hget
      (h.synced.accepts (h.length_chunk hfull) hne _)).trans ?_
    simp only [afterExchange, hfill]
  have hacked : Transfer.step (.client (some ⟨1 + k, none⟩) ⟨0, 0⟩ fun _ => ⟨0, 0⟩)
      { afterExchange k s with client := c } = some (afterExchange k s, []) := by
    have hget : (s.toClient ++ [ack])[1 + k]? = some ack := by
      rw [← h.synced.toClient, List.getElem?_concat_length]
    have hack : ack.hdr.has shamAck = true := by
      simp [ack, Server.cumulativeAck, Header.has, shamAck]
    have hpoll := poll_fill (slotOf k) h.free hack ⟨0, 0⟩ fun _ => ⟨0, 0⟩
    refine (step_delivered (s := { afterExchange k s with client := c }) hget
      (congrArg some hpoll)).trans ?_
    simp only [afterExchange, List.append_nil, ack]
  exact Mealy.run_cons_eq_some _ |>.mpr ⟨_, [], [], hsend,
    Mealy.run_cons_eq_some _ |>.mpr ⟨_, [], [], hdeliver,
      Mealy.run_cons_eq_some _ |>.mpr ⟨_, [], [], hacked, rfl, rfl⟩, rfl⟩, rfl⟩

/-- One segment in order: only a wrap between its two ends keeps its slot in use. -/
theorem Ready.exchanged (h : q.Ready k s) (hfull : shamMtu * (k + 1) ≤ q.contents.length) :
    q.Exchanged k s (afterExchange k s) := by
  have hlen := h.length_chunk hfull
  have hcursor : shamMtu * k + shamMtu = shamMtu * (k + 1) := (Nat.mul_succ _ _).symm
  have hstop : q.seqAt (shamMtu * k) + UInt32.ofNat shamMtu = q.seqAt (shamMtu * (k + 1)) := by
    rw [seqAt_add, hcursor]
  have hexpected : (afterExchange k s).server.reassembly.expected =
      q.seqAt (shamMtu * (k + 1)) := by
    rw [afterExchange, Reassembly.expected_write, h.synced.expected, hlen, hstop]
  constructor
  · constructor
    · exact h.synced.contents
    · simp [afterExchange, Client.processAck, Client.fill, h.synced.pos, hlen, hcursor]
    · simp [afterExchange, Client.processAck, Client.fill, InputFile.fread, h.synced.eof, hlen]
    · simp [afterExchange, Client.processAck, Client.fill, h.synced.nextseq, hlen, hstop]
    · exact h.synced.phase
    · exact hexpected
    · exact h.synced.empty
    · simp [afterExchange, Client.fill, h.synced.toServer, Nat.add_assoc]
    · simp [afterExchange, h.synced.toClient, Nat.add_assoc]
  · rfl
  · intro j
    have hkept := inUse_processAck_fill (slotOf k) h.free
      (Server.cumulativeAck (afterExchange k s).server.reassembly).hdr ⟨0, 0⟩ j
    rw [h.synced.nextseq, hlen] at hkept
    rw [← hexpected]
    exact hkept
  · simp [afterExchange, Client.processAck, Client.fill, hlen]
  · exact avail_of_empty h.synced.empty

theorem seqAt_toNat {b : Nat} (hb : q.first + b < 2 ^ 32) : (q.seqAt b).toNat = q.first + b := by
  rw [seqAt, UInt32.toNat_ofNat', Nat.mod_eq_of_lt hb]

theorem seqAt_ne_zero {b : Nat} (hb : q.first + b < 2 ^ 32) : q.seqAt b ≠ 0 := by
  intro hzero
  have hnat := seqAt_toNat hb
  rw [hzero, UInt32.toNat_zero, first] at hnat
  omega

theorem Synced.enter (h : q.Synced k s) (hpc : s.client.pc = .whileTest)
    (hk : k % maxInflight = 0) (hfree : ∀ i, s.client.inUse i = false)
    (hwindow : shamMtu ≤ s.client.remoteWin.toNat) :
    ∃ s', Transfer.machine.run [tick] s = some (s', []) ∧ q.Ready k s' := by
  have hbytes : s.client.bytesInUse = 0 := by simp [Client.bytesInUse, hfree]
  have hstep : s.client.step ⟨none, ⟨0, 0⟩, fun _ => ⟨0, 0⟩⟩ =
      some ({ s.client with pc := .round ⟨0, by decide⟩, inFlightBytes := 0 }, []) := by
    simp only [Client.step, hpc, hbytes]
  have hslot : slotOf k = ⟨0, by decide⟩ := Fin.ext hk
  refine ⟨_, Mealy.run_cons_eq_some _ |>.mpr ⟨_, [], [], step_idle hstep, rfl, rfl⟩, ?_⟩
  constructor
  · constructor
    · exact h.contents
    · exact h.pos
    · exact h.eof
    · exact h.nextseq
    · exact h.phase
    · exact h.expected
    · exact h.empty
    · rw [List.append_nil]
      exact h.toServer
    · exact h.toClient
  · rw [hslot]
  · exact hfree
  · exact Nat.zero_le _
  · rw [hk]
    exact hwindow

theorem succ_mod_maxInflight (k : Nat) :
    (k % maxInflight + 1 < maxInflight ∧ (k + 1) % maxInflight = k % maxInflight + 1) ∨
      (k % maxInflight + 1 = maxInflight ∧ (k + 1) % maxInflight = 0) := by
  unfold maxInflight
  omega

theorem Ready.next (h : q.Ready k s) (hfull : shamMtu * (k + 1) ≤ q.contents.length)
    (hwrap : q.first + shamMtu * (k + 1) < 2 ^ 32) :
    ∃ s', Transfer.machine.run
        (exchange k ++ if (k + 1) % maxInflight = 0 then [tick] else []) s = some (s', []) ∧
      q.Ready (k + 1) s' := by
  have hrun := h.run_exchange hfull (seqAt_ne_zero hwrap)
  have hexch := h.exchanged hfull
  have hbytes := h.inFlightBytes
  have hwindow : (afterExchange k s).client.remoteWin.toNat = 65535 := by
    rw [hexch.window]
    rfl
  have hfree : ∀ i, (afterExchange k s).client.inUse i = false := by
    intro i
    rw [Bool.eq_false_iff, ne_eq, hexch.inUse i]
    rintro ⟨-, hlt⟩
    have hcursor : shamMtu * (k + 1) = shamMtu * k + shamMtu := Nat.mul_succ _ _
    rw [seqAt_toNat hwrap, seqAt_toNat (by omega)] at hlt
    omega
  have hpc := hexch.pc
  unfold Client.nextRound slotOf at hpc
  rcases succ_mod_maxInflight k with ⟨hlt, hmod⟩ | ⟨hlast, hmod⟩
  · rw [dif_pos hlt] at hpc
    have hstay : ¬ (k + 1) % maxInflight = 0 := by omega
    rw [if_neg hstay, List.append_nil]
    refine ⟨_, hrun, hexch.synced, ?_, hfree, ?_, ?_⟩
    · rw [hpc, ClientPc.round.injEq]
      exact Fin.ext hmod.symm
    · rw [hexch.inFlightBytes, hmod, Nat.mul_succ]
      exact Nat.add_le_add_right hbytes shamMtu
    · rw [hwindow, hmod]
      unfold shamMtu maxInflight at *
      omega
  · rw [dif_neg hlast.not_lt] at hpc
    have hopen : shamMtu ≤ (afterExchange k s).client.remoteWin.toNat := by
      rw [hwindow]
      decide
    obtain ⟨t, htick, hready⟩ := hexch.synced.enter hpc hmod hfree hopen
    rw [if_pos hmod]
    exact ⟨t, Mealy.run_append _ |>.mpr ⟨_, [], [], hrun, htick, rfl⟩, hready⟩

theorem synced_start (hstale : q.staleSynAcks = []) : q.Synced 0 (Transfer.start q) where
  contents := rfl
  pos := rfl
  eof := rfl
  nextseq := nextseq_start q
  phase := rfl
  expected := expected_start q
  empty b hb := by
    rw [List.eq_of_mem_replicate hb]
    rfl
  toServer := rfl
  toClient := by simp [Transfer.start, hstale]

theorem ready_inOrder (hstale : q.staleSynAcks = []) (hwindow : shamMtu ≤ q.window.toNat)
    (k : Nat) (hfull : shamMtu * k ≤ q.contents.length)
    (hwrap : q.first + shamMtu * k < 2 ^ 32) :
    ∃ s, Transfer.machine.run (inOrder k) (Transfer.start q) = some (s, []) ∧ q.Ready k s := by
  induction k with
  | zero => exact (synced_start hstale).enter rfl rfl (fun _ => rfl) hwindow
  | succ k ih =>
      have hcursor : shamMtu * (k + 1) = shamMtu * k + shamMtu := Nat.mul_succ _ _
      obtain ⟨s, hrun, hready⟩ := ih (by omega) (by omega)
      obtain ⟨s', hrun', hready'⟩ := hready.next hfull hwrap
      exact ⟨s', Mealy.run_append _ |>.mpr ⟨_, [], [], hrun, hrun', rfl⟩, hready'⟩

/-- After `k` segments in order and their ACKs, slot `k` is in use only past a wrap. -/
theorem inUse_inOrder (hstale : q.staleSynAcks = []) (hwindow : shamMtu ≤ q.window.toNat)
    (k : Nat) (hfull : shamMtu * (k + 1) ≤ q.contents.length)
    (hwrap : q.first + shamMtu * k < 2 ^ 32) (hne : q.seqAt (shamMtu * (k + 1)) ≠ 0) :
    ∃ s, Transfer.machine.run (inOrder k ++ exchange k) (Transfer.start q) = some (s, []) ∧
      ∀ i, s.client.inUse i = true ↔ i = slotOf k ∧ 2 ^ 32 ≤ q.first + shamMtu * (k + 1) := by
  have hcursor : shamMtu * (k + 1) = shamMtu * k + shamMtu := Nat.mul_succ _ _
  have hmtu : shamMtu = 1024 := rfl
  obtain ⟨s, hrun, hready⟩ := ready_inOrder hstale hwindow k (by omega) hwrap
  refine ⟨_, Mealy.run_append _ |>.mpr ⟨_, [], [], hrun, hready.run_exchange hfull hne, rfl⟩, ?_⟩
  intro i
  rw [(hready.exchanged hfull).inUse i, seqAt_toNat hwrap, seqAt, UInt32.toNat_ofNat']
  refine and_congr_right fun _ => ?_
  omega

def zeros (n : Nat) : Session :=
  { oneByte with
    cliSeq := 0
    contents := List.replicate n 0 }

theorem length_zeros (n : Nat) : (zeros n).contents.length = n := List.length_replicate

/-- After two gibibytes in order one of the two clients still holds the last segment. -/
theorem inUse_withIsn_ne :
    ∃ s s',
      Transfer.machine.run (inOrder (2 ^ 21 - 1) ++ exchange (2 ^ 21 - 1))
        (Transfer.start (zeros (2 ^ 31))) = some (s, []) ∧
      Transfer.machine.run (inOrder (2 ^ 21 - 1) ++ exchange (2 ^ 21 - 1))
        (Transfer.start ((zeros (2 ^ 31)).withIsn 2147483647)) = some (s', []) ∧
      (∀ i, s.client.inUse i = false) ∧ s'.client.inUse (slotOf (2 ^ 21 - 1)) = true ∧
      view 0 s ≠ view 2147483647 s' := by
  have hfull : shamMtu * (2 ^ 21 - 1 + 1) ≤ (zeros (2 ^ 31)).contents.length := by
    rw [length_zeros]
    decide
  obtain ⟨s, hrun, hkept⟩ := inUse_inOrder (q := zeros (2 ^ 31)) rfl (by decide) (2 ^ 21 - 1)
    hfull (by decide) (by decide)
  obtain ⟨s', hrun', hkept'⟩ := inUse_inOrder (q := (zeros (2 ^ 31)).withIsn 2147483647) rfl
    (by decide) (2 ^ 21 - 1) hfull (by decide) (by decide)
  have hfree : ∀ i, s.client.inUse i = false := by
    intro i
    rw [Bool.eq_false_iff, ne_eq, hkept i]
    rintro ⟨-, hwrap⟩
    exact absurd hwrap (by decide)
  have hheld : s'.client.inUse (slotOf (2 ^ 21 - 1)) = true :=
    (hkept' _).mpr ⟨rfl, by decide⟩
  refine ⟨s, s', hrun, hrun', hfree, hheld, ?_⟩
  intro hview
  have huse : s.client.inUse = s'.client.inUse := congrArg View.inUse hview
  have hslot := congrFun huse (slotOf (2 ^ 21 - 1))
  rw [hfree, hheld] at hslot
  exact Bool.false_ne_true hslot

end Session

end OxyC.Networking
