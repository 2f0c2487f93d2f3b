import OxyC.Networking.Delivery

/-!
# The closing of a transfer

The client's termination loop reads whatever is still in flight.  As long as
the server is in its receive loop, every datagram on its way to the client is
early: it carries no FIN and acknowledges no more than the stream.
-/

namespace OxyC.Networking

open OxyC.Foundation

namespace Client

structure Closing (env : ClientEnv) (c c' : Client) (out : List Packet) : Prop where
  fin : ∀ p ∈ out, p.hdr.has shamFin = true → p.hdr.seqNum = c'.nextseq
  gotAck : c'.gotAck = true → c.gotAck = true ∨ (c.sending = false ∧
    ∃ hdr, env.received = some hdr ∧ hdr.has shamAck = true ∧ hdr.ackNum = c.nextseq + 1)
  gotFin : c'.gotFin = true → c.gotFin = true ∨ (c.sending = false ∧
    ∃ hdr, env.received = some hdr ∧ hdr.has shamFin = true)
  closed : c'.pc = .closed → c'.gotAck = true ∧ c'.gotFin = true

theorem closing_leave (env : ClientEnv) {c d : Client} (hpc : d.leave.1.pc ≠ .closed) :
    Closing env c d.leave.1 d.leave.2 where
  fin := by simp [leave, finPacket]
  gotAck := by simp [leave]
  gotFin := by simp [leave]
  closed h := absurd h hpc

theorem closing_round {env : ClientEnv} {c c' : Client} {out : List Packet}
    {i : Fin maxInflight} (hround : c.round i env.now = (c', out)) :
    Closing env c c' out := by
  obtain ⟨rfl, rfl⟩ : (c.round i env.now).1 = c' ∧ (c.round i env.now).2 = out := by
    simp [hround]
  rcases c.round_cases i env.now with
    ⟨-, heq⟩ | ⟨-, -, heq⟩ | ⟨-, -, -, heq⟩ | ⟨-, -, -, -, heq⟩ | ⟨-, -, -, -, -, heq⟩ |
    ⟨-, -, -, -, -, heq⟩ <;> rw [heq]
  · exact ⟨by simp, .inl, .inl, by simp⟩
  · exact closing_leave env (by simp [leave])
  · exact ⟨by simp, .inl, .inl, by simp⟩
  · exact closing_leave env (by simp [leave])
  · exact ⟨by simp, .inl, .inl, by simp⟩
  · exact ⟨by simp [fill], .inl, .inl, by simp [fill]⟩

theorem closing_poll {env : ClientEnv} {c c' : Client} {out : List Packet}
    {i : Fin maxInflight} (hpoll : c.poll i env = (c', out)) : Closing env c c' out := by
  have hsending := sending_poll i env c
  obtain ⟨rfl, rfl⟩ : (c.poll i env).1 = c' ∧ (c.poll i env).2 = out := by simp [hpoll]
  have hflags : (c.recvAck env.received).gotAck = c.gotAck ∧
      (c.recvAck env.received).gotFin = c.gotFin := by
    unfold recvAck
    cases env.received with
    | none => exact ⟨rfl, rfl⟩
    | some hdr => dsimp only; split <;> exact ⟨rfl, rfl⟩
  constructor
  · intro p hp hfin
    simp only [poll, retransmitDue, List.mem_map] at hp
    obtain ⟨j, -, rfl⟩ := hp
    simp at hfin
  · intro hack
    exact .inl (hflags.1.symm.trans hack)
  · intro hfin
    exact .inl (hflags.2.symm.trans hfin)
  · intro hpc
    simp [sending, hpc] at hsending

theorem closing_recvFin {env : ClientEnv} {c c' : Client} {out : List Packet}
    (hpc : c.pc = .finRecv) (hrecv : c.recvFin env.received = (c', out)) :
    Closing env c c' out := by
  obtain ⟨-, -, -, -, hpc', hout⟩ := frame_recvFin hrecv
  have hleft : c.sending = false := by simp [sending, hpc]
  constructor
  · intro p hp hfin
    obtain ⟨hdr, rfl⟩ := hout p hp
    simp at hfin
  · intro hack
    cases hreceived : env.received with
    | none =>
        rw [hreceived] at hrecv
        cases hrecv
        exact .inl hack
    | some hdr =>
        simp only [hreceived, recvFin] at hrecv
        split at hrecv
        · rename_i hmatch
          simp only [Bool.and_eq_true, beq_iff_eq] at hmatch
          exact .inr ⟨hleft, hdr, rfl, hmatch⟩
        · split at hrecv <;> cases hrecv <;> exact .inl hack
  · intro hgot
    cases hreceived : env.received with
    | none =>
        rw [hreceived] at hrecv
        cases hrecv
        exact .inl hgot
    | some hdr =>
        simp only [hreceived, recvFin] at hrecv
        split at hrecv
        · cases hrecv
          exact .inl hgot
        · split at hrecv
          · rename_i hfin
            exact .inr ⟨hleft, hdr, rfl, hfin⟩
          · cases hrecv
            exact .inl hgot
  · simp [hpc']

theorem closing_of_step {env : ClientEnv} {c c' : Client} {out : List Packet}
    (h : c.step env = some (c', out)) : Closing env c c' out := by
  cases hpc : c.pc with
  | whileTest =>
      simp only [step, hpc, Option.some.injEq, Prod.mk.injEq] at h
      obtain ⟨rfl, rfl⟩ := h
      exact ⟨by simp, .inl, .inl, by simp⟩
  | round i =>
      simp only [step, hpc, Option.some.injEq] at h
      exact closing_round h
  | select i =>
      simp only [step, hpc, Option.some.injEq] at h
      exact closing_poll h
  | finTest =>
      simp only [step, hpc] at h
      split at h
      · rename_i hgot
        cases h
        exact ⟨by simp, .inl, .inl, fun _ => by simpa using hgot⟩
      · cases h
        refine ⟨?_, .inl, .inl, by simp⟩
        intro p hp _
        split at hp <;> simp at hp
        rw [hp]
        rfl
  | finRecv =>
      simp only [step, hpc, Option.some.injEq] at h
      exact closing_recvFin hpc h
  | closed => simp [step, hpc] at h

end Client

namespace Session

variable {q : Session}

/-- A datagram that the termination loop ignores: no FIN, and no ACK past the stream. -/
def Early (q : Session) (p : Packet) : Prop :=
  p.hdr.has shamFin = false ∧ 0 < p.hdr.ackNum.toNat ∧
    p.hdr.ackNum.toNat ≤ q.first + q.contents.length

/-- The ACK of the FIN is for one number more than the stream has, which may wrap to zero. -/
theorem Early.ne_nextseq_add_one {p : Packet} (h : q.Early p) {nextseq : UInt32}
    (hnext : nextseq.toNat = q.first + q.contents.length) : p.hdr.ackNum ≠ nextseq + 1 := by
  intro heq
  have hadd : (nextseq + 1).toNat = (nextseq.toNat + 1) % 2 ^ 32 := by
    rw [UInt32.toNat_add]
    rfl
  have hlt := nextseq.toNat_lt
  have hpos := h.2.1
  have hle := h.2.2
  rw [heq] at hpos hle
  omega

theorem early_synAck (hq : q.NoWrap) (srvSeq : UInt32) : q.Early ⟨q.synAck srvSeq, []⟩ := by
  unfold NoWrap first at hq
  have hone : (q.cliSeq + 1).toNat = q.cliSeq.toNat + 1 := by
    rw [UInt32.toNat_add]
    simp
    omega
  have hflags : (q.synAck srvSeq).has shamFin = false := by
    simp only [synAck, Header.has]
    decide
  refine ⟨hflags, ?_, ?_⟩ <;> simp only [synAck, hone, first] <;> omega

theorem early_cumulativeAck {r : Reassembly} (h : q.Rebuilds r) :
    q.Early (Server.cumulativeAck r) := by
  have hlength : r.out.length ≤ q.contents.length := by
    rw [h.out_eq]
    exact List.length_take_le' _ _
  have hpos := q.first_pos
  refine ⟨by simp [Server.cumulativeAck, Header.has], ?_, ?_⟩ <;>
    simp only [Server.cumulativeAck, h.expected_eq] <;> omega

structure Terminates (q : Session) (s : Transfer) : Prop where
  inv : q.Inv s
  nextseq_eq : s.client.sending = false →
    s.client.nextseq.toNat = q.first + q.contents.length
  fin : ∀ p ∈ s.toServer, p.hdr.has shamFin = true → p.hdr.seqNum = s.client.nextseq
  serverSeq_eq : s.server.phase = .receiving → s.server.serverSeq = q.srvSeq
  early : s.server.phase = .receiving → ∀ p ∈ s.toClient, q.Early p
  answered : s.server.phase ≠ .receiving →
    Server.finReply s.client.nextseq ∈ s.toClient ∧ Server.finOf q.srvSeq ∈ s.toClient
  gotAck : s.client.gotAck = true → s.server.phase ≠ .receiving
  gotFin : s.client.gotFin = true → s.server.phase ≠ .receiving
  closed : s.client.pc = .closed → s.client.gotAck = true ∧ s.client.gotFin = true

namespace Terminates

theorem start (hq : q.NoWrap) : q.Terminates (.start q) := by
  constructor
  · exact inv_start hq
  · simp [Transfer.start, Client.start, Client.sending]
  · intro p hp hfin
    rw [noFin_sentBefore p hp] at hfin
    cases hfin
  · intro _
    rfl
  · intro _ p hp
    simp only [Transfer.start, List.mem_map] at hp
    obtain ⟨srvSeq, -, rfl⟩ := hp
    exact early_synAck hq srvSeq
  · intro hphase
    exact absurd rfl hphase
  · simp [Transfer.start, Client.start]
  · simp [Transfer.start, Client.start]
  · simp [Transfer.start, Client.start]

theorem client (hq : q.NoWrap) {s s' : Transfer} (h : q.Terminates s) {env : ClientEnv}
    {out : List Packet} (hstep : s.client.step env = some (s'.client, out))
    (hreceived : ∀ hdr, env.received = some hdr →
      ∃ p ∈ s.toClient, hdr.flags = p.hdr.flags ∧ hdr.ackNum = p.hdr.ackNum)
    (hserver : s'.server = s.server) (htoServer : s'.toServer = s.toServer ++ out)
    (htoClient : s'.toClient = s.toClient) : q.Terminates s' := by
  have hinv := h.inv.client hq hstep hreceived hserver htoServer htoClient
  have hclosing := Client.closing_of_step hstep
  have hdone : s'.client.sending = false →
      s'.client.nextseq.toNat = q.first + q.contents.length := by
    intro hleft
    cases hsending : s.client.sending with
    | true =>
        obtain ⟨-, -, hnext, hpos⟩ := Client.setsDone_of_left hstep hsending hleft
        rw [hnext, h.inv.holds.nextseq_eq, hpos, h.inv.holds.contents_eq]
    | false =>
        rw [(Client.frame_of_not_sending hstep hsending).2]
        exact h.nextseq_eq hsending
  -- The server is past its receive loop only once the client has left the send loop.
  have hframe : s.client.sending = false → s'.client.nextseq = s.client.nextseq :=
    fun hleft => (Client.frame_of_not_sending hstep hleft).2
  constructor
  · exact hinv
  · exact hdone
  · intro p hp hfin
    rw [htoServer] at hp
    rcases List.mem_append.mp hp with hp | hp
    · rw [hframe (h.inv.fin p hp hfin)]
      exact h.fin p hp hfin
    · exact hclosing.fin p hp hfin
  · rw [hserver]
    exact h.serverSeq_eq
  · rw [hserver, htoClient]
    exact h.early
  · intro hphase
    rw [hserver] at hphase
    rw [htoClient, hframe (h.inv.phase hphase)]
    exact h.answered hphase
  · intro hack hphase
    rw [hserver] at hphase
    rcases hclosing.gotAck hack with hack | ⟨hleft, hdr, hhdr, -, hnum⟩
    · exact h.gotAck hack hphase
    · obtain ⟨p, hp, -, hp_num⟩ := hreceived hdr hhdr
      apply (h.early hphase p hp).ne_nextseq_add_one (h.nextseq_eq hleft)
      rw [← hp_num, hnum]
  · intro hfin hphase
    rw [hserver] at hphase
    rcases hclosing.gotFin hfin with hfin | ⟨-, hdr, hhdr, hflag⟩
    · exact h.gotFin hfin hphase
    · obtain ⟨p, hp, hflags, -⟩ := hreceived hdr hhdr
      have hnone := (h.early hphase p hp).1
      rw [Header.has, hflags] at hflag
      rw [Header.has, hflag] at hnone
      simp at hnone
  · exact hclosing.closed

theorem server (hq : q.NoWrap) {s s' : Transfer} (h : q.Terminates s) {a : Arrival}
    {out : List Packet} (hstep : s.server.step a = some (s'.server, out))
    (hpacket : a.packet ∈ s.toServer) (hclient : s'.client = s.client)
    (htoServer : s'.toServer = s.toServer) (htoClient : s'.toClient = s.toClient ++ out) :
    q.Terminates s' := by
  have hinv := h.inv.server hq hstep hpacket hclient htoServer htoClient
  -- The client is as it was, so only what concerns the server remains in each case.
  have keep : (s'.server.phase = .receiving → s.server.phase = .receiving ∧
        s'.server.serverSeq = q.srvSeq ∧ ∀ p ∈ out, q.Early p) →
      (s'.server.phase ≠ .receiving → s.server.phase ≠ .receiving ∨
        (Server.finReply s.client.nextseq ∈ out ∧ Server.finOf q.srvSeq ∈ out)) →
      q.Terminates s' := by
    intro hreceiving hanswered
    refine ⟨hinv, ?_, ?_, fun hphase => (hreceiving hphase).2.1, ?_, ?_, ?_, ?_, ?_⟩
    · rw [hclient]
      exact h.nextseq_eq
    · rw [htoServer, hclient]
      exact h.fin
    · intro hphase p hp
      rw [htoClient] at hp
      rcases List.mem_append.mp hp with hp | hp
      · exact h.early (hreceiving hphase).1 p hp
      · exact (hreceiving hphase).2.2 p hp
    · intro hphase
      rw [htoClient, hclient]
      simp only [List.mem_append]
      rcases hanswered hphase with hold | hnew
      · exact ⟨.inl (h.answered hold).1, .inl (h.answered hold).2⟩
      · exact ⟨.inr hnew.1, .inr hnew.2⟩
    · intro hack hphase
      rw [hclient] at hack
      exact h.gotAck hack (hreceiving hphase).1
    · intro hfin hphase
      rw [hclient] at hfin
      exact h.gotFin hfin (hreceiving hphase).1
    · rw [hclient]
      exact h.closed
  rcases Server.step_cases hstep with
    ⟨hphase, -, hs', rfl⟩ | ⟨hphase, hfin, hs', rfl⟩ | ⟨hphase, -, r, -, hs', rfl⟩ |
    ⟨hphase, hs', rfl⟩
  · have hseq := h.serverSeq_eq hphase
    apply keep
    · intro _
      exact ⟨hphase, by rw [hs', hseq], by simp⟩
    · intro hne
      rw [hs'] at hne
      exact absurd hphase hne
  · apply keep
    · intro hagain
      simp [hs'] at hagain
    · intro _
      right
      rw [h.fin a.packet hpacket hfin, h.serverSeq_eq hphase]
      simp
  · have hseq := h.serverSeq_eq hphase
    apply keep
    · intro _
      refine ⟨hphase, by rw [hs', ← hseq], ?_⟩
      have hearly := early_cumulativeAck hinv.rebuilds
      simpa [hs'] using hearly
    · intro hne
      rw [hs'] at hne
      exact absurd hphase hne
  · apply keep
    · intro hagain
      simp [hs'] at hagain
    · intro _
      left
      simp [hphase]

theorem step (hq : q.NoWrap) {s s' : Transfer} {a : Action} {out : List Empty}
    (h : q.Terminates s) (hstep : Transfer.step a s = some (s', out)) : q.Terminates s' := by
  rcases Transfer.step_cases hstep with
    ⟨env, sent, hclient, hreceived, hserver, htoServer, htoClient⟩ |
    ⟨arrival, sent, hserver, hpacket, hclient, htoServer, htoClient⟩
  · exact h.client hq hclient hreceived hserver htoServer htoClient
  · exact h.server hq hserver hpacket hclient htoServer htoClient

theorem run (hq : q.NoWrap) {actions : List Action} {s s' : Transfer} (h : q.Terminates s)
    (hrun : Transfer.machine.run actions s = some (s', [])) : q.Terminates s' :=
  Transfer.machine.run_invariant (fun _ _ _ _ hs hstep => hs.step hq hstep) h hrun

end Terminates

theorem reassembly_of_left {actions : List Action} {s s' : Transfer}
    (hleft : s.server.phase ≠ .receiving)
    (hrun : Transfer.machine.run actions s = some (s', [])) :
    s'.server.reassembly = s.server.reassembly := by
  have hboth : s'.server.phase ≠ .receiving ∧
      s'.server.reassembly = s.server.reassembly := by
    refine Transfer.machine.run_invariant (P := fun t => t.server.phase ≠ .receiving ∧
      t.server.reassembly = s.server.reassembly) ?_ ⟨hleft, rfl⟩ hrun
    rintro a t t' out ⟨hphase, hsame⟩ hstep
    rcases Transfer.step_cases hstep with
      ⟨-, -, -, -, hserver, -⟩ | ⟨arrival, sent, hserver, -⟩
    · rw [hserver]
      exact ⟨hphase, hsame⟩
    · rcases Server.step_cases hserver with
        ⟨hagain, -⟩ | ⟨hagain, -⟩ | ⟨hagain, -⟩ | ⟨-, ht', -⟩
      · exact absurd hagain hphase
      · exact absurd hagain hphase
      · exact absurd hagain hphase
      · rw [ht']
        exact ⟨by simp, hsame⟩
  exact hboth.2

/--
The client has seen the ACK of its FIN, or the server's FIN, only after the
server took its FIN branch and sent both; a client that is through has found
the server past its receive loop for good.  Nothing the server sent before its
FIN branch, no SYN-ACK and no data ACK, is taken for either of them.
-/
theorem termination_handshake (hq : q.NoWrap) {s : Transfer}
    (h : Transfer.Reachable q s) :
    (s.client.gotAck = true → s.server.phase ≠ .receiving ∧
      Server.finReply s.client.nextseq ∈ s.toClient) ∧
    (s.client.gotFin = true → s.server.phase ≠ .receiving ∧
      Server.finOf q.srvSeq ∈ s.toClient) ∧
    (s.client.pc = .closed → s.server.phase ≠ .receiving ∧
      ∀ actions s', Transfer.machine.run actions s = some (s', []) →
        s'.server.reassembly = s.server.reassembly) ∧
    (s.server.phase = .receiving →
      ∀ actions s', Transfer.machine.run actions s = some (s', []) →
        s'.client.sending = false → ∀ p ∈ s.toClient, p.hdr.has shamFin = false ∧
          p.hdr.ackNum ≠ s'.client.nextseq + 1) := by
  obtain ⟨before, hbefore⟩ := h
  have hs := (Terminates.start hq).run hq hbefore
  have hleft : s.client.gotAck = true → s.server.phase ≠ .receiving := hs.gotAck
  refine ⟨?_, ?_, ?_, ?_⟩
  · intro hack
    exact ⟨hleft hack, (hs.answered (hleft hack)).1⟩
  · intro hfin
    exact ⟨hs.gotFin hfin, (hs.answered (hs.gotFin hfin)).2⟩
  · intro hclosed
    have hphase := hleft (hs.closed hclosed).1
    exact ⟨hphase, fun actions s' hrun => reassembly_of_left hphase hrun⟩
  · intro hphase actions s' hrun hdone p hp
    have hearly := hs.early hphase p hp
    exact ⟨hearly.1, hearly.ne_nextseq_add_one ((hs.run hq hrun).nextseq_eq hdone)⟩

def reads (index : Nat) : Action := .client (some ⟨index, none⟩) ⟨0, 0⟩ fun _ => ⟨0, 0⟩

/-- After `ackedFirst` the client reads a late data ACK, the server's two answers, and closes. -/
def closing : List Action :=
  ackedFirst ++ [tick, reads 1, tick, reads 2, tick, reads 3, tick]

theorem termination_handshake_closing :
    ∃ s, Transfer.Reachable oneByte s ∧ s.client.pc = .closed ∧
      s.server.phase ≠ .receiving ∧
      Server.finReply s.client.nextseq ∈ s.toClient ∧ Server.finOf 900 ∈ s.toClient := by
  obtain ⟨s, hrun, htest⟩ := Transfer.exists_run oneByte closing
    (fun s => s.client.pc == .closed && s.client.gotAck && s.client.gotFin)
    (by decide +kernel)
  simp only [Bool.and_eq_true, beq_iff_eq] at htest
  obtain ⟨⟨hclosed, hack⟩, hfin⟩ := htest
  have hreach : Transfer.Reachable oneByte s := ⟨_, hrun⟩
  have hs := termination_handshake (by decide) hreach
  exact ⟨s, hreach, hclosed, (hs.1 hack).1, (hs.1 hack).2, (hs.2.1 hfin).2⟩

end Session

end OxyC.Networking
