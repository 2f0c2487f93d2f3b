import OxyC.Networking.ClientProgram
import OxyC.Networking.Handshake

/-!
# Agreement on the handshake

The server's handshake loop, a client program at each address, and the packets
sent between them, which stay deliverable.  What is in flight bears out the
numbers the server has stored: each ACK is a client's answer to a SYN-ACK that
was sent to that client.
-/

namespace OxyC.Networking

open OxyC.Foundation

structure HandshakeNet (κ : Type*) where
  server : Handshake κ
  clients : κ → ClientProgram
  toServer : List (κ × Packet)
  toClients : List (κ × Packet)

inductive HandshakeAction (κ : Type*) where
  /-- The server receives `packet` from the client at `source`. -/
  | server (source : κ) (packet : Packet) (rand32 : UInt32)
  | client (k : κ) (input : ClientInput)

namespace HandshakeNet

variable {κ : Type*}

def start (cliaddr : κ) : HandshakeNet κ := ⟨.start cliaddr, fun _ => .start, [], []⟩

/-- What the client at `k` reads is a packet that the server has sent there. -/
def Delivers (s : HandshakeNet κ) (k : κ) : ClientInput → Prop
  | .connect => True
  | .synAck d => ∃ x ∈ s.toClients, x.1 = k ∧ d.Carries x.2
  | .chat (.ready _ _) => True
  | .chat (.datagram d) => ∃ x ∈ s.toClients, x.1 = k ∧ d.Carries x.2
  | .transfer env => ∀ hdr, env.received = some hdr → ∃ x ∈ s.toClients, x.1 = k ∧ hdr = x.2.hdr

section Steps

variable [DecidableEq κ]

instance (s : HandshakeNet κ) (k : κ) (input : ClientInput) :
    Decidable (s.Delivers k input) :=
  match input with
  | .connect => .isTrue trivial
  | .synAck d => inferInstanceAs (Decidable (∃ x ∈ s.toClients, x.1 = k ∧ d.Carries x.2))
  | .chat (.ready _ _) => .isTrue trivial
  | .chat (.datagram d) =>
      inferInstanceAs (Decidable (∃ x ∈ s.toClients, x.1 = k ∧ d.Carries x.2))
  | .transfer ⟨none, _, _⟩ => .isTrue (by simp [Delivers])
  | .transfer ⟨some hdr, _, _⟩ =>
      decidable_of_iff (∃ x ∈ s.toClients, x.1 = k ∧ hdr = x.2.hdr) (by simp [Delivers])

def step (setup : κ → ClientSetup) (a : HandshakeAction κ) (s : HandshakeNet κ) :
    Option (HandshakeNet κ × List Empty) :=
  match a with
  | .server source packet rand32 =>
      if (source, packet) ∈ s.toServer then
        (s.server.step ⟨source, some packet.hdr, rand32⟩).map fun x =>
          ({ s with server := x.1, toClients := s.toClients ++ x.2 }, [])
      else none
  | .client k input =>
      if s.Delivers k input then
        (ClientProgram.step (setup k) input (s.clients k)).map fun x =>
          ({ s with
              clients := Function.update s.clients k x.1
              toServer := s.toServer ++ x.2.map fun p => (k, p) }, [])
      else none

def machine (setup : κ → ClientSetup) : Mealy (HandshakeAction κ) Empty (HandshakeNet κ) :=
  ⟨step setup⟩

theorem step_cases {setup : κ → ClientSetup} {a : HandshakeAction κ} {s s' : HandshakeNet κ}
    {out : List Empty} (h : step setup a s = some (s', out)) :
    (∃ source packet rand32 server sent, (source, packet) ∈ s.toServer ∧
      s.server.step ⟨source, some packet.hdr, rand32⟩ = some (server, sent) ∧
      s' = { s with server := server, toClients := s.toClients ++ sent }) ∨
    (∃ k input client sent, s.Delivers k input ∧
      ClientProgram.step (setup k) input (s.clients k) = some (client, sent) ∧
      s' = { s with
        clients := Function.update s.clients k client
        toServer := s.toServer ++ sent.map fun p => (k, p) }) := by
  cases a with
  | server source packet rand32 =>
      simp only [step] at h
      split at h
      · rename_i hmem
        obtain ⟨x, hx, heq⟩ := Option.map_eq_some_iff.mp h
        cases heq
        exact .inl ⟨source, packet, rand32, x.1, x.2, hmem, hx, rfl⟩
      · simp at h
  | client k input =>
      simp only [step] at h
      split at h
      · rename_i hdelivers
        obtain ⟨x, hx, heq⟩ := Option.map_eq_some_iff.mp h
        cases heq
        exact .inr ⟨k, input, x.1, x.2, hdelivers, hx, rfl⟩
      · simp at h

end Steps

/-- One number for each SYN-ACK the server has sent. -/
def serverIsns (s : HandshakeNet κ) : List UInt32 := s.toClients.map fun x => x.2.hdr.seqNum

/-! ## What the packets in flight bear out -/

/-- The client at `k` has answered the SYN-ACK numbered `srvSeq`. -/
def Answered (s : HandshakeNet κ) (k : κ) (srvSeq : UInt32) : Prop :=
  ∃ hdr, (s.clients k).synAck = some hdr ∧ hdr.seqNum = srvSeq

/-- A packet of the client at `k`: its SYN, its final ACK, or one without these flags. -/
def Speaks (setup : κ → ClientSetup) (s : HandshakeNet κ) (k : κ) (p : Packet) : Prop :=
  (p.hdr.has shamSyn = true → p.hdr.seqNum = (setup k).cliSeq) ∧
    (p.hdr.has shamAck = true → ∃ srvSeq, p = ClientProgram.finalAck (setup k).cliSeq srvSeq ∧
      (k, Handshake.synAck srvSeq (setup k).cliSeq) ∈ s.toClients ∧ s.Answered k srvSeq)

/-- The file transfer of a client has seen no FIN. -/
def Unfinished : ClientProgram → Prop
  | .transfer _ c => c.gotFin = false
  | .start | .synSent | .chat _ _ | .exited _ => True

structure Inv (setup : κ → ClientSetup) (s : HandshakeNet κ) : Prop where
  synAcks : ∀ x ∈ s.toClients, ∃ srvSeq, x.2 = Handshake.synAck srvSeq (setup x.1).cliSeq
  speaks : ∀ x ∈ s.toServer, s.Speaks setup x.1 x.2
  unfinished : ∀ k, Unfinished (s.clients k)
  stored : s.server.pc ≠ .listening → ∃ k, s.server.clientIsn = (setup k).cliSeq ∧
    (k, Handshake.synAck s.server.serverSeq (setup k).cliSeq) ∈ s.toClients
  awaiting : ∀ srvSeq, s.server.pc = .awaitAck srvSeq → s.server.serverSeq = srvSeq
  complete : s.server.pc = .complete → ∃ p, (s.server.cliaddr, p) ∈ s.toServer ∧
    Handshake.acknowledges p.hdr s.server.serverSeq = true

variable {setup : κ → ClientSetup}

theorem Speaks.mono {s s' : HandshakeNet κ} {k : κ} {p : Packet} (h : s.Speaks setup k p)
    (hclients : ∀ hdr, (s.clients k).synAck = some hdr → (s'.clients k).synAck = some hdr)
    (htoClients : ∀ x ∈ s.toClients, x ∈ s'.toClients) : s'.Speaks setup k p := by
  refine ⟨h.1, ?_⟩
  intro hack
  obtain ⟨srvSeq, hp, hsent, hdr, hread, hseq⟩ := h.2 hack
  exact ⟨srvSeq, hp, htoClients _ hsent, hdr, hclients hdr hread, hseq⟩

theorem inv_start (cliaddr : κ) : Inv setup (start cliaddr) := by
  constructor
  · simp [start]
  · simp [start]
  · exact fun _ => trivial
  · intro hne
    exact absurd rfl hne
  · simp [start, Handshake.start]
  · simp [start, Handshake.start]

/-! ## Steps -/

theorem header_synAck (srvSeq cliSeq : UInt32) :
    (Handshake.synAck srvSeq cliSeq).hdr.has shamFin = false ∧
      ClientProgram.isSynAck (Handshake.synAck srvSeq cliSeq).hdr = true := by
  constructor <;> simp only [Handshake.synAck, Header.has, ClientProgram.isSynAck] <;> decide

theorem Inv.carries {s : HandshakeNet κ} (h : Inv setup s) {k : κ} {d : Datagram}
    (hread : ∃ x ∈ s.toClients, x.1 = k ∧ d.Carries x.2) :
    ∃ srvSeq, d.Carries (Handshake.synAck srvSeq (setup k).cliSeq) ∧
      (k, Handshake.synAck srvSeq (setup k).cliSeq) ∈ s.toClients := by
  obtain ⟨⟨k', p⟩, hmem, rfl, hcarries⟩ := hread
  obtain ⟨srvSeq, hp⟩ := h.synAcks _ hmem
  simp only at hp hcarries
  rw [hp] at hmem hcarries
  exact ⟨srvSeq, hcarries, hmem⟩

/-- The packets of one client step, with what the client has read by then. -/
structure Sends (setup : κ → ClientSetup) (s : HandshakeNet κ) (k : κ) (c : ClientProgram)
    (sent : List Packet) : Prop where
  unfinished : Unfinished c
  syn : ∀ p ∈ sent, p.hdr.has shamSyn = true → p.hdr.seqNum = (setup k).cliSeq
  ack : ∀ p ∈ sent, p.hdr.has shamAck = true → ∃ srvSeq,
    p = ClientProgram.finalAck (setup k).cliSeq srvSeq ∧
      (k, Handshake.synAck srvSeq (setup k).cliSeq) ∈ s.toClients ∧
      ∃ hdr, c.synAck = some hdr ∧ hdr.seqNum = srvSeq

theorem Sends.of_plain {s : HandshakeNet κ} {k : κ} {c : ClientProgram} {sent : List Packet}
    (hc : Unfinished c) (h : ∀ p ∈ sent, p.Plain) : Sends setup s k c sent where
  unfinished := hc
  syn p hp hsyn := by simp [(h p hp).1] at hsyn
  ack p hp hack := by simp [(h p hp).2] at hack

theorem Sends.finalAck {s : HandshakeNet κ} {k : κ} {c : ClientProgram} {srvSeq : UInt32}
    {hdr : Header} {rest : List Packet} (hc : Unfinished c) (hread : c.synAck = some hdr)
    (hseq : hdr.seqNum = srvSeq)
    (hsent : (k, Handshake.synAck srvSeq (setup k).cliSeq) ∈ s.toClients)
    (hrest : ∀ p ∈ rest, p.Plain) :
    Sends setup s k c (ClientProgram.finalAck (setup k).cliSeq srvSeq :: rest) where
  unfinished := hc
  syn p hp hsyn := by
    rcases List.mem_cons.mp hp with rfl | hp
    · have hnone : (ClientProgram.finalAck (setup k).cliSeq srvSeq).hdr.has shamSyn = false := by
        simp only [ClientProgram.finalAck, Header.has]
        decide
      rw [hnone] at hsyn
      simp at hsyn
    · simp [(hrest p hp).1] at hsyn
  ack p hp hack := by
    rcases List.mem_cons.mp hp with rfl | hp
    · exact ⟨srvSeq, rfl, hsent, hdr, hread, hseq⟩
    · simp [(hrest p hp).2] at hack

theorem Inv.sends_recvSynAck {s : HandshakeNet κ} (h : Inv setup s) {k : κ} {d : Datagram}
    (hread : ∃ x ∈ s.toClients, x.1 = k ∧ d.Carries x.2) {c : ClientProgram}
    {sent : List Packet} (hstep : ClientProgram.recvSynAck (setup k) d = some (c, sent)) :
    Sends setup s k c sent := by
  obtain ⟨srvSeq, hcarries, hsent⟩ := h.carries hread
  have hheader := hcarries.header_recvfrom (setup k).buf
  have hboth := (header_synAck srvSeq (setup k).cliSeq).2
  simp only [ClientProgram.recvSynAck, hheader, hboth, if_true] at hstep
  cases hmode : (setup k).mode with
  | chat =>
      rw [hmode] at hstep
      cases hstep
      exact Sends.finalAck trivial rfl rfl hsent (by simp)
  | file outname contents =>
      rw [hmode] at hstep
      obtain ⟨⟨c', named⟩, hfile, heq⟩ := Option.map_eq_some_iff.mp hstep
      cases heq
      unfold ClientProgram.enterFile at hfile
      split at hfile
      · simp at hfile
      · have hplain : ∀ p ∈ (if outname.length > 0 then
            [Client.namePacket (setup k).cliSeq outname
              (ClientProgram.remoteWin (Handshake.synAck srvSeq (setup k).cliSeq).hdr)]
            else []), p.Plain := by
          intro p hp
          split at hp
          · rw [List.mem_singleton.mp hp]
            exact Client.plain_sendPacket _ _ _
          · simp at hp
        cases contents with
        | none =>
            cases hfile
            exact Sends.finalAck trivial rfl rfl hsent hplain
        | some contents =>
            cases hfile
            exact Sends.finalAck (c := .transfer _ _) rfl rfl rfl hsent hplain

theorem Inv.sends {s : HandshakeNet κ} (h : Inv setup s) {k : κ} {input : ClientInput}
    {c : ClientProgram} {sent : List Packet} (hdelivers : s.Delivers k input)
    (hstep : ClientProgram.step (setup k) input (s.clients k) = some (c, sent)) :
    Sends setup s k c sent := by
  have hopen := h.unfinished k
  cases hclient : s.clients k with
  | start =>
      rw [hclient] at hstep
      cases input <;> simp [ClientProgram.step] at hstep
      obtain ⟨rfl, rfl⟩ := hstep
      refine ⟨trivial, by simp [ClientProgram.syn], ?_⟩
      intro p hp hack
      have hnone : (ClientProgram.syn (setup k).cliSeq).hdr.has shamAck = false := by
        simp only [ClientProgram.syn, Header.has]
        decide
      rw [List.mem_singleton.mp hp, hnone] at hack
      simp at hack
  | synSent =>
      rw [hclient] at hstep
      cases input with
      | synAck d => exact h.sends_recvSynAck hdelivers hstep
      | connect => simp [ClientProgram.step] at hstep
      | chat input => simp [ClientProgram.step] at hstep
      | transfer env => simp [ClientProgram.step] at hstep
  | chat hdr chat =>
      rw [hclient] at hstep
      cases input with
      | chat input =>
          obtain ⟨⟨chat', out⟩, hchat, heq⟩ := Option.map_eq_some_iff.mp hstep
          cases heq
          refine Sends.of_plain trivial (ChatClient.plain_of_step hchat ?_)
          rintro d rfl
          obtain ⟨srvSeq, hcarries, -⟩ := h.carries hdelivers
          rw [hcarries.header_recvfrom, hcarries.payloadLength_eq]
          exact ⟨(header_synAck _ _).1, rfl⟩
      | connect => simp [ClientProgram.step] at hstep
      | synAck d => simp [ClientProgram.step] at hstep
      | transfer env => simp [ClientProgram.step] at hstep
  | transfer hdr transfer =>
      rw [hclient] at hstep hopen
      cases input with
      | transfer env =>
          obtain ⟨⟨transfer', out⟩, htransfer, heq⟩ := Option.map_eq_some_iff.mp hstep
          cases heq
          have hplain := Client.plain_of_step htransfer hopen ?_
          · exact Sends.of_plain hplain.1 hplain.2
          · intro hdr' hhdr'
            obtain ⟨x, hx, -, rfl⟩ := hdelivers hdr' hhdr'
            obtain ⟨srvSeq, hp⟩ := h.synAcks x hx
            rw [hp]
            exact (header_synAck _ _).1
      | connect => simp [ClientProgram.step] at hstep
      | synAck d => simp [ClientProgram.step] at hstep
      | chat input => simp [ClientProgram.step] at hstep
  | exited hdr =>
      rw [hclient] at hstep
      simp [ClientProgram.step] at hstep

theorem Inv.client [DecidableEq κ] {s : HandshakeNet κ} (h : Inv setup s) {k : κ}
    {input : ClientInput} {c : ClientProgram} {sent : List Packet}
    (hdelivers : s.Delivers k input)
    (hstep : ClientProgram.step (setup k) input (s.clients k) = some (c, sent)) :
    Inv setup { s with
      clients := Function.update s.clients k c
      toServer := s.toServer ++ sent.map fun p => (k, p) } := by
  have hsends := h.sends hdelivers hstep
  have hkeep : ∀ k' hdr, (s.clients k').synAck = some hdr →
      (Function.update s.clients k c k').synAck = some hdr := by
    intro k' hdr hread
    by_cases hk : k' = k
    · subst hk
      rw [Function.update_self]
      exact ClientProgram.synAck_of_step hstep hread
    · rw [Function.update_of_ne hk]
      exact hread
  constructor
  · exact h.synAcks
  · intro x hx
    rcases List.mem_append.mp hx with hx | hx
    · exact (h.speaks x hx).mono (hkeep x.1) fun _ hy => hy
    · obtain ⟨p, hp, rfl⟩ := List.mem_map.mp hx
      refine ⟨hsends.syn p hp, ?_⟩
      intro hack
      obtain ⟨srvSeq, heq, hsent, hdr, hread, hseq⟩ := hsends.ack p hp hack
      refine ⟨srvSeq, heq, hsent, hdr, ?_, hseq⟩
      simpa using hread
  · intro k'
    by_cases hk : k' = k
    · subst hk
      simpa using hsends.unfinished
    · simpa [Function.update_of_ne hk] using h.unfinished k'
  · exact h.stored
  · exact h.awaiting
  · intro hcomplete
    obtain ⟨p, hp, hack⟩ := h.complete hcomplete
    exact ⟨p, List.mem_append_left _ hp, hack⟩

theorem Inv.server {s : HandshakeNet κ} (h : Inv setup s) {source : κ} {packet : Packet}
    {rand32 : UInt32} {server : Handshake κ} {sent : List (κ × Packet)}
    (hmem : (source, packet) ∈ s.toServer)
    (hstep : s.server.step ⟨source, some packet.hdr, rand32⟩ = some (server, sent)) :
    Inv setup { s with server := server, toClients := s.toClients ++ sent } := by
  have hspeaks : ∀ x ∈ s.toServer,
      Speaks setup { s with server := server, toClients := s.toClients ++ sent } x.1 x.2 :=
    fun x hx => (h.speaks x hx).mono (fun _ hread => hread) fun _ hy =>
      List.mem_append_left _ hy
  rcases Handshake.step_cases hstep with
    ⟨hdr, -, hhdr, hsyn, rfl, rfl⟩ | ⟨hdr, srvSeq, hpc, hhdr, hack, rfl, rfl⟩ |
    ⟨rfl, rfl, -⟩
  · -- A SYN: by the invariant its number is that of the client at `source`.
    cases hhdr
    have hisn : packet.hdr.seqNum = (setup source).cliSeq := (h.speaks _ hmem).1 hsyn
    simp only [hisn] at hspeaks ⊢
    constructor
    · intro x hx
      rcases List.mem_append.mp hx with hx | hx
      · exact h.synAcks x hx
      · rw [List.mem_singleton.mp hx]
        exact ⟨_, rfl⟩
    · exact hspeaks
    · exact h.unfinished
    · intro _
      exact ⟨source, rfl, List.mem_append_right _ (List.mem_singleton.mpr rfl)⟩
    · intro srvSeq hpc
      simpa using hpc
    · simp
  · cases hhdr
    have hserver : s.server.serverSeq = srvSeq := h.awaiting srvSeq hpc
    obtain ⟨k, hisn, hsent⟩ := h.stored (by simp [hpc])
    constructor
    · simpa using h.synAcks
    · exact hspeaks
    · exact h.unfinished
    · intro _
      exact ⟨k, hisn, by simpa using hsent⟩
    · simp
    · intro _
      exact ⟨packet, hmem, by rw [hserver]; exact hack⟩
  · constructor
    · simpa using h.synAcks
    · exact hspeaks
    · exact h.unfinished
    · intro hne
      exact absurd rfl hne
    · simp
    · simp

theorem Inv.step [DecidableEq κ] {s s' : HandshakeNet κ} {a : HandshakeAction κ}
    {out : List Empty} (h : Inv setup s) (hstep : step setup a s = some (s', out)) :
    Inv setup s' := by
  rcases step_cases hstep with
    ⟨source, packet, rand32, server, sent, hmem, hserver, rfl⟩ |
    ⟨k, input, client, sent, hdelivers, hclient, rfl⟩
  · exact h.server hmem hserver
  · exact h.client hdelivers hclient

/--
When the server leaves its handshake loop, the numbers and the address it has
stored are those of one client, which has read that SYN-ACK and answered it.
-/
theorem handshake_agreement [DecidableEq κ] {cliaddr : κ} {actions : List (HandshakeAction κ)}
    {s : HandshakeNet κ} (hrun : (machine setup).run actions (start cliaddr) = some (s, []))
    (hdistinct : s.serverIsns.Nodup) (hcomplete : s.server.pc = .complete) :
    s.server.clientIsn = (setup s.server.cliaddr).cliSeq ∧
    (∃ hdr, (s.clients s.server.cliaddr).synAck = some hdr ∧
      hdr.seqNum = s.server.serverSeq) ∧
    (s.server.cliaddr, ClientProgram.finalAck (setup s.server.cliaddr).cliSeq
      s.server.serverSeq) ∈ s.toServer := by
  have h : Inv setup s := (machine setup).run_invariant
    (fun _ _ _ _ hs hstep => hs.step hstep) (inv_start cliaddr) hrun
  obtain ⟨k, hisn, hsent⟩ := h.stored (by simp [hcomplete])
  obtain ⟨p, hp, hack⟩ := h.complete hcomplete
  rw [Handshake.acknowledges_iff] at hack
  obtain ⟨srvSeq, hfinal, hanswered, hread⟩ := (h.speaks _ hp).2 hack.1
  simp only at hfinal hanswered hread
  subst hfinal
  have hsame : srvSeq = s.server.serverSeq := by
    have hnum := hack.2
    simpa [ClientProgram.finalAck] using hnum
  subst hsame
  -- Two SYN-ACKs of one number are the same one, so the ACK is from the stored client.
  have hone := List.inj_on_of_nodup_map hdistinct hsent hanswered rfl
  have hk : k = s.server.cliaddr := congrArg Prod.fst hone
  subst hk
  exact ⟨hisn, hread, hp⟩

def chatSetup (k : Nat) : ClientSetup := ⟨UInt32.ofNat (100 * k), .chat, zeroBuffer⟩

/-- The SYN-ACK of client 2 is overtaken by the SYN of client 1, which is then sent again. -/
def overtaken : List (HandshakeAction Nat) :=
  [.client 2 .connect, .client 1 .connect,
    .server 2 (ClientProgram.syn 200) 5, .server 1 (ClientProgram.syn 100) 0,
    .server 1 (ClientProgram.syn 100) 6,
    .client 1 (.synAck ((Handshake.synAck 6 100).datagram (Nat.zero_le _))),
    .server 1 (ClientProgram.finalAck 100 6) 0]

theorem handshake_agreement_overtaken :
    ∃ s, (machine chatSetup).run overtaken (start 0) = some (s, []) ∧
      s.server.clientIsn = (chatSetup s.server.cliaddr).cliSeq ∧
      (∃ hdr, (s.clients s.server.cliaddr).synAck = some hdr ∧
        hdr.seqNum = s.server.serverSeq) ∧
      (s.server.cliaddr, ClientProgram.finalAck (chatSetup s.server.cliaddr).cliSeq
        s.server.serverSeq) ∈ s.toServer := by
  obtain ⟨s, outs, hrun, htest⟩ := (machine chatSetup).exists_run overtaken (start 0)
    (fun x => decide x.1.serverIsns.Nodup && x.1.server.pc == .complete) (by decide +kernel)
  obtain rfl : outs = [] := Subsingleton.elim _ _
  simp only [Bool.and_eq_true, decide_eq_true_eq, beq_iff_eq] at htest
  exact ⟨s, hrun, handshake_agreement hrun htest.1 htest.2⟩

end HandshakeNet

end OxyC.Networking
