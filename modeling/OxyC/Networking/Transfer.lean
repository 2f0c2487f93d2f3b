import OxyC.Networking.Client
import OxyC.Networking.Server

/-!
# The file-transfer system

The client's program, the server's receive loop and the datagrams between them.
A datagram, once sent, stays deliverable: delivering it again is duplication,
delivering it late is reordering, and never delivering it is loss.  The window
field of a datagram on its way to the client may be replaced by any value.
-/

namespace OxyC.Networking

open OxyC.Foundation

/-- What the handshake and the file-name packet have fixed. -/
structure Session where
  cliSeq : UInt32
  srvSeq : UInt32
  /-- The window of the SYN-ACK. -/
  window : UInt16 := defaultWin
  /-- Sequence numbers of other SYN-ACKs of the handshake, still in flight. -/
  staleSynAcks : List UInt32 := []
  outname : List UInt8
  contents : List UInt8
  outname_pos : 0 < outname.length
  outname_le : outname.length ≤ 255

namespace Session

def first (q : Session) : Nat := q.cliSeq.toNat + 1 + q.outname.length

def NoWrap (q : Session) : Prop := q.first + q.contents.length < 2 ^ 32

instance (q : Session) : Decidable q.NoWrap := by
  unfold NoWrap
  infer_instance

def synAck (q : Session) (srvSeq : UInt32) : Header :=
  ⟨srvSeq, q.cliSeq + 1, shamSyn ||| shamAck, q.window⟩

def sentBefore (q : Session) : List Packet :=
  [⟨{ seqNum := q.cliSeq, flags := shamSyn }, []⟩,
    ⟨{ seqNum := q.cliSeq + 1, ackNum := q.srvSeq + 1, flags := shamAck }, []⟩,
    Client.namePacket q.cliSeq q.outname q.window]

theorem noFin_sentBefore {q : Session} : ∀ p ∈ q.sentBefore, p.hdr.has shamFin = false := by
  intro p hp
  simp only [sentBefore, List.mem_cons, List.not_mem_nil, or_false] at hp
  rcases hp with rfl | rfl | rfl
  · simp [Header.has]
  · simp [Header.has]
  · exact Client.has_sendPacket _ _ _ _

end Session

structure Delivery where
  index : Nat
  window : Option UInt16 := none
  deriving DecidableEq, Repr

inductive Action where
  | client (delivery : Option Delivery) (now : Timeval)
      (resentAt : Fin maxInflight → Timeval)
  | server (index : Nat) (shouldDrop : Bool)

structure Transfer where
  client : Client
  server : Server
  toServer : List Packet
  toClient : List Packet

namespace Transfer

def start (q : Session) : Transfer where
  client := .start q.cliSeq q.outname q.contents (q.synAck q.srvSeq)
  server :=
    { phase := .receiving
      serverSeq := q.srvSeq
      reassembly := .start (q.cliSeq + 1 + UInt32.ofNat q.outname.length) }
  toServer := q.sentBefore
  toClient := (q.srvSeq :: q.staleSynAcks).map fun srvSeq => ⟨q.synAck srvSeq, []⟩

/-- The server's part of `start` is what receiving the file-name packet leads to. -/
theorem receiveName_namePacket (q : Session) :
    Server.receiveName q.srvSeq (Client.namePacket q.cliSeq q.outname q.window) =
      some (q.outname, (start q).server) := by
  have hpos := q.outname_pos
  have hle := q.outname_le
  have hne : q.outname.length ≠ 0 := by omega
  have hlt : ¬ q.outname.length ≥ Server.outnameSize := by
    simp [Server.outnameSize]
    omega
  simp [Server.receiveName, Client.namePacket, Client.sendPacket, start, hlt]
  exact List.ne_nil_of_length_pos hpos

def deliver (d : Delivery) (s : Transfer) : Option Header :=
  (s.toClient[d.index]?).map fun p =>
    match d.window with
    | none => p.hdr
    | some w => { p.hdr with windowSize := w }

/-- What `select` and `recvfrom` give the client: nothing, or a datagram in flight. -/
def received (delivery : Option Delivery) (s : Transfer) : Option (Option Header) :=
  match delivery with
  | none => some none
  | some d => (s.deliver d).map some

def step : Action → Transfer → Option (Transfer × List Empty)
  | .client delivery now resentAt, s => do
      let received ← s.received delivery
      let (client, sent) ← s.client.step ⟨received, now, resentAt⟩
      pure ({ s with client, toServer := s.toServer ++ sent }, [])
  | .server index shouldDrop, s => do
      let packet ← s.toServer[index]?
      let (server, sent) ← s.server.step ⟨packet, shouldDrop⟩
      pure ({ s with server, toClient := s.toClient ++ sent }, [])

def machine : Mealy Action Empty Transfer := ⟨step⟩

theorem mem_of_deliver {d : Delivery} {s : Transfer} {hdr : Header}
    (h : s.deliver d = some hdr) :
    ∃ p ∈ s.toClient, hdr.flags = p.hdr.flags ∧ hdr.ackNum = p.hdr.ackNum := by
  simp only [deliver, Option.map_eq_some_iff] at h
  obtain ⟨p, hp, rfl⟩ := h
  refine ⟨p, List.mem_of_getElem? hp, ?_⟩
  split <;> exact ⟨rfl, rfl⟩

theorem step_cases {a : Action} {s s' : Transfer} {out : List Empty}
    (h : step a s = some (s', out)) :
    (∃ env sent, s.client.step env = some (s'.client, sent) ∧
      (∀ hdr, env.received = some hdr →
        ∃ p ∈ s.toClient, hdr.flags = p.hdr.flags ∧ hdr.ackNum = p.hdr.ackNum) ∧
      s'.server = s.server ∧ s'.toServer = s.toServer ++ sent ∧ s'.toClient = s.toClient) ∨
    (∃ arrival sent, s.server.step arrival = some (s'.server, sent) ∧
      arrival.packet ∈ s.toServer ∧
      s'.client = s.client ∧ s'.toServer = s.toServer ∧ s'.toClient = s.toClient ++ sent) := by
  cases a with
  | client delivery now resentAt =>
      simp only [step, Option.bind_eq_bind, Option.bind_eq_some_iff, Prod.exists,
        Option.pure_def, Option.some.injEq, Prod.mk.injEq] at h
      obtain ⟨received, hreceived, client, sent, hclient, rfl, -⟩ := h
      refine .inl ⟨⟨received, now, resentAt⟩, sent, hclient, ?_, rfl, rfl, rfl⟩
      rintro hdr hhdr
      cases delivery with
      | none =>
          simp only [Transfer.received, Option.some.injEq] at hreceived
          simp [← hreceived] at hhdr
      | some d =>
          simp only [Transfer.received, Option.map_eq_some_iff] at hreceived
          obtain ⟨hdr', hdeliver, rfl⟩ := hreceived
          simp only [Option.some.injEq] at hhdr
          subst hhdr
          exact mem_of_deliver hdeliver
  | server index shouldDrop =>
      simp only [step, Option.bind_eq_bind, Option.bind_eq_some_iff, Prod.exists,
        Option.pure_def, Option.some.injEq, Prod.mk.injEq] at h
      obtain ⟨packet, hpacket, server, sent, hserver, rfl, -⟩ := h
      exact .inr ⟨⟨packet, shouldDrop⟩, sent, hserver, List.mem_of_getElem? hpacket,
        rfl, rfl, rfl⟩

theorem exists_run (q : Session) (actions : List Action) (test : Transfer → Bool)
    (h : (machine.run actions (start q)).any (fun x => test x.1) = true) :
    ∃ s, machine.run actions (start q) = some (s, []) ∧ test s = true := by
  obtain ⟨s, outs, hrun, htest⟩ := machine.exists_run _ _ (fun x => test x.1) h
  obtain rfl : outs = [] := Subsingleton.elim _ _
  exact ⟨s, hrun, htest⟩

def Reachable (q : Session) (s : Transfer) : Prop :=
  ∃ actions, machine.run actions (start q) = some (s, [])

end Transfer

end OxyC.Networking
