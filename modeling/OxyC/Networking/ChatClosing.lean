import OxyC.Foundation.Potential
import OxyC.Foundation.Progress
import OxyC.Networking.ChatDelivery

/-!
# The end of a chat session

Who leaves once `/quit` has been typed, over channels that lose nothing and keep the
order.  The moves of a session are told by where the two sides stand and what is in
flight between them.
-/

namespace OxyC.Networking

open OxyC.Foundation

def Terminal.isQuit : Option Terminal → Bool
  | some (.line l) => l.isQuit
  | some .endOfInput | none => false

def Terminal.ends : Option Terminal → Bool
  | some .endOfInput => true
  | some (.line _) | none => false

namespace ChatEvent

def quits : ChatEvent → Bool
  | .serverSelect terminal _ | .clientSelect terminal _ => Terminal.isQuit terminal
  | .serverRecv _ | .clientRecv _ => false

/-- A side that is told of a datagram or reads one; nothing is typed. -/
def isDelivery : ChatEvent → Bool
  | .serverSelect none true | .clientSelect none true | .serverRecv _ | .clientRecv _ => true
  | .serverSelect _ _ | .clientSelect _ _ => false

theorem isDelivery_serverSelect (terminal : Option Terminal) (socket : Bool) :
    (serverSelect terminal socket).isDelivery = (terminal.isNone && socket) := by
  cases terminal <;> cases socket <;> rfl

theorem isDelivery_clientSelect (terminal : Option Terminal) (socket : Bool) :
    (clientSelect terminal socket).isDelivery = (terminal.isNone && socket) := by
  cases terminal <;> cases socket <;> rfl

end ChatEvent

theorem isNone_of_isQuit {terminal : Option Terminal} (h : Terminal.isQuit terminal = true) :
    terminal.isNone = false := by
  cases terminal <;> first | rfl | cases h

/-! ## The moves -/

/-- What a line is sent as: at most one packet, which is no FIN. -/
structure Speaks (terminal : Option Terminal) (sent : List Packet) : Prop where
  noFin : ∀ p ∈ sent, p.hdr.has shamFin = false
  fits : ∀ p ∈ sent, p.data.length ≤ shamMtu
  length_le : sent.length ≤ 1
  of_none : terminal = none → sent = []

/-- What is sent for a packet that is no FIN: an acknowledgement if it has a text. -/
structure Acknowledges (p : Packet) (sent : List Packet) : Prop where
  noFin : ∀ q ∈ sent, q.hdr.has shamFin = false
  empty : ∀ q ∈ sent, q.data = []
  length_le : sent.length ≤ 1
  of_empty : p.data = [] → sent = []

structure Wire where
  server : ChatServerPc
  client : ChatClientPc
  toServer : List Packet
  toClient : List Packet

def ChatSession.wire (s : ChatSession) : Wire := ⟨s.server.pc, s.client.pc, s.toServer, s.toClient⟩

inductive Moves : ChatEvent → Wire → Wire → Prop
  | serverLooks {terminal socket sent client toServer toClient}
      (stays : Terminal.isQuit terminal = false) (goesOn : Terminal.ends terminal = false)
      (speaks : Speaks terminal sent) :
      Moves (.serverSelect terminal socket) ⟨.select, client, toServer, toClient⟩
        ⟨ChatServer.afterTerminal socket, client, toServer, toClient ++ sent⟩
  | serverQuits {terminal socket fin client toServer toClient}
      (quits : Terminal.isQuit terminal = true) (isFin : fin.hdr.has shamFin = true)
      (empty : fin.data = []) :
      Moves (.serverSelect terminal socket) ⟨.select, client, toServer, toClient⟩
        ⟨.quitReply socket, client, toServer, toClient ++ [fin]⟩
  | serverEnds {terminal socket client toServer toClient} (ends : Terminal.ends terminal = true) :
      Moves (.serverSelect terminal socket) ⟨.select, client, toServer, toClient⟩
        ⟨.left, client, toServer, toClient⟩
  | serverReads {d p sent client toServer toClient} (noFin : p.hdr.has shamFin = false)
      (acks : Acknowledges p sent) :
      Moves (.serverRecv d) ⟨.receive, client, p :: toServer, toClient⟩
        ⟨.select, client, toServer, toClient ++ sent⟩
  | serverAnswers {d p ack fin client toServer toClient} (isFin : p.hdr.has shamFin = true)
      (ackNoFin : ack.hdr.has shamFin = false) (ackEmpty : ack.data = [])
      (answersFin : fin.hdr.has shamFin = true) (finEmpty : fin.data = []) :
      Moves (.serverRecv d) ⟨.receive, client, p :: toServer, toClient⟩
        ⟨.finalAck, client, toServer, toClient ++ [ack, fin]⟩
  | serverLeaves {d p socket client toServer toClient} (isAck : p.hdr.has shamAck = true) :
      Moves (.serverRecv d) ⟨.quitReply socket, client, p :: toServer, toClient⟩
        ⟨.left, client, toServer, toClient⟩
  | serverGoesOn {d p socket client toServer toClient} (noAck : p.hdr.has shamAck = false) :
      Moves (.serverRecv d) ⟨.quitReply socket, client, p :: toServer, toClient⟩
        ⟨ChatServer.afterTerminal socket, client, toServer, toClient⟩
  | serverDone {d p client toServer toClient} :
      Moves (.serverRecv d) ⟨.finalAck, client, p :: toServer, toClient⟩
        ⟨.select, client, toServer, toClient⟩
  | clientLooks {terminal socket sent server toServer toClient}
      (stays : Terminal.isQuit terminal = false) (goesOn : Terminal.ends terminal = false)
      (speaks : Speaks terminal sent) :
      Moves (.clientSelect terminal socket) ⟨server, .select, toServer, toClient⟩
        ⟨server, ChatClient.afterTerminal socket, toServer ++ sent, toClient⟩
  | clientQuits {terminal socket fin server toServer toClient}
      (quits : Terminal.isQuit terminal = true) (isFin : fin.hdr.has shamFin = true)
      (empty : fin.data = []) :
      Moves (.clientSelect terminal socket) ⟨server, .select, toServer, toClient⟩
        ⟨server, ChatClient.afterTerminal socket, toServer ++ [fin], toClient⟩
  | clientEnds {terminal socket server toServer toClient} (ends : Terminal.ends terminal = true) :
      Moves (.clientSelect terminal socket) ⟨server, .select, toServer, toClient⟩
        ⟨server, .left, toServer, toClient⟩
  | clientReads {d p sent server toServer toClient} (noFin : p.hdr.has shamFin = false)
      (acks : Acknowledges p sent) :
      Moves (.clientRecv d) ⟨server, .receive, toServer, p :: toClient⟩
        ⟨server, .select, toServer ++ sent, toClient⟩
  | clientLeaves {d p ack server toServer toClient} (isFin : p.hdr.has shamFin = true)
      (noFin : ack.hdr.has shamFin = false) (isAck : ack.hdr.has shamAck = true)
      (empty : ack.data = []) :
      Moves (.clientRecv d) ⟨server, .receive, toServer, p :: toClient⟩
        ⟨server, .left, toServer ++ [ack], toClient⟩

theorem Acknowledges.fits {p : Packet} {sent : List Packet} (h : Acknowledges p sent) :
    ∀ q ∈ sent, q.data.length ≤ shamMtu := by
  intro q hq
  simp [h.empty q hq]

theorem acknowledges_chatAck {d : Datagram} {p : Packet} (hd : d.Carries p) (buf : RecvBuffer)
    (win : UInt16) : Acknowledges p (chatAck d buf win) := by
  unfold chatAck
  dsimp only
  rw [hd.payloadLength_eq]
  split
  next hpos =>
      refine ⟨by simp [Header.has], by simp, by simp, fun hnil => ?_⟩
      simp [hnil] at hpos
  next => exact ⟨by simp, by simp, by simp, fun _ => rfl⟩

/-! ### The moves of the two programs -/

variable {terminal : Option Terminal} {socket : Bool} {d : Datagram} {p : Packet}
  {out : List Packet}

theorem ChatServer.select_moves {s s' : ChatServer}
    (h : s.step (.ready terminal socket) = some (s', out)) (client : ChatClientPc)
    (toServer toClient : List Packet) :
    Moves (.serverSelect terminal socket) ⟨s.pc, client, toServer, toClient⟩
      ⟨s'.pc, client, toServer, toClient ++ out⟩ := by
  have hpc : s.pc = .select := by
    by_contra hne
    cases hpc : s.pc <;> simp [step, hpc] at h hne
  rcases terminal with - | (l | -) <;> simp only [step, hpc, Option.some.injEq] at h <;> rw [hpc]
  · cases h
    exact .serverLooks rfl rfl ⟨by simp, by simp, by simp, fun _ => rfl⟩
  · unfold readLine at h
    split at h
    next hquit =>
        cases h
        exact .serverQuits hquit (by simp [Server.finOf, Header.has, shamFin]) rfl
    next hquit =>
        cases h
        refine .serverLooks (by simpa [Terminal.isQuit] using hquit) rfl
          ⟨by simp [Header.has], ?_, by simp, by simp⟩
        simp
  · cases h
    rw [List.append_nil]
    exact .serverEnds rfl

theorem ChatServer.recv_moves {s s' : ChatServer} (hd : d.Carries p)
    (h : s.step (.datagram d) = some (s', out)) (client : ChatClientPc)
    (toServer toClient : List Packet) :
    Moves (.serverRecv d) ⟨s.pc, client, p :: toServer, toClient⟩
      ⟨s'.pc, client, toServer, toClient ++ out⟩ := by
  cases hpc : s.pc with
  | select => simp [step, hpc] at h
  | left => simp [step, hpc] at h
  | quitReply socket =>
      simp only [step, hpc, hd.header_recvfrom, Option.some.injEq] at h
      cases h
      rw [List.append_nil]
      split
      next hack => exact .serverLeaves hack
      next hack => exact .serverGoesOn (by simpa using hack)
  | finalAck =>
      simp only [step, hpc, Option.some.injEq] at h
      cases h
      rw [List.append_nil]
      exact .serverDone
  | receive =>
      simp only [step, hpc, receive, hd.header_recvfrom] at h
      split at h
      next hfin =>
          cases h
          exact .serverAnswers hfin (by simp [Server.finReply, Header.has]) rfl
            (by simp [Server.finOf, Header.has, shamFin]) rfl
      next hfin =>
          obtain ⟨texts, -, heq⟩ := Option.map_eq_some_iff.mp h
          cases heq
          exact .serverReads (by simpa using hfin) (acknowledges_chatAck hd _ _)

theorem ChatClient.select_moves {c c' : ChatClient}
    (h : c.step (.ready terminal socket) = some (c', out)) (server : ChatServerPc)
    (toServer toClient : List Packet) :
    Moves (.clientSelect terminal socket) ⟨server, c.pc, toServer, toClient⟩
      ⟨server, c'.pc, toServer ++ out, toClient⟩ := by
  have hpc : c.pc = .select := by
    by_contra hne
    cases hpc : c.pc <;> simp [step, hpc] at h hne
  rcases terminal with - | (l | -) <;> simp only [step, hpc] at h <;> rw [hpc]
  · cases h
    exact .clientLooks rfl rfl ⟨by simp, by simp, by simp, fun _ => rfl⟩
  · unfold readLine at h
    split at h
    next hquit =>
        cases h
        exact .clientQuits hquit (by simp [Header.has, shamFin]) rfl
    next hquit =>
        split at h
        next hlength =>
            cases h
            refine .clientLooks (by simpa [Terminal.isQuit] using hquit) rfl
              ⟨by simp, ?_, by simp, by simp⟩
            simpa [Client.sendPacket] using hlength
        next => cases h
  · cases h
    rw [List.append_nil]
    exact .clientEnds rfl

theorem ChatClient.recv_moves {c c' : ChatClient} (hd : d.Carries p)
    (h : c.step (.datagram d) = some (c', out)) (server : ChatServerPc)
    (toServer toClient : List Packet) :
    Moves (.clientRecv d) ⟨server, c.pc, toServer, p :: toClient⟩
      ⟨server, c'.pc, toServer ++ out, toClient⟩ := by
  cases hpc : c.pc with
  | select => simp [step, hpc] at h
  | left => simp [step, hpc] at h
  | receive =>
      simp only [step, hpc, receive, hd.header_recvfrom] at h
      split at h
      next hfin =>
          cases h
          exact .clientLeaves hfin (by simp) (by simp [Client.ackOf, Header.has, shamAck]) rfl
      next hfin =>
          obtain ⟨texts, -, heq⟩ := Option.map_eq_some_iff.mp h
          cases heq
          exact .clientReads (by simpa using hfin) (acknowledges_chatAck hd _ _)

namespace ChatSession

theorem moves_of_step {e : ChatEvent} {s s' : ChatSession} {none : List Empty}
    (h : step e s = some (s', none)) : Moves e s.wire s'.wire := by
  cases e with
  | serverSelect terminal socket =>
      obtain ⟨⟨server, sent⟩, hserver, heq⟩ := Option.map_eq_some_iff.mp h
      cases heq
      exact ChatServer.select_moves hserver _ _ _
  | clientSelect terminal socket =>
      obtain ⟨⟨client, sent⟩, hclient, heq⟩ := Option.map_eq_some_iff.mp h
      cases heq
      exact ChatClient.select_moves hclient _ _ _
  | serverRecv d =>
      cases hqueue : s.toServer with
      | nil => simp [step, hqueue] at h
      | cons p rest =>
          simp only [step, hqueue] at h
          split at h
          next hcarries =>
              obtain ⟨⟨server, sent⟩, hserver, heq⟩ := Option.map_eq_some_iff.mp h
              cases heq
              rw [wire, hqueue]
              exact ChatServer.recv_moves hcarries hserver _ _ _
          next => cases h
  | clientRecv d =>
      cases hqueue : s.toClient with
      | nil => simp [step, hqueue] at h
      | cons p rest =>
          simp only [step, hqueue] at h
          split at h
          next hcarries =>
              obtain ⟨⟨client, sent⟩, hclient, heq⟩ := Option.map_eq_some_iff.mp h
              cases heq
              rw [wire, hqueue]
              exact ChatClient.recv_moves hcarries hclient _ _ _
          next => cases h

end ChatSession

/-! ## The datagrams run out -/

/-- A datagram is paid for with what is sent in return, and the `select` that tells of it. -/
def serverCost (p : Packet) : Nat :=
  if p.hdr.has shamFin then 8 else if p.data.isEmpty then 2 else 4

def clientCost (p : Packet) : Nat :=
  if p.hdr.has shamFin then 4 else if p.data.isEmpty then 2 else 4

def ChatServerPc.cost : ChatServerPc → Nat
  | .select | .finalAck => 1
  | .receive | .quitReply _ | .left => 0

def ChatClientPc.cost : ChatClientPc → Nat
  | .select => 1
  | .receive | .left => 0

def Wire.cost (w : Wire) : Nat :=
  w.server.cost + w.client.cost + (w.toServer.map serverCost).sum + (w.toClient.map clientCost).sum

theorem sum_cost_le {cost : Packet → Nat} {c : Nat} {sent : List Packet}
    (hcost : ∀ p ∈ sent, cost p ≤ c) (hlength : sent.length ≤ 1) : (sent.map cost).sum ≤ c := by
  match sent with
  | [] => exact Nat.zero_le c
  | [p] => simpa using hcost p (by simp)
  | _ :: _ :: _ => simp at hlength

theorem cost_afterTerminal (socket : Bool) :
    (ChatServer.afterTerminal socket).cost = (if socket then 0 else 1) ∧
      (ChatClient.afterTerminal socket).cost = if socket then 0 else 1 := by
  cases socket <;> exact ⟨rfl, rfl⟩

theorem Speaks.cost_le {sent : List Packet} (h : Speaks terminal sent) :
    (sent.map serverCost).sum ≤ (if terminal.isSome then 4 else 0) ∧
      (sent.map clientCost).sum ≤ if terminal.isSome then 4 else 0 := by
  cases terminal with
  | none =>
      rw [h.of_none rfl]
      simp
  | some terminal =>
      refine ⟨sum_cost_le (fun p hp => ?_) h.length_le, sum_cost_le (fun p hp => ?_) h.length_le⟩
      · rw [serverCost, if_neg (by simp [h.noFin p hp])]
        split <;> simp
      · rw [clientCost]
        split <;> [skip; split] <;> simp

theorem Acknowledges.cost_le {sent : List Packet} (h : Acknowledges p sent) :
    (sent.map serverCost).sum ≤ (if p.data.isEmpty then 0 else 2) ∧
      (sent.map clientCost).sum ≤ if p.data.isEmpty then 0 else 2 := by
  by_cases hempty : p.data = []
  · rw [h.of_empty hempty]
    simp
  · rw [if_neg (by simpa using hempty)]
    refine ⟨sum_cost_le (fun q hq => ?_) h.length_le, sum_cost_le (fun q hq => ?_) h.length_le⟩
    · simp [serverCost, h.noFin q hq, h.empty q hq]
    · simp [clientCost, h.noFin q hq, h.empty q hq]

theorem two_le_serverCost (p : Packet) : 2 ≤ serverCost p := by
  unfold serverCost
  split <;> [skip; split] <;> simp

/-- Every move is paid for; at the most a typed `/quit` brings in something. -/
theorem Moves.cost_lt {e : ChatEvent} {w w' : Wire} (h : Moves e w w') :
    w'.cost + 1 ≤ w.cost + if !e.isDelivery then 9 else 0 := by
  have hserver : ChatServerPc.select.cost = 1 := rfl
  have hclient : ChatClientPc.select.cost = 1 := rfl
  cases h with
  | @serverLooks terminal socket sent _ _ _ _ _ speaks =>
      have hsent := speaks.cost_le.2
      have hpc := (cost_afterTerminal socket).1
      simp only [Wire.cost, List.map_append, List.sum_append, hserver, hpc,
        ChatEvent.isDelivery_serverSelect]
      cases terminal <;> cases socket <;>
        simp only [Option.isSome_none, Option.isSome_some, Option.isNone_none, Option.isNone_some,
          Bool.and_true, Bool.and_false, Bool.not_true, Bool.not_false, Bool.false_eq_true,
          ↓reduceIte] at hsent ⊢ <;> omega
  | @clientLooks terminal socket sent _ _ _ _ _ speaks =>
      have hsent := speaks.cost_le.1
      have hpc := (cost_afterTerminal socket).2
      simp only [Wire.cost, List.map_append, List.sum_append, hclient, hpc,
        ChatEvent.isDelivery_clientSelect]
      cases terminal <;> cases socket <;>
        simp only [Option.isSome_none, Option.isSome_some, Option.isNone_none, Option.isNone_some,
          Bool.and_true, Bool.and_false, Bool.not_true, Bool.not_false, Bool.false_eq_true,
          ↓reduceIte] at hsent ⊢ <;> omega
  | @serverQuits terminal socket fin _ _ _ quits isFin empty =>
      have hreply : (ChatServerPc.quitReply socket).cost = 0 := rfl
      have hfin : clientCost fin = 4 := if_pos isFin
      simp only [Wire.cost, List.map_append, List.sum_append, List.map_singleton,
        List.sum_singleton, hserver, hreply, hfin, ChatEvent.isDelivery_serverSelect,
        isNone_of_isQuit quits, Bool.false_and, Bool.not_false, ↓reduceIte]
      omega
  | @clientQuits terminal socket fin _ _ _ quits isFin empty =>
      have hpc := (cost_afterTerminal socket).2
      have hfin : serverCost fin = 8 := if_pos isFin
      simp only [Wire.cost, List.map_append, List.sum_append, List.map_singleton,
        List.sum_singleton, hclient, hpc, hfin, ChatEvent.isDelivery_clientSelect,
        isNone_of_isQuit quits, Bool.false_and, Bool.not_false, ↓reduceIte]
      split <;> omega
  | serverEnds =>
      have hleft : ChatServerPc.left.cost = 0 := rfl
      simp only [Wire.cost, hserver, hleft]
      omega
  | clientEnds =>
      have hleft : ChatClientPc.left.cost = 0 := rfl
      simp only [Wire.cost, hclient, hleft]
      omega
  | @serverReads d p sent _ _ _ noFin acks =>
      have hsent := acks.cost_le.2
      have hreceive : ChatServerPc.receive.cost = 0 := rfl
      have hp : serverCost p = if p.data.isEmpty then 2 else 4 := if_neg (by simp [noFin])
      simp only [Wire.cost, List.map_append, List.sum_append, List.map_cons, List.sum_cons, hserver,
        hreceive]
      by_cases hempty : p.data.isEmpty = true
      · rw [if_pos hempty] at hsent hp
        omega
      · rw [if_neg hempty] at hsent hp
        omega
  | @clientReads d p sent _ _ _ noFin acks =>
      have hsent := acks.cost_le.1
      have hreceive : ChatClientPc.receive.cost = 0 := rfl
      have hp : clientCost p = if p.data.isEmpty then 2 else 4 := if_neg (by simp [noFin])
      simp only [Wire.cost, List.map_append, List.sum_append, List.map_cons, List.sum_cons, hclient,
        hreceive]
      by_cases hempty : p.data.isEmpty = true
      · rw [if_pos hempty] at hsent hp
        omega
      · rw [if_neg hempty] at hsent hp
        omega
  | @serverAnswers d p ack fin _ _ _ isFin ackNoFin ackEmpty answersFin finEmpty =>
      have hreceive : ChatServerPc.receive.cost = 0 := rfl
      have hfinal : ChatServerPc.finalAck.cost = 1 := rfl
      have hp : serverCost p = 8 := if_pos isFin
      have hfin : clientCost fin = 4 := if_pos answersFin
      have hack : clientCost ack = 2 := by simp [clientCost, ackNoFin, ackEmpty]
      simp only [Wire.cost, List.map_append, List.sum_append, List.map_cons, List.sum_cons,
        List.map_nil, List.sum_nil, hreceive, hfinal, hp, hfin, hack]
      omega
  | @clientLeaves d p ack _ _ _ isFin noFin isAck empty =>
      have hreceive : ChatClientPc.receive.cost = 0 := rfl
      have hleft : ChatClientPc.left.cost = 0 := rfl
      have hp : clientCost p = 4 := if_pos isFin
      have hack : serverCost ack = 2 := by simp [serverCost, noFin, empty]
      simp only [Wire.cost, List.map_append, List.sum_append, List.map_cons, List.sum_cons,
        List.map_nil, List.sum_nil, hreceive, hleft, hp, hack]
      omega
  | @serverLeaves d p | @serverDone d p =>
      have hp := two_le_serverCost p
      simp only [Wire.cost, ChatServerPc.cost, List.map_cons, List.sum_cons]
      omega
  | @serverGoesOn d p socket =>
      have hp := two_le_serverCost p
      have hpc := (cost_afterTerminal socket).1
      have hreply : (ChatServerPc.quitReply socket).cost = 0 := rfl
      simp only [Wire.cost, List.map_cons, List.sum_cons, hpc, hreply]
      split <;> omega

/-! ## Who waits for what -/

/-- The client has left, or the FIN that makes it leave is on its way. -/
def Wire.Told (w : Wire) : Prop := w.client = .left ∨ ∃ p ∈ w.toClient, p.hdr.has shamFin = true

/-- Sides that look when told to, on terminals that do not end. -/
def Wire.Prompt (w : Wire) : ChatEvent → Prop
  | .serverSelect terminal socket =>
      Terminal.ends terminal = false ∧ (socket = true → w.toServer ≠ [])
  | .clientSelect terminal socket =>
      Terminal.ends terminal = false ∧ (socket = true → w.toClient ≠ [])
  | .serverRecv _ | .clientRecv _ => True

/-- The server's `/quit` finds the client there, or something from it on the way. -/
def Wire.InTime (w : Wire) : ChatEvent → Prop
  | .serverSelect terminal _ =>
      Terminal.isQuit terminal = true → w.client = .left → w.toServer ≠ []
  | .clientSelect _ _ | .serverRecv _ | .clientRecv _ => True

instance (w : Wire) : DecidablePred w.Prompt
  | .serverSelect terminal socket => inferInstanceAs (Decidable
      (Terminal.ends terminal = false ∧ (socket = true → w.toServer ≠ [])))
  | .clientSelect terminal socket => inferInstanceAs (Decidable
      (Terminal.ends terminal = false ∧ (socket = true → w.toClient ≠ [])))
  | .serverRecv _ | .clientRecv _ => .isTrue trivial

structure Wire.Closing (quit late : Prop) (w : Wire) : Prop where
  fits : ∀ p ∈ w.toServer ++ w.toClient, p.data.length ≤ shamMtu
  asked : quit → w.Told ∨ ∃ p ∈ w.toServer, p.hdr.has shamFin = true
  /-- The server waits for a reply to its FIN, or has had one. -/
  answered : w.server ≠ .select → w.server ≠ .receive → w.Told
  looked : w.server = .receive → w.toServer ≠ [] ∨ w.Told
  clientLooked : w.client = .receive → w.toClient ≠ []
  /-- The last packet of the client is the acknowledgement of the server's FIN. -/
  last : w.client = .left →
    ∀ p ∈ w.toServer.getLast?, p.hdr.has shamFin = false ∧ p.hdr.has shamAck = true
  heard : w.client = .left → w.server = .receive ∨ w.server = .finalAck → w.toServer ≠ []
  replied : w.client = .left → (∃ socket, w.server = .quitReply socket) →
    w.toServer ≠ [] ∨ late

theorem Wire.Told.append {server server' : ChatServerPc} {client : ChatClientPc}
    {toServer toServer' toClient : List Packet} (h : Told ⟨server, client, toServer, toClient⟩)
    (sent : List Packet) : Told ⟨server', client, toServer', toClient ++ sent⟩ :=
  h.imp_right fun ⟨p, hp, hfin⟩ => ⟨p, List.mem_append_left _ hp, hfin⟩

theorem Wire.Told.on_way {server : ChatServerPc} {client : ChatClientPc}
    {toServer toClient : List Packet} (h : Told ⟨server, client, toServer, toClient⟩)
    (hstays : client ≠ .left) : ∃ p ∈ toClient, p.hdr.has shamFin = true := h.resolve_left hstays

theorem Wire.told_concat {server : ChatServerPc} {client : ChatClientPc}
    {toServer toClient : List Packet} {fin : Packet} (h : fin.hdr.has shamFin = true) :
    Told ⟨server, client, toServer, toClient ++ [fin]⟩ := .inr ⟨fin, by simp, h⟩

theorem getLast?_cons_of_mem {p q : Packet} {rest : List Packet} (h : q ∈ rest.getLast?) :
    q ∈ (p :: rest).getLast? := by
  rw [List.getLast?_cons, Option.mem_def.mp h]
  rfl

/-- A packet that the client cannot have sent last has another one behind it. -/
theorem ne_nil_of_last {P : Packet → Prop} {p : Packet} {rest : List Packet}
    (h : ∀ q ∈ (p :: rest).getLast?, P q) (hp : ¬ P p) : rest ≠ [] := by
  rintro rfl
  exact hp (h p rfl)

theorem forall_mem_insert {P : Packet → Prop} {xs ys zs : List Packet} (h : ∀ p ∈ xs ++ zs, P p)
    (hys : ∀ p ∈ ys, P p) : ∀ p ∈ xs ++ ys ++ zs, P p := by
  rw [List.forall_mem_append] at h
  rw [List.forall_mem_append, List.forall_mem_append]
  exact ⟨⟨h.1, hys⟩, h.2⟩

theorem Moves.closing {quit late : Prop} {e : ChatEvent} {w w' : Wire} (hm : Moves e w w')
    (h : w.Closing quit late) (hprompt : w.Prompt e) (hlate : late ∨ w.InTime e) :
    w'.Closing (quit ∨ e.quits = true) late := by
  obtain ⟨fits, asked, answered, looked, clientLooked, last, heard, replied⟩ := h
  cases hm with
  | @serverLooks terminal socket sent client toServer toClient stays goesOn speaks =>
      have hquits : (ChatEvent.serverSelect terminal socket).quits = false := stays
      have hsocket := hprompt.2
      refine ⟨?_, ?_, ?_, ?_, ?_, last, ?_, ?_⟩
      · rw [← List.append_assoc, List.forall_mem_append]
        exact ⟨fits, speaks.fits⟩
      · intro hquit
        exact (asked (by simpa [hquits] using hquit)).imp_left fun h => h.append sent
      · cases socket <;> simp [ChatServer.afterTerminal]
      · cases socket <;> simp [ChatServer.afterTerminal] at hsocket ⊢
        exact .inl hsocket
      · exact fun hpc => by simp [clientLooked hpc]
      · cases socket <;> simp [ChatServer.afterTerminal] at hsocket ⊢
        exact fun _ => hsocket
      · cases socket <;> simp [ChatServer.afterTerminal]
  | @serverQuits terminal socket fin client toServer toClient quits isFin empty =>
      refine ⟨?_, fun _ => .inl (Wire.told_concat isFin), fun _ _ => Wire.told_concat isFin,
        by simp, by simp, last, by simp, fun hleft _ => ?_⟩
      · rw [← List.append_assoc, List.forall_mem_append]
        exact ⟨fits, by simp [empty]⟩
      · exact hlate.symm.imp_left fun hin => hin quits hleft
  | serverEnds ends =>
      have hgoesOn := hprompt.1
      rw [ends] at hgoesOn
      cases hgoesOn
  | @serverReads d p sent client toServer toClient noFin acks =>
      refine ⟨?_, ?_, fun hpc => absurd rfl hpc, by simp, ?_, ?_, by simp, by simp⟩
      · rw [← List.append_assoc, List.forall_mem_append]
        exact ⟨fun q hq => fits q (List.mem_cons_of_mem p hq), acks.fits⟩
      · intro hquit
        refine (asked (by simpa [ChatEvent.quits] using hquit)).imp (fun h => h.append sent) ?_
        rintro ⟨q, hq, hfin⟩
        exact ⟨q, (List.mem_cons.mp hq).resolve_left fun heq => by simp_all, hfin⟩
      · exact fun hpc => by simp [clientLooked hpc]
      · exact fun hleft q hq => last hleft q (getLast?_cons_of_mem hq)
  | @serverAnswers d p ack fin client toServer toClient isFin ackNoFin ackEmpty answersFin
      finEmpty =>
      have htold : Wire.Told ⟨.finalAck, client, toServer, toClient ++ [ack, fin]⟩ :=
        .inr ⟨fin, by simp, answersFin⟩
      refine ⟨?_, fun _ => .inl htold, fun _ _ => htold, by simp, by simp, ?_, ?_, by simp⟩
      · rw [← List.append_assoc, List.forall_mem_append]
        exact ⟨fun q hq => fits q (List.mem_cons_of_mem p hq), by simp [ackEmpty, finEmpty]⟩
      · exact fun hleft q hq => last hleft q (getLast?_cons_of_mem hq)
      · exact fun hleft _ => ne_nil_of_last (last hleft) (by simp [isFin])
  | @serverLeaves d p socket client toServer toClient isAck =>
      have htold := answered (by simp) (by simp)
      refine ⟨fun q hq => fits q (List.mem_cons_of_mem p hq), fun _ => .inl htold,
        fun _ _ => htold, by simp, clientLooked, ?_, by simp, by simp⟩
      exact fun hleft q hq => last hleft q (getLast?_cons_of_mem hq)
  | @serverGoesOn d p socket client toServer toClient noAck =>
      have htold := answered (by simp) (by simp)
      refine ⟨fun q hq => fits q (List.mem_cons_of_mem p hq), fun _ => .inl htold,
        fun _ _ => htold, fun _ => .inr htold, clientLooked, ?_, ?_, ?_⟩
      · exact fun hleft q hq => last hleft q (getLast?_cons_of_mem hq)
      · exact fun hleft _ => ne_nil_of_last (last hleft) (by simp [noAck])
      · cases socket <;> simp [ChatServer.afterTerminal]
  | @serverDone d p client toServer toClient =>
      have htold := answered (by simp) (by simp)
      refine ⟨fun q hq => fits q (List.mem_cons_of_mem p hq), fun _ => .inl htold,
        fun _ _ => htold, by simp, clientLooked, ?_, by simp, by simp⟩
      exact fun hleft q hq => last hleft q (getLast?_cons_of_mem hq)
  | @clientLooks terminal socket sent server toServer toClient stays goesOn speaks =>
      have hquits : (ChatEvent.clientSelect terminal socket).quits = false := stays
      have hsocket := hprompt.2
      have hleft : ChatClient.afterTerminal socket ≠ .left := by
        cases socket <;> simp [ChatClient.afterTerminal]
      refine ⟨forall_mem_insert fits speaks.fits, ?_, ?_, ?_, ?_, fun h => absurd h hleft,
        fun h => absurd h hleft, fun h => absurd h hleft⟩
      · intro hquit
        refine (asked (by simpa [hquits] using hquit)).imp (fun h => .inr (h.on_way (by simp))) ?_
        exact fun ⟨p, hp, hfin⟩ => ⟨p, List.mem_append_left _ hp, hfin⟩
      · exact fun hselect hreceive => .inr ((answered hselect hreceive).on_way (by simp))
      · intro hpc
        exact (looked hpc).imp (fun h => by simp [h]) fun h => .inr (h.on_way (by simp))
      · cases socket <;> simp [ChatClient.afterTerminal] at hsocket ⊢
        exact hsocket
  | @clientQuits terminal socket fin server toServer toClient quits isFin empty =>
      have hsocket := hprompt.2
      have hleft : ChatClient.afterTerminal socket ≠ .left := by
        cases socket <;> simp [ChatClient.afterTerminal]
      refine ⟨forall_mem_insert fits (by simp [empty]), fun _ => .inr ⟨fin, by simp, isFin⟩, ?_,
        fun _ => .inl (by simp), ?_, fun h => absurd h hleft, fun h => absurd h hleft,
        fun h => absurd h hleft⟩
      · exact fun hselect hreceive => .inr ((answered hselect hreceive).on_way (by simp))
      · cases socket <;> simp [ChatClient.afterTerminal] at hsocket ⊢
        exact hsocket
  | clientEnds ends =>
      have hgoesOn := hprompt.1
      rw [ends] at hgoesOn
      cases hgoesOn
  | @clientReads d p sent server toServer toClient noFin acks =>
      have hbehind : ∀ {server' : ChatServerPc} {toServer' : List Packet},
          Wire.Told ⟨server', .receive, toServer', p :: toClient⟩ →
          Wire.Told ⟨server, .select, toServer ++ sent, toClient⟩ := by
        intro server' toServer' htold
        obtain ⟨q, hq, hfin⟩ := htold.on_way (by simp)
        exact .inr ⟨q, (List.mem_cons.mp hq).resolve_left fun heq => by simp_all, hfin⟩
      refine ⟨?_, ?_, ?_, ?_, by simp, by simp, by simp, by simp⟩
      · refine forall_mem_insert (fun q hq => fits q ?_) acks.fits
        exact (List.mem_append.mp hq).elim (fun h => List.mem_append_left _ h)
          fun h => List.mem_append_right _ (List.mem_cons_of_mem p h)
      · intro hquit
        refine (asked (by simpa [ChatEvent.quits] using hquit)).imp hbehind ?_
        exact fun ⟨q, hq, hfin⟩ => ⟨q, List.mem_append_left _ hq, hfin⟩
      · exact fun hselect hreceive => hbehind (answered hselect hreceive)
      · exact fun hpc => (looked hpc).imp (fun h => by simp [h]) hbehind
  | @clientLeaves d p ack server toServer toClient isFin noFin isAck empty =>
      refine ⟨?_, fun _ => .inl (.inl rfl), fun _ _ => .inl rfl, fun _ => .inr (.inl rfl), by simp,
        ?_, by simp, by simp⟩
      · refine forall_mem_insert (fun q hq => fits q ?_) (by simp [empty])
        exact (List.mem_append.mp hq).elim (fun h => List.mem_append_left _ h)
          fun h => List.mem_append_right _ (List.mem_cons_of_mem p h)
      · intro _ q hq
        rw [List.getLast?_concat, Option.mem_some_iff] at hq
        exact hq ▸ ⟨noFin, isAck⟩

/-! ## Sessions at rest -/

namespace ChatSession

/-- A datagram that has arrived is read, or `select` tells of it. -/
def Reads (s : ChatSession) (e : ChatEvent) : Prop := e.isDelivery = true ∧ s.wire.Prompt e

def AtRest (s : ChatSession) : Prop := ∀ e, s.Reads e → machine.step e s = none

theorem closing_of_run {quit late : Prop} {events : List ChatEvent} {s t : ChatSession}
    {none : List Empty} (hs : s.wire.Closing quit late)
    (hprompt : machine.Guarded (fun s => s.wire.Prompt) events s)
    (hlate : late ∨ machine.Guarded (fun s => s.wire.InTime) events s)
    (hrun : machine.run events s = some (t, none)) :
    t.wire.Closing (quit ∨ ∃ e ∈ events, e.quits = true) late := by
  induction events generalizing quit s none with
  | nil =>
      cases hrun
      simpa using hs
  | cons e events ih =>
      obtain ⟨s', out, rest, hstep, hrest, -⟩ := machine.run_cons_eq_some.mp hrun
      have hs' := (moves_of_step hstep).closing hs hprompt.1 (hlate.imp_right And.left)
      have ht := ih hs' (hprompt.2 s' out hstep) (hlate.imp_right fun h => h.2 s' out hstep) hrest
      simpa [or_assoc] using ht

theorem closing_start (serverBuf clientBuf : RecvBuffer) (serverSeq cliSeq : UInt32) (win : UInt16)
    (late : Prop) : (start serverBuf clientBuf serverSeq cliSeq win).wire.Closing False late := by
  refine ⟨?_, ?_, ?_, ?_, ?_, ?_, ?_, ?_⟩ <;> simp [start, wire]

theorem server_reads {s : ChatSession} {d : Datagram} {p : Packet} {rest : List Packet}
    (hqueue : s.toServer = p :: rest) (hcarries : d.Carries p) (hselect : s.server.pc ≠ .select)
    (hleft : s.server.pc ≠ .left) : machine.step (.serverRecv d) s ≠ none := by
  have hserver : s.server.step (.datagram d) ≠ none := by
    cases hpc : s.server.pc with
    | select => exact absurd hpc hselect
    | left => exact absurd hpc hleft
    | quitReply socket => simp [ChatServer.step, hpc]
    | finalAck => simp [ChatServer.step, hpc]
    | receive =>
        have hprinted := printed_of_carries hcarries s.server.buf
        simp only [ChatServer.step, hpc, ChatServer.receive]
        split
        · simp
        · intro hnone
          simp [Option.map_eq_none_iff.mp hnone] at hprinted
  simpa [machine, step, hqueue, hcarries] using hserver

theorem client_reads {s : ChatSession} {d : Datagram} {p : Packet} {rest : List Packet}
    (hqueue : s.toClient = p :: rest) (hcarries : d.Carries p)
    (hreceive : s.client.pc = .receive) : machine.step (.clientRecv d) s ≠ none := by
  have hprinted := printed_of_carries hcarries s.client.buf
  have hclient : s.client.step (.datagram d) ≠ none := by
    simp only [ChatClient.step, hreceive, ChatClient.receive]
    split
    · simp
    · intro hnone
      simp [Option.map_eq_none_iff.mp hnone] at hprinted
  simpa [machine, step, hqueue, hcarries] using hclient

theorem AtRest.toServer_nil {s : ChatSession} {quit late : Prop} (h : s.AtRest)
    (hs : s.wire.Closing quit late) (hleft : s.server.pc ≠ .left) : s.toServer = [] := by
  by_contra hne
  obtain ⟨p, rest, hqueue⟩ := List.exists_cons_of_ne_nil hne
  by_cases hselect : s.server.pc = .select
  · have hnone := h (.serverSelect none true) ⟨rfl, rfl, fun _ => hne⟩
    simp [machine, step, ChatServer.step, hselect] at hnone
  · have hfits : p.data.length ≤ shamMtu := hs.fits p (by simp [wire, hqueue])
    have hcarries : (p.datagram hfits).Carries p := rfl
    exact server_reads hqueue hcarries hselect hleft (h _ ⟨rfl, trivial⟩)

theorem AtRest.toClient_nil {s : ChatSession} {quit late : Prop} (h : s.AtRest)
    (hs : s.wire.Closing quit late) (hleft : s.client.pc ≠ .left) : s.toClient = [] := by
  by_contra hne
  obtain ⟨p, rest, hqueue⟩ := List.exists_cons_of_ne_nil hne
  cases hpc : s.client.pc with
  | left => exact hleft hpc
  | select =>
      have hnone := h (.clientSelect none true) ⟨rfl, rfl, fun _ => hne⟩
      simp [machine, step, ChatClient.step, hpc] at hnone
  | receive =>
      have hfits : p.data.length ≤ shamMtu := hs.fits p (by simp [wire, hqueue])
      have hcarries : (p.datagram hfits).Carries p := rfl
      exact client_reads hqueue hcarries hpc (h _ ⟨rfl, trivial⟩)

theorem AtRest.left_of_told {s : ChatSession} {quit late : Prop} (h : s.AtRest)
    (hs : s.wire.Closing quit late) (htold : s.wire.Told) : s.client.pc = .left := by
  by_contra hstays
  obtain ⟨p, hp, -⟩ := htold.on_way hstays
  change p ∈ s.toClient at hp
  rw [h.toClient_nil hs hstays] at hp
  cases hp

theorem step_of_left {s : ChatSession} (h : s.client.pc = .left) :
    (∀ terminal socket, machine.step (.clientSelect terminal socket) s = none) ∧
      ∀ d, machine.step (.clientRecv d) s = none := by
  refine ⟨fun terminal socket => ?_, fun d => ?_⟩
  · simp [machine, step, ChatClient.step, h]
  · simp only [machine, step]
    split
    · rfl
    · simp [ChatClient.step, h]

theorem stuck_of_quitReply {s : ChatSession} {socket : Bool}
    (hserver : s.server.pc = .quitReply socket) (hclient : s.client.pc = .left)
    (hqueue : s.toServer = []) : machine.Stuck s := by
  intro e
  cases e with
  | serverSelect terminal socket => simp [machine, step, ChatServer.step, hserver]
  | serverRecv d => simp [machine, step, hqueue]
  | clientSelect terminal socket => exact (step_of_left hclient).1 terminal socket
  | clientRecv d => exact (step_of_left hclient).2 d

/-- Whoever is asked to leave has left, and nobody waits for a datagram that will come. -/
theorem AtRest.settled {s : ChatSession} {quit late : Prop} (h : s.AtRest)
    (hs : s.wire.Closing quit late) :
    (quit → s.client.pc = .left) ∧ s.client.pc ≠ .receive ∧
      (s.server.pc = .select ∨ s.server.pc = .left ∨
        (∃ socket, s.server.pc = .quitReply socket) ∧ machine.Stuck s ∧ late) := by
  refine ⟨fun hquit => ?_, fun hpc => ?_, ?_⟩
  · obtain htold | ⟨p, hp, -⟩ := hs.asked hquit
    · exact h.left_of_told hs htold
    · -- a FIN that the server does not read: it has left
      have hleft : s.server.pc = .left := by
        by_contra hstays
        change p ∈ s.toServer at hp
        rw [h.toServer_nil hs hstays] at hp
        cases hp
      have htold := hs.answered (by simp [wire, hleft]) (by simp [wire, hleft])
      exact h.left_of_told hs htold
  · exact hs.clientLooked hpc (h.toClient_nil hs (by simp [hpc]))
  · cases hpc : s.server.pc with
    | select => exact .inl rfl
    | left => exact .inr (.inl rfl)
    | receive =>
        have hnil := h.toServer_nil hs (by simp [hpc])
        have htold := (hs.looked hpc).resolve_left (not_not_intro hnil)
        exact absurd hnil (hs.heard (h.left_of_told hs htold) (.inl hpc))
    | finalAck =>
        have hnil := h.toServer_nil hs (by simp [hpc])
        have htold := hs.answered (by simp [wire, hpc]) (by simp [wire, hpc])
        exact absurd hnil (hs.heard (h.left_of_told hs htold) (.inr hpc))
    | quitReply socket =>
        have hnil := h.toServer_nil hs (by simp [hpc])
        have htold := hs.answered (by simp [wire, hpc]) (by simp [wire, hpc])
        have hleft := h.left_of_told hs htold
        have hlate := (hs.replied hleft ⟨socket, hpc⟩).resolve_left (not_not_intro hnil)
        exact .inr (.inr ⟨⟨socket, rfl⟩, stuck_of_quitReply hpc hleft hnil, hlate⟩)

section Runs

variable {serverBuf clientBuf : RecvBuffer} {serverSeq cliSeq : UInt32} {win : UInt16}

theorem length_le_of_run {events : List ChatEvent} {s : ChatSession} {none : List Empty}
    (hrun : machine.run events (start serverBuf clientBuf serverSeq cliSeq win) =
      some (s, none)) :
    events.length ≤ 2 + 9 * events.countP fun e => !e.isDelivery := by
  have hlength := machine.length_add_potential_le (J := fun _ => True) (fun s => s.wire.cost)
    (fun e => if !e.isDelivery then 9 else 0)
    (fun e s s' out _ hstep => ⟨trivial, (moves_of_step hstep).cost_lt⟩) trivial hrun
  have hstart : (start serverBuf clientBuf serverSeq cliSeq win).wire.cost = 2 := rfl
  rw [hstart, sum_map_gain] at hlength
  omega

theorem exists_rest (s : ChatSession) :
    ∃ events t, machine.Guarded Reads events s ∧ machine.run events s = some (t, []) ∧
      t.AtRest := by
  obtain ⟨events, t, none, hreads, hrun, hrest⟩ := machine.exists_run_to_rest
    (G := Reads) (J := fun _ => True) (fun s => s.wire.cost)
    (fun e s s' out hreads _ hstep => ⟨trivial, by
      have hcost := (moves_of_step hstep).cost_lt
      rw [hreads.1] at hcost
      exact hcost⟩) trivial
  obtain rfl : none = [] := Subsingleton.elim _ _
  exact ⟨events, t, hreads, hrun, hrest⟩

/--
A session whose terminals do not end goes on only by what is typed and by idle looks: the reading
of datagrams comes to rest.  There the client has left if `/quit` has been typed at either end, and
the server waits in vain only if it has typed `/quit` when there was nobody left to answer.
-/
theorem chat_closes {events : List ChatEvent} {s : ChatSession}
    (hprompt : machine.Guarded (fun s => s.wire.Prompt) events
      (start serverBuf clientBuf serverSeq cliSeq win))
    (hrun : machine.run events (start serverBuf clientBuf serverSeq cliSeq win) = some (s, [])) :
    (events.length ≤ 2 + 9 * events.countP fun e => !e.isDelivery) ∧
      (∃ reads t, machine.Guarded Reads reads s ∧ machine.run reads s = some (t, []) ∧
        t.AtRest) ∧
      (s.AtRest →
        ((∃ e ∈ events, e.quits = true) → s.client.pc = .left) ∧ s.client.pc ≠ .receive ∧
        (s.server.pc = .select ∨ s.server.pc = .left ∨
          (∃ socket, s.server.pc = .quitReply socket) ∧ machine.Stuck s ∧
            ¬ machine.Guarded (fun s => s.wire.InTime) events
              (start serverBuf clientBuf serverSeq cliSeq win))) := by
  refine ⟨length_le_of_run hrun, exists_rest s, fun hrest => ?_⟩
  have hlate := em (machine.Guarded (fun s => s.wire.InTime) events
    (start serverBuf clientBuf serverSeq cliSeq win))
  have hs := closing_of_run (closing_start serverBuf clientBuf serverSeq cliSeq win _) hprompt
    hlate.symm hrun
  simpa only [false_or] using hrest.settled hs

end Runs

def bare (hdr : Header) : Datagram := (⟨hdr, []⟩ : Packet).datagram (Nat.zero_le _)

/-- The client types `/quit`, and both sides read until nothing is on its way. -/
def clientQuits : List ChatEvent :=
  [.clientSelect (some (.line quit)) false, .serverSelect none true,
    .serverRecv (bare { seqNum := 100, flags := shamFin }), .clientSelect none true,
    .clientRecv (bare { ackNum := 101, flags := shamAck }), .clientSelect none true,
    .clientRecv (bare { seqNum := 900, flags := shamFin }),
    .serverRecv (bare { ackNum := 901, flags := shamAck })]

theorem chat_closes_clientQuits :
    ∃ s, machine.run clientQuits (start zeroBuffer zeroBuffer 900 100 8192) = some (s, []) ∧
      s.AtRest ∧ s.client.pc = .left ∧ s.server.pc = .select := by
  obtain ⟨s, outs, hrun, htest⟩ := machine.exists_run clientQuits
    (start zeroBuffer zeroBuffer 900 100 8192)
    (fun x => x.1.client.pc == .left && x.1.server.pc == .select && x.1.toServer.isEmpty)
    (by decide +kernel)
  obtain rfl : outs = [] := Subsingleton.elim _ _
  simp only [Bool.and_eq_true, beq_iff_eq, List.isEmpty_iff] at htest
  obtain ⟨⟨hclient, hserver⟩, hqueue⟩ := htest
  have hrest : s.AtRest := by
    rintro e ⟨hdelivery, hprompt⟩
    cases e with
    | serverSelect terminal socket =>
        rw [ChatEvent.isDelivery_serverSelect, Bool.and_eq_true] at hdelivery
        exact absurd hqueue (hprompt.2 hdelivery.2)
    | serverRecv d => simp [machine, step, hqueue]
    | clientSelect terminal socket => exact (step_of_left hclient).1 terminal socket
    | clientRecv d => exact (step_of_left hclient).2 d
  obtain ⟨-, -, hsettled⟩ := chat_closes (by decide +kernel) hrun
  exact ⟨s, hrun, hrest, (hsettled hrest).1 ⟨_, List.mem_cons_self, rfl⟩, hserver⟩

end ChatSession

end OxyC.Networking
