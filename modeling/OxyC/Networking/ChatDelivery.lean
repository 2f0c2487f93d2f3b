import OxyC.Networking.Chat

/-!
# Delivery in a chat session

The two chat loops over channels that lose nothing and keep the order.  What a
side has shown, followed by the text still on its way to it, is what was typed
at the other end.
-/

namespace OxyC.Networking

open OxyC.Foundation

structure ChatSession where
  server : ChatServer
  client : ChatClient
  toServer : List Packet := []
  toClient : List Packet := []
  /-- The lines other than `/quit` that `fgets` has returned at each end. -/
  serverTyped : List (List UInt8) := []
  clientTyped : List (List UInt8) := []

inductive ChatEvent where
  | serverSelect (terminal : Option Terminal) (socket : Bool)
  /-- The server's `recvfrom` returns what is first in its channel. -/
  | serverRecv (d : Datagram)
  | clientSelect (terminal : Option Terminal) (socket : Bool)
  | clientRecv (d : Datagram)

def Terminal.message : Option Terminal → List (List UInt8)
  | some (.line l) => if l.isQuit then [] else [l.text]
  | some .endOfInput | none => []

def textOf (packets : List Packet) : List UInt8 := packets.flatMap Packet.data

@[simp] theorem textOf_nil : textOf [] = [] := rfl

@[simp] theorem textOf_cons (p : Packet) (packets : List Packet) :
    textOf (p :: packets) = p.data ++ textOf packets := rfl

@[simp] theorem textOf_append (xs ys : List Packet) :
    textOf (xs ++ ys) = textOf xs ++ textOf ys := List.flatMap_append

namespace ChatSession

def step (e : ChatEvent) (s : ChatSession) : Option (ChatSession × List Empty) :=
  match e with
  | .serverSelect terminal socket =>
      (s.server.step (.ready terminal socket)).map fun x =>
        ({ s with
            server := x.1
            toClient := s.toClient ++ x.2
            serverTyped := s.serverTyped ++ Terminal.message terminal }, [])
  | .clientSelect terminal socket =>
      (s.client.step (.ready terminal socket)).map fun x =>
        ({ s with
            client := x.1
            toServer := s.toServer ++ x.2
            clientTyped := s.clientTyped ++ Terminal.message terminal }, [])
  | .serverRecv d =>
      match s.toServer with
      | [] => none
      | p :: rest =>
          if d.Carries p then
            (s.server.step (.datagram d)).map fun x =>
              ({ s with server := x.1, toServer := rest, toClient := s.toClient ++ x.2 }, [])
          else none
  | .clientRecv d =>
      match s.toClient with
      | [] => none
      | p :: rest =>
          if d.Carries p then
            (s.client.step (.datagram d)).map fun x =>
              ({ s with client := x.1, toClient := rest, toServer := s.toServer ++ x.2 }, [])
          else none

def machine : Mealy ChatEvent Empty ChatSession := ⟨step⟩

/-- Both sides at `select` after the handshake. -/
def start (serverBuf clientBuf : RecvBuffer) (serverSeq cliSeq : UInt32) (win : UInt16) :
    ChatSession where
  server := ⟨.select, serverBuf, serverSeq, []⟩
  client := ⟨.select, clientBuf, cliSeq, win, []⟩

/-- A read that waits for a reply of the closing handshake meets no message. -/
def NoMessageMet (s : ChatSession) : ChatEvent → Prop
  | .serverRecv d =>
      match s.server.pc with
      | .quitReply _ | .finalAck => payloadLength d = 0
      | .select | .receive | .left => True
  | .serverSelect _ _ | .clientSelect _ _ | .clientRecv _ => True

instance (s : ChatSession) (e : ChatEvent) : Decidable (s.NoMessageMet e) := by
  cases e <;> simp only [NoMessageMet]
  · infer_instance
  · cases s.server.pc <;> infer_instance
  · infer_instance
  · infer_instance

end ChatSession

/-! ## One side's steps -/

/-- A packet of a chat session: its text fits, and a FIN carries none. -/
def Packet.Fits (p : Packet) : Prop :=
  p.data.length ≤ shamMtu ∧ (p.hdr.has shamFin = true → p.data = [])

theorem Packet.fits_of_data_nil {p : Packet} (h : p.data = []) : p.Fits :=
  ⟨by simp [h], fun _ => h⟩

theorem Packet.fits_of_flags_zero {p : Packet} (hlength : p.data.length ≤ shamMtu)
    (hflags : p.hdr.flags = 0) : p.Fits := by
  refine ⟨hlength, ?_⟩
  intro hfin
  simp [Header.has, hflags] at hfin

theorem printed_of_carries {d : Datagram} {p : Packet} (h : d.Carries p) (buf : RecvBuffer) :
    (printed d (buf.recvfrom d)).map List.flatten = some p.data := by
  have hlength := h.payloadLength_eq
  have hpayload := buf.payload_recvfrom h.headerSize_le
  rw [h.packet_eq] at hpayload
  unfold printed
  by_cases hzero : p.data = []
  · simp [hlength, hzero]
  · have hpos : payloadLength d > 0 := by
      rw [hlength]
      exact List.length_pos_iff.mpr hzero
    simp [hpos, hpayload]

theorem data_of_chatAck {d : Datagram} {buf : RecvBuffer} {win : UInt16} {p : Packet}
    (h : p ∈ chatAck d buf win) : p.data = [] := by
  unfold chatAck at h
  dsimp only at h
  split at h
  · rw [List.mem_singleton.mp h]
  · simp at h

theorem textOf_eq_nil {packets : List Packet} (h : ∀ p ∈ packets, p.data = []) :
    textOf packets = [] := List.flatMap_eq_nil_iff.mpr h

theorem ChatServer.select_spec {terminal : Option Terminal} {socket : Bool}
    {s s' : ChatServer} {out : List Packet}
    (h : s.step (.ready terminal socket) = some (s', out)) :
    s'.shown = s.shown ∧ (∀ p ∈ out, p.Fits) ∧
      textOf out = ((Terminal.message terminal).map (List.take shamMtu)).flatten := by
  have hpc : s.pc = .select := by
    by_contra hne
    cases hpc : s.pc <;> simp [step, hpc] at h hne
  rcases terminal with - | (l | -) <;> simp only [step, hpc, Option.some.injEq] at h
  · cases h
    simp [Terminal.message]
  · obtain ⟨rfl, rfl⟩ : (s.readLine l socket).1 = s' ∧ (s.readLine l socket).2 = out := by
      simp [h]
    unfold readLine
    cases hquit : l.isQuit with
    | true => simp [Terminal.message, hquit, Server.finOf, Packet.fits_of_data_nil]
    | false =>
        have hfits := Packet.fits_of_flags_zero
          (p := ⟨{ seqNum := s.serverSeq }, l.text.take shamMtu⟩) (List.length_take_le _ _) rfl
        simpa [Terminal.message, hquit] using hfits
  · cases h
    simp [Terminal.message]

theorem ChatServer.recv_spec {d : Datagram} {p : Packet} (hd : d.Carries p) (hp : p.Fits)
    {s s' : ChatServer} {out : List Packet} (h : s.step (.datagram d) = some (s', out))
    (hreply : s.pc ≠ .receive → p.data = []) :
    s'.shown.flatten = s.shown.flatten ++ p.data ∧ ∀ q ∈ out, q.data = [] := by
  cases hpc : s.pc with
  | select => simp [step, hpc] at h
  | left => simp [step, hpc] at h
  | quitReply socket =>
      simp only [step, hpc, Option.some.injEq] at h
      cases h
      simp [hreply (by simp [hpc])]
  | finalAck =>
      simp only [step, hpc, Option.some.injEq] at h
      cases h
      simp [hreply (by simp [hpc])]
  | receive =>
      simp only [step, hpc, receive, hd.header_recvfrom] at h
      split at h
      · rename_i hfin
        cases h
        simp [hp.2 hfin, Server.finReply, Server.finOf]
      · obtain ⟨texts, htexts, heq⟩ := Option.map_eq_some_iff.mp h
        have htext := printed_of_carries hd s.buf
        rw [htexts] at htext
        cases heq
        refine ⟨?_, fun q hq => data_of_chatAck hq⟩
        simpa using htext

theorem ChatClient.select_spec {terminal : Option Terminal} {socket : Bool}
    {c c' : ChatClient} {out : List Packet}
    (h : c.step (.ready terminal socket) = some (c', out)) :
    c'.shown = c.shown ∧ (∀ p ∈ out, p.Fits) ∧
      textOf out = (Terminal.message terminal).flatten := by
  have hpc : c.pc = .select := by
    by_contra hne
    cases hpc : c.pc <;> simp [step, hpc] at h hne
  rcases terminal with - | (l | -) <;> simp only [step, hpc] at h
  · cases h
    simp [Terminal.message]
  · unfold readLine at h
    cases hquit : l.isQuit with
    | true =>
        rw [hquit] at h
        cases h
        simp [Terminal.message, hquit, Packet.fits_of_data_nil]
    | false =>
        simp only [hquit, Bool.false_eq_true, if_false] at h
        split at h
        · rename_i hlength
          cases h
          have hfits := Packet.fits_of_flags_zero
            (p := Client.sendPacket (c.cliSeq + 1) l.text c.remoteWin) hlength rfl
          simpa [Terminal.message, hquit, Client.sendPacket] using hfits
        · simp at h
  · cases h
    simp [Terminal.message]

theorem ChatClient.recv_spec {d : Datagram} {p : Packet} (hd : d.Carries p) (hp : p.Fits)
    {c c' : ChatClient} {out : List Packet} (h : c.step (.datagram d) = some (c', out)) :
    c'.shown.flatten = c.shown.flatten ++ p.data ∧ ∀ q ∈ out, q.data = [] := by
  cases hpc : c.pc with
  | select => simp [step, hpc] at h
  | left => simp [step, hpc] at h
  | receive =>
      simp only [step, hpc, receive, hd.header_recvfrom] at h
      split at h
      · rename_i hfin
        cases h
        simp [hp.2 hfin, Client.ackOf]
      · obtain ⟨texts, htexts, heq⟩ := Option.map_eq_some_iff.mp h
        have htext := printed_of_carries hd c.buf
        rw [htexts] at htext
        cases heq
        refine ⟨?_, fun q hq => data_of_chatAck hq⟩
        simpa using htext

/-! ## The session -/

namespace ChatSession

structure Delivers (s : ChatSession) : Prop where
  client : s.client.shown.flatten ++ textOf s.toClient =
    (s.serverTyped.map (List.take shamMtu)).flatten
  server : s.server.shown.flatten ++ textOf s.toServer = s.clientTyped.flatten
  fitsClient : ∀ p ∈ s.toClient, p.Fits
  fitsServer : ∀ p ∈ s.toServer, p.Fits

theorem Delivers.step {s s' : ChatSession} {e : ChatEvent} {out : List Empty}
    (h : s.Delivers) (hmet : s.NoMessageMet e) (hstep : step e s = some (s', out)) :
    s'.Delivers := by
  cases e with
  | serverSelect terminal socket =>
      obtain ⟨⟨server, sent⟩, hserver, heq⟩ := Option.map_eq_some_iff.mp hstep
      cases heq
      obtain ⟨hshown, hfits, htext⟩ := ChatServer.select_spec hserver
      constructor
      · simp [htext, ← h.client]
      · simp [hshown, h.server]
      · simpa [or_imp, forall_and] using ⟨h.fitsClient, hfits⟩
      · exact h.fitsServer
  | clientSelect terminal socket =>
      obtain ⟨⟨client, sent⟩, hclient, heq⟩ := Option.map_eq_some_iff.mp hstep
      cases heq
      obtain ⟨hshown, hfits, htext⟩ := ChatClient.select_spec hclient
      constructor
      · simp [hshown, h.client]
      · simp [htext, ← h.server]
      · exact h.fitsClient
      · simpa [or_imp, forall_and] using ⟨h.fitsServer, hfits⟩
  | serverRecv d =>
      cases hqueue : s.toServer with
      | nil => simp [ChatSession.step, hqueue] at hstep
      | cons p rest =>
          simp only [ChatSession.step, hqueue] at hstep
          split at hstep
          · rename_i hcarries
            obtain ⟨⟨server, sent⟩, hserver, heq⟩ := Option.map_eq_some_iff.mp hstep
            cases heq
            have hfits := h.fitsServer
            have hbalance := h.server
            rw [hqueue] at hfits hbalance
            have hreply : s.server.pc ≠ .receive → p.data = [] := by
              intro hpc
              have hlength := hcarries.payloadLength_eq
              cases hpc' : s.server.pc with
              | select => simp [ChatServer.step, hpc'] at hserver
              | left => simp [ChatServer.step, hpc'] at hserver
              | receive => exact absurd hpc' hpc
              | quitReply socket =>
                  simp only [NoMessageMet, hpc'] at hmet
                  exact List.length_eq_zero_iff.mp (by omega)
              | finalAck =>
                  simp only [NoMessageMet, hpc'] at hmet
                  exact List.length_eq_zero_iff.mp (by omega)
            obtain ⟨hshown, hempty⟩ :=
              ChatServer.recv_spec hcarries (hfits p (by simp)) hserver hreply
            constructor
            · simp [textOf_eq_nil hempty, h.client]
            · simpa [hshown] using hbalance
            · intro q hq
              rcases List.mem_append.mp hq with hq | hq
              · exact h.fitsClient q hq
              · exact Packet.fits_of_data_nil (hempty q hq)
            · intro q hq
              exact hfits q (by simp [hq])
          · simp at hstep
  | clientRecv d =>
      cases hqueue : s.toClient with
      | nil => simp [ChatSession.step, hqueue] at hstep
      | cons p rest =>
          simp only [ChatSession.step, hqueue] at hstep
          split at hstep
          · rename_i hcarries
            obtain ⟨⟨client, sent⟩, hclient, heq⟩ := Option.map_eq_some_iff.mp hstep
            cases heq
            have hfits := h.fitsClient
            have hbalance := h.client
            rw [hqueue] at hfits hbalance
            obtain ⟨hshown, hempty⟩ :=
              ChatClient.recv_spec hcarries (hfits p (by simp)) hclient
            constructor
            · simpa [hshown] using hbalance
            · simp [textOf_eq_nil hempty, h.server]
            · intro q hq
              exact hfits q (by simp [hq])
            · intro q hq
              rcases List.mem_append.mp hq with hq | hq
              · exact h.fitsServer q hq
              · exact Packet.fits_of_data_nil (hempty q hq)
          · simp at hstep

section Runs

variable {serverBuf clientBuf : RecvBuffer} {serverSeq cliSeq : UInt32} {win : UInt16}

/--
What a side has shown, followed by what is in flight to it, is what was typed at
the other end, where the server sends the first `shamMtu` bytes of a line.
-/
theorem chat_delivery {events : List ChatEvent} {s : ChatSession}
    (hmet : machine.Guarded NoMessageMet events
      (start serverBuf clientBuf serverSeq cliSeq win))
    (hrun : machine.run events (start serverBuf clientBuf serverSeq cliSeq win) =
      some (s, [])) :
    s.client.shown.flatten ++ textOf s.toClient =
        (s.serverTyped.map (List.take shamMtu)).flatten ∧
      s.server.shown.flatten ++ textOf s.toServer = s.clientTyped.flatten ∧
      ∀ p ∈ s.toClient ++ s.toServer, p.data.length ≤ shamMtu := by
  have h : s.Delivers := machine.run_invariant_of_guarded (P := Delivers)
    (fun _ _ _ _ hs hg hstep => hs.step hg hstep)
    ⟨rfl, rfl, by simp [start], by simp [start]⟩ hmet hrun
  refine ⟨h.client, h.server, ?_⟩
  intro p hp
  rcases List.mem_append.mp hp with hp | hp
  · exact (h.fitsClient p hp).1
  · exact (h.fitsServer p hp).1

end Runs

def hi : Line := ⟨[104, 105, 10], by decide⟩

def quit : Line := ⟨[47, 113, 117, 105, 116, 10], by decide⟩

def longLine : Line := ⟨List.replicate 1025 97, by rw [List.length_replicate]; decide⟩

def messageAt (seq : UInt32) (win : UInt16) (text : List UInt8)
    (h : text.length ≤ shamMtu) : Datagram :=
  (⟨{ seqNum := seq, windowSize := win }, text⟩ : Packet).datagram h

/-- Each side types a line and reads the other's. -/
def exchange : List ChatEvent :=
  [.serverSelect (some (.line hi)) false, .clientSelect (some (.line hi)) true,
    .clientRecv (messageAt 900 0 hi.text (by decide)), .serverSelect none true,
    .serverRecv (messageAt 101 8192 hi.text (by decide))]

theorem chat_delivery_exchange :
    ∃ s, machine.run exchange (start zeroBuffer zeroBuffer 900 100 8192) = some (s, []) ∧
      s.client.shown.flatten ++ textOf s.toClient =
        (s.serverTyped.map (List.take shamMtu)).flatten ∧
      s.server.shown.flatten ++ textOf s.toServer = s.clientTyped.flatten ∧
      s.server.shown = [hi.text] ∧ s.client.shown = [hi.text] := by
  obtain ⟨s, outs, hrun, htest⟩ := machine.exists_run exchange
    (start zeroBuffer zeroBuffer 900 100 8192)
    (fun x => x.1.server.shown == [hi.text] && x.1.client.shown == [hi.text])
    (by decide +kernel)
  obtain rfl : outs = [] := Subsingleton.elim _ _
  simp only [Bool.and_eq_true, beq_iff_eq] at htest
  have h := chat_delivery (by decide +kernel) hrun
  exact ⟨s, hrun, h.1, h.2.1, htest⟩

/-- A long line of the server's, and a line that the client types after its `/quit`. -/
def cutAndLost : List ChatEvent :=
  [.serverSelect (some (.line longLine)) false, .clientSelect (some (.line quit)) false,
    .clientSelect (some (.line hi)) true,
    .clientRecv (messageAt 900 0 (longLine.text.take shamMtu) (List.length_take_le _ _)),
    .serverSelect none true,
    .serverRecv ((⟨{ seqNum := 100, flags := shamFin }, []⟩ : Packet).datagram
      (Nat.zero_le _)),
    .serverRecv (messageAt 102 8192 hi.text (by decide))]

theorem cutAndLost_not_delivered :
    ∃ s, machine.run cutAndLost (start zeroBuffer zeroBuffer 900 100 8192) = some (s, []) ∧
      (textOf s.toClient = [] ∧ s.client.shown.flatten.length = 1024 ∧
        s.serverTyped = [longLine.text] ∧ longLine.text.length = 1025) ∧
      (textOf s.toServer = [] ∧ s.server.shown = [] ∧ s.clientTyped = [hi.text]) := by
  obtain ⟨s, outs, hrun, htest⟩ := machine.exists_run cutAndLost
    (start zeroBuffer zeroBuffer 900 100 8192)
    (fun x => textOf x.1.toClient == [] && x.1.client.shown.flatten.length == 1024 &&
      x.1.serverTyped == [longLine.text] && textOf x.1.toServer == [] &&
      x.1.server.shown == [] && x.1.clientTyped == [hi.text]) (by decide +kernel)
  obtain rfl : outs = [] := Subsingleton.elim _ _
  simp only [Bool.and_eq_true, beq_iff_eq] at htest
  obtain ⟨⟨⟨⟨⟨hclient, hcut⟩, htyped⟩, hserver⟩, hlost⟩, hsent⟩ := htest
  exact ⟨s, hrun, ⟨hclient, hcut, htyped, List.length_replicate⟩, hserver, hlost, hsent⟩

end ChatSession

end OxyC.Networking
