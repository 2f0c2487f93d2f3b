import OxyC.Networking.ChatDelivery

/-!
# The sequence numbers of a chat

Each side numbers what is typed there.  A message should start where the one
before it ended, and so should the FIN behind the last one.
-/

namespace OxyC.Networking

open OxyC.Foundation

def Packet.next (p : Packet) : UInt32 := p.hdr.seqNum + UInt32.ofNat p.data.length

/-- The text of the packet has a byte at `k`. -/
def Packet.Covers (p : Packet) (k : UInt32) : Prop := (k - p.hdr.seqNum).toNat < p.data.length

/-- The messages among the packets of one side, up to its first FIN and with it. -/
def numbered : List Packet → List Packet
  | [] => []
  | p :: ps =>
      if p.hdr.has shamFin then [p]
      else if p.hdr.has shamAck then numbered ps
      else p :: numbered ps

def payloadTotal (packets : List Packet) : Nat := (packets.map fun p => p.data.length).sum

/-- Each message follows the one before it, the acknowledgement that a receiver sends for it names
the next one, and no two share a byte, as long as the numbers do not come round. -/
structure WellNumbered (sent : List Packet) : Prop where
  follows : (numbered sent).IsChain fun p q => q.hdr.seqNum = p.next
  acknowledged : (numbered sent).IsChain fun p q => ∀ d (buf : RecvBuffer) win,
    Datagram.Carries d p → ∀ ack ∈ chatAck d (buf.recvfrom d) win, ack.hdr.ackNum = q.hdr.seqNum
  apart : payloadTotal (numbered sent) ≤ 4294967296 →
    (numbered sent).Pairwise fun p q => ∀ k, ¬ (p.Covers k ∧ q.Covers k)

/-! ## Packets that follow each other -/

theorem ackNum_of_chatAck {d : Datagram} {p : Packet} (h : d.Carries p) (buf : RecvBuffer)
    {win : UInt16} {ack : Packet} (hack : ack ∈ chatAck d (buf.recvfrom d) win) :
    ack.hdr.ackNum = p.next := by
  unfold chatAck at hack
  dsimp only at hack
  split at hack
  · rw [List.mem_singleton.mp hack, h.header_recvfrom, h.payloadLength_eq]
    rfl
  · simp at hack

theorem exists_offset {p : Packet} {ps : List Packet}
    (h : (p :: ps).IsChain fun p q => q.hdr.seqNum = p.next) {q : Packet} (hq : q ∈ ps) :
    ∃ offset, q.hdr.seqNum = p.next + UInt32.ofNat offset ∧
      offset + q.data.length ≤ payloadTotal ps := by
  induction ps generalizing p with
  | nil => simp at hq
  | cons r ps ih =>
      rw [List.isChain_cons_cons] at h
      have htotal : payloadTotal (r :: ps) = r.data.length + payloadTotal ps := by
        simp [payloadTotal]
      cases List.mem_cons.mp hq with
      | inl hhead =>
          subst hhead
          exact ⟨0, by simp [h.1], by omega⟩
      | inr hrest =>
          obtain ⟨offset, hseq, hle⟩ := ih h.2 hrest
          refine ⟨r.data.length + offset, ?_, by omega⟩
          rw [hseq, Packet.next, h.1, UInt32.ofNat_add, add_assoc]

/-- Two texts do not meet where the second starts behind the first and ends before the numbers
come round to it. -/
theorem not_covers_both {p q : Packet} {offset : Nat}
    (hseq : q.hdr.seqNum = p.next + UInt32.ofNat offset)
    (hroom : p.data.length + (offset + q.data.length) ≤ 4294967296) (k : UInt32) :
    ¬ (p.Covers k ∧ q.Covers k) := by
  rintro ⟨hp, hq⟩
  have hfrom : k - q.hdr.seqNum =
      (k - p.hdr.seqNum) - UInt32.ofNat (p.data.length + offset) := by
    rw [hseq, Packet.next, UInt32.ofNat_add, add_assoc, sub_add_eq_sub_sub]
  rw [Packet.Covers, hfrom, UInt32.toNat_sub, UInt32.toNat_ofNat'] at hq
  rw [Packet.Covers] at hp
  omega

theorem wellNumbered_iff (sent : List Packet) :
    WellNumbered sent ↔ (numbered sent).IsChain fun p q => q.hdr.seqNum = p.next := by
  refine ⟨WellNumbered.follows, fun h => ⟨h, ?_, ?_⟩⟩
  · refine h.imp fun p q hpq d buf win hd ack hack => ?_
    rw [ackNum_of_chatAck hd buf hack, hpq]
  · generalize numbered sent = packets at h
    induction packets with
    | nil => simp
    | cons p ps ih =>
        intro htotal
        have hsum : payloadTotal (p :: ps) = p.data.length + payloadTotal ps := by
          simp [payloadTotal]
        refine List.pairwise_cons.mpr ⟨?_, ih h.tail (by omega)⟩
        intro q hq
        obtain ⟨offset, hseq, hle⟩ := exists_offset h hq
        exact not_covers_both hseq (by omega)

theorem numbered_append_acks {acks : List Packet}
    (h : ∀ p ∈ acks, p.hdr.has shamFin = false ∧ p.hdr.has shamAck = true) (rest : List Packet) :
    numbered (acks ++ rest) = numbered rest := by
  induction acks with
  | nil => rfl
  | cons p acks ih =>
      obtain ⟨hfin, hack⟩ := h p List.mem_cons_self
      rw [List.cons_append, numbered, if_neg (by simp [hfin]), if_pos hack]
      exact ih fun q hq => h q (List.mem_cons_of_mem p hq)

theorem flags_of_chatAck {d : Datagram} {buf : RecvBuffer} {win : UInt16} :
    ∀ p ∈ chatAck d buf win, p.hdr.has shamFin = false ∧ p.hdr.has shamAck = true := by
  intro p hp
  unfold chatAck at hp
  dsimp only at hp
  split at hp
  · rw [List.mem_singleton.mp hp]
    exact ⟨by simp [Header.has], by simp [Header.has, shamAck]⟩
  · simp at hp

/-! ## The server -/

/-- The messages start at `seq`, and each where the one before it ended. -/
def ChainedFrom : UInt32 → List Packet → Prop
  | _, [] => True
  | seq, p :: ps => p.hdr.seqNum = seq ∧ ChainedFrom p.next ps

theorem ChainedFrom.isChain {seq : UInt32} {packets : List Packet} (h : ChainedFrom seq packets) :
    packets.IsChain fun p q => q.hdr.seqNum = p.next := by
  induction packets generalizing seq with
  | nil => exact .nil
  | cons p ps ih =>
      cases ps with
      | nil => exact .singleton p
      | cons q ps => exact .cons_cons h.2.1 (ih h.2)

namespace ChatServer

/-- What a step sends: acknowledgements, a message with the number of the server, or a FIN with it
behind acknowledgements. -/
theorem step_numbers {input : ChatInput} {s s' : ChatServer} {out : List Packet}
    (h : s.step input = some (s', out)) :
    (s'.serverSeq = s.serverSeq ∧
        ∀ p ∈ out, p.hdr.has shamFin = false ∧ p.hdr.has shamAck = true) ∨
      (∃ text, s'.serverSeq = s.serverSeq + UInt32.ofNat text.length ∧
        out = [⟨{ seqNum := s.serverSeq }, text⟩]) ∨
      ∃ acks, (∀ p ∈ acks, p.hdr.has shamFin = false ∧ p.hdr.has shamAck = true) ∧
        out = acks ++ [Server.finOf s.serverSeq] := by
  have hreply : ∀ seq, ∀ p ∈ [Server.finReply seq],
      p.hdr.has shamFin = false ∧ p.hdr.has shamAck = true := by
    intro seq p hp
    rw [List.mem_singleton.mp hp]
    exact ⟨by simp [Server.finReply, Header.has], by simp [Server.finReply, Header.has, shamAck]⟩
  unfold step at h
  split at h
  · cases h
    exact .inl ⟨rfl, by simp⟩
  · cases h
    exact .inl ⟨rfl, by simp⟩
  · rename_i l socket _
    rw [Option.some.injEq] at h
    unfold readLine at h
    split at h
    · cases h
      exact .inr (.inr ⟨[], by simp, rfl⟩)
    · cases h
      exact .inr (.inl ⟨_, rfl, rfl⟩)
  · cases h
    exact .inl ⟨rfl, by simp⟩
  · rename_i d _
    unfold receive at h
    dsimp only at h
    split at h
    · cases h
      exact .inr (.inr ⟨_, hreply _, rfl⟩)
    · obtain ⟨texts, -, heq⟩ := Option.map_eq_some_iff.mp h
      cases heq
      exact .inl ⟨rfl, flags_of_chatAck⟩
  · cases h
    exact .inl ⟨rfl, by simp⟩
  · cases h

theorem chainedFrom_run {inputs : List ChatInput} {s t : ChatServer} {out : List Packet}
    (h : machine.run inputs s = some (t, out)) : ChainedFrom s.serverSeq (numbered out) := by
  induction inputs generalizing s out with
  | nil =>
      cases h
      trivial
  | cons input inputs ih =>
      obtain ⟨s', first, rest, hstep, hrun, rfl⟩ := machine.run_cons_eq_some.mp h
      have hrest := ih hrun
      rcases step_numbers hstep with ⟨hseq, hacks⟩ | ⟨text, hseq, rfl⟩ | ⟨acks, hacks, rfl⟩
      · rw [numbered_append_acks hacks, ← hseq]
        exact hrest
      · rw [List.singleton_append, numbered, if_neg (by simp [Header.has]),
          if_neg (by simp [Header.has])]
        rw [hseq] at hrest
        exact ⟨rfl, hrest⟩
      · rw [List.append_assoc, numbered_append_acks hacks, List.singleton_append, numbered,
          if_pos (by simp [Server.finOf, Header.has, shamFin])]
        exact ⟨rfl, trivial⟩

end ChatServer

/-! ## The client -/

/-- The lines that the client reads from its terminal. -/
def typedLines (inputs : List ChatInput) : List Line :=
  inputs.filterMap fun
    | .ready (some (.line l)) _ => some l
    | _ => none

def messagesOf (lines : List Line) : List Line := lines.takeWhile (!·.isQuit)

/-- Before the first `/quit` only the last message has a text, and where that line is typed there
is no message before it. -/
def Sparse (lines : List Line) : Prop :=
  (∀ l ∈ (messagesOf lines).dropLast, l.text = []) ∧
    ((∃ l ∈ lines, l.isQuit = true) → messagesOf lines = [])

namespace ChatClient

def messagePacket (c : ChatClient) (l : Line) : Packet :=
  Client.sendPacket (c.cliSeq + 1) l.text c.remoteWin

def finPackets (c : ChatClient) (lines : List Line) : List Packet :=
  if lines.any Line.isQuit then [⟨{ seqNum := c.cliSeq, flags := shamFin }, []⟩] else []

/-- A step reads no line and acknowledges, or sends the line that it reads. -/
theorem step_lines {input : ChatInput} {c c' : ChatClient} {out : List Packet}
    (h : c.step input = some (c', out)) :
    (typedLines [input] = [] ∧ (c'.cliSeq = c.cliSeq ∧ c'.remoteWin = c.remoteWin) ∧
        ∀ p ∈ out, p.hdr.has shamFin = false ∧ p.hdr.has shamAck = true) ∨
      ∃ l, typedLines [input] = [l] ∧
        (l.isQuit = true ∧ out = [⟨{ seqNum := c.cliSeq, flags := shamFin }, []⟩] ∨
          l.isQuit = false ∧ (c'.cliSeq = c.cliSeq ∧ c'.remoteWin = c.remoteWin) ∧
            out = [c.messagePacket l]) := by
  unfold step at h
  split at h
  · cases h
    exact .inl ⟨rfl, ⟨rfl, rfl⟩, by simp⟩
  · cases h
    exact .inl ⟨rfl, ⟨rfl, rfl⟩, by simp⟩
  · rename_i l socket _
    unfold readLine at h
    split at h
    · rename_i hquit
      cases h
      exact .inr ⟨l, rfl, .inl ⟨hquit, rfl⟩⟩
    · rename_i hquit
      split at h
      · cases h
        exact .inr ⟨l, rfl, .inr ⟨Bool.eq_false_iff.mpr hquit, ⟨rfl, rfl⟩, rfl⟩⟩
      · cases h
  · rename_i d _
    unfold receive at h
    dsimp only at h
    split at h
    · cases h
      refine .inl ⟨rfl, ⟨rfl, rfl⟩, ?_⟩
      intro p hp
      rw [List.mem_singleton.mp hp]
      exact ⟨by simp [Client.ackOf, Header.has], by simp [Client.ackOf, Header.has, shamAck]⟩
    · obtain ⟨texts, -, heq⟩ := Option.map_eq_some_iff.mp h
      cases heq
      exact .inl ⟨rfl, ⟨rfl, rfl⟩, flags_of_chatAck⟩
  · cases h

theorem packets_eq {c c' : ChatClient} (hseq : c'.cliSeq = c.cliSeq)
    (hwin : c'.remoteWin = c.remoteWin) :
    c'.messagePacket = c.messagePacket ∧ c'.finPackets = c.finPackets := by
  constructor
  · funext l
    rw [messagePacket, messagePacket, hseq, hwin]
  · funext lines
    rw [finPackets, finPackets, hseq]

theorem numbered_run {inputs : List ChatInput} {c t : ChatClient} {out : List Packet}
    (h : machine.run inputs c = some (t, out)) :
    numbered out = (messagesOf (typedLines inputs)).map c.messagePacket ++
      c.finPackets (typedLines inputs) := by
  induction inputs generalizing c out with
  | nil =>
      cases h
      rfl
  | cons input inputs ih =>
      obtain ⟨c', first, rest, hstep, hrun, rfl⟩ := machine.run_cons_eq_some.mp h
      have hrest := ih hrun
      have hlines : typedLines (input :: inputs) = typedLines [input] ++ typedLines inputs :=
        List.filterMap_append (l := [input])
      rcases step_lines hstep with ⟨hnone, ⟨hseq, hwin⟩, hacks⟩ | ⟨l, hline, hquit | hmessage⟩
      · have hsame := packets_eq hseq hwin
        rw [hlines, hnone, numbered_append_acks hacks, hrest, hsame.1, hsame.2, List.nil_append]
      · obtain ⟨hquit, rfl⟩ := hquit
        rw [hlines, hline, List.singleton_append, List.singleton_append, numbered,
          if_pos (by simp [Header.has, shamFin])]
        simp [messagesOf, finPackets, hquit]
      · obtain ⟨hquit, ⟨hseq, hwin⟩, rfl⟩ := hmessage
        have hsame := packets_eq hseq hwin
        have hmessage : messagesOf (l :: typedLines inputs) = l :: messagesOf (typedLines inputs) :=
          List.takeWhile_cons_of_pos (by simp [hquit])
        rw [hlines, hline, List.singleton_append, List.singleton_append, hmessage, numbered,
          if_neg (by simp [messagePacket]), if_neg (by simp [messagePacket]), hrest,
          hsame.1, hsame.2, List.map_cons, List.cons_append]
        simp only [finPackets, List.any_cons, hquit, Bool.false_or]

/-- The client gives every message the same number, and the FIN the one before it. -/
theorem next_eq_iff (c : ChatClient) (l l' : Line) :
    (c.messagePacket l').hdr.seqNum = (c.messagePacket l).next ↔ l.text = [] := by
  have hlength := l.length_lt
  simp only [messagePacket, Client.sendPacket, Packet.next, left_eq_add]
  rw [← UInt32.toNat_inj, UInt32.toNat_ofNat']
  have hzero : (0 : UInt32).toNat = 0 := rfl
  rw [hzero, Nat.mod_eq_of_lt (by omega), List.length_eq_zero_iff]

theorem fin_ne_next (c : ChatClient) (l : Line) : c.cliSeq ≠ (c.messagePacket l).next := by
  have hlength := l.length_lt
  intro heq
  simp only [messagePacket, Client.sendPacket, Packet.next, add_assoc, left_eq_add] at heq
  have hnat := congrArg UInt32.toNat heq
  rw [UInt32.toNat_add, UInt32.toNat_ofNat'] at hnat
  have hone : (1 : UInt32).toNat = 1 := rfl
  have hzero : (0 : UInt32).toNat = 0 := rfl
  rw [hone, hzero] at hnat
  omega

theorem isChain_messages_iff (c : ChatClient) (messages lines : List Line) :
    (messages.map c.messagePacket ++ c.finPackets lines).IsChain
        (fun p q => q.hdr.seqNum = p.next) ↔
      (∀ l ∈ messages.dropLast, l.text = []) ∧
        ((∃ l ∈ lines, l.isQuit = true) → messages = []) := by
  induction messages with
  | nil =>
      unfold finPackets
      split <;> simp
  | cons l messages ih =>
      cases messages with
      | nil =>
          by_cases hquit : lines.any Line.isQuit = true
          · have hexists : ∃ l ∈ lines, l.isQuit = true := by simpa using hquit
            simpa [finPackets, hquit, hexists] using c.fin_ne_next l
          · have hnone : ¬ ∃ l ∈ lines, l.isQuit = true := by simpa using hquit
            simp [finPackets, hquit, hnone]
      | cons l' messages =>
          have hchain := ih
          simp only [List.map_cons, List.cons_append] at hchain ⊢
          rw [List.isChain_cons_cons, c.next_eq_iff, hchain, List.dropLast_cons_cons]
          simp [and_assoc]

end ChatClient

/-- The server numbers its messages as it should, and the client only where at most one message
with a text is typed, and no `/quit` behind it. -/
theorem chat_numbers_iff {serverInputs clientInputs : List ChatInput} {s s' : ChatServer}
    {c c' : ChatClient} {serverSent clientSent : List Packet}
    (hserver : ChatServer.machine.run serverInputs s = some (s', serverSent))
    (hclient : ChatClient.machine.run clientInputs c = some (c', clientSent)) :
    WellNumbered serverSent ∧ (WellNumbered clientSent ↔ Sparse (typedLines clientInputs)) := by
  constructor
  · exact (wellNumbered_iff serverSent).mpr (ChatServer.chainedFrom_run hserver).isChain
  · rw [wellNumbered_iff, ChatClient.numbered_run hclient, ChatClient.isChain_messages_iff]
    rfl

/-- The lines `a` and `b` are typed. -/
def twoLines : List ChatInput :=
  [.ready (some (.line ⟨[97, 10], by decide⟩)) false,
    .ready (some (.line ⟨[98, 10], by decide⟩)) false]

/-- Both are typed at the server, and the first one at the client. -/
theorem chat_numbers_one_line :
    ∃ s serverSent c clientSent,
      ChatServer.machine.run twoLines ⟨.select, zeroBuffer, 900, []⟩ = some (s, serverSent) ∧
      ChatClient.machine.run (twoLines.take 1) ⟨.select, zeroBuffer, 100, 8192, []⟩ =
        some (c, clientSent) ∧
      serverSent.map (·.hdr.seqNum) = [900, 902] ∧ WellNumbered serverSent ∧
      WellNumbered clientSent := by
  have hserver : ChatServer.machine.run twoLines ⟨.select, zeroBuffer, 900, []⟩ = some (_, _) :=
    rfl
  have hclient : ChatClient.machine.run (twoLines.take 1) ⟨.select, zeroBuffer, 100, 8192, []⟩ =
      some (_, _) := rfl
  have hboth := chat_numbers_iff hserver hclient
  have hsparse : Sparse (typedLines (twoLines.take 1)) := by
    unfold Sparse
    decide
  exact ⟨_, _, _, _, hserver, hclient, by decide, hboth.1, hboth.2.mpr hsparse⟩

/-- The client sends both lines from the same number on. -/
theorem chat_numbers_repeated :
    ∃ t sent, ChatClient.machine.run twoLines ⟨.select, zeroBuffer, 100, 8192, []⟩ =
        some (t, sent) ∧
      sent.map (·.hdr.seqNum) = [101, 101] ∧ ¬ WellNumbered sent := by
  refine ⟨_, _, rfl, by decide, ?_⟩
  intro h
  have hnext : (101 : UInt32) = 101 + 2 := (List.isChain_cons_cons.mp h.follows).1
  exact absurd hnext (by decide)

end OxyC.Networking
