import OxyC.Networking.Chat
import OxyC.Networking.Termination

/-!
# The client's program

`main` in `client.c` from the SYN on: one datagram is read as the SYN-ACK, and
then the chat loop or the file transfer runs.  The flags of that datagram are
tested, its numbers are not.
-/

namespace OxyC.Networking

open OxyC.Foundation

/-- What the command line selects; no contents stand for a file that cannot be opened. -/
inductive ClientMode where
  | chat
  | file (outname : List UInt8) (contents : Option (List UInt8))

structure ClientSetup where
  cliSeq : UInt32
  mode : ClientMode
  /-- `buf` before the first `recvfrom`. -/
  buf : RecvBuffer

inductive ClientInput where
  /-- The SYN is sent. -/
  | connect
  /-- The first `recvfrom` returns. -/
  | synAck (d : Datagram)
  | chat (input : ChatInput)
  | transfer (env : ClientEnv)

/-- The later stages record the header that was read as the SYN-ACK's. -/
inductive ClientProgram where
  | start
  /-- At the first `recvfrom`. -/
  | synSent
  | chat (synAck : Header) (c : ChatClient)
  | transfer (synAck : Header) (c : Client)
  /-- After `return 1`: the input file cannot be opened. -/
  | exited (synAck : Header)

namespace ClientProgram

def synAck : ClientProgram → Option Header
  | .start | .synSent => none
  | .chat hdr _ | .transfer hdr _ | .exited hdr => some hdr

def syn (cliSeq : UInt32) : Packet := ⟨{ seqNum := cliSeq, flags := shamSyn }, []⟩

def finalAck (cliSeq srvSeq : UInt32) : Packet :=
  ⟨{ seqNum := cliSeq + 1, ackNum := srvSeq + 1, flags := shamAck }, []⟩

def isSynAck (hdr : Header) : Bool := hdr.flags &&& (shamSyn ||| shamAck) == shamSyn ||| shamAck

/-- `remote_win` after the handshake. -/
def remoteWin (hdr : Header) : UInt16 := if isSynAck hdr then hdr.windowSize else defaultWin

/-- The file-name packet and the input file; `none` when the name overruns the packet. -/
def enterFile (u : ClientSetup) (hdr : Header) (outname : List UInt8)
    (contents : Option (List UInt8)) : Option (ClientProgram × List Packet) :=
  if shamMtu < outname.length then none
  else
    let named :=
      if outname.length > 0 then [Client.namePacket u.cliSeq outname (remoteWin hdr)] else []
    match contents with
    | none => some (.exited hdr, named)
    | some contents =>
        let c := { Client.start u.cliSeq outname contents hdr with remoteWin := remoteWin hdr }
        some (.transfer hdr c, named)

def recvSynAck (u : ClientSetup) (d : Datagram) : Option (ClientProgram × List Packet) :=
  let buf := u.buf.recvfrom d
  let hdr := buf.header
  let acked := if isSynAck hdr then [finalAck u.cliSeq hdr.seqNum] else []
  match u.mode with
  | .chat => some (.chat hdr ⟨.select, buf, u.cliSeq, remoteWin hdr, []⟩, acked)
  | .file outname contents =>
      (enterFile u hdr outname contents).map fun x => (x.1, acked ++ x.2)

def step (u : ClientSetup) (i : ClientInput) (c : ClientProgram) :
    Option (ClientProgram × List Packet) :=
  match c, i with
  | .start, .connect => some (.synSent, [syn u.cliSeq])
  | .synSent, .synAck d => recvSynAck u d
  | .chat hdr c, .chat input => (c.step input).map fun x => (.chat hdr x.1, x.2)
  | .transfer hdr c, .transfer env => (c.step env).map fun x => (.transfer hdr x.1, x.2)
  | _, _ => none

theorem synAck_of_step {u : ClientSetup} {i : ClientInput} {c c' : ClientProgram}
    {out : List Packet} (h : step u i c = some (c', out)) {hdr : Header}
    (hread : c.synAck = some hdr) : c'.synAck = some hdr := by
  cases c with
  | start => simp [synAck] at hread
  | synSent => simp [synAck] at hread
  | chat hdr' d =>
      cases i with
      | chat input =>
          obtain ⟨x, -, heq⟩ := Option.map_eq_some_iff.mp h
          cases heq
          exact hread
      | connect => simp [step] at h
      | synAck d => simp [step] at h
      | transfer env => simp [step] at h
  | transfer hdr' d =>
      cases i with
      | transfer env =>
          obtain ⟨x, -, heq⟩ := Option.map_eq_some_iff.mp h
          cases heq
          exact hread
      | connect => simp [step] at h
      | synAck d => simp [step] at h
      | chat input => simp [step] at h
  | exited hdr' => simp [step] at h

end ClientProgram

/-! ## A client that reads no FIN and no text -/

/-- Neither SYN nor ACK. -/
def Packet.Plain (p : Packet) : Prop := p.hdr.has shamSyn = false ∧ p.hdr.has shamAck = false

namespace Client

theorem plain_sendPacket (seq : UInt32) (payload : List UInt8) (win : UInt16) :
    (sendPacket seq payload win).Plain := ⟨has_sendPacket _ _ _ _, has_sendPacket _ _ _ _⟩

theorem plain_finPacket (c : Client) : c.finPacket.Plain := by
  constructor <;> simp only [finPacket, Header.has] <;> decide

theorem plain_of_step {env : ClientEnv} {c c' : Client} {out : List Packet}
    (h : c.step env = some (c', out)) (hopen : c.gotFin = false)
    (hread : ∀ hdr, env.received = some hdr → hdr.has shamFin = false) :
    c'.gotFin = false ∧ ∀ p ∈ out, p.Plain := by
  have hclosing := closing_of_step h
  have hopen' : c'.gotFin = false := by
    by_contra hgot
    rcases hclosing.gotFin (by simpa using hgot) with hold | ⟨-, hdr, hhdr, hfin⟩
    · simp [hopen] at hold
    · simp [hread hdr hhdr] at hfin
  refine ⟨hopen', ?_⟩
  rcases step_cases h with
    ⟨-, rfl, -⟩ | ⟨i, -, hround⟩ | ⟨i, -, hpoll⟩ | ⟨-, rfl, -⟩ | ⟨-, -, hout⟩ | ⟨-, hrecv⟩
  · simp
  · obtain rfl : (c.round i env.now).2 = out := by simp [hround]
    rcases c.round_cases i env.now with
      ⟨-, heq⟩ | ⟨-, -, heq⟩ | ⟨-, -, -, heq⟩ | ⟨-, -, -, -, heq⟩ | ⟨-, -, -, -, -, heq⟩ |
      ⟨-, -, -, -, -, heq⟩ <;> rw [heq]
    · simp
    · simp [leave, plain_finPacket]
    · simp
    · simp [leave, plain_finPacket]
    · simp
    · simp [fill, plain_sendPacket]
  · obtain rfl : (c.poll i env).2 = out := by simp [hpoll]
    intro p hp
    simp only [poll, retransmitDue, List.mem_map] at hp
    obtain ⟨j, -, rfl⟩ := hp
    exact plain_sendPacket _ _ _
  · have hgot := (hclosing.closed rfl).2
    rw [hopen'] at hgot
    simp at hgot
  · intro p hp
    rw [hout p hp]
    exact plain_finPacket c
  · cases hreceived : env.received with
    | none =>
        rw [hreceived] at hrecv
        cases hrecv
        simp
    | some hdr =>
        simp only [recvFin, hreceived, hread hdr hreceived] at hrecv
        split at hrecv <;> cases hrecv <;> simp

end Client

/-- Without a FIN and without payload the chat client answers nothing. -/
theorem ChatClient.plain_of_step {input : ChatInput} {c c' : ChatClient} {out : List Packet}
    (h : c.step input = some (c', out))
    (hread : ∀ d, input = .datagram d →
      (c.buf.recvfrom d).header.has shamFin = false ∧ payloadLength d = 0) :
    ∀ p ∈ out, p.Plain := by
  unfold step at h
  split at h
  · cases h
    simp
  · cases h
    simp
  · unfold readLine at h
    split at h
    · cases h
      intro p hp
      simp only [List.mem_singleton] at hp
      subst hp
      constructor <;> simp only [Header.has] <;> decide
    · split at h
      · cases h
        simp [Client.plain_sendPacket]
      · simp at h
  · rename_i d _
    obtain ⟨hfin, hzero⟩ := hread d rfl
    simp [receive, hfin, printed, chatAck, hzero] at h
    simp [h.2]
  · simp at h

end OxyC.Networking
