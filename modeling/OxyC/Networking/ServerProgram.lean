import OxyC.Networking.Chat
import OxyC.Networking.Handshake
import OxyC.Networking.PayloadLength

/-!
# The server's program

`main` in `server.c` from the handshake loop to the end of the receive loop, on
datagrams from any address.  With `--chat` the chat loop stands between the
handshake and the file-name packet; every way out of it leads to the same
`recvfrom` that file mode starts with.
-/

namespace OxyC.Networking

open OxyC.Foundation

/-- What one `recvfrom` returns; an empty datagram sets `cliaddr` and returns 0. -/
structure ServerRead (κ : Type*) where
  source : κ
  datagram : Option Datagram
  /-- The values of `rand32()`, `should_drop` and `fopen`, if they are called. -/
  rand32 : UInt32 := 0
  shouldDrop : Bool := false
  fopens : Bool := true

inductive ServerInput (κ : Type*) where
  | recvfrom (r : ServerRead κ)
  | select (terminal : Option Terminal) (socket : Bool)

inductive ServerProgram (κ : Type*) where
  | handshake (buf : RecvBuffer) (h : Handshake κ)
  | chat (cliaddr : κ) (c : ChatServer)
  /-- At the `recvfrom` of the file-name packet. -/
  | fileName (buf : RecvBuffer) (serverSeq : UInt32)
  /-- After `fopen(outname, "wb")`. -/
  | transfer (outname : List UInt8) (s : ServerSocket)
  /-- After `return 1`, with the name given to `fopen`, if it came to that. -/
  | exited (outname : Option (List UInt8))

/-- An empty datagram at a `recvfrom` of the chat loop. -/
def ChatServer.recvNothing (c : ChatServer) : Option ChatServer :=
  match c.pc with
  | .quitReply socket => some { c with pc := afterTerminal socket }
  | .receive | .finalAck => some { c with pc := .select }
  | .select | .left => none

/-- An empty datagram at a `recvfrom` of the receive loop. -/
def ServerSocket.recvNothing (s : ServerSocket) : Option ServerSocket :=
  match s.server.phase with
  | .receiving => some s
  | .finalAck => some { s with server := { s.server with phase := .closed } }
  | .closed => none

namespace ServerProgram

variable {κ : Type*}

def start (buf : RecvBuffer) (cliaddr : κ) : ServerProgram κ := .handshake buf (.start cliaddr)

/-- Control after a step of the handshake loop. -/
def afterHandshake (chatMode : Bool) (buf : RecvBuffer) (h : Handshake κ) : ServerProgram κ :=
  match h.pc with
  | .complete =>
      if chatMode then .chat h.cliaddr ⟨.select, buf, h.serverSeq, []⟩
      else .fileName buf h.serverSeq
  | .listening | .awaitAck _ => .handshake buf h

/-- Control after a step of the chat loop: the `close` and `return` behind it are comments. -/
def afterChat (cliaddr : κ) (c : ChatServer) : ServerProgram κ :=
  match c.pc with
  | .left => .fileName c.buf c.serverSeq
  | .select | .quitReply _ | .receive | .finalAck => .chat cliaddr c

def recvHandshake (chatMode : Bool) (buf : RecvBuffer) (h : Handshake κ) (r : ServerRead κ) :
    Option (ServerProgram κ × List (κ × Packet)) :=
  match r.datagram with
  | none =>
      (h.step ⟨r.source, none, r.rand32⟩).map fun x =>
        (afterHandshake chatMode buf x.1, x.2)
  | some d =>
      let buf := buf.recvfrom d
      (h.step ⟨r.source, some buf.header, r.rand32⟩).map fun x =>
        (afterHandshake chatMode buf x.1, x.2)

def recvChat (c : ChatServer) (r : ServerRead κ) :
    Option (ServerProgram κ × List (κ × Packet)) :=
  match r.datagram with
  | none => c.recvNothing.map fun c => (afterChat r.source c, [])
  | some d =>
      (c.step (.datagram d)).map fun x =>
        (afterChat r.source x.1, x.2.map fun p => (r.source, p))

def recvName (buf : RecvBuffer) (serverSeq : UInt32) (r : ServerRead κ) : ServerProgram κ :=
  match r.datagram with
  | none => .exited none
  | some d =>
      match ServerSocket.receiveName serverSeq buf d with
      | none => .exited none
      | some (outname, s) => if r.fopens then .transfer outname s else .exited (some outname)

def recvTransfer (outname : List UInt8) (s : ServerSocket) (r : ServerRead κ) :
    Option (ServerProgram κ × List (κ × Packet)) :=
  match r.datagram with
  | none => s.recvNothing.map fun s => (.transfer outname s, [])
  | some d =>
      (s.step ⟨d, r.shouldDrop⟩).map fun x =>
        (.transfer outname x.1, x.2.map fun p => (r.source, p))

def step (chatMode : Bool) (i : ServerInput κ) (s : ServerProgram κ) :
    Option (ServerProgram κ × List (κ × Packet)) :=
  match s, i with
  | .handshake buf h, .recvfrom r => recvHandshake chatMode buf h r
  | .chat cliaddr c, .select terminal socket =>
      (c.step (.ready terminal socket)).map fun x =>
        (afterChat cliaddr x.1, x.2.map fun p => (cliaddr, p))
  | .chat _ c, .recvfrom r => recvChat c r
  | .fileName buf serverSeq, .recvfrom r => some (recvName buf serverSeq r, [])
  | .transfer outname s, .recvfrom r => recvTransfer outname s r
  | _, _ => none

def machine (chatMode : Bool) : Mealy (ServerInput κ) (κ × Packet) (ServerProgram κ) :=
  ⟨step chatMode⟩

/-- The name of the output file that the run has asked `fopen` to create. -/
def opened : ServerProgram κ → Option (List UInt8)
  | .transfer outname _ => some outname
  | .exited outname => outname
  | .handshake _ _ | .chat _ _ | .fileName _ _ => none

@[simp] theorem opened_afterHandshake (chatMode : Bool) (buf : RecvBuffer)
    (h : Handshake κ) : (afterHandshake chatMode buf h).opened = none := by
  unfold afterHandshake
  cases h.pc with
  | complete => cases chatMode <;> rfl
  | listening => rfl
  | awaitAck srvSeq => rfl

@[simp] theorem opened_afterChat (cliaddr : κ) (c : ChatServer) :
    (afterChat cliaddr c).opened = none := by
  unfold afterChat
  cases c.pc <;> rfl

theorem opened_recvName (buf : RecvBuffer) (serverSeq : UInt32) (r : ServerRead κ) :
    (recvName buf serverSeq r).opened = none ↔
      ∀ d, r.datagram = some d → d.bytes.length ≤ headerSize := by
  unfold recvName
  cases hread : r.datagram with
  | none => simp [opened]
  | some d =>
      by_cases hshort : d.bytes.length ≤ headerSize
      · simp [ServerSocket.receiveName, hshort, opened]
      · have hlong : headerSize < d.bytes.length := by omega
        have hdata : d.packet.data.length ≠ 0 := by
          simp only [Datagram.packet, List.length_drop]
          omega
        have hname := ServerSocket.receiveName_of_headerSize_lt hlong serverSeq buf
        simp only [Server.receiveName, if_neg hdata, Option.map_some] at hname
        simp only [hname]
        cases r.fopens <;> simp [opened, hshort]

/-! ## Runs with `--chat` -/

/-- Whatever is read at the `recvfrom` of the file-name packet is no longer than the header. -/
def NamesNothing : ServerProgram κ → ServerInput κ → Prop
  | .fileName _ _, .recvfrom r => ∀ d, r.datagram = some d → d.bytes.length ≤ headerSize
  | _, _ => True

/-- A step opens a file exactly when a datagram is taken for the file-name packet. -/
theorem opened_step (chatMode : Bool) (i : ServerInput κ) {s : ServerProgram κ}
    (hs : s.opened = none) :
    (step chatMode i s = none ∧ NamesNothing s i) ∨
      ∃ s' out, step chatMode i s = some (s', out) ∧
        (s'.opened = none ↔ NamesNothing s i) := by
  cases hstep : step chatMode i s with
  | none =>
      left
      refine ⟨rfl, ?_⟩
      cases s <;> cases i <;> trivial
  | some next =>
      right
      refine ⟨next.1, next.2, rfl, ?_⟩
      cases s with
      | handshake buf h =>
          cases i with
          | select terminal socket => simp [step] at hstep
          | recvfrom r =>
              simp only [step, recvHandshake] at hstep
              split at hstep <;> obtain ⟨x, -, rfl⟩ := Option.map_eq_some_iff.mp hstep <;>
                simp [NamesNothing]
      | chat cliaddr c =>
          cases i with
          | select terminal socket =>
              obtain ⟨x, -, rfl⟩ := Option.map_eq_some_iff.mp hstep
              simp [NamesNothing]
          | recvfrom r =>
              simp only [step, recvChat] at hstep
              split at hstep <;> obtain ⟨x, -, rfl⟩ := Option.map_eq_some_iff.mp hstep <;>
                simp [NamesNothing]
      | fileName buf serverSeq =>
          cases i with
          | select terminal socket => simp [step] at hstep
          | recvfrom r =>
              cases hstep
              exact opened_recvName buf serverSeq r
      | transfer outname t => simp [opened] at hs
      | exited outname => cases i <;> simp [step] at hstep

/--
A chat server has asked for no output file, at every moment of a run, exactly
when nothing longer than a header is read after its chat loop has been left.
-/
theorem chat_opens_nothing_iff (inputs : List (ServerInput κ)) (buf : RecvBuffer)
    (cliaddr : κ) :
    (machine true).Always (fun s : ServerProgram κ => s.opened = none) inputs
        (start buf cliaddr) ↔
      (machine true).Guarded NamesNothing inputs (start buf cliaddr) := by
  refine (machine true).always_iff_guarded (I := fun _ => True) (J := fun _ => True) ?_
    (fun _ _ => trivial) trivial rfl
  intro i s _ _ hs
  rcases opened_step true i hs with hnone | ⟨s', out, hstep, hiff⟩
  · exact .inl hnone
  · exact .inr ⟨s', out, hstep, trivial, hiff⟩

/-- The client's SYN and its final ACK, the end of the terminal's input, and a stray byte. -/
def endOfInputThenData : List (ServerInput Nat) :=
  [.recvfrom ⟨1, some ((⟨{ seqNum := 7, flags := shamSyn }, []⟩ : Packet).datagram
      (Nat.zero_le _)), 0, false, true⟩,
    .recvfrom ⟨1, some ((⟨{ seqNum := 8, ackNum := 1, flags := shamAck }, []⟩ :
      Packet).datagram (Nat.zero_le _)), 0, false, true⟩,
    .select (some .endOfInput) false,
    .recvfrom ⟨1, some nameDatagram, 0, false, true⟩]

theorem endOfInputThenData_opens :
    ∃ s outs, (machine true).run endOfInputThenData (start zeroBuffer 0) = some (s, outs) ∧
      s.opened = some [111] := by
  obtain ⟨s, outs, hrun, htest⟩ := (machine true).exists_run endOfInputThenData
    (start zeroBuffer 0) (fun x => x.1.opened == some [111]) (by decide +kernel)
  exact ⟨s, outs, hrun, by simpa using htest⟩

end ServerProgram

end OxyC.Networking
