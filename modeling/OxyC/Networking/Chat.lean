import OxyC.Networking.Client
import OxyC.Networking.Datagram
import OxyC.Networking.Server

/-!
# The two chat loops

`select` reports which of the terminal and the socket are ready; the terminal
is served first.  Every `recvfrom` blocks, so a step at one reads a datagram.
-/

namespace OxyC.Networking

open OxyC.Foundation

/-- What `fgets` leaves in `line[2048]`, up to its terminator. -/
structure Line where
  text : List UInt8
  length_lt : text.length < 2048

/-- The text `/quit` with its newline. -/
def Line.isQuit (l : Line) : Bool := l.text == [47, 113, 117, 105, 116, 10]

inductive Terminal where
  | line (l : Line)
  /-- `fgets` returns `NULL`. -/
  | endOfInput

inductive ChatInput where
  /-- `select` returns. -/
  | ready (terminal : Option Terminal) (socket : Bool)
  /-- `recvfrom` returns. -/
  | datagram (d : Datagram)

/-- The texts printed for a data packet: none when it carries no payload. -/
def printed (d : Datagram) (buf : RecvBuffer) : Option (List (List UInt8)) :=
  let dlen := payloadLength d
  if dlen > 0 then (buf.payload dlen).map fun text => [text] else some []

def chatAck (d : Datagram) (buf : RecvBuffer) (win : UInt16) : List Packet :=
  let dlen := payloadLength d
  if dlen > 0 then
    [⟨{ ackNum := buf.header.seqNum + UInt32.ofNat dlen, flags := shamAck, windowSize := win },
      []⟩]
  else []

inductive ChatServerPc where
  | select
  /-- At the `recvfrom` after the FIN for `/quit`; the flag says what `select` reported. -/
  | quitReply (socket : Bool)
  | receive
  /-- At the `recvfrom` of the FIN branch. -/
  | finalAck
  /-- After `break`. -/
  | left
  deriving DecidableEq, Repr

structure ChatServer where
  pc : ChatServerPc
  buf : RecvBuffer
  serverSeq : UInt32
  shown : List (List UInt8)

namespace ChatServer

/-- The test `FD_ISSET(sock, &readfds)` and the end of the loop body. -/
def afterTerminal (socket : Bool) : ChatServerPc := if socket then .receive else .select

def readLine (l : Line) (socket : Bool) (s : ChatServer) : ChatServer × List Packet :=
  if l.isQuit then
    ({ s with pc := .quitReply socket, serverSeq := s.serverSeq + 1 }, [Server.finOf s.serverSeq])
  else
    -- Longer lines are cut to the packet's payload.
    let text := l.text.take shamMtu
    ({ s with
        pc := afterTerminal socket
        serverSeq := s.serverSeq + UInt32.ofNat text.length },
      [⟨{ seqNum := s.serverSeq }, text⟩])

def receive (d : Datagram) (s : ChatServer) : Option (ChatServer × List Packet) :=
  let buf := s.buf.recvfrom d
  if buf.header.has shamFin then
    some ({ s with pc := .finalAck, buf, serverSeq := s.serverSeq + 1 },
      [Server.finReply buf.header.seqNum, Server.finOf s.serverSeq])
  else
    (printed d buf).map fun texts =>
      ({ s with pc := .select, buf, shown := s.shown ++ texts }, chatAck d buf defaultWin)

def step (input : ChatInput) (s : ChatServer) : Option (ChatServer × List Packet) :=
  match s.pc, input with
  | .select, .ready none socket => some ({ s with pc := afterTerminal socket }, [])
  | .select, .ready (some .endOfInput) _ => some ({ s with pc := .left }, [])
  | .select, .ready (some (.line l)) socket => some (s.readLine l socket)
  | .quitReply socket, .datagram d =>
      let buf := s.buf.recvfrom d
      some ({ s with
        pc := if buf.header.has shamAck then .left else afterTerminal socket
        buf }, [])
  | .receive, .datagram d => s.receive d
  | .finalAck, .datagram d => some ({ s with pc := .select, buf := s.buf.recvfrom d }, [])
  | _, _ => none

def machine : Mealy ChatInput Packet ChatServer := ⟨step⟩

end ChatServer

inductive ChatClientPc where
  | select
  | receive
  | left
  deriving DecidableEq, Repr

structure ChatClient where
  pc : ChatClientPc
  buf : RecvBuffer
  cliSeq : UInt32
  remoteWin : UInt16
  shown : List (List UInt8)

namespace ChatClient

def afterTerminal (socket : Bool) : ChatClientPc := if socket then .receive else .select

/-- `none` when `send_packet` copies more than the packet's payload holds. -/
def readLine (l : Line) (socket : Bool) (c : ChatClient) : Option (ChatClient × List Packet) :=
  if l.isQuit then
    some ({ c with pc := afterTerminal socket, cliSeq := c.cliSeq + 1 },
      [⟨{ seqNum := c.cliSeq, flags := shamFin }, []⟩])
  else if l.text.length ≤ shamMtu then
    some ({ c with pc := afterTerminal socket },
      [Client.sendPacket (c.cliSeq + 1) l.text c.remoteWin])
  else none

def receive (d : Datagram) (c : ChatClient) : Option (ChatClient × List Packet) :=
  let buf := c.buf.recvfrom d
  if buf.header.has shamFin then
    some ({ c with pc := .left, buf }, [Client.ackOf buf.header])
  else
    (printed d buf).map fun texts =>
      ({ c with pc := .select, buf, shown := c.shown ++ texts }, chatAck d buf c.remoteWin)

def step (input : ChatInput) (c : ChatClient) : Option (ChatClient × List Packet) :=
  match c.pc, input with
  | .select, .ready none socket => some ({ c with pc := afterTerminal socket }, [])
  | .select, .ready (some .endOfInput) _ => some ({ c with pc := .left }, [])
  | .select, .ready (some (.line l)) socket => c.readLine l socket
  | .receive, .datagram d => c.receive d
  | _, _ => none

def machine : Mealy ChatInput Packet ChatClient := ⟨step⟩

end ChatClient

end OxyC.Networking
