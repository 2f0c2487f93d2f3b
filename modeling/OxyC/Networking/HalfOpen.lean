import OxyC.Networking.ServerProgram

/-!
# Half-open connections

A file server's run is watched for the SYN-ACKs it has sent and for the first
final ACK that answers one of them.  The server serves that client exactly when
the ACK comes right after its SYN-ACK and the client's file-name packet right
after the ACK.
-/

namespace OxyC.Networking

open OxyC.Foundation

structure NameDatagram extends Datagram where
  headerSize_lt : headerSize < bytes.length

structure Watched (κ : Type*) where
  program : ServerProgram κ
  /-- Address and number of every SYN-ACK sent. -/
  sent : List (κ × UInt32) := []
  /-- The first client whose final ACK the server has read in its handshake loop. -/
  acked : Option κ := none
  /-- What the server has taken for the file-name packet. -/
  named : Option (κ × Datagram) := none

namespace Watched

variable {κ : Type*}

section Steps

variable [DecidableEq κ]

/-- The source, if what it sends acknowledges a SYN-ACK that was sent to it. -/
def finalAckFrom (buf : RecvBuffer) (r : ServerRead κ) (sent : List (κ × UInt32)) : Option κ :=
  match r.datagram with
  | none => none
  | some d =>
      if sent.any fun x => decide (x.1 = r.source) &&
          Handshake.acknowledges (buf.recvfrom d).header x.2 then
        some r.source
      else none

def watch (r : ServerRead κ) (out : List (κ × Packet)) (program : ServerProgram κ)
    (w : Watched κ) : Watched κ :=
  match w.program with
  | .handshake buf _ =>
      { w with
        program
        sent := w.sent ++ out.map fun x => (x.1, x.2.hdr.seqNum)
        acked := w.acked.or (finalAckFrom buf r w.sent) }
  | .fileName _ _ =>
      { w with
        program
        named := if program.opened.isSome then r.datagram.map fun d => (r.source, d) else none }
  | .chat _ _ | .transfer _ _ | .exited _ => { w with program }

def step (r : ServerRead κ) (w : Watched κ) : Option (Watched κ × List (κ × Packet)) :=
  (ServerProgram.step false (.recvfrom r) w.program).map fun x => (w.watch r x.2 x.1, x.2)

def machine : Mealy (ServerRead κ) (κ × Packet) (Watched κ) := ⟨step⟩

end Steps

def start (buf : RecvBuffer) (cliaddr : κ) : Watched κ := { program := .start buf cliaddr }

/--
A final ACK is read right after the SYN-ACK it acknowledges, and the client's
file-name packet right after its final ACK.
-/
def InTurn (names : κ → NameDatagram) (w : Watched κ) (r : ServerRead κ) : Prop :=
  match w.program with
  | .handshake buf h => ∀ d srvSeq, r.datagram = some d → (r.source, srvSeq) ∈ w.sent →
      Handshake.acknowledges (buf.recvfrom d).header srvSeq = true → h.pc = .awaitAck srvSeq
  | .fileName _ _ => ∀ k, w.acked = some k →
      r.source = k ∧ r.datagram = some (names k).toDatagram
  | .chat _ _ | .transfer _ _ | .exited _ => True

variable {names : κ → NameDatagram}

end Watched

end OxyC.Networking
