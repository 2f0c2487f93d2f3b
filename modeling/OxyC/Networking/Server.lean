import OxyC.Foundation.Mealy
import OxyC.Networking.Reassembly

/-!
# The server's file-transfer loop

States and steps of `main` in `server.c` from the file-name packet to the end
of the receive loop.  `recvfrom` blocks, so every step reads one datagram.
-/

namespace OxyC.Networking

open OxyC.Foundation

inductive ServerPhase where
  /-- At `recvfrom` of the receive loop. -/
  | receiving
  /-- After the FIN branch has answered, at its own `recvfrom`. -/
  | finalAck
  /-- After `break`. -/
  | closed
  deriving DecidableEq, Repr

structure Server where
  phase : ServerPhase
  serverSeq : UInt32
  reassembly : Reassembly

/-- A datagram and the outcome of `should_drop` for it. -/
structure Arrival where
  packet : Packet
  shouldDrop : Bool := false
  deriving DecidableEq, Repr

namespace Server

/-- The size of `outname`, its terminator included. -/
def outnameSize : Nat := 256

/--
The file-name packet: the name given to `fopen` and the state in which the
receive loop starts.  A datagram without payload ends the program.
-/
def receiveName (serverSeq : UInt32) (name : Packet) : Option (List UInt8 × Server) :=
  if name.data.length = 0 then none
  else
    let fnameLen :=
      if name.data.length ≥ outnameSize then outnameSize - 1 else name.data.length
    some (name.data.take fnameLen,
      { phase := .receiving
        serverSeq
        reassembly := .start (name.hdr.seqNum + UInt32.ofNat fnameLen) })

def finReply (seq : UInt32) : Packet := ⟨{ ackNum := seq + 1, flags := shamAck }, []⟩

def finOf (serverSeq : UInt32) : Packet := ⟨{ seqNum := serverSeq, flags := shamFin }, []⟩

def cumulativeAck (r : Reassembly) : Packet :=
  ⟨{ ackNum := r.expected, flags := shamAck, windowSize := r.avail }, []⟩

def step (a : Arrival) (s : Server) : Option (Server × List Packet) :=
  match s.phase with
  | .receiving =>
      if a.shouldDrop then some (s, [])
      else if a.packet.hdr.has shamFin then
        some ({ s with phase := .finalAck, serverSeq := s.serverSeq + 1 },
          [finReply a.packet.hdr.seqNum, finOf s.serverSeq])
      else
        match s.reassembly.receive a.packet.hdr.seqNum a.packet.data with
        | none => none
        | some r => some ({ s with reassembly := r }, [cumulativeAck r])
  | .finalAck => some ({ s with phase := .closed }, [])
  | .closed => none

def machine : Mealy Arrival Packet Server := ⟨step⟩

theorem step_cases {a : Arrival} {s s' : Server} {out : List Packet}
    (h : step a s = some (s', out)) :
    (s.phase = .receiving ∧ a.shouldDrop = true ∧ s' = s ∧ out = []) ∨
    (s.phase = .receiving ∧ a.packet.hdr.has shamFin = true ∧
      s' = { s with phase := .finalAck, serverSeq := s.serverSeq + 1 } ∧
      out = [finReply a.packet.hdr.seqNum, finOf s.serverSeq]) ∨
    (s.phase = .receiving ∧ a.packet.hdr.has shamFin = false ∧
      ∃ r, s.reassembly.receive a.packet.hdr.seqNum a.packet.data = some r ∧
        s' = { s with reassembly := r } ∧ out = [cumulativeAck r]) ∨
    (s.phase = .finalAck ∧ s' = { s with phase := .closed } ∧ out = []) := by
  unfold step at h
  split at h
  · rename_i hphase
    split at h
    · rename_i hdrop
      simp only [Option.some.injEq, Prod.mk.injEq] at h
      exact .inl ⟨hphase, hdrop, h.1.symm, h.2.symm⟩
    · split at h
      · rename_i hfin
        simp only [Option.some.injEq, Prod.mk.injEq] at h
        exact .inr (.inl ⟨hphase, hfin, h.1.symm, h.2.symm⟩)
      · rename_i hfin
        split at h
        · simp at h
        · rename_i r hr
          simp only [Option.some.injEq, Prod.mk.injEq] at h
          exact .inr (.inr (.inl
            ⟨hphase, Bool.eq_false_iff.mpr hfin, r, hr, h.1.symm, h.2.symm⟩))
  · rename_i hphase
    simp only [Option.some.injEq, Prod.mk.injEq] at h
    exact .inr (.inr (.inr ⟨hphase, h.1.symm, h.2.symm⟩))
  · simp at h

theorem occupied_step_le {a : Arrival} {s s' : Server} {out : List Packet}
    (h : step a s = some (s', out)) :
    Reassembly.occupied s'.reassembly.bufs ≤ Reassembly.occupied s.reassembly.bufs + 1 := by
  rcases step_cases h with
    ⟨-, -, rfl, -⟩ | ⟨-, -, rfl, -⟩ | ⟨-, -, r, hr, rfl, -⟩ | ⟨-, rfl, -⟩
  · exact Nat.le_succ _
  · exact Nat.le_succ _
  · exact Reassembly.occupied_receive_le hr
  · exact Nat.le_succ _

end Server

end OxyC.Networking
