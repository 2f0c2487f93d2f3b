import OxyC.Foundation.Mealy
import OxyC.Networking.Sham

/-!
# The server's handshake loop

`main` in `server.c` from its first `recvfrom` to the `break`.  Every
`recvfrom` overwrites `cliaddr`, and a SYN overwrites the stored numbers; one
datagram after each SYN-ACK has the chance to be the final ACK.
-/

namespace OxyC.Networking

open OxyC.Foundation

inductive HandshakePc where
  /-- At the first `recvfrom` of the loop. -/
  | listening
  /-- At the second `recvfrom`, after the SYN-ACK numbered `srvSeq`. -/
  | awaitAck (srvSeq : UInt32)
  /-- After `break`. -/
  | complete
  deriving DecidableEq, Repr

structure Handshake (κ : Type*) where
  pc : HandshakePc
  clientIsn : UInt32
  serverSeq : UInt32
  cliaddr : κ

/-- What one `recvfrom` of the loop returns: no header stands for `r <= 0`. -/
structure HandshakeRead (κ : Type*) where
  source : κ
  header : Option Header
  /-- The value of `rand32()`, if it is called. -/
  rand32 : UInt32 := 0

namespace Handshake

variable {κ : Type*}

/-- The locals on entry to the loop; `cliaddr` is not initialised. -/
def start (cliaddr : κ) : Handshake κ := ⟨.listening, 0, 0, cliaddr⟩

def synAck (srvSeq clientIsn : UInt32) : Packet :=
  ⟨⟨srvSeq, clientIsn + 1, shamSyn ||| shamAck, defaultWin⟩, []⟩

def acknowledges (hdr : Header) (srvSeq : UInt32) : Bool :=
  hdr.has shamAck && hdr.ackNum == srvSeq + 1

def listen (hdr : Header) (i : HandshakeRead κ) (s : Handshake κ) :
    Handshake κ × List (κ × Packet) :=
  if hdr.has shamSyn then
    let srvSeq := i.rand32 &&& 0x7fffffff
    (⟨.awaitAck srvSeq, hdr.seqNum, srvSeq, i.source⟩, [(i.source, synAck srvSeq hdr.seqNum)])
  else ({ s with cliaddr := i.source }, [])

def step (i : HandshakeRead κ) (s : Handshake κ) :
    Option (Handshake κ × List (κ × Packet)) :=
  match s.pc with
  | .listening =>
      match i.header with
      | none => some ({ s with cliaddr := i.source }, [])
      | some hdr => some (s.listen hdr i)
  | .awaitAck srvSeq =>
      match i.header with
      | none => some ({ s with pc := .listening, cliaddr := i.source }, [])
      | some hdr =>
          let pc := if acknowledges hdr srvSeq then HandshakePc.complete else .listening
          some ({ s with pc, cliaddr := i.source }, [])
  | .complete => none

def machine : Mealy (HandshakeRead κ) (κ × Packet) (Handshake κ) := ⟨step⟩

/-- A step answers a SYN, completes the handshake, or leaves only `cliaddr` behind. -/
theorem step_cases {i : HandshakeRead κ} {s s' : Handshake κ} {out : List (κ × Packet)}
    (h : s.step i = some (s', out)) :
    (∃ hdr, s.pc = .listening ∧ i.header = some hdr ∧ hdr.has shamSyn = true ∧
      s' = ⟨.awaitAck (i.rand32 &&& 0x7fffffff), hdr.seqNum, i.rand32 &&& 0x7fffffff,
        i.source⟩ ∧
      out = [(i.source, synAck (i.rand32 &&& 0x7fffffff) hdr.seqNum)]) ∨
    (∃ hdr srvSeq, s.pc = .awaitAck srvSeq ∧ i.header = some hdr ∧
      acknowledges hdr srvSeq = true ∧
      s' = { s with pc := .complete, cliaddr := i.source } ∧ out = []) ∨
    (s' = { s with pc := .listening, cliaddr := i.source } ∧ out = [] ∧
      (s.pc = .listening ∨ ∃ srvSeq, s.pc = .awaitAck srvSeq ∧
        ∀ hdr, i.header = some hdr → acknowledges hdr srvSeq = false)) := by
  unfold step at h
  cases hpc : s.pc with
  | listening =>
      rw [hpc] at h
      cases hheader : i.header with
      | none =>
          rw [hheader] at h
          cases h
          exact .inr (.inr ⟨rfl, rfl, .inl rfl⟩)
      | some hdr =>
          simp only [hheader, listen, Option.some.injEq] at h
          split at h
          · rename_i hsyn
            cases h
            exact .inl ⟨hdr, rfl, rfl, hsyn, rfl, rfl⟩
          · cases h
            exact .inr (.inr ⟨by rw [hpc], rfl, .inl rfl⟩)
  | awaitAck srvSeq =>
      rw [hpc] at h
      cases hheader : i.header with
      | none =>
          rw [hheader] at h
          cases h
          exact .inr (.inr ⟨rfl, rfl, .inr ⟨srvSeq, rfl, by simp⟩⟩)
      | some hdr =>
          simp only [hheader, Option.some.injEq, Prod.mk.injEq] at h
          obtain ⟨rfl, rfl⟩ := h
          cases hack : acknowledges hdr srvSeq with
          | true => exact .inr (.inl ⟨hdr, srvSeq, rfl, rfl, hack, by simp, rfl⟩)
          | false =>
              refine .inr (.inr ⟨by simp, rfl, .inr ⟨srvSeq, rfl, ?_⟩⟩)
              intro hdr' heq
              cases heq
              exact hack
  | complete => simp [hpc] at h

theorem acknowledges_iff {hdr : Header} {srvSeq : UInt32} :
    acknowledges hdr srvSeq = true ↔ hdr.has shamAck = true ∧ hdr.ackNum = srvSeq + 1 := by
  simp [acknowledges]

end Handshake

end OxyC.Networking
