import OxyC.Foundation.Mealy
import OxyC.Networking.Sham
import Mathlib.Algebra.BigOperators.Fin
import Mathlib.Logic.Function.Basic

/-!
# The client's file-transfer loop

States and steps of `main` in `client.c` from the file-name packet to `close`.
A state records where control stands: at the test of the outer loop, before or
at the `select` of round `i` of the `for` loop, or in the termination loop.
-/

namespace OxyC.Networking

open OxyC.Foundation

def maxInflight : Nat := 10

def rtoMs : Int := 500

structure Timeval where
  sec : Int
  usec : Int
  deriving DecidableEq, Repr

/-- Elapsed milliseconds; C division truncates. -/
def Timeval.msSince (now sent : Timeval) : Int :=
  (now.sec - sent.sec) * 1000 + (now.usec - sent.usec).tdiv 1000

structure OutPkt where
  seq : UInt32
  len : Nat
  data : List UInt8
  acked : Bool
  sent : Timeval
  deriving DecidableEq, Repr

namespace OutPkt

def zeroed : OutPkt := ⟨0, 0, List.replicate shamMtu 0, false, ⟨0, 0⟩⟩

/-- The bytes `sendPacket` copies out of the slot. -/
def bytes (p : OutPkt) : List UInt8 := p.data.take p.len

end OutPkt

inductive ClientPc where
  /-- At the test of `while (!done)`. -/
  | whileTest
  /-- At the head of the `for` body in round `i`. -/
  | round (i : Fin maxInflight)
  /-- At `select` in round `i`. -/
  | select (i : Fin maxInflight)
  /-- At the test of `while (!got_ack || !got_fin)`. -/
  | finTest
  /-- At `recvfrom` of the termination loop. -/
  | finRecv
  | closed
  deriving DecidableEq, Repr

structure Client where
  pc : ClientPc
  input : InputFile UInt8
  inflight : Fin maxInflight → OutPkt
  inUse : Fin maxInflight → Bool
  inFlightBytes : Nat
  base : UInt32
  nextseq : UInt32
  remoteWin : UInt16
  gotAck : Bool
  gotFin : Bool
  /-- The header that the last `recvfrom` left in `buf`. -/
  buf : Header

/-- What one step reads from outside: the datagram `recvfrom` returns, and the clock. -/
structure ClientEnv where
  received : Option Header
  now : Timeval
  /-- The reading taken after slot `i` has been sent again. -/
  resentAt : Fin maxInflight → Timeval

namespace Client

def sendPacket (seq : UInt32) (payload : List UInt8) (win : UInt16) : Packet :=
  ⟨{ seqNum := seq, windowSize := win }, payload⟩

@[simp] theorem has_sendPacket (seq : UInt32) (payload : List UInt8) (win flag : UInt16) :
    (sendPacket seq payload win).hdr.has flag = false := by
  simp [sendPacket, Header.has]

def bytesInUse (c : Client) : Nat := ∑ i, if c.inUse i then (c.inflight i).len else 0

def isDue (now : Timeval) (c : Client) (i : Fin maxInflight) : Bool :=
  c.inUse i && !(c.inflight i).acked && decide (now.msSince (c.inflight i).sent ≥ rtoMs)

def retransmitDue (env : ClientEnv) (c : Client) : Client × List Packet :=
  ({ c with
      inflight := fun i =>
        if c.isDue env.now i then { c.inflight i with sent := env.resentAt i } else c.inflight i },
    ((List.finRange maxInflight).filter (c.isDue env.now)).map fun i =>
      sendPacket (c.inflight i).seq (c.inflight i).bytes c.remoteWin)

/-- ACK processing: in `size_t`, `seq + len` does not wrap. -/
def processAck (h : Header) (c : Client) : Client :=
  let freed := fun i =>
    c.inUse i && decide ((c.inflight i).seq.toNat + (c.inflight i).len ≤ h.ackNum.toNat)
  { c with
    remoteWin := h.windowSize
    inUse := fun i => if freed i then false else c.inUse i
    inflight := fun i => if freed i then { c.inflight i with acked := true } else c.inflight i
    base := h.ackNum }

def recvAck (received : Option Header) (c : Client) : Client :=
  match received with
  | none => c
  | some h =>
      let c := { c with buf := h }
      if h.has shamAck then processAck h c else c

def finPacket (c : Client) : Packet := ⟨{ seqNum := c.nextseq, flags := shamFin }, []⟩

def ackOf (h : Header) : Packet := ⟨{ ackNum := h.seqNum + 1, flags := shamAck }, []⟩

@[simp] theorem has_finPacket (c : Client) : c.finPacket.hdr.has shamFin = true := by
  simp [finPacket, Header.has, shamFin]

@[simp] theorem has_ackOf (h : Header) : (ackOf h).hdr.has shamFin = false := by
  simp [ackOf, Header.has]

/-- `done` has been set: leave both loops, send the first FIN. -/
def leave (c : Client) : Client × List Packet :=
  ({ c with pc := .finTest, gotAck := false, gotFin := false }, [c.finPacket])

/-- `inflight[i]` is filled with the chunk just read and sent. -/
def fill (i : Fin maxInflight) (now : Timeval) (c : Client) : Client × List Packet :=
  let chunk := c.input.chunk shamMtu
  let slot : OutPkt :=
    ⟨c.nextseq, chunk.length, memcpy (c.inflight i).data chunk, false, now⟩
  ({ c with
      pc := .select i
      input := c.input.fread shamMtu
      inflight := Function.update c.inflight i slot
      inUse := Function.update c.inUse i true
      nextseq := c.nextseq + UInt32.ofNat chunk.length
      inFlightBytes := c.inFlightBytes + chunk.length },
    [sendPacket slot.seq slot.bytes c.remoteWin])

/-- `fread` into `inflight[i].data`. -/
def readInto (i : Fin maxInflight) (c : Client) : Client :=
  { c with
    input := c.input.fread shamMtu
    inflight := Function.update c.inflight i
      { c.inflight i with data := memcpy (c.inflight i).data (c.input.chunk shamMtu) } }

def round (i : Fin maxInflight) (now : Timeval) (c : Client) : Client × List Packet :=
  if c.inUse i then ({ c with pc := .select i }, [])
  else if c.input.eof then c.leave
  else if c.inFlightBytes ≥ c.remoteWin.toNat then ({ c with pc := .whileTest }, [])
  else
    let n := (c.input.chunk shamMtu).length
    if n = 0 then (c.readInto i).leave
    else if c.inFlightBytes + n > c.remoteWin.toNat then
      ({ c.readInto i with
          pc := .whileTest, input := (c.input.fread shamMtu).fseekBack n }, [])
    else c.fill i now

/-- `i++` of the `for` loop and its test. -/
def nextRound (i : Fin maxInflight) : ClientPc :=
  if h : i.val + 1 < maxInflight then .round ⟨i.val + 1, h⟩ else .whileTest

/-- The `for` body from `select` on. -/
def poll (i : Fin maxInflight) (env : ClientEnv) (c : Client) : Client × List Packet :=
  retransmitDue env { recvAck env.received c with pc := nextRound i }

/-- One datagram of the termination loop. -/
def recvFin (received : Option Header) (c : Client) : Client × List Packet :=
  let c := { c with pc := .finTest }
  match received with
  | none => (c, [])
  | some h =>
      let c := { c with buf := h }
      if h.has shamAck && h.ackNum == c.nextseq + 1 then ({ c with gotAck := true }, [])
      else if h.has shamFin then ({ c with gotFin := true }, [ackOf h])
      else (c, [])

def step (env : ClientEnv) (c : Client) : Option (Client × List Packet) :=
  match c.pc with
  | .whileTest =>
      some ({ c with pc := .round ⟨0, by decide⟩, inFlightBytes := c.bytesInUse }, [])
  | .round i => some (c.round i env.now)
  | .select i => some (c.poll i env)
  | .finTest =>
      if c.gotAck && c.gotFin then some ({ c with pc := .closed }, [ackOf c.buf])
      else some ({ c with pc := .finRecv }, if c.gotAck then [] else [c.finPacket])
  | .finRecv => some (c.recvFin env.received)
  | .closed => none

def machine : Mealy ClientEnv Packet Client := ⟨step⟩

def start (cliSeq : UInt32) (outname contents : List UInt8) (synAck : Header) : Client where
  pc := .whileTest
  input := .fopen contents
  inflight := fun _ => .zeroed
  inUse := fun _ => false
  inFlightBytes := 0
  base := cliSeq + 1
  nextseq :=
    if outname.length > 0 then cliSeq + 1 + UInt32.ofNat outname.length else cliSeq + 1
  remoteWin := synAck.windowSize
  gotAck := false
  gotFin := false
  buf := synAck

def namePacket (cliSeq : UInt32) (outname : List UInt8) (win : UInt16) : Packet :=
  sendPacket (cliSeq + 1) outname win

def sending (c : Client) : Bool :=
  match c.pc with
  | .whileTest | .round _ | .select _ => true
  | .finTest | .finRecv | .closed => false

/-- The next step sets `done`: a slot is free and the file is at its end. -/
def setsDone (c : Client) : Bool :=
  match c.pc with
  | .round i =>
      !c.inUse i && (c.input.eof ||
        (decide (c.inFlightBytes < c.remoteWin.toNat) &&
          decide ((c.input.chunk shamMtu).length = 0)))
  | _ => false

theorem round_cases (i : Fin maxInflight) (now : Timeval) (c : Client) :
    (c.inUse i = true ∧ c.round i now = ({ c with pc := .select i }, [])) ∨
    (c.inUse i = false ∧ c.input.eof = true ∧ c.round i now = c.leave) ∨
    (c.inUse i = false ∧ c.input.eof = false ∧ c.remoteWin.toNat ≤ c.inFlightBytes ∧
      c.round i now = ({ c with pc := .whileTest }, [])) ∨
    (c.inUse i = false ∧ c.input.eof = false ∧ c.inFlightBytes < c.remoteWin.toNat ∧
      (c.input.chunk shamMtu).length = 0 ∧ c.round i now = (c.readInto i).leave) ∨
    (c.inUse i = false ∧ c.input.eof = false ∧ c.inFlightBytes < c.remoteWin.toNat ∧
      0 < (c.input.chunk shamMtu).length ∧
      c.remoteWin.toNat < c.inFlightBytes + (c.input.chunk shamMtu).length ∧
      c.round i now = ({ c.readInto i with
        pc := .whileTest
        input := (c.input.fread shamMtu).fseekBack (c.input.chunk shamMtu).length }, [])) ∨
    (c.inUse i = false ∧ c.input.eof = false ∧ c.inFlightBytes < c.remoteWin.toNat ∧
      0 < (c.input.chunk shamMtu).length ∧
      c.inFlightBytes + (c.input.chunk shamMtu).length ≤ c.remoteWin.toNat ∧
      c.round i now = c.fill i now) := by
  cases huse : c.inUse i with
  | true => exact .inl ⟨rfl, by simp [round, huse]⟩
  | false =>
      refine .inr ?_
      cases heof : c.input.eof with
      | true => exact .inl ⟨rfl, rfl, by simp [round, huse, heof]⟩
      | false =>
          refine .inr ?_
          by_cases hwin : c.remoteWin.toNat ≤ c.inFlightBytes
          · exact .inl ⟨rfl, rfl, hwin, by simp [round, huse, heof, hwin]⟩
          · refine .inr ?_
            have hlt : c.inFlightBytes < c.remoteWin.toNat := by omega
            by_cases hn : (c.input.chunk shamMtu).length = 0
            · exact .inl ⟨rfl, rfl, hlt, hn, by simp only [round, huse, heof, hwin, hn]; simp⟩
            · refine .inr ?_
              have hpos : 0 < (c.input.chunk shamMtu).length := by omega
              by_cases hfit : c.inFlightBytes + (c.input.chunk shamMtu).length >
                  c.remoteWin.toNat
              · exact .inl ⟨rfl, rfl, hlt, hpos, hfit, by
                  simp only [round, huse, heof, hwin, hn, hfit]; simp⟩
              · exact .inr ⟨rfl, rfl, hlt, hpos, by omega, by
                  simp only [round, huse, heof, hwin, hn, hfit]; simp⟩

theorem step_cases {env : ClientEnv} {c c' : Client} {out : List Packet}
    (h : c.step env = some (c', out)) :
    (c.pc = .whileTest ∧ out = [] ∧
      c' = { c with pc := .round ⟨0, by decide⟩, inFlightBytes := c.bytesInUse }) ∨
    (∃ i, c.pc = .round i ∧ c.round i env.now = (c', out)) ∨
    (∃ i, c.pc = .select i ∧ c.poll i env = (c', out)) ∨
    (c.pc = .finTest ∧ c' = { c with pc := .closed } ∧ out = [ackOf c.buf]) ∨
    (c.pc = .finTest ∧ c' = { c with pc := .finRecv } ∧ ∀ p ∈ out, p = c.finPacket) ∨
    (c.pc = .finRecv ∧ c.recvFin env.received = (c', out)) := by
  unfold step at h
  split at h
  · rename_i hpc
    simp only [Option.some.injEq, Prod.mk.injEq] at h
    exact .inl ⟨hpc, h.2.symm, h.1.symm⟩
  · rename_i i hpc
    exact .inr (.inl ⟨i, hpc, by simpa using h⟩)
  · rename_i i hpc
    exact .inr (.inr (.inl ⟨i, hpc, by simpa using h⟩))
  · rename_i hpc
    split at h
    · simp only [Option.some.injEq, Prod.mk.injEq] at h
      exact .inr (.inr (.inr (.inl ⟨hpc, h.1.symm, h.2.symm⟩)))
    · simp only [Option.some.injEq, Prod.mk.injEq] at h
      refine .inr (.inr (.inr (.inr (.inl ⟨hpc, h.1.symm, ?_⟩))))
      intro p hp
      rw [← h.2] at hp
      split at hp
      · simp at hp
      · simpa using hp
  · rename_i hpc
    exact .inr (.inr (.inr (.inr (.inr ⟨hpc, by simpa using h⟩))))
  · simp at h

theorem inUse_round {i j : Fin maxInflight} {now : Timeval} {c c' : Client}
    {out : List Packet} (h : c.round i now = (c', out)) (huse : c.inUse j = true) :
    c'.inUse j = true := by
  obtain rfl : (c.round i now).1 = c' := by simp [h]
  rcases c.round_cases i now with
    ⟨-, heq⟩ | ⟨-, -, heq⟩ | ⟨-, -, -, heq⟩ | ⟨-, -, -, -, heq⟩ | ⟨-, -, -, -, -, heq⟩ |
    ⟨-, -, -, -, -, heq⟩ <;> rw [heq]
  · exact huse
  · exact huse
  · exact huse
  · exact huse
  · exact huse
  · by_cases hji : j = i <;> simp [fill, hji, huse]

theorem frame_recvFin {received : Option Header} {c c' : Client} {out : List Packet}
    (h : c.recvFin received = (c', out)) :
    c'.inUse = c.inUse ∧ c'.inflight = c.inflight ∧ c'.input = c.input ∧
      c'.nextseq = c.nextseq ∧ c'.pc = .finTest ∧ ∀ p ∈ out, ∃ hdr, p = ackOf hdr := by
  unfold recvFin at h
  cases received with
  | none =>
      cases h
      simp
  | some hdr =>
      dsimp only at h
      split at h
      · cases h
        simp
      · split at h <;> cases h <;> simp

/-- A slot is freed only by an ACK read in the send loop, for all of the slot's bytes. -/
theorem acked_of_freed {env : ClientEnv} {c c' : Client} {out : List Packet}
    {j : Fin maxInflight} (h : c.step env = some (c', out)) (huse : c.inUse j = true)
    (hfree : c'.inUse j = false) :
    c.sending = true ∧ ∃ hdr, env.received = some hdr ∧ hdr.has shamAck = true ∧
      (c.inflight j).seq.toNat + (c.inflight j).len ≤ hdr.ackNum.toNat := by
  rcases step_cases h with
    ⟨-, -, rfl⟩ | ⟨i, -, hround⟩ | ⟨i, hpc, hpoll⟩ | ⟨-, rfl, -⟩ | ⟨-, rfl, -⟩ | ⟨-, hrecv⟩
  · simp [huse] at hfree
  · simp [inUse_round hround huse] at hfree
  · refine ⟨by simp [sending, hpc], ?_⟩
    obtain rfl : (c.poll i env).1 = c' := by simp [hpoll]
    simp only [poll, retransmitDue, recvAck] at hfree
    cases hreceived : env.received with
    | none => simp [hreceived, huse] at hfree
    | some hdr =>
        rw [hreceived] at hfree
        dsimp only at hfree
        split at hfree
        · rename_i hflag
          refine ⟨hdr, rfl, hflag, ?_⟩
          simp only [processAck, huse, Bool.true_and] at hfree
          by_contra hle
          simp [hle] at hfree
        · simp [huse] at hfree
  · simp [huse] at hfree
  · simp [huse] at hfree
  · rw [(frame_recvFin hrecv).1, huse] at hfree
    simp at hfree

@[simp] theorem nextRound_ne_finTest (i : Fin maxInflight) : nextRound i ≠ .finTest := by
  unfold nextRound
  split <;> simp

theorem sending_poll (i : Fin maxInflight) (env : ClientEnv) (c : Client) :
    (c.poll i env).1.sending = true := by
  simp only [poll, retransmitDue, sending, nextRound]
  split <;> rename_i heq <;> split at heq <;> simp_all

/-- The send loop is left at the end of the file, with the slots as they are. -/
theorem setsDone_of_left {env : ClientEnv} {c c' : Client} {out : List Packet}
    (h : c.step env = some (c', out)) (hsending : c.sending = true)
    (hleft : c'.sending = false) :
    c.setsDone = true ∧ c'.inUse = c.inUse ∧ c'.nextseq = c.nextseq ∧
      c.input.pos = c.input.contents.length := by
  rcases step_cases h with
    ⟨-, -, rfl⟩ | ⟨i, hpc, hround⟩ | ⟨i, hpc, hpoll⟩ | ⟨hpc, -⟩ | ⟨hpc, -⟩ | ⟨hpc, -⟩
  · simp [sending] at hleft
  · obtain rfl : (c.round i env.now).1 = c' := by simp [hround]
    rcases c.round_cases i env.now with
      ⟨-, heq⟩ | ⟨hfree, heof, heq⟩ | ⟨-, -, -, heq⟩ | ⟨hfree, heof, hwin, hzero, heq⟩ |
      ⟨-, -, -, -, -, heq⟩ | ⟨-, -, -, -, -, heq⟩ <;> rw [heq] at hleft ⊢
    · simp [sending] at hleft
    · exact ⟨by simp [setsDone, hpc, hfree, heof], rfl, rfl, c.input.pos_of_eof heof⟩
    · simp [sending] at hleft
    · exact ⟨by simp [setsDone, hpc, hfree, hwin, hzero], rfl, rfl,
        InputFile.pos_of_chunk_empty (by decide) hzero⟩
    · simp [sending] at hleft
    · simp [sending, fill] at hleft
  · have hstill := sending_poll i env c
    rw [hpoll, hleft] at hstill
    simp at hstill
  · simp [sending, hpc] at hsending
  · simp [sending, hpc] at hsending
  · simp [sending, hpc] at hsending

theorem sending_of_step {env : ClientEnv} {c c' : Client} {out : List Packet}
    (h : c.step env = some (c', out)) (hsending : c'.sending = true) : c.sending = true := by
  rcases step_cases h with
    ⟨hpc, -⟩ | ⟨i, hpc, -⟩ | ⟨i, hpc, -⟩ | ⟨-, rfl, -⟩ | ⟨-, rfl, -⟩ | ⟨-, hrecv⟩
  · simp [sending, hpc]
  · simp [sending, hpc]
  · simp [sending, hpc]
  · simp [sending] at hsending
  · simp [sending] at hsending
  · simp [sending, (frame_recvFin hrecv).2.2.2.2.1] at hsending

theorem frame_of_not_sending {env : ClientEnv} {c c' : Client} {out : List Packet}
    (h : c.step env = some (c', out)) (hleft : c.sending = false) :
    c'.inUse = c.inUse ∧ c'.nextseq = c.nextseq := by
  rcases step_cases h with
    ⟨hpc, -⟩ | ⟨i, hpc, -⟩ | ⟨i, hpc, -⟩ | ⟨-, rfl, -⟩ | ⟨-, rfl, -⟩ | ⟨-, hrecv⟩
  · simp [sending, hpc] at hleft
  · simp [sending, hpc] at hleft
  · simp [sending, hpc] at hleft
  · exact ⟨rfl, rfl⟩
  · exact ⟨rfl, rfl⟩
  · obtain ⟨huse, -, -, hnext, -⟩ := frame_recvFin hrecv
    exact ⟨huse, hnext⟩

end Client

end OxyC.Networking
