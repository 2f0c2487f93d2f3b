import OxyC.Networking.Stream
import Mathlib.Algebra.Order.BigOperators.Group.Finset

/-!
# Window, slots and polls of the send loop

The client alone, against datagrams of any content at any moment.  A new
segment stays within the window received last, the slots in use hold disjoint
ranges, and a pass of the outer loop polls the socket unless slot 0 is free and
the window has no room for the next chunk.
-/

namespace OxyC.Networking

open OxyC.Foundation

namespace Client

def slotEnd (c : Client) (i : Fin maxInflight) : Nat :=
  (c.inflight i).seq.toNat + (c.inflight i).len

/-- The slots in use hold pairwise disjoint ranges, all below `nextseq`. -/
structure Ranges (c : Client) : Prop where
  end_le : ∀ i, c.inUse i = true → c.slotEnd i ≤ c.nextseq.toNat
  disjoint : ∀ i j, i ≠ j → c.inUse i = true → c.inUse j = true →
    c.slotEnd i ≤ (c.inflight j).seq.toNat ∨ c.slotEnd j ≤ (c.inflight i).seq.toNat

structure SameSlot (c c' : Client) (i : Fin maxInflight) : Prop where
  seq : (c'.inflight i).seq = (c.inflight i).seq
  len : (c'.inflight i).len = (c.inflight i).len
  data : (c'.inflight i).data = (c.inflight i).data

/-- A step that sends no new segment: the slots in use can only become fewer. -/
structure Shrinks (c c' : Client) : Prop where
  nextseq : c'.nextseq = c.nextseq
  contents : c'.input.contents = c.input.contents
  pos : c.input.pos ≤ c'.input.pos
  inUse : ∀ i, c'.inUse i = true → c.inUse i = true
  slot : ∀ i, c.inUse i = true → SameSlot c c' i

def Transmits (c c' : Client) (i : Fin maxInflight) : Prop :=
  c.inUse i = false ∧ c'.inUse i = true

def inPass (c : Client) : Bool :=
  match c.pc with
  | .round _ | .select _ => true
  | .whileTest | .finTest | .finRecv | .closed => false

theorem Shrinks.refl (c : Client) : Shrinks c c where
  nextseq := rfl
  contents := rfl
  pos := le_rfl
  inUse _ hi := hi
  slot _ _ := ⟨rfl, rfl, rfl⟩

theorem Shrinks.congr {c d d' : Client} (h : Shrinks c d) (hnext : d'.nextseq = d.nextseq)
    (hinput : d'.input = d.input) (huse : d'.inUse = d.inUse)
    (hinflight : d'.inflight = d.inflight) : Shrinks c d' := by
  constructor
  · exact hnext.trans h.nextseq
  · rw [hinput, h.contents]
  · rw [hinput]
    exact h.pos
  · rw [huse]
    exact h.inUse
  · intro i hi
    constructor <;> rw [hinflight]
    · exact (h.slot i hi).seq
    · exact (h.slot i hi).len
    · exact (h.slot i hi).data

theorem Shrinks.readInto {c : Client} {i : Fin maxInflight} (hfree : c.inUse i = false)
    {input : InputFile UInt8} (hcontents : input.contents = c.input.contents)
    (hpos : c.input.pos ≤ input.pos) (pc : ClientPc) :
    Shrinks c { c.readInto i with pc := pc, input := input } where
  nextseq := rfl
  contents := hcontents
  pos := hpos
  inUse _ hj := hj
  slot j hj := by
    have hne : j ≠ i := by
      intro heq
      rw [heq, hfree] at hj
      simp at hj
    constructor <;> simp [Client.readInto, hne]

theorem Shrinks.poll (c : Client) (i : Fin maxInflight) (env : ClientEnv) :
    Shrinks c (c.poll i env).1 := by
  have hrecv : Shrinks c (c.recvAck env.received) := by
    unfold recvAck
    cases env.received with
    | none => exact .refl c
    | some hdr =>
        dsimp only
        split
        · constructor
          · rfl
          · rfl
          · exact le_rfl
          · intro j hj
            simp only [processAck] at hj
            split at hj
            · simp at hj
            · exact hj
          · intro j _
            constructor <;> simp only [processAck] <;> split <;> rfl
        · exact (Shrinks.refl c).congr rfl rfl rfl rfl
  constructor
  · exact hrecv.nextseq
  · exact hrecv.contents
  · exact hrecv.pos
  · exact hrecv.inUse
  · intro j hj
    have hslot := hrecv.slot j hj
    constructor <;> simp only [Client.poll, retransmitDue] <;> split
    · exact hslot.seq
    · exact hslot.seq
    · exact hslot.len
    · exact hslot.len
    · exact hslot.data
    · exact hslot.data

theorem round_fills {i : Fin maxInflight} {now : Timeval} {c c' : Client} {out : List Packet}
    (h : c.round i now = (c', out)) :
    (c.inUse i = false ∧
      c.inFlightBytes + (c.input.chunk shamMtu).length ≤ c.remoteWin.toNat ∧
      (c', out) = c.fill i now) ∨
    (Shrinks c c' ∧ c'.inFlightBytes = c.inFlightBytes) := by
  rcases c.round_cases i now with
    ⟨-, heq⟩ | ⟨-, -, heq⟩ | ⟨-, -, -, heq⟩ | ⟨hfree, -, -, -, heq⟩ |
    ⟨hfree, -, -, -, -, heq⟩ | ⟨hfree, -, -, -, hfit, heq⟩ <;>
    rw [h] at heq
  · cases heq
    exact .inr ⟨(Shrinks.refl c).congr rfl rfl rfl rfl, rfl⟩
  · cases heq
    exact .inr ⟨(Shrinks.refl c).congr rfl rfl rfl rfl, rfl⟩
  · cases heq
    exact .inr ⟨(Shrinks.refl c).congr rfl rfl rfl rfl, rfl⟩
  · cases heq
    have hread := Shrinks.readInto (c := c) hfree
      (InputFile.contents_fread shamMtu c.input) (by simp) .finTest
    exact .inr ⟨hread.congr rfl rfl rfl rfl, rfl⟩
  · cases heq
    exact .inr ⟨.readInto hfree (by simp) (by simp) .whileTest, rfl⟩
  · exact .inl ⟨hfree, hfit, heq⟩

theorem step_slots {env : ClientEnv} {c c' : Client} {out : List Packet}
    (h : c.step env = some (c', out)) :
    (∃ i, c.pc = .round i ∧ c.inUse i = false ∧
      c.inFlightBytes + (c.input.chunk shamMtu).length ≤ c.remoteWin.toNat ∧
      (c', out) = c.fill i env.now) ∨
    (Shrinks c c' ∧ (c'.inPass = true →
      c'.inFlightBytes = if c.pc = .whileTest then c.bytesInUse else c.inFlightBytes)) := by
  rcases step_cases h with
    ⟨hpc, -, rfl⟩ | ⟨i, hpc, hround⟩ | ⟨i, hpc, hpoll⟩ | ⟨-, rfl, -⟩ | ⟨-, rfl, -⟩ | ⟨-, hrecv⟩
  · right
    refine ⟨(Shrinks.refl c).congr rfl rfl rfl rfl, ?_⟩
    simp [hpc]
  · rcases round_fills hround with ⟨hfree, hfit, heq⟩ | ⟨hshrinks, hbytes⟩
    · exact .inl ⟨i, hpc, hfree, hfit, heq⟩
    · exact .inr ⟨hshrinks, by simp [hpc, hbytes]⟩
  · right
    obtain rfl : (c.poll i env).1 = c' := by rw [hpoll]
    refine ⟨.poll c i env, ?_⟩
    intro _
    simp only [hpc, reduceCtorEq, if_false, poll, retransmitDue, recvAck]
    cases env.received with
    | none => rfl
    | some hdr =>
        dsimp only
        split <;> rfl
  · right
    exact ⟨(Shrinks.refl c).congr rfl rfl rfl rfl, by simp [inPass]⟩
  · right
    exact ⟨(Shrinks.refl c).congr rfl rfl rfl rfl, by simp [inPass]⟩
  · right
    obtain ⟨huse, hinflight, hinput, hnext, hpc, -⟩ := frame_recvFin hrecv
    exact ⟨(Shrinks.refl c).congr hnext hinput huse hinflight, by simp [inPass, hpc]⟩

theorem Shrinks.ranges {c c' : Client} (h : Shrinks c c') (hc : c.Ranges) : c'.Ranges := by
  constructor
  · intro i hi
    have huse := h.inUse i hi
    have hslot := h.slot i huse
    rw [slotEnd, hslot.seq, hslot.len, h.nextseq]
    exact hc.end_le i huse
  · intro i j hij hi hj
    have hi := h.inUse i hi
    have hj := h.inUse j hj
    have hsloti := h.slot i hi
    have hslotj := h.slot j hj
    rw [slotEnd, slotEnd, hsloti.seq, hsloti.len, hslotj.seq, hslotj.len]
    exact hc.disjoint i j hij hi hj

theorem Shrinks.bytesInUse_le {c c' : Client} (h : Shrinks c c') :
    c'.bytesInUse ≤ c.bytesInUse := by
  unfold bytesInUse
  apply Finset.sum_le_sum
  intro i _
  by_cases hi : c'.inUse i = true
  · have huse := h.inUse i hi
    simp [hi, huse, (h.slot i huse).len]
  · simp [hi]

theorem bytesInUse_fill {c : Client} {i : Fin maxInflight} (hfree : c.inUse i = false)
    (now : Timeval) :
    (c.fill i now).1.bytesInUse = c.bytesInUse + (c.input.chunk shamMtu).length := by
  have hrest : ∀ j ∈ Finset.univ.erase i,
      (if (c.fill i now).1.inUse j then ((c.fill i now).1.inflight j).len else 0) =
        if c.inUse j then (c.inflight j).len else 0 := by
    intro j hj
    have hne : j ≠ i := Finset.ne_of_mem_erase hj
    simp [fill, hne]
  unfold bytesInUse
  rw [← Finset.sum_erase_add _ _ (Finset.mem_univ i), Finset.sum_congr rfl hrest,
    ← Finset.sum_erase_add _ _ (Finset.mem_univ i)]
  simp [fill, hfree]

/-- What the send loop keeps about its slots, its byte count and the stream position. -/
structure Accounted (c : Client) : Prop where
  ranges : c.Ranges
  room : c.nextseq.toNat + (c.input.contents.length - c.input.pos) < 2 ^ 32
  counted : c.inPass = true → c.bytesInUse ≤ c.inFlightBytes

theorem accounted_start {cliSeq : UInt32} {outname contents : List UInt8}
    (hlt : cliSeq.toNat + 1 + outname.length + contents.length < 2 ^ 32) (synAck : Header) :
    Accounted (start cliSeq outname contents synAck) := by
  have hone : (cliSeq + 1).toNat = cliSeq.toNat + 1 := by
    rw [UInt32.toNat_add]
    simp
    omega
  constructor
  · constructor <;> simp [start]
  · simp only [start, InputFile.contents_fopen, InputFile.pos_fopen, Nat.sub_zero]
    split
    · rw [toNat_add_ofNat, hone]
      · exact hlt
      · omega
    · omega
  · simp [inPass, start]

theorem Accounted.nextseq_fill {c : Client} (h : c.Accounted) (i : Fin maxInflight)
    (now : Timeval) :
    (c.fill i now).1.nextseq.toNat = c.nextseq.toNat + (c.input.chunk shamMtu).length := by
  have hroom := h.room
  have hle := c.input.pos_add_length_chunk_le shamMtu
  simp only [fill]
  rw [toNat_add_ofNat]
  omega

theorem Accounted.fill {c : Client} (h : c.Accounted) {i : Fin maxInflight} {now : Timeval}
    (hfree : c.inUse i = false) (hpc : c.pc = .round i) : (c.fill i now).1.Accounted := by
  have hnext := h.nextseq_fill i now
  have hnew : (c.fill i now).1.slotEnd i = (c.fill i now).1.nextseq.toNat := by
    rw [hnext]
    simp [slotEnd, Client.fill]
  have hold : ∀ j, j ≠ i → (c.fill i now).1.inUse j = true → c.inUse j = true ∧
      (c.fill i now).1.slotEnd j = c.slotEnd j ∧
      ((c.fill i now).1.inflight j).seq = (c.inflight j).seq := by
    intro j hne hj
    simp only [Client.fill, ne_eq, hne, not_false_eq_true, Function.update_of_ne] at hj
    simp [Client.fill, slotEnd, hne, hj]
  constructor
  · constructor
    · intro j hj
      by_cases hji : j = i
      · rw [hji, hnew]
      · obtain ⟨huse, hend, -⟩ := hold j hji hj
        have := h.ranges.end_le j huse
        omega
    · intro j k hjk hj hk
      by_cases hji : j = i
      · right
        have hki : k ≠ i := by
          rw [← hji]
          exact hjk.symm
        obtain ⟨huse, hend, -⟩ := hold k hki hk
        rw [hend, hji]
        simpa [Client.fill] using h.ranges.end_le k huse
      · obtain ⟨huse, hend, hseq⟩ := hold j hji hj
        by_cases hki : k = i
        · left
          rw [hend, hki]
          simpa [Client.fill] using h.ranges.end_le j huse
        · obtain ⟨huse', hend', hseq'⟩ := hold k hki hk
          rw [hend, hend', hseq, hseq']
          exact h.ranges.disjoint j k hjk huse huse'
  · have hroom := h.room
    have hle := c.input.pos_add_length_chunk_le shamMtu
    rw [hnext]
    simp only [Client.fill, InputFile.contents_fread, InputFile.pos_fread]
    omega
  · intro _
    rw [bytesInUse_fill hfree now]
    have hcounted := h.counted (by simp [inPass, hpc])
    simpa [Client.fill] using hcounted

theorem Accounted.step {env : ClientEnv} {c c' : Client} {out : List Packet}
    (h : c.Accounted) (hstep : c.step env = some (c', out)) : c'.Accounted := by
  rcases step_slots hstep with ⟨i, hpc, hfree, -, heq⟩ | ⟨hshrinks, hbytes⟩
  · obtain rfl : c' = (c.fill i env.now).1 := congrArg Prod.fst heq
    exact h.fill hfree hpc
  · constructor
    · exact hshrinks.ranges h.ranges
    · have hroom := h.room
      have hpos := hshrinks.pos
      rw [hshrinks.nextseq, hshrinks.contents]
      omega
    · intro hpass
      have hle := hshrinks.bytesInUse_le
      rw [hbytes hpass]
      split
      · exact hle
      · rename_i hpc
        have hin : c.inPass = true := by
          rcases step_cases hstep with
            ⟨htest, -⟩ | ⟨i, hround, -⟩ | ⟨i, hselect, -⟩ | ⟨-, rfl, -⟩ | ⟨-, rfl, -⟩ | ⟨-, hrecv⟩
          · exact absurd htest hpc
          · simp [inPass, hround]
          · simp [inPass, hselect]
          · simp [inPass] at hpass
          · simp [inPass] at hpass
          · simp [inPass, (frame_recvFin hrecv).2.2.2.2.1] at hpass
        exact hle.trans (h.counted hin)

def readsAck (env : ClientEnv) (c : Client) : Option Header :=
  match c.pc with
  | .select _ => env.received.filter fun h => h.has shamAck
  | _ => none

/-- The most recently received window: `win`, or that of the last ACK the run reads. -/
def lastWindow (win : UInt16) : List ClientEnv → Client → UInt16
  | [], _ => win
  | env :: envs, c =>
      match c.step env with
      | none => win
      | some (c', _) => lastWindow (((c.readsAck env).map Header.windowSize).getD win) envs c'

theorem remoteWin_step {env : ClientEnv} {c c' : Client} {out : List Packet}
    (h : c.step env = some (c', out)) :
    c'.remoteWin = ((c.readsAck env).map Header.windowSize).getD c.remoteWin := by
  rcases step_cases h with
    ⟨hpc, -, rfl⟩ | ⟨i, hpc, hround⟩ | ⟨i, hpc, hpoll⟩ | ⟨hpc, rfl, -⟩ | ⟨hpc, rfl, -⟩ |
    ⟨hpc, hrecv⟩
  · simp [readsAck, hpc]
  · obtain rfl : (c.round i env.now).1 = c' := by rw [hround]
    rcases c.round_cases i env.now with
      ⟨-, heq⟩ | ⟨-, -, heq⟩ | ⟨-, -, -, heq⟩ | ⟨-, -, -, -, heq⟩ | ⟨-, -, -, -, -, heq⟩ |
      ⟨-, -, -, -, -, heq⟩ <;> rw [heq] <;> simp [readsAck, hpc, leave, readInto, fill]
  · obtain rfl : (c.poll i env).1 = c' := by rw [hpoll]
    simp only [readsAck, hpc, poll, retransmitDue, recvAck]
    cases env.received with
    | none => rfl
    | some hdr =>
        dsimp only
        split
        · rename_i hflag
          simp [Option.filter, hflag, processAck]
        · rename_i hflag
          simp [Option.filter, hflag]
  · simp [readsAck, hpc]
  · simp [readsAck, hpc]
  · simp only [readsAck, hpc, Option.map_none, Option.getD_none]
    unfold recvFin at hrecv
    cases hreceived : env.received with
    | none =>
        rw [hreceived] at hrecv
        cases hrecv
        rfl
    | some hdr =>
        rw [hreceived] at hrecv
        dsimp only at hrecv
        split at hrecv
        · cases hrecv
          rfl
        · split at hrecv <;> cases hrecv <;> rfl

theorem remoteWin_run {envs : List ClientEnv} {c c' : Client} {sent : List Packet}
    (h : machine.run envs c = some (c', sent)) : c'.remoteWin = lastWindow c.remoteWin envs c := by
  induction envs generalizing c sent with
  | nil =>
      simp only [Mealy.run_nil, Option.some.injEq, Prod.mk.injEq] at h
      rw [← h.1, lastWindow]
  | cons env envs ih =>
      obtain ⟨d, out, rest, hstep, hrun, -⟩ := machine.run_cons_eq_some.mp h
      have hstep : c.step env = some (d, out) := hstep
      simp only [lastWindow, hstep]
      rw [← remoteWin_step hstep]
      exact ih hrun

/--
Every step of the client, in every run: a new segment keeps the bytes in use
within the window received last, the slots in use hold disjoint ranges below
`nextseq`, and what a slot in use holds does not change.
-/
theorem transmits_within_window {cliSeq : UInt32} {outname contents : List UInt8}
    {synAck : Header} (hlt : cliSeq.toNat + 1 + outname.length + contents.length < 2 ^ 32)
    {envs : List ClientEnv} {c c' : Client} {sent out : List Packet} {env : ClientEnv}
    (hrun : machine.run envs (start cliSeq outname contents synAck) = some (c, sent))
    (hstep : c.step env = some (c', out)) :
    (∀ i, Transmits c c' i →
      out = [sendPacket (c'.inflight i).seq (c'.inflight i).bytes c.remoteWin] ∧
      c'.bytesInUse ≤
        (lastWindow synAck.windowSize envs (start cliSeq outname contents synAck)).toNat) ∧
    c'.Ranges ∧ ∀ i, c.inUse i = true → SameSlot c c' i := by
  have hacc : c.Accounted := machine.run_invariant
    (fun _ _ _ _ hc hnext => Accounted.step hc hnext) (accounted_start hlt synAck) hrun
  have hwin : c.remoteWin = lastWindow synAck.windowSize envs _ := remoteWin_run hrun
  rw [← hwin]
  refine ⟨?_, (hacc.step hstep).ranges, ?_⟩
  · rintro i ⟨hfree, huse⟩
    rcases step_slots hstep with ⟨j, hpc, hfree', hfit, heq⟩ | ⟨hshrinks, -⟩
    · have hout : out = (c.fill j env.now).2 := congrArg Prod.snd heq
      obtain rfl : c' = (c.fill j env.now).1 := congrArg Prod.fst heq
      have hij : i = j := by
        by_contra hne
        simp [fill, hne, hfree] at huse
      constructor
      · rw [hout, hij]
        simp [fill]
      · have hcounted := hacc.counted (by simp [inPass, hpc])
        rw [bytesInUse_fill hfree' env.now]
        omega
    · rw [hshrinks.inUse i huse] at hfree
      simp at hfree
  · intro i huse
    rcases step_slots hstep with ⟨j, -, hfree, -, heq⟩ | ⟨hshrinks, -⟩
    · obtain rfl : c' = (c.fill j env.now).1 := congrArg Prod.fst heq
      have hne : i ≠ j := by
        intro hij
        rw [hij, hfree] at huse
        simp at huse
      constructor <;> simp [fill, hne]
    · exact hshrinks.slot i huse

def idle : ClientEnv := ⟨none, ⟨0, 0⟩, fun _ => ⟨0, 0⟩⟩

theorem transmits_within_window_first :
    ∃ c c' sent out,
      machine.run [idle] (start 100 [111] [7] { windowSize := 8192 }) = some (c, sent) ∧
      c.step idle = some (c', out) ∧ Transmits c c' ⟨0, by decide⟩ ∧ c'.bytesInUse ≤ 8192 := by
  let c₀ := start 100 [111] [7] { windowSize := 8192 }
  let c : Client := { c₀ with pc := .round ⟨0, by decide⟩, inFlightBytes := c₀.bytesInUse }
  have hrun : machine.run [idle] c₀ = some (c, []) := rfl
  have hstep : c.step idle = some (c.fill ⟨0, by decide⟩ idle.now) := rfl
  have hnew : Transmits c (c.fill ⟨0, by decide⟩ idle.now).1 ⟨0, by decide⟩ := ⟨rfl, rfl⟩
  exact ⟨c, _, [], _, hrun, hstep, hnew,
    ((transmits_within_window (by decide) hrun hstep).1 _ hnew).2⟩

/-! ## Passes of the outer loop -/

/-- The client with a record of whether the current pass has polled the socket. -/
structure Watched where
  client : Client
  polled : Bool

namespace Watched

def record (s : Watched) : Bool :=
  match s.client.pc with
  | .whileTest => false
  | .select _ => true
  | _ => s.polled

def step (env : ClientEnv) (s : Watched) : Option (Watched × List Packet) :=
  (s.client.step env).map fun (client, out) => (⟨client, s.record⟩, out)

def machine : Mealy ClientEnv Packet Watched := ⟨step⟩

/-- Back at the test of `while (!done)`, the pass that ended has polled. -/
def HasPolled (s : Watched) : Prop := s.client.pc = .whileTest → s.polled = true

end Watched

/-- In round 0: the slot is taken, the file has ended, or the next chunk fits the window. -/
def Unblocked (c : Client) : Prop :=
  ∀ i, c.pc = .round i → i.val = 0 →
    c.inUse i = true ∨ c.input.eof = true ∨
      (c.inFlightBytes < c.remoteWin.toNat ∧
        c.inFlightBytes + (c.input.chunk shamMtu).length ≤ c.remoteWin.toNat)

theorem round_breaks_iff (i : Fin maxInflight) (now : Timeval) (c : Client) :
    (c.round i now).1.pc = .whileTest ↔
      ¬ (c.inUse i = true ∨ c.input.eof = true ∨
        (c.inFlightBytes < c.remoteWin.toNat ∧
          c.inFlightBytes + (c.input.chunk shamMtu).length ≤ c.remoteWin.toNat)) := by
  rcases c.round_cases i now with
    ⟨huse, heq⟩ | ⟨-, heof, heq⟩ | ⟨hfree, heof, hwin, heq⟩ | ⟨-, -, hwin, hzero, heq⟩ |
    ⟨hfree, heof, -, -, hfit, heq⟩ | ⟨-, -, hwin, -, hfit, heq⟩ <;> rw [heq]
  · simp [huse]
  · simp [heof, leave]
  · simp [hfree, heof]
    omega
  · simp [leave, hwin, hzero]
    omega
  · simp [hfree, heof]
    omega
  · simp [fill, hwin, hfit]

theorem pc_poll (i : Fin maxInflight) (env : ClientEnv) (c : Client) :
    (c.poll i env).1.pc = nextRound i := rfl

theorem val_ne_zero_of_nextRound {i j : Fin maxInflight} (h : nextRound i = .round j) :
    j.val ≠ 0 := by
  unfold nextRound at h
  split at h
  · cases h
    simp
  · simp at h

/-- In every run, every pass polls or sets `done` iff every round 0 is unblocked. -/
theorem always_hasPolled_iff (cliSeq : UInt32) (outname contents : List UInt8)
    (synAck : Header) (envs : List ClientEnv) :
    Watched.machine.Always Watched.HasPolled envs
        ⟨start cliSeq outname contents synAck, true⟩ ↔
      Watched.machine.Guarded (fun s _ => s.client.Unblocked) envs
        ⟨start cliSeq outname contents synAck, true⟩ := by
  -- The record is reset at the `while` test, so only round 0 starts without a poll.
  refine Watched.machine.always_iff_guarded (I := fun _ => True)
    (J := fun s => ∀ i, s.client.pc = .round i → (s.polled = true ↔ i.val ≠ 0))
    ?_ (fun _ _ => trivial) (by simp [start]) (by simp [Watched.HasPolled])
  intro env s _ hrecord _
  cases hstep : s.client.step env with
  | none =>
      refine .inl ⟨by simp [Watched.machine, Watched.step, hstep], ?_⟩
      intro i hi
      simp [step, hi] at hstep
  | some next =>
      refine .inr ⟨⟨next.1, s.record⟩, next.2,
        by simp [Watched.machine, Watched.step, hstep], ?_⟩
      rcases step_cases hstep with
        ⟨hpc, -, heq⟩ | ⟨i, hpc, hround⟩ | ⟨i, hpc, hpoll⟩ | ⟨hpc, heq, -⟩ | ⟨hpc, heq, -⟩ |
        ⟨hpc, hrecv⟩
      · constructor
        · rintro i hi
          simp only [heq, ClientPc.round.injEq] at hi
          simp [Watched.record, hpc, ← hi]
        · simp [Watched.HasPolled, Unblocked, hpc, heq]
      · obtain rfl : s.client.round i env.now = next := hround
        constructor
        · intro j hj
          exfalso
          rcases s.client.round_cases i env.now with
            ⟨-, heq⟩ | ⟨-, -, heq⟩ | ⟨-, -, -, heq⟩ | ⟨-, -, -, -, heq⟩ |
            ⟨-, -, -, -, -, heq⟩ | ⟨-, -, -, -, -, heq⟩ <;>
            rw [heq] at hj <;> simp [leave, fill] at hj
        · have hbreaks := round_breaks_iff i env.now s.client
          have hfirst := hrecord i hpc
          simp only [Watched.HasPolled, Watched.record, Unblocked, hpc, ClientPc.round.injEq,
            forall_eq', hbreaks]
          tauto
      · obtain rfl : s.client.poll i env = next := hpoll
        constructor
        · intro j hj
          have hne := val_ne_zero_of_nextRound ((pc_poll i env s.client).symm.trans hj)
          simp [Watched.record, hpc, hne]
        · simp [Watched.HasPolled, Watched.record, Unblocked, hpc]
      · simp [Watched.HasPolled, Unblocked, hpc, heq]
      · simp [Watched.HasPolled, Unblocked, hpc, heq]
      · simp [Watched.HasPolled, Unblocked, hpc, (frame_recvFin hrecv).2.2.2.2.1]

/-- Slot 0 is free and the window has no room for the next chunk. -/
structure Spinning (c : Client) : Prop where
  pc : c.pc = .whileTest ∨ (c.pc = .round ⟨0, by decide⟩ ∧ c.inFlightBytes = c.bytesInUse)
  free : c.inUse ⟨0, by decide⟩ = false
  eof : c.input.eof = false
  no_room : c.remoteWin.toNat ≤ c.bytesInUse ∨
    (0 < (c.input.chunk shamMtu).length ∧
      c.remoteWin.toNat < c.bytesInUse + (c.input.chunk shamMtu).length)

theorem Spinning.step {env : ClientEnv} {c c' : Client} {out : List Packet} (h : c.Spinning)
    (hstep : c.step env = some (c', out)) : c'.Spinning ∧ out = [] := by
  have hfree := h.free
  have heof := h.eof
  have hroom := h.no_room
  rcases h.pc with hpc | ⟨hpc, hbytes⟩
  · simp only [Client.step, hpc, Option.some.injEq, Prod.mk.injEq] at hstep
    obtain ⟨rfl, rfl⟩ := hstep
    exact ⟨⟨.inr ⟨rfl, rfl⟩, hfree, heof, hroom⟩, rfl⟩
  · simp only [Client.step, hpc, Option.some.injEq] at hstep
    rcases c.round_cases ⟨0, by decide⟩ env.now with
      ⟨huse, -⟩ | ⟨-, hend, -⟩ | ⟨-, -, -, heq⟩ | ⟨-, -, hwin, hzero, -⟩ |
      ⟨-, -, -, -, -, heq⟩ | ⟨-, -, hwin, hpos, hfit, -⟩
    · simp [hfree] at huse
    · simp [heof] at hend
    · rw [hstep] at heq
      cases heq
      exact ⟨⟨.inl rfl, hfree, heof, hroom⟩, rfl⟩
    · omega
    · rw [hstep] at heq
      cases heq
      have hchunk : ((c.input.fread shamMtu).fseekBack
          (c.input.chunk shamMtu).length).chunk shamMtu = c.input.chunk shamMtu := by
        simp [InputFile.chunk]
      have hsame : Client.bytesInUse { c.readInto ⟨0, by decide⟩ with
          pc := .whileTest
          input := (c.input.fread shamMtu).fseekBack (c.input.chunk shamMtu).length } =
          c.bytesInUse := by
        unfold bytesInUse
        apply Finset.sum_congr rfl
        intro j _
        by_cases hj : j = ⟨0, by decide⟩
        · simp [readInto, hj, hfree]
        · simp [readInto, hj]
      refine ⟨⟨.inl rfl, hfree, rfl, ?_⟩, rfl⟩
      rw [hsame, hchunk]
      exact hroom
    · omega

/-- Once it spins the client never polls again, whatever is sent to it. -/
theorem Spinning.run {envs : List ClientEnv} {c c' : Client} {sent : List Packet}
    (h : c.Spinning) (hrun : machine.run envs c = some (c', sent)) :
    c'.Spinning ∧ sent = [] := by
  refine machine.run_invariant_history (P := fun _ outs t => t.Spinning ∧ outs = [])
    ⟨h, rfl⟩ ?_ hrun
  rintro is env outs t t' out - ⟨ht, rfl⟩ hstep
  obtain ⟨ht', rfl⟩ := ht.step hstep
  exact ⟨ht', rfl⟩

/-- The first chunk is acknowledged with a window of zero, and a second one is left. -/
def closedWindow : List ClientEnv :=
  [idle, idle, { idle with received := some { ackNum := 1126, flags := shamAck } }, idle, idle,
    idle]

theorem spins_on_closedWindow :
    ∃ s sent, Watched.machine.run closedWindow
        ⟨start 100 [111] (List.replicate 1025 7) { windowSize := 8192 }, true⟩ =
          some (s, sent) ∧ ¬ s.HasPolled ∧
      ∀ envs c sent', machine.run envs s.client = some (c, sent') →
        sent' = [] ∧ c.sending = true ∧ ∀ i, c.pc ≠ .select i := by
  obtain ⟨s, sent, hrun, htest⟩ := Watched.machine.exists_run closedWindow
    ⟨start 100 [111] (List.replicate 1025 7) { windowSize := 8192 }, true⟩
    (fun x => x.1.client.pc == .whileTest && !x.1.polled &&
      !x.1.client.inUse ⟨0, by decide⟩ && !x.1.client.input.eof &&
      x.1.client.remoteWin == 0) (by decide +kernel)
  simp only [Bool.and_eq_true, beq_iff_eq, Bool.not_eq_true'] at htest
  obtain ⟨⟨⟨⟨hpc, hpolled⟩, hfree⟩, heof⟩, hwin⟩ := htest
  have hspins : s.client.Spinning := ⟨.inl hpc, hfree, heof, .inl (by simp [hwin])⟩
  refine ⟨s, sent, hrun, by simp [Watched.HasPolled, hpc, hpolled], ?_⟩
  intro envs c sent' hrun'
  obtain ⟨hc, hsent⟩ := hspins.run hrun'
  rcases hc.pc with hpc | ⟨hpc, -⟩
  · simp [hsent, sending, hpc]
  · simp [hsent, sending, hpc]

end Client

end OxyC.Networking
