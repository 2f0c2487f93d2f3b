import OxyC.Foundation.Precedence
import OxyC.Networking.SendLoop

/-!
# The blocks of a transfer

The client alone, against datagrams of any content at any moment.  What it puts
on the wire is the file cut at the multiples of `SHAM_MTU`: windows, losses and
timeouts decide how often a block is sent and when, not what is in it.
-/

namespace OxyC.Networking

open OxyC.Foundation

/-- Block `j` of a file. -/
def block (contents : List UInt8) (j : Nat) : List UInt8 :=
  (contents.drop (shamMtu * j)).take shamMtu

/-- Where block `j` starts, as a 32-bit sequence number. -/
def blockSeq (first : UInt32) (j : Nat) : UInt32 := first + UInt32.ofNat (shamMtu * j)

/-- `p` carries block `j`; its window field is that of the moment. -/
def Carries (first : UInt32) (contents : List UInt8) (j : Nat) (p : Packet) : Prop :=
  shamMtu * j < contents.length ∧
    ∃ win, p = Client.sendPacket (blockSeq first j) (block contents j) win

/-- A new block follows the one before it, and the FIN follows the last. -/
structure InSequence (first : UInt32) (contents : List UInt8) (before : List Packet)
    (p : Packet) : Prop where
  data : p.hdr.flags = 0 → ∃ j, Carries first contents j p ∧
    ∀ i < j, ∃ p' ∈ before, Carries first contents i p'
  fin : p.hdr.flags = shamFin → p.hdr.seqNum = first + UInt32.ofNat contents.length ∧
    p.data = [] ∧ ∀ i, shamMtu * i < contents.length → ∃ p' ∈ before, Carries first contents i p'

section Blocks

variable {first : UInt32} {contents : List UInt8}

theorem length_block (contents : List UInt8) (j : Nat) :
    (block contents j).length = min shamMtu (contents.length - shamMtu * j) := by
  simp [block]

theorem block_eq_chunk {f : InputFile UInt8} (h : shamMtu ∣ f.pos) :
    f.chunk shamMtu = block f.contents (f.pos / shamMtu) := by
  rw [InputFile.chunk, block, Nat.mul_div_cancel' h]

theorem blockSeq_inj {i j : Nat} (hi : shamMtu * i < 2 ^ 32) (hj : shamMtu * j < 2 ^ 32)
    (h : blockSeq first i = blockSeq first j) : i = j := by
  have hofNat := congrArg UInt32.toNat (add_left_cancel h)
  rw [UInt32.toNat_ofNat_of_lt' hi, UInt32.toNat_ofNat_of_lt' hj] at hofNat
  exact Nat.eq_of_mul_eq_mul_left (by decide) hofNat

theorem InSequence.of_data {before : List Packet} {p : Packet} {j : Nat}
    (hcarries : Carries first contents j p)
    (hbefore : ∀ i < j, ∃ p' ∈ before, Carries first contents i p') :
    InSequence first contents before p where
  data _ := ⟨j, hcarries, hbefore⟩
  fin hflags := by
    obtain ⟨-, win, rfl⟩ := hcarries
    exact absurd hflags (show (0 : UInt16) ≠ shamFin by decide)

theorem InSequence.mono {before before' : List Packet} {p : Packet}
    (h : InSequence first contents before p) (hsub : before ⊆ before') :
    InSequence first contents before' p where
  data hflags := by
    obtain ⟨j, hcarries, hbefore⟩ := h.data hflags
    refine ⟨j, hcarries, fun i hi => ?_⟩
    obtain ⟨p', hp', hcarries'⟩ := hbefore i hi
    exact ⟨p', hsub hp', hcarries'⟩
  fin hflags := by
    obtain ⟨hseq, hdata, hbefore⟩ := h.fin hflags
    refine ⟨hseq, hdata, fun i hi => ?_⟩
    obtain ⟨p', hp', hcarries'⟩ := hbefore i hi
    exact ⟨p', hsub hp', hcarries'⟩

end Blocks

namespace Client

/-- The client has cut the file up to its position, and sent what it has cut. -/
structure Cuts (first : UInt32) (contents : List UInt8) (outs : List Packet) (c : Client) :
    Prop where
  contents_eq : c.input.contents = contents
  nextseq_eq : c.nextseq = first + UInt32.ofNat c.input.pos
  pos_cut : c.input.pos = contents.length ∨ shamMtu ∣ c.input.pos
  sent : ∀ i, shamMtu * i < c.input.pos → ∃ p ∈ outs, Carries first contents i p
  held : ∀ i, c.inUse i = true → ∃ j, shamMtu * j < c.input.pos ∧
    (c.inflight i).seq = blockSeq first j ∧ (c.inflight i).bytes = block contents j
  ended : c.sending = false → c.input.pos = contents.length
  sequence : EachAfter (InSequence first contents) outs

variable {first : UInt32} {contents : List UInt8} {outs out : List Packet} {c c' : Client}

theorem cuts_start (cliSeq : UInt32) (outname contents : List UInt8) (synAck : Header) :
    Cuts (cliSeq + 1 + UInt32.ofNat outname.length) contents []
      (start cliSeq outname contents synAck) where
  contents_eq := rfl
  nextseq_eq := by
    simp only [start, InputFile.pos_fopen]
    split
    · simp
    next hempty =>
        have hzero : outname.length = 0 := by omega
        simp [hzero]
  pos_cut := .inr (by simp [start])
  sent := by simp [start]
  held := by simp [start]
  ended := by simp [start, sending]
  sequence := .nil

/-- What is sent without a new block: blocks again, FINs at the end of the file, and ACKs. -/
def Repeats (c : Client) (p : Packet) : Prop :=
  (∃ i win, c.inUse i = true ∧ p = sendPacket (c.inflight i).seq (c.inflight i).bytes win) ∨
    (c.input.pos = c.input.contents.length ∧ p = c.finPacket) ∨ ∃ h, p = ackOf h

theorem Cuts.inSequence (h : Cuts first contents outs c) {p : Packet} (hp : c.Repeats p) :
    InSequence first contents outs p := by
  obtain ⟨i, win, huse, rfl⟩ | ⟨hpos, rfl⟩ | ⟨hdr, rfl⟩ := hp
  · obtain ⟨j, hj, hseq, hbytes⟩ := h.held i huse
    have hle := c.input.pos_le
    rw [h.contents_eq] at hle
    have hcarries : Carries first contents j
        (sendPacket (c.inflight i).seq (c.inflight i).bytes win) :=
      ⟨by omega, win, by rw [hseq, hbytes]⟩
    refine .of_data hcarries fun k hk => ?_
    refine h.sent k (lt_of_le_of_lt ?_ hj)
    exact Nat.mul_le_mul_left _ hk.le
  · rw [h.contents_eq] at hpos
    have hdata : shamFin ≠ 0 := by decide
    refine ⟨fun hflags => absurd hflags hdata, fun _ => ⟨?_, rfl, fun k hk => ?_⟩⟩
    · rw [← hpos]
      exact h.nextseq_eq
    · exact h.sent k (by omega)
  · have hdata : shamAck ≠ 0 := by decide
    have hfin : shamAck ≠ shamFin := by decide
    exact ⟨fun hflags => absurd hflags hdata, fun hflags => absurd hflags hfin⟩

/-- A step that cuts no new block. -/
theorem Cuts.quiet (h : Cuts first contents outs c) (hinput : c'.input.contents = c.input.contents)
    (hpos : c'.input.pos = c.input.pos) (hnext : c'.nextseq = c.nextseq)
    (hheld : ∀ i, c'.inUse i = true → c.inUse i = true ∧
      (c'.inflight i).seq = (c.inflight i).seq ∧ (c'.inflight i).bytes = (c.inflight i).bytes)
    (hended : c'.sending = false → c.input.pos = c.input.contents.length)
    (hout : ∀ p ∈ out, c.Repeats p) : Cuts first contents (outs ++ out) c' where
  contents_eq := hinput.trans h.contents_eq
  nextseq_eq := by rw [hnext, hpos, h.nextseq_eq]
  pos_cut := by
    rw [hpos]
    exact h.pos_cut
  sent := by
    intro i hi
    rw [hpos] at hi
    obtain ⟨p, hp, hcarries⟩ := h.sent i hi
    exact ⟨p, List.mem_append_left _ hp, hcarries⟩
  held := by
    intro i hi
    obtain ⟨huse, hseq, hbytes⟩ := hheld i hi
    rw [hpos, hseq, hbytes]
    exact h.held i huse
  ended := by
    intro hleft
    rw [hpos, hended hleft, h.contents_eq]
  sequence := by
    refine h.sequence.append (.of_forall fun before p hp => ?_)
    exact (h.inSequence (hout p hp)).mono (List.subset_append_left outs before)

/-- The next block is cut off and sent. -/
theorem Cuts.fill (h : Cuts first contents outs c) (i : Fin maxInflight) (now : Timeval)
    (hchunk : 0 < (c.input.chunk shamMtu).length) :
    Cuts first contents (outs ++ (c.fill i now).2) (c.fill i now).1 := by
  have hlength := c.input.length_chunk shamMtu
  rw [h.contents_eq] at hlength
  have hlt : c.input.pos < contents.length := by omega
  have hdvd : shamMtu ∣ c.input.pos := h.pos_cut.resolve_left (by omega)
  have hblock := block_eq_chunk hdvd
  rw [h.contents_eq] at hblock
  obtain ⟨j, hj⟩ := hdvd
  have hdiv : c.input.pos / shamMtu = j := by
    rw [hj]
    exact Nat.mul_div_cancel_left j (by decide)
  rw [hdiv] at hblock
  have hseq : c.nextseq = blockSeq first j := by rw [h.nextseq_eq, hj, blockSeq]
  have hcarries : Carries first contents j (sendPacket c.nextseq (c.input.chunk shamMtu)
      c.remoteWin) := ⟨by omega, c.remoteWin, by rw [hseq, hblock]⟩
  have hout : (c.fill i now).2 =
      [sendPacket c.nextseq (c.input.chunk shamMtu) c.remoteWin] := by
    simp [Client.fill, OutPkt.bytes]
  constructor
  case contents_eq => exact h.contents_eq
  case nextseq_eq =>
    simp only [Client.fill, InputFile.pos_fread]
    rw [h.nextseq_eq, UInt32.ofNat_add, add_assoc]
  case pos_cut =>
    simp only [Client.fill, InputFile.pos_fread]
    rcases Nat.lt_or_ge shamMtu (contents.length - c.input.pos) with hfull | hlast
    · refine .inr ?_
      rw [hlength, min_eq_left hfull.le]
      exact (Nat.dvd_add_right ⟨j, hj⟩).mpr (dvd_refl _)
    · refine .inl ?_
      rw [hlength, min_eq_right hlast]
      omega
  case sent =>
    intro k hk
    simp only [Client.fill, InputFile.pos_fread] at hk
    rw [hout]
    rcases Nat.lt_trichotomy k j with hkj | rfl | hjk
    · have hle : shamMtu * k < shamMtu * j := Nat.mul_lt_mul_of_pos_left hkj (by decide)
      obtain ⟨p, hp, hp'⟩ := h.sent k (by omega)
      exact ⟨p, List.mem_append_left _ hp, hp'⟩
    · exact ⟨_, List.mem_append_right _ (List.mem_singleton_self _), hcarries⟩
    · have hge : shamMtu * (j + 1) ≤ shamMtu * k := Nat.mul_le_mul_left _ hjk
      rw [Nat.mul_succ] at hge
      omega
  case held =>
    intro k hk
    simp only [Client.fill, InputFile.pos_fread] at hk ⊢
    by_cases hki : k = i
    · subst hki
      refine ⟨j, by omega, ?_, ?_⟩
      · rw [Function.update_self, hseq]
      · rw [Function.update_self, OutPkt.bytes, take_memcpy, hblock]
    · rw [Function.update_of_ne hki] at hk
      obtain ⟨l, hl, hslot⟩ := h.held k hk
      rw [Function.update_of_ne hki]
      exact ⟨l, by omega, hslot⟩
  case ended => simp [Client.fill, sending]
  case sequence =>
    refine h.sequence.append (.of_forall fun before p hp => ?_)
    rw [hout, List.mem_singleton] at hp
    subst hp
    refine .of_data hcarries fun k hk => ?_
    have hle : shamMtu * k < shamMtu * j := Nat.mul_lt_mul_of_pos_left hk (by decide)
    obtain ⟨p, hp, hp'⟩ := h.sent k (by omega)
    exact ⟨p, List.mem_append_left _ hp, hp'⟩

theorem recvAck_slot (received : Option Header) {i : Fin maxInflight}
    (huse : (c.recvAck received).inUse i = true) :
    c.inUse i = true ∧ ((c.recvAck received).inflight i).seq = (c.inflight i).seq ∧
      ((c.recvAck received).inflight i).bytes = (c.inflight i).bytes := by
  unfold recvAck at huse ⊢
  cases received with
  | none => exact ⟨huse, rfl, rfl⟩
  | some hdr =>
      dsimp only at huse ⊢
      split at huse
      next hack =>
          rw [if_pos hack]
          simp only [processAck] at huse ⊢
          split at huse
          · cases huse
          next hkept => exact ⟨huse, by rw [if_neg hkept], by rw [if_neg hkept]⟩
      next hack =>
          rw [if_neg hack]
          exact ⟨huse, rfl, rfl⟩

theorem readInto_slot {i k : Fin maxInflight} (hfree : c.inUse i = false)
    (huse : (c.readInto i).inUse k = true) :
    c.inUse k = true ∧ ((c.readInto i).inflight k).seq = (c.inflight k).seq ∧
      ((c.readInto i).inflight k).bytes = (c.inflight k).bytes := by
  have hne : k ≠ i := by
    rintro rfl
    simp [readInto, hfree] at huse
  refine ⟨huse, ?_, ?_⟩ <;> simp [readInto, hne]

theorem input_recvAck (received : Option Header) (c : Client) :
    (c.recvAck received).input = c.input ∧ (c.recvAck received).nextseq = c.nextseq := by
  unfold recvAck
  cases received with
  | none => exact ⟨rfl, rfl⟩
  | some hdr =>
      dsimp only
      split <;> exact ⟨rfl, rfl⟩

theorem Cuts.poll (h : Cuts first contents outs c) (i : Fin maxInflight) (env : ClientEnv) :
    Cuts first contents (outs ++ (c.poll i env).2) (c.poll i env).1 := by
  obtain ⟨hinput, hnext⟩ := c.input_recvAck env.received
  refine h.quiet (congrArg InputFile.contents hinput) (congrArg InputFile.pos hinput) hnext ?_ ?_ ?_
  · intro k hk
    have hslot := recvAck_slot env.received hk
    simp only [Client.poll, retransmitDue]
    split
    · exact hslot
    · exact hslot
  · simp [sending_poll]
  · intro p hp
    simp only [Client.poll, retransmitDue, List.mem_map, List.mem_filter, isDue,
      Bool.and_eq_true] at hp
    obtain ⟨k, ⟨-, ⟨huse, -⟩, -⟩, rfl⟩ := hp
    obtain ⟨huse', hseq, hbytes⟩ := recvAck_slot env.received huse
    refine .inl ⟨k, (c.recvAck env.received).remoteWin, huse', ?_⟩
    rw [← hseq, ← hbytes]

theorem Cuts.round (h : Cuts first contents outs c) {i : Fin maxInflight} {now : Timeval}
    (hround : c.round i now = (c', out)) : Cuts first contents (outs ++ out) c' := by
  rcases c.round_cases i now with
    ⟨-, heq⟩ | ⟨-, heof, heq⟩ | ⟨-, -, -, heq⟩ | ⟨hfree, -, -, hzero, heq⟩ |
    ⟨hfree, -, -, -, -, heq⟩ | ⟨-, -, -, hchunk, -, heq⟩ <;> rw [hround] at heq
  · cases heq
    exact h.quiet rfl rfl rfl (fun _ hi => ⟨hi, rfl, rfl⟩) (by simp [sending]) (by simp)
  · cases heq
    have hpos := c.input.pos_of_eof heof
    refine h.quiet rfl rfl rfl (fun _ hi => ⟨hi, rfl, rfl⟩) (fun _ => hpos) fun p hp => ?_
    exact .inr (.inl ⟨hpos, List.mem_singleton.mp hp⟩)
  · cases heq
    exact h.quiet rfl rfl rfl (fun _ hi => ⟨hi, rfl, rfl⟩) (by simp [sending]) (by simp)
  · cases heq
    have hpos := InputFile.pos_of_chunk_empty (by decide) hzero
    refine h.quiet rfl (by simp [readInto, hzero]) rfl (fun k hk => ?_)
      (fun _ => hpos) fun p hp => ?_
    · exact readInto_slot hfree hk
    · refine .inr (.inl ⟨hpos, ?_⟩)
      simpa [Client.leave, readInto, finPacket] using hp
  · cases heq
    refine h.quiet rfl (by simp) rfl (fun k hk => ?_) (by simp [sending]) (by simp)
    exact readInto_slot hfree hk
  · have hc' : c' = (c.fill i now).1 := congrArg Prod.fst heq
    have hout : out = (c.fill i now).2 := congrArg Prod.snd heq
    rw [hc', hout]
    exact h.fill i now hchunk

theorem Cuts.step (h : Cuts first contents outs c) {env : ClientEnv}
    (hstep : c.step env = some (c', out)) : Cuts first contents (outs ++ out) c' := by
  rcases step_cases hstep with
    ⟨-, rfl, rfl⟩ | ⟨i, -, hround⟩ | ⟨i, -, hpoll⟩ | ⟨hpc, rfl, rfl⟩ | ⟨hpc, rfl, hout⟩ |
    ⟨hpc, hrecv⟩
  · exact h.quiet rfl rfl rfl (fun _ hi => ⟨hi, rfl, rfl⟩) (by simp [sending]) (by simp)
  · exact h.round hround
  · have hpolled := h.poll i env
    rwa [hpoll] at hpolled
  · have hpos := h.ended (by simp [sending, hpc])
    rw [← h.contents_eq] at hpos
    refine h.quiet rfl rfl rfl (fun _ hi => ⟨hi, rfl, rfl⟩) (fun _ => hpos) fun p hp => ?_
    exact .inr (.inr ⟨c.buf, List.mem_singleton.mp hp⟩)
  · have hpos := h.ended (by simp [sending, hpc])
    rw [← h.contents_eq] at hpos
    refine h.quiet rfl rfl rfl (fun _ hi => ⟨hi, rfl, rfl⟩) (fun _ => hpos) fun p hp => ?_
    exact .inr (.inl ⟨hpos, hout p hp⟩)
  · have hpos := h.ended (by simp [sending, hpc])
    rw [← h.contents_eq] at hpos
    obtain ⟨huse, hinflight, hinput, hnext, -, hout⟩ := frame_recvFin hrecv
    refine h.quiet (by rw [hinput]) (by rw [hinput]) hnext (fun k hk => ?_) (fun _ => hpos)
      fun p hp => .inr (.inr (hout p hp))
    rw [huse] at hk
    rw [hinflight]
    exact ⟨hk, rfl, rfl⟩

/--
What the client puts on the wire, whatever it is answered: blocks of the file, each one for the
first time behind the ones before it, and the FIN behind all of them, numbered with the end of the
file.  In a file of at most 4 GiB a sequence number stands for one payload.
-/
theorem sends_blocks {cliSeq : UInt32} {outname : List UInt8} {synAck : Header}
    {envs : List ClientEnv}
    (hrun : machine.run envs (start cliSeq outname contents synAck) = some (c, outs)) :
    EachAfter (InSequence (cliSeq + 1 + UInt32.ofNat outname.length) contents) outs ∧
      (contents.length ≤ 2 ^ 32 → ∀ p ∈ outs, ∀ p' ∈ outs, p.hdr.flags = 0 → p'.hdr.flags = 0 →
        p.hdr.seqNum = p'.hdr.seqNum → p.data = p'.data) := by
  have hcuts := machine.run_invariant_history
    (P := fun _ outs c => Cuts (cliSeq + 1 + UInt32.ofNat outname.length) contents outs c)
    (cuts_start cliSeq outname contents synAck)
    (fun _ _ _ _ _ _ _ h hstep => h.step hstep) hrun
  refine ⟨hcuts.sequence, fun hle p hp p' hp' hdata hdata' hseq => ?_⟩
  obtain ⟨_, hin, -⟩ := hcuts.sequence.exists_of_mem hp
  obtain ⟨_, hin', -⟩ := hcuts.sequence.exists_of_mem hp'
  obtain ⟨j, ⟨hj, win, rfl⟩, -⟩ := hin.data hdata
  obtain ⟨j', ⟨hj', win', rfl⟩, -⟩ := hin'.data hdata'
  have hnumbers : j = j' := blockSeq_inj (by omega) (by omega) hseq
  rw [hnumbers]
  rfl

/-- Nothing is received at second `sec`. -/
def silence (sec : Int) : ClientEnv := ⟨none, ⟨sec, 0⟩, fun _ => ⟨sec, 0⟩⟩

/-- The only block is sent twice, and then the FIN. -/
def resentOnce : List ClientEnv := [silence 0, silence 0, silence 1, silence 1, silence 1]

theorem sends_blocks_resentOnce : ∃ c outs,
    machine.run resentOnce (start 7 [111] [1, 2, 3] { windowSize := defaultWin }) =
        some (c, outs) ∧
      outs.length = 4 ∧ EachAfter (InSequence 9 [1, 2, 3]) outs := by
  obtain ⟨c, outs, hrun, htest⟩ := machine.exists_run resentOnce
    (start 7 [111] [1, 2, 3] { windowSize := defaultWin }) (fun x => x.2.length = 4) (by decide)
  exact ⟨c, outs, hrun, of_decide_eq_true htest, (sends_blocks hrun).1⟩

end Client

end OxyC.Networking
