import OxyC.Foundation.Potential
import OxyC.Networking.Orderly

/-!
# Transfers come to an end

On an orderly network, with the windows as the server advertises them and no
SYN-ACK read a second time, the send loop does not spin: each of its rounds sends
a block, polls, or is followed by one that polls.  Whatever has happened, what is
on its way can still be read until both programs have left.
-/

namespace OxyC.Networking

open OxyC.Foundation

namespace Client

def firstSlot : Fin maxInflight := Session.slotOf 0

/-- The slots are as the handshake's window has let them fill: from the first one on. -/
structure Filling (win : UInt16) (c : Client) : Prop where
  window : c.remoteWin = win
  inUse : ∀ i, c.inUse i = true → c.inUse firstSlot = true
  round : ∀ i, c.pc = .round i → i ≠ firstSlot → c.inUse firstSlot = true

/-- What keeps a client whose answers all advertise the largest window from spinning. -/
structure Steady (win : UInt16) (c : Client) : Prop where
  selects : ∀ i, c.pc = .select i → c.inUse i = true
  begins : c.pc = .round firstSlot → c.inFlightBytes = c.bytesInUse
  roundBytes : ∀ i, c.pc = .round i → c.inFlightBytes ≤ shamMtu * (maxInflight + i)
  selectBytes : ∀ i, c.pc = .select i → c.inFlightBytes ≤ shamMtu * (maxInflight + i + 1)
  window : c.sending = true → c.remoteWin = 65535 ∨ c.Filling win

variable {win : UInt16} {c c' : Client} {env : ClientEnv} {out : List Packet}

theorem bytesInUse_le (hlen : ∀ i, c.inUse i = true → (c.inflight i).len ≤ shamMtu) :
    c.bytesInUse ≤ shamMtu * maxInflight := by
  have hslot : ∀ i ∈ Finset.univ, (if c.inUse i then (c.inflight i).len else 0) ≤ shamMtu := by
    intro i _
    split
    next huse => exact hlen i huse
    next => exact Nat.zero_le _
  calc c.bytesInUse ≤ Finset.univ.card • shamMtu := Finset.sum_le_card_nsmul _ _ _ hslot
    _ = shamMtu * maxInflight := by rw [Finset.card_univ, Fintype.card_fin, smul_eq_mul, mul_comm]

theorem bytesInUse_eq_zero (hfree : ∀ i, c.inUse i = false) : c.bytesInUse = 0 := by
  simp [bytesInUse, hfree]

theorem steady_of_left (h : c.sending = false) : Steady win c := by
  constructor
  · intro i hpc
    simp [sending, hpc] at h
  · intro hpc
    simp [sending, hpc] at h
  · intro i hpc
    simp [sending, hpc] at h
  · intro i hpc
    simp [sending, hpc] at h
  · intro hsending
    simp [h] at hsending

theorem steady_start (cliSeq : UInt32) (outname contents : List UInt8) (synAck : Header) :
    Steady synAck.windowSize (start cliSeq outname contents synAck) := by
  constructor
  case window => exact fun _ => .inr ⟨rfl, by simp [start], by simp [start]⟩
  all_goals simp [start]

/-- Back at the test of the outer loop, with the slots and the window as they were. -/
theorem Steady.test (h : Steady win c) (hsending : c.sending = true) (hpc : c'.pc = .whileTest)
    (hwin : c'.remoteWin = c.remoteWin) (huse : c'.inUse = c.inUse) : Steady win c' := by
  constructor
  case window =>
    intro _
    rw [hwin]
    refine (h.window hsending).imp_right fun hfilling => ⟨?_, ?_, ?_⟩
    · rw [hwin, hfilling.window]
    · rw [huse]
      exact hfilling.inUse
    · simp [hpc]
  all_goals simp [hpc]

theorem Steady.enter (h : Steady win c) (hpc : c.pc = .whileTest)
    (hlen : ∀ i, c.inUse i = true → (c.inflight i).len ≤ shamMtu) :
    Steady win { c with pc := .round firstSlot, inFlightBytes := c.bytesInUse } where
  selects := by simp
  begins _ := rfl
  roundBytes i _ := (bytesInUse_le hlen).trans (Nat.mul_le_mul_left _ (Nat.le_add_right _ _))
  selectBytes := by simp
  window _ := by
    refine (h.window (by simp [sending, hpc])).imp_right fun hfilling => ⟨hfilling.window, ?_, ?_⟩
    · exact hfilling.inUse
    · rintro i hround hne
      exact absurd (ClientPc.round.inj hround).symm hne

theorem Steady.select (h : Steady win c) {i : Fin maxInflight} (hpc : c.pc = .round i)
    (huse : c.inUse i = true) : Steady win { c with pc := .select i } where
  selects j hj := by
    obtain rfl : i = j := ClientPc.select.inj hj
    exact huse
  begins := by simp
  roundBytes := by simp
  selectBytes j hj := by
    obtain rfl : i = j := ClientPc.select.inj hj
    exact (h.roundBytes i hpc).trans (Nat.mul_le_mul_left _ (Nat.le_succ _))
  window _ := by
    refine (h.window (by simp [sending, hpc])).imp_right fun hfilling => ⟨hfilling.window, ?_, ?_⟩
    · exact hfilling.inUse
    · simp

theorem Steady.fill (h : Steady win c) {i : Fin maxInflight} (hpc : c.pc = .round i)
    (now : Timeval) : Steady win (c.fill i now).1 where
  selects j hj := by
    obtain rfl : i = j := ClientPc.select.inj hj
    simp [Client.fill]
  begins := by simp [Client.fill]
  roundBytes := by simp [Client.fill]
  selectBytes j hj := by
    obtain rfl : i = j := ClientPc.select.inj hj
    have hbytes := h.roundBytes i hpc
    have hchunk := c.input.length_chunk shamMtu
    rw [Nat.mul_succ]
    simp only [Client.fill]
    omega
  window _ := by
    refine (h.window (by simp [sending, hpc])).imp_right fun hfilling => ⟨hfilling.window, ?_, ?_⟩
    · intro j _
      by_cases hfirst : i = firstSlot
      · simp [Client.fill, hfirst]
      · have hheld := hfilling.round i hpc hfirst
        simp [Client.fill, Ne.symm hfirst, hheld]
    · simp [Client.fill]

theorem nextRound_eq_round {i j : Fin maxInflight} (h : nextRound i = .round j) :
    j.val = i.val + 1 := by
  unfold nextRound at h
  split at h
  · rw [← ClientPc.round.inj h]
  · cases h

theorem Steady.poll (h : Steady win c) {i : Fin maxInflight} (hpc : c.pc = .select i)
    (hack : ∀ hdr, env.received = some hdr → hdr.windowSize = 65535) :
    Steady win (c.poll i env).1 := by
  have hpc' : (c.poll i env).1.pc = nextRound i := rfl
  have hselect : ∀ j, nextRound i ≠ .select j := by
    intro j
    unfold nextRound
    split <;> simp
  constructor
  case selects => exact fun j hj => absurd hj (hselect j)
  case begins =>
    intro hfirst
    exact absurd (nextRound_eq_round (hpc'.symm.trans hfirst)) (Nat.succ_ne_zero _).symm
  case roundBytes =>
    intro j hj
    have hnext := nextRound_eq_round (hpc'.symm.trans hj)
    have hbytes : (c.poll i env).1.inFlightBytes = c.inFlightBytes := by
      simp only [Client.poll, retransmitDue, recvAck]
      cases env.received with
      | none => rfl
      | some hdr =>
          dsimp only
          split <;> rfl
    rw [hbytes, hnext]
    exact h.selectBytes i hpc
  case selectBytes => exact fun j hj => absurd hj (hselect j)
  case window =>
    intro _
    have hold := h.window (by simp [sending, hpc])
    -- What is read either changes no slot, or brings the largest window.
    have hkept : ((c.poll i env).1.remoteWin = c.remoteWin ∧
        (c.poll i env).1.inUse = c.inUse) ∨ (c.poll i env).1.remoteWin = 65535 := by
      simp only [Client.poll, retransmitDue, recvAck]
      cases hreceived : env.received with
      | none => exact .inl ⟨rfl, rfl⟩
      | some hdr =>
          dsimp only
          split
          · exact .inr (hack hdr hreceived)
          · exact .inl ⟨rfl, rfl⟩
    rcases hkept with ⟨hwin, huse⟩ | hlargest
    · refine hold.imp hwin.trans fun hfilling => ⟨hwin.trans hfilling.window, ?_, ?_⟩
      · rw [huse]
        exact hfilling.inUse
      · intro j _ _
        rw [huse]
        exact hfilling.inUse i (h.selects i hpc)
    · exact .inl hlargest

theorem Steady.step (h : Steady win c)
    (hlen : ∀ i, c.inUse i = true → (c.inflight i).len ≤ shamMtu)
    (hack : c.sending = true → ∀ hdr, env.received = some hdr → hdr.windowSize = 65535)
    (hstep : c.step env = some (c', out)) : Steady win c' := by
  rcases step_cases hstep with
    ⟨hpc, -, rfl⟩ | ⟨i, hpc, hround⟩ | ⟨i, hpc, hpoll⟩ | ⟨-, rfl, -⟩ | ⟨-, rfl, -⟩ | ⟨-, hrecv⟩
  · exact h.enter hpc hlen
  · have hsending : c.sending = true := by simp [sending, hpc]
    rcases c.round_cases i env.now with
      ⟨huse, heq⟩ | ⟨-, -, heq⟩ | ⟨-, -, -, heq⟩ | ⟨-, -, -, -, heq⟩ | ⟨-, -, -, -, -, heq⟩ |
      ⟨-, -, -, -, -, heq⟩ <;> rw [hround] at heq
    · cases heq
      exact h.select hpc huse
    · cases heq
      exact steady_of_left rfl
    · cases heq
      exact h.test hsending rfl rfl rfl
    · cases heq
      exact steady_of_left rfl
    · cases heq
      exact h.test hsending rfl rfl rfl
    · obtain rfl : c' = (c.fill i env.now).1 := congrArg Prod.fst heq
      exact h.fill hpc env.now
  · obtain rfl : (c.poll i env).1 = c' := by rw [hpoll]
    exact h.poll hpc (hack (by simp [sending, hpc]))
  · exact steady_of_left rfl
  · exact steady_of_left rfl
  · exact steady_of_left (by simp [sending, (frame_recvFin hrecv).2.2.2.2.1])

/-! ## How much is left to do -/

def missing (c : Client) : Nat := (if c.gotAck then 0 else 1) + if c.gotFin then 0 else 1

/-- A byte to send is worth more than the slots it may fill, and these more than a round. -/
def load (c : Client) : Nat :=
  8 + 6 * (c.input.contents.length - c.input.pos) + if ∃ i, c.inUse i = true then 5 else 0

def work (c : Client) : Nat :=
  match c.pc with
  | .whileTest => c.load + 3
  | .round i => c.load + if c.inUse i = true ∨ i = firstSlot then 2 else 4
  | .select _ => c.load + 1
  | .finTest => if c.missing = 0 then 1 else 2 * c.missing + 3
  | .finRecv => 2 * c.missing + 2
  | .closed => 0

theorem load_congr (hinput : c'.input.contents = c.input.contents)
    (hpos : c'.input.pos = c.input.pos) (huse : c'.inUse = c.inUse) : c'.load = c.load := by
  simp only [load, hinput, hpos, huse]

theorem load_bounds (c : Client) :
    8 + 6 * (c.input.contents.length - c.input.pos) ≤ c.load ∧
      c.load ≤ 8 + 6 * (c.input.contents.length - c.input.pos) + 5 := by
  unfold load
  split <;> omega

theorem work_le (h : c.sending = true) : c.work ≤ c.load + 4 := by
  cases hpc : c.pc with
  | whileTest => simp [work, hpc]
  | round i =>
      simp only [work, hpc]
      split <;> omega
  | select i => simp [work, hpc]
  | finTest => simp [sending, hpc] at h
  | finRecv => simp [sending, hpc] at h
  | closed => simp [sending, hpc] at h

theorem work_leave (c : Client) : c.leave.1.work = 7 := by
  simp [work, leave, missing]

theorem Steady.fits_first (h : Steady win c) (hwin : shamMtu ≤ win.toNat)
    (hpc : c.pc = .round firstSlot) (hfree : c.inUse firstSlot = false) :
    c.inFlightBytes + shamMtu ≤ c.remoteWin.toNat := by
  rcases h.window (by simp [sending, hpc]) with hlargest | hfilling
  · have hbytes := h.roundBytes firstSlot hpc
    rw [hlargest]
    exact (Nat.add_le_add_right hbytes shamMtu).trans (by decide)
  · have hnone : ∀ i, c.inUse i = false := by
      intro i
      rw [Bool.eq_false_iff]
      intro huse
      rw [hfilling.inUse i huse] at hfree
      cases hfree
    rw [h.begins hpc, bytesInUse_eq_zero hnone, hfilling.window]
    omega

/-- A round ends in a poll, a new block or the FIN; a later one may also go back to the first. -/
theorem Steady.round_lt (h : Steady win c) (hwin : shamMtu ≤ win.toNat) {i : Fin maxInflight}
    (hpc : c.pc = .round i) {now : Timeval} (hround : c.round i now = (c', out)) :
    c'.work < c.work ∧ out.length ≤ 1 := by
  have hchunk : (c.input.chunk shamMtu).length ≤ shamMtu := by
    rw [InputFile.length_chunk]
    exact min_le_left _ _
  have hmtu : shamMtu = 1024 := rfl
  have hload := c.load_bounds
  have hwork : c.load + 2 ≤ c.work := by
    simp only [work, hpc]
    split <;> omega
  have hblocked : c.inUse i = false →
      c.remoteWin.toNat < c.inFlightBytes + shamMtu → c.work = c.load + 4 := by
    intro hfree hfull
    have hlater : i ≠ firstSlot := by
      rintro rfl
      have hfits := h.fits_first hwin hpc hfree
      omega
    simp [work, hpc, hfree, hlater]
  rcases c.round_cases i now with
    ⟨huse, heq⟩ | ⟨-, -, heq⟩ | ⟨hfree, -, hfull, heq⟩ | ⟨-, -, -, -, heq⟩ |
    ⟨hfree, -, -, -, hover, heq⟩ | ⟨hfree, -, -, hpos, -, heq⟩ <;> rw [hround] at heq
  · cases heq
    exact ⟨Nat.lt_of_succ_le hwork, Nat.zero_le _⟩
  · have hc' : c' = c.leave.1 := congrArg Prod.fst heq
    have hout : out = c.leave.2 := congrArg Prod.snd heq
    rw [hc', hout, work_leave]
    exact ⟨by omega, le_rfl⟩
  · cases heq
    rw [hblocked hfree (by omega)]
    exact ⟨Nat.lt_succ_self _, Nat.zero_le _⟩
  · have hc' : c' = (c.readInto i).leave.1 := congrArg Prod.fst heq
    have hout : out = (c.readInto i).leave.2 := congrArg Prod.snd heq
    rw [hc', hout, work_leave]
    exact ⟨by omega, le_rfl⟩
  · cases heq
    let d : Client := { c.readInto i with
      pc := .whileTest
      input := (c.input.fread shamMtu).fseekBack (c.input.chunk shamMtu).length }
    have hsame : d.load = c.load := load_congr (by simp [d]) (by simp [d]) rfl
    have hnew : d.work = d.load + 3 := rfl
    have hold := hblocked hfree (by omega)
    have hlt : d.work < c.work := by omega
    exact ⟨hlt, Nat.zero_le _⟩
  · have hc' : c' = (c.fill i now).1 := congrArg Prod.fst heq
    have hout : out = (c.fill i now).2 := congrArg Prod.snd heq
    rw [hc', hout]
    refine ⟨?_, le_rfl⟩
    have hle := c.input.pos_add_length_chunk_le shamMtu
    have hfill := (c.fill i now).1.load_bounds
    simp only [Client.fill, InputFile.contents_fread, InputFile.pos_fread] at hfill
    have hnew : (c.fill i now).1.work = (c.fill i now).1.load + 1 := rfl
    simp only [Client.fill] at hnew ⊢
    omega

theorem Steady.round_step_lt (h : Steady win c) (hwin : shamMtu ≤ win.toNat) {i : Fin maxInflight}
    (hpc : c.pc = .round i) (env : ClientEnv) :
    ∃ c' out, c.step env = some (c', out) ∧ c'.work < c.work ∧ out.length ≤ 1 := by
  obtain ⟨c', out, hround⟩ : ∃ c' out, c.round i env.now = (c', out) := ⟨_, _, rfl⟩
  refine ⟨c', out, ?_, h.round_lt hwin hpc hround⟩
  simp only [Client.step, hpc, hround]

theorem whileTest_lt (hpc : c.pc = .whileTest) (env : ClientEnv) :
    ∃ c', c.step env = some (c', []) ∧ c'.work < c.work := by
  refine ⟨{ c with pc := .round firstSlot, inFlightBytes := c.bytesInUse }, ?_, ?_⟩
  · simp only [step, hpc]
    rfl
  · simp [work, hpc, load]

/-- A poll that reads an ACK for all of the slots. -/
theorem poll_lt {i : Fin maxInflight} (hpc : c.pc = .select i) (huse : c.inUse i = true)
    {hdr : Header} (hack : hdr.has shamAck = true)
    (hall : ∀ j, c.inUse j = true → c.slotEnd j ≤ hdr.ackNum.toNat)
    (now : Timeval) (resentAt : Fin maxInflight → Timeval) :
    ∃ c', c.step ⟨some hdr, now, resentAt⟩ = some (c', []) ∧ c'.work < c.work := by
  have hfree : ∀ j, (c.processAck hdr).inUse j = false := by
    intro j
    simp only [processAck]
    split
    · rfl
    next hkept =>
        rw [Bool.eq_false_iff]
        intro hj
        have hend := hall j hj
        unfold slotEnd at hend
        simp [hj, hend] at hkept
  let d : Client := { c.processAck hdr with pc := nextRound i, buf := hdr }
  have hdue : ∀ j, d.isDue now j = false := by
    intro j
    rw [isDue, show d.inUse j = false from hfree j, Bool.false_and, Bool.false_and]
  have hpoll : c.poll i ⟨some hdr, now, resentAt⟩ = (d, []) := by
    simp only [poll, recvAck, hack, if_true]
    exact Session.retransmitDue_of_not_due hdue
  have hsending : d.sending = true := by
    have hpolled := sending_poll i ⟨some hdr, now, resentAt⟩ c
    rwa [hpoll] at hpolled
  have hload : d.load = 8 + 6 * (c.input.contents.length - c.input.pos) := by
    rw [load, if_neg]
    · rfl
    · rintro ⟨j, hj⟩
      exact absurd hj (by rw [show d.inUse j = false from hfree j]; decide)
  have hold : c.work = 8 + 6 * (c.input.contents.length - c.input.pos) + 5 + 1 := by
    simp only [work, hpc, load]
    rw [if_pos ⟨i, huse⟩]
  have hnew := work_le hsending
  exact ⟨d, by simp only [step, hpc, hpoll], by omega⟩

theorem finTest_lt (hpc : c.pc = .finTest) (env : ClientEnv) :
    ∃ c' out, c.step env = some (c', out) ∧ c'.work < c.work ∧ out.length ≤ 1 := by
  by_cases hboth : c.gotAck && c.gotFin
  · refine ⟨_, _, by simp only [step, hpc, hboth, if_true]; rfl, ?_, le_rfl⟩
    simp only [work, hpc]
    split <;> omega
  · refine ⟨_, _, by simp only [step, hpc, hboth]; rfl, ?_, ?_⟩
    · have hmissing : c.missing ≠ 0 := by
        intro hzero
        simp only [missing, Nat.add_eq_zero_iff, ite_eq_left_iff, one_ne_zero, imp_false,
          Bool.not_eq_true] at hzero
        simp_all
      simp only [work, hpc, hmissing, if_false]
      exact Nat.lt_succ_self _
    · split
      · exact Nat.zero_le _
      · exact le_rfl

/-- The ACK of the FIN is read first, and then the server's FIN. -/
theorem finRecv_lt (hpc : c.pc = .finRecv) {reply fin : Header}
    (hreply : reply.has shamAck = true ∧ reply.ackNum = c.nextseq + 1)
    (hfin : fin.has shamAck = false ∧ fin.has shamFin = true) (now : Timeval)
    (resentAt : Fin maxInflight → Timeval) :
    ∃ hdr c' out, (hdr = reply ∨ hdr = fin) ∧ c.step ⟨some hdr, now, resentAt⟩ = some (c', out) ∧
      c'.work < c.work ∧ out.length ≤ 1 := by
  cases hack : c.gotAck with
  | false =>
      refine ⟨reply, { c with pc := .finTest, buf := reply, gotAck := true }, [], .inl rfl, ?_, ?_,
        Nat.zero_le _⟩
      · simp [step, hpc, recvFin, hreply]
      · cases hgot : c.gotFin <;> simp [work, hpc, missing, hack, hgot]
  | true =>
      refine ⟨fin, { c with pc := .finTest, buf := fin, gotFin := true }, [ackOf fin], .inr rfl, ?_,
        ?_, le_rfl⟩
      · simp [step, hpc, recvFin, hfin]
      · simp [work, hpc, missing, hack]

/-- The send loop is left with a FIN. -/
theorem fin_of_left (hstep : c.step env = some (c', out)) (hsending : c.sending = true)
    (hleft : c'.sending = false) : ∃ p ∈ out, p.hdr.has shamFin = true := by
  rcases step_cases hstep with
    ⟨-, -, rfl⟩ | ⟨i, -, hround⟩ | ⟨i, -, hpoll⟩ | ⟨hpc, -⟩ | ⟨hpc, -⟩ | ⟨hpc, -⟩
  · simp [sending] at hleft
  · rcases c.round_cases i env.now with
      ⟨-, heq⟩ | ⟨-, -, heq⟩ | ⟨-, -, -, heq⟩ | ⟨-, -, -, -, heq⟩ | ⟨-, -, -, -, -, heq⟩ |
      ⟨-, -, -, -, -, heq⟩ <;> rw [hround] at heq <;> cases heq
    · simp [sending] at hleft
    · exact ⟨c.finPacket, List.mem_singleton_self _, c.has_finPacket⟩
    · simp [sending] at hleft
    · exact ⟨(c.readInto i).finPacket, List.mem_singleton_self _, (c.readInto i).has_finPacket⟩
    · simp [sending] at hleft
    · simp [sending] at hleft
  · have hstill := sending_poll i env c
    rw [hpoll, hleft] at hstill
    cases hstill
  · simp [sending, hpc] at hsending
  · simp [sending, hpc] at hsending
  · simp [sending, hpc] at hsending

end Client

def Session.synAcks (q : Session) : List Packet :=
  (q.srvSeq :: q.staleSynAcks).map fun srvSeq => ⟨q.synAck srvSeq, []⟩

def ServerPhase.work : ServerPhase → Nat
  | .receiving => 2
  | .finalAck => 1
  | .closed => 0

namespace Orderly

/-- What the client reads has been sent behind the handshake, and its window is as it was sent. -/
def ReadsAnswers (q : Session) (_ : Orderly) : Action → Prop
  | .client (some d) _ _ => q.staleSynAcks.length < d.index ∧ d.window = none
  | .client none _ _ => True
  | .server _ _ => True

instance (q : Session) (s : Orderly) : (a : Action) → Decidable (ReadsAnswers q s a)
  | .client (some _) _ _ => inferInstanceAs (Decidable (_ ∧ _))
  | .client none _ _ => inferInstanceAs (Decidable True)
  | .server _ _ => inferInstanceAs (Decidable True)

/-- A step of the client puts at most one datagram on the way. -/
def work (s : Orderly) : Nat :=
  2 * s.transfer.client.work + (s.transfer.toServer.length - s.arrived) +
    s.transfer.server.phase.work

structure Flowing (q : Session) (answers : List Packet) (s : Orderly) : Prop where
  kept : ∃ outs, Kept q outs s
  steady : s.transfer.client.Steady q.window
  toClient_eq : s.transfer.toClient = q.synAcks ++ answers
  windows : s.transfer.server.phase = .receiving → ∀ p ∈ answers, p.hdr.windowSize = 65535
  acked : s.transfer.server.phase = .receiving → 0 < s.transfer.server.reassembly.out.length →
    Server.cumulativeAck s.transfer.server.reassembly ∈ answers
  finSent : s.transfer.client.sending = false →
    ∃ p ∈ s.transfer.toServer, p.hdr.has shamFin = true
  noFin : s.transfer.server.phase = .receiving →
    ∀ p ∈ s.transfer.toServer.take s.arrived, p.hdr.has shamFin = false

variable {q : Session} {outs answers : List Packet} {s s' : Orderly} {a : Action}
  {i : Fin maxInflight} {p : Packet} {out : List Empty}

theorem Kept.slot_len (h : Kept q outs s) (huse : s.transfer.client.inUse i = true) :
    (s.transfer.client.inflight i).len ≤ shamMtu := by
  obtain ⟨j, -, -, hbytes⟩ := h.cuts.held i huse
  rw [(h.terminates.inv.holds.held i huse).2, hbytes, length_block]
  exact min_le_left _ _

/-- Where everything has arrived, what a slot in use holds is written. -/
theorem Kept.slotEnd_le (hq : q.NoWrap) (h : Kept q outs s)
    (hall : s.arrived = s.transfer.toServer.length) (huse : s.transfer.client.inUse i = true) :
    s.transfer.client.slotEnd i ≤ s.transfer.server.reassembly.expected.toNat ∧
      0 < s.transfer.server.reassembly.out.length := by
  obtain ⟨j, hj, hseq, hbytes⟩ := h.cuts.held i huse
  obtain ⟨p, hp, hcarries⟩ := h.cuts.sent j hj
  have hmem : p ∈ s.transfer.toServer.take s.arrived := by
    rw [hall, List.take_length, h.toServer_eq]
    exact List.mem_append_right _ hp
  have hwritten := h.written p hmem j hcarries
  have hnumber : (s.transfer.client.inflight i).seq.toNat = q.first + shamMtu * j := by
    rw [hseq, ← Session.toNat_of_carries hq hcarries]
    obtain ⟨-, win, rfl⟩ := hcarries
    rfl
  have hlt := hcarries.1
  have hexpected := h.whole.rebuilds.expected_eq
  have hmtu : shamMtu = 1024 := rfl
  rw [Nat.mul_succ] at hwritten
  rw [Client.slotEnd, (h.terminates.inv.holds.held i huse).2, hbytes, length_block]
  omega

theorem Flowing.mem_answers (h : Flowing q answers s) {index : Nat}
    (hindex : q.staleSynAcks.length < index) (hget : s.transfer.toClient[index]? = some p) :
    p ∈ answers := by
  have hlength : q.synAcks.length = q.staleSynAcks.length + 1 := by simp [Session.synAcks]
  rw [h.toClient_eq, List.getElem?_append_right (by omega)] at hget
  exact List.mem_of_getElem? hget

theorem Flowing.exists_index (h : Flowing q answers s) (hp : p ∈ answers) :
    ∃ index, q.staleSynAcks.length < index ∧ s.transfer.toClient[index]? = some p := by
  obtain ⟨k, hk⟩ := List.mem_iff_getElem?.mp hp
  have hlength : q.synAcks.length = q.staleSynAcks.length + 1 := by simp [Session.synAcks]
  refine ⟨q.synAcks.length + k, by omega, ?_⟩
  rw [h.toClient_eq, List.getElem?_append_right (Nat.le_add_right _ _), Nat.add_sub_cancel_left]
  exact hk

theorem Flowing.reads (h : Flowing q answers s) (hp : p ∈ answers) :
    ∃ delivery, (∀ now resentAt, ReadsAnswers q s (.client (some delivery) now resentAt)) ∧
      s.transfer.received (some delivery) = some (some p.hdr) := by
  obtain ⟨index, hindex, hget⟩ := h.exists_index hp
  refine ⟨⟨index, none⟩, fun _ _ => ⟨hindex, rfl⟩, ?_⟩
  simp [Transfer.received, Transfer.deliver, hget]

theorem flowing_start (hq : q.NoWrap) : Flowing q [] (start q) where
  kept := ⟨[], kept_start hq⟩
  steady := Client.steady_start q.cliSeq q.outname q.contents (q.synAck q.srvSeq)
  toClient_eq := (List.append_nil _).symm
  windows := by simp
  acked _ hpos := absurd hpos (Nat.lt_irrefl 0)
  finSent hleft := by simp [start, Transfer.start, Client.start, Client.sending] at hleft
  noFin _ p hp := Session.noFin_sentBefore p (List.mem_of_mem_take hp)

theorem Flowing.client (h : Flowing q answers s) {delivery : Option Delivery} {env : ClientEnv}
    {sent : List Packet}
    (hreads : ReadsAnswers q s (.client delivery env.now env.resentAt))
    (hreceived : s.transfer.received delivery = some env.received)
    (hclient : s.transfer.client.step env = some (s'.transfer.client, sent))
    (hserver : s'.transfer.server = s.transfer.server)
    (htoServer : s'.transfer.toServer = s.transfer.toServer ++ sent)
    (htoClient : s'.transfer.toClient = s.transfer.toClient) (harrived : s'.arrived = s.arrived)
    (hkept : ∃ outs, Kept q outs s') : Flowing q answers s' := by
  obtain ⟨outs, hold⟩ := h.kept
  have hack : s.transfer.client.sending = true →
      ∀ hdr, env.received = some hdr → hdr.windowSize = 65535 := by
    intro hsending hdr hhdr
    have hphase : s.transfer.server.phase = .receiving := by
      by_contra hne
      rw [hold.terminates.inv.phase hne] at hsending
      cases hsending
    rw [hhdr] at hreceived
    cases delivery with
    | none => simp [Transfer.received] at hreceived
    | some d =>
        obtain ⟨hindex, hwindow⟩ := hreads
        simp only [Transfer.received, Transfer.deliver, hwindow, Option.map_map,
          Option.map_eq_some_iff, Function.comp_apply, Option.some.injEq] at hreceived
        obtain ⟨p, hget, rfl⟩ := hreceived
        exact h.windows hphase p (h.mem_answers hindex hget)
  refine ⟨hkept, h.steady.step (fun i => hold.slot_len) hack hclient, ?_, ?_, ?_, ?_, ?_⟩
  · rw [htoClient]
    exact h.toClient_eq
  · rw [hserver]
    exact h.windows
  · rw [hserver]
    exact h.acked
  · intro hleft
    rw [htoServer]
    cases hsending : s.transfer.client.sending with
    | true =>
        obtain ⟨p, hp, hfin⟩ := Client.fin_of_left hclient hsending hleft
        exact ⟨p, List.mem_append_right _ hp, hfin⟩
    | false =>
        obtain ⟨p, hp, hfin⟩ := h.finSent hsending
        exact ⟨p, List.mem_append_left _ hp, hfin⟩
  · rw [hserver, harrived, htoServer, List.take_append_of_le_length hold.arrived_le]
    exact h.noFin

theorem Flowing.server (h : Flowing q answers s) {index : Nat} {shouldDrop : Bool}
    {sent : List Packet} (hget : s.transfer.toServer[index]? = some p)
    (hserver : s.transfer.server.step ⟨p, shouldDrop⟩ = some (s'.transfer.server, sent))
    (hclient : s'.transfer.client = s.transfer.client)
    (htoServer : s'.transfer.toServer = s.transfer.toServer)
    (htoClient : s'.transfer.toClient = s.transfer.toClient ++ sent)
    (hindex : (index < s.arrived ∧ s'.arrived = s.arrived) ∨
      (index = s.arrived ∧ shouldDrop = false ∧ s'.arrived = s.arrived + 1))
    (hkept : ∃ outs, Kept q outs s') : Flowing q (answers ++ sent) s' := by
  obtain ⟨outs, hnew⟩ := hkept
  have hsteady : s'.transfer.client.Steady q.window := by
    rw [hclient]
    exact h.steady
  have htoClient : s'.transfer.toClient = q.synAcks ++ (answers ++ sent) := by
    rw [htoClient, h.toClient_eq, List.append_assoc]
  have hfinSent : s'.transfer.client.sending = false →
      ∃ p ∈ s'.transfer.toServer, p.hdr.has shamFin = true := by
    rw [hclient, htoServer]
    exact h.finSent
  have hleft : s'.transfer.server.phase ≠ .receiving → Flowing q (answers ++ sent) s' :=
    fun hne => ⟨⟨outs, hnew⟩, hsteady, htoClient, fun hphase => absurd hphase hne,
      fun hphase => absurd hphase hne, hfinSent, fun hphase => absurd hphase hne⟩
  rcases Server.step_cases hserver with
    ⟨hphase, hdrop, hsame, rfl⟩ | ⟨-, -, hv, -⟩ | ⟨hphase, hfin, r, -, hv, rfl⟩ | ⟨-, hv, -⟩
  · have harrived : s'.arrived = s.arrived := by
      rcases hindex with ⟨-, harrived⟩ | ⟨-, hkept, -⟩
      · exact harrived
      · exact absurd (hdrop.symm.trans hkept) (by decide)
    rw [List.append_nil] at htoClient ⊢
    refine ⟨⟨outs, hnew⟩, hsteady, htoClient, ?_, ?_, hfinSent, ?_⟩
    · rw [hsame]
      exact h.windows
    · rw [hsame]
      exact h.acked
    · rw [hsame, harrived, htoServer]
      exact h.noFin
  · exact hleft (by simp [hv])
  · have hr : s'.transfer.server.reassembly = r := by rw [hv]
    have havail := Session.avail_of_empty hnew.whole.empty
    rw [hr] at havail
    refine ⟨⟨outs, hnew⟩, hsteady, htoClient, fun _ p' hp' => ?_, fun _ _ => ?_, hfinSent,
      fun _ p' hp' => ?_⟩
    · rcases List.mem_append.mp hp' with hp' | hp'
      · exact h.windows hphase p' hp'
      · rw [List.mem_singleton.mp hp']
        exact havail
    · rw [hr]
      exact List.mem_append_right _ (List.mem_singleton_self _)
    · rw [htoServer] at hp'
      rcases hindex with ⟨-, harrived⟩ | ⟨rfl, -, harrived⟩ <;> rw [harrived] at hp'
      · exact h.noFin hphase p' hp'
      · rw [List.take_add_one, hget] at hp'
        rcases List.mem_append.mp hp' with hp' | hp'
        · exact h.noFin hphase p' hp'
        · obtain rfl : p' = p := by simpa using hp'
          exact hfin
  · exact hleft (by simp [hv])

theorem Flowing.step (hq : q.NoWrap) (h : Flowing q answers s) (hreads : ReadsAnswers q s a)
    (hstep : step a s = some (s', out)) : ∃ answers', Flowing q answers' s' := by
  obtain ⟨outs, hold⟩ := h.kept
  have hkept := hold.step hq hstep
  rcases step_cases hstep with
    ⟨delivery, env, sent, rfl, hreceived, hclient, hserver, htoServer, htoClient, harrived⟩ |
    ⟨index, shouldDrop, p, sent, -, hget, hserver, hclient, htoServer, htoClient, hindex⟩
  · exact ⟨answers, h.client hreads hreceived hclient hserver htoServer htoClient harrived hkept⟩
  · exact ⟨answers ++ sent, h.server hget hserver hclient htoServer htoClient hindex hkept⟩

/-! ## The next step towards the end -/

/-- A step that the network allows uses up some of the work. -/
def Advances (q : Session) (s : Orderly) : Prop :=
  ∃ a s' out, ReadsAnswers q s a ∧ machine.step a s = some (s', out) ∧ s'.work < s.work

theorem advances_client {delivery : Option Delivery} {now : Timeval}
    {resentAt : Fin maxInflight → Timeval} {received : Option Header} {c : Client}
    {sent : List Packet} (hreads : ReadsAnswers q s (.client delivery now resentAt))
    (hreceived : s.transfer.received delivery = some received)
    (hstep : s.transfer.client.step ⟨received, now, resentAt⟩ = some (c, sent))
    (hlt : c.work < s.transfer.client.work) (hone : sent.length ≤ 1) : Advances q s := by
  refine ⟨_, ⟨{ s.transfer with client := c, toServer := s.transfer.toServer ++ sent }, s.arrived⟩,
    [], hreads, step_eq_some.mpr ⟨rfl, ?_⟩, ?_⟩
  · simp [Transfer.step, hreceived, hstep]
  · simp only [work, List.length_append]
    omega

theorem advances_tick {c : Client} {sent : List Packet}
    (hstep : s.transfer.client.step ⟨none, ⟨0, 0⟩, fun _ => ⟨0, 0⟩⟩ = some (c, sent))
    (hlt : c.work < s.transfer.client.work) (hone : sent.length ≤ 1) : Advances q s :=
  advances_client (show ReadsAnswers q s Session.tick from trivial) rfl hstep hlt hone

theorem advances_server {index : Nat} {shouldDrop : Bool} {arrived : Nat} {v : Server}
    {sent : List Packet}
    (harrived : arrivedAfter (.server index shouldDrop) s.arrived = some arrived)
    (hget : s.transfer.toServer[index]? = some p)
    (hstep : s.transfer.server.step ⟨p, shouldDrop⟩ = some (v, sent))
    (hlt : s.transfer.toServer.length - arrived + v.phase.work <
      s.transfer.toServer.length - s.arrived + s.transfer.server.phase.work) : Advances q s := by
  refine ⟨.server index shouldDrop,
    ⟨{ s.transfer with server := v, toClient := s.transfer.toClient ++ sent }, arrived⟩, [],
    trivial, step_eq_some.mpr ⟨harrived, ?_⟩, ?_⟩
  · simp [Transfer.step, hget, hstep]
  · simp only [work]
    omega

/-- The server in its receive loop answers whatever arrives. -/
theorem Kept.server_step (hq : q.NoWrap) (h : Kept q outs s)
    (hphase : s.transfer.server.phase = .receiving) {index : Nat}
    (hget : s.transfer.toServer[index]? = some p) (hindex : index ≤ s.arrived) :
    ∃ v sent, s.transfer.server.step ⟨p, false⟩ = some (v, sent) ∧
      v.phase.work ≤ s.transfer.server.phase.work := by
  cases hfin : p.hdr.has shamFin with
  | true =>
      refine ⟨_, _, by simp only [Server.step, hphase, hfin, if_true]; rfl, ?_⟩
      rw [hphase]
      exact Nat.le_succ 1
  | false =>
      obtain ⟨r, hr⟩ : ∃ r, s.transfer.server.reassembly.receive p.hdr.seqNum p.data = some r := by
        rcases h.arrives hq hget hindex with ⟨-, hold⟩ | ⟨hsome, -⟩ | ⟨-, j, hcarries, hle⟩
        · exact ⟨_, h.whole.receive_before hold p.data⟩
        · simp [hsome] at hfin
        · obtain ⟨r, hr, -⟩ := h.whole.receive hq hcarries hle
          exact ⟨r, hr⟩
      refine ⟨{ s.transfer.server with reassembly := r }, [Server.cumulativeAck r], ?_, le_rfl⟩
      simp [Server.step, hphase, hfin, hr]

theorem advances_waiting (hq : q.NoWrap) (h : Kept q outs s)
    (hphase : s.transfer.server.phase = .receiving)
    (hwaiting : s.arrived < s.transfer.toServer.length) : Advances q s := by
  have hget := List.getElem?_eq_getElem hwaiting
  obtain ⟨v, sent, hstep, hle⟩ := h.server_step hq hphase hget le_rfl
  have harrived : arrivedAfter (.server s.arrived false) s.arrived = some (s.arrived + 1) := by
    simp [arrivedAfter]
  exact advances_server harrived hget hstep (by omega)

theorem advances_finalAck (h : Kept q outs s) (hphase : s.transfer.server.phase = .finalAck) :
    Advances q s := by
  have hpos : 0 < s.arrived := lt_of_lt_of_le (Nat.succ_pos 2) h.handshake_le
  have hlength : 0 < s.transfer.toServer.length := lt_of_lt_of_le hpos h.arrived_le
  have hget := List.getElem?_eq_getElem hlength
  have harrived : arrivedAfter (.server 0 true) s.arrived = some s.arrived := by
    simp [arrivedAfter, hpos]
  have hclosed : s.transfer.server.step ⟨s.transfer.toServer[0], true⟩ =
      some ({ s.transfer.server with phase := .closed }, []) := by
    simp [Server.step, hphase]
  refine advances_server harrived hget hclosed ?_
  rw [hphase]
  simp [ServerPhase.work]

/-- Everything has arrived, and the client is still sending. -/
theorem Flowing.advances_sending (hq : q.NoWrap) (hwin : shamMtu ≤ q.window.toNat)
    (h : Flowing q answers s) (hphase : s.transfer.server.phase = .receiving)
    (hall : s.arrived = s.transfer.toServer.length) : Advances q s := by
  obtain ⟨outs, hkept⟩ := h.kept
  have hsending : s.transfer.client.sending = true := by
    rw [← Bool.not_eq_false]
    intro hleft
    obtain ⟨p, hp, hfin⟩ := h.finSent hleft
    have hnone := h.noFin hphase p (by rwa [hall, List.take_length])
    rw [hfin] at hnone
    cases hnone
  cases hpc : s.transfer.client.pc with
  | whileTest =>
      obtain ⟨c, hstep, hlt⟩ := Client.whileTest_lt hpc ⟨none, ⟨0, 0⟩, fun _ => ⟨0, 0⟩⟩
      exact advances_tick hstep hlt (Nat.zero_le _)
  | round i =>
      obtain ⟨c, sent, hstep, hlt, hone⟩ :=
        h.steady.round_step_lt hwin hpc ⟨none, ⟨0, 0⟩, fun _ => ⟨0, 0⟩⟩
      exact advances_tick hstep hlt hone
  | select i =>
      have huse := h.steady.selects i hpc
      have hack := h.acked hphase (hkept.slotEnd_le hq hall huse).2
      obtain ⟨delivery, hreads, hreceived⟩ := h.reads hack
      have hflag : (Server.cumulativeAck s.transfer.server.reassembly).hdr.has shamAck = true := by
        simp [Server.cumulativeAck, Header.has, shamAck]
      obtain ⟨c, hstep, hlt⟩ := Client.poll_lt hpc huse hflag
        (fun j hj => (hkept.slotEnd_le hq hall hj).1) ⟨0, 0⟩ (fun _ => ⟨0, 0⟩)
      exact advances_client (hreads ⟨0, 0⟩ fun _ => ⟨0, 0⟩) hreceived hstep hlt (Nat.zero_le _)
  | finTest => simp [Client.sending, hpc] at hsending
  | finRecv => simp [Client.sending, hpc] at hsending
  | closed => simp [Client.sending, hpc] at hsending

/-- The ACK of the FIN and the server's FIN are among the answers. -/
theorem Flowing.answered (h : Flowing q answers s) (hphase : s.transfer.server.phase ≠ .receiving) :
    Server.finReply s.transfer.client.nextseq ∈ answers ∧ Server.finOf q.srvSeq ∈ answers := by
  obtain ⟨outs, hkept⟩ := h.kept
  obtain ⟨hreply, hfin⟩ := hkept.terminates.answered hphase
  have hflags : ∀ p ∈ q.synAcks, p.hdr.flags = shamSyn ||| shamAck := by
    intro p hp
    simp only [Session.synAcks, List.mem_map] at hp
    obtain ⟨srvSeq, -, rfl⟩ := hp
    rfl
  rw [h.toClient_eq, List.mem_append] at hreply hfin
  have hack : shamAck ≠ shamSyn ||| shamAck := by decide
  have hfinAck : shamFin ≠ shamSyn ||| shamAck := by decide
  constructor
  · exact hreply.resolve_left fun hmem => hack (hflags _ hmem)
  · exact hfin.resolve_left fun hmem => hfinAck (hflags _ hmem)

theorem Flowing.advances_closing (h : Flowing q answers s)
    (hphase : s.transfer.server.phase ≠ .receiving) (hopen : s.transfer.client.pc ≠ .closed) :
    Advances q s := by
  obtain ⟨outs, hkept⟩ := h.kept
  have hleft := hkept.terminates.inv.phase hphase
  obtain ⟨hreply, hfin⟩ := h.answered hphase
  cases hpc : s.transfer.client.pc with
  | whileTest => simp [Client.sending, hpc] at hleft
  | round i => simp [Client.sending, hpc] at hleft
  | select i => simp [Client.sending, hpc] at hleft
  | finTest =>
      obtain ⟨c, sent, hstep, hlt, hone⟩ := Client.finTest_lt hpc ⟨none, ⟨0, 0⟩, fun _ => ⟨0, 0⟩⟩
      exact advances_tick hstep hlt hone
  | finRecv =>
      have hreplyHdr : (Server.finReply s.transfer.client.nextseq).hdr.has shamAck = true ∧
          (Server.finReply s.transfer.client.nextseq).hdr.ackNum =
            s.transfer.client.nextseq + 1 := by
        simp [Server.finReply, Header.has, shamAck]
      have hfinHdr : (Server.finOf q.srvSeq).hdr.has shamAck = false ∧
          (Server.finOf q.srvSeq).hdr.has shamFin = true := by
        simp only [Server.finOf, Header.has]
        decide
      obtain ⟨hdr, c, sent, hread, hstep, hlt, hone⟩ :=
        Client.finRecv_lt hpc hreplyHdr hfinHdr ⟨0, 0⟩ fun _ => ⟨0, 0⟩
      rcases hread with rfl | rfl
      · obtain ⟨delivery, hreads, hreceived⟩ := h.reads hreply
        exact advances_client (hreads _ _) hreceived hstep hlt hone
      · obtain ⟨delivery, hreads, hreceived⟩ := h.reads hfin
        exact advances_client (hreads _ _) hreceived hstep hlt hone
  | closed => exact absurd hpc hopen

/-- Both programs have left: the client its termination loop, the server its receive loop. -/
def Done (s : Orderly) : Prop :=
  s.transfer.client.pc = .closed ∧ s.transfer.server.phase = .closed

theorem Flowing.advances (hq : q.NoWrap) (hwin : shamMtu ≤ q.window.toNat)
    (h : Flowing q answers s) (hopen : ¬ s.Done) : Advances q s := by
  obtain ⟨outs, hkept⟩ := h.kept
  cases hphase : s.transfer.server.phase with
  | receiving =>
      rcases hkept.arrived_le.lt_or_eq with hwaiting | hall
      · exact advances_waiting hq hkept hphase hwaiting
      · exact h.advances_sending hq hwin hphase hall
  | finalAck => exact advances_finalAck hkept hphase
  | closed =>
      refine h.advances_closing (by simp [hphase]) fun hclosed => hopen ⟨hclosed, hphase⟩

/--
A transfer over an orderly network, with the windows that the server advertises and at least one
block in that of the handshake, can be completed from wherever it is: both programs leave, and the
output file is the client's.
-/
theorem transfer_completes (hq : q.NoWrap) (hwin : shamMtu ≤ q.window.toNat)
    {actions : List Action} (hreads : machine.Guarded (ReadsAnswers q) actions (start q))
    (hrun : machine.run actions (start q) = some (s, [])) :
    ∃ more t, machine.Guarded (ReadsAnswers q) more s ∧ machine.run more s = some (t, []) ∧
      t.Done ∧ t.transfer.server.reassembly.out = q.contents := by
  have hs : ∃ answers, Flowing q answers s :=
    machine.run_invariant_of_guarded (P := fun s => ∃ answers, Flowing q answers s)
      (fun _ _ _ _ ⟨_, h⟩ hguard hstep => h.step hq hguard hstep) ⟨[], flowing_start hq⟩ hreads hrun
  have hstep : ∀ s, (∃ answers, Flowing q answers s) → ¬ s.Done → ∃ a s' out,
      ReadsAnswers q s a ∧ machine.step a s = some (s', out) ∧
        (∃ answers, Flowing q answers s') ∧ s'.work < s.work := by
    rintro s ⟨answers, h⟩ hopen
    obtain ⟨a, s', out, hguard, hstep, hlt⟩ := h.advances hq hwin hopen
    exact ⟨a, s', out, hguard, hstep, h.step hq hguard hstep, hlt⟩
  obtain ⟨more, t, outs, hmore, hmoreRun, ⟨answers, ht⟩, hdone⟩ :=
    machine.exists_run_to work hstep hs
  obtain rfl : outs = [] := Subsingleton.elim _ _
  obtain ⟨_, hkept⟩ := ht.kept
  exact ⟨more, t, hmore, hmoreRun, hdone, hkept.ended (by simp [hdone.2])⟩

/-- The FIN and the byte before it are on the way, and the server has read neither. -/
theorem transfer_completes_earlyFin :
    ∃ s more t, machine.run (earlyFin.take 4) (start Session.oneByte) = some (s, []) ∧
      s.transfer.client.sending = false ∧ s.transfer.server.reassembly.out = [] ∧
      machine.run more s = some (t, []) ∧ t.Done ∧
      t.transfer.server.reassembly.out = Session.oneByte.contents := by
  obtain ⟨s, outs, hrun, htest⟩ := machine.exists_run (earlyFin.take 4) (start Session.oneByte)
    (fun x => !x.1.transfer.client.sending && x.1.transfer.server.reassembly.out == [])
    (by decide +kernel)
  obtain rfl : outs = [] := Subsingleton.elim _ _
  simp only [Bool.and_eq_true, Bool.not_eq_true', beq_iff_eq] at htest
  obtain ⟨more, t, -, hmore, hdone, hout⟩ :=
    transfer_completes (by decide) (by decide) (by decide +kernel) hrun
  exact ⟨s, more, t, hrun, htest.1, htest.2, hmore, hdone, hout⟩

end Orderly

end OxyC.Networking
