import OxyC.Networking.Blocks
import OxyC.Networking.InOrder
import OxyC.Networking.Termination

/-!
# Transfers over an orderly network

The client's datagrams reach the server for the first time in the order of
sending, and none of them is lost; what has arrived may arrive again, and what
the server sends may be lost, delayed, repeated and changed in its window.  Then
the server buffers nothing, and the FIN finds the whole file written, whether or
not the client has waited for the ACKs.
-/

namespace OxyC.Networking

open OxyC.Foundation

namespace Session

/-- The sequence number of the first file byte. -/
def firstSeq (q : Session) : UInt32 := q.cliSeq + 1 + UInt32.ofNat q.outname.length

/-- Whole blocks of the file are written, and nothing is buffered. -/
structure WholeBlocks (q : Session) (r : Reassembly) : Prop where
  rebuilds : q.Rebuilds r
  empty : ∀ b ∈ r.bufs, b.seq = 0
  cut : r.out.length = q.contents.length ∨ shamMtu ∣ r.out.length

variable {q : Session} {r : Reassembly} {p : Packet} {j : Nat}

theorem toNat_of_carries (hq : q.NoWrap) (h : Carries q.firstSeq q.contents j p) :
    p.hdr.seqNum.toNat = q.first + shamMtu * j := by
  obtain ⟨hj, win, rfl⟩ := h
  have hfirst := hq.toNat_first
  unfold NoWrap at hq
  rw [Client.sendPacket, blockSeq, firstSeq, toNat_add_ofNat, hfirst]
  omega

theorem WholeBlocks.length_le (h : q.WholeBlocks r) : r.out.length ≤ q.contents.length := by
  rw [h.rebuilds.out_eq]
  exact List.length_take_le' _ _

/-- A datagram from before the first file byte changes nothing. -/
theorem WholeBlocks.receive_before (h : q.WholeBlocks r) {seq : UInt32}
    (hseq : seq.toNat < q.first) (payload : List UInt8) : r.receive seq payload = some r := by
  have hexpected := h.rebuilds.expected_eq
  have hne : seq ≠ r.expected := by
    rintro rfl
    omega
  have hlt : ¬ r.expected < seq := by
    rw [UInt32.lt_iff_toNat_lt]
    omega
  rw [Reassembly.receive, if_neg hne, if_neg hlt]

theorem WholeBlocks.write (hq : q.NoWrap) (h : q.WholeBlocks r)
    (hj : shamMtu * j < q.contents.length)
    (hlength : r.out.length = shamMtu * j) : q.WholeBlocks (r.write (block q.contents j)) := by
  have hseg : q.Segment r.expected (block q.contents j) := by
    refine ⟨shamMtu * j, ?_, SliceAt.of_take_drop _ _ hj.le⟩
    rw [h.rebuilds.expected_eq, hlength]
  refine ⟨h.rebuilds.write hq hseg, h.empty, ?_⟩
  rw [Reassembly.out_write, List.length_append, hlength, length_block]
  rcases Nat.le_total shamMtu (q.contents.length - shamMtu * j) with hfull | hlast
  · right
    rw [min_eq_left hfull]
    exact ⟨j + 1, rfl⟩
  · left
    rw [min_eq_right hlast]
    omega

/-- A block behind whole blocks is written, or it has been written before. -/
theorem WholeBlocks.receive (hq : q.NoWrap) (h : q.WholeBlocks r)
    (hcarries : Carries q.firstSeq q.contents j p) (hle : shamMtu * j ≤ r.out.length) :
    ∃ r', r.receive p.hdr.seqNum p.data = some r' ∧ q.WholeBlocks r' ∧
      r.out.length ≤ r'.out.length ∧
      min (shamMtu * (j + 1)) q.contents.length ≤ r'.out.length := by
  have hseq := toNat_of_carries hq hcarries
  have hexpected := h.rebuilds.expected_eq
  obtain ⟨hj, win, rfl⟩ := hcarries
  rcases hle.eq_or_lt with hlength | hlater
  · have hwhole := h.write hq hj hlength.symm
    have horder : (Client.sendPacket (blockSeq q.firstSeq j) (block q.contents j) win).hdr.seqNum =
        r.expected := by
      rw [← UInt32.toNat_inj, hseq, hexpected, hlength]
    have hdrain := drain_of_empty hwhole.empty hwhole.rebuilds.expected_ne_zero
    refine ⟨r.write (block q.contents j), ?_, hwhole, by simp, ?_⟩
    · rw [Reassembly.receive, if_pos horder]
      exact hdrain
    · rw [Reassembly.out_write, List.length_append, ← hlength, length_block, Nat.mul_succ]
      omega
  · have hne : (Client.sendPacket (blockSeq q.firstSeq j) (block q.contents j) win).hdr.seqNum ≠
        r.expected := by
      intro heq
      rw [heq] at hseq
      omega
    have hlt : ¬ r.expected <
        (Client.sendPacket (blockSeq q.firstSeq j) (block q.contents j) win).hdr.seqNum := by
      rw [UInt32.lt_iff_toNat_lt]
      omega
    refine ⟨r, by rw [Reassembly.receive, if_neg hne, if_neg hlt], h, le_rfl, ?_⟩
    rcases h.cut with hend | ⟨k, hk⟩
    · rw [hend]
      exact min_le_right _ _
    · have hjk : j + 1 ≤ k := by
        by_contra hkj
        have hmul : shamMtu * k ≤ shamMtu * j := Nat.mul_le_mul_left _ (by omega)
        omega
      have hmul : shamMtu * (j + 1) ≤ shamMtu * k := Nat.mul_le_mul_left _ hjk
      omega

theorem sentBefore_lt (hq : q.NoWrap) : ∀ p ∈ q.sentBefore, p.hdr.seqNum.toNat < q.first := by
  have hpos := q.outname_pos
  have hone : (q.cliSeq + 1).toNat = q.cliSeq.toNat + 1 := by
    unfold NoWrap first at hq
    rw [UInt32.toNat_add]
    simp
    omega
  intro p hp
  simp only [sentBefore, List.mem_cons, List.not_mem_nil, or_false] at hp
  unfold first
  rcases hp with rfl | rfl | rfl
  · dsimp only
    omega
  · rw [hone]
    omega
  · rw [Client.namePacket, Client.sendPacket, hone]
    omega

end Session

/-- What the client sends in one step: data, FINs and ACKs without a sequence number. -/
theorem Client.flags_of_step {env : ClientEnv} {c c' : Client} {out : List Packet}
    (h : c.step env = some (c', out)) {p : Packet} (hp : p ∈ out) :
    p.hdr.flags = 0 ∨ p.hdr.flags = shamFin ∨ ∃ hdr, p = ackOf hdr := by
  rcases step_cases h with
    ⟨-, rfl, -⟩ | ⟨i, -, hround⟩ | ⟨i, -, hpoll⟩ | ⟨-, -, rfl⟩ | ⟨-, -, hout⟩ | ⟨-, hrecv⟩
  · simp at hp
  · rcases c.round_cases i env.now with
      ⟨-, heq⟩ | ⟨-, -, heq⟩ | ⟨-, -, -, heq⟩ | ⟨-, -, -, -, heq⟩ | ⟨-, -, -, -, -, heq⟩ |
      ⟨-, -, -, -, -, heq⟩ <;> rw [hround] at heq <;> cases heq
    · simp at hp
    · rw [List.mem_singleton.mp hp]
      exact .inr (.inl rfl)
    · simp at hp
    · rw [List.mem_singleton.mp hp]
      exact .inr (.inl rfl)
    · simp at hp
    · rw [List.mem_singleton.mp hp]
      exact .inl rfl
  · cases hpoll
    simp only [List.mem_map] at hp
    obtain ⟨k, -, rfl⟩ := hp
    exact .inl rfl
  · exact .inr (.inr ⟨c.buf, List.mem_singleton.mp hp⟩)
  · rw [hout p hp]
    exact .inr (.inl rfl)
  · exact .inr (.inr ((frame_recvFin hrecv).2.2.2.2.2 p hp))

/-- The system, and how many of the client's datagrams have reached the server. -/
structure Orderly where
  transfer : Transfer
  arrived : Nat

namespace Orderly

def start (q : Session) : Orderly := ⟨.start q, q.sentBefore.length⟩

/-- What arrives has arrived before, or it is the next datagram and is not dropped. -/
def arrivedAfter : Action → Nat → Option Nat
  | .client _ _ _, n => some n
  | .server index shouldDrop, n =>
      if index < n then some n
      else if index = n ∧ shouldDrop = false then some (n + 1)
      else none

def step (a : Action) (s : Orderly) : Option (Orderly × List Empty) := do
  let arrived ← arrivedAfter a s.arrived
  let (transfer, out) ← Transfer.step a s.transfer
  pure (⟨transfer, arrived⟩, out)

def machine : Mealy Action Empty Orderly := ⟨step⟩

theorem step_eq_some {a : Action} {s s' : Orderly} {out : List Empty} :
    step a s = some (s', out) ↔ arrivedAfter a s.arrived = some s'.arrived ∧
      Transfer.step a s.transfer = some (s'.transfer, out) := by
  simp only [step, Option.bind_eq_bind, Option.bind_eq_some_iff, Prod.exists, Option.pure_def,
    Option.some.injEq, Prod.mk.injEq]
  constructor
  · rintro ⟨n, hn, t, o, ht, rfl, rfl⟩
    exact ⟨hn, ht⟩
  · rintro ⟨hn, ht⟩
    exact ⟨_, hn, _, _, ht, rfl, rfl⟩

theorem step_cases {a : Action} {s s' : Orderly} {out : List Empty}
    (h : step a s = some (s', out)) :
    (∃ delivery env sent, a = .client delivery env.now env.resentAt ∧
      s.transfer.received delivery = some env.received ∧
      s.transfer.client.step env = some (s'.transfer.client, sent) ∧
      s'.transfer.server = s.transfer.server ∧
      s'.transfer.toServer = s.transfer.toServer ++ sent ∧
      s'.transfer.toClient = s.transfer.toClient ∧ s'.arrived = s.arrived) ∨
    (∃ index shouldDrop p sent, a = .server index shouldDrop ∧
      s.transfer.toServer[index]? = some p ∧
      s.transfer.server.step ⟨p, shouldDrop⟩ = some (s'.transfer.server, sent) ∧
      s'.transfer.client = s.transfer.client ∧ s'.transfer.toServer = s.transfer.toServer ∧
      s'.transfer.toClient = s.transfer.toClient ++ sent ∧
      ((index < s.arrived ∧ s'.arrived = s.arrived) ∨
        (index = s.arrived ∧ shouldDrop = false ∧ s'.arrived = s.arrived + 1))) := by
  obtain ⟨harrived, hstep⟩ := step_eq_some.mp h
  cases a with
  | client delivery now resentAt =>
      simp only [Transfer.step, Option.bind_eq_bind, Option.bind_eq_some_iff, Prod.exists,
        Option.pure_def, Option.some.injEq, Prod.mk.injEq] at hstep
      obtain ⟨received, hreceived, client, sent, hclient, htransfer, -⟩ := hstep
      refine .inl ⟨delivery, ⟨received, now, resentAt⟩, sent, rfl, hreceived, ?_⟩
      simp only [arrivedAfter, Option.some.injEq] at harrived
      rw [← htransfer]
      exact ⟨hclient, rfl, rfl, rfl, harrived.symm⟩
  | server index shouldDrop =>
      simp only [Transfer.step, Option.bind_eq_bind, Option.bind_eq_some_iff, Prod.exists,
        Option.pure_def, Option.some.injEq, Prod.mk.injEq] at hstep
      obtain ⟨p, hget, server, sent, hserver, htransfer, -⟩ := hstep
      refine .inr ⟨index, shouldDrop, p, sent, rfl, hget, ?_⟩
      rw [← htransfer]
      refine ⟨hserver, rfl, rfl, rfl, ?_⟩
      simp only [arrivedAfter] at harrived
      split at harrived
      next hagain =>
          simp only [Option.some.injEq] at harrived
          exact .inl ⟨hagain, harrived.symm⟩
      next =>
          split at harrived
          next hnext =>
              simp only [Option.some.injEq] at harrived
              exact .inr ⟨hnext.1, hnext.2, harrived.symm⟩
          next => cases harrived

/-- What holds of the client's datagrams `outs`, of what has arrived and of the output file. -/
structure Kept (q : Session) (outs : List Packet) (s : Orderly) : Prop where
  terminates : q.Terminates s.transfer
  toServer_eq : s.transfer.toServer = q.sentBefore ++ outs
  cuts : Client.Cuts q.firstSeq q.contents outs s.transfer.client
  plain : ∀ p ∈ outs, p.hdr.flags = 0 ∨ p.hdr.flags = shamFin ∨ ∃ hdr, p = Client.ackOf hdr
  handshake_le : q.sentBefore.length ≤ s.arrived
  arrived_le : s.arrived ≤ s.transfer.toServer.length
  whole : q.WholeBlocks s.transfer.server.reassembly
  written : ∀ p ∈ s.transfer.toServer.take s.arrived, ∀ j, Carries q.firstSeq q.contents j p →
    min (shamMtu * (j + 1)) q.contents.length ≤ s.transfer.server.reassembly.out.length
  ended : s.transfer.server.phase ≠ .receiving →
    s.transfer.server.reassembly.out = q.contents

variable {q : Session} {outs : List Packet} {s s' : Orderly} {i : Nat} {p : Packet}

theorem kept_start (hq : q.NoWrap) : Kept q [] (start q) where
  terminates := .start hq
  toServer_eq := (List.append_nil _).symm
  cuts := Client.cuts_start q.cliSeq q.outname q.contents (q.synAck q.srvSeq)
  plain := by simp
  handshake_le := le_rfl
  arrived_le := le_rfl
  whole :=
    { rebuilds := (Session.inv_start hq).rebuilds
      empty := fun b hb => by
        rw [List.eq_of_mem_replicate hb]
        rfl
      cut := .inr (dvd_zero shamMtu) }
  written := by
    intro p hp j hcarries
    have hlt := Session.sentBefore_lt hq p (List.mem_of_mem_take hp)
    rw [Session.toNat_of_carries hq hcarries] at hlt
    omega
  ended hphase := absurd rfl hphase

theorem Kept.written_before (h : Kept q outs s) {k : Nat} (hk : q.sentBefore.length + k ≤ s.arrived)
    {j : Nat} (hsent : ∃ p ∈ outs.take k, Carries q.firstSeq q.contents j p) :
    min (shamMtu * (j + 1)) q.contents.length ≤
      s.transfer.server.reassembly.out.length := by
  obtain ⟨p, hp, hcarries⟩ := hsent
  have htake : q.sentBefore ++ outs.take k =
      s.transfer.toServer.take (q.sentBefore.length + k) := by
    rw [h.toServer_eq, List.take_append, List.take_of_length_le (Nat.le_add_right _ k),
      Nat.add_sub_cancel_left]
  have hmem : p ∈ s.transfer.toServer.take (q.sentBefore.length + k) := by
    rw [← htake]
    exact List.mem_append_right _ hp
  exact h.written p (List.take_subset_take_left _ hk hmem) j hcarries

/-- Where every block has arrived, the whole file is written. -/
theorem Kept.out_eq (h : Kept q outs s) {k : Nat} (hk : q.sentBefore.length + k ≤ s.arrived)
    (hsent : ∀ j, shamMtu * j < q.contents.length →
      ∃ p ∈ outs.take k, Carries q.firstSeq q.contents j p) :
    s.transfer.server.reassembly.out = q.contents := by
  have hle : q.contents.length ≤ s.transfer.server.reassembly.out.length := by
    rcases Nat.eq_zero_or_pos q.contents.length with hzero | hpos
    · omega
    · -- The last block ends at the end of the file.
      have hdiv := Nat.div_add_mod (q.contents.length - 1) shamMtu
      have hmod : (q.contents.length - 1) % shamMtu < shamMtu := Nat.mod_lt _ (by decide)
      have hlast := h.written_before hk
        (hsent ((q.contents.length - 1) / shamMtu) (by omega))
      rw [Nat.mul_succ] at hlast
      omega
  rw [h.whole.rebuilds.out_eq, List.take_of_length_le hle]

/-- The three kinds of datagrams that arrive: one that changes nothing, the FIN behind the whole
file, and a block behind blocks that are written. -/
theorem Kept.arrives (hq : q.NoWrap) (h : Kept q outs s)
    (hget : s.transfer.toServer[i]? = some p) (hi : i ≤ s.arrived) :
    (p.hdr.has shamFin = false ∧ p.hdr.seqNum.toNat < q.first) ∨
    (p.hdr.has shamFin = true ∧ s.transfer.server.reassembly.out = q.contents) ∨
    (p.hdr.has shamFin = false ∧ ∃ j, Carries q.firstSeq q.contents j p ∧
      shamMtu * j ≤ s.transfer.server.reassembly.out.length) := by
  rw [h.toServer_eq, List.getElem?_append] at hget
  split at hget
  next =>
      have hp := List.mem_of_getElem? hget
      exact .inl ⟨Session.noFin_sentBefore p hp, Session.sentBefore_lt hq p hp⟩
  next hge =>
      have hk : q.sentBefore.length + (i - q.sentBefore.length) ≤ s.arrived := by omega
      have hp := List.mem_of_getElem? hget
      obtain ⟨hlt, rfl⟩ := List.getElem?_eq_some_iff.mp hget
      have hin := h.cuts.sequence (outs.take (i - q.sentBefore.length)) _ _
        ((List.take_append_drop _ outs).symm.trans
          (congrArg _ (List.drop_eq_getElem_cons hlt)))
      rcases h.plain _ hp with hdata | hfin | ⟨hdr, hack⟩
      · refine .inr (.inr ⟨by simp [Header.has, hdata], ?_⟩)
        obtain ⟨j, hcarries, hbefore⟩ := hin.data hdata
        refine ⟨j, hcarries, ?_⟩
        cases j with
        | zero => exact Nat.zero_le _
        | succ j =>
            have hj := hcarries.1
            have hwritten := h.written_before hk (hbefore j (Nat.lt_succ_self j))
            omega
      · refine .inr (.inl ⟨by simp [Header.has, hfin, shamFin], ?_⟩)
        exact h.out_eq hk (hin.fin hfin).2.2
      · refine .inl ⟨by rw [hack]; exact Client.has_ackOf hdr, ?_⟩
        rw [hack]
        exact q.first_pos

structure Received (q : Session) (p : Packet) (shouldDrop : Bool) (s v : Server) : Prop where
  whole : q.WholeBlocks v.reassembly
  out_le : s.reassembly.out.length ≤ v.reassembly.out.length
  written : shouldDrop = false → ∀ j, Carries q.firstSeq q.contents j p →
    min (shamMtu * (j + 1)) q.contents.length ≤ v.reassembly.out.length
  ended : v.phase ≠ .receiving → v.reassembly.out = q.contents

theorem Kept.received (hq : q.NoWrap) (h : Kept q outs s)
    (hget : s.transfer.toServer[i]? = some p) (hi : i ≤ s.arrived) {shouldDrop : Bool} {v : Server}
    {sent : List Packet} (hstep : s.transfer.server.step ⟨p, shouldDrop⟩ = some (v, sent)) :
    Received q p shouldDrop s.transfer.server v := by
  have hall : s.transfer.server.reassembly.out = q.contents → ∀ j,
      min (shamMtu * (j + 1)) q.contents.length ≤
        s.transfer.server.reassembly.out.length := by
    intro hout j
    rw [hout]
    exact min_le_right _ _
  rcases Server.step_cases hstep with
    ⟨hphase, hdrop, rfl, -⟩ | ⟨-, hfin, rfl, -⟩ | ⟨hphase, hfin, r, hr, rfl, -⟩ | ⟨hphase, rfl, -⟩
  · exact ⟨h.whole, le_rfl, fun hkept => absurd (hdrop.symm.trans hkept) (by decide),
      fun hne => absurd hphase hne⟩
  · rcases h.arrives hq hget hi with ⟨hnone, -⟩ | ⟨-, hout⟩ | ⟨hnone, -⟩
    · simp [hnone] at hfin
    · exact ⟨h.whole, le_rfl, fun _ j _ => hall hout j, fun _ => hout⟩
    · simp [hnone] at hfin
  · rcases h.arrives hq hget hi with ⟨-, hold⟩ | ⟨hsome, -⟩ | ⟨-, j, hcarries, hle⟩
    · rw [h.whole.receive_before hold] at hr
      cases hr
      refine ⟨h.whole, le_rfl, fun _ j hcarries => ?_, fun hne => absurd hphase hne⟩
      rw [Session.toNat_of_carries hq hcarries] at hold
      omega
    · simp [hsome] at hfin
    · obtain ⟨r', hr', hwhole, hgrows, hblock⟩ := h.whole.receive hq hcarries hle
      rw [hr] at hr'
      cases hr'
      refine ⟨hwhole, hgrows, fun _ k hcarries' => ?_, fun hne => absurd hphase hne⟩
      have hjk : k = j := by
        have hseq := Session.toNat_of_carries hq hcarries
        rw [Session.toNat_of_carries hq hcarries'] at hseq
        exact Nat.eq_of_mul_eq_mul_left (by decide) (Nat.add_left_cancel hseq)
      rw [hjk]
      exact hblock
  · have hout := h.ended (by simp [hphase])
    exact ⟨h.whole, le_rfl, fun _ j _ => hall hout j, fun _ => hout⟩

theorem Kept.step (hq : q.NoWrap) {a : Action} {out : List Empty} (h : Kept q outs s)
    (hstep : step a s = some (s', out)) : ∃ outs', Kept q outs' s' := by
  have hterminates := h.terminates.step hq (step_eq_some.mp hstep).2
  rcases step_cases hstep with
    ⟨delivery, env, sent, -, -, hclient, hserver, htoServer, -, harrived⟩ |
    ⟨index, shouldDrop, p, sent, -, hget, hserver, hclient, htoServer, -, hindex⟩
  · refine ⟨outs ++ sent, hterminates, ?_, h.cuts.step hclient, ?_, ?_, ?_, ?_, ?_, ?_⟩
    · rw [htoServer, h.toServer_eq, List.append_assoc]
    · intro p hp
      rcases List.mem_append.mp hp with hp | hp
      · exact h.plain p hp
      · exact Client.flags_of_step hclient hp
    · rw [harrived]
      exact h.handshake_le
    · rw [harrived, htoServer, List.length_append]
      exact h.arrived_le.trans (Nat.le_add_right _ _)
    · rw [hserver]
      exact h.whole
    · rw [harrived, htoServer, hserver, List.take_append_of_le_length h.arrived_le]
      exact h.written
    · rw [hserver]
      exact h.ended
  · have hi : index ≤ s.arrived := by
      rcases hindex with ⟨hlt, -⟩ | ⟨heq, -⟩
      · exact hlt.le
      · exact heq.le
    have hreceived := h.received hq hget hi hserver
    refine ⟨outs, hterminates, htoServer.trans h.toServer_eq, ?_, h.plain, ?_, ?_,
      hreceived.whole, ?_, hreceived.ended⟩
    · rw [hclient]
      exact h.cuts
    · have hle := h.handshake_le
      omega
    · have hlt := (List.getElem?_eq_some_iff.mp hget).1
      have hle := h.arrived_le
      rw [htoServer]
      omega
    · intro p' hp' j hcarries
      rw [htoServer] at hp'
      rcases hindex with ⟨-, harrived⟩ | ⟨rfl, hdrop, harrived⟩ <;> rw [harrived] at hp'
      · exact (h.written p' hp' j hcarries).trans hreceived.out_le
      · rw [List.take_add_one, hget] at hp'
        rcases List.mem_append.mp hp' with hp' | hp'
        · exact (h.written p' hp' j hcarries).trans hreceived.out_le
        · obtain rfl : p' = p := by simpa using hp'
          exact hreceived.written hdrop j hcarries

theorem exists_kept (hq : q.NoWrap) {actions : List Action}
    (hrun : machine.run actions (start q) = some (s, [])) : ∃ outs, Kept q outs s :=
  machine.run_invariant (P := fun s => ∃ outs, Kept q outs s)
    (fun _ _ _ _ ⟨_, hs⟩ hstep => hs.step hq hstep) ⟨[], kept_start hq⟩ hrun

/-- A block that has arrived stands in the output file, at its place in the client's. -/
theorem Kept.sliceAt (h : Kept q outs s) (hp : p ∈ s.transfer.toServer.take s.arrived) {j : Nat}
    (hcarries : Carries q.firstSeq q.contents j p) :
    SliceAt s.transfer.server.reassembly.out (shamMtu * j) p.data := by
  have hwritten := h.written p hp j hcarries
  have hout := h.whole.rebuilds.out_eq
  obtain ⟨hj, win, rfl⟩ := hcarries
  rw [Nat.mul_succ] at hwritten
  have hblock : block q.contents j =
      (s.transfer.server.reassembly.out.drop (shamMtu * j)).take shamMtu := by
    rcases Nat.lt_or_ge s.transfer.server.reassembly.out.length q.contents.length with hpart | hall
    · have hfull : shamMtu ≤ s.transfer.server.reassembly.out.length - shamMtu * j := by omega
      rw [hout, block, List.drop_take, List.take_take, min_eq_left hfull]
    · rw [hout, List.take_of_length_le hall, block]
  rw [Client.sendPacket, hblock]
  exact SliceAt.of_take_drop _ _ (by omega)

/--
On an orderly network nothing is ever buffered, a block that has arrived is written, and the
server leaves its receive loop only with the whole file written: early FINs do no harm.
-/
theorem orderly_exact (hq : q.NoWrap) {actions : List Action}
    (hrun : machine.run actions (start q) = some (s, [])) :
    (∀ b ∈ s.transfer.server.reassembly.bufs, b.seq = 0) ∧
      (∀ p ∈ s.transfer.toServer.take s.arrived, ∀ j, Carries q.firstSeq q.contents j p →
        SliceAt s.transfer.server.reassembly.out (shamMtu * j) p.data) ∧
      (s.transfer.server.phase ≠ .receiving →
        s.transfer.server.reassembly.out = q.contents) := by
  obtain ⟨outs, h⟩ := exists_kept hq hrun
  exact ⟨h.whole.empty, fun p hp j hcarries => h.sliceAt hp hcarries, h.ended⟩

/-- The FIN is sent before the byte has been acknowledged; the byte arrives twice. -/
def earlyFin : List Action :=
  [Session.tick, Session.tick, Session.tick, Session.tick, .server 3 false, .server 3 false,
    .server 4 false, .server 0 true]

theorem orderly_exact_earlyFin :
    ∃ s, machine.run earlyFin (start Session.oneByte) = some (s, []) ∧
      s.transfer.client.inUse (Session.slotOf 0) = true ∧
      s.transfer.server.reassembly.out = Session.oneByte.contents := by
  obtain ⟨s, outs, hrun, htest⟩ := machine.exists_run earlyFin (start Session.oneByte)
    (fun x => x.1.transfer.client.inUse (Session.slotOf 0) && x.1.transfer.server.phase == .closed)
    (by decide +kernel)
  obtain rfl : outs = [] := Subsingleton.elim _ _
  simp only [Bool.and_eq_true, beq_iff_eq] at htest
  exact ⟨s, hrun, htest.1, (orderly_exact (by decide) hrun).2.2 (by simp [htest.2])⟩

end Orderly

end OxyC.Networking
