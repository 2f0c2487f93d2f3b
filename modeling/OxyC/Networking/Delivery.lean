import OxyC.Networking.Stream

/-!
# Delivery of the file

The joint invariant of the two parties and the datagrams in flight, and what it
gives in every reachable state of a transfer: the server has written a prefix
of the file, and the client still holds every byte not yet written.
-/

namespace OxyC.Networking

open OxyC.Foundation

namespace Session

structure Inv (q : Session) (s : Transfer) : Prop where
  rebuilds : q.Rebuilds s.server.reassembly
  holds : q.Holds s.client
  covered : q.Covered s.client s.server.reassembly.out.length
  sent : ∀ p ∈ s.toServer, p.hdr.has shamFin = false → q.Sent p
  fin : ∀ p ∈ s.toServer, p.hdr.has shamFin = true → s.client.sending = false
  acks : s.client.sending = true → ∀ p ∈ s.toClient, p.hdr.has shamAck = true →
    p.hdr.ackNum.toNat ≤ q.first + s.server.reassembly.out.length
  phase : s.server.phase ≠ .receiving → s.client.sending = false

variable {q : Session}

theorem NoWrap.toNat_first (hq : q.NoWrap) :
    (q.cliSeq + 1 + UInt32.ofNat q.outname.length).toNat = q.first := by
  unfold NoWrap first at hq
  have hone : (q.cliSeq + 1).toNat = q.cliSeq.toNat + 1 := by
    rw [UInt32.toNat_add]
    simp
    omega
  rw [toNat_add_ofNat, hone]
  · rfl
  · omega

theorem inv_start (hq : q.NoWrap) : q.Inv (.start q) := by
  have hfirst := hq.toNat_first
  have hpos := q.outname_pos
  have hone : (q.cliSeq + 1).toNat = q.cliSeq.toNat + 1 := by
    unfold NoWrap first at hq
    rw [UInt32.toNat_add]
    simp
    omega
  constructor
  · refine ⟨hfirst, by simp [Transfer.start, Reassembly.start], ?_⟩
    intro b hb hne
    simp only [Transfer.start, Reassembly.start, List.mem_replicate] at hb
    simp [hb.2, Buffered.zeroed] at hne
  · refine ⟨rfl, ?_, by simp [Transfer.start, Client.start]⟩
    simpa [Transfer.start, Client.start, hpos] using hfirst
  · intro k hk
    simp only [Transfer.start, Client.start, hpos, if_true, hfirst] at hk
    omega
  · intro p hp _
    left
    simp only [Transfer.start, sentBefore, List.mem_cons, List.not_mem_nil, or_false] at hp
    rcases hp with rfl | rfl | rfl
    · simp [first]
      omega
    · simp only [hone, first]
      omega
    · simp only [Client.namePacket, Client.sendPacket, hone, first]
      omega
  · intro p hp hfin
    rw [noFin_sentBefore p hp] at hfin
    cases hfin
  · intro _ p hp _
    simp only [Transfer.start, List.mem_map] at hp
    obtain ⟨srvSeq, -, rfl⟩ := hp
    simp only [synAck, hone, first]
    omega
  · intro hphase
    simp [Transfer.start] at hphase

theorem Inv.client (hq : q.NoWrap) {s s' : Transfer} (h : q.Inv s) {env : ClientEnv}
    {out : List Packet} (hstep : s.client.step env = some (s'.client, out))
    (hreceived : ∀ hdr, env.received = some hdr →
      ∃ p ∈ s.toClient, hdr.flags = p.hdr.flags ∧ hdr.ackNum = p.hdr.ackNum)
    (hserver : s'.server = s.server) (htoServer : s'.toServer = s.toServer ++ out)
    (htoClient : s'.toClient = s.toClient) : q.Inv s' := by
  have hack : s.client.sending = true → ∀ hdr, env.received = some hdr →
      hdr.has shamAck = true →
      hdr.ackNum.toNat ≤ q.first + s.server.reassembly.out.length := by
    intro hsending hdr hhdr hflag
    obtain ⟨p, hp, hflags, hnum⟩ := hreceived hdr hhdr
    rw [hnum]
    exact h.acks hsending p hp (by simpa [Header.has, ← hflags] using hflag)
  have hkeeps := Keeps.step hq h.holds h.covered hack hstep
  have hleft : s.client.sending = false → s'.client.sending = false := by
    intro hfalse
    by_contra htrue
    have := hkeeps.sending (by simpa using htrue)
    simp [hfalse] at this
  constructor
  · rw [hserver]
    exact h.rebuilds
  · exact hkeeps.holds
  · rw [hserver]
    exact hkeeps.covered
  · intro p hp hfin
    rw [htoServer] at hp
    rcases List.mem_append.mp hp with hp | hp
    · exact h.sent p hp hfin
    · exact hkeeps.sent p hp hfin
  · intro p hp hfin
    rw [htoServer] at hp
    rcases List.mem_append.mp hp with hp | hp
    · exact hleft (h.fin p hp hfin)
    · exact hkeeps.fin p hp hfin
  · intro hsending p hp hflag
    rw [htoClient] at hp
    rw [hserver]
    exact h.acks (hkeeps.sending hsending) p hp hflag
  · intro hphase
    rw [hserver] at hphase
    exact hleft (h.phase hphase)

theorem Inv.server (hq : q.NoWrap) {s s' : Transfer} (h : q.Inv s) {a : Arrival}
    {out : List Packet} (hstep : s.server.step a = some (s'.server, out))
    (hpacket : a.packet ∈ s.toServer) (hclient : s'.client = s.client)
    (htoServer : s'.toServer = s.toServer) (htoClient : s'.toClient = s.toClient ++ out) :
    q.Inv s' := by
  have keep : ∀ {r : Reassembly}, s'.server.reassembly = r → q.Rebuilds r →
      s.server.reassembly.out.length ≤ r.out.length →
      (s.client.sending = true → ∀ p ∈ out, p.hdr.has shamAck = true →
        p.hdr.ackNum.toNat ≤ q.first + r.out.length) →
      (s'.server.phase ≠ .receiving → s.client.sending = false) → q.Inv s' := by
    rintro r rfl hrebuilds hle hacks hphase
    constructor
    · exact hrebuilds
    · rw [hclient]
      exact h.holds
    · rw [hclient]
      exact h.covered.mono hle
    · rw [htoServer]
      exact h.sent
    · rw [htoServer, hclient]
      exact h.fin
    · intro hsending p hp hflag
      rw [hclient] at hsending
      rw [htoClient] at hp
      rcases List.mem_append.mp hp with hp | hp
      · have := h.acks hsending p hp hflag
        omega
      · exact hacks hsending p hp hflag
    · rw [hclient]
      exact hphase
  rcases Server.step_cases hstep with
    ⟨hphase, -, hs', rfl⟩ | ⟨-, hfin, hs', -⟩ | ⟨hphase, hfin, r, hr, hs', rfl⟩ |
    ⟨hphase, hs', rfl⟩
  · refine keep (r := s.server.reassembly) (by rw [hs']) h.rebuilds le_rfl (by simp) ?_
    rw [hs']
    exact h.phase
  · have hleft := h.fin a.packet hpacket hfin
    exact keep (r := s.server.reassembly) (by rw [hs']) h.rebuilds le_rfl
      (by simp [hleft]) fun _ => hleft
  · obtain ⟨r', hr', hrebuilds, hle⟩ := h.rebuilds.receive hq (h.sent a.packet hpacket hfin)
    rw [hr] at hr'
    cases hr'
    refine keep (r := r) (by rw [hs']) hrebuilds hle ?_ ?_
    · intro _ p hp _
      simp only [List.mem_singleton] at hp
      subst hp
      simp [Server.cumulativeAck, hrebuilds.expected_eq]
    · intro hne
      rw [hs'] at hne
      exact absurd hphase hne
  · have hleft := h.phase (by simp [hphase])
    exact keep (r := s.server.reassembly) (by rw [hs']) h.rebuilds le_rfl
      (by simp [hleft]) fun _ => hleft

theorem Inv.step (hq : q.NoWrap) {s s' : Transfer} {a : Action} {out : List Empty}
    (h : q.Inv s) (hstep : Transfer.step a s = some (s', out)) : q.Inv s' := by
  rcases Transfer.step_cases hstep with
    ⟨env, sent, hclient, hreceived, hserver, htoServer, htoClient⟩ |
    ⟨arrival, sent, hserver, hpacket, hclient, htoServer, htoClient⟩
  · exact h.client hq hclient hreceived hserver htoServer htoClient
  · exact h.server hq hserver hpacket hclient htoServer htoClient

theorem Inv.reachable (hq : q.NoWrap) {s : Transfer} (h : Transfer.Reachable q s) :
    q.Inv s := by
  obtain ⟨actions, hrun⟩ := h
  exact Transfer.machine.run_invariant (fun _ _ _ _ hs hstep => hs.step hq hstep)
    (inv_start hq) hrun

theorem HeldIn.getElem? {c : Client} (h : q.Holds c) {i : Fin maxInflight} {k : Nat}
    (hheld : q.HeldIn c i k) :
    (c.inflight i).data[q.first + k - (c.inflight i).seq.toNat]? = q.contents[k]? := by
  obtain ⟨huse, hlo, hhi⟩ := hheld
  obtain ⟨⟨off, hoff, hslice⟩, hlen⟩ := h.held i huse
  have hindex : q.first + k - (c.inflight i).seq.toNat < (c.inflight i).len := by omega
  have hget := hslice.getElem? (k := q.first + k - (c.inflight i).seq.toNat) (by omega)
  rw [OutPkt.bytes, List.getElem?_take, if_pos hindex] at hget
  rw [hget]
  congr 1
  omega

theorem Rebuilds.getElem? {r : Reassembly} (h : q.Rebuilds r) {k : Nat}
    (hk : k < r.out.length) : r.out[k]? = q.contents[k]? := by
  rw [h.out_eq, List.getElem?_take, if_pos hk]

/-- One byte to send: the first `fread` reaches the end of the file. -/
def oneByte : Session where
  cliSeq := 100
  srvSeq := 900
  outname := [111]
  contents := [7]
  outname_pos := by decide
  outname_le := by decide

def tick : Action := .client none ⟨0, 0⟩ fun _ => ⟨0, 0⟩

/-- The byte and its ACK arrive before the client sets `done`. -/
def ackedFirst : List Action :=
  [tick, tick, .server 3 false, .client (some ⟨1, none⟩) ⟨0, 0⟩ fun _ => ⟨0, 0⟩, tick,
    .server 4 false, .server 0 false]

def twoBlocks : Session := { oneByte with contents := List.replicate shamMtu 0 ++ [7] }

/-- The first block is lost and sent again, the second one overtakes it, and the ACK of both arrives
before the client sets `done`. -/
def lateFirst : List Action :=
  [tick, tick, .client none ⟨1, 0⟩ fun _ => ⟨1, 0⟩, tick, .server 5 false, .server 4 false,
    .client (some ⟨2, none⟩) ⟨1, 0⟩ fun _ => ⟨1, 0⟩, tick, .server 6 false, .server 0 false]

/-- In every reachable state the output file is a prefix of the input file. -/
theorem written_prefix (hq : q.NoWrap) {s : Transfer} (h : Transfer.Reachable q s) :
    s.server.reassembly.out <+: q.contents ∧
      s.server.reassembly.expected.toNat = q.first + s.server.reassembly.out.length := by
  have hinv := Inv.reachable hq h
  constructor
  · rw [hinv.rebuilds.out_eq]
    exact List.take_prefix _ _
  · exact hinv.rebuilds.expected_eq

theorem written_prefix_lateFirst :
    ∃ s, Transfer.Reachable twoBlocks s ∧ s.server.reassembly.out.length = 1025 ∧
      s.server.reassembly.out <+: twoBlocks.contents ∧
      s.server.reassembly.expected.toNat =
        twoBlocks.first + s.server.reassembly.out.length := by
  obtain ⟨s, hrun, hout⟩ := Transfer.exists_run twoBlocks
    (lateFirst.take 6) (fun s => s.server.reassembly.out.length == 1025) (by decide +kernel)
  exact ⟨s, ⟨_, hrun⟩, by simpa using hout, written_prefix (by decide +kernel) ⟨_, hrun⟩⟩

/-- No byte below `nextseq` is lost, and no ACK frees a slot of unwritten bytes. -/
theorem unwritten_held (hq : q.NoWrap) {s : Transfer} (h : Transfer.Reachable q s)
    (hsending : s.client.sending = true) :
    (∀ k, q.first + k < s.client.nextseq.toNat →
      (k < s.server.reassembly.out.length ∧ s.server.reassembly.out[k]? = q.contents[k]?) ∨
      ∃ i, s.client.inUse i = true ∧ (s.client.inflight i).seq.toNat ≤ q.first + k ∧
        q.first + k < (s.client.inflight i).seq.toNat + (s.client.inflight i).len ∧
        (s.client.inflight i).data[q.first + k - (s.client.inflight i).seq.toNat]? =
          q.contents[k]?) ∧
    ∀ a s' out i, Transfer.step a s = some (s', out) → s.client.inUse i = true →
      s'.client.inUse i = false →
      (s.client.inflight i).seq.toNat + (s.client.inflight i).len ≤
        s.server.reassembly.expected.toNat := by
  have hinv := Inv.reachable hq h
  constructor
  · intro k hk
    rcases hinv.covered k hk with hlt | ⟨i, hheld⟩
    · exact .inl ⟨hlt, hinv.rebuilds.getElem? hlt⟩
    · exact .inr ⟨i, hheld.1, hheld.2.1, hheld.2.2, hheld.getElem? hinv.holds⟩
  · intro a s' out i hstep huse hfree
    rcases Transfer.step_cases hstep with
      ⟨env, sent, hclient, hreceived, -⟩ | ⟨-, -, -, -, hclient, -⟩
    · obtain ⟨-, hdr, hhdr, hflag, hle⟩ := Client.acked_of_freed hclient huse hfree
      obtain ⟨p, hp, hflags, hnum⟩ := hreceived hdr hhdr
      have hack := hinv.acks hsending p hp (by simpa [Header.has, ← hflags] using hflag)
      have hexpected := hinv.rebuilds.expected_eq
      rw [hnum] at hle
      omega
    · rw [hclient, huse] at hfree
      simp at hfree

/-- The second block has overtaken the first, and the client still holds its byte. -/
theorem unwritten_held_lateFirst :
    ∃ s, Transfer.Reachable twoBlocks s ∧ s.server.reassembly.out = [] ∧
      ∃ i, s.client.inUse i = true ∧
        (s.client.inflight i).data[twoBlocks.first + 1024 - (s.client.inflight i).seq.toNat]? =
          some 7 := by
  obtain ⟨s, hrun, htest⟩ := Transfer.exists_run twoBlocks
    (lateFirst.take 5) (fun s => s.client.sending && s.server.reassembly.out == [] &&
      decide (twoBlocks.first + 1024 < s.client.nextseq.toNat)) (by decide +kernel)
  simp only [Bool.and_eq_true, beq_iff_eq, decide_eq_true_eq] at htest
  obtain ⟨⟨hsending, hout⟩, hnext⟩ := htest
  refine ⟨s, ⟨_, hrun⟩, hout, ?_⟩
  rcases (unwritten_held (by decide +kernel) ⟨_, hrun⟩ hsending).1 1024 hnext with
    ⟨hlt, -⟩ | ⟨i, huse, -, -, hdata⟩
  · simp [hout] at hlt
  · have hlast : twoBlocks.contents[1024]? = some 7 := by decide +kernel
    exact ⟨i, huse, hdata.trans hlast⟩

def AllAcked (q : Session) (c : Client) : Prop :=
  c.sending = false → (∀ i, c.inUse i = false) ∧ c.nextseq.toNat = q.first + q.contents.length

/-- The condition on a step: `done` is not set while a slot is in use. -/
def DoneWhenAcked (s : Transfer) : Action → Prop
  | .client _ _ _ => s.client.setsDone = true → ∀ i, s.client.inUse i = false
  | .server _ _ => True

instance (s : Transfer) (a : Action) : Decidable (DoneWhenAcked s a) := by
  cases a <;> simp only [DoneWhenAcked] <;> infer_instance

theorem AllAcked.step {s s' : Transfer} {a : Action} {out : List Empty} (h : q.Inv s)
    (hacked : q.AllAcked s.client) (hguard : DoneWhenAcked s a)
    (hstep : Transfer.step a s = some (s', out)) : q.AllAcked s'.client := by
  cases a with
  | server index shouldDrop =>
      have hclient : s'.client = s.client := by
        simp only [Transfer.step, Option.bind_eq_bind, Option.bind_eq_some_iff, Prod.exists,
          Option.pure_def, Option.some.injEq, Prod.mk.injEq] at hstep
        obtain ⟨packet, -, server, sent, -, rfl, -⟩ := hstep
        rfl
      rwa [hclient]
  | client delivery now resentAt =>
      simp only [Transfer.step, Option.bind_eq_bind, Option.bind_eq_some_iff, Prod.exists,
        Option.pure_def, Option.some.injEq, Prod.mk.injEq] at hstep
      obtain ⟨received, -, client, sent, hclient, rfl, -⟩ := hstep
      intro hleft
      cases hsending : s.client.sending with
      | true =>
          obtain ⟨hdone, huse, hnext, hpos⟩ :=
            Client.setsDone_of_left hclient hsending hleft
          refine ⟨fun i => by rw [huse]; exact hguard hdone i, ?_⟩
          rw [hnext, h.holds.nextseq_eq, hpos, h.holds.contents_eq]
      | false =>
          obtain ⟨huse, hnext⟩ := Client.frame_of_not_sending hclient hsending
          obtain ⟨hfree, heq⟩ := hacked hsending
          exact ⟨fun i => by rw [huse]; exact hfree i, by rw [hnext]; exact heq⟩

/--
In a run in which `done` is set only when no slot is in use, a server that has
left its receive loop has written the whole file.
-/
theorem delivered (hq : q.NoWrap) {actions : List Action} {s : Transfer}
    (hguard : Transfer.machine.Guarded DoneWhenAcked actions (.start q))
    (hrun : Transfer.machine.run actions (.start q) = some (s, []))
    (hclosed : s.server.phase = .closed) : s.server.reassembly.out = q.contents := by
  have hboth : q.Inv s ∧ q.AllAcked s.client :=
    Transfer.machine.run_invariant_of_guarded
      (P := fun s => q.Inv s ∧ q.AllAcked s.client)
      (fun a s s' out hs hg hstep => ⟨hs.1.step hq hstep, hs.2.step hs.1 hg hstep⟩)
      ⟨inv_start hq, by simp [AllAcked, Transfer.start, Client.start, Client.sending]⟩
      hguard hrun
  obtain ⟨hinv, hacked⟩ := hboth
  obtain ⟨hfree, hnext⟩ := hacked (hinv.phase (by simp [hclosed]))
  have hle : q.contents.length ≤ s.server.reassembly.out.length := by
    by_contra hlt
    rcases hinv.covered s.server.reassembly.out.length (by omega) with hlt | ⟨i, huse, -⟩
    · omega
    · simp [hfree i] at huse
  rw [hinv.rebuilds.out_eq, List.take_of_length_le hle]

theorem delivered_lateFirst :
    ∃ s, Transfer.machine.run lateFirst (.start twoBlocks) = some (s, []) ∧
      s.server.phase = .closed ∧ s.server.reassembly.out = twoBlocks.contents := by
  obtain ⟨s, hrun, hclosed⟩ := Transfer.exists_run twoBlocks lateFirst
    (fun s => s.server.phase == .closed) (by decide +kernel)
  have hclosed : s.server.phase = .closed := by simpa using hclosed
  exact ⟨s, hrun, hclosed, delivered (by decide +kernel) (by decide +kernel) hrun hclosed⟩

/--
The data datagram is lost: after the one round that sends it, round 1 finds a
free slot at end of file and sets `done`, and the FIN reaches the server.
-/
def lostTail : List Action :=
  [tick, tick, tick, tick, .server 4 false, .server 0 false]

theorem lostTail_not_delivered :
    ∃ s, Transfer.machine.run lostTail (.start oneByte) = some (s, []) ∧
      s.server.phase = .closed ∧ s.server.reassembly.out = [] ∧
      oneByte.contents = [7] ∧ oneByte.NoWrap :=
  ⟨_, rfl, rfl, rfl, rfl, by decide⟩

end Session

end OxyC.Networking
