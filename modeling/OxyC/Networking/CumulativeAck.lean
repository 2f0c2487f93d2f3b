import OxyC.Foundation.Segmentation
import OxyC.Networking.Stream

/-!
# Cumulative acknowledgement

For any arrivals of the segments of a stream, the receive loop acknowledges the
end of the longest run of consecutive segments that have all arrived.
-/

namespace OxyC.Networking

open OxyC.Foundation

/-- A stream as the sender cuts it, placed at stream position `start`. -/
structure Cut extends Segmentation UInt8 shamMtu where
  start : Nat
  no_wrap : start + toSegmentation.stream.length < 2 ^ 32

namespace Cut

variable (g : Cut)

def position (j : Nat) : Nat := g.start + g.offset j

/-- Segment `j` as a data packet; the receive loop does not read its window field. -/
def arrival (win : UInt16) (j : Nat) : Arrival :=
  ⟨Client.sendPacket (UInt32.ofNat (g.position j)) (g.segment j) win, false⟩

theorem position_lt {j : Nat} (hj : j ≤ g.count) : g.position j < 2 ^ 32 := by
  have hle := g.offset_le_length hj
  have := g.no_wrap
  unfold position
  omega

theorem toNat_position {j : Nat} (hj : j ≤ g.count) :
    (UInt32.ofNat (g.position j)).toNat = g.position j := by
  have := g.position_lt hj
  rw [UInt32.toNat_ofNat']
  omega

theorem position_succ {j : Nat} (hj : j < g.count) :
    g.position (j + 1) = g.position j + (g.segment j).length := by
  unfold position
  rw [g.offset_succ hj]
  omega

/-- The table after some arrivals, `m` segments having been written. -/
structure Tracks (arrived : List Nat) (m : Nat) (r : Reassembly) : Prop where
  m_le : m ≤ g.count
  expected_eq : r.expected.toNat = g.position m
  written : ∀ j < m, j ∈ arrived
  stored : ∀ b ∈ r.bufs, b.seq ≠ 0 → ∃ j < g.count, j ∈ arrived ∧
    b.seq.toNat = g.position j ∧ b.len = (g.segment j).length
  kept : ∀ j ∈ arrived, m ≤ j → j < g.count → ∃ b ∈ r.bufs, b.seq ≠ 0 ∧
    b.seq.toNat = g.position j

variable {g}

namespace Tracks

variable {arrived : List Nat} {m : Nat} {r : Reassembly}

theorem position_inj {i j : Nat} (hi : i ≤ g.count) (hj : j ≤ g.count)
    (h : g.position i = g.position j) : i = j :=
  g.offset_inj hi hj (by unfold position at h; omega)

/-- A slot at `expected` holds the next segment; writing it advances `m`. -/
theorem releases (h : g.Tracks arrived m r) (hexpected : r.expected ≠ 0) {r' : Reassembly}
    (hrel : Reassembly.Releases r r') :
    g.Tracks arrived (m + 1) r' ∧ r'.expected ≠ 0 := by
  have hback := fun b => hrel.mem_of_occupied (b := b)
  have hkeep := fun b => hrel.mem_of_ne (b := b)
  obtain ⟨before, after, b, hbufs, hseq, hbufs', hnext, -⟩ := hrel
  obtain ⟨j, hj, harrived, hpos, hlen⟩ := h.stored b (by simp [hbufs]) (by rwa [hseq])
  obtain rfl : j = m := by
    rw [hseq, h.expected_eq] at hpos
    exact (position_inj h.m_le hj.le hpos).symm
  have hsucc := g.position_succ hj
  have hlt := g.position_lt (j := j + 1) hj
  have hexpected' : r'.expected.toNat = g.position (j + 1) := by
    have heq := h.expected_eq
    rw [hnext, hlen, toNat_add_ofNat] <;> omega
  refine ⟨⟨hj, hexpected', ?_, ?_, ?_⟩, ?_⟩
  · intro i hi
    rcases Nat.lt_or_ge i j with hlt | hge
    · exact h.written i hlt
    · obtain rfl : i = j := by omega
      exact harrived
  · intro c hc hne
    exact h.stored c (hback c hc hne) hne
  · intro i hi hmi hcount
    obtain ⟨c, hc, hne, hcpos⟩ := h.kept i hi (by omega) hcount
    refine ⟨c, hkeep c hc ?_, hne, hcpos⟩
    intro heq
    rw [heq, h.expected_eq] at hcpos
    have := position_inj h.m_le hcount.le hcpos
    omega
  · intro hzero
    have hpos := g.length_pos _ (g.segment_mem hj)
    rw [hzero] at hexpected'
    simp at hexpected'
    omega

theorem concat (h : g.Tracks arrived m r) {j : Nat}
    (hkept : m ≤ j → ∃ b ∈ r.bufs, b.seq ≠ 0 ∧ b.seq.toNat = g.position j) :
    g.Tracks (arrived ++ [j]) m r where
  m_le := h.m_le
  expected_eq := h.expected_eq
  written i hi := by simp [h.written i hi]
  stored b hb hne := by
    obtain ⟨i, hi, harrived, hpos, hlen⟩ := h.stored b hb hne
    exact ⟨i, hi, by simp [harrived], hpos, hlen⟩
  kept i hi hmi hcount := by
    rcases List.mem_append.mp hi with hi | hi
    · exact h.kept i hi hmi hcount
    · obtain rfl : i = j := by simpa using hi
      exact hkept hmi

theorem write (h : g.Tracks arrived m r) (hm : m < g.count) :
    g.Tracks (arrived ++ [m]) (m + 1) (r.write (g.segment m)) where
  m_le := hm
  expected_eq := by
    have hsucc := g.position_succ hm
    have hlt := g.position_lt (j := m + 1) hm
    have heq := h.expected_eq
    rw [Reassembly.expected_write, toNat_add_ofNat] <;> omega
  written i hi := by
    rcases Nat.lt_or_ge i m with hlt | hge
    · simp [h.written i hlt]
    · obtain rfl : i = m := by omega
      simp
  stored b hb hne := by
    obtain ⟨i, hi, harrived, hpos, hlen⟩ := h.stored b hb hne
    exact ⟨i, hi, by simp [harrived], hpos, hlen⟩
  kept i hi hmi hcount := by
    rcases List.mem_append.mp hi with hi | hi
    · exact h.kept i hi (by omega) hcount
    · simp only [List.mem_singleton] at hi
      omega

theorem place (h : g.Tracks arrived m r) {j : Nat} (hj : j < g.count)
    (hpos : 0 < g.position j) (hfree : r.HasFree) :
    g.Tracks (arrived ++ [j]) m
      (r.place (UInt32.ofNat (g.position j)) (g.segment j)) := by
  have hseq := g.toNat_position hj.le
  have hne : UInt32.ofNat (g.position j) ≠ 0 := by
    intro hzero
    rw [hzero] at hseq
    simp at hseq
    omega
  have hplaced : g.Tracks arrived m r → ∀ i ∈ arrived, m ≤ i → i < g.count →
      ∃ b ∈ (r.place (UInt32.ofNat (g.position j)) (g.segment j)).bufs,
        b.seq ≠ 0 ∧ b.seq.toNat = g.position i := by
    intro h i hi hmi hcount
    obtain ⟨b, hb, hne, hbpos⟩ := h.kept i hi hmi hcount
    exact ⟨b, Reassembly.mem_place_of_occupied hb hne, hne, hbpos⟩
  refine ⟨h.m_le, h.expected_eq, fun i hi => by simp [h.written i hi], ?_, ?_⟩
  · intro b hb hbne
    rcases Reassembly.mem_place hb with hb | ⟨a, -, -, rfl⟩
    · obtain ⟨i, hi, harrived, hbpos, hlen⟩ := h.stored b hb hbne
      exact ⟨i, hi, by simp [harrived], hbpos, hlen⟩
    · exact ⟨j, hj, by simp, by simpa using hseq, rfl⟩
  · intro i hi hmi hcount
    rcases List.mem_append.mp hi with hi | hi
    · exact hplaced h i hi hmi hcount
    · obtain rfl : i = j := by simpa using hi
      obtain ⟨b, hb, hbseq, -⟩ := Reassembly.exists_mem_place (g.segment i) hfree
      exact ⟨b, hb, by rwa [hbseq], by rw [hbseq, hseq]⟩

end Tracks

/-- The table between two arrivals: no occupied slot starts at `expected`. -/
def Settled (g : Cut) (arrived : List Nat) (r : Reassembly) : Prop :=
  ∃ m, g.Tracks arrived m r ∧ ∀ b ∈ r.bufs, b.seq ≠ 0 → b.seq ≠ r.expected

theorem settled_start (g : Cut) : g.Settled [] (.start (UInt32.ofNat g.start)) := by
  have hzero := g.toNat_position (j := 0) (Nat.zero_le _)
  have hfresh : ∀ b ∈ (Reassembly.start (UInt32.ofNat g.start)).bufs, b.seq = 0 := by
    intro b hb
    simp only [Reassembly.start, List.mem_replicate] at hb
    simp [hb.2, Buffered.zeroed]
  refine ⟨0, ⟨Nat.zero_le _, ?_, by simp, ?_, by simp⟩, ?_⟩
  · simpa [position, Reassembly.start] using hzero
  · intro b hb hne
    exact absurd (hfresh b hb) hne
  · intro b hb hne
    exact absurd (hfresh b hb) hne

theorem Settled.receive {arrived : List Nat} {r : Reassembly} (h : g.Settled arrived r)
    {j : Nat} (hj : j < g.count) (hfree : r.expected.toNat < g.position j → r.HasFree) :
    ∃ r', r.receive (UInt32.ofNat (g.position j)) (g.segment j) = some r' ∧
      g.Settled (arrived ++ [j]) r' := by
  obtain ⟨m, htracks, hstable⟩ := h
  have hseq := g.toNat_position hj.le
  have heq := htracks.expected_eq
  by_cases horder : UInt32.ofNat (g.position j) = r.expected
  · obtain rfl : j = m := by
      rw [horder, heq] at hseq
      exact (Tracks.position_inj htracks.m_le hj.le hseq).symm
    have hwrite : ∃ n, g.Tracks (arrived ++ [j]) n (r.write (g.segment j)) ∧
        (r.write (g.segment j)).expected ≠ 0 := by
      refine ⟨j + 1, htracks.write hj, ?_⟩
      intro hzero
      have hnext := (htracks.write hj).expected_eq
      have hpos := g.length_pos _ (g.segment_mem hj)
      have hsucc := g.position_succ hj
      rw [hzero] at hnext
      simp at hnext
      omega
    have hstep : ∀ s s' : Reassembly,
        (∃ n, g.Tracks (arrived ++ [j]) n s ∧ s.expected ≠ 0) → Reassembly.Releases s s' →
        ∃ n, g.Tracks (arrived ++ [j]) n s' ∧ s'.expected ≠ 0 := by
      rintro s s' ⟨n, hn, hne⟩ hrel
      exact ⟨n + 1, hn.releases hne hrel⟩
    obtain ⟨r', hdrain⟩ := Reassembly.drain_isSome hstep (fun s ⟨_, _, hne⟩ => hne) hwrite
    obtain ⟨n, hn, -⟩ := Reassembly.drain_invariant hstep hwrite hdrain
    exact ⟨r', by simp [Reassembly.receive, horder, hdrain], n, hn,
      fun b hb _ => Reassembly.drain_stable hdrain b hb⟩
  · by_cases hlater : r.expected < UInt32.ofNat (g.position j)
    · have hlt := hlater
      rw [UInt32.lt_iff_toNat_lt, hseq] at hlt
      refine ⟨r.place (UInt32.ofNat (g.position j)) (g.segment j),
        by simp [Reassembly.receive, horder, hlater], m,
        htracks.place hj (by omega) (hfree hlt), ?_⟩
      intro b hb hne
      rcases Reassembly.mem_place hb with hb | ⟨a, -, -, rfl⟩
      · exact hstable b hb hne
      · exact horder
    · refine ⟨r, by simp [Reassembly.receive, horder, hlater], m, htracks.concat ?_, hstable⟩
      intro hmj
      exfalso
      have hge : g.position m ≤ g.position j :=
        Nat.add_le_add_left (g.offset_le hmj hj.le) g.start
      apply horder
      rw [← UInt32.toNat_inj, hseq, heq]
      rw [UInt32.lt_iff_toNat_lt, hseq, heq] at hlater
      omega

theorem Settled.longest {arrived : List Nat} {r : Reassembly} (h : g.Settled arrived r) :
    ∃ m, IsGreatest (g.runs arrived) m ∧ r.expected.toNat = g.start + g.offset m := by
  obtain ⟨m, htracks, hstable⟩ := h
  refine ⟨m, g.isGreatest_runs ⟨htracks.m_le, htracks.written⟩ ?_, htracks.expected_eq⟩
  intro hlt harrived
  obtain ⟨b, hb, hne, hpos⟩ := htracks.kept m harrived le_rfl hlt
  apply hstable b hb hne
  rw [← UInt32.toNat_inj, hpos, htracks.expected_eq]

def NeverFull (g : Cut) (win : UInt16) (s₀ : Server) (arrivals : List Nat) : Prop :=
  ∀ before j after s acks, arrivals = before ++ j :: after →
    Server.machine.run (before.map (g.arrival win)) s₀ = some (s, acks) →
    s.reassembly.expected.toNat < g.position j → s.reassembly.HasFree

theorem NeverFull.of_append {win : UInt16} {s₀ : Server} {before after : List Nat}
    (h : g.NeverFull win s₀ (before ++ after)) : g.NeverFull win s₀ before := by
  rintro before' j after' s acks rfl hrun
  exact h before' j (after' ++ after) s acks (by simp) hrun

theorem neverFull_of_length_le {win : UInt16} {s₀ : Server} {arrivals : List Nat}
    (hstart : s₀.reassembly = .start (UInt32.ofNat g.start))
    (hlength : arrivals.length ≤ maxBufPkts) : g.NeverFull win s₀ arrivals := by
  rintro before j after s acks rfl hrun -
  have hle : Reassembly.occupied s.reassembly.bufs ≤
      (before.map (g.arrival win)).length := by
    refine Server.machine.run_invariant_history
      (P := fun is _ t => Reassembly.occupied t.reassembly.bufs ≤ is.length) ?_ ?_ hrun
    · rw [hstart, Reassembly.occupied_start]
      exact le_rfl
    · intro is a outs t t' out _ ih hstep
      rw [List.length_append, List.length_singleton]
      have := Server.occupied_step_le hstep
      omega
  rw [List.length_map] at hle
  rw [Reassembly.hasFree_iff]
  simp only [List.length_append, List.length_cons] at hlength
  omega

theorem Settled.run {win : UInt16} {s₀ : Server} (hphase : s₀.phase = .receiving)
    (hstart : s₀.reassembly = .start (UInt32.ofNat g.start)) {arrivals : List Nat}
    (hsegments : ∀ j ∈ arrivals, j < g.count) (hfree : g.NeverFull win s₀ arrivals) :
    ∃ s acks, Server.machine.run (arrivals.map (g.arrival win)) s₀ = some (s, acks) ∧
      s.phase = .receiving ∧ g.Settled arrivals s.reassembly ∧
      (arrivals ≠ [] → acks.getLast? = some (Server.cumulativeAck s.reassembly)) := by
  induction arrivals using List.reverseRecOn with
  | nil => exact ⟨s₀, [], rfl, hphase, by rw [hstart]; exact g.settled_start, by simp⟩
  | append_singleton before j ih =>
      obtain ⟨s, acks, hrun, hreceiving, hsettled, -⟩ :=
        ih (fun i hi => hsegments i (by simp [hi])) hfree.of_append
      have hj : j < g.count := hsegments j (by simp)
      obtain ⟨r, hr, hsettled'⟩ :=
        hsettled.receive hj (hfree before j [] s acks rfl hrun)
      have hstep : Server.step (g.arrival win j) s =
          some ({ s with reassembly := r }, [Server.cumulativeAck r]) := by
        have hfin : (g.arrival win j).packet.hdr.has shamFin = false :=
          Client.has_sendPacket _ _ _ _
        simp only [Server.step, hreceiving, hfin]
        simp [arrival, Client.sendPacket, hr]
      refine ⟨{ s with reassembly := r }, acks ++ [Server.cumulativeAck r], ?_,
        hreceiving, hsettled', by simp⟩
      rw [List.map_append, List.map_singleton]
      exact Server.machine.run_concat.mpr ⟨s, acks, _, hrun, hstep, rfl⟩

/--
After every arrival `expected`, and the number in the ACK just sent, is the end
of the longest run of consecutive segments that have arrived.
-/
theorem expected_eq_longest (g : Cut) (win : UInt16) {s₀ : Server}
    (hphase : s₀.phase = .receiving)
    (hstart : s₀.reassembly = .start (UInt32.ofNat g.start)) {arrivals : List Nat}
    (hsegments : ∀ j ∈ arrivals, j < g.count) (hfree : g.NeverFull win s₀ arrivals)
    {before after : List Nat} (hsplit : arrivals = before ++ after) :
    ∃ s acks, Server.machine.run (before.map (g.arrival win)) s₀ = some (s, acks) ∧
      (∃ m, IsGreatest (g.runs before) m ∧
        s.reassembly.expected.toNat = g.start + g.offset m) ∧
      (before ≠ [] → (acks.getLast?.map fun p => p.hdr.ackNum) =
        some s.reassembly.expected) := by
  subst hsplit
  obtain ⟨s, acks, hrun, -, hsettled, hlast⟩ := Settled.run hphase hstart
    (fun j hj => hsegments j (by simp [hj])) hfree.of_append
  refine ⟨s, acks, hrun, hsettled.longest, ?_⟩
  intro hne
  rw [hlast hne]
  rfl

def twoSegments : Cut where
  segments := [[1, 2], [3]]
  length_pos := by decide
  length_le := by decide
  start := 5
  no_wrap := by decide

/-- The second segment arrives first, and again after the first one. -/
theorem expected_eq_longest_twoSegments :
    ∃ s acks, Server.machine.run ([1, 0, 1].map (twoSegments.arrival 0))
        ⟨.receiving, 900, .start 5⟩ = some (s, acks) ∧
      (∃ m, IsGreatest (twoSegments.runs [1, 0, 1]) m ∧
        s.reassembly.expected.toNat = twoSegments.start + twoSegments.offset m) ∧
      ([1, 0, 1] ≠ [] → (acks.getLast?.map fun p => p.hdr.ackNum) =
        some s.reassembly.expected) := by
  exact twoSegments.expected_eq_longest 0 rfl rfl (by decide)
    (neverFull_of_length_le rfl (by decide)) (List.append_nil [1, 0, 1]).symm

end Cut

end OxyC.Networking
