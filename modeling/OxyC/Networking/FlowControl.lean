import OxyC.Networking.Server

/-!
# The advertised window and the free slots

The window of a cumulative ACK counts bytes, and the reassembly table counts
slots.  A burst of out-of-order packets is stored as a whole when the table has
a free slot for each of them; the window alone does not promise that.
-/

namespace OxyC.Networking

open OxyC.Foundation

namespace Reassembly

def freeSlots (r : Reassembly) : Nat := maxBufPkts - occupied r.bufs

/-- A data packet of one to `shamMtu` bytes above `expected`. -/
structure OutOfOrder (r : Reassembly) (p : Packet) : Prop where
  no_fin : p.hdr.has shamFin = false
  later : r.expected < p.hdr.seqNum
  length_pos : 1 ≤ p.data.length
  length_le : p.data.length ≤ shamMtu

/-- Distinct packets, none of which is buffered yet. -/
structure Fresh (r : Reassembly) (packets : List Packet) : Prop where
  distinct : packets.Pairwise fun p p' => p.hdr.seqNum ≠ p'.hdr.seqNum
  not_buffered : ∀ p ∈ packets, ∀ b ∈ r.bufs, b.seq ≠ p.hdr.seqNum

def Stored (r : Reassembly) (p : Packet) : Prop :=
  ∃ b ∈ r.bufs, b.seq = p.hdr.seqNum ∧ b.bytes = p.data

/-- The slot placement of the receive loop, packet after packet. -/
def placeAll : List Packet → Reassembly → Reassembly
  | [], r => r
  | p :: packets, r => placeAll packets (r.place p.hdr.seqNum p.data)

theorem OutOfOrder.seqNum_ne_zero {r : Reassembly} {p : Packet} (h : r.OutOfOrder p) :
    p.hdr.seqNum ≠ 0 := by
  have hlater := h.later
  intro hzero
  rw [hzero, UInt32.lt_iff_toNat_lt] at hlater
  simp at hlater

theorem OutOfOrder.place {r : Reassembly} {p : Packet} (h : r.OutOfOrder p) (seq : UInt32)
    (payload : List UInt8) : (r.place seq payload).OutOfOrder p :=
  ⟨h.no_fin, h.later, h.length_pos, h.length_le⟩

theorem freeSlots_pos_iff {r : Reassembly} : 0 < r.freeSlots ↔ r.HasFree := by
  rw [hasFree_iff, freeSlots]
  omega

theorem freeSlots_place {r : Reassembly} {p : Packet} (h : r.OutOfOrder p)
    (hfree : r.HasFree) : (r.place p.hdr.seqNum p.data).freeSlots + 1 = r.freeSlots := by
  have hoccupied : occupied (r.place p.hdr.seqNum p.data).bufs = occupied r.bufs + 1 :=
    occupied_place h.seqNum_ne_zero hfree
  have hlt := hasFree_iff.mp hfree
  rw [freeSlots, freeSlots]
  omega

theorem Stored.placeAll {packets : List Packet} {r : Reassembly} {p : Packet}
    (h : r.Stored p) (hne : p.hdr.seqNum ≠ 0) : (r.placeAll packets).Stored p := by
  induction packets generalizing r with
  | nil => exact h
  | cons p' packets ih =>
      apply ih
      obtain ⟨b, hb, hseq, hbytes⟩ := h
      refine ⟨b, mem_place_of_occupied hb ?_, hseq, hbytes⟩
      rwa [hseq]

theorem stored_of_length_le {packets : List Packet} {r : Reassembly}
    (hlater : ∀ p ∈ packets, r.OutOfOrder p) (hlength : packets.length ≤ r.freeSlots) :
    ∀ p ∈ packets, (r.placeAll packets).Stored p := by
  induction packets generalizing r with
  | nil => simp
  | cons p packets ih =>
      have hp := hlater p (by simp)
      have hfree : r.HasFree := by
        apply freeSlots_pos_iff.mp
        simp only [List.length_cons] at hlength
        omega
      have hslots := freeSlots_place hp hfree
      intro p' hp'
      cases List.mem_cons.mp hp' with
      | inl heq =>
          rw [heq]
          have hstored : (r.place p.hdr.seqNum p.data).Stored p :=
            exists_mem_place p.data hfree
          exact hstored.placeAll hp.seqNum_ne_zero
      | inr hrest =>
          apply ih
          · intro p'' hp''
            exact (hlater p'' (by simp [hp''])).place _ _
          · simp only [List.length_cons] at hlength
            omega
          · exact hrest

theorem placeAll_of_not_hasFree {packets : List Packet} {r : Reassembly}
    (hfull : ¬ r.HasFree) : r.placeAll packets = r := by
  induction packets with
  | nil => rfl
  | cons p packets ih =>
      rw [placeAll, place_of_not_hasFree hfull]
      exact ih

theorem exists_not_stored {packets : List Packet} {r : Reassembly}
    (hlater : ∀ p ∈ packets, r.OutOfOrder p) (hfresh : r.Fresh packets)
    (hlength : r.freeSlots < packets.length) :
    ∃ p ∈ packets, ∀ b ∈ (r.placeAll packets).bufs, b.seq ≠ p.hdr.seqNum := by
  induction packets generalizing r with
  | nil => simp at hlength
  | cons p packets ih =>
      by_cases hfree : r.HasFree
      · have hslots := freeSlots_place (hlater p (by simp)) hfree
        obtain ⟨hnew, hdistinct⟩ := List.pairwise_cons.mp hfresh.distinct
        have hfresh' : (r.place p.hdr.seqNum p.data).Fresh packets := by
          constructor
          · exact hdistinct
          · intro p' hp' b hb
            cases mem_place hb with
            | inl hold => exact hfresh.not_buffered p' (by simp [hp']) b hold
            | inr hsaved =>
                obtain ⟨a, -, -, rfl⟩ := hsaved
                exact hnew p' hp'
        have hrest : (r.place p.hdr.seqNum p.data).freeSlots < packets.length := by
          simp only [List.length_cons] at hlength
          omega
        obtain ⟨p', hp', hnone⟩ :=
          ih (fun p' hp' => (hlater p' (by simp [hp'])).place _ _) hfresh' hrest
        exact ⟨p', by simp [hp'], hnone⟩
      · refine ⟨p, by simp, ?_⟩
        rw [placeAll_of_not_hasFree hfree]
        exact hfresh.not_buffered p (by simp)

end Reassembly

namespace Server

open Reassembly

/-- Out-of-order packets only fill slots; every one of them is acknowledged. -/
theorem run_outOfOrder {packets : List Packet} {s : Server} (hphase : s.phase = .receiving)
    (hlater : ∀ p ∈ packets, s.reassembly.OutOfOrder p) :
    ∃ acks, machine.run (packets.map fun p => ⟨p, false⟩) s =
      some ({ s with reassembly := s.reassembly.placeAll packets }, acks) := by
  induction packets generalizing s with
  | nil => exact ⟨[], rfl⟩
  | cons p packets ih =>
      have hp := hlater p (by simp)
      let r := s.reassembly.place p.hdr.seqNum p.data
      have hreceive : s.reassembly.receive p.hdr.seqNum p.data = some r := by
        have hlt := hp.later
        have hne : p.hdr.seqNum ≠ s.reassembly.expected := by
          intro heq
          rw [heq, UInt32.lt_iff_toNat_lt] at hlt
          omega
        simp [receive, hne, hlt, r]
      have hstep : machine.step ⟨p, false⟩ s =
          some ({ s with reassembly := r }, [cumulativeAck r]) := by
        simp [machine, step, hphase, hp.no_fin, hreceive]
      obtain ⟨acks, hrun⟩ := ih (s := { s with reassembly := r }) hphase
        fun p' hp' => (hlater p' (by simp [hp'])).place _ _
      exact ⟨[cumulativeAck r] ++ acks,
        machine.run_cons_eq_some.mpr ⟨_, _, acks, hstep, hrun, rfl⟩⟩

/--
From any state of the receive loop: a burst for which there are free slots is
stored, and a burst of new packets is stored only then.
-/
theorem burst_stored {s : Server} (hphase : s.phase = .receiving) {packets : List Packet}
    (hlater : ∀ p ∈ packets, s.reassembly.OutOfOrder p) :
    ∃ s' acks, machine.run (packets.map fun p => ⟨p, false⟩) s = some (s', acks) ∧
      (packets.length ≤ s.reassembly.freeSlots → ∀ p ∈ packets, s'.reassembly.Stored p) ∧
      (s.reassembly.Fresh packets → (∀ p ∈ packets, s'.reassembly.Stored p) →
        packets.length ≤ s.reassembly.freeSlots) := by
  obtain ⟨acks, hrun⟩ := run_outOfOrder hphase hlater
  refine ⟨_, acks, hrun, stored_of_length_le hlater, ?_⟩
  intro hfresh hstored
  by_contra hlength
  obtain ⟨p, hp, hnone⟩ := exists_not_stored hlater hfresh (by omega)
  obtain ⟨b, hb, hseq, -⟩ := hstored p hp
  exact hnone b hb hseq

/-- The retransmitted name: it is below `expected`, so only its ACK is sent. -/
def nameAgain : Arrival := ⟨⟨{ seqNum := 100 }, [111]⟩, false⟩

/-- As many one-byte packets as there are slots, and one more. -/
def oneByteBurst : List Packet :=
  (List.range (maxBufPkts + 1)).map fun k => ⟨{ seqNum := UInt32.ofNat (102 + k) }, [0]⟩

theorem burst_stored_two :
    ∃ s' acks, machine.run [⟨⟨{ seqNum := 103 }, [3]⟩, false⟩, ⟨⟨{ seqNum := 105 }, [5]⟩, false⟩]
        ⟨.receiving, 900, .start 101⟩ = some (s', acks) ∧
      s'.reassembly.Stored ⟨{ seqNum := 103 }, [3]⟩ ∧
      s'.reassembly.Stored ⟨{ seqNum := 105 }, [5]⟩ := by
  have hlater : ∀ p ∈ [(⟨{ seqNum := 103 }, [3]⟩ : Packet), ⟨{ seqNum := 105 }, [5]⟩],
      (Reassembly.start 101).OutOfOrder p := by
    intro p hp
    simp only [List.mem_cons, List.not_mem_nil, or_false] at hp
    rcases hp with rfl | rfl <;> exact ⟨by decide, by decide, by decide, by decide⟩
  obtain ⟨s', acks, hrun, hstored, -⟩ :=
    burst_stored (s := ⟨.receiving, 900, .start 101⟩) rfl hlater
  have hall := hstored (by simp [freeSlots, occupied_start, maxBufPkts])
  exact ⟨s', acks, hrun, hall _ (by simp), hall _ (by simp)⟩

theorem toNat_oneByteBurst {k : Nat} (hk : k < maxBufPkts + 1) :
    (UInt32.ofNat (102 + k)).toNat = 102 + k := by
  have hmax : maxBufPkts = 10240 := rfl
  rw [UInt32.toNat_ofNat']
  omega

theorem oneByteBurst_outOfOrder : ∀ p ∈ oneByteBurst, (Reassembly.start 101).OutOfOrder p := by
  intro p hp
  simp only [oneByteBurst, List.mem_map, List.mem_range] at hp
  obtain ⟨k, hk, rfl⟩ := hp
  constructor
  · simp [Header.has]
  · have hseq := toNat_oneByteBurst hk
    have hexpected : (Reassembly.start 101).expected.toNat = 101 := rfl
    rw [UInt32.lt_iff_toNat_lt, hseq, hexpected]
    omega
  · simp
  · simp [shamMtu]

theorem length_oneByteBurst :
    oneByteBurst.map (fun p => p.data.length) = List.replicate (maxBufPkts + 1) 1 := by
  rw [oneByteBurst, List.map_map, List.eq_replicate_iff]
  constructor
  · rw [List.length_map, List.length_range]
  · intro n hn
    obtain ⟨k, -, rfl⟩ := List.mem_map.mp hn
    rfl

theorem oneByteBurst_fresh : (Reassembly.start 101).Fresh oneByteBurst := by
  constructor
  · rw [oneByteBurst, List.pairwise_map]
    refine List.Pairwise.imp_of_mem ?_ List.nodup_range
    intro k k' hk hk' hne heq
    have hseq := congrArg UInt32.toNat heq
    rw [toNat_oneByteBurst (List.mem_range.mp hk),
      toNat_oneByteBurst (List.mem_range.mp hk')] at hseq
    omega
  · intro p hp b hb
    simp only [Reassembly.start, List.mem_replicate] at hb
    rw [hb.2]
    exact (oneByteBurst_outOfOrder p hp).seqNum_ne_zero.symm

theorem window_overpromises :
    ∃ s₀ s acks, receiveName 900 nameAgain.packet = some ([111], s₀) ∧
      machine.run [nameAgain] s₀ = some (s, acks) ∧
      acks.map (fun p => p.hdr.windowSize) = [65535] ∧
      (∀ p ∈ oneByteBurst, s.reassembly.OutOfOrder p) ∧ s.reassembly.Fresh oneByteBurst ∧
      (oneByteBurst.map fun p => p.data.length).sum ≤ 65535 ∧
      ∃ s' acks', machine.run (oneByteBurst.map fun p => ⟨p, false⟩) s = some (s', acks') ∧
        ∃ p ∈ oneByteBurst, ¬ s'.reassembly.Stored p := by
  let s₀ : Server := ⟨.receiving, 900, .start 101⟩
  have hwindow : (Reassembly.start 101).avail = 65535 := by decide +kernel
  have hrun : machine.run [nameAgain] s₀ = some (s₀, [cumulativeAck (.start 101)]) := rfl
  have hmax : maxBufPkts = 10240 := rfl
  have hslots : (Reassembly.start 101).freeSlots < oneByteBurst.length := by
    simp [freeSlots, occupied_start, oneByteBurst]
  obtain ⟨p, hp, hnone⟩ := exists_not_stored oneByteBurst_outOfOrder oneByteBurst_fresh hslots
  obtain ⟨acks', hburst⟩ := run_outOfOrder (s := s₀) rfl oneByteBurst_outOfOrder
  refine ⟨s₀, s₀, _, rfl, hrun, by simp [cumulativeAck, hwindow], oneByteBurst_outOfOrder,
    oneByteBurst_fresh, ?_, _, acks', hburst, p, hp, ?_⟩
  · rw [length_oneByteBurst, List.sum_replicate_nat, hmax]
    decide
  · rintro ⟨b, hb, hseq, -⟩
    exact hnone b hb hseq

end Server

end OxyC.Networking
