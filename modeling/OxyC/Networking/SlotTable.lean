import OxyC.Networking.Stream

/-!
# Slots that wait for a gap

When every occupied slot of the reassembly table starts above `expected` and no
two start at the same position, the table counts only bytes still waiting for a
gap.  This file characterises the packets that keep the table so.
-/

namespace OxyC.Networking

open OxyC.Foundation Relation

namespace Reassembly

def Distinct (bufs : List Buffered) : Prop :=
  bufs.Pairwise fun a b => a.seq ≠ 0 → a.seq ≠ b.seq

/-- Every occupied slot waits for a gap, and none is there twice. -/
structure Waiting (r : Reassembly) : Prop where
  above : ∀ b ∈ r.bufs, b.seq ≠ 0 → r.expected < b.seq
  distinct : Distinct r.bufs

/-- An occupied slot continues the stream from `x` to `y`. -/
def Link (bufs : List Buffered) (x y : UInt32) : Prop :=
  ∃ b ∈ bufs, b.seq ≠ 0 ∧ b.seq = x ∧ y = x + UInt32.ofNat b.len

/-- The buffered segments continue the stream from `x` to `y` without a gap. -/
def Reaches (bufs : List Buffered) : UInt32 → UInt32 → Prop := ReflTransGen (Link bufs)

/--
The packets that keep the table waiting: an out-of-order one that would be
saved is not buffered already, and no buffered segment starts strictly inside
the bytes that an in-order one completes.
-/
structure Admissible (r : Reassembly) (seq : UInt32) (len : Nat) : Prop where
  later : r.expected < seq → r.HasFree → ∀ b ∈ r.bufs, b.seq ≠ seq
  inOrder : seq = r.expected → ∀ b ∈ r.bufs, b.seq ≠ 0 →
    ∀ x, Reaches r.bufs (seq + UInt32.ofNat len) x → b.seq < x →
      Reaches r.bufs (seq + UInt32.ofNat len) b.seq

/-- Sequence numbers of the table stay below `2 ^ 32`. -/
structure Bounded (r : Reassembly) : Prop where
  expected_ne : r.expected ≠ 0
  slot_lt : ∀ b ∈ r.bufs, b.seq ≠ 0 → b.seq.toNat + b.len < 2 ^ 32

theorem Distinct.split {before after : List Buffered} {b c : Buffered}
    (h : Distinct (before ++ b :: after)) (hne : b.seq ≠ 0)
    (hc : c ∈ before ∨ c ∈ after) : c.seq ≠ b.seq := by
  rw [Distinct, List.pairwise_append] at h
  obtain ⟨-, hafter, hbefore⟩ := h
  rcases hc with hc | hc
  · intro heq
    exact hbefore c hc b (by simp) (by rwa [heq]) heq
  · exact ((List.pairwise_cons.mp hafter).1 c hc hne).symm

theorem Distinct.eq_of_mem {before after : List Buffered} {b c : Buffered}
    (h : Distinct (before ++ b :: after)) (hne : b.seq ≠ 0)
    (hc : c ∈ before ++ b :: after) (heq : c.seq = b.seq) : c = b := by
  simp only [List.mem_append, List.mem_cons] at hc
  rcases hc with hc | rfl | hc
  · exact absurd heq (h.split hne (.inl hc))
  · rfl
  · exact absurd heq (h.split hne (.inr hc))

theorem Distinct.free {before after : List Buffered} {b : Buffered}
    (h : Distinct (before ++ b :: after)) :
    Distinct (before ++ { b with seq := 0 } :: after) := by
  rw [Distinct, List.pairwise_append, List.pairwise_cons] at h ⊢
  obtain ⟨hbefore, ⟨-, hafter⟩, hcross⟩ := h
  refine ⟨hbefore, ⟨fun _ _ hne => absurd rfl hne, hafter⟩, ?_⟩
  intro a ha c hc hne
  rcases List.mem_cons.mp hc with rfl | hc
  · exact hne
  · exact hcross a ha c (by simp [hc]) hne

theorem Distinct.place_iff {before after : List Buffered} {a b : Buffered}
    (h : Distinct (before ++ a :: after)) (ha : a.seq = 0) (hb : b.seq ≠ 0) :
    Distinct (before ++ b :: after) ↔ ∀ c ∈ before ++ a :: after, c.seq ≠ b.seq := by
  constructor
  · intro hplaced c hc
    simp only [List.mem_append, List.mem_cons] at hc
    rcases hc with hc | rfl | hc
    · exact hplaced.split hb (.inl hc)
    · rw [ha]
      exact hb.symm
    · exact hplaced.split hb (.inr hc)
  · intro hnew
    rw [Distinct, List.pairwise_append, List.pairwise_cons] at h ⊢
    obtain ⟨hbefore, ⟨-, hafter⟩, hcross⟩ := h
    refine ⟨hbefore, ⟨fun c hc _ => (hnew c (by simp [hc])).symm, hafter⟩, ?_⟩
    intro c hc d hd hne
    rcases List.mem_cons.mp hd with rfl | hd
    · exact hnew c (by simp [hc])
    · exact hcross c hc d (by simp [hd]) hne

theorem Bounded.releases {r r' : Reassembly} (h : r.Bounded) (hrel : Releases r r') :
    r'.Bounded ∧ r.expected ≤ r'.expected := by
  have hback := fun b => hrel.mem_of_occupied (b := b)
  obtain ⟨before, after, b, hbufs, hseq, -, hexpected, -⟩ := hrel
  have hlt := h.slot_lt b (by simp [hbufs]) (by
    rw [hseq]
    exact h.expected_ne)
  have hne := h.expected_ne
  rw [hseq] at hlt
  have heq : r'.expected.toNat = r.expected.toNat + b.len := by
    rw [hexpected, toNat_add_ofNat hlt]
  refine ⟨⟨?_, fun c hc hcne => h.slot_lt c (hback c hc hcne) hcne⟩, ?_⟩
  · intro hzero
    apply hne
    rw [← UInt32.toNat_inj]
    rw [hzero] at heq
    simp at heq ⊢
    omega
  · rw [UInt32.le_iff_toNat_le]
    omega

/-- The slots that continued the stream from `x` are the ones still linked, or used up. -/
theorem Reaches.of_releases {r r' : Reassembly} (hdistinct : Distinct r.bufs)
    (hne : r.expected ≠ 0) (hrel : Releases r r') {x : UInt32}
    (h : Reaches r.bufs r.expected x) :
    x = r.expected ∨ Reaches r'.bufs r'.expected x := by
  have hkeep := fun b => hrel.mem_of_ne (b := b)
  obtain ⟨before, after, b, hbufs, hseq, -, hexpected, -⟩ := hrel
  -- A link out of `expected` can only be the released slot.
  have honly : ∀ c ∈ r.bufs, c.seq = r.expected → c = b := by
    intro c hc hceq
    rw [hbufs] at hc hdistinct
    exact hdistinct.eq_of_mem (by rwa [hseq]) hc (by rw [hceq, hseq])
  induction h with
  | refl => exact .inl rfl
  | tail _ hlink ih =>
      obtain ⟨c, hc, hcne, hceq, rfl⟩ := hlink
      right
      by_cases hce : c.seq = r.expected
      · obtain rfl := honly c hc hce
        rw [← hceq, hce, ← hexpected]
        exact .refl
      · rcases ih with heq | hreach
        · exact absurd (hceq.trans heq) hce
        · exact hreach.tail ⟨c, hkeep c hc hce, hcne, hceq, rfl⟩

/-- The drain loop on its way, from the table `bufs` and the stream position `e`. -/
structure Draining (bufs : List Buffered) (e : UInt32) (s : Reassembly) : Prop where
  bounded : s.Bounded
  distinct : Distinct s.bufs
  reached : Reaches bufs e s.expected
  back : ∀ b ∈ s.bufs, b.seq ≠ 0 → b ∈ bufs
  used : ∀ b ∈ bufs, b.seq ≠ 0 → b ∈ s.bufs ∨ Reaches bufs e b.seq
  ahead : ∀ x, Reaches bufs e x → Reaches s.bufs s.expected x ∨
    (x ≤ s.expected ∧ ∀ b ∈ s.bufs, b.seq ≠ 0 → b.seq ≠ x)

theorem Draining.start {r : Reassembly} (hbounded : r.Bounded) (hdistinct : Distinct r.bufs) :
    Draining r.bufs r.expected r where
  bounded := hbounded
  distinct := hdistinct
  reached := .refl
  back _ hb _ := hb
  used _ hb _ := .inl hb
  ahead _ hx := .inl hx

theorem Draining.releases {bufs : List Buffered} {e : UInt32} {s s' : Reassembly}
    (h : Draining bufs e s) (hrel : Releases s s') : Draining bufs e s' := by
  have hback := fun b => hrel.mem_of_occupied (b := b)
  have hkeep := fun b => hrel.mem_of_ne (b := b)
  have hne := h.bounded.expected_ne
  obtain ⟨hbounded, hle⟩ := h.bounded.releases hrel
  have hahead : ∀ x, Reaches s.bufs s.expected x →
      x = s.expected ∨ Reaches s'.bufs s'.expected x := fun x hx =>
    hx.of_releases h.distinct hne hrel
  obtain ⟨before, after, b, hbufs, hseq, hbufs', hexpected, -⟩ := hrel
  have hdistinct := h.distinct
  rw [hbufs] at hdistinct
  have hb : b ∈ s.bufs := by simp [hbufs]
  have hbne : b.seq ≠ 0 := by rwa [hseq]
  -- The released position is empty afterwards.
  have hempty : ∀ c ∈ s'.bufs, c.seq ≠ 0 → c.seq ≠ s.expected := by
    intro c hc hcne
    rw [hbufs'] at hc
    rw [← hseq]
    simp only [List.mem_append, List.mem_cons] at hc
    rcases hc with hc | rfl | hc
    · exact hdistinct.split hbne (.inl hc)
    · exact absurd rfl hcne
    · exact hdistinct.split hbne (.inr hc)
  refine ⟨hbounded, ?_, ?_, fun c hc hcne => h.back c (hback c hc hcne) hcne, ?_, ?_⟩
  · rw [hbufs']
    exact hdistinct.free
  · exact h.reached.tail ⟨b, h.back b hb hbne, hbne, hseq, hexpected⟩
  · intro c hc hcne
    rcases h.used c hc hcne with hcs | hreach
    · by_cases hce : c.seq = s.expected
      · right
        rw [hce]
        exact h.reached
      · exact .inl (hkeep c hcs hce)
    · exact .inr hreach
  · intro x hx
    rcases h.ahead x hx with hreach | ⟨hxle, hnone⟩
    · rcases hahead x hreach with rfl | hreach'
      · exact .inr ⟨hle, hempty⟩
      · exact .inl hreach'
    · exact .inr ⟨UInt32.le_trans hxle hle, fun c hc hcne => hnone c (hback c hc hcne) hcne⟩

theorem Draining.done {bufs : List Buffered} {e : UInt32} {s : Reassembly}
    (h : Draining bufs e s) (hstable : ∀ b ∈ s.bufs, b.seq ≠ s.expected) {x : UInt32}
    (hx : Reaches bufs e x) :
    x ≤ s.expected ∧ ∀ b ∈ s.bufs, b.seq ≠ 0 → b.seq ≠ x := by
  rcases h.ahead x hx with hreach | hdone
  · rcases ReflTransGen.cases_head hreach with rfl | ⟨y, ⟨b, hb, -, heq, -⟩, -⟩
    · exact ⟨UInt32.le_refl _, fun b hb _ => hstable b hb⟩
    · exact absurd heq (hstable b hb)
  · exact hdone

theorem waiting_drain_iff {r r' : Reassembly} (hbounded : r.Bounded)
    (hdistinct : Distinct r.bufs) (hdrain : r.drain = some r') :
    r'.Bounded ∧ (r'.Waiting ↔ ∀ b ∈ r.bufs, b.seq ≠ 0 → ∀ x, Reaches r.bufs r.expected x →
      b.seq < x → Reaches r.bufs r.expected b.seq) := by
  have hend : Draining r.bufs r.expected r' :=
    drain_invariant (fun s s' hs hrel => hs.releases hrel)
      (Draining.start hbounded hdistinct) hdrain
  have hstable := drain_stable hdrain
  refine ⟨hend.bounded, ?_, ?_⟩
  · intro hwaiting b hb hbne x hx hlt
    rcases hend.used b hb hbne with hb' | hreach
    · have habove := hwaiting.above b hb' hbne
      have hle := (hend.done hstable hx).1
      rw [UInt32.lt_iff_toNat_lt] at habove hlt
      rw [UInt32.le_iff_toNat_le] at hle
      omega
    · exact hreach
  · intro hinside
    refine ⟨?_, hend.distinct⟩
    intro b hb hbne
    by_contra hle
    have hne := hstable b hb
    have hlt : b.seq < r'.expected := by
      rw [UInt32.lt_iff_toNat_lt] at hle ⊢
      rw [ne_eq, ← UInt32.toNat_inj] at hne
      omega
    have hreach := hinside b (hend.back b hb hbne) hbne r'.expected hend.reached hlt
    exact (hend.done hstable hreach).2 b hb hbne rfl

theorem Bounded.write {r : Reassembly} (h : r.Bounded) {payload : List UInt8}
    (hlt : r.expected.toNat + payload.length < 2 ^ 32) : (r.write payload).Bounded := by
  refine ⟨?_, h.slot_lt⟩
  intro hzero
  have heq := toNat_add_ofNat hlt
  have hne := h.expected_ne
  rw [← expected_write, hzero] at heq
  apply hne
  rw [← UInt32.toNat_inj]
  simp at heq ⊢
  omega

theorem Bounded.place {r : Reassembly} (h : r.Bounded) {seq : UInt32} {payload : List UInt8}
    (hlt : seq.toNat + payload.length < 2 ^ 32) : (r.place seq payload).Bounded := by
  refine ⟨h.expected_ne, ?_⟩
  intro b hb hne
  rcases mem_place hb with hb | ⟨a, -, -, rfl⟩
  · exact h.slot_lt b hb hne
  · exact hlt

theorem waiting_receive_iff {r : Reassembly} (hbounded : r.Bounded) (hwaiting : r.Waiting)
    {seq : UInt32} {payload : List UInt8} (hlt : seq.toNat + payload.length < 2 ^ 32) :
    ∃ r', r.receive seq payload = some r' ∧ r'.Bounded ∧
      (r'.Waiting ↔ r.Admissible seq payload.length) := by
  by_cases horder : seq = r.expected
  · subst horder
    have hwrite := hbounded.write hlt
    obtain ⟨r', hdrain⟩ := drain_isSome (fun s s' hs hrel => (hs.releases hrel).1)
      (fun s hs => Bounded.expected_ne hs) hwrite
    obtain ⟨hbounded', hiff⟩ := waiting_drain_iff hwrite hwaiting.distinct hdrain
    refine ⟨r', by simp [receive, hdrain], hbounded', hiff.trans ?_⟩
    constructor
    · intro h
      exact ⟨fun hlater => absurd hlater (UInt32.lt_irrefl _), fun _ => h⟩
    · intro h
      exact h.inOrder rfl
  · by_cases hlater : r.expected < seq
    · refine ⟨r.place seq payload, by simp [receive, horder, hlater],
        hbounded.place hlt, ?_⟩
      have hseq : seq ≠ 0 := by
        rintro rfl
        simp [UInt32.lt_iff_toNat_lt] at hlater
      by_cases hfree : r.HasFree
      · obtain ⟨before, a, after, hbufs, ha, -, hfit⟩ :=
          firstFit_eq_append (x := Buffered.save seq payload) hfree
        have hplaced : Distinct (r.place seq payload).bufs ↔ ∀ b ∈ r.bufs, b.seq ≠ seq := by
          have hdistinct := hwaiting.distinct
          rw [hbufs] at hdistinct
          rw [bufs_place, hfit, hbufs]
          exact hdistinct.place_iff (b := a.save seq payload) (Buffered.isFree_iff.mp ha) hseq
        constructor
        · intro h
          exact ⟨fun _ _ => hplaced.mp h.distinct, fun heq => absurd heq horder⟩
        · intro h
          refine ⟨?_, hplaced.mpr (h.later hlater hfree)⟩
          intro b hb hne
          rcases mem_place hb with hb | ⟨c, -, -, rfl⟩
          · exact hwaiting.above b hb hne
          · exact hlater
      · rw [place_of_not_hasFree hfree]
        exact iff_of_true hwaiting
          ⟨fun _ h => absurd h hfree, fun heq => absurd heq horder⟩
    · refine ⟨r, by simp [receive, horder, hlater], hbounded, ?_⟩
      exact iff_of_true hwaiting
        ⟨fun h => absurd h hlater, fun heq => absurd heq horder⟩

end Reassembly

namespace Server

open Reassembly

theorem bounded_receiveName {srvSeq : UInt32} {name : Packet} {outname : List UInt8}
    {s₀ : Server} (hname : receiveName srvSeq name = some (outname, s₀))
    (hlt : name.hdr.seqNum.toNat + name.data.length < 2 ^ 32) :
    s₀.phase = .receiving ∧ s₀.reassembly.Bounded ∧ s₀.reassembly.Waiting := by
  have hfresh : ∀ e b, b ∈ (Reassembly.start e).bufs → b.seq = 0 := by
    intro e b hb
    simp only [Reassembly.start, List.mem_replicate] at hb
    simp [hb.2, Buffered.zeroed]
  unfold receiveName at hname
  split at hname
  · simp at hname
  · rename_i hne
    simp only [Option.some.injEq, Prod.mk.injEq] at hname
    obtain ⟨-, rfl⟩ := hname
    refine ⟨rfl, ⟨?_, fun b hb hbne => absurd (hfresh _ b hb) hbne⟩,
      ⟨fun b hb hbne => absurd (hfresh _ b hb) hbne, ?_⟩⟩
    · have hsize : outnameSize = 256 := rfl
      intro hzero
      have hzero := congrArg UInt32.toNat hzero
      simp only [Reassembly.start] at hzero
      rw [toNat_add_ofNat] at hzero
      · rw [UInt32.toNat_zero] at hzero
        split at hzero <;> omega
      · split <;> omega
    · exact List.pairwise_replicate.mpr (.inr fun h => absurd rfl h)

/--
The table waits after every packet exactly when every packet taken from the
socket is admissible in the state that receives it.
-/
theorem always_waiting_iff {srvSeq : UInt32} {name : Packet} {outname : List UInt8}
    {s₀ : Server} (hname : receiveName srvSeq name = some (outname, s₀))
    (hlt : name.hdr.seqNum.toNat + name.data.length < 2 ^ 32) {arrivals : List Arrival}
    (hpackets : ∀ a ∈ arrivals, a.packet.hdr.has shamFin = false ∧
      a.packet.hdr.seqNum.toNat + a.packet.data.length < 2 ^ 32) :
    machine.Always (fun s => s.reassembly.Waiting) arrivals s₀ ↔
      machine.Guarded (fun s a => a.shouldDrop = false →
        s.reassembly.Admissible a.packet.hdr.seqNum a.packet.data.length) arrivals s₀ := by
  obtain ⟨hphase, hbounded, hwaiting⟩ := bounded_receiveName hname hlt
  refine machine.always_iff_guarded (J := fun s => s.phase = .receiving ∧ s.reassembly.Bounded)
    ?_ hpackets ⟨hphase, hbounded⟩ hwaiting
  rintro a s ⟨hfin, hlt⟩ ⟨hphase, hbounded⟩ hwaiting
  cases hdrop : a.shouldDrop with
  | true =>
      refine .inr ⟨s, [], by simp [machine, step, hphase, hdrop], ⟨hphase, hbounded⟩, ?_⟩
      simp [hwaiting]
  | false =>
      obtain ⟨r, hr, hbounded', hiff⟩ := waiting_receive_iff hbounded hwaiting hlt
      refine .inr ⟨{ s with reassembly := r }, [cumulativeAck r],
        by simp [machine, step, hphase, hdrop, hfin, hr], ⟨hphase, hbounded'⟩, ?_⟩
      simpa using hiff

def nameAt100 : Packet := ⟨{ seqNum := 100 }, [111]⟩

def late : Arrival := ⟨⟨{ seqNum := 103 }, [3]⟩, false⟩

def gap : Arrival := ⟨⟨{ seqNum := 101 }, [1, 2]⟩, false⟩

theorem always_waiting_late :
    ∃ s₀, receiveName 900 nameAt100 = some ([111], s₀) ∧
      machine.Always (fun s => s.reassembly.Waiting) [late] s₀ := by
  have hname : receiveName 900 nameAt100 = some ([111], ⟨.receiving, 900, .start 101⟩) := rfl
  refine ⟨_, hname, (always_waiting_iff hname (by decide) (by decide)).mpr
    ⟨fun _ => ⟨fun _ _ b hb => ?_, fun heq => ?_⟩, fun _ _ _ => trivial⟩⟩
  · have hzero : b.seq = 0 := by
      simp only [Reassembly.start, List.mem_replicate] at hb
      simp [hb.2, Buffered.zeroed]
    rw [hzero]
    decide
  · exact absurd heq (by decide)

/--
A segment that is sent again while it is buffered occupies a second slot; once
the gap is closed one copy is written and the other stays below `expected`.
-/
theorem duplicate_stays :
    ∃ s₀ s₂ s₃ out₂ out₃, receiveName 900 nameAt100 = some ([111], s₀) ∧
      machine.run [late, late] s₀ = some (s₂, out₂) ∧ ¬ Distinct s₂.reassembly.bufs ∧
      machine.run [late, late, gap] s₀ = some (s₃, out₃) ∧
      s₃.reassembly.expected = 104 ∧
      (∃ b ∈ s₃.reassembly.bufs, b.seq = 103) ∧ s₃.reassembly.bufferedBytes = 1 := by
  obtain ⟨s₂, out₂, hrun₂, htwice⟩ := machine.exists_run [late, late]
    ⟨.receiving, 900, .start 101⟩
    (fun x => (x.1.reassembly.bufs.take 2).map Buffered.seq == [103, 103]) (by decide +kernel)
  obtain ⟨s₃, out₃, hrun₃, hstays⟩ := machine.exists_run [late, late, gap]
    ⟨.receiving, 900, .start 101⟩
    (fun x => x.1.reassembly.expected == 104 &&
      x.1.reassembly.bufs.any (fun b => b.seq == 103) &&
      x.1.reassembly.bufferedBytes == 1) (by decide +kernel)
  simp only [Bool.and_eq_true, beq_iff_eq, List.any_eq_true] at hstays
  obtain ⟨⟨hexpected, hold⟩, hcounted⟩ := hstays
  refine ⟨_, s₂, s₃, out₂, out₃, rfl, hrun₂, ?_, hrun₃, hexpected, hold, hcounted⟩
  intro hdistinct
  match hbufs : s₂.reassembly.bufs, htwice, hdistinct with
  | a :: b :: rest, htwice, hdistinct =>
      simp only [List.take_succ_cons, List.take_zero, List.map_cons, List.map_nil,
        beq_iff_eq, List.cons.injEq, and_true] at htwice
      have hne := (List.pairwise_cons.mp hdistinct).1 b (by simp) (by
        rw [htwice.1]
        decide)
      rw [htwice.1, htwice.2] at hne
      exact hne rfl
  | [], htwice, _ => simp at htwice
  | [a], htwice, _ => simp at htwice

end Server

end OxyC.Networking
