import OxyC.Foundation.FirstFit
import OxyC.Foundation.Sweep
import OxyC.Networking.Sham

/-!
# The server's reassembly buffer

The receive loop of `server.c` writes in-order payloads to the output file and
keeps later ones in a table of `maxBufPkts` slots, where `seq == 0` marks an
empty slot.  An in-order arrival is followed by the `while (changed)` loop that
writes every slot starting at `expected`.
-/

namespace OxyC.Networking

open OxyC.Foundation Relation

def maxBufPkts : Nat := 10240

structure Buffered where
  seq : UInt32
  len : Nat
  data : List UInt8
  deriving DecidableEq, Repr

namespace Buffered

/-- A slot as `calloc` leaves it. -/
def zeroed : Buffered := ⟨0, 0, List.replicate shamMtu 0⟩

def isFree (b : Buffered) : Bool := b.seq == 0

/-- The bytes `fwrite(b.data, 1, b.len, out)` writes. -/
def bytes (b : Buffered) : List UInt8 := b.data.take b.len

def save (seq : UInt32) (payload : List UInt8) (b : Buffered) : Buffered :=
  ⟨seq, payload.length, memcpy b.data payload⟩

@[simp] theorem seq_save (seq : UInt32) (payload : List UInt8) (b : Buffered) :
    (b.save seq payload).seq = seq := rfl
@[simp] theorem len_save (seq : UInt32) (payload : List UInt8) (b : Buffered) :
    (b.save seq payload).len = payload.length := rfl
@[simp] theorem bytes_save (seq : UInt32) (payload : List UInt8) (b : Buffered) :
    (b.save seq payload).bytes = payload := by
  simp [bytes, save]

theorem isFree_iff {b : Buffered} : b.isFree = true ↔ b.seq = 0 := by
  simp [isFree]

theorem isFree_eq_false {b : Buffered} : b.isFree = false ↔ b.seq ≠ 0 := by
  simp [isFree]

end Buffered

/-- The two variables the drain loop advances: `expected` and the bytes in `out`. -/
structure Written where
  expected : UInt32
  out : List UInt8
  deriving DecidableEq, Repr

/-- The body of the drain loop at one slot. -/
def release (w : Written) (b : Buffered) : Option (Written × Buffered) :=
  if b.seq = w.expected then
    some (⟨w.expected + UInt32.ofNat b.len, w.out ++ b.bytes⟩, { b with seq := 0 })
  else none

/--
Sweeps allowed to the drain loop.  A sweep that changes something empties a
slot, so a loop that ends at all ends within this number.
-/
def drainFuel : Nat := maxBufPkts + 2

structure Reassembly where
  expected : UInt32
  out : List UInt8
  bufs : List Buffered
  bufs_length : bufs.length = maxBufPkts

namespace Reassembly

/-- The state after `fopen` of the output file and `calloc` of the slots. -/
def start (expected : UInt32) : Reassembly :=
  ⟨expected, [], List.replicate maxBufPkts Buffered.zeroed, List.length_replicate⟩

/-- The drain loop; `none` when it does not terminate. -/
def drain (r : Reassembly) : Option Reassembly :=
  match h : saturate release drainFuel r.bufs ⟨r.expected, r.out⟩ with
  | none => none
  | some (bufs, w) => some ⟨w.expected, w.out, bufs, (saturate_length h).trans r.bufs_length⟩

/-- Save an out-of-order segment in the first empty slot, if there is one. -/
def place (seq : UInt32) (payload : List UInt8) (r : Reassembly) : Reassembly where
  expected := r.expected
  out := r.out
  bufs := firstFit Buffered.isFree (Buffered.save seq payload) r.bufs
  bufs_length := (length_firstFit r.bufs).trans r.bufs_length

def write (payload : List UInt8) (r : Reassembly) : Reassembly :=
  { r with expected := r.expected + UInt32.ofNat payload.length, out := r.out ++ payload }

/-- One data packet: in order, out of order, or already written. -/
def receive (seq : UInt32) (payload : List UInt8) (r : Reassembly) : Option Reassembly :=
  if seq = r.expected then (r.write payload).drain
  else if r.expected < seq then some (r.place seq payload)
  else some r

def bufferedBytes (r : Reassembly) : Nat :=
  ((r.bufs.filter fun b => b.seq != 0).map Buffered.len).sum

/-- The window advertised with the cumulative ACK. -/
def avail (r : Reassembly) : UInt16 :=
  let avail := sizeSub (maxBufPkts * shamMtu) r.bufferedBytes
  if avail > 65535 then 65535 else UInt16.ofNat avail

def HasFree (r : Reassembly) : Prop := ∃ b ∈ r.bufs, b.isFree = true

/-- One slot that starts at `expected` is written and emptied. -/
inductive Releases : Reassembly → Reassembly → Prop where
  | at {r r' : Reassembly} (before after : List Buffered) (b : Buffered)
      (hbufs : r.bufs = before ++ b :: after) (hseq : b.seq = r.expected)
      (hbufs' : r'.bufs = before ++ { b with seq := 0 } :: after)
      (hexpected : r'.expected = r.expected + UInt32.ofNat b.len)
      (hout : r'.out = r.out ++ b.bytes) : Releases r r'

theorem Releases.mem_of_occupied {r r' : Reassembly} (h : Releases r r') {b : Buffered}
    (hb : b ∈ r'.bufs) (hseq : b.seq ≠ 0) : b ∈ r.bufs := by
  obtain ⟨before, after, c, hbufs, -, hbufs', -, -⟩ := h
  rw [hbufs'] at hb
  rw [hbufs]
  simp only [List.mem_append, List.mem_cons] at hb ⊢
  rcases hb with hb | rfl | hb
  · exact .inl hb
  · exact absurd rfl hseq
  · exact .inr (.inr hb)

theorem Releases.mem_of_ne {r r' : Reassembly} (h : Releases r r') {b : Buffered}
    (hb : b ∈ r.bufs) (hseq : b.seq ≠ r.expected) : b ∈ r'.bufs := by
  obtain ⟨before, after, c, hbufs, hc, hbufs', -, -⟩ := h
  rw [hbufs] at hb
  rw [hbufs']
  simp only [List.mem_append, List.mem_cons] at hb ⊢
  rcases hb with hb | rfl | hb
  · exact .inl hb
  · exact absurd hc hseq
  · exact .inr (.inr hb)

theorem drain_eq_some {r r' : Reassembly} (h : r.drain = some r') :
    saturate release drainFuel r.bufs ⟨r.expected, r.out⟩ =
      some (r'.bufs, ⟨r'.expected, r'.out⟩) := by
  unfold drain at h
  split at h
  · simp at h
  · rename_i hsat
    rw [hsat]
    simp only [Option.some.injEq] at h
    subst h
    rfl

theorem drain_eq_none {r : Reassembly} (h : r.drain = none) :
    saturate release drainFuel r.bufs ⟨r.expected, r.out⟩ = none := by
  unfold drain at h
  split at h
  · assumption
  · simp at h

theorem releases_of_fires {x y : List Buffered × Written} (h : Fires release x y)
    (hx : x.1.length = maxBufPkts) (hy : y.1.length = maxBufPkts) :
    Releases ⟨x.2.expected, x.2.out, x.1, hx⟩ ⟨y.2.expected, y.2.out, y.1, hy⟩ := by
  cases h with
  | @«at» before after b b' w w' hrel =>
      unfold release at hrel
      split at hrel
      · rename_i hseq
        simp only [Option.some.injEq, Prod.mk.injEq] at hrel
        obtain ⟨rfl, rfl⟩ := hrel
        exact .at before after b rfl hseq rfl rfl rfl
      · simp at hrel

theorem drain_invariant {P : Reassembly → Prop}
    (hstep : ∀ r r', P r → Releases r r' → P r')
    {r r' : Reassembly} (hr : P r) (h : r.drain = some r') : P r' := by
  have hsat := saturate_invariant
    (P := fun x => ∃ hlen : x.1.length = maxBufPkts, P ⟨x.2.expected, x.2.out, x.1, hlen⟩)
    (fun x y ⟨hlen, hx⟩ hfire => ⟨hfire.length_eq.trans hlen,
      hstep _ _ hx (releases_of_fires hfire hlen (hfire.length_eq.trans hlen))⟩)
    ⟨r.bufs_length, hr⟩ (drain_eq_some h)
  obtain ⟨_, hP⟩ := hsat
  exact hP

theorem drain_stable {r r' : Reassembly} (h : r.drain = some r') :
    ∀ b ∈ r'.bufs, b.seq ≠ r'.expected := by
  intro b hb hseq
  have hnone := (saturate_fires (drain_eq_some h)).2 b hb
  simp [release, hseq] at hnone

def occupied (bufs : List Buffered) : Nat := bufs.countP fun b => b.seq != 0

theorem occupied_le (r : Reassembly) : occupied r.bufs ≤ maxBufPkts :=
  List.countP_le_length.trans r.bufs_length.le

theorem Releases.occupied_lt {r r' : Reassembly} (h : Releases r r')
    (hexpected : r.expected ≠ 0) : occupied r'.bufs < occupied r.bufs := by
  obtain ⟨before, after, b, hbufs, hseq, hbufs', -, -⟩ := h
  have hb : b.seq ≠ 0 := by
    rw [hseq]
    exact hexpected
  simp [occupied, hbufs, hbufs', hb]

theorem drain_isSome {P : Reassembly → Prop}
    (hstep : ∀ r r', P r → Releases r r' → P r') (hexpected : ∀ r, P r → r.expected ≠ 0)
    {r : Reassembly} (hr : P r) : ∃ r', r.drain = some r' := by
  have hfuel : occupied r.bufs < drainFuel := by
    have := r.occupied_le
    simp only [drainFuel]
    omega
  have hsome : ∃ result, saturate release drainFuel r.bufs ⟨r.expected, r.out⟩ = some result :=
    saturate_isSome
    (P := fun x => ∃ hlen : x.1.length = maxBufPkts, P ⟨x.2.expected, x.2.out, x.1, hlen⟩)
    (μ := fun x => occupied x.1)
    (fun x y ⟨hlen, hx⟩ hfire => by
      have hrel := releases_of_fires hfire hlen (hfire.length_eq.trans hlen)
      exact ⟨⟨hfire.length_eq.trans hlen, hstep _ _ hx hrel⟩,
        hrel.occupied_lt (hexpected _ hx)⟩)
    ⟨r.bufs_length, hr⟩ hfuel
  obtain ⟨⟨bufs, w⟩, hsat⟩ := hsome
  unfold drain
  split
  · rename_i hnone
    rw [hsat] at hnone
    simp at hnone
  · exact ⟨_, rfl⟩

@[simp] theorem expected_place (seq : UInt32) (payload : List UInt8) (r : Reassembly) :
    (r.place seq payload).expected = r.expected := rfl
@[simp] theorem out_place (seq : UInt32) (payload : List UInt8) (r : Reassembly) :
    (r.place seq payload).out = r.out := rfl
theorem bufs_place (seq : UInt32) (payload : List UInt8) (r : Reassembly) :
    (r.place seq payload).bufs =
      firstFit Buffered.isFree (Buffered.save seq payload) r.bufs := rfl
@[simp] theorem expected_write (payload : List UInt8) (r : Reassembly) :
    (r.write payload).expected = r.expected + UInt32.ofNat payload.length := rfl
@[simp] theorem out_write (payload : List UInt8) (r : Reassembly) :
    (r.write payload).out = r.out ++ payload := rfl
@[simp] theorem bufs_write (payload : List UInt8) (r : Reassembly) :
    (r.write payload).bufs = r.bufs := rfl

theorem mem_place {seq : UInt32} {payload : List UInt8} {r : Reassembly} {b : Buffered}
    (hb : b ∈ (r.place seq payload).bufs) :
    b ∈ r.bufs ∨ ∃ a ∈ r.bufs, a.isFree = true ∧ b = a.save seq payload :=
  mem_firstFit hb

theorem mem_place_of_occupied {seq : UInt32} {payload : List UInt8} {r : Reassembly}
    {b : Buffered} (hb : b ∈ r.bufs) (hseq : b.seq ≠ 0) : b ∈ (r.place seq payload).bufs :=
  mem_firstFit_of_not_free hb (Buffered.isFree_eq_false.mpr hseq)

theorem exists_mem_place {seq : UInt32} (payload : List UInt8) {r : Reassembly}
    (hfree : r.HasFree) :
    ∃ b ∈ (r.place seq payload).bufs, b.seq = seq ∧ b.bytes = payload := by
  obtain ⟨before, a, after, -, -, -, hfit⟩ :=
    firstFit_eq_append (x := Buffered.save seq payload) hfree
  refine ⟨a.save seq payload, ?_, rfl, a.bytes_save seq payload⟩
  simp [place, hfit]

theorem place_of_not_hasFree {seq : UInt32} {payload : List UInt8} {r : Reassembly}
    (h : ¬ r.HasFree) : r.place seq payload = r := by
  have hfit : firstFit Buffered.isFree (Buffered.save seq payload) r.bufs = r.bufs :=
    firstFit_eq_self fun b hb => Bool.eq_false_iff.mpr fun hf => h ⟨b, hb, hf⟩
  unfold place
  congr

theorem hasFree_iff {r : Reassembly} : r.HasFree ↔ occupied r.bufs < maxBufPkts := by
  have hle := r.occupied_le
  have hfull : occupied r.bufs = maxBufPkts ↔ ∀ b ∈ r.bufs, (b.seq != 0) = true := by
    rw [← r.bufs_length]
    exact List.countP_eq_length
  constructor
  · rintro ⟨b, hb, hfree⟩
    have hne : occupied r.bufs ≠ maxBufPkts := by
      intro heq
      have := hfull.mp heq b hb
      simp [Buffered.isFree_iff.mp hfree] at this
    omega
  · intro hlt
    by_contra hnone
    have : occupied r.bufs = maxBufPkts := hfull.mpr fun b hb => by
      have hfree : ¬ b.isFree = true := fun h => hnone ⟨b, hb, h⟩
      simpa [Buffered.isFree] using hfree
    omega

theorem occupied_place {seq : UInt32} {payload : List UInt8} {r : Reassembly}
    (hseq : seq ≠ 0) (hfree : r.HasFree) :
    occupied (r.place seq payload).bufs = occupied r.bufs + 1 := by
  obtain ⟨before, a, after, hbufs, ha, -, hfit⟩ :=
    firstFit_eq_append (x := Buffered.save seq payload) hfree
  have ha : a.seq = 0 := Buffered.isFree_iff.mp ha
  rw [bufs_place, hfit, hbufs]
  simp only [occupied, List.countP_append, List.countP_cons]
  simp [ha, hseq]
  omega

theorem occupied_drain_le {r r' : Reassembly} (h : r.drain = some r') :
    occupied r'.bufs ≤ occupied r.bufs := by
  refine drain_invariant (P := fun s => occupied s.bufs ≤ occupied r.bufs) ?_ le_rfl h
  intro s s' hle hrel
  refine le_trans ?_ hle
  obtain ⟨before, after, b, hbufs, -, hbufs', -, -⟩ := hrel
  simp only [occupied, hbufs, hbufs', List.countP_append, List.countP_cons]
  simp

theorem occupied_receive_le {seq : UInt32} {payload : List UInt8} {r r' : Reassembly}
    (h : r.receive seq payload = some r') : occupied r'.bufs ≤ occupied r.bufs + 1 := by
  unfold receive at h
  split at h
  · have := occupied_drain_le h
    simp only [bufs_write] at this
    omega
  · split at h
    · rename_i hlater
      simp only [Option.some.injEq] at h
      subst h
      by_cases hfree : r.HasFree
      · have hseq : seq ≠ 0 := by
          rintro rfl
          simp [UInt32.lt_iff_toNat_lt] at hlater
        rw [occupied_place hseq hfree]
      · rw [place_of_not_hasFree hfree]
        omega
    · simp only [Option.some.injEq] at h
      subst h
      omega

theorem occupied_start (expected : UInt32) : occupied (start expected).bufs = 0 := by
  unfold occupied start
  rw [List.countP_replicate]
  rfl

end Reassembly

end OxyC.Networking
