import OxyC.Foundation.Visits
import OxyC.Networking.Reassembly

/-!
# What the drain loop writes

The loop after an in-order packet, with a log of the slots it writes.  A slot is
empty when its `seq` is 0, so the loop takes an empty slot for one that continues
the stream as soon as `expected` comes to 0.
-/

namespace OxyC.Networking

open OxyC.Foundation Relation

/-- `expected`, and the slots written so far, each with its index. -/
structure Logged where
  expected : UInt32
  log : List (Buffered × Nat)

/-- The body of the loop, as in `release`. -/
def releaseLogged (w : Logged) (b : Buffered × Nat) : Option (Logged × (Buffered × Nat)) :=
  if b.1.seq = w.expected then
    some (⟨w.expected + UInt32.ofNat b.1.len, w.log ++ [b]⟩, ({ b.1 with seq := 0 }, b.2))
  else none

theorem saturate_logged (fuel : Nat) (bufs : List Buffered) (expected : UInt32)
    (out : List UInt8) :
    Option.Rel
      (fun x y => List.Forall₂ (fun b e => b = Prod.fst e) x.1 y.1 ∧
        x.2.expected = y.2.expected ∧
        x.2.out = out ++ y.2.log.flatMap fun e => e.1.bytes)
      (saturate release fuel bufs ⟨expected, out⟩)
      (saturate releaseLogged fuel bufs.zipIdx ⟨expected, []⟩) := by
  refine saturate_lockstep (E := fun b e => b = Prod.fst e)
    (S := fun (w : Written) (l : Logged) =>
      w.expected = l.expected ∧ w.out = out ++ l.log.flatMap fun e => e.1.bytes)
    ?_ fuel ?_ ⟨rfl, by simp⟩
  · rintro w l b e ⟨hexpected, hout⟩ rfl
    unfold release releaseLogged
    rw [hexpected]
    split
    · exact .some ⟨⟨rfl, by simp [hout]⟩, rfl⟩
    · exact .none
  · rw [List.forall₂_iff_get]
    refine ⟨by simp, ?_⟩
    intro i hi hi'
    simp

/-- The loop ends, writes no slot twice and no empty one. -/
def DrainsWell (r : Reassembly) : Prop :=
  ∃ fuel bufs w, saturate releaseLogged fuel r.bufs.zipIdx ⟨r.expected, []⟩ = some (bufs, w) ∧
    (w.log.map Prod.snd).Nodup ∧ ∀ e ∈ w.log, e.1.seq ≠ 0

/-- A buffered segment continues the stream at `x`. -/
def continueAt (x : UInt32) (b : Buffered) : Option (UInt32 × Buffered) :=
  if b.seq ≠ 0 ∧ b.seq = x then some (x + UInt32.ofNat b.len, { b with seq := 0 }) else none

/-- Where the buffered segments continue the stream from `x`, taken in the order of the slots,
round and round, it never comes to 0 while a slot is empty. -/
def KeepsOffZero (bufs : List Buffered) (x : UInt32) : Prop :=
  ∀ v, ReflTransGen (Visit continueAt) (.start bufs x) v → v.state = 0 → ∀ b ∈ v.table, b.seq ≠ 0

namespace Logged

abbrev LogWalk := Walk Logged (Buffered × Nat)

def plain (w : LogWalk) : Walk UInt32 Buffered :=
  ⟨w.behind.map Prod.fst, w.ahead.map Prod.fst, w.state.expected⟩

/-- From here on the walk keeps off zero. -/
def Safe (w : LogWalk) : Prop :=
  ∀ v, ReflTransGen (Visit continueAt) (plain w) v → v.state = 0 → ∀ b ∈ v.table, b.seq ≠ 0

theorem releaseLogged_eq_none {w : Logged} {b : Buffered × Nat}
    (h : releaseLogged w b = none) : b.1.seq ≠ w.expected := by
  unfold releaseLogged at h
  split at h
  · cases h
  · assumption

theorem releaseLogged_eq_some {w w' : Logged} {b b' : Buffered × Nat}
    (h : releaseLogged w b = some (w', b')) :
    b.1.seq = w.expected ∧ w' = ⟨w.expected + UInt32.ofNat b.1.len, w.log ++ [b]⟩ ∧
      b' = ({ b.1 with seq := 0 }, b.2) := by
  unfold releaseLogged at h
  split at h
  · cases h
    exact ⟨‹_›, rfl, rfl⟩
  · cases h

/-- Not at 0 while a slot is empty. -/
def Off (w : LogWalk) : Prop := w.state.expected = 0 → ∀ b ∈ w.table, b.1.seq ≠ 0

theorem Safe.off {w : LogWalk} (h : Safe w) : Off w := by
  intro hzero b hb
  refine h _ .refl hzero b.1 ?_
  simpa [plain, Walk.table] using List.mem_map_of_mem hb (f := Prod.fst)

theorem Off.seq_ne {behind ahead : List (Buffered × Nat)} {b : Buffered × Nat} {s : Logged}
    (h : Off ⟨behind, b :: ahead, s⟩) (hseq : b.1.seq = s.expected) : b.1.seq ≠ 0 := by
  intro hzero
  exact h (hseq.symm.trans hzero) b (by simp [Walk.table]) hzero

/-- There the walk releases just the segments that continue the stream. -/
theorem Off.plain_visit {w w' : LogWalk} (h : Off w) (hstep : Visit releaseLogged w w') :
    Visit continueAt (plain w) (plain w') := by
  cases hstep with
  | @skip behind ahead b s hnone =>
      have hskip : continueAt s.expected b.1 = none := by
        rw [continueAt, if_neg fun hboth => releaseLogged_eq_none hnone hboth.2]
      simpa [plain] using Visit.skip (behind.map Prod.fst) (ahead.map Prod.fst) hskip
  | @fire behind ahead b b' s s' hsome =>
      obtain ⟨hseq, rfl, rfl⟩ := releaseLogged_eq_some hsome
      have hfire : continueAt s.expected b.1 =
          some (s.expected + UInt32.ofNat b.1.len, { b.1 with seq := 0 }) := by
        rw [continueAt, if_pos ⟨h.seq_ne hseq, hseq⟩]
      simpa [plain] using Visit.fire (behind.map Prod.fst) (ahead.map Prod.fst) hfire
  | turn as s => exact .turn _ _

theorem Safe.step {w w' : LogWalk} (h : Safe w) (hstep : Visit releaseLogged w w') : Safe w' := by
  intro v hv
  exact h v (.head (h.off.plain_visit hstep) hv)

/-! ## The end of the loop -/

def busy (as : List (Buffered × Nat)) : Nat := Reassembly.occupied (as.map Prod.fst)

theorem busy_cons (b : Buffered × Nat) (as : List (Buffered × Nat)) :
    busy (b :: as) = busy as + if b.1.seq = 0 then 0 else 1 := by
  by_cases h : b.1.seq = 0 <;> simp [busy, Reassembly.occupied, h]

/-- A sweep that writes a slot empties one. -/
theorem Safe.sweep {behind as : List (Buffered × Nat)} {s : Logged} (h : Safe ⟨behind, as, s⟩) :
    busy (sweep releaseLogged as s).1 ≤ busy as ∧
      ((sweep releaseLogged as s).2.2 = true → busy (sweep releaseLogged as s).1 < busy as) := by
  induction as generalizing behind s with
  | nil => simp [OxyC.Foundation.sweep]
  | cons b as ih =>
      cases hb : releaseLogged s b with
      | none =>
          obtain ⟨hle, hlt⟩ := ih (h.step (.skip behind as hb))
          simp only [OxyC.Foundation.sweep, hb, busy_cons]
          exact ⟨by omega, fun hchanged => by have := hlt hchanged; omega⟩
      | some next =>
          obtain ⟨s', b'⟩ := next
          have hstep := h.step (.fire behind as hb)
          obtain ⟨hseq, rfl, rfl⟩ := releaseLogged_eq_some hb
          have hne := h.off.seq_ne hseq
          obtain ⟨hle, -⟩ := ih hstep
          simp only [OxyC.Foundation.sweep, hb, busy_cons, hne, if_true, if_false]
          omega

theorem Safe.saturate {fuel : Nat} {as : List (Buffered × Nat)} {s : Logged}
    (h : Safe (.start as s)) (hfuel : busy as < fuel) :
    ∃ result, saturate releaseLogged fuel as s = some result := by
  induction fuel generalizing as s with
  | zero => omega
  | succ fuel ih =>
      simp only [OxyC.Foundation.saturate]
      split
      · rename_i hchanged
        have hlt := h.sweep.2 hchanged
        refine ih ?_ (by omega)
        exact keeps_of_visits (fun _ _ hw hstep => Safe.step hw hstep)
          ((sweep_visits [] as s).tail (.turn _ _)) h
      · exact ⟨_, rfl⟩

/-! ## What is written -/

/-- The slots of the log are different, were occupied, and are empty now. -/
structure Records (w : LogWalk) : Prop where
  indices : (w.table.map Prod.snd).Nodup
  nodup : (w.state.log.map Prod.snd).Nodup
  occupied : ∀ e ∈ w.state.log, e.1.seq ≠ 0
  emptied : ∀ e ∈ w.state.log, ∃ b, (b, e.2) ∈ w.table ∧ b.seq = 0

theorem eq_of_index {as : List (Buffered × Nat)} (h : (as.map Prod.snd).Nodup)
    {b c : Buffered × Nat} (hb : b ∈ as) (hc : c ∈ as) (heq : b.2 = c.2) : b = c :=
  List.inj_on_of_nodup_map h hb hc heq

theorem Records.step {w w' : LogWalk} (h : Records w) (hsafe : Safe w)
    (hstep : Visit releaseLogged w w') : Records w' := by
  cases hstep with
  | @skip behind ahead b s hnone =>
      have htable : Walk.table ⟨behind ++ [b], ahead, s⟩ = Walk.table ⟨behind, b :: ahead, s⟩ := by
        simp [Walk.table]
      exact ⟨htable ▸ h.indices, h.nodup, h.occupied, htable ▸ h.emptied⟩
  | turn as s =>
      have htable : Walk.table ⟨[], as, s⟩ = Walk.table ⟨as, [], s⟩ := by simp [Walk.table]
      exact ⟨htable ▸ h.indices, h.nodup, h.occupied, htable ▸ h.emptied⟩
  | @fire behind ahead b b' s s' hsome =>
      obtain ⟨hseq, rfl, rfl⟩ := releaseLogged_eq_some hsome
      have hne := hsafe.off.seq_ne hseq
      have hfresh : ∀ e ∈ s.log, e.2 ≠ b.2 := by
        intro e he heq
        obtain ⟨c, hc, hempty⟩ := h.emptied e he
        have hsame := eq_of_index h.indices hc (c := b) (by simp [Walk.table]) heq
        exact hne (by rw [← hsame]; exact hempty)
      refine ⟨by simpa [Walk.table] using h.indices, ?_, ?_, ?_⟩
      · rw [List.map_append, List.nodup_append]
        refine ⟨h.nodup, by simp, ?_⟩
        intro i hi j hj heq
        obtain ⟨e, he, rfl⟩ := List.mem_map.mp hi
        exact hfresh e he (heq.trans (by simpa using hj))
      · intro e he
        cases List.mem_append.mp he with
        | inl hold => exact h.occupied e hold
        | inr hnew => rwa [List.mem_singleton.mp hnew]
      · intro e he
        cases List.mem_append.mp he with
        | inl hold =>
            obtain ⟨c, hc, hempty⟩ := h.emptied e hold
            have hother : (c, e.2) ≠ b := fun heq => hne (by rw [← heq]; exact hempty)
            refine ⟨c, ?_, hempty⟩
            simp only [Walk.table, List.mem_append, List.mem_cons] at hc ⊢
            rcases hc with hc | hc | hc
            · exact .inl (.inl hc)
            · exact absurd hc hother
            · exact .inr hc
        | inr hnew =>
            rw [List.mem_singleton.mp hnew]
            exact ⟨{ b.1 with seq := 0 }, by simp [Walk.table], rfl⟩

/-! ## Where an empty slot is written -/

def WroteEmpty (w : LogWalk) : Prop := ∃ e ∈ w.state.log, e.1.seq = 0

theorem WroteEmpty.step {w w' : LogWalk} (h : WroteEmpty w) (hstep : Visit releaseLogged w w') :
    WroteEmpty w' := by
  obtain ⟨e, he, hempty⟩ := h
  cases hstep with
  | skip behind ahead hnone => exact ⟨e, he, hempty⟩
  | turn as s => exact ⟨e, he, hempty⟩
  | fire behind ahead hsome =>
      obtain ⟨-, rfl, -⟩ := releaseLogged_eq_some hsome
      exact ⟨e, List.mem_append_left _ he, hempty⟩

/-- At 0 with an empty slot ahead, or past that. -/
def Astray (w : LogWalk) : Prop :=
  WroteEmpty w ∨ w.state.expected = 0 ∧ ∃ b ∈ w.table, b.1.seq = 0

theorem Astray.step {w w' : LogWalk} (h : Astray w) (hstep : Visit releaseLogged w w') :
    Astray w' := by
  rcases h with hwrote | ⟨hzero, b, hb, hempty⟩
  · exact .inl (hwrote.step hstep)
  · cases hstep with
    | skip behind ahead hnone =>
        exact .inr ⟨hzero, b, by simpa [Walk.table] using hb, hempty⟩
    | turn as s => exact .inr ⟨hzero, b, by simpa [Walk.table] using hb, hempty⟩
    | @fire behind ahead c c' s s' hsome =>
        obtain ⟨hseq, rfl, -⟩ := releaseLogged_eq_some hsome
        exact .inl ⟨c, by simp, hseq.trans hzero⟩

/-- A loop that writes no empty slot has never been astray. -/
theorem not_astray {fuel : Nat} {as as' : List (Buffered × Nat)} {s s' : Logged} {w : LogWalk}
    (h : OxyC.Foundation.saturate releaseLogged fuel as s = some (as', s'))
    (hlog : ∀ e ∈ s'.log, e.1.seq ≠ 0) (hw : ReflTransGen (Visit releaseLogged) (.start as s) w) :
    ¬ Astray w := by
  intro hastray
  obtain ⟨last, rfl, rfl, hlast⟩ :=
    saturate_of_visited (fun _ _ h hstep => Astray.step h hstep) hw hastray h
  rcases hlast with ⟨e, he, hempty⟩ | ⟨hzero, b, hb, hempty⟩
  · exact hlog e he hempty
  · have hnone := (saturate_visits h).2 b hb
    exact releaseLogged_eq_none hnone (hempty.trans hzero.symm)

theorem exists_plain {fuel : Nat} {as as' : List (Buffered × Nat)} {s s' : Logged}
    (h : OxyC.Foundation.saturate releaseLogged fuel as s = some (as', s'))
    (hlog : ∀ e ∈ s'.log, e.1.seq ≠ 0) {v : Walk UInt32 Buffered}
    (hv : ReflTransGen (Visit continueAt) (plain (.start as s)) v) :
    ∃ w, ReflTransGen (Visit releaseLogged) (.start as s) w ∧ plain w = v := by
  induction hv with
  | refl => exact ⟨_, .refl, rfl⟩
  | tail _ hstep ih =>
      obtain ⟨w, hw, hplain⟩ := ih
      have hoff : Off w := by
        intro hzero b hb hempty
        exact not_astray h hlog hw (.inr ⟨hzero, b, hb, hempty⟩)
      obtain ⟨w', hw'⟩ := w.exists_visit releaseLogged
      have hsame := (hoff.plain_visit hw').unique (hplain ▸ hstep)
      exact ⟨w', hw.tail hw', hsame⟩

end Logged

open Logged

theorem plain_start (bufs : List Buffered) (x : UInt32) :
    plain (.start bufs.zipIdx ⟨x, []⟩) = .start bufs x := by
  simp [plain, Walk.start]

theorem keepsOffZero_of_drainsWell {r : Reassembly} (h : DrainsWell r) :
    KeepsOffZero r.bufs r.expected := by
  obtain ⟨fuel, bufs, w, hloop, -, hlog⟩ := h
  intro v hv hzero b hb hempty
  rw [← plain_start] at hv
  obtain ⟨u, hu, rfl⟩ := exists_plain hloop hlog hv
  have hmem : b ∈ u.table.map Prod.fst := by simpa [plain, Walk.table] using hb
  obtain ⟨e, he, rfl⟩ := List.mem_map.mp hmem
  exact not_astray hloop hlog hu (.inr ⟨hzero, e, he, hempty⟩)

theorem drainsWell_of_keepsOffZero {r : Reassembly} (h : KeepsOffZero r.bufs r.expected) :
    DrainsWell r := by
  have hsafe : Safe (.start r.bufs.zipIdx ⟨r.expected, []⟩) := by
    intro v hv
    rw [plain_start] at hv
    exact h v hv
  have hrecords : Logged.Records (.start r.bufs.zipIdx ⟨r.expected, []⟩) :=
    ⟨by simp [Walk.start, Walk.table, List.nodup_range'], by simp [Walk.start],
      by simp [Walk.start], by simp [Walk.start]⟩
  obtain ⟨⟨bufs, w⟩, hloop⟩ := hsafe.saturate (Nat.lt_succ_self _)
  obtain ⟨last, -, hstate, -, hlast⟩ := saturate_of_visited
    (P := fun w => Safe w ∧ Logged.Records w)
    (fun _ _ h hstep => ⟨h.1.step hstep, h.2.step h.1 hstep⟩) .refl ⟨hsafe, hrecords⟩ hloop
  refine ⟨_, bufs, w, hloop, ?_, ?_⟩
  · rw [← hstate]
    exact hlast.nodup
  · rw [← hstate]
    exact hlast.occupied

/-- Whatever the slots hold, the loop behind an in-order packet is as it should be exactly if the
segments that continue the packet do not end at sequence number 0. -/
theorem drainsWell_iff (r : Reassembly) (payload : List UInt8) :
    DrainsWell (r.write payload) ↔
      KeepsOffZero r.bufs (r.expected + UInt32.ofNat payload.length) :=
  ⟨keepsOffZero_of_drainsWell, drainsWell_of_keepsOffZero (r := r.write payload)⟩

/-- The stream reaches 2 ^ 32 with its first byte: the loop never ends. -/
theorem drain_at_zero :
    ¬ ∀ (r : Reassembly) (payload : List UInt8), payload.length ≤ shamMtu →
        DrainsWell (r.write payload) := by
  intro hall
  have hkeeps := keepsOffZero_of_drainsWell (hall (.start 4294967295) [7] (by decide))
  refine hkeeps _ .refl (by decide) Buffered.zeroed ?_ rfl
  rw [Walk.start, Walk.table, List.nil_append]
  exact List.mem_replicate.mpr ⟨by decide, rfl⟩

end OxyC.Networking
