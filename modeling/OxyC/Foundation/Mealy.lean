import Mathlib.Data.List.Induction
import Mathlib.Data.Option.Basic

/-!
# Partial Mealy machines

A machine reads one input at a time, moves to a new state and emits a list of
outputs.  `none` stands for an input that is not enabled or a computation that
does not return.  Runs are finite; the rules below are the induction principles
that every result about all runs goes through.
-/

namespace OxyC.Foundation

section Lockstep

variable {α β γ δ : Type*} {R : α → β → Prop} {S : γ → δ → Prop} {x : Option α} {y : Option β}

theorem rel_map {f : α → γ} {g : β → δ} (h : Option.Rel R x y)
    (hfg : ∀ a b, R a b → S (f a) (g b)) : Option.Rel S (x.map f) (y.map g) := by
  cases h with
  | none => exact .none
  | some hab => exact .some (hfg _ _ hab)

theorem rel_map_iff {f : α → γ} {g : β → δ} :
    Option.Rel S (x.map f) (y.map g) ↔ Option.Rel (fun a b => S (f a) (g b)) x y := by
  refine ⟨fun h => ?_, fun h => rel_map h fun _ _ hab => hab⟩
  cases x with
  | none =>
      cases y with
      | none => exact .none
      | some b => cases h
  | some a =>
      cases y with
      | none => cases h
      | some b =>
          cases h with
          | some hab => exact .some hab

theorem rel_bind {f : α → Option γ} {g : β → Option δ} (h : Option.Rel R x y)
    (hfg : ∀ a b, x = some a → R a b → Option.Rel S (f a) (g b)) :
    Option.Rel S (x.bind f) (y.bind g) := by
  cases h with
  | none => exact .none
  | some hab => exact hfg _ _ rfl hab

end Lockstep

structure Mealy (ι ω σ : Type*) where
  step : ι → σ → Option (σ × List ω)

namespace Mealy

variable {ι ω σ ω' σ' : Type*} (M : Mealy ι ω σ)

def run : List ι → σ → Option (σ × List ω)
  | [], s => some (s, [])
  | i :: is, s => do
      let (s', out) ← M.step i s
      let (s'', outs) ← run is s'
      pure (s'', out ++ outs)

/-- Every step of the run satisfies `guard`, a predicate on a state and the input read there. -/
def Guarded (guard : σ → ι → Prop) : List ι → σ → Prop
  | [], _ => True
  | i :: is, s => guard s i ∧ ∀ s' out, M.step i s = some (s', out) → Guarded guard is s'

def Always (P : σ → Prop) : List ι → σ → Prop
  | [], s => P s
  | i :: is, s => P s ∧ ∀ s' out, M.step i s = some (s', out) → Always P is s'

instance decidableGuarded (guard : σ → ι → Prop) [∀ s i, Decidable (guard s i)] :
    (is : List ι) → (s : σ) → Decidable (M.Guarded guard is s)
  | [], _ => .isTrue trivial
  | i :: is, s =>
      match h : M.step i s with
      | none => decidable_of_iff (guard s i) (by simp [Guarded, h])
      | some (s', out) =>
          have := decidableGuarded guard is s'
          decidable_of_iff (guard s i ∧ M.Guarded guard is s') (by simp [Guarded, h])

@[simp] theorem run_nil (s : σ) : M.run [] s = some (s, []) := rfl

theorem run_cons_eq_some {i : ι} {is : List ι} {s t : σ} {outs : List ω} :
    M.run (i :: is) s = some (t, outs) ↔
      ∃ s' out rest, M.step i s = some (s', out) ∧
        M.run is s' = some (t, rest) ∧ outs = out ++ rest := by
  constructor
  · intro h
    simp only [run, Option.bind_eq_bind, Option.bind_eq_some_iff, Prod.exists,
      Option.pure_def, Option.some.injEq, Prod.mk.injEq] at h
    obtain ⟨s', out, hstep, t', rest, hrun, rfl, rfl⟩ := h
    exact ⟨s', out, rest, hstep, hrun, rfl⟩
  · rintro ⟨s', out, rest, hstep, hrun, rfl⟩
    simp [run, hstep, hrun]

theorem run_cons_of_step {i : ι} {s s' : σ} {out : List ω} (h : M.step i s = some (s', out))
    (is : List ι) : M.run (i :: is) s = (M.run is s').map fun x => (x.1, out ++ x.2) := by
  simp only [run, h, Option.bind_eq_bind, Option.bind_some]
  cases M.run is s' <;> rfl

theorem run_singleton (i : ι) (s : σ) :
    M.run [i] s = (M.step i s).map fun x => (x.1, x.2 ++ []) := by
  simp only [run, Option.bind_eq_bind]
  cases M.step i s <;> rfl

theorem run_append {is js : List ι} {s t : σ} {outs : List ω} :
    M.run (is ++ js) s = some (t, outs) ↔
      ∃ s' out rest, M.run is s = some (s', out) ∧
        M.run js s' = some (t, rest) ∧ outs = out ++ rest := by
  induction is generalizing s outs with
  | nil => simp
  | cons i is ih =>
      simp only [List.cons_append, run_cons_eq_some, ih]
      constructor
      · rintro ⟨s', out, _, hstep, ⟨s'', out', rest, hrun, hrest, rfl⟩, rfl⟩
        exact ⟨s'', out ++ out', rest, ⟨s', out, out', hstep, hrun, rfl⟩, hrest, by simp⟩
      · rintro ⟨s'', _, rest, ⟨s', out, out', hstep, hrun, rfl⟩, hrest, rfl⟩
        exact ⟨s', out, out' ++ rest, hstep, ⟨s'', out', rest, hrun, hrest, rfl⟩, by simp⟩

theorem run_concat {is : List ι} {i : ι} {s t : σ} {outs : List ω} :
    M.run (is ++ [i]) s = some (t, outs) ↔
      ∃ s' out rest, M.run is s = some (s', out) ∧
        M.step i s' = some (t, rest) ∧ outs = out ++ rest := by
  simp [run_append, run_cons_eq_some]

theorem exists_run (is : List ι) (s : σ) (test : σ × List ω → Bool)
    (h : (M.run is s).any test = true) :
    ∃ t outs, M.run is s = some (t, outs) ∧ test (t, outs) = true := by
  cases hrun : M.run is s with
  | none => simp [hrun] at h
  | some result => exact ⟨result.1, result.2, rfl, by simpa [hrun] using h⟩

theorem run_invariant {P : σ → Prop}
    (hstep : ∀ i s s' out, P s → M.step i s = some (s', out) → P s')
    {is : List ι} {s t : σ} {outs : List ω} (hs : P s)
    (hrun : M.run is s = some (t, outs)) : P t := by
  induction is generalizing s outs with
  | nil => simp_all [run]
  | cons i is ih =>
      obtain ⟨s', out, rest, hi, hrest, -⟩ := M.run_cons_eq_some.mp hrun
      exact ih (hstep i s s' out hs hi) hrest

theorem run_invariant_of_guarded {P : σ → Prop} {guard : σ → ι → Prop}
    (hstep : ∀ i s s' out, P s → guard s i → M.step i s = some (s', out) → P s')
    {is : List ι} {s t : σ} {outs : List ω} (hs : P s)
    (hguard : M.Guarded guard is s) (hrun : M.run is s = some (t, outs)) : P t := by
  induction is generalizing s outs with
  | nil => simp_all [run]
  | cons i is ih =>
      obtain ⟨s', out, rest, hi, hrest, -⟩ := M.run_cons_eq_some.mp hrun
      exact ih (hstep i s s' out hs hguard.1 hi) (hguard.2 s' out hi) hrest

theorem always_of_guarded {J P : σ → Prop} {guard : σ → ι → Prop}
    (hstep : ∀ i s s' out, J s → guard s i → M.step i s = some (s', out) → J s')
    (hP : ∀ s, J s → P s) {is : List ι} {s : σ} (hs : J s) (hguard : M.Guarded guard is s) :
    M.Always P is s := by
  induction is generalizing s with
  | nil => exact hP s hs
  | cons i is ih =>
      refine ⟨hP s hs, fun s' out hi => ?_⟩
      exact ih (hstep i s s' out hs hguard.1 hi) (hguard.2 s' out hi)

theorem guarded_congr {guard guard' : σ → ι → Prop} (h : ∀ s i, guard s i ↔ guard' s i)
    (is : List ι) (s : σ) : M.Guarded guard is s ↔ M.Guarded guard' is s := by
  have heq : guard = guard' := by
    funext s i
    exact propext (h s i)
  rw [heq]

/-- Two guards that agree wherever the guarded steps lead. -/
theorem guarded_iff_guarded {J : σ → Prop} {guard guard' : σ → ι → Prop}
    (hstep : ∀ i s s' out, J s → guard' s i → M.step i s = some (s', out) → J s')
    (hiff : ∀ i s, J s → (guard s i ↔ guard' s i)) (is : List ι) {s : σ} (hs : J s) :
    M.Guarded guard is s ↔ M.Guarded guard' is s := by
  induction is generalizing s with
  | nil => exact Iff.rfl
  | cons i is ih =>
      simp only [Guarded, hiff i s hs]
      refine and_congr_right fun hguard => ?_
      constructor
      · intro h s' out hi
        exact (ih (hstep i s s' out hs hguard hi)).mp (h s' out hi)
      · intro h s' out hi
        exact (ih (hstep i s s' out hs hguard hi)).mpr (h s' out hi)

theorem Always.of_run {P : σ → Prop} {is : List ι} {s t : σ} {outs : List ω}
    (h : M.Always P is s) (hrun : M.run is s = some (t, outs)) : P t := by
  induction is generalizing s outs with
  | nil =>
      simp only [run_nil, Option.some.injEq, Prod.mk.injEq] at hrun
      exact hrun.1 ▸ h
  | cons i is ih =>
      obtain ⟨s', out, rest, hi, hrest, -⟩ := M.run_cons_eq_some.mp hrun
      exact ih (h.2 s' out hi) hrest

theorem Guarded.of_run {guard : σ → ι → Prop} {is : List ι} {i : ι} {s t : σ} {outs : List ω}
    (h : M.Guarded guard (is ++ [i]) s) (hrun : M.run is s = some (t, outs)) : guard t i := by
  induction is generalizing s outs with
  | nil =>
      simp only [run_nil, Option.some.injEq, Prod.mk.injEq] at hrun
      exact hrun.1 ▸ h.1
  | cons j is ih =>
      obtain ⟨s', out, rest, hj, hrest, -⟩ := M.run_cons_eq_some.mp hrun
      exact ih (h.2 s' out hj) hrest

theorem always_of_run {P : σ → Prop} {s : σ}
    (h : ∀ js t outs, M.run js s = some (t, outs) → P t) (is : List ι) : M.Always P is s := by
  induction is generalizing s with
  | nil => exact h [] s [] rfl
  | cons i is ih =>
      refine ⟨h [] s [] rfl, fun s' out hi => ih fun js t outs hrun => ?_⟩
      exact h (i :: js) t (out ++ outs) (M.run_cons_eq_some.mpr ⟨s', out, outs, hi, hrun, rfl⟩)

/-- A run whose last state fails a test that `P` passes. -/
theorem not_always {P : σ → Prop} (is : List ι) (s : σ) (test : σ → Bool)
    (hP : ∀ t, P t → test t = true) (h : (M.run is s).any (fun x => !test x.1) = true) :
    ¬ M.Always P is s := by
  intro halways
  obtain ⟨t, outs, hrun, hfails⟩ := M.exists_run is s (fun x => !test x.1) h
  simp [hP t (halways.of_run M hrun)] at hfails

theorem always_of_invariant {P : σ → Prop}
    (hstep : ∀ i s s' out, P s → M.step i s = some (s', out) → P s') (is : List ι) {s : σ}
    (hs : P s) : M.Always P is s := by
  induction is generalizing s with
  | nil => exact hs
  | cons i is ih => exact ⟨hs, fun s' out hi => ih (hstep i s s' out hs hi)⟩

/--
If `P` survives exactly the steps that satisfy the guard, the runs that stay in
`P` are the guarded ones.  `J` is an invariant of all runs over inputs in `I`.
-/
theorem always_iff_guarded {I : ι → Prop} {J P : σ → Prop} {guard : σ → ι → Prop}
    (hstep : ∀ i s, I i → J s → P s → (M.step i s = none ∧ guard s i) ∨
      ∃ s' out, M.step i s = some (s', out) ∧ J s' ∧ (P s' ↔ guard s i))
    {is : List ι} (his : ∀ i ∈ is, I i) {s : σ} (hJ : J s) (hP : P s) :
    M.Always P is s ↔ M.Guarded guard is s := by
  induction is generalizing s with
  | nil => simp [Always, Guarded, hP]
  | cons i is ih =>
      rcases hstep i s (his i (by simp)) hJ hP with ⟨hi, hguard⟩ | ⟨s', out, hi, hJ', hiff⟩
      · simp [Always, Guarded, hi, hP, hguard]
      have htail : ∀ j ∈ is, I j := fun j hj => his j (by simp [hj])
      simp only [Always, Guarded, hi, hP, true_and, Option.some.injEq, Prod.mk.injEq]
      have hhead : M.Always P is s' → P s' := by
        intro h
        cases is with
        | nil => exact h
        | cons j js => exact h.1
      constructor
      · intro h
        have hrest : M.Always P is s' := h s' out ⟨rfl, rfl⟩
        have hP' := hhead hrest
        refine ⟨hiff.mp hP', ?_⟩
        rintro t out' ⟨rfl, -⟩
        exact (ih htail hJ' hP').mp hrest
      · rintro ⟨hguard, h⟩ t out' ⟨rfl, -⟩
        exact (ih htail hJ' (hiff.mpr hguard)).mpr (h s' out ⟨rfl, rfl⟩)

/-- Every input is enabled where it is read, and `P` holds of every state of the run. -/
def Steadily (P : σ → Prop) : List ι → σ → Prop
  | [], s => P s
  | i :: is, s => P s ∧ ∃ s' out, M.step i s = some (s', out) ∧ Steadily P is s'

theorem Steadily.of_run {P : σ → Prop} {is : List ι} {s t : σ} {outs : List ω}
    (h : M.Steadily P is s) (hrun : M.run is s = some (t, outs)) : P t := by
  induction is generalizing s outs with
  | nil =>
      simp only [run_nil, Option.some.injEq, Prod.mk.injEq] at hrun
      exact hrun.1 ▸ h
  | cons i is ih =>
      obtain ⟨s', out, rest, hi, hrest, -⟩ := M.run_cons_eq_some.mp hrun
      obtain ⟨-, s'', out', hi', htail⟩ := h
      rw [hi] at hi'
      cases hi'
      exact ih htail hrest

/-- If exactly the guarded steps go through and keep `P`, so do exactly the guarded runs. -/
theorem steadily_iff_guarded {J P : σ → Prop} {guard : σ → ι → Prop}
    (hkeeps : ∀ i s s' out, J s → M.step i s = some (s', out) → J s')
    (hstep : ∀ i s, J s → P s →
      ((∃ s' out, M.step i s = some (s', out) ∧ P s') ↔ guard s i))
    (is : List ι) {s : σ} (hJ : J s) (hP : P s) :
    M.Steadily P is s ↔ M.Guarded guard is s := by
  induction is generalizing s with
  | nil => simp [Steadily, Guarded, hP]
  | cons i is ih =>
      simp only [Steadily, Guarded, hP, true_and, ← hstep i s hJ hP]
      constructor
      · rintro ⟨s', out, hi, htail⟩
        have hP' : P s' := by
          cases is with
          | nil => exact htail
          | cons j js => exact htail.1
        refine ⟨⟨s', out, hi, hP'⟩, fun t out' ht => ?_⟩
        rw [hi] at ht
        cases ht
        exact (ih (hkeeps i s s' out hJ hi) hP').mp htail
      · rintro ⟨⟨s', out, hi, hP'⟩, hguard⟩
        exact ⟨s', out, hi, (ih (hkeeps i s s' out hJ hi) hP').mpr (hguard s' out hi)⟩

/-- The condition on the steps that are taken. -/
def WhenTaken (guard : σ → ι → Prop) (s : σ) (i : ι) : Prop := (M.step i s).isSome → guard s i

theorem always_iff_guarded_taken {J P : σ → Prop} {guard : σ → ι → Prop}
    (hstep : ∀ i s s' out, J s → P s → M.step i s = some (s', out) →
      J s' ∧ (P s' ↔ guard s i))
    (is : List ι) {s : σ} (hJ : J s) (hP : P s) :
    M.Always P is s ↔ M.Guarded (M.WhenTaken guard) is s := by
  refine M.always_iff_guarded (I := fun _ => True) (J := J) ?_ (fun _ _ => trivial) hJ hP
  intro i s _ hJ hP
  cases hi : M.step i s with
  | none => exact .inl ⟨rfl, by simp [WhenTaken, hi]⟩
  | some x =>
      obtain ⟨hJ', hiff⟩ := hstep i s x.1 x.2 hJ hP hi
      exact .inr ⟨x.1, x.2, rfl, hJ', by simpa [WhenTaken, hi] using hiff⟩

/--
The rule for predicates of the inputs read so far, the outputs emitted so far
and the state.
-/
theorem run_invariant_history {P : List ι → List ω → σ → Prop} {s : σ} (hs : P [] [] s)
    (hstep : ∀ is i outs t t' out, M.run is s = some (t, outs) → P is outs t →
      M.step i t = some (t', out) → P (is ++ [i]) (outs ++ out) t')
    {is : List ι} {t : σ} {outs : List ω} (hrun : M.run is s = some (t, outs)) :
    P is outs t := by
  induction is using List.reverseRecOn generalizing t outs with
  | nil =>
      simp only [run_nil, Option.some.injEq, Prod.mk.injEq] at hrun
      obtain ⟨rfl, rfl⟩ := hrun
      exact hs
  | append_singleton is i ih =>
      obtain ⟨s', out, rest, hpre, hlast, rfl⟩ := M.run_concat.mp hrun
      exact hstep is i out s' t rest hpre (ih hpre) hlast

/--
Lockstep rule: two machines whose steps agree on enabledness and keep a
relation between their states do so along every common input sequence.
-/
theorem run_lockstep (N : Mealy ι ω' σ') {R : σ → σ' → Prop}
    (hstep : ∀ i s t, R s t →
      Option.Rel (fun x y => R x.1 y.1) (M.step i s) (N.step i t))
    (is : List ι) {s : σ} {t : σ'} (h : R s t) :
    Option.Rel (fun x y => R x.1 y.1) (M.run is s) (N.run is t) := by
  induction is generalizing s t with
  | nil => exact .some h
  | cons i is ih =>
      simp only [run, Option.bind_eq_bind]
      apply rel_bind (hstep i s t h)
      intro x y _ hxy
      apply rel_bind (ih hxy)
      intro x' y' _ hend
      exact .some hend

/-- The lockstep rule for machines that emit the same outputs, with an invariant of the second. -/
theorem run_refines (N : Mealy ι ω σ') {R : σ → σ' → Prop} {J : σ' → Prop}
    (hJ : ∀ i t t' out, J t → N.step i t = some (t', out) → J t')
    (hstep : ∀ i s t, J t → R s t →
      Option.Rel (fun x y => R x.1 y.1 ∧ x.2 = y.2) (M.step i s) (N.step i t))
    (is : List ι) {s : σ} {t : σ'} (ht : J t) (h : R s t) :
    Option.Rel (fun x y => R x.1 y.1 ∧ x.2 = y.2) (M.run is s) (N.run is t) := by
  induction is generalizing s t with
  | nil => exact .some ⟨h, rfl⟩
  | cons i is ih =>
      have first := hstep i s t ht h
      simp only [run, Option.bind_eq_bind]
      cases hN : N.step i t with
      | none =>
          rw [hN] at first
          generalize M.step i s = x at first ⊢
          cases first with
          | none => exact .none
      | some y =>
          rw [hN] at first
          generalize M.step i s = x at first ⊢
          cases first with
          | some hxy =>
              apply rel_bind (ih (hJ i t y.1 y.2 ht hN) hxy.1)
              intro x' y' _ hend
              exact .some ⟨hend.1, by simp only [hxy.2, hend.2]⟩

/--
Purge rule: inputs outside `kept`, whose steps stay in the relation and emit
nothing that is kept, may be left out of a guarded run.
-/
theorem run_purge {R : σ → σ → Prop} {guard : σ → ι → Prop} (kept : ι → Bool)
    (keptOut : ω → Bool)
    (hkept : ∀ i s t, kept i = true → guard s i → R s t →
      Option.Rel (fun x y => R x.1 y.1 ∧ x.2.filter keptOut = y.2) (M.step i s) (M.step i t))
    (hpurged : ∀ i s t, kept i = false → guard s i → R s t →
      ∃ s' out, M.step i s = some (s', out) ∧ R s' t ∧ out.filter keptOut = [])
    {is : List ι} {s t : σ} (h : R s t) (hguard : M.Guarded guard is s) :
    Option.Rel (fun x y => R x.1 y.1 ∧ x.2.filter keptOut = y.2)
      (M.run is s) (M.run (is.filter kept) t) := by
  induction is generalizing s t with
  | nil => exact .some ⟨h, rfl⟩
  | cons i is ih =>
      cases hi : kept i with
      | true =>
          rw [List.filter_cons_of_pos hi]
          simp only [run, Option.bind_eq_bind]
          apply rel_bind (hkept i s t hi hguard.1 h)
          rintro ⟨s', out⟩ ⟨t', out'⟩ hstep ⟨hR, hout⟩
          apply rel_bind (ih hR (hguard.2 s' out hstep))
          rintro ⟨s'', rest⟩ ⟨t'', rest'⟩ _ ⟨hend, hrest⟩
          refine .some ⟨hend, ?_⟩
          simp only at hout hrest ⊢
          rw [List.filter_append, hout, hrest]
      | false =>
          obtain ⟨s', out, hstep, hR, hout⟩ := hpurged i s t hi hguard.1 h
          rw [List.filter_cons_of_neg (by simp [hi])]
          simp only [run, hstep, Option.bind_eq_bind, Option.bind_some]
          have htail := ih hR (hguard.2 s' out hstep)
          generalize M.run is s' = x at htail ⊢
          generalize M.run (is.filter kept) t = y at htail ⊢
          cases htail with
          | none => exact .none
          | some hrest =>
              refine .some ⟨hrest.1, ?_⟩
              simp [hout, hrest.2]

/--
Refinement rule: a machine whose steps are those of another one, seen through a
map of the states and a map of the inputs, has the runs of that machine.
-/
theorem run_map {ι' : Type*} (N : Mealy ι' ω σ') {I : ι → Prop} (f : ι → ι') (g : σ → σ')
    (hstep : ∀ i s, I i →
      (M.step i s).map (fun x => (g x.1, x.2)) = N.step (f i) (g s))
    {is : List ι} (his : ∀ i ∈ is, I i) (s : σ) :
    (M.run is s).map (fun x => (g x.1, x.2)) = N.run (is.map f) (g s) := by
  induction is generalizing s with
  | nil => rfl
  | cons i is ih =>
      have first := hstep i s (his i (by simp))
      have htail : ∀ j ∈ is, I j := fun j hj => his j (by simp [hj])
      simp only [List.map_cons, run, ← first]
      cases M.step i s with
      | none => rfl
      | some next =>
          have rest := ih htail next.1
          simp only [Option.bind_eq_bind, Option.bind_some, Option.map_some, ← rest]
          cases M.run is next.1 <;> rfl

/-- The machine that reads its inputs through `f`. -/
def comap {ι' : Type*} (f : ι' → ι) : Mealy ι' ω σ := ⟨fun i => M.step (f i)⟩

theorem run_comap {ι' : Type*} (f : ι' → ι) (is : List ι') (s : σ) :
    (M.comap f).run is s = M.run (is.map f) s := by
  induction is generalizing s with
  | nil => rfl
  | cons i is ih =>
      have hrun : (M.comap f).run is = fun t => M.run (is.map f) t := funext ih
      simp only [run, hrun, List.map_cons]
      rfl

/--
Two machines are together behind every prefix of the inputs exactly if the guard
holds along the run of the first, where the guard tells for each step whether
they stay together.
-/
theorem prefixes_rel_iff_guarded (N : Mealy ι ω' σ') {R : σ → σ' → Prop} {guard : σ → ι → Prop}
    (hstep : ∀ i s t, R s t →
      (Option.Rel (fun x y => R x.1 y.1) (M.step i s) (N.step i t) ↔ guard s i))
    (is : List ι) {s : σ} {t : σ'} (h : R s t) :
    (∀ js, js <+: is → Option.Rel (fun x y => R x.1 y.1) (M.run js s) (N.run js t)) ↔
      M.Guarded guard is s := by
  induction is generalizing s t with
  | nil =>
      simp only [List.prefix_nil, forall_eq, Guarded, iff_true]
      exact .some h
  | cons i is ih =>
      rw [Guarded, ← hstep i s t h]
      constructor
      · intro hall
        have hfirst : Option.Rel (fun x y => R x.1 y.1) (M.step i s) (N.step i t) := by
          have hone := hall [i] (List.prefix_append [i] is)
          rwa [run_singleton, run_singleton, rel_map_iff] at hone
        refine ⟨hfirst, fun s' out hi => ?_⟩
        rw [hi] at hfirst
        cases hN : N.step i t with
        | none =>
            rw [hN] at hfirst
            cases hfirst
        | some y =>
            rw [hN] at hfirst
            cases hfirst with
            | some hrel =>
                refine (ih hrel).mp fun js hjs => ?_
                have hrun := hall (i :: js) (List.cons_prefix_cons.mpr ⟨rfl, hjs⟩)
                rwa [M.run_cons_of_step hi, N.run_cons_of_step hN, rel_map_iff] at hrun
      · rintro ⟨hfirst, hrest⟩ js hjs
        cases js with
        | nil => exact .some h
        | cons j js =>
            obtain ⟨rfl, hprefix⟩ := List.cons_prefix_cons.mp hjs
            simp only [run, Option.bind_eq_bind]
            apply rel_bind hfirst
            intro x y hx hrel
            apply rel_bind ((ih hrel).mpr (hrest x.1 x.2 hx) js hprefix)
            intro x' y' _ hend
            exact .some hend

end Mealy

end OxyC.Foundation
