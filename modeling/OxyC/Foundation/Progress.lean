import OxyC.Foundation.Mealy

/-!
# Progress of partial Mealy machines

A state is stuck where no input is enabled.  Where every step of some inputs
lowers a measure, a run of these inputs leads to a state that enables none of
them.
-/

namespace OxyC.Foundation.Mealy

variable {ι ω σ : Type*} (M : Mealy ι ω σ)

def Stuck (s : σ) : Prop := ∀ i, M.step i s = none

def Reaches (s t : σ) : Prop := ∃ is outs, M.run is s = some (t, outs)

theorem Reaches.refl (s : σ) : M.Reaches s s := ⟨[], [], rfl⟩

variable {M}

theorem Reaches.trans {s t u : σ} (h : M.Reaches s t) (h' : M.Reaches t u) : M.Reaches s u := by
  obtain ⟨is, outs, hrun⟩ := h
  obtain ⟨js, outs', hrun'⟩ := h'
  exact ⟨is ++ js, outs ++ outs', M.run_append.mpr ⟨t, outs, outs', hrun, hrun', rfl⟩⟩

theorem Reaches.invariant {P : σ → Prop} {s t : σ} (h : M.Reaches s t)
    (hstep : ∀ i s s' out, P s → M.step i s = some (s', out) → P s') (hs : P s) : P t := by
  obtain ⟨is, outs, hrun⟩ := h
  exact M.run_invariant hstep hs hrun

theorem Reaches.of_step {i : ι} {s t : σ} {out : List ω} (h : M.step i s = some (t, out)) :
    M.Reaches s t :=
  ⟨[i], out, M.run_cons_eq_some.mpr ⟨t, out, [], h, rfl, by simp⟩⟩

theorem exists_reaches_rest {I : ι → Prop} {P : σ → Prop} (μ : σ → Nat)
    (hstep : ∀ i s s' out, I i → P s → M.step i s = some (s', out) → P s' ∧ μ s' < μ s)
    {s : σ} (hs : P s) : ∃ t, M.Reaches s t ∧ P t ∧ ∀ i, I i → M.step i t = none := by
  induction hn : μ s using Nat.strongRecOn generalizing s with
  | ind n ih =>
      by_cases hrest : ∀ i, I i → M.step i s = none
      · exact ⟨s, .refl M s, hs, hrest⟩
      · push Not at hrest
        obtain ⟨i, hi, hmoves⟩ := hrest
        obtain ⟨⟨s', out⟩, hmove⟩ := Option.ne_none_iff_exists'.mp hmoves
        obtain ⟨hs', hlt⟩ := hstep i s s' out hi hs hmove
        obtain ⟨t, hreach, ht⟩ := ih (μ s') (hn ▸ hlt) hs' rfl
        exact ⟨t, (Reaches.of_step hmove).trans hreach, ht⟩

end OxyC.Foundation.Mealy
