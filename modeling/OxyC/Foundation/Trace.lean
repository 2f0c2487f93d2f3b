import OxyC.Foundation.Mealy

/-!
# Traces

A trace lists what the steps of a run do.  Where each step is told by its part of
the trace, the run is told by the whole: whether it goes through, and a value of
the state that the last entry decides.
-/

namespace OxyC.Foundation

variable {ι ω σ τ ν : Type*}

/--
A step from a state in `J` goes through exactly if every entry of its trace is `good`.  It
stays in `J`, and `value` is what the last entry shows, or stays what it was.
-/
structure Traced (J : σ → Prop) (good : τ → Prop) (value : σ → ν) (shown : τ → ν)
    (step : σ → Option (σ × List ω)) (trace : σ → List τ) : Prop where
  isSome_iff : ∀ s, J s → ((step s).isSome ↔ ∀ x ∈ trace s, good x)
  keeps : ∀ s s' out, J s → step s = some (s', out) → J s'
  value_eq : ∀ s s' out, J s → step s = some (s', out) →
    value s' = ((trace s).getLast?.map shown).getD (value s)

namespace Traced

variable {J : σ → Prop} {good : τ → Prop} {value : σ → ν} {shown : τ → ν}
  {step step' : σ → Option (σ × List ω)} {trace trace' : σ → List τ}

theorem getLast?_append (l l' : List τ) (v : ν) :
    ((l ++ l').getLast?.map shown).getD v =
      (l'.getLast?.map shown).getD ((l.getLast?.map shown).getD v) := by
  rw [List.getLast?_append]
  cases l'.getLast? <;> rfl

/-- A step that always goes through, keeps `J` and does not touch the value. -/
theorem quiet (hstep : ∀ s, J s → ∃ s' out, step s = some (s', out) ∧ J s' ∧ value s' = value s) :
    Traced J good value shown step fun _ => [] where
  isSome_iff s hs := by
    obtain ⟨s', out, h, -⟩ := hstep s hs
    simp [h]
  keeps s s' out hs h := by
    obtain ⟨t, out', ht, hJ, -⟩ := hstep s hs
    rw [h] at ht
    cases ht
    exact hJ
  value_eq s s' out hs h := by
    obtain ⟨t, out', ht, -, hvalue⟩ := hstep s hs
    rw [h] at ht
    cases ht
    exact hvalue

/-- A step from a state that is prepared first. -/
theorem before {prepare : σ → σ} (h : Traced J good value shown step trace)
    (hJ : ∀ s, J s → J (prepare s)) (hvalue : ∀ s, value (prepare s) = value s) :
    Traced J good value shown (fun s => step (prepare s)) fun s => trace (prepare s) where
  isSome_iff s hs := h.isSome_iff _ (hJ s hs)
  keeps s s' out hs hstep := h.keeps _ s' out (hJ s hs) hstep
  value_eq s s' out hs hstep := by
    rw [h.value_eq _ s' out (hJ s hs) hstep, hvalue]

/-- A step behind which the entry `x` is made in any case. -/
theorem after {finish : σ → σ} {x : τ} (h : Traced J good value shown step trace)
    (hgood : good x) (hJ : ∀ s, J s → J (finish s))
    (hvalue : ∀ s, J s → value (finish s) = shown x) :
    Traced J good value shown (fun s => (step s).map fun y => (finish y.1, y.2))
      fun s => trace s ++ [x] where
  isSome_iff s hs := by
    rw [Option.isSome_map, h.isSome_iff s hs]
    simp only [List.forall_mem_append, List.forall_mem_singleton, hgood, and_true]
  keeps s s' out hs hstep := by
    obtain ⟨y, hy, heq⟩ := Option.map_eq_some_iff.mp hstep
    cases heq
    exact hJ y.1 (h.keeps s y.1 y.2 hs hy)
  value_eq s s' out hs hstep := by
    obtain ⟨y, hy, heq⟩ := Option.map_eq_some_iff.mp hstep
    cases heq
    rw [hvalue y.1 (h.keeps s y.1 y.2 hs hy), List.getLast?_concat]
    rfl

theorem bind (h : Traced J good value shown step trace)
    (h' : Traced J good value shown step' trace') :
    Traced J good value shown
      (fun s => (step s).bind fun x => (step' x.1).map fun y => (y.1, x.2 ++ y.2))
      (fun s => trace s ++ (step s).elim [] fun x => trace' x.1) where
  isSome_iff s hs := by
    have hfirst := h.isSome_iff s hs
    cases hstep : step s with
    | none =>
        rw [hstep] at hfirst
        simpa using hfirst
    | some x =>
        rw [hstep] at hfirst
        have hsecond := h'.isSome_iff x.1 (h.keeps s x.1 x.2 hs hstep)
        simp only [Option.bind_some, Option.isSome_map, hsecond, Option.elim_some,
          List.forall_mem_append]
        exact ⟨fun hgood => ⟨hfirst.mp rfl, hgood⟩, fun hgood => hgood.2⟩
  keeps s s' out hs hboth := by
    obtain ⟨x, hx, hrest⟩ := Option.bind_eq_some_iff.mp hboth
    obtain ⟨y, hy, heq⟩ := Option.map_eq_some_iff.mp hrest
    cases heq
    exact h'.keeps x.1 y.1 y.2 (h.keeps s x.1 x.2 hs hx) hy
  value_eq s s' out hs hboth := by
    obtain ⟨x, hx, hrest⟩ := Option.bind_eq_some_iff.mp hboth
    obtain ⟨y, hy, heq⟩ := Option.map_eq_some_iff.mp hrest
    cases heq
    rw [h'.value_eq x.1 y.1 y.2 (h.keeps s x.1 x.2 hs hx) hy, h.value_eq s x.1 x.2 hs hx,
      hx, Option.elim_some, getLast?_append]

end Traced

namespace Mealy

variable (M : Mealy ι ω σ)

/-- The trace of a run, which ends with the step that does not go through. -/
def trace (f : ι → σ → List τ) : List ι → σ → List τ
  | [], _ => []
  | i :: is, s => f i s ++ (M.step i s).elim [] fun x => trace f is x.1

theorem traced_run {J : σ → Prop} {good : τ → Prop} {value : σ → ν} {shown : τ → ν}
    {f : ι → σ → List τ} (h : ∀ i, Traced J good value shown (M.step i) (f i)) (is : List ι) :
    Traced J good value shown (M.run is) (M.trace f is) := by
  induction is with
  | nil => exact .quiet fun s hs => ⟨s, [], rfl, hs, rfl⟩
  | cons i is ih =>
      have hrun : M.run (i :: is) =
          fun s => (M.step i s).bind fun x => (M.run is x.1).map fun y => (y.1, x.2 ++ y.2) := by
        funext s
        simp only [run, Option.bind_eq_bind, Option.pure_def, Option.map_eq_bind]
        rfl
      rw [hrun]
      exact (h i).bind ih

end Mealy

end OxyC.Foundation
