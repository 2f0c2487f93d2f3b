import Mathlib.Logic.Function.Basic

/-!
# Who holds a lock

Parties with local states share one lock.  A predicate on the local states says
where a party believes that it holds the lock.  The rules below say which moves
keep the belief and the recorded holder together.
-/

namespace OxyC.Foundation

variable {τ ℓ : Type*}

/-- The party that is recorded as the holder is the one whose local state says so. -/
def Tracked (owns : τ → ℓ → Prop) (loc : τ → Option ℓ) (holder : Option τ) : Prop :=
  ∀ t l, loc t = some l → (holder = some t ↔ owns t l)

namespace Tracked

variable {owns : τ → ℓ → Prop} {loc : τ → Option ℓ} {holder : Option τ} {t u : τ} {l l' : ℓ}

theorem holder_iff (h : Tracked owns loc holder) (hl : loc t = some l) :
    holder = some t ↔ owns t l :=
  h t l hl

theorem exclusive (h : Tracked owns loc holder) (hl : loc t = some l) (hl' : loc u = some l')
    (howns : owns t l) (howns' : owns u l') : t = u := by
  have ht := (h.holder_iff hl).mpr howns
  have hu := (h.holder_iff hl').mpr howns'
  exact Option.some.inj (ht.symm.trans hu)

/-- A party changes its local state in agreement with the new holder; nobody else is affected. -/
theorem move [DecidableEq τ] {holder' : Option τ} (h : Tracked owns loc holder)
    (hself : holder' = some t ↔ owns t l')
    (hother : ∀ u, u ≠ t → (holder' = some u ↔ holder = some u)) :
    Tracked owns (Function.update loc t (some l')) holder' := by
  intro u m hm
  by_cases hu : u = t
  · subst hu
    rw [Function.update_self] at hm
    cases hm
    exact hself
  · rw [Function.update_of_ne hu] at hm
    exact (hother u hu).trans (h u m hm)

section Moves

variable [DecidableEq τ]

theorem acquire (h : Tracked owns loc none) (howns : owns t l') :
    Tracked owns (Function.update loc t (some l')) (some t) := by
  refine h.move (by simp [howns]) fun u hu => ?_
  simp [Ne.symm hu]

theorem release (h : Tracked owns loc (some t)) (hnot : ¬ owns t l') :
    Tracked owns (Function.update loc t (some l')) none := by
  refine h.move (by simp [hnot]) fun u hu => ?_
  simp [Ne.symm hu]

theorem keep (h : Tracked owns loc holder) (hl : loc t = some l)
    (howns : owns t l' ↔ owns t l) : Tracked owns (Function.update loc t (some l')) holder :=
  h.move ((h.holder_iff hl).trans howns.symm) fun _ _ => Iff.rfl

end Moves

/-- All the local states change, and none of them in what it says about the lock. -/
theorem map (h : Tracked owns loc holder) {f : ℓ → ℓ} (hf : ∀ t l, owns t (f l) ↔ owns t l) :
    Tracked owns (fun t => (loc t).map f) holder := by
  intro t l hl
  obtain ⟨m, hm, rfl⟩ := Option.map_eq_some_iff.mp hl
  exact (h t m hm).trans (hf t m).symm

end Tracked

end OxyC.Foundation
