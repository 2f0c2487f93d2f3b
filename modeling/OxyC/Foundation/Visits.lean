import OxyC.Foundation.Sweep

/-!
# A repeated sweep as a walk

Repeated sweeps visit the entries of a table one after the other and start again
behind the last one.  The walk itself never ends; the loop leaves it where no
entry is enabled.
-/

namespace OxyC.Foundation

open Relation

variable {σ α : Type*} {fire : σ → α → Option (σ × α)}

/-- The entries behind the walker, those before it, and the shared state. -/
structure Walk (σ α : Type*) where
  behind : List α
  ahead : List α
  state : σ

namespace Walk

def table (w : Walk σ α) : List α := w.behind ++ w.ahead

def start (as : List α) (s : σ) : Walk σ α := ⟨[], as, s⟩

end Walk

inductive Visit (fire : σ → α → Option (σ × α)) : Walk σ α → Walk σ α → Prop
  | skip (behind ahead : List α) {a : α} {s : σ} (h : fire s a = none) :
      Visit fire ⟨behind, a :: ahead, s⟩ ⟨behind ++ [a], ahead, s⟩
  | fire (behind ahead : List α) {a a' : α} {s s' : σ} (h : fire s a = some (s', a')) :
      Visit fire ⟨behind, a :: ahead, s⟩ ⟨behind ++ [a'], ahead, s'⟩
  | turn (as : List α) (s : σ) : Visit fire ⟨as, [], s⟩ ⟨[], as, s⟩

theorem Visit.unique {w w₁ w₂ : Walk σ α} (h₁ : Visit fire w w₁) (h₂ : Visit fire w w₂) :
    w₁ = w₂ := by
  cases h₁ with
  | skip behind ahead hnone =>
      cases h₂ with
      | skip => rfl
      | fire _ _ hsome =>
          rw [hnone] at hsome
          cases hsome
  | fire behind ahead hsome =>
      cases h₂ with
      | skip _ _ hnone =>
          rw [hnone] at hsome
          cases hsome
      | fire _ _ hsome' =>
          rw [hsome] at hsome'
          cases hsome'
          rfl
  | turn as s =>
      cases h₂ with
      | turn => rfl

theorem Walk.exists_visit (fire : σ → α → Option (σ × α)) (w : Walk σ α) :
    ∃ w', Visit fire w w' := by
  obtain ⟨behind, ahead, s⟩ := w
  cases ahead with
  | nil => exact ⟨_, .turn behind s⟩
  | cons a ahead =>
      cases h : fire s a with
      | none => exact ⟨_, .skip behind ahead h⟩
      | some next => exact ⟨_, .fire behind ahead h⟩

theorem sweep_visits (behind as : List α) (s : σ) :
    ReflTransGen (Visit fire) ⟨behind, as, s⟩
      ⟨behind ++ (sweep fire as s).1, [], (sweep fire as s).2.1⟩ := by
  induction as generalizing behind s with
  | nil => simpa [sweep] using ReflTransGen.refl
  | cons a as ih =>
      cases h : fire s a with
      | none =>
          have hrest := ih (behind ++ [a]) s
          rw [List.append_assoc, List.singleton_append] at hrest
          simpa [sweep, h] using ReflTransGen.head (.skip behind as h) hrest
      | some next =>
          have hrest := ih (behind ++ [next.2]) next.1
          rw [List.append_assoc, List.singleton_append] at hrest
          simpa [sweep, h] using ReflTransGen.head (.fire behind as h) hrest

/-- The loop is a walk to a state in which no entry is enabled. -/
theorem saturate_visits {fuel : Nat} {as as' : List α} {s s' : σ}
    (h : saturate fire fuel as s = some (as', s')) :
    ReflTransGen (Visit fire) (.start as s) (.start as' s') ∧ ∀ a ∈ as', fire s' a = none := by
  induction fuel generalizing as s with
  | zero => simp [saturate] at h
  | succ fuel ih =>
      have hsweep : ReflTransGen (Visit fire) (.start as s)
          (.start (sweep fire as s).1 (sweep fire as s).2.1) :=
        (sweep_visits [] as s).tail (.turn _ _)
      simp only [saturate] at h
      split at h
      · obtain ⟨hwalk, hnone⟩ := ih h
        exact ⟨hsweep.trans hwalk, hnone⟩
      · rename_i hchanged
        obtain ⟨htable, hstate, hnone⟩ := sweep_unchanged (Bool.eq_false_iff.mpr hchanged)
        simp only [htable, hstate, Option.some.injEq, Prod.mk.injEq] at h
        obtain ⟨rfl, rfl⟩ := h
        exact ⟨.refl, hnone⟩

/-- Where no entry is enabled the walk goes on without changing anything. -/
theorem visits_of_rest {w w' : Walk σ α} (h : ReflTransGen (Visit fire) w w')
    (hrest : ∀ a ∈ w.table, fire w.state a = none) :
    w'.table = w.table ∧ w'.state = w.state := by
  induction h with
  | refl => exact ⟨rfl, rfl⟩
  | tail _ hstep ih =>
      obtain ⟨htable, hstate⟩ := ih
      rw [← htable, ← hstate] at hrest
      cases hstep with
      | skip behind ahead hnone => exact ⟨by simpa [Walk.table] using htable, hstate⟩
      | fire behind ahead hsome =>
          rw [hrest _ (by simp [Walk.table])] at hsome
          cases hsome
      | turn as s => exact ⟨by simpa [Walk.table] using htable, hstate⟩

theorem keeps_of_visits {P : Walk σ α → Prop} (hP : ∀ w w', P w → Visit fire w w' → P w')
    {w w' : Walk σ α} (h : ReflTransGen (Visit fire) w w') (hw : P w) : P w' := by
  induction h with
  | refl => exact hw
  | tail _ hstep ih => exact hP _ _ ih hstep

/-- What the walk keeps once it has come to hold, holds at the end of the loop. -/
theorem saturate_of_visited {P : Walk σ α → Prop} (hP : ∀ w w', P w → Visit fire w w' → P w')
    {fuel : Nat} {as as' : List α} {s s' : σ} {w : Walk σ α}
    (hw : ReflTransGen (Visit fire) (.start as s) w) (hPw : P w)
    (h : saturate fire fuel as s = some (as', s')) :
    ∃ last : Walk σ α, last.table = as' ∧ last.state = s' ∧ P last := by
  obtain ⟨hend, hnone⟩ := saturate_visits h
  have hunique : Relator.RightUnique (Visit fire) := fun _ _ _ h₁ h₂ => h₁.unique h₂
  cases ReflTransGen.total_of_right_unique hunique hw hend with
  | inl hforward => exact ⟨_, rfl, rfl, keeps_of_visits hP hforward hPw⟩
  | inr hback =>
      obtain ⟨htable, hstate⟩ := visits_of_rest hback hnone
      exact ⟨w, htable, hstate, hPw⟩

end OxyC.Foundation
