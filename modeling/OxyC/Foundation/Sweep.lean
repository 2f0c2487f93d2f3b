import Mathlib.Logic.Relation
import Mathlib.Data.Option.Basic
import Mathlib.Data.List.Basic

/-!
# Repeated sweeps over a table

`fire` looks at one entry and, when the entry is enabled, changes the shared
state and the entry.  A sweep visits the entries of a table in index order; the
sweeps are repeated until one of them changes nothing.  The rules below reduce
every fact about this nested loop to a fact about one firing.
-/

namespace OxyC.Foundation

open Relation

variable {σ α : Type*} (fire : σ → α → Option (σ × α))

/-- One pass over the table; the last component tells whether an entry fired. -/
def sweep : List α → σ → List α × σ × Bool
  | [], s => ([], s, false)
  | a :: as, s =>
      match fire s a with
      | some (s', a') => (a' :: (sweep as s').1, (sweep as s').2.1, true)
      | none => (a :: (sweep as s).1, (sweep as s).2.1, (sweep as s).2.2)

/-- Sweeps until nothing changes; `none` when `fuel` sweeps do not get there. -/
def saturate : Nat → List α → σ → Option (List α × σ)
  | 0, _, _ => none
  | fuel + 1, as, s =>
      if (sweep fire as s).2.2 then saturate fuel (sweep fire as s).1 (sweep fire as s).2.1
      else some ((sweep fire as s).1, (sweep fire as s).2.1)

inductive Fires : List α × σ → List α × σ → Prop where
  | at (before after : List α) {a a' : α} {s s' : σ} (h : fire s a = some (s', a')) :
      Fires (before ++ a :: after, s) (before ++ a' :: after, s')

variable {fire}

theorem Fires.cons (a : α) {x y : List α × σ} (h : Fires fire x y) :
    Fires fire (a :: x.1, x.2) (a :: y.1, y.2) := by
  cases h with
  | «at» before after h => exact .at (a :: before) after h

theorem Fires.length_eq {x y : List α × σ} (h : Fires fire x y) :
    y.1.length = x.1.length := by
  cases h with
  | «at» before after h => simp

private theorem fires_cons_of_fires (a : α) {x y : List α × σ}
    (h : ReflTransGen (Fires fire) x y) :
    ReflTransGen (Fires fire) (a :: x.1, x.2) (a :: y.1, y.2) := by
  induction h with
  | refl => exact .refl
  | tail _ hstep ih => exact ih.tail (hstep.cons a)

theorem sweep_fires (as : List α) (s : σ) :
    ReflTransGen (Fires fire) (as, s) ((sweep fire as s).1, (sweep fire as s).2.1) := by
  induction as generalizing s with
  | nil => exact .refl
  | cons a as ih =>
      cases h : fire s a with
      | none => simpa [sweep, h] using fires_cons_of_fires a (ih s)
      | some next =>
          have first : Fires fire (a :: as, s) (next.2 :: as, next.1) := .at [] as h
          simpa [sweep, h] using
            (ReflTransGen.single first).trans (fires_cons_of_fires next.2 (ih next.1))

theorem sweep_unchanged {as : List α} {s : σ} (h : (sweep fire as s).2.2 = false) :
    (sweep fire as s).1 = as ∧ (sweep fire as s).2.1 = s ∧ ∀ a ∈ as, fire s a = none := by
  induction as with
  | nil => simp [sweep]
  | cons a as ih =>
      cases hfire : fire s a with
      | some next => simp [sweep, hfire] at h
      | none =>
          simp only [sweep, hfire] at h ⊢
          obtain ⟨htable, hstate, hnone⟩ := ih h
          refine ⟨by rw [htable], hstate, ?_⟩
          intro b hb
          rcases List.mem_cons.mp hb with rfl | hb
          · exact hfire
          · exact hnone b hb

theorem sweep_changed {as : List α} {s : σ} (h : (sweep fire as s).2.2 = true) :
    TransGen (Fires fire) (as, s) ((sweep fire as s).1, (sweep fire as s).2.1) := by
  induction as with
  | nil => simp [sweep] at h
  | cons a as ih =>
      cases hfire : fire s a with
      | some next =>
          have first : Fires fire (a :: as, s) (next.2 :: as, next.1) := .at [] as hfire
          simpa [sweep, hfire] using
            TransGen.head' first (fires_cons_of_fires next.2 (sweep_fires as next.1))
      | none =>
          simp only [sweep, hfire] at h ⊢
          obtain ⟨y, hy, hrest⟩ := TransGen.head'_iff.mp (ih h)
          exact TransGen.head' (hy.cons a) (fires_cons_of_fires a hrest)

/-- The loop as a whole: a sequence of firings that ends with every entry disabled. -/
theorem saturate_fires {fuel : Nat} {as as' : List α} {s s' : σ}
    (h : saturate fire fuel as s = some (as', s')) :
    ReflTransGen (Fires fire) (as, s) (as', s') ∧ ∀ a ∈ as', fire s' a = none := by
  induction fuel generalizing as s with
  | zero => simp [saturate] at h
  | succ fuel ih =>
      simp only [saturate] at h
      split at h
      · obtain ⟨hfires, hnone⟩ := ih h
        exact ⟨(sweep_fires as s).trans hfires, hnone⟩
      · rename_i hchanged
        obtain ⟨htable, hstate, hnone⟩ := sweep_unchanged (Bool.eq_false_iff.mpr hchanged)
        simp only [htable, hstate, Option.some.injEq, Prod.mk.injEq] at h
        obtain ⟨rfl, rfl⟩ := h
        exact ⟨.refl, hnone⟩

theorem saturate_invariant {P : List α × σ → Prop}
    (hfire : ∀ x y, P x → Fires fire x y → P y)
    {fuel : Nat} {as as' : List α} {s s' : σ} (hs : P (as, s))
    (h : saturate fire fuel as s = some (as', s')) : P (as', s') := by
  have keep : ∀ y, ReflTransGen (Fires fire) (as, s) y → P y := by
    intro y hy
    induction hy with
    | refl => exact hs
    | tail _ hstep ih => exact hfire _ _ ih hstep
  exact keep _ (saturate_fires h).1

theorem saturate_length {fuel : Nat} {as as' : List α} {s s' : σ}
    (h : saturate fire fuel as s = some (as', s')) : as'.length = as.length :=
  saturate_invariant (P := fun x => x.1.length = as.length)
    (fun _ _ hx hstep => hstep.length_eq.trans hx) rfl h

/-- Termination: the loop ends when a measure bounded by the fuel drops at every firing. -/
theorem saturate_isSome {P : List α × σ → Prop} {μ : List α × σ → Nat}
    (hfire : ∀ x y, P x → Fires fire x y → P y ∧ μ y < μ x)
    {fuel : Nat} {as : List α} {s : σ} (hs : P (as, s)) (hfuel : μ (as, s) < fuel) :
    ∃ result, saturate fire fuel as s = some result := by
  induction fuel generalizing as s with
  | zero => omega
  | succ fuel ih =>
      simp only [saturate]
      split
      · rename_i hchanged
        have drop : ∀ {x y}, P x → TransGen (Fires fire) x y → P y ∧ μ y < μ x := by
          intro x y hx hxy
          induction hxy with
          | single hstep => exact hfire _ _ hx hstep
          | tail _ hstep ih =>
              obtain ⟨hP, hlt⟩ := hfire _ _ ih.1 hstep
              exact ⟨hP, Nat.lt_trans hlt ih.2⟩
        obtain ⟨hP, hlt⟩ := drop hs (sweep_changed hchanged)
        exact ih hP (by omega)
      · exact ⟨_, rfl⟩

section Lockstep

variable {τ β : Type*} {fire' : τ → β → Option (τ × β)} {S : σ → τ → Prop} {E : α → β → Prop}

private theorem sweep_lockstep
    (hfire : ∀ s t a b, S s t → E a b →
      Option.Rel (fun x y => S x.1 y.1 ∧ E x.2 y.2) (fire s a) (fire' t b))
    {as : List α} {bs : List β} {s : σ} {t : τ} (htable : List.Forall₂ E as bs) (hstate : S s t) :
    List.Forall₂ E (sweep fire as s).1 (sweep fire' bs t).1 ∧
      S (sweep fire as s).2.1 (sweep fire' bs t).2.1 ∧
      (sweep fire as s).2.2 = (sweep fire' bs t).2.2 := by
  induction htable generalizing s t with
  | nil => exact ⟨.nil, hstate, rfl⟩
  | @cons a b as bs hab _ ih =>
      have first := hfire s t a b hstate hab
      cases hs : fire s a <;> cases ht : fire' t b <;> rw [hs, ht] at first <;>
        cases first
      · obtain ⟨htable, hstate, hchanged⟩ := ih hstate
        simpa [sweep, hs, ht] using ⟨⟨hab, htable⟩, hstate, hchanged⟩
      · rename_i hnext
        obtain ⟨htable, hstate, -⟩ := ih hnext.1
        simpa [sweep, hs, ht] using ⟨⟨hnext.2, htable⟩, hstate⟩

theorem saturate_lockstep
    (hfire : ∀ s t a b, S s t → E a b →
      Option.Rel (fun x y => S x.1 y.1 ∧ E x.2 y.2) (fire s a) (fire' t b))
    (fuel : Nat) {as : List α} {bs : List β} {s : σ} {t : τ}
    (htable : List.Forall₂ E as bs) (hstate : S s t) :
    Option.Rel (fun x y => List.Forall₂ E x.1 y.1 ∧ S x.2 y.2)
      (saturate fire fuel as s) (saturate fire' fuel bs t) := by
  induction fuel generalizing as bs s t with
  | zero => exact .none
  | succ fuel ih =>
      obtain ⟨htable', hstate', hchanged⟩ := sweep_lockstep hfire htable hstate
      simp only [saturate, hchanged]
      split
      · exact ih htable' hstate'
      · exact .some ⟨htable', hstate'⟩

end Lockstep

end OxyC.Foundation
