import Mathlib.Data.List.Basic

/-!
# Entries and what stands before them

`EachAfter R xs` relates every entry of a list to the list of the entries before
it.
-/

namespace OxyC.Foundation

variable {α : Type*} {R S : List α → α → Prop} {xs ys : List α}

def EachAfter (R : List α → α → Prop) (xs : List α) : Prop :=
  ∀ before x after, xs = before ++ x :: after → R before x

namespace EachAfter

theorem nil : EachAfter R [] := by
  rintro before x after h
  simp at h

theorem append (hxs : EachAfter R xs) (hys : EachAfter (fun before y => R (xs ++ before) y) ys) :
    EachAfter R (xs ++ ys) := by
  intro before x after h
  rcases List.append_eq_append_iff.mp h with ⟨rest, rfl, hrest⟩ | ⟨rest, hbefore, hrest⟩
  · exact hys rest x after hrest
  · cases rest with
    | nil =>
        obtain rfl : xs = before := by simpa using hbefore
        have hx : R (xs ++ []) x := hys [] x after hrest.symm
        rwa [List.append_nil] at hx
    | cons y rest =>
        obtain ⟨rfl, -⟩ := List.cons.inj hrest
        exact hxs before x rest hbefore

theorem of_forall (h : ∀ before, ∀ x ∈ xs, R before x) : EachAfter R xs := by
  rintro before x after rfl
  exact h before x (by simp)

theorem mono (h : EachAfter R xs) (himp : ∀ before x, R before x → S before x) :
    EachAfter S xs := fun before x after heq => himp before x (h before x after heq)

theorem exists_of_mem (h : EachAfter R xs) {x : α} (hx : x ∈ xs) :
    ∃ before, R before x ∧ before ⊆ xs := by
  obtain ⟨before, after, rfl⟩ := List.append_of_mem hx
  exact ⟨before, h before x after rfl, List.subset_append_left before (x :: after)⟩

end EachAfter

end OxyC.Foundation
