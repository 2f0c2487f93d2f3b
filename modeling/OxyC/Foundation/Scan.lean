import Mathlib.Data.List.Infix
import Mathlib.Data.List.TakeWhile

/-!
# Scanning a list up to an element
-/

namespace OxyC.Foundation

variable {α : Type*} {q : α → Bool} {x : α}

/-- An element that stops the scan may be put behind the list. -/
theorem takeWhile_concat (hx : q x = false) (l : List α) :
    (l ++ [x]).takeWhile q = l.takeWhile q := by
  induction l with
  | nil => simp [hx]
  | cons a l ih => cases ha : q a <;> simp [ha, ih]

theorem dropWhile_concat (hx : q x = false) (l : List α) :
    (l ++ [x]).dropWhile q = l.dropWhile q ++ [x] := by
  induction l with
  | nil => simp [hx]
  | cons a l ih => cases ha : q a <;> simp [ha, ih]

/-! ## Infixes -/

section Infix

variable {w a b l : List α} {d : α}

theorem prefix_of_prefix_append_cons (h : w <+: a ++ d :: b) (hd : d ∉ w) : w <+: a := by
  cases Nat.lt_or_ge a.length w.length with
  | inl hlong =>
      have hlonger : a ++ [d] <+: w := by
        refine List.prefix_of_prefix_length_le ?_ h ?_
        · exact ⟨b, by simp⟩
        · rw [List.length_append, List.length_singleton]
          exact hlong
      exact absurd (hlonger.subset (by simp)) hd
  | inr hshort => exact List.prefix_of_prefix_length_le h (List.prefix_append a _) hshort

/-- An infix does not reach over an element that it does not hold. -/
theorem infix_of_infix_append_cons (h : w <:+: a ++ d :: b) (hd : d ∉ w) :
    w <:+: a ∨ w <:+: b := by
  induction a with
  | nil =>
      cases List.infix_cons_iff.mp h with
      | inl hprefix => exact .inl (prefix_of_prefix_append_cons (a := []) hprefix hd).isInfix
      | inr hrest => exact .inr hrest
  | cons x a ih =>
      cases List.infix_cons_iff.mp h with
      | inl hprefix => exact .inl (prefix_of_prefix_append_cons (a := x :: a) hprefix hd).isInfix
      | inr hrest =>
          refine (ih hrest).imp ?_ id
          exact fun hleft => hleft.trans (List.suffix_cons x a).isInfix

theorem infix_of_infix_cons (hne : w ≠ []) (h : w <:+: d :: b) (hd : d ∉ w) : w <:+: b := by
  cases infix_of_infix_append_cons (a := []) h hd with
  | inl hnil => exact absurd (List.infix_nil.mp hnil) hne
  | inr hrest => exact hrest

theorem infix_takeWhile_or (hw : ∀ x ∈ w, q x = true) (h : w <:+: l) :
    w <:+: l.takeWhile q ∨ w <:+: (l.dropWhile q).drop 1 := by
  rw [← List.takeWhile_append_dropWhile (p := q) (l := l)] at h
  cases hrest : l.dropWhile q with
  | nil =>
      rw [hrest, List.append_nil] at h
      exact .inl h
  | cons d b =>
      have hd : d ∉ w := by
        intro hmem
        have hstops := List.head?_dropWhile_not q l
        rw [hrest] at hstops
        exact absurd (hw d hmem) (Bool.eq_false_iff.mp hstops)
      rw [hrest] at h
      exact infix_of_infix_append_cons h hd

end Infix

variable [DecidableEq α] {c : α} {l : List α}

theorem takeWhile_bne_append (h : c ∈ l) (rest : List α) :
    (l ++ rest).takeWhile (· != c) = l.takeWhile (· != c) := by
  induction l with
  | nil => simp at h
  | cons a l ih =>
      by_cases ha : a = c
      · simp [ha]
      · have hmem : c ∈ l := by simpa [Ne.symm ha] using h
        simp [ha, ih hmem]

theorem dropWhile_bne_append (h : c ∈ l) (rest : List α) :
    ((l ++ rest).dropWhile (· != c)).drop 1 = (l.dropWhile (· != c)).drop 1 ++ rest := by
  induction l with
  | nil => simp at h
  | cons a l ih =>
      by_cases ha : a = c
      · simp [ha]
      · have hmem : c ∈ l := by simpa [Ne.symm ha] using h
        simpa [ha] using ih hmem

theorem takeWhile_bne_of_not_mem (h : c ∉ l) : l.takeWhile (· != c) = l := by
  rw [List.takeWhile_eq_self_iff]
  intro a ha
  have hne : a ≠ c := fun heq => h (heq ▸ ha)
  simpa using hne

theorem dropWhile_bne_of_not_mem (h : c ∉ l) : l.dropWhile (· != c) = [] := by
  rw [List.dropWhile_eq_nil_iff]
  intro a ha
  have hne : a ≠ c := fun heq => h (heq ▸ ha)
  simpa using hne

end OxyC.Foundation
