import Mathlib.Data.List.Forall2

/-!
# First-fit placement in a table of slots

`firstFit free x` writes `x` over the first entry for which `free` holds and
leaves a table without such an entry unchanged.
-/

namespace OxyC.Foundation

variable {α : Type*} (free : α → Bool)

def firstFit (x : α → α) : List α → List α
  | [] => []
  | a :: as => if free a then x a :: as else a :: firstFit x as

variable {free} {x : α → α}

@[simp] theorem length_firstFit (as : List α) : (firstFit free x as).length = as.length := by
  induction as with
  | nil => rfl
  | cons a as ih => by_cases h : free a <;> simp [firstFit, h, ih]

theorem firstFit_eq_self {as : List α} (h : ∀ a ∈ as, free a = false) :
    firstFit free x as = as := by
  induction as with
  | nil => rfl
  | cons a as ih =>
      have ha := h a (by simp)
      simp [firstFit, ha, ih fun b hb => h b (by simp [hb])]

theorem firstFit_eq_append {as : List α} (h : ∃ a ∈ as, free a = true) :
    ∃ before a after, as = before ++ a :: after ∧ free a = true ∧
      (∀ b ∈ before, free b = false) ∧ firstFit free x as = before ++ x a :: after := by
  induction as with
  | nil => simp at h
  | cons a as ih =>
      cases ha : free a with
      | true => exact ⟨[], a, as, rfl, ha, by simp, by simp [firstFit, ha]⟩
      | false =>
          have hrest : ∃ b ∈ as, free b = true := by
            obtain ⟨b, hb, hfree⟩ := h
            rcases List.mem_cons.mp hb with rfl | hb
            · simp [ha] at hfree
            · exact ⟨b, hb, hfree⟩
          obtain ⟨before, b, after, rfl, hb, hbefore, hfit⟩ := ih hrest
          refine ⟨a :: before, b, after, rfl, hb, ?_, by simp [firstFit, ha, hfit]⟩
          intro c hc
          rcases List.mem_cons.mp hc with rfl | hc
          · exact ha
          · exact hbefore c hc

theorem mem_firstFit {as : List α} {b : α} (hb : b ∈ firstFit free x as) :
    b ∈ as ∨ ∃ a ∈ as, free a = true ∧ b = x a := by
  induction as with
  | nil => simp [firstFit] at hb
  | cons a as ih =>
      cases ha : free a with
      | true =>
          simp only [firstFit, ha, if_true, List.mem_cons] at hb
          rcases hb with rfl | hb
          · exact .inr ⟨a, by simp, ha, rfl⟩
          · exact .inl (by simp [hb])
      | false =>
          simp only [firstFit, ha, Bool.false_eq_true, if_false, List.mem_cons] at hb
          rcases hb with rfl | hb
          · exact .inl (by simp)
          · rcases ih hb with hb | ⟨c, hc, hfree, rfl⟩
            · exact .inl (by simp [hb])
            · exact .inr ⟨c, by simp [hc], hfree, rfl⟩

theorem mem_firstFit_of_not_free {as : List α} {a : α} (ha : a ∈ as) (hfree : free a = false) :
    a ∈ firstFit free x as := by
  by_cases h : ∃ b ∈ as, free b = true
  · obtain ⟨before, b, after, rfl, hb, -, hfit⟩ := firstFit_eq_append (x := x) h
    rw [hfit]
    have hne : a ≠ b := by
      rintro rfl
      simp [hfree] at hb
    simpa [hne] using Or.imp_right (Or.inr (a := a = x b)) (by simpa [hne] using ha)
  · rw [firstFit_eq_self fun b hb => Bool.eq_false_iff.mpr fun hf => h ⟨b, hb, hf⟩]
    exact ha

theorem firstFit_lockstep {β : Type*} {E : α → β → Prop} {free' : β → Bool} {y : β → β}
    (hfree : ∀ a b, E a b → free a = free' b)
    (hplace : ∀ a b, E a b → free a = true → E (x a) (y b))
    {as : List α} {bs : List β} (h : List.Forall₂ E as bs) :
    List.Forall₂ E (firstFit free x as) (firstFit free' y bs) := by
  induction h with
  | nil => exact .nil
  | @cons a b as bs hab htail ih =>
      simp only [firstFit, ← hfree a b hab]
      split
      · rename_i ha
        exact .cons (hplace a b hab ha) htail
      · exact .cons hab ih

end OxyC.Foundation
