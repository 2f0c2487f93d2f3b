import OxyC.Foundation.Mealy
import Mathlib.Algebra.Order.Ring.Nat
import Mathlib.Data.List.Basic

/-!
# Potentials

A machine whose steps use up a potential has no long runs.  Inputs that bring in
some of the potential, such as wake-ups that nobody asked for, pay for the steps
they allow.
-/

namespace OxyC.Foundation

namespace Mealy

variable {ι ω σ : Type*} (M : Mealy ι ω σ) {J : σ → Prop} (potential : σ → ℕ)

theorem length_add_potential_le (gain : ι → ℕ)
    (hstep : ∀ i s s' out, J s → M.step i s = some (s', out) →
      J s' ∧ potential s' + 1 ≤ potential s + gain i)
    {is : List ι} {s t : σ} {outs : List ω} (hs : J s) (hrun : M.run is s = some (t, outs)) :
    is.length + potential t ≤ potential s + (is.map gain).sum := by
  induction is generalizing s outs with
  | nil =>
      simp only [run_nil, Option.some.injEq, Prod.mk.injEq] at hrun
      obtain ⟨rfl, -⟩ := hrun
      simp
  | cons i is ih =>
      obtain ⟨s', out, rest, hi, hrest, -⟩ := M.run_cons_eq_some.mp hrun
      obtain ⟨hs', hle⟩ := hstep i s s' out hs hi
      have htail := ih hs' hrest
      simp only [List.length_cons, List.map_cons, List.sum_cons]
      omega

/-- Where an input that the guard allows uses up some of the potential as long as the goal is not
reached, a run to the goal consists of such inputs. -/
theorem exists_run_to {G : σ → ι → Prop} {goal : σ → Prop}
    (hstep : ∀ s, J s → ¬ goal s → ∃ i s' out, G s i ∧ M.step i s = some (s', out) ∧ J s' ∧
      potential s' < potential s) {s : σ} (hs : J s) :
    ∃ is t outs, M.Guarded G is s ∧ M.run is s = some (t, outs) ∧ J t ∧ goal t := by
  induction hp : potential s using Nat.strongRecOn generalizing s with
  | ind n ih =>
      by_cases hgoal : goal s
      · exact ⟨[], s, [], trivial, rfl, hs, hgoal⟩
      · obtain ⟨i, s', out, hi, hsome, hs', hlt⟩ := hstep s hs hgoal
        obtain ⟨is, t, outs, his, hrun, ht, hend⟩ := ih (potential s') (hp ▸ hlt) hs' rfl
        refine ⟨i :: is, t, out ++ outs, ⟨hi, ?_⟩, ?_, ht, hend⟩
        · intro s'' out' hsome'
          rw [hsome] at hsome'
          cases hsome'
          exact his
        · exact M.run_cons_eq_some.mpr ⟨s', out, outs, hsome, hrun, rfl⟩

/-- Whoever chooses among the inputs that the guard allows, a state is reached in which none of
them is enabled. -/
theorem exists_run_to_rest {G : σ → ι → Prop}
    (hstep : ∀ i s s' out, G s i → J s → M.step i s = some (s', out) →
      J s' ∧ potential s' < potential s) {s : σ} (hs : J s) :
    ∃ is t outs, M.Guarded G is s ∧ M.run is s = some (t, outs) ∧
      ∀ i, G t i → M.step i t = none := by
  have hbusy : ∀ s, J s → ¬ (∀ i, G s i → M.step i s = none) → ∃ i s' out, G s i ∧
      M.step i s = some (s', out) ∧ J s' ∧ potential s' < potential s := by
    intro s hs hbusy
    push Not at hbusy
    obtain ⟨i, hi, hne⟩ := hbusy
    obtain ⟨⟨s', out⟩, hsome⟩ := Option.ne_none_iff_exists'.mp hne
    exact ⟨i, s', out, hi, hsome, hstep i s s' out hi hs hsome⟩
  obtain ⟨is, t, outs, his, hrun, -, hrest⟩ := M.exists_run_to potential hbusy hs
  exact ⟨is, t, outs, his, hrun, hrest⟩

/-- A guard that looks at the inputs only. -/
theorem Guarded.forall_mem {I : ι → Prop} {is : List ι} {s t : σ} {outs : List ω}
    (h : M.Guarded (fun _ => I) is s) (hrun : M.run is s = some (t, outs)) : ∀ i ∈ is, I i := by
  induction is generalizing s outs with
  | nil => simp
  | cons i is ih =>
      obtain ⟨s', out, rest, hi, hrest, -⟩ := M.run_cons_eq_some.mp hrun
      exact List.forall_mem_cons.mpr ⟨h.1, ih (h.2 s' out hi) hrest⟩

end Mealy

section Sums

variable {α : Type*} {as : List α} {a : α} {k : Nat}

theorem sum_map_modify (weight : α → ℕ) (f : α → α) (ha : as[k]? = some a) :
    ((as.modify k f).map weight).sum + weight a = (as.map weight).sum + weight (f a) := by
  induction as generalizing k with
  | nil => simp at ha
  | cons b as ih =>
      cases k with
      | zero =>
          obtain rfl : b = a := by simpa using ha
          simp only [List.modify_zero_cons, List.map_cons, List.sum_cons]
          omega
      | succ k =>
          have htail := ih (k := k) (by simpa using ha)
          simp only [List.modify_succ_cons, List.map_cons, List.sum_cons]
          omega

theorem sum_map_set (weight : α → ℕ) (b : α) (ha : as[k]? = some a) :
    ((as.set k b).map weight).sum + weight a = (as.map weight).sum + weight b := by
  have hset : as.set k b = as.modify k fun _ => b := List.set_eq_modify b k as
  rw [hset, sum_map_modify weight _ ha]

theorem sum_map_gain (p : α → Bool) (c : ℕ) (as : List α) :
    (as.map fun a => if p a then c else 0).sum = c * as.countP p := by
  induction as with
  | nil => rfl
  | cons a as ih =>
      rw [List.map_cons, List.sum_cons, List.countP_cons, ih]
      split
      · rw [Nat.mul_succ, Nat.add_comm]
      · rw [Nat.zero_add, Nat.add_zero]

/-- Where each weight rises by at most `c`, the sum rises by at most `c` for each element. -/
theorem sum_map_map_le {weight weight' : α → ℕ} {f : α → α} {c : ℕ}
    (hf : ∀ a ∈ as, weight' (f a) ≤ weight a + c) :
    ((as.map f).map weight').sum ≤ (as.map weight).sum + c * as.length := by
  induction as with
  | nil => simp
  | cons b as ih =>
      have hb := hf b List.mem_cons_self
      have htail := ih fun a ha => hf a (List.mem_cons_of_mem b ha)
      simp only [List.map_cons, List.sum_cons, List.length_cons, Nat.mul_succ]
      omega

end Sums

end OxyC.Foundation
