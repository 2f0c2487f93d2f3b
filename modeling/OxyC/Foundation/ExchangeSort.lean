import OxyC.Foundation.Sorting
import Mathlib.Data.List.Perm.Basic
import Mathlib.Data.List.Range

/-!
# Sorting by exchanges

Two nested loops that compare each place with all places behind it and exchange
the elements that stand in the wrong order.
-/

namespace OxyC.Foundation

variable {α : Type*} {above : α → α → Bool} {xs : List α} {i j : Nat}

/-- One round for the places `p.1` and `p.2`. -/
def exchange (above : α → α → Bool) (xs : List α) (p : Nat × Nat) : List α :=
  if h : p.1 < xs.length ∧ p.2 < xs.length then
    if above (xs.get ⟨p.1, h.1⟩) (xs.get ⟨p.2, h.2⟩) then
      (xs.set p.1 (xs.get ⟨p.2, h.2⟩)).set p.2 (xs.get ⟨p.1, h.1⟩)
    else xs
  else xs

/-- The places that are compared in a list of `n` elements, in order. -/
def exchangeRounds (n : Nat) : List (Nat × Nat) :=
  (List.range (n - 1)).flatMap fun i => (List.range' (i + 1) (n - (i + 1))).map (i, ·)

def exchangeSort (above : α → α → Bool) (xs : List α) : List α :=
  (exchangeRounds xs.length).foldl (exchange above) xs

theorem perm_exchange (above : α → α → Bool) (xs : List α) (p : Nat × Nat) :
    (exchange above xs p).Perm xs := by
  unfold exchange
  split
  next hp =>
      split
      · exact List.set_set_perm hp.1 hp.2
      · exact .refl _
  next => exact .refl _

theorem perm_foldl_exchange (above : α → α → Bool) (xs : List α) (rounds : List (Nat × Nat)) :
    (rounds.foldl (exchange above) xs).Perm xs := by
  induction rounds generalizing xs with
  | nil => exact .refl _
  | cons p rounds ih => exact (ih (exchange above xs p)).trans (perm_exchange above xs p)

theorem perm_exchangeSort (above : α → α → Bool) (xs : List α) :
    (exchangeSort above xs).Perm xs :=
  perm_foldl_exchange above xs _

/-- Either the two elements are in order, or they change places. -/
theorem exchange_cases (above : α → α → Bool) {a b : α} (hij : i < j) (ha : xs[i]? = some a) (hb : xs[j]? = some b) :
    (above a b = false ∧ exchange above xs (i, j) = xs) ∨
      above a b = true ∧ (exchange above xs (i, j))[i]? = some b ∧
        (exchange above xs (i, j))[j]? = some a ∧
        ∀ k, k ≠ i → k ≠ j → (exchange above xs (i, j))[k]? = xs[k]? := by
  obtain ⟨hi, rfl⟩ := List.getElem?_eq_some_iff.mp ha
  obtain ⟨hj, rfl⟩ := List.getElem?_eq_some_iff.mp hb
  have hin : i < xs.length ∧ j < xs.length := ⟨hi, hj⟩
  simp only [exchange, hin, and_self, dif_pos, List.get_eq_getElem]
  cases habove : above xs[i] xs[j] with
  | false => exact .inl ⟨rfl, by simp⟩
  | true =>
      refine .inr ⟨rfl, ?_, ?_, fun k hki hkj => ?_⟩
      · rw [if_pos rfl, List.getElem?_set_ne (Nat.ne_of_gt hij), List.getElem?_set_self hi]
      · rw [if_pos rfl, List.getElem?_set_self (by rwa [List.length_set])]
      · rw [if_pos rfl, List.getElem?_set_ne (Ne.symm hkj), List.getElem?_set_ne (Ne.symm hki)]

theorem length_exchange (above : α → α → Bool) (xs : List α) (p : Nat × Nat) :
    (exchange above xs p).length = xs.length :=
  (perm_exchange above xs p).length_eq

/-! ## The invariant of the loops -/

/-- The places below `i` are done, and place `i` has been compared with those below `j`. -/
structure Scanned (above : α → α → Bool) (i j : Nat) (xs : List α) : Prop where
  settled : ∀ {p q a b}, p < i → p < q → xs[p]? = some a → xs[q]? = some b → above a b = false
  least : ∀ {k a b}, i < k → k < j → xs[i]? = some a → xs[k]? = some b → above a b = false

namespace Scanned

theorem start (above : α → α → Bool) (xs : List α) : Scanned above 0 1 xs where
  settled hp := absurd hp (Nat.not_lt_zero _)
  least hi hj := absurd hi (by omega)

theorem exchange (hscanned : Scanned above i j xs) (horder : StrictWeak above) (hij : i < j)
    (hj : j < xs.length) : Scanned above i (j + 1) (exchange above xs (i, j)) := by
  have ha := List.getElem?_eq_getElem (Nat.lt_trans hij hj)
  have hb := List.getElem?_eq_getElem hj
  rcases exchange_cases above hij ha hb with
    ⟨hbelow, hsame⟩ | ⟨habove, hfirst, hsecond, hothers⟩
  · rw [hsame]
    refine ⟨hscanned.settled, fun {k a b} hik hkj hka hkb => ?_⟩
    rcases Nat.lt_succ_iff_lt_or_eq.mp hkj with hkj | rfl
    · exact hscanned.least hik hkj hka hkb
    · obtain rfl := Option.some.inj (ha.symm.trans hka)
      obtain rfl := Option.some.inj (hb.symm.trans hkb)
      exact hbelow
  · -- The new element of place `i` is below the old one, which was below all others so far.
    have hdown := horder.asymm _ _ habove
    constructor
    · intro p q a b hp hpq hpa hqb
      rw [hothers p (by omega) (by omega)] at hpa
      by_cases hqi : q = i
      · rw [hqi, hfirst] at hqb
        exact hscanned.settled hp (by omega) hpa (hb.trans hqb)
      · by_cases hqj : q = j
        · rw [hqj, hsecond] at hqb
          exact hscanned.settled hp (by omega) hpa (ha.trans hqb)
        · rw [hothers q hqi hqj] at hqb
          exact hscanned.settled hp hpq hpa hqb
    · intro k a b hik hkj hka hkb
      obtain rfl := Option.some.inj (hfirst.symm.trans hka)
      rcases Nat.lt_succ_iff_lt_or_eq.mp hkj with hkj | rfl
      · rw [hothers k (by omega) (by omega)] at hkb
        exact horder.not_trans _ _ _ hdown (hscanned.least hik hkj ha hkb)
      · obtain rfl := Option.some.inj (hsecond.symm.trans hkb)
        exact hdown

/-- The inner loop. -/
theorem inner (hscanned : Scanned above i j xs) (horder : StrictWeak above) (hij : i < j)
    (n : Nat) (hn : j + n ≤ xs.length) :
    Scanned above i (j + n) (((List.range' j n).map (i, ·)).foldl (Foundation.exchange above) xs) := by
  induction n generalizing j xs with
  | zero => exact hscanned
  | succ n ih =>
      have hfirst := hscanned.exchange horder hij (by omega)
      have hrest := ih hfirst (by omega) (by rw [length_exchange]; omega)
      rw [List.range'_succ, List.map_cons, List.foldl_cons, Nat.add_comm n 1, ← Nat.add_assoc]
      exact hrest

/-- Place `i` has been compared with every place behind it. -/
theorem next (hscanned : Scanned above i xs.length xs) : Scanned above (i + 1) (i + 2) xs where
  settled {p q a b} hp hpq hpa hqb := by
    rcases Nat.lt_succ_iff_lt_or_eq.mp hp with hp | rfl
    · exact hscanned.settled hp hpq hpa hqb
    · exact hscanned.least hpq (List.getElem?_eq_some_iff.mp hqb).1 hpa hqb
  least hi hj := absurd hi (by omega)

/-- The outer loop. -/
theorem outer (horder : StrictWeak above) (xs : List α) (m : Nat) (hm : m < xs.length) :
    Scanned above m (m + 1)
      (((List.range m).flatMap fun i =>
        (List.range' (i + 1) (xs.length - (i + 1))).map (i, ·)).foldl (Foundation.exchange above) xs) := by
  induction m with
  | zero => exact .start above xs
  | succ m ih =>
      have hbefore := ih (by omega)
      rw [List.range_succ, List.flatMap_append, List.foldl_append, List.flatMap_singleton]
      generalize hys : ((List.range m).flatMap _).foldl (Foundation.exchange above) xs = ys
        at hbefore ⊢
      have hlength : ys.length = xs.length := by
        rw [← hys]
        exact (perm_foldl_exchange above xs _).length_eq
      have hpass := hbefore.inner horder (Nat.lt_succ_self m) (xs.length - (m + 1)) (by omega)
      generalize hzs : ((List.range' (m + 1) _).map (m, ·)).foldl (Foundation.exchange above) ys = zs
        at hpass ⊢
      have hlength' : zs.length = m + 1 + (xs.length - (m + 1)) := by
        rw [← hzs, (perm_foldl_exchange above ys _).length_eq]
        omega
      rw [← hlength'] at hpass
      exact hpass.next

end Scanned

theorem pairwise_exchangeSort (horder : StrictWeak above) (xs : List α) :
    (exchangeSort above xs).Pairwise fun a b => above a b = false := by
  have hlength := (perm_exchangeSort above xs).length_eq
  rw [List.pairwise_iff_getElem]
  intro p q hp hq hpq
  have hscanned := Scanned.outer horder xs (xs.length - 1) (by omega)
  exact hscanned.settled (by omega) hpq (List.getElem?_eq_getElem hp) (List.getElem?_eq_getElem hq)

end OxyC.Foundation
