import Mathlib.Data.List.Basic
import Mathlib.Data.Option.Basic

/-!
# Counted loops

The loop `for (int i = start; i < bound; i += step)` over a body that may fail.
The counter is a 32-bit integer and wraps around.
-/

namespace OxyC.Foundation

variable {α : Type*} {body : Int → Option α} {bound step : Int}

/-- The results of the passes; `none` if a pass fails or `fuel` passes are not enough. -/
def countedLoop (body : Int → Option α) (bound step : Int) : Nat → Int → Option (List α)
  | 0, _ => none
  | fuel + 1, i =>
      if i < bound then do
        let a ← body i
        let as ← countedLoop body bound step fuel ((i + step).bmod 0x100000000)
        pure (a :: as)
      else some []

theorem bmod_int32 {i : Int} (hlow : -2147483648 ≤ i) (hhigh : i ≤ 2147483647) :
    i.bmod 0x100000000 = i :=
  Int.bmod_eq_of_le (by omega) (by omega)

/-- The counter stays in its range for the `n` passes of the loop. -/
structure Passes (bound step i : Int) (n : Nat) : Prop where
  start : -2147483648 ≤ i
  inside : ∀ k : Nat, k < n → i + step * k < bound
  past : bound ≤ i + step * n
  fits : i + step * n ≤ 2147483647

theorem mul_succ_cast (step : Int) (n : Nat) : step * (n + 1 : Nat) = step + step * n := by
  rw [Int.natCast_succ, Int.mul_add, Int.mul_one, Int.add_comm]

theorem Passes.tail {i : Int} {n : Nat} (h : Passes bound step i (n + 1)) (hstep : 0 ≤ step) :
    Passes bound step (i + step) n := by
  obtain ⟨hstart, hinside, hpast, hfits⟩ := h
  rw [mul_succ_cast] at hpast hfits
  refine ⟨by omega, fun k hk => ?_, by omega, by omega⟩
  have hk' := hinside (k + 1) (by omega)
  rw [mul_succ_cast] at hk'
  omega

theorem countedLoop_eq {i : Int} {n fuel : Nat} (hpasses : Passes bound step i n)
    (hstep : 0 ≤ step) (hfuel : n < fuel) :
    countedLoop body bound step fuel i =
      (List.range n).mapM fun k : Nat => body (i + step * k) := by
  induction n generalizing i fuel with
  | zero =>
      obtain ⟨fuel, rfl⟩ := Nat.exists_eq_add_of_lt hfuel
      have hpast := hpasses.past
      have hnot : ¬ i < bound := by
        rw [Int.natCast_zero, Int.mul_zero] at hpast
        omega
      rw [countedLoop, if_neg hnot]
      rfl
  | succ n ih =>
      obtain ⟨fuel, rfl⟩ := Nat.exists_eq_add_of_lt (Nat.lt_of_le_of_lt (Nat.zero_le _) hfuel)
      have hfirst : i < bound := by
        have := hpasses.inside 0 (by omega)
        rw [Int.natCast_zero, Int.mul_zero] at this
        omega
      have hnext : (i + step).bmod 0x100000000 = i + step := by
        have hstart := hpasses.start
        have hfits := hpasses.fits
        have hnonneg : 0 ≤ step * n := Int.mul_nonneg hstep (Int.natCast_nonneg n)
        rw [mul_succ_cast] at hfits
        exact bmod_int32 (by omega) (by omega)
      have hrest := ih (hpasses.tail hstep) (show n < fuel by omega)
      have hshift : ∀ k : Nat, body (i + step + step * k) = body (i + step * (k + 1 : Nat)) := by
        intro k
        rw [mul_succ_cast, Int.add_assoc]
      rw [Nat.zero_add, countedLoop, if_pos hfirst, hnext, hrest, List.range_succ_eq_map,
        List.mapM_cons, List.mapM_map]
      simp only [hshift, Int.natCast_zero, Int.mul_zero, Int.add_zero]
      rfl

theorem of_countedLoop {i : Int} {fuel : Nat} {as : List α}
    (hloop : countedLoop body bound step fuel i = some as) (hi : i < bound) :
    (body i).isSome ∧ ∃ fuel' as',
      countedLoop body bound step fuel' ((i + step).bmod 0x100000000) = some as' := by
  cases fuel with
  | zero => cases hloop
  | succ fuel =>
      rw [countedLoop, if_pos hi] at hloop
      simp only [Option.bind_eq_bind, Option.bind_eq_some_iff] at hloop
      obtain ⟨a, ha, as', has', -⟩ := hloop
      exact ⟨Option.isSome_iff_exists.mpr ⟨a, ha⟩, fuel, as', has'⟩

/-- A loop that ends has also made the pass after the counter has wrapped around. -/
theorem isSome_of_countedLoop {i : Int} {n fuel : Nat} {as : List α}
    (hloop : countedLoop body bound step fuel i = some as) (hstep : 0 ≤ step)
    (hstart : -2147483648 ≤ i)
    (hinside : ∀ k : Nat, k ≤ n → i + step * k < bound ∧ i + step * k ≤ 2147483647)
    (hlast : (i + step * (n + 1 : Nat)).bmod 0x100000000 < bound) :
    (body ((i + step * (n + 1 : Nat)).bmod 0x100000000)).isSome := by
  induction n generalizing i fuel as with
  | zero =>
      have hfirst := (hinside 0 (Nat.le_refl 0)).1
      rw [Int.natCast_zero, Int.mul_zero, Int.add_zero] at hfirst
      obtain ⟨-, fuel', as', hrest⟩ := of_countedLoop hloop hfirst
      rw [Nat.zero_add, Int.natCast_one, Int.mul_one] at hlast ⊢
      exact (of_countedLoop hrest hlast).1
  | succ n ih =>
      have hfirst := (hinside 0 (Nat.zero_le _)).1
      rw [Int.natCast_zero, Int.mul_zero, Int.add_zero] at hfirst
      obtain ⟨-, fuel', as', hrest⟩ := of_countedLoop hloop hfirst
      have hshift : ∀ k : Nat, i + step + step * k = i + step * (k + 1 : Nat) := by
        intro k
        rw [mul_succ_cast, Int.add_assoc]
      have hsecond := (hinside 1 (by omega)).2
      rw [Int.natCast_one, Int.mul_one] at hsecond
      rw [bmod_int32 (by omega) hsecond] at hrest
      have htail := ih hrest (by omega) (fun k hk => ?_) ?_
      · rwa [hshift] at htail
      · rw [hshift]
        exact hinside (k + 1) (by omega)
      · rwa [hshift]

end OxyC.Foundation
