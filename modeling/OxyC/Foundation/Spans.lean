import Mathlib.Data.List.Basic

/-!
# Spans

Lists of ranges, each given by its first and its last index, that lie one behind
the other.  Ranges that leave nothing out between two of them tile what they lie
in, and the parts of a list under them are then the part under all of it.
-/

namespace OxyC.Foundation

/-- The ranges are not empty and lie between `lo` and `hi`, each behind the one before. -/
def Spans : Int → List (Int × Int) → Int → Prop
  | lo, [], hi => lo ≤ hi
  | lo, r :: rs, hi => lo ≤ r.1 ∧ r.1 ≤ r.2 ∧ Spans (r.2 + 1) rs hi

namespace Spans

variable {lo mid hi : Int} {rs ss : List (Int × Int)}

theorem mono {lo' hi' : Int} (h : Spans lo rs hi) (hlo : lo' ≤ lo) (hhi : hi ≤ hi') :
    Spans lo' rs hi' := by
  induction rs generalizing lo lo' with
  | nil => exact Int.le_trans hlo (Int.le_trans h hhi)
  | cons r rs ih => exact ⟨Int.le_trans hlo h.1, h.2.1, ih h.2.2 (Int.le_refl _)⟩

theorem append (h : Spans lo rs mid) (h' : Spans mid ss hi) : Spans lo (rs ++ ss) hi := by
  induction rs generalizing lo with
  | nil => exact h'.mono h (Int.le_refl _)
  | cons r rs ih => exact ⟨h.1, h.2.1, ih h.2.2⟩

theorem le_first (h : Spans lo rs hi) : ∀ r ∈ rs, lo ≤ r.1 := by
  induction rs generalizing lo with
  | nil => simp
  | cons r rs ih =>
      obtain ⟨hlo, hle, hrest⟩ := h
      rw [List.forall_mem_cons]
      refine ⟨hlo, fun s hs => ?_⟩
      have hfirst := ih hrest s hs
      omega

theorem pairwise (h : Spans lo rs hi) : rs.Pairwise fun r s => r.2 < s.1 := by
  induction rs generalizing lo with
  | nil => exact .nil
  | cons r rs ih =>
      refine .cons (fun s hs => ?_) (ih h.2.2)
      have hfirst := h.2.2.le_first s hs
      omega

end Spans

/-! ## Tilings -/

/-- The ranges are not empty, start at `lo`, end before `hi` and leave nothing out. -/
def Tiles : Int → List (Int × Int) → Int → Prop
  | lo, [], hi => lo = hi
  | lo, r :: rs, hi => r.1 = lo ∧ lo ≤ r.2 ∧ Tiles (r.2 + 1) rs hi

/-- The elements of a list under a range. -/
def part {α : Type*} (xs : List α) (r : Int × Int) : List α :=
  (xs.drop r.1.toNat).take (r.2 + 1 - r.1).toNat

section Parts

variable {α : Type*} {xs : List α} {lo mid hi : Int} {rs ss : List (Int × Int)}

theorem part_append (hlo : 0 ≤ lo) (hmid : lo ≤ mid) (hhi : mid ≤ hi) :
    part xs (lo, mid - 1) ++ part xs (mid, hi - 1) = part xs (lo, hi - 1) := by
  have hdrop : mid.toNat = lo.toNat + (mid - lo).toNat := by omega
  have htake : (hi - 1 + 1 - lo).toNat = (mid - lo).toNat + (hi - 1 + 1 - mid).toNat := by omega
  have hfront : mid - 1 + 1 - lo = mid - lo := by omega
  simp only [part, hfront]
  rw [htake, List.take_add, List.drop_drop, hdrop]

theorem part_of_lt (h : hi < lo) : part xs (lo, hi) = [] := by
  have hnone : (hi + 1 - lo).toNat = 0 := by omega
  simp only [part, hnone, List.take_zero]

theorem Tiles.le (h : Tiles lo rs hi) : lo ≤ hi := by
  induction rs generalizing lo with
  | nil => exact Int.le_of_eq h
  | cons r rs ih =>
      have hrest := ih h.2.2
      have hle := h.2.1
      omega

theorem Tiles.append (h : Tiles lo rs mid) (h' : Tiles mid ss hi) : Tiles lo (rs ++ ss) hi := by
  induction rs generalizing lo with
  | nil =>
      obtain rfl : lo = mid := h
      exact h'
  | cons r rs ih => exact ⟨h.1, h.2.1, ih h.2.2⟩

theorem Tiles.flatMap_part (h : Tiles lo rs hi) (hlo : 0 ≤ lo) :
    rs.flatMap (part xs) = part xs (lo, hi - 1) := by
  induction rs generalizing lo with
  | nil =>
      obtain rfl : lo = hi := h
      rw [part_of_lt (by omega), List.flatMap_nil]
  | cons r rs ih =>
      obtain ⟨rfl, hle, hrest⟩ := h
      have hfront : part xs r = part xs (r.1, r.2 + 1 - 1) := by
        rw [Int.add_sub_cancel]
      rw [List.flatMap_cons, ih hrest (by omega), hfront, part_append hlo (by omega) hrest.le]

end Parts

end OxyC.Foundation
