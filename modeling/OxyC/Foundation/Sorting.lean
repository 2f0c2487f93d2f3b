import Mathlib.Data.List.Sort

/-!
# Sorting by a comparison

The contract of a sorting function that is given a comparison: the result holds
the same elements, and none of them stands before one that it is above of.
-/

namespace OxyC.Foundation

section Sorting

variable {α : Type*}

/-- The comparisons that a sorting function may be given; `above a b` puts `a` behind `b`. -/
structure StrictWeak (above : α → α → Bool) : Prop where
  asymm : ∀ a b, above a b = true → above b a = false
  not_trans : ∀ a b c, above a b = false → above b c = false → above a c = false

end Sorting

end OxyC.Foundation
