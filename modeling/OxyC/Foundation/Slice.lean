import Mathlib.Data.List.Basic

/-!
# Slices of a list

`SliceAt xs off ys` says that `ys` occurs in `xs` at offset `off`.  A receiver
that appends slices in offset order rebuilds prefixes of `xs`.
-/

namespace OxyC.Foundation

variable {α : Type*}

def SliceAt (xs : List α) (off : Nat) (ys : List α) : Prop :=
  ∃ before after, xs = before ++ ys ++ after ∧ before.length = off

namespace SliceAt

variable {xs ys : List α} {off : Nat}

theorem le_length (h : SliceAt xs off ys) : off + ys.length ≤ xs.length := by
  obtain ⟨before, after, rfl, rfl⟩ := h
  simp

theorem take_append (h : SliceAt xs off ys) :
    xs.take off ++ ys = xs.take (off + ys.length) := by
  obtain ⟨before, after, rfl, rfl⟩ := h
  rw [← List.length_append, List.take_left, List.append_assoc, List.take_left]

theorem getElem? (h : SliceAt xs off ys) {k : Nat} (hk : k < ys.length) :
    ys[k]? = xs[off + k]? := by
  obtain ⟨before, after, rfl, rfl⟩ := h
  rw [List.append_assoc, List.getElem?_append_right (by omega), Nat.add_sub_cancel_left,
    List.getElem?_append_left hk]

theorem of_take_drop (xs : List α) {off : Nat} (n : Nat) (h : off ≤ xs.length) :
    SliceAt xs off ((xs.drop off).take n) :=
  ⟨xs.take off, (xs.drop off).drop n,
    by rw [List.append_assoc, List.take_append_drop, List.take_append_drop],
    List.length_take_of_le h⟩

end SliceAt

end OxyC.Foundation
