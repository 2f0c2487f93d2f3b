import Mathlib.Data.List.Basic

/-!
# Bounded queues of bytes

A pipe holds at most `capacity` bytes.  What is put in comes out in the same
order, and a piece that does not fit is refused.
-/

namespace OxyC.Foundation

structure Fifo (β : Type*) (capacity : Nat) where
  bytes : List β
  bounded : bytes.length ≤ capacity

namespace Fifo

variable {β : Type*} {capacity : Nat}

def empty : Fifo β capacity := ⟨[], Nat.zero_le _⟩

def put (piece : List β) (f : Fifo β capacity) : Option (Fifo β capacity) :=
  if h : (f.bytes ++ piece).length ≤ capacity then some ⟨f.bytes ++ piece, h⟩ else none

def drop (k : Nat) (f : Fifo β capacity) : Fifo β capacity :=
  ⟨f.bytes.drop k, Nat.le_trans (f.bytes.drop_sublist k).length_le f.bounded⟩

variable {f f' : Fifo β capacity} {piece : List β}

@[simp] theorem bytes_empty : (empty : Fifo β capacity).bytes = [] := rfl

@[simp] theorem bytes_drop (k : Nat) : (f.drop k).bytes = f.bytes.drop k := rfl

theorem put_eq_some (h : f.put piece = some f') : f'.bytes = f.bytes ++ piece := by
  unfold put at h
  split at h
  · cases h
    rfl
  · cases h

theorem put_isSome_iff : (f.put piece).isSome ↔ f.bytes.length + piece.length ≤ capacity := by
  unfold put
  split
  · rename_i h
    simpa using h
  · rename_i h
    simpa using h

end Fifo

end OxyC.Foundation
