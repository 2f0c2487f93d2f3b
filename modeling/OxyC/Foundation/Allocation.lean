import Mathlib.Data.List.Nodup
import Mathlib.Data.List.Perm.Basic
import Mathlib.Data.List.Range

/-!
# A ledger of allocations

Blocks are numbered in the order of their allocation, and every release is
noted.  Who accounts for a heap owns each block that is not released, and has
released no block twice.
-/

namespace OxyC.Foundation

structure Heap (β : Type*) where
  blocks : List β := []
  /-- The numbers of the released blocks, in order. -/
  released : List Nat := []

namespace Heap

variable {β : Type*} {heap : Heap β} {owned : List Nat} {v : β} {a : Nat}

def next (heap : Heap β) : Nat := heap.blocks.length

def alloc (heap : Heap β) (v : β) : Heap β := { heap with blocks := heap.blocks ++ [v] }

def release (heap : Heap β) (numbers : List Nat) : Heap β :=
  { heap with released := heap.released ++ numbers }

/-- A released block cannot be read. -/
def read (heap : Heap β) (a : Nat) : Option β :=
  if a ∈ heap.released then none else heap.blocks[a]?

@[simp] theorem blocks_alloc : (heap.alloc v).blocks = heap.blocks ++ [v] := rfl

@[simp] theorem released_alloc : (heap.alloc v).released = heap.released := rfl

/-- Every block is either owned or released, and that once. -/
def Accounted (heap : Heap β) (owned : List Nat) : Prop :=
  (heap.released ++ owned).Perm (List.range heap.blocks.length)

theorem accounted_empty : ({} : Heap β).Accounted [] := .refl _

namespace Accounted

theorem alloc (h : heap.Accounted owned) : (heap.alloc v).Accounted (owned ++ [heap.next]) := by
  have hrange : List.range (heap.alloc v).blocks.length =
      List.range heap.blocks.length ++ [heap.next] := by
    rw [blocks_alloc, List.length_append, List.length_singleton, List.range_succ]
    rfl
  rw [Accounted, hrange, released_alloc, ← List.append_assoc]
  exact h.append_right _

theorem release (h : heap.Accounted owned) : (heap.release owned).Accounted [] := by
  rw [Accounted, List.append_nil]
  exact h

theorem lt_of_mem_released (h : heap.Accounted owned) (ha : a ∈ heap.released) :
    a < heap.blocks.length :=
  List.mem_range.mp (h.mem_iff.mp (List.mem_append_left owned ha))

theorem nodup (h : heap.Accounted owned) : (heap.released ++ owned).Nodup :=
  h.nodup_iff.mpr List.nodup_range

theorem count_released (h : heap.Accounted owned) (ha : a < heap.blocks.length) :
    heap.released.count a = if a ∈ owned then 0 else 1 := by
  have hnodup := h.nodup
  have hmem := h.mem_iff.mpr (List.mem_range.mpr ha)
  split
  case isTrue howned =>
    have hdisjoint := List.disjoint_of_nodup_append hnodup
    exact List.count_eq_zero.mpr fun hreleased => hdisjoint hreleased howned
  case isFalse hother =>
    have hreleased := (List.mem_append.mp hmem).resolve_right hother
    exact List.count_eq_one_of_mem hnodup.of_append_left hreleased

theorem read_of_owned (h : heap.Accounted owned) (ha : a ∈ owned) :
    heap.read a = heap.blocks[a]? := by
  have hdisjoint := List.disjoint_of_nodup_append h.nodup
  exact if_neg fun hreleased => hdisjoint hreleased ha

end Accounted

end Heap

end OxyC.Foundation
