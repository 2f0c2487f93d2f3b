import Mathlib.Data.List.GetD
import Mathlib.Order.Bounds.Basic
import Mathlib.Order.Interval.Set.Defs

/-!
# Segmentations of a stream

A stream cut into nonempty segments of bounded length.  `offset j` is where
segment `j` starts; `runs arrived` collects the ends of the runs of consecutive
segments, counted from the first, that have all arrived.
-/

namespace OxyC.Foundation

structure Segmentation (α : Type*) (bound : Nat) where
  segments : List (List α)
  length_pos : ∀ seg ∈ segments, 0 < seg.length
  length_le : ∀ seg ∈ segments, seg.length ≤ bound

namespace Segmentation

variable {α : Type*} {bound : Nat} (g : Segmentation α bound)

def count : Nat := g.segments.length

def stream : List α := g.segments.flatten

def offset (j : Nat) : Nat := (g.segments.take j).flatten.length

def segment (j : Nat) : List α := g.segments.getD j []

/-- The numbers `m` such that segments `0, …, m - 1` have all arrived. -/
def runs (arrived : List Nat) : Set Nat :=
  {m | m ≤ g.count ∧ ∀ j < m, j ∈ arrived}

@[simp] theorem offset_zero : g.offset 0 = 0 := by
  simp [offset]

theorem segment_mem {j : Nat} (hj : j < g.count) : g.segment j ∈ g.segments := by
  rw [segment, List.getD_eq_getElem _ _ hj]
  exact List.getElem_mem hj

theorem offset_succ {j : Nat} (hj : j < g.count) :
    g.offset (j + 1) = g.offset j + (g.segment j).length := by
  rw [offset, offset, segment, List.getD_eq_getElem _ _ hj, List.take_succ_eq_append_getElem hj]
  simp

theorem offset_lt_succ {j : Nat} (hj : j < g.count) : g.offset j < g.offset (j + 1) := by
  have hpos := g.length_pos _ (g.segment_mem hj)
  rw [g.offset_succ hj]
  omega

theorem offset_lt {i j : Nat} (hij : i < j) (hj : j ≤ g.count) : g.offset i < g.offset j := by
  induction j with
  | zero => omega
  | succ j ih =>
      have hlast := g.offset_lt_succ (j := j) (by omega)
      rcases Nat.lt_or_ge i j with hlt | hge
      · have := ih hlt (by omega)
        omega
      · obtain rfl : i = j := by omega
        exact hlast

theorem offset_le {i j : Nat} (hij : i ≤ j) (hj : j ≤ g.count) : g.offset i ≤ g.offset j := by
  rcases Nat.lt_or_ge i j with hlt | hge
  · exact (g.offset_lt hlt hj).le
  · obtain rfl : i = j := by omega
    exact le_rfl

theorem offset_inj {i j : Nat} (hi : i ≤ g.count) (hj : j ≤ g.count)
    (h : g.offset i = g.offset j) : i = j := by
  rcases Nat.lt_trichotomy i j with hlt | heq | hgt
  · have := g.offset_lt hlt hj
    omega
  · exact heq
  · have := g.offset_lt hgt hi
    omega

theorem offset_count : g.offset g.count = g.stream.length := by
  simp [offset, count, stream]

theorem offset_le_length {j : Nat} (hj : j ≤ g.count) : g.offset j ≤ g.stream.length := by
  rw [← g.offset_count]
  exact g.offset_le hj le_rfl

theorem isGreatest_runs {arrived : List Nat} {m : Nat} (hm : m ∈ g.runs arrived)
    (hstop : m < g.count → m ∉ arrived) : IsGreatest (g.runs arrived) m := by
  refine ⟨hm, ?_⟩
  intro k hk
  by_contra hlt
  have hmk : m < k := by omega
  exact hstop (by have := hk.1; omega) (hk.2 m hmk)

end Segmentation

end OxyC.Foundation
