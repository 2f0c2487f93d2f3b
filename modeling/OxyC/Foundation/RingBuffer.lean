import Mathlib.Data.List.DropRight
import Mathlib.Data.Nat.ModEq
import Mathlib.Logic.Function.Basic

/-!
# Ring buffers

A ring of `n` slots holds the last `n` elements that were pushed.  Slots outside
the ring are unrestricted.
-/

namespace OxyC.Foundation

section LastElements

variable {α : Type*}

theorem rtake_eq_self {n : Nat} {l : List α} (h : l.length ≤ n) : l.rtake n = l := by
  rw [List.rtake, Nat.sub_eq_zero_of_le h, List.drop_zero]

theorem rtake_rtake {m n : Nat} (h : m ≤ n) (l : List α) : (l.rtake n).rtake m = l.rtake m := by
  simp only [List.rtake, List.drop_drop, List.length_drop]
  congr 1
  omega

/-- Only the last `n` elements matter for the last `n` after one more. -/
theorem rtake_concat (n : Nat) (l : List α) (x : α) :
    (l.rtake n ++ [x]).rtake n = (l ++ [x]).rtake n := by
  cases n with
  | zero => simp
  | succ n => rw [List.rtake_concat_succ, List.rtake_concat_succ, rtake_rtake (Nat.le_succ n)]

theorem getLast?_rtake {n : Nat} (hn : 0 < n) (l : List α) :
    (l.rtake n).getLast? = l.getLast? := by
  obtain ⟨n, rfl⟩ := Nat.exists_eq_add_one_of_ne_zero (Nat.ne_of_gt hn)
  rcases l.eq_nil_or_concat with rfl | ⟨l, x, rfl⟩
  · simp
  · rw [List.concat_eq_append, List.rtake_concat_succ, List.getLast?_concat, List.getLast?_concat]

end LastElements

structure RingBuffer (α : Type*) where
  start : Nat
  count : Nat
  slots : Nat → α

namespace RingBuffer

variable {α : Type*}

def slot (n : Nat) (r : RingBuffer α) (i : Nat) : Nat := (r.start + i) % n

/-- The entries, the oldest one first. -/
def entries (n : Nat) (r : RingBuffer α) : List α :=
  (List.range r.count).map fun i => r.slots (r.slot n i)

def clear (r : RingBuffer α) : RingBuffer α := { r with start := 0, count := 0 }

/-- A full ring loses its oldest entry. -/
def push (n : Nat) (x : α) (r : RingBuffer α) : RingBuffer α :=
  if r.count < n then
    { r with
      slots := Function.update r.slots (r.slot n r.count) x
      count := r.count + 1 }
  else
    { r with
      slots := Function.update r.slots r.start x
      start := (r.start + 1) % n }

structure Fits (n : Nat) (r : RingBuffer α) : Prop where
  start_lt : r.start < n
  count_le : r.count ≤ n

variable {n : Nat} {r : RingBuffer α}

@[simp] theorem length_entries (n : Nat) (r : RingBuffer α) : (r.entries n).length = r.count := by
  simp [entries]

@[simp] theorem entries_clear (n : Nat) (r : RingBuffer α) : r.clear.entries n = [] := rfl

theorem Fits.clear (h : r.Fits n) : r.clear.Fits n := ⟨Nat.zero_lt_of_lt h.start_lt, Nat.zero_le n⟩

theorem Fits.push (h : r.Fits n) (x : α) : (r.push n x).Fits n := by
  have hn : 0 < n := Nat.zero_lt_of_lt h.start_lt
  unfold RingBuffer.push
  split
  · rename_i hroom
    exact ⟨h.start_lt, hroom⟩
  · exact ⟨Nat.mod_lt _ hn, h.count_le⟩

theorem start_push_of_lt (hroom : r.count < n) (x : α) : (r.push n x).start = r.start := by
  rw [push, if_pos hroom]

theorem count_push_of_lt (hroom : r.count < n) (x : α) : (r.push n x).count = r.count + 1 := by
  rw [push, if_pos hroom]

theorem slot_injective {i j : Nat} (hi : i < n) (hj : j < n) (h : r.slot n i = r.slot n j) :
    i = j := Nat.ModEq.eq_of_lt_of_lt (Nat.ModEq.add_left_cancel' r.start h) hi hj

theorem getLast?_entries (hcount : 0 < r.count) :
    (r.entries n).getLast? = some (r.slots ((r.start + r.count - 1) % n)) := by
  have hlast : r.start + r.count - 1 = r.start + (r.count - 1) := by omega
  have hrange : List.range r.count = List.range (r.count - 1) ++ [r.count - 1] := by
    rw [← List.range_succ, Nat.succ_eq_add_one, Nat.sub_add_cancel hcount]
  simp [entries, hrange, slot, hlast]

theorem entries_push_of_lt (hroom : r.count < n) (x : α) :
    (r.push n x).entries n = r.entries n ++ [x] := by
  have hkept : ∀ i ∈ List.range r.count,
      Function.update r.slots (r.slot n r.count) x (r.slot n i) = r.slots (r.slot n i) := by
    intro i hi
    rw [List.mem_range] at hi
    apply Function.update_of_ne
    intro heq
    have hsame := slot_injective (hi.trans hroom) hroom heq
    omega
  calc (r.push n x).entries n
      = (List.range (r.count + 1)).map
          fun i => Function.update r.slots (r.slot n r.count) x (r.slot n i) := by
        rw [push, if_pos hroom]
        rfl
    _ = r.entries n ++ [x] := by
        rw [List.range_succ, List.map_append, List.map_congr_left hkept]
        simp [entries]

theorem entries_push_of_full (h : r.Fits n) (hfull : r.count = n) (x : α) :
    (r.push n x).entries n = (r.entries n).tail ++ [x] := by
  obtain ⟨m, rfl⟩ : ∃ m, n = m + 1 := Nat.exists_eq_add_one.mpr (Nat.zero_lt_of_lt h.start_lt)
  have hstart : r.slot (m + 1) 0 = r.start := Nat.mod_eq_of_lt h.start_lt
  have hnext : ∀ i, ((r.start + 1) % (m + 1) + i) % (m + 1) = r.slot (m + 1) (i + 1) := by
    intro i
    rw [Nat.mod_add_mod, Nat.add_assoc, Nat.add_comm 1 i]
    rfl
  have hkept : ∀ i ∈ List.range m,
      Function.update r.slots r.start x (r.slot (m + 1) (i + 1)) =
        r.slots (r.slot (m + 1) (i + 1)) := by
    intro i hi
    rw [List.mem_range] at hi
    apply Function.update_of_ne
    intro heq
    rw [← hstart] at heq
    have hsame := slot_injective (by omega) (by omega) heq
    omega
  have hnew : r.slot (m + 1) (m + 1) = r.start := by
    rw [slot, Nat.add_mod_right]
    exact Nat.mod_eq_of_lt h.start_lt
  calc (r.push (m + 1) x).entries (m + 1)
      = (List.range (m + 1)).map
          fun i => Function.update r.slots r.start x (r.slot (m + 1) (i + 1)) := by
        rw [push, if_neg (by omega), entries, hfull]
        exact List.map_congr_left fun i _ => congrArg _ (hnext i)
    _ = (List.range m).map (fun i => r.slots (r.slot (m + 1) (i + 1))) ++ [x] := by
        rw [List.range_succ, List.map_append, List.map_congr_left hkept]
        simp [hnew]
    _ = (r.entries (m + 1)).tail ++ [x] := by
        rw [entries, hfull, List.range_succ_eq_map]
        simp [Function.comp_def]

theorem entries_push (h : r.Fits n) (x : α) :
    (r.push n x).entries n = (r.entries n ++ [x]).rtake n := by
  cases Nat.lt_or_eq_of_le h.count_le with
  | inl hroom =>
      rw [entries_push_of_lt hroom, rtake_eq_self]
      simpa using Nat.succ_le_of_lt hroom
  | inr hfull =>
      rw [entries_push_of_full h hfull, List.rtake, List.length_append, length_entries, hfull,
        List.length_singleton, Nat.add_sub_cancel_left, List.drop_append_of_le_length]
      · simp
      · have hn := Nat.zero_lt_of_lt h.start_lt
        rw [length_entries]
        omega

end RingBuffer

end OxyC.Foundation
