import Mathlib.Data.List.Basic
import Mathlib.Logic.Function.Basic

/-!
# Tables at the start of an array

The first `count` cells of an array are the entries of a table.  An entry is
removed by moving the ones behind it down, and the loop that visits the entries
may remove the one it stands at: the index then stays where it is.
-/

namespace OxyC.Foundation

structure Packed (α : Type*) where
  slots : Nat → α
  count : Nat

namespace Packed

variable {α ω : Type*}

def entries (t : Packed α) : List α := (List.range t.count).map t.slots

def modify (k : Nat) (f : α → α) (t : Packed α) : Packed α :=
  { t with slots := Function.update t.slots k (f (t.slots k)) }

/-- The cells from `first` on take what stands behind them, up to `last`. -/
def shiftDown (first last : Nat) (slots : Nat → α) : Nat → α :=
  fun k => if first ≤ k ∧ k < last then slots (k + 1) else slots k

def remove (i : Nat) (t : Packed α) : Packed α where
  slots := shiftDown i (t.count - 1) t.slots
  count := t.count - 1

/--
The loop at index `i` with `left` entries not visited yet.  `visit` tells what
becomes of an entry, `none` if it is removed, and what is emitted.
-/
def compactLoop (visit : α → Option α × List ω) : Nat → Nat → (Nat → α) → Packed α × List ω
  | 0, i, slots => (⟨slots, i⟩, [])
  | left + 1, i, slots =>
      let (kept, out) := visit (slots i)
      let (t, rest) :=
        match kept with
        | none => compactLoop visit left i (shiftDown i (i + left) slots)
        | some a => compactLoop visit left (i + 1) (Function.update slots i a)
      (t, out ++ rest)

def compact (visit : α → Option α × List ω) (t : Packed α) : Packed α × List ω :=
  compactLoop visit t.count 0 t.slots

variable {t : Packed α} {k : Nat}

@[simp] theorem length_entries : t.entries.length = t.count := by simp [entries]

theorem getElem?_entries (t : Packed α) (k : Nat) :
    t.entries[k]? = if k < t.count then some (t.slots k) else none := by
  by_cases h : k < t.count <;> simp [entries, h]

theorem getElem?_entries_of_lt (h : k < t.count) : t.entries[k]? = some (t.slots k) := by
  rw [getElem?_entries, if_pos h]

theorem entries_modify (k : Nat) (f : α → α) (t : Packed α) :
    (t.modify k f).entries = t.entries.modify k f := by
  apply List.ext_getElem?
  intro j
  rw [getElem?_entries, List.getElem?_modify, getElem?_entries, modify]
  by_cases hkj : k = j
  · subst hkj
    by_cases hk : k < t.count <;> simp [hk]
  · have hjk : j ≠ k := fun h => hkj h.symm
    by_cases hj : j < t.count <;> simp [hj, hkj, hjk]

/-- An index behind the last entry removes the last one. -/
theorem entries_remove (hpos : 0 < t.count) (i : Nat) :
    (t.remove i).entries = t.entries.eraseIdx (min i (t.count - 1)) := by
  apply List.ext_getElem?
  intro j
  rw [getElem?_entries, List.getElem?_eraseIdx, getElem?_entries, getElem?_entries]
  simp only [remove, shiftDown]
  by_cases hlast : j < t.count - 1
  · by_cases hi : i ≤ j
    · have hmin : ¬ j < min i (t.count - 1) := by omega
      have hnext : j + 1 < t.count := by omega
      simp [hlast, hi, hmin, hnext]
    · have hmin : j < min i (t.count - 1) := by omega
      have hj : j < t.count := by omega
      simp [hlast, hi, hmin, hj]
  · have hmin : ¬ j < min i (t.count - 1) := by omega
    have hnext : ¬ j + 1 < t.count := by omega
    simp [hlast, hmin, hnext]

/-- Two entries may be removed for one another if all are alike from the one to the other. -/
theorem eraseIdx_eq_eraseIdx_iff {l : List α} {m k : Nat} (hm : m ≤ k) :
    l.eraseIdx m = l.eraseIdx k ↔ ∀ j, m ≤ j → j < k → l[j]? = l[k]? := by
  constructor
  · intro heq
    have hnext : ∀ j, m ≤ j → j < k → l[j]? = l[j + 1]? := by
      intro j hmj hjk
      have hat : (l.eraseIdx m)[j]? = (l.eraseIdx k)[j]? := by rw [heq]
      rw [List.getElem?_eraseIdx_of_ge hmj, List.getElem?_eraseIdx_of_lt hjk] at hat
      exact hat.symm
    intro j hmj hjk
    -- the induction goes up from `j`, along the equal neighbours
    have hchain : ∀ i, j ≤ i → i ≤ k → l[j]? = l[i]? := by
      intro i hji
      induction hji with
      | refl => exact fun _ => rfl
      | @step i hji ih =>
          have hle : j ≤ i := hji
          exact fun hik => (ih (by omega)).trans (hnext i (by omega) (by omega))
    exact hchain k (by omega) (Nat.le_refl k)
  · intro halike
    apply List.ext_getElem?
    intro j
    rw [List.getElem?_eraseIdx, List.getElem?_eraseIdx]
    by_cases hjm : j < m
    · rw [if_pos hjm, if_pos (by omega)]
    · by_cases hjk : j < k
      · rw [if_neg hjm, if_pos hjk, halike j (by omega) hjk]
        by_cases hlast : j + 1 = k
        · rw [hlast]
        · exact halike (j + 1) (by omega) (by omega)
      · rw [if_neg hjm, if_neg hjk]

/-! ## The loop -/

section Loop

/-- The entries that the loop still has to visit. -/
def segment (slots : Nat → α) (i left : Nat) : List α :=
  (List.range left).map fun k => slots (i + k)

theorem segment_succ (slots : Nat → α) (i left : Nat) :
    segment slots i (left + 1) = slots i :: segment slots (i + 1) left := by
  simp only [segment, List.range_succ_eq_map, List.map_cons, List.map_map, Nat.add_zero,
    List.cons.injEq, true_and]
  apply List.map_congr_left
  intro k _
  simp only [Function.comp_apply]
  congr 1
  omega

theorem segment_congr {slots slots' : Nat → α} {i i' left : Nat}
    (h : ∀ k < left, slots (i + k) = slots' (i' + k)) :
    segment slots i left = segment slots' i' left := by
  apply List.map_congr_left
  intro k hk
  exact h k (List.mem_range.mp hk)

theorem segment_shiftDown (slots : Nat → α) (i left : Nat) :
    segment (shiftDown i (i + left) slots) i left = segment slots (i + 1) left := by
  apply segment_congr
  intro k hk
  simp only [shiftDown]
  rw [if_pos ⟨by omega, by omega⟩]
  congr 1
  omega

theorem entries_shiftDown (slots : Nat → α) (i last : Nat) :
    (⟨shiftDown i last slots, i⟩ : Packed α).entries = (⟨slots, i⟩ : Packed α).entries := by
  apply List.map_congr_left
  intro k hk
  have hlt : k < i := List.mem_range.mp hk
  simp only [shiftDown]
  rw [if_neg (by omega)]

theorem entries_update (slots : Nat → α) (i : Nat) (a : α) :
    (⟨Function.update slots i a, i + 1⟩ : Packed α).entries =
      (⟨slots, i⟩ : Packed α).entries ++ [a] := by
  simp only [entries, List.range_succ, List.map_append, List.map_cons, List.map_nil,
    Function.update_self]
  congr 1
  apply List.map_congr_left
  intro k hk
  exact Function.update_of_ne (Nat.ne_of_lt (List.mem_range.mp hk)) a slots

theorem entries_compactLoop (visit : α → Option α × List ω) (left i : Nat) (slots : Nat → α) :
    (compactLoop visit left i slots).1.entries =
      (⟨slots, i⟩ : Packed α).entries ++ (segment slots i left).filterMap (visit · |>.1) := by
  induction left generalizing i slots with
  | zero => simp [compactLoop, segment]
  | succ left ih =>
      rw [compactLoop, segment_succ]
      cases hvisit : visit (slots i) with
      | mk kept out =>
          cases kept with
          | none =>
              have hentries := ih i (shiftDown i (i + left) slots)
              rw [segment_shiftDown, entries_shiftDown] at hentries
              rw [List.filterMap_cons_none (by rw [hvisit])]
              exact hentries
          | some a =>
              have hentries := ih (i + 1) (Function.update slots i a)
              have hrest : segment (Function.update slots i a) (i + 1) left =
                  segment slots (i + 1) left :=
                segment_congr fun k _ => Function.update_of_ne (by omega) a slots
              rw [hrest, entries_update, List.append_assoc] at hentries
              rw [List.filterMap_cons_some (by rw [hvisit])]
              exact hentries

theorem entries_compact (visit : α → Option α × List ω) (t : Packed α) :
    (t.compact visit).1.entries = t.entries.filterMap (visit · |>.1) := by
  have h := entries_compactLoop visit t.count 0 t.slots
  simpa [compact, entries, segment] using h

end Loop

end Packed

end OxyC.Foundation
