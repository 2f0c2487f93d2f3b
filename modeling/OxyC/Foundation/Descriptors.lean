import Mathlib.Data.List.Basic

/-!
# Descriptor tables

The table of a process, with what stands behind each open descriptor.  `open`
and `pipe` hand out the lowest descriptors that are closed.
-/

namespace OxyC.Foundation

variable {δ : Type*}

abbrev Descriptors (δ : Type*) := List (Option δ)

namespace Descriptors

def lookup (fd : Nat) (t : Descriptors δ) : Option δ := t[fd]?.join

def lowest (t : Descriptors δ) : Nat := t.findIdx Option.isNone

def install (fd : Nat) (d : δ) (t : Descriptors δ) : Descriptors δ :=
  if fd < t.length then t.set fd (some d)
  else t ++ List.replicate (fd - t.length) none ++ [some d]

def close (t : Descriptors δ) (fd : Nat) : Descriptors δ := t.set fd none

def dup2 (old new : Nat) (t : Descriptors δ) : Descriptors δ :=
  match t.lookup old with
  | some d => t.install new d
  | none => t

/-- `open`, with the descriptor it returns. -/
def create (d : δ) (t : Descriptors δ) : Nat × Descriptors δ :=
  (t.lowest, t.install t.lowest d)

/-- `pipe`, with the descriptors of its two ends. -/
def pipe (r w : δ) (t : Descriptors δ) : (Nat × Nat) × Descriptors δ :=
  let (fd, t) := t.create r
  let (fd', t) := t.create w
  ((fd, fd'), t)

def closeAll (fds : List Nat) (t : Descriptors δ) : Descriptors δ := fds.foldl close t

section Lookup

variable {t : Descriptors δ}

theorem lookup_install (fd : Nat) (d : δ) (t : Descriptors δ) (i : Nat) :
    (t.install fd d).lookup i = if i = fd then some d else t.lookup i := by
  unfold install lookup
  split
  · rename_i hlt
    rw [List.getElem?_set]
    by_cases hi : i = fd
    · simp [hi, hlt]
    · simp [hi, Ne.symm hi]
  · rename_i hge
    have hlength : (t ++ List.replicate (fd - t.length) none).length = fd := by
      simp
      omega
    by_cases hi : i = fd
    · rw [hi, List.getElem?_append_right (by omega), hlength]
      simp
    · rw [if_neg hi]
      by_cases hlt : i < fd
      · rw [List.getElem?_append_left (by omega)]
        by_cases hold : i < t.length
        · rw [List.getElem?_append_left hold]
        · rw [List.getElem?_append_right (by omega), List.getElem?_replicate,
            List.getElem?_eq_none (by omega)]
          split <;> rfl
      · rw [List.getElem?_eq_none (by simp; omega), List.getElem?_eq_none (by omega)]

@[simp] theorem lookup_close (fd : Nat) (t : Descriptors δ) (i : Nat) :
    (t.close fd).lookup i = if i = fd then none else t.lookup i := by
  unfold close lookup
  rw [List.getElem?_set]
  by_cases hi : i = fd
  · subst hi
    by_cases hlt : i < t.length <;> simp [hlt]
  · simp [hi, Ne.symm hi]

theorem lookup_dup2 {old : Nat} {d : δ} (h : t.lookup old = some d) (new i : Nat) :
    (t.dup2 old new).lookup i = if i = new then some d else t.lookup i := by
  rw [dup2, h]
  exact lookup_install new d t i

theorem lookup_closeAll (fds : List Nat) (t : Descriptors δ) (i : Nat) :
    (t.closeAll fds).lookup i = if i ∈ fds then none else t.lookup i := by
  induction fds generalizing t with
  | nil => simp [closeAll]
  | cons fd fds ih =>
      have hrest := ih (t.close fd)
      rw [closeAll, List.foldl_cons, ← closeAll, hrest, lookup_close]
      by_cases hi : i = fd
      · simp [hi]
      · simp [hi]

theorem lookup_map {ε : Type*} (f : δ → ε) (t : Descriptors δ) (fd : Nat) :
    Descriptors.lookup fd (t.map (Option.map f)) = (t.lookup fd).map f := by
  unfold lookup
  rw [List.getElem?_map]
  cases t[fd]? with
  | none => rfl
  | some d => rfl

theorem lookup_lowest (t : Descriptors δ) : t.lookup t.lowest = none := by
  unfold lookup lowest
  by_cases hlt : t.findIdx Option.isNone < t.length
  · have hnone := List.findIdx_getElem (w := hlt)
    rw [List.getElem?_eq_getElem hlt]
    simpa using hnone
  · rw [List.getElem?_eq_none (Nat.le_of_not_lt hlt)]
    rfl

theorem ne_lowest {fd : Nat} (h : (t.lookup fd).isSome) : fd ≠ t.lowest := by
  rintro rfl
  rw [lookup_lowest] at h
  cases h

theorem lookup_create (d : δ) (t : Descriptors δ) (i : Nat) :
    (t.create d).2.lookup i = if i = (t.create d).1 then some d else t.lookup i :=
  lookup_install _ d t i

theorem lookup_replace {fd : Nat} (h : (t.lookup fd).isSome) (d : δ) (i : Nat) :
    (((t.create d).2.dup2 (t.create d).1 fd).close (t.create d).1).lookup i =
      if i = fd then some d else t.lookup i := by
  have hnew : (t.create d).2.lookup (t.create d).1 = some d := by simp [lookup_create]
  have hfree : t.lookup (t.create d).1 = none := lookup_lowest t
  have hne : fd ≠ (t.create d).1 := ne_lowest h
  rw [lookup_close, lookup_dup2 hnew, lookup_create]
  by_cases hi : i = (t.create d).1
  · rw [if_pos hi, if_neg (by omega), hi, hfree]
  · rw [if_neg hi]
    split
    · rfl
    · rfl

theorem pipe_ne (r w : δ) (t : Descriptors δ) : (t.pipe r w).1.1 ≠ (t.pipe r w).1.2 := by
  have hopen : ((t.create r).2.lookup (t.create r).1).isSome := by simp [lookup_create]
  exact ne_lowest hopen

theorem lookup_pipe (r w : δ) (t : Descriptors δ) (i : Nat) :
    (t.pipe r w).2.lookup i =
      if i = (t.pipe r w).1.2 then some w
      else if i = (t.pipe r w).1.1 then some r
      else t.lookup i := by
  change ((t.create r).2.create w).2.lookup i = _
  rw [lookup_create, lookup_create]
  rfl

theorem lookup_pipe_free (r w : δ) (t : Descriptors δ) :
    t.lookup (t.pipe r w).1.1 = none ∧ t.lookup (t.pipe r w).1.2 = none := by
  have hfirst : t.lookup (t.create r).1 = none := lookup_lowest t
  have hsecond : (t.create r).2.lookup (t.pipe r w).1.2 = none := lookup_lowest _
  have hne : (t.pipe r w).1.2 ≠ (t.create r).1 := (pipe_ne r w t).symm
  rw [lookup_create, if_neg hne] at hsecond
  exact ⟨hfirst, hsecond⟩

theorem lookup_replace_pipe {fd : Nat} (h : (t.lookup fd).isSome) (r w : δ) (i : Nat) :
    ((((t.pipe r w).2.close (t.pipe r w).1.2).dup2 (t.pipe r w).1.1 fd).close
        (t.pipe r w).1.1).lookup i = if i = fd then some r else t.lookup i := by
  have hfree := lookup_pipe_free r w t
  have hne : fd ≠ (t.pipe r w).1.1 ∧ fd ≠ (t.pipe r w).1.2 := by
    constructor <;> rintro rfl <;> simp [hfree] at h
  have hnew : ((t.pipe r w).2.close (t.pipe r w).1.2).lookup (t.pipe r w).1.1 = some r := by
    rw [lookup_close, if_neg (pipe_ne r w t), lookup_pipe, if_neg (pipe_ne r w t), if_pos rfl]
  rw [lookup_close, lookup_dup2 hnew, lookup_close, lookup_pipe]
  by_cases hread : i = (t.pipe r w).1.1
  · rw [if_pos hread, if_neg (by omega), hread, hfree.1]
  · by_cases hwrite : i = (t.pipe r w).1.2
    · have hother : i ≠ fd := by omega
      rw [if_neg hread, if_neg hother, if_pos hwrite, if_neg hother, hwrite, hfree.2]
    · simp only [hread, hwrite, if_false]

end Lookup

end Descriptors

end OxyC.Foundation
