import Mathlib.Data.List.Infix
import Mathlib.Data.Option.Basic

/-!
# Directories

A tree of directories that does not change, as the system calls of a process
show it.  Names, links and permissions are behind `lookup`; only what every tree
keeps to is stated.
-/

namespace OxyC.Foundation

structure DirTree (δ : Type*) where
  /-- The directory that a text leads to from a working directory. -/
  lookup : δ → List Char → Option δ
  enterable : δ → Bool
  readable : δ → Bool
  path : δ → List Char
  path_injective : Function.Injective path
  head_path : ∀ d, (path d).head? = some '/'
  /-- From where an absolute text is looked up does not matter. -/
  lookup_absolute : ∀ {t : List Char}, t.head? = some '/' → ∀ d d', lookup d t = lookup d' t
  eq_of_lookup_path : ∀ {d d' e}, lookup d (path d') = some e → e = d'
  parent_prefix : ∀ {d d'}, lookup d ['.', '.'] = some d' → path d' <+: path d

namespace DirTree

variable {δ : Type*} (T : DirTree δ)

def chdir (d : δ) (t : List Char) : Option δ := (T.lookup d t).filter T.enterable

def opendir (d : δ) (t : List Char) : Option δ := (T.lookup d t).filter T.readable

/-- `none` where the path does not fit: the contents of the buffer are then undefined. -/
def getcwd (size : Nat) (d : δ) : Option (List Char) :=
  if (T.path d).length < size then some (T.path d) else none

variable {T} {d d' e : δ} {t : List Char}

theorem path_ne_nil (d : δ) : T.path d ≠ [] := by
  intro heq
  have hhead := T.head_path d
  rw [heq] at hhead
  cases hhead

theorem path_ne_of_head {c : Char} (h : t.head? = some c) (hc : c ≠ '/') : T.path d ≠ t := by
  intro heq
  have hhead := T.head_path d
  rw [heq, h] at hhead
  exact hc (Option.some.inj hhead)

theorem eq_of_chdir_path (h : T.chdir d (T.path d') = some e) : e = d' :=
  T.eq_of_lookup_path (Option.filter_eq_some_iff.mp h).1

theorem chdir_absolute (h : t.head? = some '/') (d d' : δ) : T.chdir d t = T.chdir d' t := by
  rw [chdir, chdir, T.lookup_absolute h d d']

/-- Where a directory has been entered by its path, it is entered again from anywhere. -/
theorem chdir_path_again (h : T.chdir d (T.path d') = some e) (from_ : δ) :
    T.chdir from_ (T.path d') = some d' := by
  rw [T.chdir_absolute (T.head_path d') from_ d, h, eq_of_chdir_path h]

theorem length_path_parent (h : T.chdir d ['.', '.'] = some d') :
    (T.path d').length ≤ (T.path d).length :=
  (T.parent_prefix (Option.filter_eq_some_iff.mp h).1).length_le

theorem getcwd_of_lt {size : Nat} (h : (T.path d).length < size) :
    T.getcwd size d = some (T.path d) := if_pos h

/-- Every directory can be entered by its path. -/
def Accessible (T : DirTree δ) : Prop := ∀ d d', T.chdir d (T.path d') = some d'

def root : DirTree Unit where
  lookup _ t := if t ∈ [['/'], ['.'], ['.', '.']] then some () else none
  enterable _ := true
  readable _ := true
  path _ := ['/']
  path_injective := fun _ _ _ => rfl
  head_path _ := rfl
  lookup_absolute := fun _ _ _ => rfl
  eq_of_lookup_path := fun _ => rfl
  parent_prefix := fun _ => List.prefix_rfl

/-- The root, `false`, and a directory below it, `true`. -/
def below (name : List Char) (hname : name ≠ [] ∧ name.head? ≠ some '/' ∧ name ≠ ['.', '.']) :
    DirTree Bool where
  lookup d t :=
    if t = '/' :: name ∨ t = name ∧ d = false then some true
    else if t = ['/'] ∨ t = ['.', '.'] then some false else none
  enterable _ := true
  readable _ := true
  path d := if d then '/' :: name else ['/']
  path_injective := by
    intro d d' h
    cases d <;> cases d' <;> simp_all
  head_path d := by cases d <;> rfl
  lookup_absolute := by
    intro t ht d d'
    have hrel : t ≠ name := fun h => hname.2.1 (h ▸ ht)
    simp [hrel]
  eq_of_lookup_path := by
    obtain ⟨hne, hhead, -⟩ := hname
    intro d d' e h
    have hroot : ['/'] ≠ name := fun heq => hhead (heq ▸ rfl)
    cases d' with
    | true => simpa using h.symm
    | false => simpa [hne.symm, hroot] using h.symm
  parent_prefix := by
    obtain ⟨hne, -, hparent⟩ := hname
    intro d d' h
    have hother : ['.', '.'] ≠ name := hparent.symm
    have hroot : d' = false := by simpa [hother] using h.symm
    rw [hroot]
    cases d <;> simp

theorem accessible_below {name : List Char}
    (hname : name ≠ [] ∧ name.head? ≠ some '/' ∧ name ≠ ['.', '.']) :
    (below name hname).Accessible := by
  have hrel : ['/'] ≠ name := fun heq => hname.2.1 (heq ▸ rfl)
  intro d d'
  cases d' with
  | true => simp [chdir, below]
  | false => simp [chdir, below, hrel, Ne.symm hname.1]

end DirTree

end OxyC.Foundation
