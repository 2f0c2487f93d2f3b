import OxyC.Shell.Hop

/-!
# What a reveal reads

`assign_pathname` reads flags and names in any order; the first name, if there is
one, decides the text that `handle_reveal` opens.
-/

namespace OxyC.Shell

open OxyC.Foundation

/-- A group of flags such as `-al`. -/
def IsFlags (arg : List Char) : Prop := arg.head? = some '-' ∧ 1 < arg.length

instance (arg : List Char) : Decidable (IsFlags arg) := inferInstanceAs (Decidable (_ ∧ _))

def namesGiven (argv : List (List Char)) : List (List Char) :=
  argv.tail.filter fun arg => ¬ IsFlags arg

def invalidSyntax {δ : Type} : Output δ := .text "reveal: Invalid Syntax!\n".toList

def listed {δ : Type} (outs : List (Output δ)) : List δ :=
  outs.filterMap fun
    | .listing d _ _ => some d
    | .text _ => none

section Site

variable {δ : Type} (S : Site δ)

/-- The two ways in which the shell writes a directory down. -/
def Names (text : List Char) (d : δ) : Prop :=
  text = S.tree.path d ∨ (text = ['~'] ∧ d = S.home)

/-- `dir_name` is a name of the current directory. -/
structure Located (s : Session δ) : Prop where
  named : s.dirName = S.tree.path s.cwd ∨ (s.dirName = ['~'] ∧ s.cwd = S.home)
  short : (S.tree.path s.cwd).length < cwdSize

/-- The path of the parent, or of the directory itself where there is no way up. -/
def parentText (s : Session δ) : List Char :=
  match (S.tree.chdir s.cwd (S.tree.path s.cwd)).bind fun d => S.tree.chdir d ['.', '.'] with
  | some d => S.tree.path d
  | none => currentDir S s

/-- The text that a name stands for; `none` for `-` without a previous directory. -/
def meant (s : Session δ) (name : List Char) : Option (List Char) :=
  if name = ['-'] then if s.prevDirReveal ≠ [] then some s.prevDirReveal else none
  else if name = ['~'] then some S.shellHome
  else if name = ['.'] then some (currentDir S s)
  else if name = ['.', '.'] then some (parentText S s)
  else some name

/-- The pathname that the names lead to, and the errors that are reported on the way. -/
def pathnameOf (s : Session δ) : List (List Char) → List Char × List (Output δ)
  | [] => (currentDir S s, [])
  | name :: more =>
      match meant S s name with
      | none => (currentDir S s, [noSuchDirectory])
      | some text => (text, if more = [] then [] else [invalidSyntax])

variable {S} {s s' : Session δ} {p : Assigned δ} {arg text : List Char} {args : List (List Char)}
  {d d' : δ}

theorem path_ne_tilde (d : δ) : S.tree.path d ≠ ['~'] :=
  DirTree.path_ne_of_head (c := '~') rfl (by decide)

theorem shellHome_ne_tilde : S.shellHome ≠ ['~'] := path_ne_tilde S.home

theorem Names.unique (h : Names S text d) (h' : Names S text d') : d = d' := by
  rcases h with rfl | ⟨htilde, rfl⟩
  · rcases h' with heq | ⟨htilde, -⟩
    · exact S.tree.path_injective heq
    · exact absurd htilde (path_ne_tilde d)
  · rcases h' with heq | ⟨-, rfl⟩
    · exact absurd (heq.symm.trans htilde) (path_ne_tilde d')
    · rfl

theorem Names.ne_nil (h : Names S text d) : text ≠ [] := by
  rcases h with rfl | ⟨rfl, -⟩
  · exact DirTree.path_ne_nil d
  · decide

theorem Names.abbreviate (h : Names S text d) : Names S (abbreviate S text) d := by
  unfold OxyC.Shell.abbreviate
  split
  next heq =>
      refine .inr ⟨rfl, ?_⟩
      exact h.unique (.inl heq)
  next => exact h

theorem Located.currentDir_eq (h : Located S s) : currentDir S s = S.tree.path s.cwd := by
  unfold currentDir
  split
  case isTrue htilde =>
    cases h.named with
    | inl hfull =>
        exact absurd (hfull.symm.trans htilde) (path_ne_tilde s.cwd)
    | inr hshort =>
        rw [hshort.2]
        rfl
  case isFalse htilde =>
    cases h.named with
    | inl hfull => exact hfull
    | inr hshort => exact absurd hshort.1 htilde

/-- The way to the parent and back ends where it began. -/
theorem assignParent_eq (h : Located S s) (hcwd : p.cwd = s.cwd)
    (hpath : p.pathname = currentDir S s) :
    assignParent S s p = some { p with pathname := parentText S s } := by
  obtain ⟨pathname, a, l, pathCount, cwd⟩ := p
  obtain rfl : cwd = s.cwd := hcwd
  obtain rfl : pathname = S.tree.path s.cwd := hpath.trans h.currentDir_eq
  simp only [assignParent, parentText, h.currentDir_eq]
  cases hthere : S.tree.chdir s.cwd (S.tree.path s.cwd) with
  | none => rfl
  | some d =>
      obtain rfl := DirTree.eq_of_chdir_path hthere
      rw [Option.bind_some]
      simp only
      cases hup : S.tree.chdir s.cwd ['.', '.'] with
      | none => rfl
      | some d' =>
          have hshort : (S.tree.path d').length < cwdSize :=
            Nat.lt_of_le_of_lt (DirTree.length_path_parent hup) h.short
          simp only [DirTree.getcwd_of_lt hshort, DirTree.chdir_path_again hthere d']
          rfl

/-! ## The loop -/

theorem assignLoop_flags (hflags : IsFlags arg) (s : Session δ) (args : List (List Char))
    (p : Assigned δ) :
    assignLoop S s (arg :: args) p =
      assignLoop S s args
        { p with a := p.a || arg.tail.contains 'a', l := p.l || arg.tail.contains 'l' } := by
  rw [assignLoop]
  exact if_pos hflags

/-- Behind a name flags are read, and a second name ends the loop. -/
theorem assignLoop_named (s : Session δ) (args : List (List Char)) (hcount : p.pathCount = 1) :
    ∃ p', assignLoop S s args p =
        some (p', if args.filter (fun arg => ¬ IsFlags arg) = [] then [] else [invalidSyntax]) ∧
      p'.pathname = p.pathname ∧ p'.cwd = p.cwd := by
  induction args generalizing p with
  | nil => exact ⟨p, rfl, rfl, rfl⟩
  | cons arg args ih =>
      by_cases hflags : IsFlags arg
      · rw [assignLoop_flags hflags, List.filter_cons_of_neg (by simpa using hflags)]
        exact ih hcount
      · refine ⟨{ p with pathCount := p.pathCount + 1 }, ?_, rfl, rfl⟩
        have hname : ¬ (arg.head? = some '-' ∧ 1 < arg.length) := hflags
        have htwo : p.pathCount + 1 > 1 := by omega
        rw [assignLoop, if_neg hname, List.filter_cons_of_pos (by simpa using hflags)]
        simp only [if_pos htwo, List.cons_ne_nil, if_false]
        rfl

theorem assignLoop_name (h : Located S s) (hflags : ¬ IsFlags arg) (hcount : p.pathCount = 0)
    (hcwd : p.cwd = s.cwd) (hpath : p.pathname = currentDir S s) :
    assignLoop S s (arg :: args) p =
      match meant S s arg with
      | none => some ({ p with pathCount := 1 }, [noSuchDirectory])
      | some text => assignLoop S s args { p with pathname := text, pathCount := 1 } := by
  have hname : ¬ (arg.head? = some '-' ∧ 1 < arg.length) := hflags
  have hone : ¬ p.pathCount + 1 > 1 := by omega
  rw [assignLoop, if_neg hname]
  simp only [if_neg hone, meant]
  rw [hcount]
  split
  next hdash =>
      split
      next => rfl
      next => rfl
  next hdash =>
      split
      next => rfl
      next =>
          split
          next => rfl
          next =>
              split
              next =>
                  rw [assignParent_eq (p := { p with pathCount := 0 + 1 }) h hcwd hpath]
                  rfl
              next => rfl

theorem assignLoop_fresh (h : Located S s) (args : List (List Char)) (hcount : p.pathCount = 0)
    (hcwd : p.cwd = s.cwd) (hpath : p.pathname = currentDir S s) :
    ∃ p', assignLoop S s args p =
        some (p', (pathnameOf S s (args.filter fun arg => ¬ IsFlags arg)).2) ∧
      p'.pathname = (pathnameOf S s (args.filter fun arg => ¬ IsFlags arg)).1 ∧
      p'.cwd = s.cwd := by
  induction args generalizing p with
  | nil => exact ⟨p, rfl, hpath, hcwd⟩
  | cons arg args ih =>
      by_cases hflags : IsFlags arg
      · rw [assignLoop_flags hflags, List.filter_cons_of_neg (by simpa using hflags)]
        exact ih hcount hcwd hpath
      · rw [assignLoop_name h hflags hcount hcwd hpath,
          List.filter_cons_of_pos (by simpa using hflags), pathnameOf]
        cases hmeant : meant S s arg with
        | none => exact ⟨_, rfl, hpath, hcwd⟩
        | some text =>
            obtain ⟨p', hloop, hpath', hcwd'⟩ :=
              assignLoop_named (S := S) s args
                (p := { p with pathname := text, pathCount := 1 }) rfl
            exact ⟨p', hloop, hpath', hcwd'.trans hcwd⟩

theorem assignPathname_eq (h : Located S s) (argv : List (List Char)) :
    ∃ p, assignPathname S argv s = some (p, (pathnameOf S s (namesGiven argv)).2) ∧
      p.pathname = (pathnameOf S s (namesGiven argv)).1 ∧ p.cwd = s.cwd :=
  assignLoop_fresh (p := ⟨currentDir S s, false, false, 0, s.cwd⟩) h argv.tail rfl rfl rfl

theorem listed_pathnameOf_append (s : Session δ) (given : List (List Char))
    (outs : List (Output δ)) : listed ((pathnameOf S s given).2 ++ outs) = listed outs := by
  have herrors : listed (pathnameOf S s given).2 = [] := by
    cases given with
    | nil => rfl
    | cons name more =>
        rw [pathnameOf]
        split
        · rfl
        · split <;> rfl
  simp only [listed] at herrors ⊢
  rw [List.filterMap_append, herrors, List.nil_append]

/-- The directory that is listed, if any; errors reported before do not matter. -/
def revealed (S : Site δ) (s : Session δ) (argv : List (List Char)) : Option δ :=
  S.tree.opendir s.cwd (pathnameOf S s (namesGiven argv)).1

theorem reveal_spec (h : Located S s) (argv : List (List Char)) :
    ∃ out, reveal S argv s =
        some ({ s with
          prevDirReveal :=
            if (revealed S s argv).isSome then (pathnameOf S s (namesGiven argv)).1
            else s.prevDirReveal }, out) ∧
      listed out = (revealed S s argv).toList := by
  obtain ⟨p, hassign, hpath, hcwd⟩ := assignPathname_eq h argv
  have hcalls : reveal S argv s =
      some ((handleReveal S (pathnameOf S s (namesGiven argv)).1 p.a p.l s).1,
        (pathnameOf S s (namesGiven argv)).2 ++
          (handleReveal S (pathnameOf S s (namesGiven argv)).1 p.a p.l s).2) := by
    simp only [reveal, hassign, Option.bind_eq_bind, Option.bind_some, hcwd, hpath]
  rw [hcalls, handleReveal]
  cases hopen : revealed S s argv with
  | none =>
      rw [revealed] at hopen
      rw [hopen]
      exact ⟨_, rfl, listed_pathnameOf_append _ _ _⟩
  | some d =>
      rw [revealed] at hopen
      rw [hopen]
      exact ⟨_, rfl, listed_pathnameOf_append _ _ _⟩

end Site

end OxyC.Shell
