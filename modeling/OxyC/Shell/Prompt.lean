import OxyC.Shell.LogExecuteErrors
import OxyC.Shell.Reveal

/-!
# The directory at the prompt

`main` from prompt to prompt, as far as the process itself changes its directory:
by the builtins `hop` and `reveal`, typed or replayed.  All other commands leave
the shell or run in a child.
-/

namespace OxyC.Shell

open OxyC.Foundation

/-- A builtin that the shell process runs with the words `argv`. -/
inductive Command where
  | hop (replayed : Bool) (argv : List (List Char))
  | reveal (argv : List (List Char))

/-- A line at the prompt, with what `get_in` returns for the group of each index. -/
structure Line where
  text : List Char
  fetched : Nat → List Char

def directoryCommand (replayed : Bool) (e : Event) : List Command :=
  match e.place, e.runner, e.group.atoms with
  | .shell, .builtin .hop, [a] => [.hop replayed a.argv]
  | .shell, .builtin .reveal, [a] => [.reveal a.argv]
  | _, _, _ => []

/-- The branch of `log` in `main` that calls `execute_fn`. -/
def callsExecuteFn (a : Atomic (List Char)) : Bool :=
  match a.argv with
  | _ :: verb :: num :: _ => verb = "execute".toList && !LogSite.main.rejects (getNumInt num)
  | _ => false

/-- `execute_fn` dispatches the text from `get_in` as `execute_string` does. -/
def Line.commands (line : Line) : List Command :=
  (typeLine line.text).flatMap fun e =>
    if e.place = .shell ∧ e.runner = .builtin .log ∧ e.group.atoms.any callsExecuteFn then
      (executeString (line.fetched e.index)).flatMap (directoryCommand true)
    else directoryCommand false e

section Site

variable {δ : Type} (S : Site δ)

/-- Only `main` abbreviates `dir_name` behind `handle_hop`. -/
def execute : Command → Session δ → Option (Session δ × List (Output δ))
  | .hop true argv, s => handleHop S argv s
  | .hop false argv, s =>
      (handleHop S argv s).map fun x =>
        ({ x.1 with dirName := abbreviate S x.1.dirName }, x.2)
  | .reveal argv, s => reveal S argv s

def commandLoop : Mealy Command (Output δ) (Session δ) := ⟨execute S⟩

def promptLoop : Mealy Line (Output δ) (Session δ) :=
  ⟨fun line => (commandLoop S).run line.commands⟩

/-- The prompt shows `~` in the directory of the shell, and the path of any other directory. -/
structure Shows (s : Session δ) : Prop where
  home : s.dirName = ['~'] ↔ s.cwd = S.home
  path : s.cwd ≠ S.home → s.dirName = S.tree.path s.cwd

/-! ## What names the directory -/

/-- The directory in which `handle_hop` arrives with a target. -/
def enters (target : List Char) (s : Session δ) : Option δ :=
  if target = ['~'] ∨ target = S.shellHome then S.tree.chdir s.cwd S.shellHome
  else if target = ['-'] then
    if s.lastDir = [] then none else S.tree.chdir s.cwd s.lastDir
  else S.tree.chdir s.cwd target

/-- `dir_name` is written for a directory, in full if `full`, or abbreviated by `main`. -/
inductive Naming (δ : Type) where
  | entered (d : δ) (full : Bool)
  | abbreviated

def Naming.full : Naming δ → Bool
  | .entered _ full => full
  | .abbreviated => false

def Naming.Fits : Naming δ → Prop
  | .entered d _ => (S.tree.path d).length < dirNameSize
  | .abbreviated => True

/-- The first branch of `handle_hop` is the one that does not abbreviate. -/
def targetNamings (target : List Char) (s : Session δ) : List (Naming δ) :=
  (enters S target s).toList.map fun d =>
    .entered d (target = ['~'] ∨ target = S.shellHome)

def hopNamings (argv : List (List Char)) (s : Session δ) : List (Naming δ) :=
  (hopTargets S).trace (targetNamings S) argv.tail
    { s with lastDir := if s.lastDir = ['~'] then S.shellHome else s.lastDir }

def Command.namings : Command → Session δ → List (Naming δ)
  | .hop true argv, s => hopNamings S argv s
  | .hop false argv, s => hopNamings S argv s ++ [.abbreviated]
  | .reveal _, _ => []

def Line.namings (line : Line) (s : Session δ) : List (Naming δ) :=
  (commandLoop S).trace (Command.namings S) line.commands s

/-- All paths fit into `dir_name`, and it is not the last thing done to it to be written in full. -/
structure Harmless (s : Session δ) (line : Line) : Prop where
  fits : ∀ x ∈ line.namings S s, x.Fits S
  last : ∀ x ∈ (line.namings S s).getLast?, x.full = false

/-! ## One target -/

def inFull (s : Session δ) : Bool := s.dirName = S.shellHome

variable {S} {s s' : Session δ} {out : List (Output δ)} {target : List Char} {d : δ}

theorem abbreviate_ne_shellHome (text : List Char) : abbreviate S text ≠ S.shellHome := by
  unfold abbreviate
  split
  case isTrue => exact shellHome_ne_tilde.symm
  case isFalse h => exact h

theorem Located.shows_iff (h : Located S s) : Shows S s ↔ inFull S s = false := by
  have hpath : S.tree.path s.cwd ≠ ['~'] := path_ne_tilde s.cwd
  simp only [inFull, decide_eq_false_iff_not]
  cases h.named with
  | inl hfull =>
      constructor
      · intro hshows heq
        have hcwd : s.cwd = S.home := S.tree.path_injective (hfull.symm.trans heq)
        exact hpath (hfull.symm.trans (hshows.home.mpr hcwd))
      · intro hne
        have hcwd : s.cwd ≠ S.home := by
          intro heq
          rw [hfull, heq] at hne
          exact hne rfl
        refine ⟨iff_of_false ?_ hcwd, fun _ => hfull⟩
        rw [hfull]
        exact hpath
  | inr hshort =>
      refine iff_of_true ⟨iff_of_true hshort.1 hshort.2, fun hcwd => absurd hshort.2 hcwd⟩ ?_
      rw [hshort.1]
      exact shellHome_ne_tilde.symm

theorem hopTarget_of_none (h : enters S target s = none) :
    ∃ out, hopTarget S target s = some (s, out) := by
  unfold enters at h
  unfold hopTarget
  split at h
  case isTrue hhome =>
    rw [if_pos hhome, h]
    exact ⟨_, rfl⟩
  case isFalse hhome =>
    rw [if_neg hhome]
    split at h
    case isTrue hback =>
      rw [if_pos hback]
      split at h
      case isTrue hempty =>
        rw [if_pos hempty]
        exact ⟨_, rfl⟩
      case isFalse hempty =>
        rw [if_neg hempty, h]
        exact ⟨_, rfl⟩
    case isFalse hback =>
      rw [if_neg hback, h]
      exact ⟨_, rfl⟩

def nameFor (S : Site δ) (target : List Char) (d : δ) : List Char :=
  if target = ['~'] ∨ target = S.shellHome then S.tree.path d
  else abbreviate S (S.tree.path d)

theorem hopTarget_of_some (h : enters S target s = some d) :
    ∃ out, hopTarget S target s =
      if (S.tree.path d).length < dirNameSize then
        some ({ s with cwd := d, dirName := nameFor S target d, lastDir := s.dirName }, out)
      else none := by
  unfold enters at h
  unfold hopTarget nameFor DirTree.getcwd
  split at h
  case isTrue hhome =>
    simp only [if_pos hhome, h]
    refine ⟨[], ?_⟩
    split <;> rfl
  case isFalse hhome =>
    simp only [if_neg hhome]
    split at h
    case isTrue hback =>
      split at h
      case isTrue => cases h
      case isFalse hempty =>
        simp only [if_pos hback, if_neg hempty, h]
        refine ⟨[.text (S.tree.path d ++ ['\n'])], ?_⟩
        split <;> rfl
    case isFalse hback =>
      simp only [if_neg hback, h]
      refine ⟨[], ?_⟩
      split <;> rfl

theorem hopTarget_isSome_iff :
    (hopTarget S target s).isSome ↔ ∀ x ∈ targetNamings S target s, x.Fits S := by
  unfold targetNamings
  cases h : enters S target s with
  | none =>
      obtain ⟨out, hstep⟩ := hopTarget_of_none h
      simp [hstep]
  | some d =>
      obtain ⟨out, hstep⟩ := hopTarget_of_some h
      simp only [hstep, Option.toList_some, List.map_cons, List.map_nil,
        List.forall_mem_singleton, Naming.Fits]
      split
      case isTrue hfits => simp [hfits]
      case isFalse hlong => simp [hlong]

theorem hopTarget_entered (h : enters S target s = some d)
    (hstep : hopTarget S target s = some (s', out)) :
    (S.tree.path d).length < dirNameSize ∧
      s' = { s with cwd := d, dirName := nameFor S target d, lastDir := s.dirName } := by
  obtain ⟨out', heq⟩ := hopTarget_of_some h
  rw [heq] at hstep
  split at hstep
  case isTrue hfits =>
    cases hstep
    exact ⟨hfits, rfl⟩
  case isFalse => cases hstep

theorem enters_home (h : enters S target s = some d)
    (htarget : target = ['~'] ∨ target = S.shellHome) : d = S.home := by
  rw [enters, if_pos htarget] at h
  exact DirTree.eq_of_chdir_path h

theorem located_entered (hfits : (S.tree.path d).length < dirNameSize) :
    Located S { s with cwd := d, dirName := nameFor S target d, lastDir := s.dirName } := by
  refine ⟨?_, ?_⟩
  · unfold nameFor
    split
    case isTrue => exact .inl rfl
    case isFalse => exact Names.abbreviate (.inl rfl)
  · simp only [dirNameSize, cwdSize] at hfits ⊢
    omega

theorem inFull_nameFor (h : enters S target s = some d) :
    decide (nameFor S target d = S.shellHome) =
      decide (target = ['~'] ∨ target = S.shellHome) := by
  by_cases htarget : target = ['~'] ∨ target = S.shellHome
  · rw [nameFor, if_pos htarget, enters_home h htarget, decide_eq_true htarget]
    exact decide_eq_true rfl
  · simp only [nameFor, htarget, if_false, abbreviate_ne_shellHome]

theorem traced_hopTarget (target : List Char) :
    Traced (Located S) (Naming.Fits S) (inFull S) Naming.full (hopTarget S target)
      (targetNamings S target) where
  isSome_iff s _ := hopTarget_isSome_iff
  keeps s s' out hs hstep := by
    cases h : enters S target s with
    | none =>
        obtain ⟨out', heq⟩ := hopTarget_of_none h
        rw [heq] at hstep
        cases hstep
        exact hs
    | some d =>
        obtain ⟨hfits, rfl⟩ := hopTarget_entered h hstep
        exact located_entered hfits
  value_eq s s' out hs hstep := by
    unfold targetNamings
    cases h : enters S target s with
    | none =>
        obtain ⟨out', heq⟩ := hopTarget_of_none h
        rw [heq] at hstep
        cases hstep
        rfl
    | some d =>
        obtain ⟨hfits, rfl⟩ := hopTarget_entered h hstep
        exact inFull_nameFor h

/-! ## The builtins -/

theorem traced_handleHop (argv : List (List Char)) :
    Traced (Located S) (Naming.Fits S) (inFull S) Naming.full (handleHop S argv)
      (hopNamings S argv) :=
  ((hopTargets S).traced_run traced_hopTarget argv.tail).before
    (fun _ hs => ⟨hs.named, hs.short⟩) fun _ => rfl

theorem located_abbreviate (h : Located S s) :
    Located S { s with dirName := abbreviate S s.dirName } :=
  ⟨Names.abbreviate h.named, h.short⟩

theorem traced_reveal (argv : List (List Char)) :
    Traced (Located S) (Naming.Fits S) (inFull S) Naming.full (reveal S argv) fun _ => [] := by
  refine .quiet fun s hs => ?_
  obtain ⟨out, hstep, -⟩ := reveal_spec hs argv
  exact ⟨_, out, hstep, ⟨hs.named, hs.short⟩, rfl⟩

theorem traced_execute (c : Command) :
    Traced (Located S) (Naming.Fits S) (inFull S) Naming.full (execute S c)
      (c.namings S) := by
  cases c with
  | hop replayed argv =>
      cases replayed with
      | true => exact traced_handleHop argv
      | false =>
          have hfits : (Naming.abbreviated : Naming δ).Fits S := trivial
          exact (traced_handleHop argv).after hfits (fun _ hs => located_abbreviate hs)
            fun _ _ => decide_eq_false (abbreviate_ne_shellHome _)
  | reveal argv => exact traced_reveal argv

theorem Located.run {commands : List Command} {outs : List (Output δ)} (h : Located S s)
    (hrun : (commandLoop S).run commands s = some (s', outs)) : Located S s' :=
  (commandLoop S).run_invariant (fun c s s' out hs => (traced_execute c).keeps s s' out hs) h hrun

/-! ## From prompt to prompt -/

theorem traced_line (line : Line) :
    Traced (Located S) (Naming.Fits S) (inFull S) Naming.full ((promptLoop S).step line)
      (line.namings S) :=
  (commandLoop S).traced_run traced_execute line.commands

theorem shows_after_iff (line : Line) (hs : Located S s) (hshows : Shows S s) :
    (∃ s' out, (promptLoop S).step line s = some (s', out) ∧ Shows S s') ↔
      Harmless S s line := by
  have htraced := traced_line (S := S) line
  have hshown : ∀ s' out, (promptLoop S).step line s = some (s', out) →
      (Shows S s' ↔ ∀ x ∈ (line.namings S s).getLast?, x.full = false) := by
    intro s' out hstep
    rw [(htraced.keeps s s' out hs hstep).shows_iff, htraced.value_eq s s' out hs hstep,
      hs.shows_iff.mp hshows]
    cases (line.namings S s).getLast? <;> simp
  constructor
  · rintro ⟨s', out, hstep, hshows'⟩
    refine ⟨(htraced.isSome_iff s hs).mp ?_, (hshown s' out hstep).mp hshows'⟩
    rw [hstep]
    rfl
  · intro hharmless
    have hsome := (htraced.isSome_iff s hs).mpr hharmless.fits
    obtain ⟨x, hx⟩ := Option.isSome_iff_exists.mp hsome
    exact ⟨x.1, x.2, hx, (hshown x.1 x.2 hx).mpr hharmless.last⟩

theorem located_opening : Located S S.opening := ⟨.inr ⟨rfl, rfl⟩, S.fits⟩

theorem shows_opening : Shows S S.opening :=
  ⟨iff_of_true rfl rfl, fun h => absurd rfl h⟩

/--
Every prompt shows the directory exactly if no line leaves `dir_name` as the replayed `hop ~`
does, or hops where the path does not fit.
-/
theorem prompt_shows_directory (S : Site δ) (lines : List Line) :
    (promptLoop S).Steadily (Shows S) lines S.opening ↔
      (promptLoop S).Guarded (Harmless S) lines S.opening :=
  (promptLoop S).steadily_iff_guarded
    (fun line s s' out hs hstep => (traced_line line).keeps s s' out hs hstep)
    (fun line _ hs hshows => shows_after_iff line hs hshows) lines located_opening shows_opening

end Site

def rootSite : Site Unit := ⟨DirTree.root, (), by decide⟩

/-- `hop ~`, and the replay of this line from `logs.txt`. -/
def hopHomeTwice : List Line :=
  [⟨"hop ~".toList, fun _ => []⟩, ⟨"log execute 1".toList, fun _ => "hop ~\n".toList⟩]

theorem prompt_shows_directory_replayed :
    LogSite.main.fetch "1".toList (addLog "hop ~".toList ⟨0, 0, fun _ => []⟩)
        (updateLogs (addLog "hop ~".toList ⟨0, 0, fun _ => []⟩)) = some "hop ~\n".toList ∧
      ¬ (promptLoop rootSite).Steadily (Shows rootSite) hopHomeTwice rootSite.opening := by
  refine ⟨by decide, fun h => ?_⟩
  obtain ⟨t, outs, hrun, hname⟩ := (promptLoop rootSite).exists_run hopHomeTwice rootSite.opening
    (fun x => x.1.dirName = ['/']) (by decide)
  have hshows := h.of_run _ hrun
  have htilde := hshows.home.mpr rfl
  rw [of_decide_eq_true hname] at htilde
  cases htilde

end OxyC.Shell
