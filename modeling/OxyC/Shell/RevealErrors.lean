import OxyC.Shell.Prompt

/-!
# The errors of a reveal

`assign_pathname` reports a second name, or a `-` that stands for nothing, and
returns.  Its callers cannot tell and open what stands in `pathname` by then.
-/

namespace OxyC.Shell

open OxyC.Foundation

/-- The functions that call `assign_pathname` and then `handle_reveal`. -/
inductive RevealSite where
  | main
  | doInBg
  | executeFn
  | executeString
  | executeCommand
  | executePipeline
  | executeSequential
  deriving DecidableEq, Repr

/-- Two of them write an empty line first. -/
def RevealSite.newline : RevealSite → Bool
  | .doInBg => true
  | .executeSequential => true
  | _ => false

section Site

variable {δ : Type} (S : Site δ)

/-- The branch for `reveal`, with the session of the process that runs it. -/
def RevealSite.call (site : RevealSite) (argv : List (List Char)) (s : Session δ) :
    Option (Session δ × List (Output δ)) :=
  (reveal S argv s).map fun x => (x.1, if site.newline then .text ['\n'] :: x.2 else x.2)

/-- An error that `assign_pathname` reports is the end of the command. -/
def FailsCleanly (site : RevealSite) (argv : List (List Char)) (s : Session δ) : Prop :=
  ∀ p errors, assignPathname S argv s = some (p, errors) → errors ≠ [] →
    ∃ s' out, site.call S argv s = some (s', out) ∧ listed out = [] ∧
      s'.prevDirReveal = s.prevDirReveal

/--
The names are in order, or what the first of them stands for cannot be opened; a `-` without a
directory before leaves the current one.
-/
def NothingToOpen (s : Session δ) : List (List Char) → Prop
  | [] => True
  | name :: more =>
      match meant S s name with
      | none => S.tree.opendir s.cwd (currentDir S s) = none
      | some text => more = [] ∨ S.tree.opendir s.cwd text = none

instance [DecidableEq δ] (s : Session δ) (given : List (List Char)) :
    Decidable (NothingToOpen S s given) :=
  match given with
  | [] => .isTrue trivial
  | name :: more =>
      match h : meant S s name with
      | none =>
          decidable_of_iff (S.tree.opendir s.cwd (currentDir S s) = none)
            (by rw [NothingToOpen, h])
      | some text =>
          decidable_of_iff (more = [] ∨ S.tree.opendir s.cwd text = none)
            (by rw [NothingToOpen, h])

variable {S} {s : Session δ} {argv : List (List Char)}

theorem nothingToOpen_iff (s : Session δ) (given : List (List Char)) :
    NothingToOpen S s given ↔
      ((pathnameOf S s given).2 ≠ [] → S.tree.opendir s.cwd (pathnameOf S s given).1 = none) := by
  cases given with
  | nil => simp [NothingToOpen, pathnameOf]
  | cons name more =>
      rw [NothingToOpen, pathnameOf]
      cases meant S s name with
      | none => simp
      | some text => by_cases hmore : more = [] <;> simp [hmore]

theorem call_spec (h : Located S s) (site : RevealSite) (argv : List (List Char)) :
    ∃ s' out, site.call S argv s = some (s', out) ∧
      listed out = (revealed S s argv).toList ∧
      (revealed S s argv = none → s'.prevDirReveal = s.prevDirReveal) := by
  obtain ⟨out, hreveal, hlisted⟩ := reveal_spec h argv
  rw [RevealSite.call, hreveal, Option.map_some]
  refine ⟨_, _, rfl, ?_, fun hnone => ?_⟩
  · split
    · exact hlisted
    · exact hlisted
  · simp [hnone]

theorem failsCleanly_iff (h : Located S s) (site : RevealSite) (argv : List (List Char)) :
    FailsCleanly S site argv s ↔
      ((pathnameOf S s (namesGiven argv)).2 ≠ [] → revealed S s argv = none) := by
  obtain ⟨p, hassign, -, -⟩ := assignPathname_eq h argv
  obtain ⟨s', out, hcall, hlisted, hprev⟩ := call_spec h site argv
  constructor
  · intro hclean herrors
    obtain ⟨t, outs, hstep, hnone, -⟩ := hclean p _ hassign herrors
    rw [hcall] at hstep
    cases hstep
    rw [hlisted, Option.toList_eq_nil_iff] at hnone
    exact hnone
  · intro hnone p' errors hassign' herrors
    rw [hassign] at hassign'
    cases hassign'
    have hrevealed := hnone herrors
    refine ⟨s', out, hcall, ?_, hprev hrevealed⟩
    rw [hlisted, hrevealed]
    rfl

/-- At every call an error is the end of the command exactly if there is nothing to open. -/
theorem reveal_errors_iff (S : Site δ) (site : RevealSite) (argv : List (List Char))
    {commands : List Command} {outs : List (Output δ)}
    (hreached : (commandLoop S).run commands S.opening = some (s, outs)) :
    FailsCleanly S site argv s ↔ NothingToOpen S s (namesGiven argv) := by
  have h : Located S s := located_opening.run hreached
  rw [failsCleanly_iff h, nothingToOpen_iff]
  rfl

end Site

/-- `reveal x y` in a tree without a directory `x`. -/
theorem reveal_errors_nowhere :
    FailsCleanly homeBelowRoot .main ["reveal".toList, ['x'], ['y']] homeBelowRoot.opening :=
  (reveal_errors_iff homeBelowRoot .main ["reveal".toList, ['x'], ['y']]
    (show (commandLoop homeBelowRoot).run [] _ = some (_, _) from rfl)).mpr (by decide)

/-- `reveal -l / x` reports the second name and lists the root. -/
theorem reveal_errors_lists :
    assignPathname homeBelowRoot ["reveal".toList, "-l".toList, ['/'], ['x']]
        homeBelowRoot.opening =
      some (⟨['/'], false, true, 2, true⟩, [invalidSyntax]) ∧
    RevealSite.main.call homeBelowRoot ["reveal".toList, "-l".toList, ['/'], ['x']]
        homeBelowRoot.opening =
      some (⟨true, ['~'], [], ['/']⟩, [invalidSyntax, .listing false false true]) ∧
    ∀ site, ¬ FailsCleanly homeBelowRoot site ["reveal".toList, "-l".toList, ['/'], ['x']]
      homeBelowRoot.opening := by
  refine ⟨rfl, rfl, fun site => ?_⟩
  rw [failsCleanly_iff located_opening]
  exact fun h => absurd (h (by decide)) (by decide)

end OxyC.Shell
