import OxyC.Shell.HopPlaces

/-!
# The directory revealed before

`handle_reveal` keeps the text that it opened for `reveal -`.  A path leads to the
same directory from anywhere; a name is kept as it was given, and hops may stand
between the two commands.
-/

namespace OxyC.Shell

open OxyC.Foundation

section Site

variable {δ : Type} (S : Site δ)

def revealBack : Command := .reveal ["reveal".toList, ['-']]

/-- `reveal -` lists the directory and no other. -/
def RevealsAgain (s : Session δ) (d : δ) : Prop :=
  ∃ s' out, execute S revealBack s = some (s', out) ∧ listed out = [d]

variable {S} {s s' s₀ s₁ : Session δ} {out : List (Output δ)} {argv : List (List Char)} {d : δ}

/-! ## What a command leaves in `prev_dir_reveal` -/

theorem handleHop_prevDirReveal (hstep : handleHop S argv s = some (s', out)) :
    s'.prevDirReveal = s.prevDirReveal := by
  refine (hopTargets S).run_invariant (P := fun t => t.prevDirReveal = s.prevDirReveal) ?_
    (s := { s with lastDir := if s.lastDir = ['~'] then S.shellHome else s.lastDir }) rfl hstep
  intro target t t' out ht hstep
  have hstep' : hopTarget S target t = some (t', out) := hstep
  cases henters : enters S target t with
  | none =>
      obtain ⟨out', heq⟩ := hopTarget_of_none henters
      rw [heq] at hstep'
      cases hstep'
      exact ht
  | some d =>
      obtain ⟨-, rfl⟩ := hopTarget_entered henters hstep'
      exact ht

theorem execute_quiet {c : Command} (h : Located S s)
    (hstep : execute S c s = some (s', out)) (hquiet : listed out = []) :
    s'.prevDirReveal = s.prevDirReveal := by
  cases c with
  | hop replayed argv =>
      cases replayed with
      | true => exact handleHop_prevDirReveal hstep
      | false =>
          obtain ⟨⟨t, out'⟩, hhop, heq⟩ := Option.map_eq_some_iff.mp hstep
          cases heq
          have hsame : t.prevDirReveal = s.prevDirReveal := handleHop_prevDirReveal hhop
          exact hsame
  | reveal argv =>
      obtain ⟨out', hreveal, hlisted⟩ := reveal_spec h argv
      rw [execute, hreveal] at hstep
      cases hstep
      rw [hquiet] at hlisted
      cases hopen : revealed S s argv with
      | none => rfl
      | some d =>
          rw [hopen] at hlisted
          cases hlisted

/-- Commands that list nothing keep what the last one that did has stored. -/
theorem run_quiet {commands : List Command} {outs : List (Output δ)} (h : Located S s)
    (hrun : (commandLoop S).run commands s = some (s', outs)) (hquiet : listed outs = []) :
    s'.prevDirReveal = s.prevDirReveal := by
  induction commands generalizing s outs with
  | nil =>
      cases hrun
      rfl
  | cons c commands ih =>
      obtain ⟨t, out, rest, hstep, hrest, rfl⟩ := (commandLoop S).run_cons_eq_some.mp hrun
      obtain ⟨hout, hrest'⟩ : listed out = [] ∧ listed rest = [] := by
        rwa [listed, List.filterMap_append, List.append_eq_nil_iff] at hquiet
      have ht : Located S t := (traced_execute c).keeps s t out h hstep
      rw [ih ht hrest hrest', execute_quiet h hstep hout]

/-! ## `reveal -` -/

theorem pathnameOf_dash (hstored : s.prevDirReveal ≠ []) :
    pathnameOf S s (namesGiven ["reveal".toList, ['-']]) = (s.prevDirReveal, []) := by
  have hnames : namesGiven ["reveal".toList, ['-']] = [['-']] := by decide
  rw [hnames, pathnameOf, meant, if_pos rfl, if_pos hstored]
  rfl

theorem revealsAgain_iff (h : Located S s) (hstored : s.prevDirReveal ≠ []) :
    RevealsAgain S s d ↔ S.tree.opendir s.cwd s.prevDirReveal = some d := by
  obtain ⟨out, hreveal, hlisted⟩ := reveal_spec h ["reveal".toList, ['-']]
  rw [revealed, pathnameOf_dash hstored] at hlisted
  constructor
  · rintro ⟨s', out', hstep, hd⟩
    rw [revealBack, execute, hreveal] at hstep
    cases hstep
    rw [hd] at hlisted
    cases hopen : S.tree.opendir s.cwd s.prevDirReveal with
    | none =>
        rw [hopen] at hlisted
        cases hlisted
    | some d' =>
        rw [hopen] at hlisted
        cases hlisted
        rfl
  · intro hopen
    rw [hopen] at hlisted
    exact ⟨_, out, hreveal, hlisted⟩

/-- A directory that was listed was opened under the text that is kept. -/
theorem opendir_of_listed (h : Located S s₀)
    (hstep : execute S (.reveal argv) s₀ = some (s₁, out)) (hd : d ∈ listed out) :
    S.tree.opendir s₀.cwd s₁.prevDirReveal = some d := by
  obtain ⟨out', hreveal, hlisted⟩ := reveal_spec h argv
  rw [execute, hreveal] at hstep
  cases hstep
  rw [hlisted, Option.mem_toList] at hd
  simp only [Option.mem_def.mp hd, Option.isSome_some, if_true]
  exact hd

theorem opendir_absolute {t : List Char} (ht : t.head? = some '/') (d d' : δ) :
    S.tree.opendir d t = S.tree.opendir d' t := by
  rw [DirTree.opendir, DirTree.opendir, S.tree.lookup_absolute ht d d']

/--
Behind any commands that list nothing `reveal -` lists the last directory again exactly if the
text that was kept is a path, or a name that leads from both current directories to the same one.
No directory has an empty name.
-/
theorem reveal_again_iff (S : Site δ) (hempty : ∀ d, S.tree.opendir d [] = none)
    {before after : List Command} {outs₀ outs : List (Output δ)}
    (hreached : (commandLoop S).run before S.opening = some (s₀, outs₀))
    (hreveal : execute S (.reveal argv) s₀ = some (s₁, out)) (hlisted : d ∈ listed out)
    (hafter : (commandLoop S).run after s₁ = some (s, outs)) (hquiet : listed outs = []) :
    RevealsAgain S s d ↔ s₁.prevDirReveal.head? = some '/' ∨
      S.tree.opendir s.cwd s₁.prevDirReveal = S.tree.opendir s₀.cwd s₁.prevDirReveal := by
  have h₀ : Located S s₀ := located_opening.run hreached
  have h₁ : Located S s₁ := (traced_execute (.reveal argv)).keeps s₀ s₁ out h₀ hreveal
  have hopened := opendir_of_listed h₀ hreveal hlisted
  have hstored : s₁.prevDirReveal ≠ [] := by
    intro hnil
    rw [hnil, hempty] at hopened
    cases hopened
  have hkept : s.prevDirReveal = s₁.prevDirReveal := run_quiet h₁ hafter hquiet
  rw [revealsAgain_iff (h₁.run hafter) (hkept ▸ hstored), hkept, hopened]
  constructor
  · exact .inr
  · rintro (hpath | hname)
    · rw [opendir_absolute hpath s.cwd s₀.cwd, hopened]
    · exact hname

end Site

def revealName (name : List Char) : Command := .reveal ["reveal".toList, name]

/-- The parent is revealed by `..`, and once more from the parent itself. -/
theorem reveal_again_parent : RevealsAgain homeBelowRoot ⟨false, ['/'], ['~'], ['/']⟩ false :=
  (reveal_again_iff homeBelowRoot (by decide)
    (show (commandLoop homeBelowRoot).run [] _ = some (_, _) from rfl)
    (show execute homeBelowRoot (revealName "..".toList) _ = some (_, _) from rfl) (by decide)
    (show (commandLoop homeBelowRoot).run [hopOnce ['/']] _ = some (_, _) from rfl)
    (by decide)).mpr (by decide)

/-- From the root `reveal h` lists `/h`; behind `hop h` the name leads nowhere. -/
theorem reveal_again_fails :
    ∃ s₀ outs₀ s₁ out s outs,
      (commandLoop homeBelowRoot).run [hopOnce ['/']] homeBelowRoot.opening = some (s₀, outs₀) ∧
      execute homeBelowRoot (revealName ['h']) s₀ = some (s₁, out) ∧ listed out = [true] ∧
      (commandLoop homeBelowRoot).run [hopOnce ['h']] s₁ = some (s, outs) ∧ listed outs = [] ∧
      execute homeBelowRoot revealBack s = some (s, [noSuchDirectory]) ∧
      ¬ RevealsAgain homeBelowRoot s true := by
  refine ⟨_, _, _, _, ⟨true, ['~'], ['/'], ['h']⟩, [], rfl, rfl, rfl, rfl, rfl, rfl, ?_⟩
  rintro ⟨s', out, hstep, hd⟩
  have hlost : execute homeBelowRoot revealBack ⟨true, ['~'], ['/'], ['h']⟩ =
      some (⟨true, ['~'], ['/'], ['h']⟩, [noSuchDirectory]) := rfl
  rw [hlost] at hstep
  cases hstep
  cases hd

end OxyC.Shell
