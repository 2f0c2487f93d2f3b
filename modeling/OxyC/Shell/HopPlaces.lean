import OxyC.Shell.Prompt

/-!
# Where the shell is and where it was

The shell keeps two texts, `dir_name` and `last_dir`; what they stand for is the
current directory and the one before it.  A hop is a move between such places,
whatever the texts are, except that `handle_hop` may come upon a `~` in
`last_dir` that it wrote itself.
-/

namespace OxyC.Shell

open OxyC.Foundation

/-- The current directory, and the one that `hop -` leads to. -/
structure Whereabouts (δ : Type) where
  cwd : δ
  last : Option δ
  deriving DecidableEq

section Site

variable {δ : Type} (S : Site δ)

def LastNames (text : List Char) : Option δ → Prop
  | none => text = []
  | some d => Names S text d

/-- The session is at the place: its texts stand for the directories. -/
structure At (s : Session δ) (p : Whereabouts δ) : Prop where
  cwd : s.cwd = p.cwd
  dirName : Names S s.dirName p.cwd
  lastDir : LastNames S s.lastDir p.last

/-- The session is at some place, and the path of the current directory is not too long. -/
structure Somewhere (s : Session δ) : Prop where
  located : Located S s
  place : ∃ p, At S s p

/-- What `handle_hop` does first. -/
def normal (s : Session δ) : Session δ :=
  { s with lastDir := if s.lastDir = ['~'] then S.shellHome else s.lastDir }

def abbreviated (s : Session δ) : Session δ := { s with dirName := abbreviate S s.dirName }

namespace Whereabouts

def heads (target : List Char) (p : Whereabouts δ) : Option δ :=
  if target = ['~'] ∨ target = S.shellHome then S.tree.chdir p.cwd S.shellHome
  else if target = ['-'] then p.last.bind fun d => S.tree.chdir p.cwd (S.tree.path d)
  else S.tree.chdir p.cwd target

/-- The move to a directory; `none` where its path does not fit into `dir_name`. -/
def arrive (p : Whereabouts δ) : Option δ → Option (Whereabouts δ)
  | none => some p
  | some d => if (S.tree.path d).length < dirNameSize then some ⟨d, some p.cwd⟩ else none

def goTo (target : List Char) (p : Whereabouts δ) : Option (Whereabouts δ) := p.arrive S (p.heads S target)

end Whereabouts

def hopOnce (target : List Char) : Command := .hop false ["hop".toList, target]

variable {S} {s s' : Session δ} {p q : Whereabouts δ} {out : List (Output δ)} {target text : List Char}
  {d d' : δ}

theorem LastNames.unique {last last' : Option δ} (h : LastNames S text last)
    (h' : LastNames S text last') : last = last' := by
  cases last with
  | none =>
      cases last' with
      | none => rfl
      | some d' => exact absurd h (Names.ne_nil h')
  | some d =>
      cases last' with
      | none => exact absurd h' (Names.ne_nil h)
      | some d' => exact congrArg some (Names.unique h h')

theorem At.unique (h : At S s p) (h' : At S s q) : p = q := by
  have hcwd : p.cwd = q.cwd := h.cwd.symm.trans h'.cwd
  have hlast : p.last = q.last := h.lastDir.unique h'.lastDir
  cases p
  cases q
  simp_all

theorem at_opening : At S S.opening ⟨S.home, none⟩ := ⟨rfl, .inr ⟨rfl, rfl⟩, rfl⟩

theorem At.normal (h : At S s p) : At S (normal S s) p where
  cwd := h.cwd
  dirName := h.dirName
  lastDir := by
    have hlast := h.lastDir
    simp only [OxyC.Shell.normal]
    split
    next htilde =>
        rw [htilde] at hlast
        cases hp : p.last with
        | none =>
            rw [hp] at hlast
            cases hlast
        | some d =>
            rw [hp] at hlast
            have hhome : d = S.home := Names.unique hlast (.inr ⟨rfl, rfl⟩)
            rw [hhome]
            exact .inl rfl
    next => exact hlast

theorem At.abbreviated (h : At S s p) : At S (abbreviated S s) p where
  cwd := h.cwd
  dirName := h.dirName.abbreviate
  lastDir := h.lastDir

/-! ## Targets -/

theorem dash_not_home : ¬ (['-'] = ['~'] ∨ ['-'] = S.shellHome) := by
  rintro (heq | heq)
  · cases heq
  · exact DirTree.path_ne_of_head (c := '-') rfl (by decide) heq.symm

theorem at_hopTarget (h : At S s p) (target : List Char) :
    Option.Rel (fun x q => At S x.1 q) (hopTarget S target s)
      (p.arrive S (enters S target s)) := by
  cases henters : enters S target s with
  | none =>
      obtain ⟨out, hstep⟩ := hopTarget_of_none henters
      rw [hstep]
      exact .some h
  | some d =>
      obtain ⟨out, hstep⟩ := hopTarget_of_some henters
      rw [hstep, Whereabouts.arrive]
      split
      next hfits =>
          refine .some ⟨rfl, (located_entered hfits).named, ?_⟩
          exact h.dirName
      next => exact .none

/-- Where `last_dir` is not the text `~`, the texts lead where the places do. -/
theorem enters_eq (h : At S s p) (hlast : target = ['-'] → s.lastDir ≠ ['~']) :
    enters S target s = p.heads S target := by
  unfold enters Whereabouts.heads
  rw [h.cwd]
  split
  next => rfl
  next =>
      split
      next hback =>
          have hnames := h.lastDir
          cases hp : p.last with
          | none =>
              rw [hp] at hnames
              exact if_pos hnames
          | some d =>
              rw [hp] at hnames
              rw [if_neg (Names.ne_nil hnames), Option.bind_some]
              rcases hnames with hpath | ⟨htilde, -⟩
              · rw [hpath]
              · exact absurd htilde (hlast hback)
      next => rfl

theorem normal_lastDir_ne : (normal S s).lastDir ≠ ['~'] := by
  unfold normal
  split
  next => exact shellHome_ne_tilde
  next hne => exact hne

/-! ## Commands -/

theorem execute_hop (argv : List (List Char)) (s : Session δ) :
    execute S (.hop false argv) s =
      ((hopTargets S).run argv.tail (normal S s)).map fun x => (abbreviated S x.1, x.2) := rfl

/-- At the prompt `hop` with one target is the move that it is for. -/
theorem at_hopOnce (h : At S s p) (target : List Char) :
    Option.Rel (fun x q => At S x.1 q) (execute S (hopOnce target) s) (p.goTo S target) := by
  have hstep := at_hopTarget h.normal target
  rw [enters_eq h.normal fun _ => normal_lastDir_ne] at hstep
  rw [hopOnce, execute_hop, Whereabouts.goTo]
  simp only [List.tail_cons, Mealy.run, hopTargets, Option.bind_eq_bind, Option.pure_def,
    Option.bind_some]
  generalize hopTarget S target (normal S s) = x at hstep ⊢
  generalize p.arrive S (p.heads S target) = y at hstep ⊢
  cases hstep with
  | none => exact .none
  | some hat => exact .some hat.abbreviated

theorem at_run_hopTargets (targets : List (List Char)) (h : At S s p)
    (hrun : (hopTargets S).run targets s = some (s', out)) : ∃ q, At S s' q := by
  refine (hopTargets S).run_invariant (P := fun s => ∃ q, At S s q) ?_ ⟨p, h⟩ hrun
  rintro target s s' out ⟨p, hs⟩ hstep
  have hrel := at_hopTarget hs target
  have hstep' : hopTarget S target s = some (s', out) := hstep
  rw [hstep'] at hrel
  cases harrive : p.arrive S (enters S target s) with
  | none =>
      rw [harrive] at hrel
      cases hrel
  | some q =>
      rw [harrive] at hrel
      cases hrel with
      | some hat => exact ⟨q, hat⟩

theorem somewhere_opening : Somewhere S S.opening := ⟨located_opening, _, at_opening⟩

theorem Somewhere.execute {c : Command} (h : Somewhere S s)
    (hstep : execute S c s = some (s', out)) : Somewhere S s' := by
  refine ⟨(traced_execute c).keeps s s' out h.located hstep, ?_⟩
  obtain ⟨p, hp⟩ := h.place
  cases c with
  | hop replayed argv =>
      cases replayed with
      | true => exact at_run_hopTargets argv.tail hp.normal hstep
      | false =>
          obtain ⟨x, hrun, heq⟩ := Option.map_eq_some_iff.mp ((execute_hop argv s).symm.trans hstep)
          cases heq
          obtain ⟨q, hq⟩ := at_run_hopTargets argv.tail hp.normal hrun
          exact ⟨q, hq.abbreviated⟩
  | reveal argv =>
      obtain ⟨out', hreveal, -⟩ := reveal_spec h.located argv
      rw [OxyC.Shell.execute, hreveal] at hstep
      cases hstep
      exact ⟨p, hp.cwd, hp.dirName, hp.lastDir⟩

theorem Somewhere.run {commands : List Command} {outs : List (Output δ)} (h : Somewhere S s)
    (hrun : (commandLoop S).run commands s = some (s', outs)) : Somewhere S s' :=
  (commandLoop S).run_invariant (fun _ _ _ _ hs hstep => hs.execute hstep) h hrun

end Site

end OxyC.Shell
