import OxyC.Shell.Parse
import Mathlib.Data.List.Range
import Mathlib.Data.List.Nodup

/-!
# The dispatch of a command line

The loops of `main`, `do_in_bg` and `execute_sequential` as the list of the
command groups they run.  What a builtin or a program does once it is started
is not part of the list.
-/

namespace OxyC.Shell

inductive Builtin where
  | hop
  | reveal
  | log
  | ping
  | activities
  | fg
  | bg
  deriving DecidableEq, Repr

def Builtin.name : Builtin → List Char
  | .hop => "hop".toList
  | .reveal => "reveal".toList
  | .log => "log".toList
  | .ping => "ping".toList
  | .activities => "activities".toList
  | .fg => "fg".toList
  | .bg => "bg".toList

theorem Builtin.name_injective : Function.Injective Builtin.name := by
  intro b b' h
  cases b <;> cases b' <;> first | rfl | exact absurd h (by decide)

/-- How a group is run: a builtin, `execvp` in a child, `execute_command` or `execute_pipeline`. -/
inductive Runner where
  | builtin (b : Builtin)
  | exec
  | command
  | pipeline
  deriving DecidableEq, Repr

/-- One comparison of `argv[0]`; a plain one asks that there is no redirection. -/
structure Branch where
  builtin : Builtin
  plain : Bool
  deriving DecidableEq, Repr

namespace Atomic

variable {τ : Type*}

def redirected (a : Atomic τ) : Bool := !(a.infiles.isEmpty && a.outfiles.isEmpty)

end Atomic

def Branch.applies (b : Branch) (a : Atomic (List Char)) : Bool :=
  !(b.plain && a.redirected) && a.argv.head? = some b.builtin.name

/-- A chain of comparisons, with the last `else` in `otherwise`. -/
def runSingle (chain : List Branch) (otherwise : Runner) (a : Atomic (List Char)) : Runner :=
  match chain.find? (·.applies a) with
  | some b => .builtin b.builtin
  | none => otherwise

/-- The last two branches of `main` and `do_in_bg`. -/
def execOrCommand (a : Atomic (List Char)) : Runner :=
  if a.redirected then .command else .exec

def mainChain : List Branch :=
  [⟨.hop, true⟩, ⟨.reveal, true⟩, ⟨.log, true⟩, ⟨.ping, false⟩, ⟨.activities, false⟩,
    ⟨.fg, false⟩, ⟨.bg, false⟩]

def bgChain : List Branch :=
  [⟨.hop, true⟩, ⟨.reveal, true⟩, ⟨.log, true⟩, ⟨.fg, false⟩, ⟨.bg, false⟩, ⟨.ping, false⟩,
    ⟨.activities, false⟩]

def sequentialChain : List Branch :=
  [⟨.hop, false⟩, ⟨.reveal, false⟩, ⟨.log, false⟩, ⟨.fg, false⟩, ⟨.bg, false⟩, ⟨.ping, false⟩,
    ⟨.activities, false⟩]

inductive Place where
  | shell
  | background
  deriving DecidableEq, Repr

/-- A group of the command is run once. -/
structure Event where
  place : Place
  index : Nat
  group : CmdGroup (List Char)
  runner : Runner
  deriving DecidableEq, Repr

/-- `execute_sequential`; its loop over all groups runs the group `g` each time. -/
def executeSequential (place : Place) (cmd : ShellCmd (List Char))
    (g : CmdGroup (List Char) × Nat) : List Event :=
  (List.range cmd.groups.length).map fun _ =>
    match g.1.atoms with
    | [a] => ⟨place, g.2, g.1, runSingle sequentialChain .exec a⟩
    | _ => ⟨place, g.2, g.1, .pipeline⟩

/-- The body of the loops over the groups. -/
def dispatchGroup (chain : List Branch) (place : Place) (cmd : ShellCmd (List Char))
    (g : CmdGroup (List Char) × Nat) : List Event :=
  match g.1.atoms with
  | [a] => [⟨place, g.2, g.1, runSingle chain (execOrCommand a) a⟩]
  | _ =>
      if cmd.types.head? = some .semi then executeSequential place cmd g
      else [⟨place, g.2, g.1, .pipeline⟩]

/-- The child of `do_in_bg`. -/
def doInBg (cmd : ShellCmd (List Char)) : List Event :=
  (cmd.groups.zipIdx.take cmd.bgUntil.toNat).flatMap (dispatchGroup bgChain .background cmd)

/-- The loop of a foreground dispatch from group `first` on. -/
def inShell (chain : List Branch) (first : Nat) (cmd : ShellCmd (List Char)) : List Event :=
  (cmd.groups.zipIdx.drop first).flatMap (dispatchGroup chain .shell cmd)

def mainDispatch (cmd : ShellCmd (List Char)) : List Event :=
  if cmd.trailingAmp && cmd.bgUntil != -1 then
    doInBg cmd ++ inShell mainChain cmd.bgUntil.toNat cmd
  else inShell mainChain 0 cmd

def typeLine (line : List Char) : List Event :=
  match parseLine line with
  | some cmd => mainDispatch cmd
  | none => []

example : (typeLine "a & b < f | c".toList).map (fun e => (e.place, e.index, e.runner)) =
    [(.background, 0, .exec), (.shell, 1, .pipeline)] := by decide

/-! ## How often a group is run -/

def repeats (cmd : ShellCmd (List Char)) (g : CmdGroup (List Char)) : Nat :=
  if g.atoms.length = 1 ∨ cmd.types.head? ≠ some .semi then 1 else cmd.groups.length

def groupRunner (chain : List Branch) (g : CmdGroup (List Char)) : Runner :=
  match g.atoms with
  | [a] => runSingle chain (execOrCommand a) a
  | _ => .pipeline

theorem executeSequential_eq (place : Place) (cmd : ShellCmd (List Char))
    {g : CmdGroup (List Char) × Nat} (h : g.1.atoms.length ≠ 1) :
    executeSequential place cmd g =
      List.replicate cmd.groups.length ⟨place, g.2, g.1, .pipeline⟩ := by
  unfold executeSequential
  split
  · rename_i a hatoms
    simp [hatoms] at h
  · rw [List.map_const', List.length_range]

theorem dispatchGroup_eq (chain : List Branch) (place : Place) (cmd : ShellCmd (List Char))
    (g : CmdGroup (List Char) × Nat) :
    dispatchGroup chain place cmd g =
      List.replicate (repeats cmd g.1) ⟨place, g.2, g.1, groupRunner chain g.1⟩ := by
  unfold dispatchGroup groupRunner
  split
  · rename_i a hatoms
    simp [repeats, hatoms]
  · rename_i hatoms
    have hlength : g.1.atoms.length ≠ 1 := by
      intro hone
      obtain ⟨a, ha⟩ := List.length_eq_one_iff.mp hone
      exact hatoms a ha
    split
    · rename_i hsemi
      rw [executeSequential_eq place cmd hlength]
      simp [repeats, hlength, hsemi]
    · rename_i hsemi
      simp [repeats, hsemi]

section Repeat

variable {α : Type*} {r : α → Nat} {l : List α}

theorem length_le_flatMap_replicate (h : ∀ a ∈ l, 0 < r a) :
    l.length ≤ (l.flatMap fun a => List.replicate (r a) a).length := by
  induction l with
  | nil => simp
  | cons a l ih =>
      have ha := h a List.mem_cons_self
      have hl := ih fun b hb => h b (List.mem_cons_of_mem _ hb)
      simp only [List.flatMap_cons, List.length_append, List.length_replicate, List.length_cons]
      omega

theorem flatMap_replicate_eq_self (h : ∀ a ∈ l, 0 < r a) :
    (l.flatMap fun a => List.replicate (r a) a) = l ↔ ∀ a ∈ l, r a = 1 := by
  induction l with
  | nil => simp
  | cons a l ih =>
      have ha := h a List.mem_cons_self
      have hl : ∀ b ∈ l, 0 < r b := fun b hb => h b (List.mem_cons_of_mem _ hb)
      simp only [List.flatMap_cons, List.forall_mem_cons]
      constructor
      · intro heq
        have hlength := congrArg List.length heq
        have hle := length_le_flatMap_replicate hl
        simp only [List.length_append, List.length_replicate, List.length_cons] at hlength
        have hone : r a = 1 := by omega
        rw [hone, List.replicate_one, List.singleton_append, List.cons.injEq] at heq
        exact ⟨hone, (ih hl).mp heq.2⟩
      · intro hones
        rw [hones.1, (ih hl).mpr hones.2]
        rfl

end Repeat

/-! ## Each group once -/

def ran (place : Place) (events : List Event) : List (CmdGroup (List Char) × Nat) :=
  (events.filter (·.place = place)).map fun e => (e.group, e.index)

/-- Each group is run once, in order: the first `bgUntil` in the child, the others in the shell. -/
structure ExecutesOnce (cmd : ShellCmd (List Char)) (events : List Event) : Prop where
  background : ran .background events = cmd.groups.zipIdx.take cmd.bgUntil.toNat
  shell : ran .shell events = cmd.groups.zipIdx.drop cmd.bgUntil.toNat

section Once

variable {cmd : ShellCmd (List Char)} {gs : List (CmdGroup (List Char) × Nat)}

theorem ran_append (place : Place) (events events' : List Event) :
    ran place (events ++ events') = ran place events ++ ran place events' := by
  simp [ran]

theorem ran_loop (chain : List Branch) (place : Place) :
    ran place (gs.flatMap (dispatchGroup chain place cmd)) =
      gs.flatMap fun g => List.replicate (repeats cmd g.1) g := by
  induction gs with
  | nil => rfl
  | cons g gs ih =>
      rw [List.flatMap_cons, ran_append, ih, dispatchGroup_eq]
      simp [ran]

theorem ran_loop_of_ne (chain : List Branch) {place place' : Place} (h : place ≠ place') :
    ran place' (gs.flatMap (dispatchGroup chain place cmd)) = [] := by
  induction gs with
  | nil => rfl
  | cons g gs ih =>
      rw [List.flatMap_cons, ran_append, ih, dispatchGroup_eq]
      simp [ran, h]

theorem repeats_pos {g : CmdGroup (List Char)} (h : g ∈ cmd.groups) : 0 < repeats cmd g := by
  have hpos := List.length_pos_of_mem h
  unfold repeats
  split <;> omega

theorem repeats_pos_of_mem {g : CmdGroup (List Char) × Nat} (h : g ∈ cmd.groups.zipIdx) :
    0 < repeats cmd g.1 := repeats_pos (List.fst_mem_of_mem_zipIdx h)

theorem doInBg_of_notMem (h : cmd.WellFormed) (hamp : .amp ∉ cmd.types) : doInBg cmd = [] := by
  rw [doInBg, h.bgUntil_of_notMem hamp]
  rfl

theorem mainDispatch_eq (h : cmd.WellFormed) :
    mainDispatch cmd = doInBg cmd ++ inShell mainChain cmd.bgUntil.toNat cmd := by
  rw [mainDispatch, h.hasPrefix]
  by_cases hamp : .amp ∈ cmd.types
  · simp [hamp]
  · simp [hamp, doInBg_of_notMem h hamp, h.bgUntil_of_notMem hamp]

theorem executesOnce_iff_repeats (h : cmd.WellFormed) :
    ExecutesOnce cmd (mainDispatch cmd) ↔ ∀ g ∈ cmd.groups, repeats cmd g = 1 := by
  have hbackground : ran .background (mainDispatch cmd) =
      (cmd.groups.zipIdx.take cmd.bgUntil.toNat).flatMap
        fun g => List.replicate (repeats cmd g.1) g := by
    rw [mainDispatch_eq h, ran_append, doInBg, inShell, ran_loop,
      ran_loop_of_ne _ (by decide), List.append_nil]
  have hshell : ran .shell (mainDispatch cmd) =
      (cmd.groups.zipIdx.drop cmd.bgUntil.toNat).flatMap
        fun g => List.replicate (repeats cmd g.1) g := by
    rw [mainDispatch_eq h, ran_append, doInBg, inShell, ran_loop,
      ran_loop_of_ne _ (by decide), List.nil_append]
  have hsplit : (∀ g ∈ cmd.groups, repeats cmd g = 1) ↔
      (∀ g ∈ cmd.groups.zipIdx.take cmd.bgUntil.toNat, repeats cmd g.1 = 1) ∧
        ∀ g ∈ cmd.groups.zipIdx.drop cmd.bgUntil.toNat, repeats cmd g.1 = 1 := by
    rw [← List.forall_mem_append, List.take_append_drop]
    nth_rewrite 1 [← List.zipIdx_map_fst 0 cmd.groups]
    exact List.forall_mem_map
  rw [hsplit, ← flatMap_replicate_eq_self fun g hg => repeats_pos_of_mem (List.mem_of_mem_take hg),
    ← flatMap_replicate_eq_self fun g hg => repeats_pos_of_mem (List.mem_of_mem_drop hg),
    ← hbackground, ← hshell]
  exact ⟨fun honce => ⟨honce.background, honce.shell⟩, fun heq => ⟨heq.1, heq.2⟩⟩

end Once

/-- `main` runs every group of an accepted line exactly once unless a pipeline stands in a
line of several groups whose first separator is `;`. -/
theorem mainDispatch_executesOnce_iff {line : List Char} {cmd : ShellCmd (List Char)}
    (h : parseLine line = some cmd) :
    ExecutesOnce cmd (mainDispatch cmd) ↔
      cmd.groups.length ≤ 1 ∨ cmd.types.head? ≠ some .semi ∨
        ∀ g ∈ cmd.groups, g.atoms.length = 1 := by
  rw [executesOnce_iff_repeats (parseLine_wellFormed h)]
  constructor
  · intro hones
    by_contra hnone
    simp only [not_or, not_le, not_not, not_forall, exists_prop] at hnone
    obtain ⟨hmany, hsemi, g, hg, hpipeline⟩ := hnone
    have hone := hones g hg
    rw [repeats, if_neg (by simp [hpipeline, hsemi])] at hone
    omega
  · intro hcond g hg
    have hpos := List.length_pos_of_mem hg
    unfold repeats
    split
    · rfl
    · rename_i hboth
      simp only [not_or, not_not] at hboth
      rcases hcond with hfew | hsemi | hsingle
      · omega
      · exact absurd hboth.2 hsemi
      · exact absurd (hsingle g hg) hboth.1

theorem mainDispatch_executesOnce_mixed :
    ∃ cmd, parseLine "a & b ; c | d".toList = some cmd ∧ ExecutesOnce cmd (mainDispatch cmd) :=
  ⟨(parseLine "a & b ; c | d".toList).get (by decide), (Option.some_get _).symm,
    (mainDispatch_executesOnce_iff (Option.some_get (by decide)).symm).mpr
      (.inr (.inl (by decide)))⟩

/-- Behind a `;` the pipeline is run once for every group of the line. -/
theorem mainDispatch_pipeline_twice :
    ∃ cmd, parseLine "a ; b | c".toList = some cmd ∧ ¬ ExecutesOnce cmd (mainDispatch cmd) :=
  ⟨(parseLine "a ; b | c".toList).get (by decide), (Option.some_get _).symm,
    fun honce => absurd honce.shell (by decide)⟩

/-! ## The background groups -/

section Background

variable {cmd : ShellCmd (List Char)} {gs : List (CmdGroup (List Char) × Nat)}

theorem mem_loop (chain : List Branch) (place : Place) {e : Event} :
    e ∈ gs.flatMap (dispatchGroup chain place cmd) ↔
      ∃ g ∈ gs, repeats cmd g.1 ≠ 0 ∧ e = ⟨place, g.2, g.1, groupRunner chain g.1⟩ := by
  simp only [List.mem_flatMap, dispatchGroup_eq, List.mem_replicate]

theorem mem_inShell {first : Nat} {chain : List Branch} {e : Event}
    (h : e ∈ inShell chain first cmd) :
    e.place = .shell ∧ first ≤ e.index ∧ cmd.groups[e.index]? = some e.group := by
  obtain ⟨g, hg, -, rfl⟩ := (mem_loop chain .shell).mp h
  obtain ⟨i, hi, rfl⟩ := List.mem_drop_iff_getElem.mp hg
  simp

theorem mem_doInBg {e : Event} (h : e ∈ doInBg cmd) :
    e.place = .background ∧ e.index < cmd.bgUntil.toNat ∧ cmd.groups[e.index]? = some e.group := by
  obtain ⟨g, hg, -, rfl⟩ := (mem_loop bgChain .background).mp h
  obtain ⟨i, hi, rfl⟩ := List.mem_take_iff_getElem.mp hg
  simp
  omega

theorem exists_inShell {first i : Nat} (chain : List Branch) (hfirst : first ≤ i)
    (hi : i < cmd.groups.length) : ∃ e ∈ inShell chain first cmd, e.index = i := by
  have hmem : (cmd.groups[i], i) ∈ cmd.groups.zipIdx.drop first := by
    rw [List.mem_drop_iff_getElem]
    have hsum : first + (i - first) = i := by omega
    exact ⟨i - first, by rw [List.length_zipIdx]; omega, by simp [hsum]⟩
  have hpos := repeats_pos_of_mem (List.mem_of_mem_drop hmem)
  exact ⟨_, (mem_loop chain .shell).mpr ⟨_, hmem, by omega, rfl⟩, rfl⟩

theorem exists_doInBg {i : Nat} (hi : i < cmd.groups.length) (hfront : i < cmd.bgUntil.toNat) :
    ∃ e ∈ doInBg cmd, e.index = i := by
  have hmem : (cmd.groups[i], i) ∈ cmd.groups.zipIdx.take cmd.bgUntil.toNat := by
    rw [List.mem_take_iff_getElem]
    exact ⟨i, by rw [List.length_zipIdx]; omega, by simp⟩
  have hpos := repeats_pos_of_mem (List.mem_of_mem_take hmem)
  exact ⟨_, (mem_loop bgChain .background).mpr ⟨_, hmem, by omega, rfl⟩, rfl⟩

end Background

section Count

variable {α : Type*} [DecidableEq α]

end Count

end OxyC.Shell
