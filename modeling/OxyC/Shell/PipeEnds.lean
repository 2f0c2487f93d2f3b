import OxyC.Shell.InputCopy
import OxyC.Shell.Plumbing

/-!
# The ends of the pipes while a pipeline starts

A stage is forked with both ends of every pipe and closes them only behind its
redirections; the writer of its input files holds them until it exits.  The
reader of a pipe sees the end of file when no process can write to it any more.
The shell, the stages and their writers take their steps in any order.  A
command exits when it likes and leaves no process behind.
-/

namespace OxyC.Shell

open OxyC.Foundation

section Model

variable {β ρ τ : Type*} {capacity : Nat}

inductive PipelineMove where
  | fork
  | close
  | member (k : Nat) (move : RedirectMove)
  /-- The command of stage `k` exits. -/
  | leave (k : Nat)
  deriving DecidableEq, Repr

structure Starting (β τ : Type*) (capacity : Nat) where
  /-- `a` in the fork loop. -/
  forked : Nat := 0
  /-- The shell has closed its ends of the pipes. -/
  closed : Bool := false
  stages : Nat → Redirected β τ capacity
  gone : Nat → Bool := fun _ => false

def Stage.started : Stage β τ → Bool
  | .command _ => true
  | .ended _ => true
  | _ => false

/-- Stage `k` finds the files as they are in `found k`. -/
def Starting.init (found : Nat → Disk β τ) : Starting β τ capacity where
  stages k := { disk := found k }

def Starting.Exited (k : Nat) (s : Starting β τ capacity) : Prop :=
  s.gone k = true ∨ ∃ status, (s.stages k).stage = .exited status

def startPipeline [DecidableEq τ] (capacity : Nat) (atoms : List (Atomic τ)) :
    Mealy PipelineMove (Effect τ) (Starting β τ capacity) where
  step
    | .fork, s =>
        if s.forked < atoms.length then some ({ s with forked := s.forked + 1 }, []) else none
    | .close, s =>
        if s.forked = atoms.length ∧ s.closed = false then some ({ s with closed := true }, [])
        else none
    | .member k move, s =>
        match atoms[k]? with
        | some a =>
            if k < s.forked ∧ s.gone k = false then
              ((redirection .executePipeline capacity a).step move (s.stages k)).map fun x =>
                ({ s with stages := Function.update s.stages k x.1 }, x.2)
            else none
        | none => none
    | .leave k, s =>
        if k < s.forked ∧ s.gone k = false ∧ (s.stages k).stage.started then
          some ({ s with gone := Function.update s.gone k true }, [])
        else none

/-- The pipes, and the table that every stage is forked with. -/
def openedPipes (atoms : List (Atomic τ)) (shell : Descriptors ρ) :
    List (Nat × Nat) × Descriptors (Desc ρ τ) :=
  createPipes (atoms.length - 1) 0 (shell.map (Option.map .inherited))

/-- The table of stage `k` before its redirections. -/
def connected (pipes : List (Nat × Nat)) (n k : Nat) (t : Descriptors (Desc ρ τ)) :
    Descriptors (Desc ρ τ) := connectOutput pipes n k (connectInput pipes k t)

/-- The table of stage `k`, whose command keeps what it was started with. -/
def Stage.table (pipes : List (Nat × Nat)) (n k : Nat) (a : Atomic τ)
    (t : Descriptors (Desc ρ τ)) : Stage β τ → Option (Descriptors (Desc ρ τ))
  | .redirecting => some (connected pipes n k t)
  | .waiting => some (redirectInput a (connected pipes n k t))
  | .opening outputs =>
      some ((a.outfiles.take (a.outfiles.length - outputs.length)).foldl openOutfile
        (redirectInput a (connected pipes n k t)))
  | .closing => some (redirectOutput a (redirectInput a (connected pipes n k t)))
  | .command _ => some (stageTable pipes n k a t)
  | .ended _ => some (stageTable pipes n k a t)
  | .exited _ => none

/-- The table of the writer of stage `k`, without the input file it is at. -/
def Writer.table (pipes : List (Nat × Nat)) (n k : Nat) (t : Descriptors (Desc ρ τ)) :
    Writer β τ → Option (Descriptors (Desc ρ τ))
  | .unborn => none
  | .exited _ => none
  | _ =>
      let (pipefd, t) := (connected pipes n k t).pipe .inputRead .inputWrite
      some (t.close pipefd.1)

/-- The tables of stage `k` and of its writer. -/
def Starting.memberTables (pipes : List (Nat × Nat)) (atoms : List (Atomic τ))
    (t : Descriptors (Desc ρ τ)) (s : Starting β τ capacity) (k : Nat) :
    List (Descriptors (Desc ρ τ)) :=
  match atoms[k]? with
  | some a =>
      (if s.gone k then none else (s.stages k).stage.table pipes atoms.length k a t).toList ++
        ((s.stages k).writer.table pipes atoms.length k t).toList
  | none => []

/-- The tables of all processes, that of the shell first. -/
def Starting.tables (atoms : List (Atomic τ)) (shell : Descriptors ρ)
    (s : Starting β τ capacity) : List (Descriptors (Desc ρ τ)) :=
  let (pipes, t) := openedPipes atoms shell
  (if s.closed then t.closeAll (pipeFds pipes) else t) ::
    (List.range s.forked).flatMap (s.memberTables pipes atoms t)

/-- A process can write to the pipe `j`, so a reader of the pipe waits. -/
def Starting.Writable (atoms : List (Atomic τ)) (shell : Descriptors ρ) (j : Nat)
    (s : Starting β τ capacity) : Prop :=
  ∃ table ∈ s.tables atoms shell, ∃ fd, table.lookup fd = some (.writeEnd j)

/-- Whatever has happened, once stage `j` has exited the end of file of the pipe `j` can come, and
no other command has to exit for it. -/
def SeesEnd [DecidableEq τ] (capacity : Nat) (atoms : List (Atomic τ)) (found : Nat → Disk β τ)
    (shell : Descriptors ρ) (j : Nat) : Prop :=
  ∀ s : Starting β τ capacity, (startPipeline capacity atoms).Reaches (.init found) s →
    s.Exited j → ∃ t, (startPipeline capacity atoms).Reaches s t ∧ t.gone = s.gone ∧
      ¬ t.Writable atoms shell j

/-- The pipe of the input redirections holds everything that is copied into it. -/
def InputFits (capacity : Nat) (d : Disk β τ) (a : Atomic τ) : Prop :=
  (d.inputBytes a.infiles).length ≤ capacity

end Model

/-! ## One stage -/

section Member

variable {β τ : Type*} {capacity : Nat} {d : Disk β τ} {a : Atomic τ}
  {s s' : Redirected β τ capacity} {effects : List (Effect τ)}

/-- The writer is done, which it can be only where its pipe holds everything. -/
def Settled (d : Disk β τ) (a : Atomic τ) (s : Redirected β τ capacity) : Prop :=
  (s.writer = .unborn ∨ ∃ status, s.writer = .exited status) ∧ InputFits capacity d a

structure MemberInv (d : Disk β τ) (a : Atomic τ) (s : Redirected β τ capacity) : Prop where
  redirect : RedirectInv d a s
  settled : s.stage = .redirecting ∨ s.stage = .waiting ∨ Settled d a s

theorem memberInv_init (d : Disk β τ) (a : Atomic τ) :
    MemberInv d a ({ disk := d } : Redirected β τ capacity) :=
  ⟨redirectInv_init d a, .inl rfl⟩

theorem Settled.rests (h : Settled d a s) (written : Nat) : writerStep written s = none := by
  rcases h.1 with hunborn | ⟨status, hexited⟩
  · exact writerStep_of_unborn hunborn written
  · exact writerStep_of_exited hexited written

theorem MemberInv.writerStep {written : Nat} (h : MemberInv d a s)
    (hstep : writerStep written s = some (s', effects)) : MemberInv d a s' := by
  refine ⟨(h.redirect.writerStep hstep).2, ?_⟩
  rw [(writerStep_stepped hstep).stage]
  rcases h.settled with hfirst | hwaits | hsettled
  · exact .inl hfirst
  · exact .inr (.inl hwaits)
  · rw [hsettled.rests] at hstep
    cases hstep

theorem MemberInv.of_past (h : MemberInv d a s) (hpast : ¬ s.stage.before) : Settled d a s := by
  rcases h.settled with hfirst | hwaits | hsettled
  · exact absurd (by rw [hfirst]; trivial) hpast
  · exact absurd (by rw [hwaits]; trivial) hpast
  · exact hsettled

theorem MemberInv.redirectInputs (h : MemberInv d a s) (hstage : s.stage = .redirecting) :
    MemberInv d a (redirectInputs a s) := by
  refine ⟨h.redirect.redirectInputs hstage, ?_⟩
  have hinv := h.redirect
  simp only [RedirectInv, hstage] at hinv
  unfold Shell.redirectInputs
  split
  · exact .inr (.inl rfl)
  · rename_i hfiles
    have hnone : a.infiles = [] := by simpa using hfiles
    refine .inr (.inr ⟨.inl hinv.2.1, ?_⟩)
    simp [InputFits, hnone, Disk.inputBytes]

/-- A stage that has waited finds the writer done and all input in the pipe. -/
theorem MemberInv.settled_of_exited (h : MemberInv d a s) (hstage : s.stage = .waiting)
    {status : Nat} (hexited : s.writer = .exited status) : Settled d a s := by
  have hinv := h.redirect
  simp only [RedirectInv, hstage, hexited, Writer.left, List.append_nil] at hinv
  refine ⟨.inr ⟨status, hexited⟩, ?_⟩
  rw [InputFits, ← hinv.2.2.2]
  exact s.pipefd.bounded

variable [DecidableEq τ]

theorem stageStep_writer {site : ExecSite} {read : Nat} (hstage : s.stage ≠ .redirecting)
    (hstep : stageStep site a read s = some (s', effects)) : s'.writer = s.writer := by
  unfold stageStep at hstep
  split at hstep
  case h_1 heq => exact absurd heq hstage
  case h_2 =>
      split at hstep
      · cases hstep
        rfl
      · cases hstep
  case h_3 => cases site <;> (cases hstep; rfl)
  case h_4 =>
      split at hstep
      · cases hstep
        rfl
      · cases hstep
        rfl
  case h_5 =>
      cases hstep
      rfl
  case h_6 =>
      split at hstep
      · cases hstep
        rfl
      · cases hstep
      · split at hstep
        · cases hstep
        · cases hstep
          rfl
  case h_7 => cases hstep
  case h_8 => cases hstep

theorem MemberInv.stageStep {site : ExecSite} {read : Nat} (h : MemberInv d a s)
    (hstep : stageStep site a read s = some (s', effects)) : MemberInv d a s' := by
  by_cases hfirst : s.stage = .redirecting
  · simp only [Shell.stageStep, hfirst, Option.some.injEq, Prod.mk.injEq] at hstep
    exact hstep.1 ▸ h.redirectInputs hfirst
  · refine ⟨h.redirect.stageStep hstep, .inr (.inr ?_)⟩
    have hwriter := stageStep_writer hfirst hstep
    have hsettled : Settled d a s := by
      rcases h.settled with hredirecting | hwaits | hsettled
      · exact absurd hredirecting hfirst
      · by_contra hnot
        rw [stageStep_waiting_none hwaits
          (fun status hexited => hnot (h.settled_of_exited hwaits hexited)) read] at hstep
        cases hstep
      · exact hsettled
    rw [Settled, hwriter]
    exact hsettled

theorem MemberInv.step {site : ExecSite} {i : RedirectMove} (h : MemberInv d a s)
    (hstep : (redirection site capacity a).step i s = some (s', effects)) : MemberInv d a s' := by
  cases i with
  | writer written => exact h.writerStep hstep
  | stage read => exact h.stageStep hstep

/-! ### The way to the command -/

theorem exists_past_opening (outputs : List (τ × OpenMode)) (hstage : s.stage = .opening outputs) :
    ∃ t, (redirection .executePipeline capacity a).Reaches s t ∧ ¬ t.stage.before := by
  induction outputs generalizing s with
  | nil =>
      refine ⟨{ s with stage := .command [] }, ?_, by simp [Stage.before]⟩
      have hclosing : (redirection .executePipeline capacity a).step (.stage 0) s =
          some ({ s with stage := .closing }, []) := by
        simp [redirection, stageStep, hstage, afterOutputs]
      exact (Mealy.Reaches.of_step hclosing).trans (.of_step (i := .stage 0) rfl)
  | cons r outputs ih =>
      cases hopen : s.disk.openOutput r with
      | none =>
          have hexit : (redirection .executePipeline capacity a).step (.stage 0) s =
              some ({ s with stage := .exited 1 },
                [.printed "Unable to create file for writing\n"]) := by
            simp [redirection, stageStep, hstage, hopen]
          exact ⟨_, .of_step hexit, by simp [Stage.before]⟩
      | some opened =>
          have hnext : (redirection .executePipeline capacity a).step (.stage 0) s =
              some ({ s with disk := opened.1, stage := .opening outputs }, opened.2) := by
            simp [redirection, stageStep, hstage, hopen]
          obtain ⟨t, hreach, hpast⟩ :=
            ih (s := { s with disk := opened.1, stage := .opening outputs }) rfl
          exact ⟨t, (Mealy.Reaches.of_step hnext).trans hreach, hpast⟩

theorem exists_past_waiting (hfits : InputFits capacity d a) (h : RedirectInv d a s)
    (hstage : s.stage = .waiting) :
    ∃ t, (redirection .executePipeline capacity a).Reaches s t ∧ ¬ t.stage.before := by
  have hrested : ∃ t, (redirection .executePipeline capacity a).Reaches s t ∧
      RedirectInv d a t ∧ t.stage = .waiting ∧ ∀ written, writerStep written t = none :=
    exists_reaches_rested h hstage
  obtain ⟨t, hreach, ht, hwaits, hrest⟩ := hrested
  simp only [RedirectInv, hwaits] at ht
  obtain ⟨rfl, -, hborn, hkept⟩ := ht
  rcases writer_rests hrest with hunborn | ⟨status, hexited⟩ | ⟨hleft, hfull⟩
  · exact absurd hunborn hborn
  · have hnext : (redirection .executePipeline capacity a).step (.stage 0) t =
        some ({ t with stage := .opening (openOutputs a) }, []) := by
      simp [redirection, stageStep, hwaits, hexited]
    obtain ⟨u, hreach', hpast⟩ := exists_past_opening (a := a) (openOutputs a)
      (s := { t with stage := .opening (openOutputs a) }) rfl
    exact ⟨u, hreach.trans ((Mealy.Reaches.of_step hnext).trans hreach'), hpast⟩
  · have hpos := List.length_pos_iff.mpr hleft
    rw [InputFits, ← hkept, List.length_append] at hfits
    omega

/-- A stage whose input fits comes to its command or to an output file that cannot be opened. -/
theorem exists_past (h : MemberInv d a s) (hfits : InputFits capacity d a) :
    ∃ t, (redirection .executePipeline capacity a).Reaches s t ∧ ¬ t.stage.before := by
  cases hstage : s.stage with
  | redirecting =>
      have hnext : (redirection .executePipeline capacity a).step (.stage 0) s =
          some (redirectInputs a s, []) := by
        simp [redirection, stageStep, hstage]
      have hinv := h.redirect.redirectInputs hstage
      have hreach := Mealy.Reaches.of_step hnext
      by_cases hfiles : 0 < a.infiles.length
      · have hwaits : (redirectInputs a s).stage = .waiting := by simp [redirectInputs, hfiles]
        obtain ⟨t, hreach', hpast⟩ := exists_past_waiting hfits hinv hwaits
        exact ⟨t, hreach.trans hreach', hpast⟩
      · have hopens : (redirectInputs a s).stage = .opening (openOutputs a) := by
          simp [redirectInputs, hfiles]
        obtain ⟨t, hreach', hpast⟩ := exists_past_opening _ hopens
        exact ⟨t, hreach.trans hreach', hpast⟩
  | waiting => exact exists_past_waiting hfits h.redirect hstage
  | opening outputs => exact exists_past_opening outputs hstage
  | closing =>
      have hnext : (redirection .executePipeline capacity a).step (.stage 0) s =
          some ({ s with stage := .command [] }, [.executed]) := by
        simp [redirection, stageStep, hstage]
      exact ⟨_, .of_step hnext, by simp [Stage.before]⟩
  | command received => exact ⟨s, .refl _ s, by simp [hstage, Stage.before]⟩
  | ended received => exact ⟨s, .refl _ s, by simp [hstage, Stage.before]⟩
  | exited status => exact ⟨s, .refl _ s, by simp [hstage, Stage.before]⟩

end Member

/-! ## The tables -/

section Tables

variable {β ρ τ : Type*} {shell t : Descriptors (Desc ρ τ)} {pipes : List (Nat × Nat)} {n k : Nat}

theorem lookup_connected (h : HasPipes shell 0 pipes t) (hin : (shell.lookup 0).isSome)
    (hk : k ≤ pipes.length) (hn : pipes.length = n - 1) {fd : Nat} (hzero : fd ≠ 0)
    (hone : fd ≠ 1) : (connected pipes n k t).lookup fd = t.lookup fd := by
  rw [connected, lookup_connectOutput h hin hk hn, if_neg fun hboth => hone hboth.1,
    lookup_connectInput h hk, if_neg fun hboth => hzero hboth.1]

theorem isSome_lookup_connected (h : HasPipes shell 0 pipes t) (hin : (shell.lookup 0).isSome)
    (hk : k ≤ pipes.length) (hn : pipes.length = n - 1) :
    ((connected pipes n k t).lookup 0).isSome := by
  rw [connected, lookup_connectOutput h hin hk hn, if_neg (by simp), lookup_connectInput h hk]
  split
  · rfl
  · rwa [h.kept 0 (h.not_mem hin)]

/-- A stage that waits for its writer can write to every pipe. -/
theorem lookup_waiting (h : HasPipes shell 0 pipes t) (hin : (shell.lookup 0).isSome)
    (hout : (shell.lookup 1).isSome) (hk : k ≤ pipes.length) (hn : pipes.length = n - 1)
    (a : Atomic τ) {j : Nat} (hj : j < pipes.length) :
    ∃ fd, (redirectInput a (connected pipes n k t)).lookup fd = some (.writeEnd j) := by
  obtain ⟨-, hwrite, hmem⟩ := h.getD hj
  have hzero : (pipes.getD j (0, 0)).2 ≠ 0 := fun heq => h.not_mem hin (heq ▸ hmem)
  have hone : (pipes.getD j (0, 0)).2 ≠ 1 := fun heq => h.not_mem hout (heq ▸ hmem)
  refine ⟨(pipes.getD j (0, 0)).2, ?_⟩
  rw [lookup_redirectInput a (isSome_lookup_connected h hin hk hn),
    if_neg fun hboth => hzero hboth.1, lookup_connected h hin hk hn hzero hone]
  exact hwrite

/-- Behind the redirections a stage that can write to a pipe is the one in front of it. -/
theorem Stage.eq_of_writeEnd {shell : Descriptors ρ}
    (h : HasPipes (shell.map (Option.map .inherited)) 0 pipes t) (hin : (shell.lookup 0).isSome)
    (hout : (shell.lookup 1).isSome) (hk : k ≤ pipes.length) (hn : pipes.length = n - 1)
    {a : Atomic τ} {stage : Stage β τ} (hpast : ¬ stage.before)
    {table : Descriptors (Desc ρ τ)} (htable : stage.table pipes n k a t = some table) {j fd : Nat}
    (hfd : table.lookup fd = some (.writeEnd j)) :
    k = j ∧ ∀ status, stage ≠ .exited status := by
  have hplumbed := plumbed_stageTable h (isSome_inherited hin) (isSome_inherited hout) hk hn a
  cases stage with
  | redirecting => exact absurd trivial hpast
  | waiting => exact absurd trivial hpast
  | opening outputs => exact absurd trivial hpast
  | closing => exact absurd trivial hpast
  | command received =>
      cases htable
      exact ⟨hplumbed.eq_of_writeEnd hfd, by simp⟩
  | ended received =>
      cases htable
      exact ⟨hplumbed.eq_of_writeEnd hfd, by simp⟩
  | exited status => cases htable

end Tables

/-! ## The runs of a pipeline -/

section Runs

variable {β τ : Type*} {capacity : Nat} {atoms : List (Atomic τ)}
  {found : Nat → Disk β τ} {s s' : Starting β τ capacity} {effects : List (Effect τ)} {k : Nat}

structure StartingInv (atoms : List (Atomic τ)) (found : Nat → Disk β τ)
    (s : Starting β τ capacity) : Prop where
  forked_le : s.forked ≤ atoms.length
  member : ∀ k a, atoms[k]? = some a → MemberInv (found k) a (s.stages k)
  started : ∀ k, s.gone k = true → ¬ (s.stages k).stage.before

theorem Stage.not_before_of_started {stage : Stage β τ} (h : stage.started = true) :
    ¬ stage.before := by
  cases stage <;> simp_all [Stage.started, Stage.before]

theorem startingInv_init (atoms : List (Atomic τ)) (found : Nat → Disk β τ) :
    StartingInv atoms found (.init found : Starting β τ capacity) :=
  ⟨Nat.zero_le _, fun k a _ => memberInv_init (found k) a, by simp [Starting.init]⟩

variable [DecidableEq τ]

/-- What a step does, stage by stage. -/
theorem startPipeline_cases {i : PipelineMove}
    (h : (startPipeline capacity atoms).step i s = some (s', effects)) :
    (s.forked < atoms.length ∧ s' = { s with forked := s.forked + 1 }) ∨
    (s' = { s with closed := true }) ∨
    (∃ k a x move, atoms[k]? = some a ∧ s.gone k = false ∧
      (redirection .executePipeline capacity a).step move (s.stages k) = some (x, effects) ∧
      s' = { s with stages := Function.update s.stages k x }) ∨
    (∃ k, s.gone k = false ∧ (s.stages k).stage.started = true ∧
      s' = { s with gone := Function.update s.gone k true }) := by
  cases i with
  | fork =>
      obtain ⟨hlt, heq⟩ := Option.ite_none_right_eq_some.mp h
      cases heq
      exact .inl ⟨hlt, rfl⟩
  | close =>
      obtain ⟨-, heq⟩ := Option.ite_none_right_eq_some.mp h
      cases heq
      exact .inr (.inl rfl)
  | member k move =>
      simp only [startPipeline] at h
      split at h
      · rename_i a ha
        obtain ⟨⟨-, hgone⟩, hmap⟩ := Option.ite_none_right_eq_some.mp h
        obtain ⟨x, hx, heq⟩ := Option.map_eq_some_iff.mp hmap
        cases heq
        exact .inr (.inr (.inl ⟨k, a, x.1, move, ha, hgone, hx, rfl⟩))
      · cases h
  | leave k =>
      obtain ⟨⟨-, hgone, hstarted⟩, heq⟩ := Option.ite_none_right_eq_some.mp h
      cases heq
      exact .inr (.inr (.inr ⟨k, hgone, hstarted, rfl⟩))

theorem StartingInv.step (h : StartingInv atoms found s) {i : PipelineMove}
    (hstep : (startPipeline capacity atoms).step i s = some (s', effects)) :
    StartingInv atoms found s' := by
  obtain ⟨hlt, rfl⟩ | rfl | ⟨k, a, x, move, ha, hgone, hx, rfl⟩ | ⟨k, hgone, hstarted, rfl⟩ :=
    startPipeline_cases hstep
  · exact ⟨hlt, h.member, h.started⟩
  · exact ⟨h.forked_le, h.member, h.started⟩
  · refine ⟨h.forked_le, fun k' a' ha' => ?_, fun k' hgone' => ?_⟩
    · by_cases hk : k' = k
      · subst hk
        cases ha.symm.trans ha'
        simpa using (h.member k' a ha).step hx
      · simpa [hk] using h.member k' a' ha'
    · have hk : k' ≠ k := by
        rintro rfl
        rw [hgone] at hgone'
        cases hgone'
      simpa [hk] using h.started k' hgone'
  · refine ⟨h.forked_le, h.member, fun k' hgone' => ?_⟩
    by_cases hk : k' = k
    · subst hk
      exact Stage.not_before_of_started hstarted
    · exact h.started k' (by simpa [hk] using hgone')

theorem StartingInv.reaches (h : StartingInv atoms found s)
    (hreach : (startPipeline capacity atoms).Reaches s s') : StartingInv atoms found s' :=
  hreach.invariant (fun _ _ _ _ hs hstep => hs.step hstep) h

/-- What one stage and its writer can do they can do among the others. -/
theorem reaches_member {a : Atomic τ} {x : Redirected β τ capacity} (ha : atoms[k]? = some a)
    (hk : k < s.forked) (hgone : s.gone k = false)
    (h : (redirection .executePipeline capacity a).Reaches (s.stages k) x) :
    (startPipeline capacity atoms).Reaches s
      { s with stages := Function.update s.stages k x } := by
  obtain ⟨is, outs, hrun⟩ := h
  induction is generalizing s outs with
  | nil =>
      cases hrun
      rw [Function.update_eq_self]
      exact .refl _ s
  | cons i is ih =>
      obtain ⟨y, out, rest, hstep, hrest, -⟩ := Mealy.run_cons_eq_some _ |>.mp hrun
      have hmove : (startPipeline capacity atoms).step (.member k i) s =
          some ({ s with stages := Function.update s.stages k y }, out) := by
        simp [startPipeline, ha, hk, hgone, hstep]
      have hbehind := ih (s := { s with stages := Function.update s.stages k y }) hk hgone rest
        (by simpa using hrest)
      simp only [Function.update_idem] at hbehind
      exact (Mealy.Reaches.of_step hmove).trans hbehind

theorem reaches_forked {m : Nat} (hle : s.forked ≤ m) (hm : m ≤ atoms.length) :
    (startPipeline capacity atoms).Reaches s { s with forked := m } := by
  induction m, hle using Nat.le_induction with
  | base => exact .refl _ s
  | succ m hle ih =>
      have hfork : (startPipeline capacity atoms).step .fork { s with forked := m } =
          some ({ s with forked := m + 1 }, []) := by
        simp only [startPipeline]
        rw [if_pos (show m < atoms.length by omega)]
      exact (ih (by omega)).trans (.of_step hfork)

theorem reaches_closed (hle : s.forked ≤ atoms.length) :
    (startPipeline capacity atoms).Reaches s
      { s with forked := atoms.length, closed := true } := by
  refine (reaches_forked hle le_rfl).trans ?_
  cases hclosed : s.closed with
  | true =>
      rw [← hclosed]
      exact .refl _ _
  | false =>
      refine .of_step (i := .close) (show _ = some (_, []) from ?_)
      simp [startPipeline]

/-- The first `m` stages are behind their redirections, and nothing is taken back. -/
structure StartedUpTo (atoms : List (Atomic τ)) (m : Nat) (s t : Starting β τ capacity) :
    Prop where
  forked : t.forked = atoms.length
  closed : t.closed = true
  gone : t.gone = s.gone
  kept : ∀ k, ¬ (s.stages k).stage.before → t.stages k = s.stages k
  past : ∀ k < m, ¬ (t.stages k).stage.before

theorem exists_startedUpTo (h : StartingInv atoms found s)
    (hfits : ∀ k a, atoms[k]? = some a → InputFits capacity (found k) a) {m : Nat}
    (hm : m ≤ atoms.length) :
    ∃ t, (startPipeline capacity atoms).Reaches s t ∧ StartedUpTo atoms m s t := by
  induction m with
  | zero => exact ⟨_, reaches_closed h.forked_le, rfl, rfl, rfl, fun _ _ => rfl, by simp⟩
  | succ m ih =>
      obtain ⟨t, hreach, ht⟩ := ih (by omega)
      by_cases hbefore : (t.stages m).stage.before
      · obtain ⟨a, ha⟩ : ∃ a, atoms[m]? = some a := ⟨_, List.getElem?_eq_getElem (by omega)⟩
        have hinv := h.reaches hreach
        obtain ⟨x, hx, hpast⟩ := exists_past (hinv.member m a ha) (hfits m a ha)
        have hgone : t.gone m = false := by
          by_contra hnot
          exact hinv.started m (by simpa using hnot) hbefore
        have hlt : m < t.forked := by
          rw [ht.forked]
          omega
        refine ⟨_, hreach.trans (reaches_member ha hlt hgone hx), ht.forked, ht.closed, ht.gone,
          fun k hk => ?_, fun k hk => ?_⟩
        · have hne : k ≠ m := by
            rintro rfl
            rw [ht.kept k hk] at hbefore
            exact hk hbefore
          simpa [hne] using ht.kept k hk
        · by_cases hkm : k = m
          · subst hkm
            simpa using hpast
          · simpa [hkm] using ht.past k (by omega)
      · refine ⟨t, hreach, ht.forked, ht.closed, ht.gone, ht.kept, fun k hk => ?_⟩
        by_cases hkm : k = m
        · exact hkm ▸ hbefore
        · exact ht.past k (by omega)

end Runs

/-! ## The end of file -/

section EndOfFile

variable {β ρ τ : Type*} {capacity : Nat} {atoms : List (Atomic τ)} {shell : Descriptors ρ}
  {s : Starting β τ capacity} {found : Nat → Disk β τ} {j k : Nat}

theorem length_openedPipes (atoms : List (Atomic τ)) (shell : Descriptors ρ) :
    (openedPipes atoms shell).1.length = atoms.length - 1 := length_createPipes _ _ _

theorem hasPipes_openedPipes (atoms : List (Atomic τ)) (shell : Descriptors ρ) :
    HasPipes (shell.map (Option.map .inherited)) 0 (openedPipes atoms shell).1
      (openedPipes atoms shell).2 := hasPipes_createPipes _ _ _

theorem mem_memberTables {pipes : List (Nat × Nat)} {t table : Descriptors (Desc ρ τ)} :
    table ∈ s.memberTables pipes atoms t k ↔
      ∃ a, atoms[k]? = some a ∧
        (s.gone k = false ∧ (s.stages k).stage.table pipes atoms.length k a t = some table ∨
          (s.stages k).writer.table pipes atoms.length k t = some table) := by
  unfold Starting.memberTables
  cases hatom : atoms[k]? with
  | none => simp
  | some a => cases hgone : s.gone k <;> simp

/-- The tables are those of the shell and of the stages that have been forked. -/
theorem mem_tables {table : Descriptors (Desc ρ τ)} :
    table ∈ s.tables atoms shell ↔
      (table = if s.closed then
          (openedPipes atoms shell).2.closeAll (pipeFds (openedPipes atoms shell).1)
        else (openedPipes atoms shell).2) ∨
      ∃ k < s.forked,
        table ∈ s.memberTables (openedPipes atoms shell).1 atoms (openedPipes atoms shell).2 k := by
  have heq : s.tables atoms shell = (if s.closed then
      (openedPipes atoms shell).2.closeAll (pipeFds (openedPipes atoms shell).1)
      else (openedPipes atoms shell).2) :: (List.range s.forked).flatMap
        (s.memberTables (openedPipes atoms shell).1 atoms (openedPipes atoms shell).2) := rfl
  rw [heq, List.mem_cons, List.mem_flatMap]
  simp only [List.mem_range]

theorem writable_of_waiting (hin : (shell.lookup 0).isSome) (hout : (shell.lookup 1).isSome)
    (hj : j + 1 < atoms.length) {a : Atomic τ} (ha : atoms[k]? = some a) (hk : k < s.forked)
    (hgone : s.gone k = false) (hwaits : (s.stages k).stage = .waiting) :
    s.Writable atoms shell j := by
  obtain ⟨hlt, -⟩ := List.getElem?_eq_some_iff.mp ha
  have hlength := length_openedPipes atoms shell
  obtain ⟨fd, hfd⟩ := lookup_waiting (hasPipes_openedPipes atoms shell) (isSome_inherited hin)
    (isSome_inherited hout) (k := k) (by omega) hlength a (j := j) (by omega)
  refine ⟨_, mem_tables.mpr (.inr ⟨k, hk, mem_memberTables.mpr ⟨a, ha, .inl ⟨hgone, ?_⟩⟩⟩), fd, hfd⟩
  rw [hwaits]
  rfl

/-- Where all stages are behind their redirections, only stage `j` can write to the pipe `j`. -/
theorem not_writable_of_past (hin : (shell.lookup 0).isSome) (hout : (shell.lookup 1).isSome)
    (h : StartingInv atoms found s) (hclosed : s.closed = true)
    (hpast : ∀ k < atoms.length, ¬ (s.stages k).stage.before) (hexited : s.Exited j) :
    ¬ s.Writable atoms shell j := by
  rintro ⟨table, htable, fd, hfd⟩
  have hlength := length_openedPipes atoms shell
  rcases mem_tables.mp htable with hshell | ⟨k, -, hmember⟩
  · have hparent : (launchPipeline atoms shell : Launched ρ τ).parent.lookup fd =
        some (.writeEnd j) := by
      rw [hshell, hclosed] at hfd
      exact hfd
    rw [lookup_parent] at hparent
    cases isEnd_inherited hparent
  · obtain ⟨a, ha, htable⟩ := mem_memberTables.mp hmember
    obtain ⟨hlt, -⟩ := List.getElem?_eq_some_iff.mp ha
    rcases htable with ⟨hgone, hstage⟩ | hwriter
    · obtain ⟨rfl, hruns⟩ := Stage.eq_of_writeEnd (hasPipes_openedPipes atoms shell) hin hout
        (by omega) hlength (hpast k hlt) hstage hfd
      rcases hexited with hgone' | ⟨status, hstatus⟩
      · rw [hgone] at hgone'
        cases hgone'
      · exact hruns status hstatus
    · obtain ⟨hdone, -⟩ := (h.member k a ha).of_past (hpast k hlt)
      rcases hdone with hunborn | ⟨status, hstatus⟩
      · simp [hunborn, Writer.table] at hwriter
      · simp [hstatus, Writer.table] at hwriter

/-- A stage whose input does not fit never exits. -/
theorem InputFits.of_exited {a : Atomic τ} (ha : atoms[j]? = some a)
    (h : StartingInv atoms found s) (hexited : s.Exited j) : InputFits capacity (found j) a := by
  refine ((h.member j a ha).of_past ?_).2
  rcases hexited with hgone | ⟨status, hstatus⟩
  · exact h.started j hgone
  · simp [hstatus, Stage.before]

theorem Stage.started_or_exited {stage : Stage β τ} (h : ¬ stage.before) :
    stage.started = true ∨ ∃ status, stage = .exited status := by
  cases stage <;> simp_all [Stage.before, Stage.started]

variable [DecidableEq τ]

theorem seesEnd_of_fits (hin : (shell.lookup 0).isSome) (hout : (shell.lookup 1).isSome)
    (hfits : ∀ k a, atoms[k]? = some a → InputFits capacity (found k) a) :
    SeesEnd capacity atoms found shell j := by
  intro s hreach hexited
  have hinv := (startingInv_init atoms found).reaches hreach
  obtain ⟨t, hreach', ht⟩ := exists_startedUpTo hinv hfits le_rfl
  refine ⟨t, hreach', ht.gone,
    not_writable_of_past hin hout (hinv.reaches hreach') ht.closed ht.past ?_⟩
  rcases hexited with hgone | ⟨status, hstatus⟩
  · exact .inl (by rw [ht.gone, hgone])
  · refine .inr ⟨status, ?_⟩
    rw [ht.kept j (by simp [hstatus, Stage.before]), hstatus]

/-- A stage whose input fits can exit, whatever state the others are in. -/
theorem exists_exited {a : Atomic τ} (ha : atoms[j]? = some a) (hj : j < s.forked)
    (hgone : s.gone j = false) (h : MemberInv (found j) a (s.stages j))
    (hfits : InputFits capacity (found j) a) :
    ∃ t, (startPipeline capacity atoms).Reaches s t ∧ t.Exited j ∧
      t.forked = s.forked ∧ ∀ k ≠ j, t.gone k = s.gone k ∧ t.stages k = s.stages k := by
  obtain ⟨x, hx, hpast⟩ := exists_past h hfits
  have hreach := reaches_member ha hj hgone hx
  rcases Stage.started_or_exited hpast with hstarted | ⟨status, hstatus⟩
  · have hleave : (startPipeline capacity atoms).step (.leave j)
        { s with stages := Function.update s.stages j x } =
          some ({ s with
            stages := Function.update s.stages j x
            gone := Function.update s.gone j true }, []) := by
      simp [startPipeline, hj, hgone, hstarted]
    refine ⟨_, hreach.trans (.of_step hleave), .inl (by simp), rfl, fun k hk => ?_⟩
    simp [hk]
  · refine ⟨_, hreach, .inr ⟨status, by simpa using hstatus⟩, rfl, fun k hk => ?_⟩
    simp [hk]

/-- A stage that waits for a writer which cannot go on stays as it is. -/
theorem waiting_kept {a : Atomic τ} {x : Redirected β τ capacity} {t : Starting β τ capacity}
    (ha : atoms[k]? = some a) (hwaits : x.stage = .waiting)
    (hstuck : (redirection .executePipeline capacity a).Stuck x)
    (hreach : (startPipeline capacity atoms).Reaches s t)
    (h : k < s.forked ∧ s.gone k = false ∧ s.stages k = x) :
    k < t.forked ∧ t.gone k = false ∧ t.stages k = x := by
  refine hreach.invariant (P := fun t => k < t.forked ∧ t.gone k = false ∧ t.stages k = x) ?_ h
  rintro i y y' out ⟨hk, hgone, rfl⟩ hstep
  obtain ⟨-, rfl⟩ | rfl | ⟨k', a', z, move, ha', -, hz, rfl⟩ | ⟨k', -, hstarted, rfl⟩ :=
    startPipeline_cases hstep
  · exact ⟨Nat.lt_succ_of_lt hk, hgone, rfl⟩
  · exact ⟨hk, hgone, rfl⟩
  · have hne : k ≠ k' := by
      rintro rfl
      cases ha.symm.trans ha'
      rw [hstuck move] at hz
      cases hz
    exact ⟨hk, hgone, by simp [hne]⟩
  · have hne : k ≠ k' := by
      rintro rfl
      rw [hwaits] at hstarted
      cases hstarted
    exact ⟨hk, by simpa [hne] using hgone, rfl⟩

/-- A stage whose input does not fit holds the pipe `j` for ever. -/
theorem not_seesEnd (hin : (shell.lookup 0).isSome) (hout : (shell.lookup 1).isSome)
    (hj : j + 1 < atoms.length) {a b : Atomic τ} (ha : atoms[j]? = some a)
    (hfits : InputFits capacity (found j) a) (hb : atoms[k]? = some b)
    (hover : ¬ InputFits capacity (found k) b) : ¬ SeesEnd capacity atoms found shell j := by
  intro hsees
  obtain ⟨hklt, -⟩ := List.getElem?_eq_some_iff.mp hb
  have hne : j ≠ k := by
    rintro rfl
    cases ha.symm.trans hb
    exact hover hfits
  obtain ⟨x, hx, hwaits, hstuck⟩ := exists_stuck .executePipeline (Nat.lt_of_not_le hover)
  have hforked : (startPipeline capacity atoms).Reaches (.init found)
      { (Starting.init found : Starting β τ capacity) with forked := atoms.length } :=
    reaches_forked (Nat.zero_le _) le_rfl
  have hblocked := reaches_member (s := { (Starting.init found : Starting β τ capacity) with
    forked := atoms.length }) hb hklt rfl hx
  obtain ⟨t, hreach, hexited, hlt, hkept⟩ := exists_exited
    (s := { (Starting.init found : Starting β τ capacity) with
      forked := atoms.length
      stages := Function.update (Starting.init found).stages k x })
    ha (by simp only; omega) rfl
    (by simpa [hne, Starting.init] using memberInv_init (found j) a) hfits
  obtain ⟨u, hreach', -, hend⟩ := hsees t (hforked.trans (hblocked.trans hreach)) hexited
  obtain ⟨hgone, hstage⟩ := hkept k hne.symm
  obtain ⟨hlt', hgone', hx'⟩ := waiting_kept hb hwaits hstuck hreach'
    ⟨hlt ▸ hklt, hgone.trans rfl, hstage.trans (by simp)⟩
  exact hend (writable_of_waiting hin hout hj hb hlt' hgone' (hx'.symm ▸ hwaits))

/-- The end of file comes exactly if stage `j` waits for ever itself or no stage does. -/
theorem seesEnd_iff (hin : (shell.lookup 0).isSome) (hout : (shell.lookup 1).isSome)
    (hj : j + 1 < atoms.length) {a : Atomic τ} (ha : atoms[j]? = some a) :
    SeesEnd capacity atoms found shell j ↔
      (InputFits capacity (found j) a →
        ∀ k b, atoms[k]? = some b → InputFits capacity (found k) b) := by
  constructor
  · intro hsees hfits k b hb
    by_contra hover
    exact not_seesEnd hin hout hj ha hfits hb hover hsees
  · intro hall s hreach hexited
    have hinv := (startingInv_init atoms found).reaches hreach
    exact seesEnd_of_fits hin hout (hall (.of_exited ha hinv hexited)) s hreach hexited

end EndOfFile

/-- What holds of the descriptors of a pipeline, and of the ends of file that its stages see. -/
structure PipelinePlumbed {β ρ τ : Type*} [DecidableEq τ] (capacity : Nat)
    (atoms : List (Atomic τ)) (found : Nat → Disk β τ) (shell : Descriptors ρ) : Prop where
  /-- A stage starts its command with its own input and output, and with no other end. -/
  stages : ∀ k a, atoms[k]? = some a →
    ∃ table : Descriptors (Desc ρ τ), (launchPipeline atoms shell).stages[k]? = some table ∧
      table.lookup 0 = stageInput a k (shell.lookup 0) ∧
      table.lookup 1 = stageOutput a atoms.length k (shell.lookup 1) ∧
      ∀ fd d, fd ≠ 0 → fd ≠ 1 → table.lookup fd = some d → d.isEnd = false
  parent : ∀ fd (d : Desc ρ τ), (launchPipeline atoms shell).parent.lookup fd = some d →
    d.isEnd = false
  writers : ∀ j k fd (table : Descriptors (Desc ρ τ)),
    (launchPipeline atoms shell).stages[k]? = some table →
      table.lookup fd = some (.writeEnd j) → k = j
  /-- Once a stage has exited, the one that reads its pipe can come to the end of file. -/
  endOfFile : ∀ k b, atoms[k + 1]? = some b → b.infiles = [] → SeesEnd capacity atoms found shell k

/-- The end of file is what can be missing: a stage that waits for ever for the writer of its
input files keeps all pipes open. -/
theorem pipeline_plumbing_iff {β ρ τ : Type*} [DecidableEq τ] {shell : Descriptors ρ}
    (hin : (shell.lookup 0).isSome) (hout : (shell.lookup 1).isSome) (capacity : Nat)
    (atoms : List (Atomic τ)) (found : Nat → Disk β τ) :
    PipelinePlumbed capacity atoms found shell ↔
      ∀ k a b, atoms[k]? = some a → atoms[k + 1]? = some b → b.infiles = [] →
        InputFits capacity (found k) a →
          ∀ i c, atoms[i]? = some c → InputFits capacity (found i) c := by
  constructor
  · intro h k a b ha hb hfirst
    obtain ⟨hlt, -⟩ := List.getElem?_eq_some_iff.mp hb
    exact (seesEnd_iff hin hout hlt ha).mp (h.endOfFile k b hb hfirst)
  · intro hfits
    obtain ⟨hstages, hparent, hwriters⟩ := pipeline_plumbing hin hout atoms
    refine ⟨hstages, hparent, hwriters, fun k b hb hfirst => ?_⟩
    obtain ⟨hlt, -⟩ := List.getElem?_eq_some_iff.mp hb
    obtain ⟨a, ha⟩ : ∃ a, atoms[k]? = some a := ⟨_, List.getElem?_eq_getElem (by omega)⟩
    exact (seesEnd_iff hin hout hlt ha).mpr (hfits k a b ha hb hfirst)

theorem pipeline_plumbing_threeStages :
    PipelinePlumbed 5 [⟨[0], [7], [], false⟩, ⟨[1], [], [], false⟩, ⟨[2], [], [8, 9], true⟩]
      (fun _ => diskOf [(7, [10, 11])]) [some 0, some 1, some 2] := by
  refine (pipeline_plumbing_iff rfl rfl _ _ _).mpr fun _ _ _ _ _ _ _ i c hc => ?_
  have hmem := List.mem_of_getElem? hc
  simp only [List.mem_cons, List.not_mem_nil, or_false] at hmem
  rcases hmem with rfl | rfl | rfl <;> exact Nat.le_of_ble_eq_true rfl

/-- `a | b | c < big`: the last stage waits for its writer with the first pipe open. -/
theorem pipeline_plumbing_bigInput :
    ¬ PipelinePlumbed 65536 [⟨[0], [], [], false⟩, ⟨[1], [], [], false⟩, ⟨[2], [7], [], false⟩]
      (fun _ => diskOf [(7, List.replicate 65537 0)]) [some 0, some 1, some 2] := by
  intro h
  have hover (bytes : List Nat) (hlong : 65536 < bytes.length) :
      ¬ InputFits 65536 (diskOf [(7, bytes)]) ⟨[2], [7], [], false⟩ := by
    rw [InputFits, inputBytes_single]
    omega
  have hlong : 65536 < (List.replicate 65537 0).length := by
    rw [List.length_replicate]
    omega
  exact not_seesEnd (k := 2) rfl rfl (by decide) rfl (Nat.zero_le _) rfl (hover _ hlong)
    (h.endOfFile 0 _ rfl rfl)

end OxyC.Shell
