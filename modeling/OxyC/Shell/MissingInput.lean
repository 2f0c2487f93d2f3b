import OxyC.Shell.InputCopy

/-!
# An input file that cannot be opened

The writer ends with a status of its own there, but the stage does not look at
the status that `waitpid` returns: it goes on to the output files and to the
command.
-/

namespace OxyC.Shell

open OxyC.Foundation

section Missing

variable {β τ : Type*} [DecidableEq τ] {capacity : Nat} {site : ExecSite} {d : Disk β τ}
  {a : Atomic τ} {s s' : Redirected β τ capacity}

/-- The command has been executed, or an output file created or truncated. -/
def Effect.done : Effect τ → Prop
  | .printed _ => False
  | _ => True

/-- No run has an effect but messages. -/
def Abandoned (site : ExecSite) (capacity : Nat) (d : Disk β τ) (a : Atomic τ) : Prop :=
  ∀ is (s : Redirected β τ capacity) effects,
    (redirection site capacity a).run is { disk := d } = some (s, effects) →
      ∀ e ∈ effects, ¬ e.done

/-- The loop over the output files ends at one that cannot be opened, and those before it are
files that exist and are opened for appending. -/
def OutputsStop (d : Disk β τ) (outputs : List (τ × OpenMode)) : Prop :=
  ∃ before r behind, outputs = before ++ r :: behind ∧ d.writable r.1 = false ∧
    ∀ r' ∈ before, r'.2 = .append ∧ (d.contents r'.1).isSome

omit [DecidableEq τ] in
theorem outputsStop_cons {r : τ × OpenMode} {outputs : List (τ × OpenMode)} :
    OutputsStop d (r :: outputs) ↔
      d.writable r.1 = false ∨
        r.2 = .append ∧ (d.contents r.1).isSome ∧ OutputsStop d outputs := by
  constructor
  · rintro ⟨before, r', behind, heq, hclosed, hbefore⟩
    cases before with
    | nil =>
        cases heq
        exact .inl hclosed
    | cons first before =>
        cases heq
        have hfirst := hbefore r (by simp)
        exact .inr ⟨hfirst.1, hfirst.2, before, r', behind, rfl, hclosed,
          fun r'' hr'' => hbefore r'' (List.mem_cons_of_mem r hr'')⟩
  · rintro (hclosed | ⟨happend, hexists, before, r', behind, rfl, hclosed, hbefore⟩)
    · exact ⟨[], r, outputs, rfl, hclosed, by simp⟩
    · refine ⟨r :: before, r', behind, rfl, hclosed, ?_⟩
      simpa [happend, hexists] using hbefore

theorem openOutput_eq_none_iff {r : τ × OpenMode} :
    d.openOutput r = none ↔ d.writable r.1 = false := by
  obtain ⟨file, mode⟩ := r
  cases hwritable : d.writable file with
  | false => simp [Disk.openOutput, hwritable]
  | true =>
      cases hcontents : d.contents file <;> cases mode <;>
        simp [Disk.openOutput, hwritable, hcontents]

/-- An open that succeeds has an effect, unless it finds a file to append to. -/
theorem openOutput_eq_some {r : τ × OpenMode} {disk : Disk β τ} {effects : List (Effect τ)}
    (h : d.openOutput r = some (disk, effects)) :
    (r.2 = .append ∧ (d.contents r.1).isSome ∧ disk = d ∧ effects = []) ∨
      ∃ e ∈ effects, e.done := by
  obtain ⟨file, mode⟩ := r
  cases hwritable : d.writable file with
  | false => simp [Disk.openOutput, hwritable] at h
  | true =>
      cases hcontents : d.contents file with
      | none =>
          simp only [Disk.openOutput, hwritable, hcontents] at h
          cases h
          exact .inr ⟨.created file, by simp, trivial⟩
      | some bytes =>
          cases mode with
          | truncate =>
              simp only [Disk.openOutput, hwritable, hcontents] at h
              cases h
              exact .inr ⟨.truncated file, by simp, trivial⟩
          | append =>
              simp only [Disk.openOutput, hwritable, hcontents] at h
              cases h
              exact .inl ⟨rfl, by simp, rfl, rfl⟩

/-! ## Where something is done -/

def Acts (site : ExecSite) (a : Atomic τ) (s : Redirected β τ capacity) : Prop :=
  ∃ is t effects, (redirection site capacity a).run is s = some (t, effects) ∧
    ∃ e ∈ effects, e.done

theorem acts_of_step {i : RedirectMove} {out : List (Effect τ)}
    (hstep : (redirection site capacity a).step i s = some (s', out))
    (h : (∃ e ∈ out, e.done) ∨ Acts site a s') : Acts site a s := by
  rcases h with ⟨e, hmem, hdone⟩ | ⟨is, t, effects, hrun, e, hmem, hdone⟩
  · exact ⟨[i], s', out, Mealy.run_cons_eq_some _ |>.mpr ⟨s', out, [], hstep, rfl, by simp⟩,
      e, hmem, hdone⟩
  · exact ⟨i :: is, t, out ++ effects,
      Mealy.run_cons_eq_some _ |>.mpr ⟨s', out, effects, hstep, hrun, rfl⟩,
      e, List.mem_append_right out hmem, hdone⟩

theorem acts_of_reaches {t : Redirected β τ capacity}
    (hreach : (redirection site capacity a).Reaches s t) (h : Acts site a t) :
    Acts site a s := by
  obtain ⟨is, out, hrun⟩ := hreach
  obtain ⟨js, u, effects, hrun', e, hmem, hdone⟩ := h
  exact ⟨is ++ js, u, out ++ effects,
    Mealy.run_append _ |>.mpr ⟨t, out, effects, hrun, hrun', rfl⟩,
    e, List.mem_append_right out hmem, hdone⟩

theorem acts_of_command (hstage : s.stage = .opening []) : Acts site a s := by
  have hstep : (redirection site capacity a).step (.stage 0) s = some (afterOutputs site s) := by
    simp [redirection, stageStep, hstage]
  cases site with
  | executeCommand =>
      exact acts_of_step hstep (.inl ⟨.executed, by simp, trivial⟩)
  | executePipeline =>
      refine acts_of_step hstep (.inr ?_)
      exact acts_of_step (i := .stage 0) rfl (.inl ⟨.executed, by simp, trivial⟩)

theorem acts_of_opening {outputs : List (τ × OpenMode)}
    (hstage : s.stage = .opening outputs) (h : ¬ OutputsStop s.disk outputs) : Acts site a s := by
  induction outputs generalizing s with
  | nil => exact acts_of_command hstage
  | cons r outputs ih =>
      rw [outputsStop_cons, not_or] at h
      cases hopen : s.disk.openOutput r with
      | none => exact absurd (openOutput_eq_none_iff.mp hopen) h.1
      | some result =>
          obtain ⟨disk, effects⟩ := result
          have hstep : (redirection site capacity a).step (.stage 0) s =
              some ({ s with disk, stage := .opening outputs }, effects) := by
            simp [redirection, stageStep, hstage, hopen]
          refine acts_of_step hstep ?_
          rcases openOutput_eq_some hopen with ⟨happend, hexists, rfl, rfl⟩ | hdone
          · exact .inr (ih rfl fun hstop => h.2 ⟨happend, hexists, hstop⟩)
          · exact .inl hdone

theorem reaches_opening (site : ExecSite) (hfiles : a.infiles ≠ [])
    (hroom : (d.inputBytes a.infiles).length ≤ capacity) :
    ∃ s : Redirected β τ capacity, (redirection site capacity a).Reaches { disk := d } s ∧
      s.stage = .opening (openOutputs a) ∧ s.disk = d := by
  obtain ⟨s, hreach, hwaits⟩ := reaches_waiting (d := d) site hfiles
  obtain ⟨t, hreach', ht, hstage, hrest⟩ :=
    exists_reaches_rested (RedirectInv.reaches hreach) hwaits
  simp only [RedirectInv, hstage] at ht
  obtain ⟨hdisk, -, hborn, hkept⟩ := ht
  rcases writer_rests hrest with hunborn | ⟨status, hexited⟩ | hfull
  · exact absurd hunborn hborn
  · have hstep : (redirection site capacity a).step (.stage 0) t =
        some ({ t with stage := .opening (openOutputs a) }, []) := by
      simp [redirection, stageStep, hstage, hexited]
    exact ⟨_, (hreach.trans hreach').trans (.of_step hstep), rfl, hdisk⟩
  · have hpos := List.length_pos_iff.mpr hfull.1
    rw [← hkept, List.length_append] at hroom
    rw [hdisk] at hpos
    omega

/-! ## Where nothing is done -/

/-- The input files overflow the pipe, or the output files stop the stage first. -/
def Hindered (capacity : Nat) (d : Disk β τ) (a : Atomic τ) : Prop :=
  capacity < (d.inputBytes a.infiles).length ∨ OutputsStop d (openOutputs a)

def HinderedAt (d : Disk β τ) (s : Redirected β τ capacity) : Prop :=
  match s.stage with
  | .redirecting => True
  | .waiting => True
  | .opening outputs => s.disk = d ∧ OutputsStop d outputs
  | .exited _ => True
  | _ => False

theorem hinderedAt_stageStep {read : Nat} {effects : List (Effect τ)} (hfiles : a.infiles ≠ [])
    (hhindered : Hindered capacity d a) (hinv : RedirectInv d a s) (h : HinderedAt d s)
    (hstep : stageStep site a read s = some (s', effects)) :
    HinderedAt d s' ∧ ∀ e ∈ effects, ¬ e.done := by
  cases hstage : s.stage with
  | redirecting =>
      simp only [stageStep, hstage] at hstep
      cases hstep
      have hpos : 0 < a.infiles.length := List.length_pos_iff.mpr hfiles
      simp [HinderedAt, redirectInputs, hpos]
  | waiting =>
      simp only [RedirectInv, hstage] at hinv
      obtain ⟨rfl, -, -, hkept⟩ := hinv
      simp only [stageStep, hstage] at hstep
      split at hstep
      · rename_i status hexited
        cases hstep
        have hstop : OutputsStop s.disk (openOutputs a) := by
          refine hhindered.resolve_left ?_
          rw [← hkept, hexited, Writer.left, List.append_nil]
          have hbound := s.pipefd.bounded
          omega
        exact ⟨⟨rfl, hstop⟩, by simp⟩
      · cases hstep
  | opening outputs =>
      simp only [HinderedAt, hstage] at h
      obtain ⟨rfl, hstop⟩ := h
      cases outputs with
      | nil =>
          obtain ⟨before, r, behind, heq, -⟩ := hstop
          simp at heq
      | cons r outputs =>
          rw [outputsStop_cons] at hstop
          simp only [stageStep, hstage] at hstep
          split at hstep
          · cases hstep
            exact ⟨trivial, by simp [Effect.done]⟩
          · rename_i disk effects' hopen
            cases hstep
            have hwritable : s.disk.writable r.1 ≠ false := by
              intro hclosed
              rw [openOutput_eq_none_iff.mpr hclosed] at hopen
              cases hopen
            obtain ⟨happend, hexists, hrest⟩ := hstop.resolve_left hwritable
            obtain ⟨file, mode⟩ := r
            obtain ⟨bytes, hbytes⟩ := Option.isSome_iff_exists.mp hexists
            dsimp only at happend hbytes hwritable
            subst happend
            have hsame : s.disk.openOutput (file, .append) =
                some (s.disk, ([] : List (Effect τ))) := by
              simp [Disk.openOutput, hbytes, hwritable]
            rw [hsame] at hopen
            cases hopen
            exact ⟨⟨rfl, hrest⟩, by simp⟩
  | closing => simp [HinderedAt, hstage] at h
  | command received => simp [HinderedAt, hstage] at h
  | ended received => simp [HinderedAt, hstage] at h
  | exited status =>
      simp only [stageStep, hstage] at hstep
      cases hstep

omit [DecidableEq τ] in
theorem hinderedAt_writerStep {written : Nat} {effects : List (Effect τ)}
    (hinv : RedirectInv d a s) (hstep : writerStep written s = some (s', effects)) :
    HinderedAt d s' ∧ ∀ e ∈ effects, ¬ e.done := by
  have hs := writerStep_stepped hstep
  refine ⟨?_, ?_⟩
  · unfold HinderedAt
    rw [hs.stage]
    rcases (hinv.writerStep hstep).1 with hstage | ⟨status, hstage⟩
    · rw [hstage]
      trivial
    · rw [hstage]
      trivial
  · intro e he
    obtain ⟨text, rfl⟩ := hs.printed e he
    exact id

theorem abandoned_of_hindered (hfiles : a.infiles ≠ []) (hhindered : Hindered capacity d a) :
    Abandoned site capacity d a := by
  intro is s effects hrun
  have hall : (RedirectInv d a s ∧ HinderedAt d s) ∧ ∀ e ∈ effects, ¬ e.done := by
    refine Mealy.run_invariant_history (redirection site capacity a) ?_ ?_
      (P := fun _ effects s => (RedirectInv d a s ∧ HinderedAt d s) ∧ ∀ e ∈ effects, ¬ e.done) hrun
    · exact ⟨⟨redirectInv_init d a, trivial⟩, by simp⟩
    · rintro is i outs t t' out - ⟨⟨hinv, hat⟩, hquiet⟩ hstep
      have hnext : HinderedAt d t' ∧ ∀ e ∈ out, ¬ e.done := by
        cases i with
        | writer written => exact hinderedAt_writerStep hinv hstep
        | stage read => exact hinderedAt_stageStep hfiles hhindered hinv hat hstep
      refine ⟨⟨hinv.step hstep, hnext.1⟩, ?_⟩
      intro e he
      cases List.mem_append.mp he with
      | inl hmem => exact hquiet e hmem
      | inr hmem => exact hnext.2 e hmem
  exact hall.2

/-- At either site, an input file that cannot be opened keeps the command from running, and the
output files from being touched, exactly if the stage is hindered by something else. -/
theorem missing_input_abandons_iff (site : ExecSite) (capacity : Nat) (d : Disk β τ)
    (a : Atomic τ) :
    ((∃ file ∈ a.infiles, d.openInput file = none) → Abandoned site capacity d a) ↔
      (∀ file ∈ a.infiles, d.openInput file ≠ none) ∨ Hindered capacity d a := by
  constructor
  · intro h
    by_cases hreadable : ∀ file ∈ a.infiles, d.openInput file ≠ none
    · exact .inl hreadable
    · right
      push Not at hreadable
      obtain ⟨file, hmem, hmissing⟩ := hreadable
      by_contra hfree
      rw [Hindered, not_or] at hfree
      obtain ⟨s, hreach, hstage, hdisk⟩ :=
        reaches_opening site (List.ne_nil_of_mem hmem) (Nat.le_of_not_lt hfree.1)
      rw [← hdisk] at hfree
      obtain ⟨is, t, effects, hrun, e, he, hdone⟩ :=
        acts_of_reaches hreach (acts_of_opening hstage hfree.2)
      exact h ⟨file, hmem, hmissing⟩ is t effects hrun e he hdone
  · rintro (hreadable | hhindered) ⟨file, hmem, hmissing⟩
    · exact absurd hmissing (hreadable file hmem)
    · exact abandoned_of_hindered (List.ne_nil_of_mem hmem) hhindered

end Missing

/-- `cat < missing > out`: the file `out` is emptied and the command runs, at both sites. -/
theorem missing_input_ignored :
    ∃ (d : Disk Nat Nat) (a : Atomic Nat), (∃ file ∈ a.infiles, d.openInput file = none) ∧
      ¬ Abandoned .executeCommand 65536 d a ∧ ¬ Abandoned .executePipeline 65536 d a := by
  refine ⟨diskOf [(2, [7])], ⟨[0], [1], [2], false⟩, ⟨1, by decide, by decide⟩, ?_, ?_⟩
  · intro h
    exact h [.stage 0, .writer 0, .stage 0, .stage 0] _ _ rfl (.truncated 2) (by decide) trivial
  · intro h
    exact h [.stage 0, .writer 0, .stage 0, .stage 0] _ _ rfl (.truncated 2) (by decide) trivial

end OxyC.Shell
