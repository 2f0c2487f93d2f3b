import OxyC.Shell.InputPipe
import Mathlib.Algebra.Order.Ring.Nat

/-!
# A stage that waits before it reads

Nobody reads the pipe of the input redirections while the stage waits for their
writer, so the writer can end only if the pipe holds everything it copies.
-/

namespace OxyC.Shell

open OxyC.Foundation

section Inputs

variable {β τ : Type*} {capacity : Nat}

/-- The writer is done, and the pipe with what the command has received is what it copied. -/
structure Copied (d : Disk β τ) (a : Atomic τ) (received : List β)
    (s : Redirected β τ capacity) : Prop where
  writer : a.infiles = [] ∧ s.writer = .unborn ∨ ∃ status, s.writer = .exited status
  bytes : received ++ s.pipefd.bytes = d.inputBytes a.infiles

def RedirectInv (d : Disk β τ) (a : Atomic τ) (s : Redirected β τ capacity) : Prop :=
  match s.stage with
  | .redirecting => s.disk = d ∧ s.writer = .unborn ∧ s.pipefd.bytes = []
  | .waiting =>
      s.disk = d ∧ a.infiles ≠ [] ∧ s.writer ≠ .unborn ∧
        s.pipefd.bytes ++ s.writer.left d = d.inputBytes a.infiles
  | .opening _ => Copied d a [] s
  | .closing => Copied d a [] s
  | .command received => Copied d a received s
  | .ended received => Copied d a received s ∧ s.pipefd.bytes = []
  | .exited _ => True

variable {d : Disk β τ} {a : Atomic τ} {s s' : Redirected β τ capacity}
  {effects : List (Effect τ)}

theorem Copied.rests {received : List β} (h : Copied d a received s) (written : Nat) :
    writerStep written s = none := by
  cases h.writer with
  | inl hnone => exact writerStep_of_unborn hnone.2 written
  | inr hexited =>
      obtain ⟨status, hstatus⟩ := hexited
      exact writerStep_of_exited hstatus written

/-- A step of the writer is one of a stage that waits. -/
theorem RedirectInv.writerStep {written : Nat} (h : RedirectInv d a s)
    (hstep : writerStep written s = some (s', effects)) :
    (s.stage = .waiting ∨ ∃ status, s.stage = .exited status) ∧ RedirectInv d a s' := by
  have hs := writerStep_stepped hstep
  unfold RedirectInv at h ⊢
  rw [hs.stage]
  split at h
  · rw [writerStep_of_unborn h.2.1] at hstep
    cases hstep
  · obtain ⟨rfl, hne, -, hkept⟩ := h
    refine ⟨.inl ‹_›, hs.disk, hne, hs.born, ?_⟩
    rw [hs.kept, hkept]
  · rw [h.rests] at hstep
    cases hstep
  · rw [h.rests] at hstep
    cases hstep
  · rw [h.rests] at hstep
    cases hstep
  · rw [h.1.rests] at hstep
    cases hstep
  · exact ⟨.inr ⟨_, ‹_›⟩, trivial⟩

theorem RedirectInv.redirectInputs (h : RedirectInv d a s) (hstage : s.stage = .redirecting) :
    RedirectInv d a (redirectInputs a s) := by
  simp only [RedirectInv, hstage] at h
  obtain ⟨rfl, hborn, hempty⟩ := h
  unfold Shell.redirectInputs
  split
  · rename_i hfiles
    have hne : a.infiles ≠ [] := List.ne_nil_of_length_pos hfiles
    exact ⟨rfl, hne, by simp, by simp [hempty, Writer.left]⟩
  · rename_i hfiles
    have hnone : a.infiles = [] := by simpa using hfiles
    exact ⟨.inl ⟨hnone, hborn⟩, by simp [hnone, hempty, Disk.inputBytes]⟩

theorem inputBytes_of_readable {files : List τ}
    (h : ∀ file ∈ files, (d.openInput file).isSome) :
    d.inputBytes files = files.flatMap fun file => (d.openInput file).getD [] := by
  induction files with
  | nil => rfl
  | cons file files ih =>
      obtain ⟨bytes, hopen⟩ := Option.isSome_iff_exists.mp (h file (by simp))
      rw [inputBytes_cons_some hopen, List.flatMap_cons, hopen, Option.getD_some,
        ih fun file' hfile' => h file' (List.mem_cons_of_mem file hfile')]

theorem redirectInv_init (d : Disk β τ) (a : Atomic τ) :
    RedirectInv d a ({ disk := d } : Redirected β τ capacity) := ⟨rfl, rfl, rfl⟩

variable [DecidableEq τ] {site : ExecSite}

theorem RedirectInv.stageStep {read : Nat} (h : RedirectInv d a s)
    (hstep : stageStep site a read s = some (s', effects)) : RedirectInv d a s' := by
  unfold Shell.stageStep at hstep
  split at hstep
  case h_1 heq =>
      cases hstep
      exact h.redirectInputs heq
  case h_2 heq =>
      split at hstep
      · rename_i status hexited
        cases hstep
        simp only [RedirectInv, heq] at h
        obtain ⟨rfl, -, -, hkept⟩ := h
        rw [hexited, Writer.left, List.append_nil] at hkept
        exact ⟨.inr ⟨status, hexited⟩, hkept⟩
      · cases hstep
  case h_3 heq =>
      simp only [RedirectInv, heq] at h
      cases site with
      | executeCommand => cases hstep; exact ⟨h.writer, h.bytes⟩
      | executePipeline => cases hstep; exact ⟨h.writer, h.bytes⟩
  case h_4 r outputs heq =>
      simp only [RedirectInv, heq] at h
      split at hstep
      · cases hstep
        trivial
      · cases hstep
        exact ⟨h.writer, h.bytes⟩
  case h_5 heq =>
      simp only [RedirectInv, heq] at h
      cases hstep
      exact ⟨h.writer, h.bytes⟩
  case h_6 received heq =>
      simp only [RedirectInv, heq] at h
      split at hstep
      · rename_i hempty _
        cases hstep
        exact ⟨⟨h.writer, h.bytes⟩, hempty⟩
      · cases hstep
      · split at hstep
        · cases hstep
        · cases hstep
          refine ⟨h.writer, ?_⟩
          rw [Fifo.bytes_drop, List.append_assoc, List.take_append_drop, h.bytes]
  case h_7 => cases hstep
  case h_8 => cases hstep

theorem RedirectInv.step {i : RedirectMove} (h : RedirectInv d a s)
    (hstep : (redirection site capacity a).step i s = some (s', effects)) :
    RedirectInv d a s' := by
  cases i with
  | writer written => exact (h.writerStep hstep).2
  | stage read => exact h.stageStep hstep

theorem RedirectInv.reaches
    (h : (redirection site capacity a).Reaches { disk := d } s) : RedirectInv d a s :=
  h.invariant (fun _ _ _ _ hs hstep => hs.step hstep) (redirectInv_init d a)

/-! ## Where the writer can end -/

/-- The stage has started neither its command nor to end. -/
def Stage.before : Stage β τ → Prop
  | .redirecting => True
  | .waiting => True
  | .opening _ => True
  | .closing => True
  | _ => False

theorem stageStep_waiting_none (h : s.stage = .waiting) (hrun : ∀ status, s.writer ≠ .exited status)
    (read : Nat) : Shell.stageStep site a read s = none := by
  cases hwriter : s.writer with
  | exited status => exact absurd hwriter (hrun status)
  | unborn => simp [Shell.stageStep, h, hwriter]
  | opening files => simp [Shell.stageStep, h, hwriter]
  | reading bytes files => simp [Shell.stageStep, h, hwriter]
  | writing chunk bytes files => simp [Shell.stageStep, h, hwriter]

/-- From a stage that waits, the writer comes to its end or to a full pipe. -/
theorem exists_reaches_rested (h : RedirectInv d a s) (hstage : s.stage = .waiting) :
    ∃ t, (redirection site capacity a).Reaches s t ∧ RedirectInv d a t ∧ t.stage = .waiting ∧
      ∀ written, writerStep written t = none := by
  have hstep : ∀ i (x x' : Redirected β τ capacity) out, (∃ written, i = .writer written) →
      RedirectInv d a x ∧ x.stage = .waiting ∧ x.disk = d →
      (redirection site capacity a).step i x = some (x', out) →
      (RedirectInv d a x' ∧ x'.stage = .waiting ∧ x'.disk = d) ∧
        x'.writer.rank d < x.writer.rank d := by
    rintro _ x x' out ⟨written, rfl⟩ ⟨hx, hwaits, rfl⟩ hmove
    have hs := writerStep_stepped hmove
    exact ⟨⟨(hx.writerStep hmove).2, hs.stage.trans hwaits, hs.disk⟩, hs.rank⟩
  have hdisk : s.disk = d := by
    simp only [RedirectInv, hstage] at h
    exact h.1
  obtain ⟨t, hreach, ⟨ht, hwaits, -⟩, hrest⟩ :=
    Mealy.exists_reaches_rest (fun x : Redirected β τ capacity => x.writer.rank d) hstep
      ⟨h, hstage, hdisk⟩
  exact ⟨t, hreach, ht, hwaits, fun written => hrest (.writer written) ⟨written, rfl⟩⟩

theorem reaches_waiting (site : ExecSite) (hfiles : a.infiles ≠ []) :
    ∃ s : Redirected β τ capacity, (redirection site capacity a).Reaches { disk := d } s ∧
      s.stage = .waiting := by
  have hpos : 0 < a.infiles.length := List.length_pos_iff.mpr hfiles
  refine ⟨_, .of_step (i := .stage 0) rfl, ?_⟩
  simp [redirectInputs, hpos]

/-- A pipe that is too small for the input files ends in a state where nobody can move. -/
theorem exists_stuck (site : ExecSite) (h : capacity < (d.inputBytes a.infiles).length) :
    ∃ s : Redirected β τ capacity, (redirection site capacity a).Reaches { disk := d } s ∧
      s.stage = .waiting ∧ (redirection site capacity a).Stuck s := by
  have hfiles : a.infiles ≠ [] := by
    intro hnone
    simp [hnone, Disk.inputBytes] at h
  obtain ⟨s, hreach, hwaits⟩ := reaches_waiting (d := d) site hfiles
  obtain ⟨t, hreach', ht, hstage, hrest⟩ :=
    exists_reaches_rested (RedirectInv.reaches hreach) hwaits
  refine ⟨t, hreach.trans hreach', hstage, ?_⟩
  intro i
  cases i with
  | writer written => exact hrest written
  | stage read =>
      have hnot : ∀ status, t.writer ≠ .exited status := by
        intro status hexited
        simp only [RedirectInv, hstage, hexited, Writer.left, List.append_nil] at ht
        have hbound := t.pipefd.bounded
        rw [ht.2.2.2] at hbound
        omega
      exact stageStep_waiting_none hstage hnot read

/-! ## A pipe that holds all files -/

theorem not_stuck_of_step {i : RedirectMove}
    (h : ((redirection site capacity a).step i s).isSome) :
    ¬ (redirection site capacity a).Stuck s := by
  intro hstuck
  rw [hstuck i] at h
  cases h

theorem not_stuck_before (hroom : (d.inputBytes a.infiles).length ≤ capacity)
    (h : RedirectInv d a s) (hbefore : s.stage.before) :
    ¬ (redirection site capacity a).Stuck s := by
  cases hstage : s.stage with
  | redirecting =>
      refine not_stuck_of_step (i := .stage 0) ?_
      simp [redirection, Shell.stageStep, hstage]
  | waiting =>
      intro hstuck
      simp only [RedirectInv, hstage] at h
      obtain ⟨rfl, -, hborn, hkept⟩ := h
      rcases writer_rests fun written => hstuck (.writer written) with hunborn | hexited | hfull
      · exact hborn hunborn
      · obtain ⟨status, hexited⟩ := hexited
        refine not_stuck_of_step (i := .stage 0) ?_ hstuck
        simp [redirection, Shell.stageStep, hstage, hexited]
      · have hpos := List.length_pos_iff.mpr hfull.1
        rw [← hkept, List.length_append] at hroom
        omega
  | opening outputs =>
      refine not_stuck_of_step (i := .stage 0) ?_
      cases outputs with
      | nil => simp [redirection, Shell.stageStep, hstage]
      | cons r outputs =>
          simp only [redirection, Shell.stageStep, hstage]
          split <;> rfl
  | closing =>
      refine not_stuck_of_step (i := .stage 0) ?_
      simp [redirection, Shell.stageStep, hstage]
  | command received => simp [hstage, Stage.before] at hbefore
  | ended received => simp [hstage, Stage.before] at hbefore
  | exited status => simp [hstage, Stage.before] at hbefore

/-- A command that goes on reading comes to the end of its input. -/
theorem not_stuck_command (hfiles : a.infiles ≠ []) (h : RedirectInv d a s) {received : List β}
    (hstage : s.stage = .command received) : ¬ (redirection site capacity a).Stuck s := by
  simp only [RedirectInv, hstage] at h
  obtain hnone | ⟨status, hexited⟩ := h.writer
  · exact absurd hnone.1 hfiles
  · refine not_stuck_of_step (i := .stage 1) ?_
    cases hbytes : s.pipefd.bytes with
    | nil => simp [redirection, Shell.stageStep, hstage, hbytes, hexited]
    | cons byte bytes => simp [redirection, Shell.stageStep, hstage, hbytes]

/-- No reachable state is stuck before the command starts, and a command that reads to the end of
its input has read all files in their order. -/
structure Delivers (site : ExecSite) (capacity : Nat) (d : Disk β τ) (a : Atomic τ) : Prop where
  moves : ∀ s, (redirection site capacity a).Reaches { disk := d } s → s.stage.before →
    ¬ (redirection site capacity a).Stuck s
  reads : a.infiles ≠ [] → ∀ s, (redirection site capacity a).Reaches { disk := d } s →
    ∀ received, s.stage = .command received → ¬ (redirection site capacity a).Stuck s
  received : ∀ s, (redirection site capacity a).Reaches { disk := d } s →
    ∀ received, s.stage = .ended received →
      received = a.infiles.flatMap fun file => (d.openInput file).getD []

/-- The law holds at both sites exactly where the pipe has room for all input files together. -/
theorem delivers_iff (site : ExecSite) (capacity : Nat) (d : Disk β τ) (a : Atomic τ)
    (hreadable : ∀ file ∈ a.infiles, (d.openInput file).isSome) :
    Delivers site capacity d a ↔
      (a.infiles.map fun file => ((d.openInput file).getD []).length).sum ≤ capacity := by
  have hbytes := inputBytes_of_readable hreadable
  rw [← List.length_flatMap, ← hbytes]
  constructor
  · intro h
    by_contra hover
    obtain ⟨s, hreach, hstage, hstuck⟩ :=
      exists_stuck (d := d) (a := a) site (Nat.lt_of_not_le hover)
    exact h.moves s hreach (by rw [hstage]; trivial) hstuck
  · intro hroom
    refine ⟨?_, ?_, ?_⟩
    · intro s hreach hbefore
      exact not_stuck_before hroom (.reaches hreach) hbefore
    · intro hfiles s hreach received hstage
      exact not_stuck_command hfiles (.reaches hreach) hstage
    · intro s hreach received hstage
      have hinv := RedirectInv.reaches hreach
      simp only [RedirectInv, hstage] at hinv
      rw [← hbytes, ← hinv.1.bytes, hinv.2, List.append_nil]

end Inputs

/-- A disk on which each of the listed files is readable and nothing else exists. -/
def diskOf {β τ : Type*} [DecidableEq τ] (files : List (τ × List β)) : Disk β τ where
  contents file := files.lookup file
  readable _ := true
  writable _ := true

theorem inputBytes_single (file : Nat) (bytes : List Nat) :
    (diskOf [(file, bytes)]).inputBytes [file] = bytes := by
  simp [Disk.inputBytes, Disk.openInput, diskOf]

/-- The pipe of 64 KiB and a file of one byte more. -/
theorem delivers_fails :
    ¬ ∀ (site : ExecSite) (capacity : Nat) (d : Disk Nat Nat) (a : Atomic Nat),
      (∀ file ∈ a.infiles, (d.openInput file).isSome) → Delivers site capacity d a := by
  intro hall
  have hstate (bytes : List Nat) (hlong : 65536 < bytes.length) :
      ¬ Delivers .executeCommand 65536 (diskOf [(1, bytes)]) ⟨[0], [1], [], false⟩ := by
    intro h
    rw [← inputBytes_single 1 bytes] at hlong
    obtain ⟨s, hreach, hstage, hstuck⟩ :=
      exists_stuck (a := ⟨[0], [1], [], false⟩) .executeCommand hlong
    exact h.moves s hreach (by rw [hstage]; trivial) hstuck
  have hlong : 65536 < (List.replicate 65537 0).length := by
    rw [List.length_replicate]
    omega
  refine hstate _ hlong (hall _ _ _ _ ?_)
  intro file hfile
  rw [List.mem_singleton.mp hfile]
  rfl

theorem delivers_two_files :
    Delivers .executePipeline 5 (diskOf [(1, [10, 11]), (2, [12])]) ⟨[0], [1, 2, 1], [], false⟩ :=
  (delivers_iff .executePipeline 5 (diskOf [(1, [10, 11]), (2, [12])])
    ⟨[0], [1, 2, 1], [], false⟩ (by decide)).mpr (by decide)

end OxyC.Shell
