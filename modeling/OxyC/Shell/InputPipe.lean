import OxyC.Foundation.Fifo
import OxyC.Foundation.Progress
import OxyC.Shell.Redirection

/-!
# The redirections of a command that runs in a child

A stage with input files forks a writer that copies the files into a pipe, and
waits for it before it opens the output files and starts the command.  The two
processes take their steps in any order; the pipe is of any capacity, and every
`pipe` and `fork` succeeds.
-/

namespace OxyC.Shell

open OxyC.Foundation

/-- The two functions that hold the code. -/
inductive ExecSite where
  | executeCommand
  | executePipeline
  deriving DecidableEq, Repr

section Model

variable {β τ : Type*} {capacity : Nat}

structure Disk (β τ : Type*) where
  /-- `none` where there is no file. -/
  contents : τ → Option (List β)
  readable : τ → Bool
  /-- Whether `open` for writing, with `O_CREAT`, succeeds. -/
  writable : τ → Bool

inductive Effect (τ : Type*) where
  | printed (text : String)
  | created (file : τ)
  | truncated (file : τ)
  | executed
  deriving DecidableEq, Repr

def Disk.openInput (d : Disk β τ) (file : τ) : Option (List β) :=
  if d.readable file then d.contents file else none

def Disk.openOutput [DecidableEq τ] (d : Disk β τ) (r : τ × OpenMode) :
    Option (Disk β τ × List (Effect τ)) :=
  let emptied := { d with contents := Function.update d.contents r.1 (some []) }
  if d.writable r.1 then
    match d.contents r.1, r.2 with
    | none, _ => some (emptied, [.created r.1])
    | some _, .truncate => some (emptied, [.truncated r.1])
    | some _, .append => some (d, [])
  else none

/-- The points of the writer: the head of the loop over the files, that of the loop over a file,
and a call of `write` of which `chunk` is left. -/
inductive Writer (β τ : Type*) where
  | unborn
  | opening (files : List τ)
  | reading (bytes : List β) (files : List τ)
  | writing (chunk bytes : List β) (files : List τ)
  | exited (status : Nat)
  deriving DecidableEq, Repr

/-- The points of the stage; `received` is what the command has read of the pipe. -/
inductive Stage (β τ : Type*) where
  | redirecting
  | waiting
  | opening (outputs : List (τ × OpenMode))
  | closing
  | command (received : List β)
  | ended (received : List β)
  | exited (status : Nat)
  deriving DecidableEq, Repr

structure Redirected (β τ : Type*) (capacity : Nat) where
  disk : Disk β τ
  pipefd : Fifo β capacity := Fifo.empty
  writer : Writer β τ := .unborn
  stage : Stage β τ := .redirecting

def bufferSize : Nat := 4096

/-- A call of `write` that does not fit puts down what does, and goes on later. -/
inductive RedirectMove where
  | writer (written : Nat)
  | stage (read : Nat)
  deriving DecidableEq, Repr

def writerStep (written : Nat) (s : Redirected β τ capacity) :
    Option (Redirected β τ capacity × List (Effect τ)) :=
  match s.writer with
  | .unborn => none
  | .opening [] => some ({ s with writer := .exited 0 }, [])
  | .opening (file :: files) =>
      match s.disk.openInput file with
      | none => some ({ s with writer := .exited 1 }, [.printed "No such file or directory\n"])
      | some bytes => some ({ s with writer := .reading bytes files }, [])
  | .reading [] files => some ({ s with writer := .opening files }, [])
  | .reading bytes files =>
      some ({ s with writer := .writing (bytes.take bufferSize) (bytes.drop bufferSize) files }, [])
  | .writing [] bytes files => some ({ s with writer := .reading bytes files }, [])
  | .writing chunk bytes files =>
      if written = 0 then none
      else (s.pipefd.put (chunk.take written)).map fun pipefd =>
        ({ s with pipefd, writer := .writing (chunk.drop written) bytes files }, [])
  | .exited _ => none

/-- The stage up to the loop over the output files. -/
def redirectInputs (a : Atomic τ) (s : Redirected β τ capacity) : Redirected β τ capacity :=
  if 0 < a.infiles.length then { s with writer := .opening a.infiles, stage := .waiting }
  else { s with stage := .opening (openOutputs a) }

/-- Behind the output files only `execute_pipeline` has something left to do. -/
def afterOutputs (site : ExecSite) (s : Redirected β τ capacity) :
    Redirected β τ capacity × List (Effect τ) :=
  match site with
  | .executeCommand => ({ s with stage := .command [] }, [.executed])
  | .executePipeline => ({ s with stage := .closing }, [])

def stageStep [DecidableEq τ] (site : ExecSite) (a : Atomic τ) (read : Nat)
    (s : Redirected β τ capacity) : Option (Redirected β τ capacity × List (Effect τ)) :=
  match s.stage with
  | .redirecting => some (redirectInputs a s, [])
  | .waiting =>
      -- the status that `waitpid` returns is not looked at
      match s.writer with
      | .exited _ => some ({ s with stage := .opening (openOutputs a) }, [])
      | _ => none
  | .opening [] => some (afterOutputs site s)
  | .opening (r :: outputs) =>
      match s.disk.openOutput r with
      | none =>
          some ({ s with stage := .exited 1 }, [.printed "Unable to create file for writing\n"])
      | some (disk, effects) => some ({ s with disk, stage := .opening outputs }, effects)
  | .closing => some ({ s with stage := .command [] }, [.executed])
  | .command received =>
      match s.pipefd.bytes, s.writer with
      | [], .exited _ => some ({ s with stage := .ended received }, [])
      | [], _ => none
      | bytes, _ =>
          if read = 0 then none
          else some ({ s with
            pipefd := s.pipefd.drop read
            stage := .command (received ++ bytes.take read) }, [])
  | .ended _ => none
  | .exited _ => none

def redirection [DecidableEq τ] (site : ExecSite) (capacity : Nat) (a : Atomic τ) :
    Mealy RedirectMove (Effect τ) (Redirected β τ capacity) where
  step
    | .writer written, s => writerStep written s
    | .stage read, s => stageStep site a read s

/-- What the writer puts into the pipe: it ends at the first file that cannot be opened. -/
def Disk.inputBytes (d : Disk β τ) : List τ → List β
  | [] => []
  | file :: files =>
      match d.openInput file with
      | none => []
      | some bytes => bytes ++ d.inputBytes files

def Writer.left (d : Disk β τ) : Writer β τ → List β
  | .unborn => []
  | .opening files => d.inputBytes files
  | .reading bytes files => bytes ++ d.inputBytes files
  | .writing chunk bytes files => chunk ++ (bytes ++ d.inputBytes files)
  | .exited _ => []

end Model

/-! ## The steps of the writer -/

section WriterSteps

variable {β τ : Type*} {capacity : Nat} {s s' : Redirected β τ capacity} {written : Nat}
  {effects : List (Effect τ)}

/-- A bound on the steps that are left; a byte is read, written, and may end a call of `write`. -/
def Writer.rank (d : Disk β τ) : Writer β τ → Nat
  | .unborn => 0
  | .opening files => 3 * (d.inputBytes files).length + 2 * files.length + 1
  | .reading bytes files =>
      3 * bytes.length + 3 * (d.inputBytes files).length + 2 * files.length + 2
  | .writing chunk bytes files =>
      chunk.length + 3 * bytes.length + 3 * (d.inputBytes files).length + 2 * files.length + 3
  | .exited _ => 0

theorem inputBytes_cons_none {d : Disk β τ} {file : τ} (h : d.openInput file = none)
    (files : List τ) : d.inputBytes (file :: files) = [] := by
  rw [Disk.inputBytes, h]

theorem inputBytes_cons_some {d : Disk β τ} {file : τ} {bytes : List β}
    (h : d.openInput file = some bytes) (files : List τ) :
    d.inputBytes (file :: files) = bytes ++ d.inputBytes files := by
  rw [Disk.inputBytes, h]

structure WriterStepped (s s' : Redirected β τ capacity) (effects : List (Effect τ)) : Prop where
  disk : s'.disk = s.disk
  stage : s'.stage = s.stage
  born : s'.writer ≠ .unborn
  kept : s'.pipefd.bytes ++ s'.writer.left s.disk = s.pipefd.bytes ++ s.writer.left s.disk
  rank : s'.writer.rank s.disk < s.writer.rank s.disk
  printed : ∀ e ∈ effects, ∃ text, e = .printed text

theorem writerStep_stepped (h : writerStep written s = some (s', effects)) :
    WriterStepped s s' effects := by
  unfold writerStep at h
  split at h
  case h_1 => cases h
  case h_2 heq =>
      cases h
      exact ⟨rfl, rfl, by simp, by simp [heq, Writer.left, Disk.inputBytes],
        by simp [heq, Writer.rank], by simp⟩
  case h_3 file files heq =>
      split at h
      · rename_i hopen
        cases h
        exact ⟨rfl, rfl, by simp, by simp [heq, Writer.left, inputBytes_cons_none hopen],
          by simp [heq, Writer.rank], by simp⟩
      · rename_i bytes hopen
        cases h
        refine ⟨rfl, rfl, by simp, by simp [heq, Writer.left, inputBytes_cons_some hopen], ?_,
          by simp⟩
        simp only [heq, Writer.rank, inputBytes_cons_some hopen, List.length_append,
          List.length_cons]
        omega
  case h_4 files heq =>
      cases h
      exact ⟨rfl, rfl, by simp, by simp [heq, Writer.left], by simp [heq, Writer.rank], by simp⟩
  case h_5 bytes files hne heq =>
      cases h
      refine ⟨rfl, rfl, by simp, ?_, ?_, by simp⟩
      · rw [heq, Writer.left, Writer.left, ← List.append_assoc (bytes.take _),
          List.take_append_drop]
      · have hpos : 0 < bytes.length := List.length_pos_iff.mpr hne
        simp only [heq, Writer.rank, List.length_take, List.length_drop, bufferSize]
        omega
  case h_6 bytes files heq =>
      cases h
      exact ⟨rfl, rfl, by simp, by simp [heq, Writer.left], by simp [heq, Writer.rank], by simp⟩
  case h_7 chunk bytes files hne heq =>
      split at h
      · cases h
      rename_i hwritten
      obtain ⟨pipefd, hput, heq'⟩ := Option.map_eq_some_iff.mp h
      cases heq'
      refine ⟨rfl, rfl, by simp, ?_, ?_, by simp⟩
      · simp only [heq, Writer.left, Fifo.put_eq_some hput]
        rw [List.append_assoc, ← List.append_assoc (chunk.take written), List.take_append_drop]
      · have hpos : 0 < chunk.length := List.length_pos_iff.mpr hne
        simp only [heq, Writer.rank, List.length_drop]
        omega
  case h_8 => cases h

/-- The writer rests before it is forked, when it has exited, and where the pipe is full. -/
theorem writer_rests (h : ∀ written, writerStep written s = none) :
    s.writer = .unborn ∨ (∃ status, s.writer = .exited status) ∨
      s.writer.left s.disk ≠ [] ∧ capacity ≤ s.pipefd.bytes.length := by
  have hone := h 1
  unfold writerStep at hone
  split at hone
  case h_1 heq => exact .inl heq
  case h_2 => cases hone
  case h_3 => split at hone <;> cases hone
  case h_4 => cases hone
  case h_5 => cases hone
  case h_6 => cases hone
  case h_7 chunk bytes files hne heq =>
      rw [if_neg Nat.one_ne_zero, Option.map_eq_none_iff] at hone
      have hfull : ¬ s.pipefd.bytes.length + (chunk.take 1).length ≤ capacity := by
        rw [← Fifo.put_isSome_iff, hone]
        simp
      have hpos : 0 < chunk.length := List.length_pos_iff.mpr hne
      rw [List.length_take] at hfull
      have hleft : s.writer.left s.disk ≠ [] := by
        rw [heq]
        exact List.append_ne_nil_of_left_ne_nil (List.ne_nil_of_length_pos hpos) _
      exact .inr (.inr ⟨hleft, by omega⟩)
  case h_8 status heq => exact .inr (.inl ⟨status, heq⟩)

theorem writerStep_of_exited {status : Nat} (h : s.writer = .exited status) (written : Nat) :
    writerStep written s = none := by
  rw [writerStep, h]

theorem writerStep_of_unborn (h : s.writer = .unborn) (written : Nat) :
    writerStep written s = none := by
  rw [writerStep, h]

end WriterSteps

end OxyC.Shell
