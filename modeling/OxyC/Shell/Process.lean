import OxyC.Foundation.Mealy
import OxyC.Foundation.Processes
import OxyC.Shell.History
import OxyC.Shell.Jobs

/-!
# The shell process and its children

Between two steps of the shell its children may exit, stop and continue, and the
terminal may send SIGINT or SIGTSTP.  Every child is in a process group of its
own, so the terminal's signals reach the shell only.
-/

namespace OxyC.Shell

open OxyC.Foundation

inductive Signal where
  | int
  | tstp
  deriving DecidableEq, Repr

inductive Disposition where
  | ignore
  | handler
  | default
  deriving DecidableEq, Repr

inductive Pc where
  | checking
  | prompt
  | command
  /-- In the `waitpid` behind a foreground launch. -/
  | foreground (pid : Int)
  /-- Behind that `waitpid`, with the handlers still installed. -/
  | waited
  /-- In `do_fg` between the two assignments to `fg_pid`, with `job - jobs` and `i`. -/
  | resuming (k : Nat) (i : Int)
  /-- In the `waitpid` of `do_fg`. -/
  | bringing (k : Nat) (i : Int)
  /-- In the fork loop of `execute_pipeline`. -/
  | forking (left natoms : Nat)
  /-- In its wait loop. -/
  | reaping (left : Nat)
  deriving DecidableEq, Repr

namespace Pc

/-- The system calls that a signal can interrupt. -/
def blocks : Pc → Bool
  | .prompt | .foreground _ | .bringing _ _ | .reaping _ => true
  | _ => false

/-- The entry that `job` points to in `do_fg`. -/
def job? : Pc → Option Nat
  | .resuming k _ | .bringing k _ => some k
  | _ => none

def reapLoop (left : Nat) : Pc := if left = 0 then .command else .reaping left

def forkLoop (left natoms : Nat) : Pc :=
  if left = 0 then reapLoop natoms else .forking left natoms

@[simp] theorem job?_reapLoop (left : Nat) : (reapLoop left).job? = none := by
  unfold reapLoop
  split <;> rfl

@[simp] theorem job?_forkLoop (left natoms : Nat) : (forkLoop left natoms).job? = none := by
  unfold forkLoop
  split
  · exact job?_reapLoop natoms
  · rfl

end Pc

abbrev Args := List (List Char)

structure World where
  /-- `shell_pgid`, and what `getpid` returns. -/
  shell : Int
  /-- The children that no wait call has reaped, with the words they were launched with. -/
  children : Children Args := []
  table : JobTable := {}
  fgPid : Int := -1
  onInt : Disposition := .ignore
  onTstp : Disposition := .ignore
  /-- A handler has run inside the call that the shell is in. -/
  interrupted : Bool := false
  /-- What the forks of the last pipeline returned; the code does not keep it. -/
  stages : List Int := []
  pc : Pc := .checking
  deriving DecidableEq, Repr

inductive World.Event where
  | happens (r : Report) (pid : Int)
  | signal (sig : Signal) (inCall : Bool)
  | checkReport (pid : Int)
  | checkDone
  | readLine
  | endLine
  | launchFg (pid : Int) (args : Args)
  | endForeground
  | launchBg (pid : Int) (line : TypedLine)
  | fg (jid junk : Int)
  | beginWait
  | bg (jid : Int)
  | activities
  | pipeline (natoms : Nat)
  | forkStage (pid : Int) (args : Args)
  | waitReturns (pid : Int)
  /-- The wait call returns -1, so the status it was to fill in is `junk`. -/
  | waitFails (junkStopped : Bool)

/-- The global `fg_cmdline`: what the launches write is a local that shadows it. -/
def fgCmdline : List Char := []

namespace World

def disposition (sig : Signal) (w : World) : Disposition :=
  match sig with
  | .int => w.onInt
  | .tstp => w.onTstp

def installHandlers (d : Disposition) (w : World) : World := { w with onInt := d, onTstp := d }

/-- `sigtstp_handler` has a job to put into the table. -/
def Records (w : World) : Prop := w.fgPid ≠ w.shell ∧ 0 < w.fgPid ∧ w.table.jobCount < maxJobs

instance (w : World) : Decidable w.Records := inferInstanceAs (Decidable (_ ∧ _))

def sigtstpHandler (w : World) : World :=
  if w.fgPid = w.shell then w
  else if 0 < w.fgPid then
    { w with
      table := if w.table.jobCount < maxJobs then w.table.put w.fgPid fgCmdline .stopped else w.table
      fgPid := -1 }
  else w

/-- `sigint_handler` sends a signal and leaves the shell's own state alone. -/
def runHandler (sig : Signal) (w : World) : World :=
  match sig with
  | .int => w
  | .tstp => w.sigtstpHandler

/-- With System V semantics the disposition is the default again and no call is restarted. -/
def caught (systemV : Bool) (sig : Signal) (inCall : Bool) (w : World) : World :=
  if systemV then
    { w with
      onInt := if sig = .int then .default else w.onInt
      onTstp := if sig = .tstp then .default else w.onTstp
      interrupted := w.interrupted || inCall && w.pc.blocks }
  else w

/-- By default SIGINT ends the shell; SIGTSTP stops it until it is continued. -/
def signal (systemV : Bool) (sig : Signal) (inCall : Bool) (w : World) : Option World :=
  match w.disposition sig with
  | .ignore => some w
  | .handler => some ((w.caught systemV sig inCall).runHandler sig)
  | .default => if sig = .tstp then some w else none

/-- What `fork` can return to the parent. -/
def Forks (pid : Int) (w : World) : Prop := 0 < pid ∧ pid ≠ w.shell ∧ pid ∉ w.children.pids

instance (pid : Int) (w : World) : Decidable (w.Forks pid) := inferInstanceAs (Decidable (_ ∧ _))

/-- The children after a fork, which may have failed. -/
def forked (pid : Int) (args : Args) (w : World) : Children Args :=
  if pid = -1 then w.children else w.children.fork pid args

def launchFg (pid : Int) (args : Args) (w : World) : World :=
  { w.installHandlers .handler with
    children := w.forked pid args
    fgPid := pid
    pc := .foreground pid }

def endForeground (w : World) : World :=
  { w.installHandlers .ignore with fgPid := -1, pc := .command }

def launchBg (pid : Int) (cmd : ShellCmd (List Char)) (w : World) : World :=
  { w with
    children := w.forked pid (bgArgs cmd)
    table := w.table.launchInBg pid cmd }

/-- `do_fg` up to the second assignment to `fg_pid`. -/
def fg (jid junk : Int) (w : World) : World :=
  match w.table.pick jid with
  | none => w
  | some k =>
      let i := w.table.pickIndex jid junk k
      match w.table.jobs[k]? with
      | none => w
      | some job =>
          if job.state = .stopped then
            { w.installHandlers .handler with
              table := w.table.setState k .running
              fgPid := job.pid
              pc := .resuming k i }
          else { w with pc := .resuming k i }

def beginWait (k : Nat) (i : Int) (w : World) : World :=
  { w.installHandlers .handler with fgPid := w.shell, pc := .bringing k i }

/-- What the wait call that the shell is in waits for. -/
def waitTarget (w : World) : Option (Int × WaitOptions) :=
  match w.pc with
  | .foreground pid => some (pid, { untraced := true })
  | .bringing k _ => w.table.jobs[k]?.map fun job => (job.pid, { untraced := true })
  | .reaping _ => some (-1, {})
  | _ => none

/-- What the code does behind a wait call, by the value of `WIFSTOPPED`. -/
def returned (stopped : Bool) (w : World) : World :=
  match w.pc with
  | .foreground _ => { w with pc := .waited }
  | .bringing k i =>
      { w with
        table := if stopped then w.table.setState k .stopped else w.table.removeJob i
        fgPid := -1
        pc := .command }
  | .reaping left => { w with pc := .reapLoop (left - 1) }
  | _ => w

def collected (pid : Int) (r : Report) (w : World) : World :=
  { w with children := w.children.collect pid r }

/-- The status of `pid` that the wait call the shell is in can return. -/
def waitStatus (pid : Int) (w : World) : Option Report :=
  match w.waitTarget with
  | some (target, o) =>
      if w.interrupted then none
      else ((w.children.child? pid).filter (·.Answers target)).bind (·.status o)
  | none => none

/-- The wait call was interrupted, or there is no child that it waits for. -/
def WaitFails (w : World) : Prop :=
  ∃ x ∈ w.waitTarget, w.interrupted = true ∨ ∀ c ∈ w.children, ¬ c.Answers x.1

instance (w : World) : Decidable w.WaitFails := by
  unfold WaitFails
  infer_instance

/-- The options of `check_jobs`. -/
def checkOptions : WaitOptions := { untraced := true, continued := true }

/-- The status of `pid` that the `waitpid` of `check_jobs` can return. -/
def checkable (pid : Int) (w : World) : Option Report :=
  (w.children.child? pid).bind (·.status checkOptions)

def next (systemV : Bool) : Event → World → Option World
  | .happens r pid, w =>
      if (w.children.child? pid).any (·.CanHappen r) then
        some { w with children := w.children.update pid (·.happen r) }
      else none
  | .signal sig inCall, w => w.signal systemV sig inCall
  | .checkReport pid, w =>
      if w.pc = .checking then
        (w.checkable pid).map fun r => { w.collected pid r with table := w.table.checkReport pid r }
      else none
  | .checkDone, w =>
      if w.pc = .checking ∧ ∀ c ∈ w.children, c.status checkOptions = none then
        some { w with pc := .prompt }
      else none
  | .readLine, w =>
      -- an interrupted `fgets` fails, and `main` leaves through `handle_eof`
      if w.pc = .prompt ∧ w.interrupted = false then some { w with pc := .command } else none
  | .endLine, w => if w.pc = .command then some { w with pc := .checking } else none
  | .launchFg pid args, w =>
      if w.pc = .command ∧ (pid = -1 ∨ w.Forks pid) then some (w.launchFg pid args) else none
  | .endForeground, w => if w.pc = .waited then some w.endForeground else none
  | .launchBg pid line, w =>
      match parseLine line.text with
      | some cmd =>
          if w.pc = .command ∧ (pid = -1 ∨ w.Forks pid) ∧ cmd.trailingAmp ∧ cmd.bgUntil ≠ -1 then
            some (w.launchBg pid cmd)
          else none
      | none => none
  | .fg jid junk, w => if w.pc = .command then some (w.fg jid junk) else none
  | .beginWait, w =>
      match w.pc with
      | .resuming k i => some (w.beginWait k i)
      | _ => none
  | .bg jid, w => if w.pc = .command then some { w with table := w.table.doBg jid } else none
  | .activities, w => if w.pc = .command then some { w with table := w.table.activities } else none
  | .pipeline natoms, w =>
      if w.pc = .command then some { w with stages := [], pc := .forkLoop natoms natoms } else none
  | .forkStage pid args, w =>
      -- a fork that fails ends the shell
      match w.pc with
      | .forking left natoms =>
          if w.Forks pid then
            some { w with
              children := w.children.fork pid args
              stages := w.stages ++ [pid]
              pc := .forkLoop (left - 1) natoms }
          else none
      | _ => none
  | .waitReturns pid, w =>
      (w.waitStatus pid).map fun r => (w.collected pid r).returned (r = .stopped)
  | .waitFails junkStopped, w =>
      if w.WaitFails then some ({ w with interrupted := false }.returned junkStopped) else none

/-- What `check_jobs` receives in a step. -/
def received (e : Event) (w : World) : List (Int × Report) :=
  match e with
  | .checkReport pid => ((w.checkable pid).map (pid, ·)).toList
  | _ => []

def machine (systemV : Bool) : Mealy Event (Int × Report) World where
  step e w := (w.next systemV e).map (·, w.received e)

/-- The shell at its first `check_jobs`. -/
def start (shell : Int) : World := { shell }

variable {systemV : Bool} {w w' : World}

theorem next_of_step {e : Event} {out : List (Int × Report)}
    (h : (machine systemV).step e w = some (w', out)) :
    w.next systemV e = some w' ∧ out = w.received e := by
  simp only [machine, Option.map_eq_some_iff, Prod.mk.injEq] at h
  obtain ⟨_, hnext, rfl, hout⟩ := h
  exact ⟨hnext, hout.symm⟩

theorem of_guarded {p : Prop} [Decidable p] {s : World}
    (h : (if p then some s else none) = some w') : p ∧ w' = s := by
  obtain ⟨hp, hs⟩ := Option.ite_none_right_eq_some.mp h
  exact ⟨hp, (Option.some.inj hs).symm⟩

theorem next_checkReport {pid : Int} (h : w.next systemV (.checkReport pid) = some w') :
    w.pc = .checking ∧ ∃ r, w.checkable pid = some r ∧
      w' = { w.collected pid r with table := w.table.checkReport pid r } := by
  obtain ⟨hpc, hmap⟩ := Option.ite_none_right_eq_some.mp h
  obtain ⟨r, hr, heq⟩ := Option.map_eq_some_iff.mp hmap
  exact ⟨hpc, r, hr, heq.symm⟩

theorem next_waitReturns {pid : Int} (h : w.next systemV (.waitReturns pid) = some w') :
    ∃ r, w.waitStatus pid = some r ∧ w' = (w.collected pid r).returned (r = .stopped) := by
  obtain ⟨r, hr, heq⟩ := Option.map_eq_some_iff.mp h
  exact ⟨r, hr, heq.symm⟩

theorem next_launchBg {pid : Int} {line : TypedLine}
    (h : w.next systemV (.launchBg pid line) = some w') :
    ∃ cmd, parseLine line.text = some cmd ∧ cmd.bgUntil ≠ -1 ∧ w.pc = .command ∧
      (pid = -1 ∨ w.Forks pid) ∧ w' = w.launchBg pid cmd := by
  simp only [next] at h
  split at h
  next cmd hcmd =>
      obtain ⟨⟨hpc, hfork, -, hset⟩, rfl⟩ := of_guarded h
      exact ⟨cmd, hcmd, hset, hpc, hfork, rfl⟩
  next => cases h

theorem next_beginWait (h : w.next systemV .beginWait = some w') :
    ∃ k i, w.pc = .resuming k i ∧ w' = w.beginWait k i := by
  simp only [next] at h
  split at h
  next k i hpc =>
      cases h
      exact ⟨k, i, hpc, rfl⟩
  next => cases h

theorem next_forkStage {pid : Int} {args : Args}
    (h : w.next systemV (.forkStage pid args) = some w') :
    ∃ left natoms, w.pc = .forking left natoms ∧ w.Forks pid ∧ w' =
      { w with
        children := w.children.fork pid args
        stages := w.stages ++ [pid]
        pc := .forkLoop (left - 1) natoms } := by
  simp only [next] at h
  split at h
  next left natoms hpc =>
      obtain ⟨hforks, rfl⟩ := of_guarded h
      exact ⟨left, natoms, hpc, hforks, rfl⟩
  next => cases h

theorem sigtstpHandler_eq (w : World) :
    ∃ fgPid, w.sigtstpHandler =
      { w with
        table := if w.Records then w.table.put w.fgPid fgCmdline .stopped else w.table
        fgPid } := by
  unfold sigtstpHandler
  by_cases hshell : w.fgPid = w.shell
  · exact ⟨w.fgPid, by rw [if_pos hshell, if_neg fun h : w.Records => h.1 hshell]⟩
  by_cases hpos : 0 < w.fgPid
  · have hrecords : w.Records ↔ w.table.jobCount < maxJobs := by simp [Records, hshell, hpos]
    exact ⟨-1, by simp [hshell, hpos, hrecords]⟩
  · exact ⟨w.fgPid, by rw [if_neg hshell, if_neg hpos, if_neg fun h : w.Records => hpos h.2.1]⟩

theorem signal_eq_some {sig : Signal} {inCall : Bool} (h : w.signal systemV sig inCall = some w') :
    ∃ fgPid onInt onTstp interrupted, w' =
      { w with
        table :=
          if sig = .tstp ∧ w.onTstp = .handler ∧ w.Records then
            w.table.put w.fgPid fgCmdline .stopped
          else w.table
        fgPid, onInt, onTstp, interrupted } := by
  unfold signal at h
  split at h
  next hd =>
      cases h
      refine ⟨w.fgPid, w.onInt, w.onTstp, w.interrupted, ?_⟩
      rw [if_neg]
      rintro ⟨rfl, hhandler, -⟩
      cases hd.symm.trans hhandler
  next hd =>
      cases h
      have hcaught : ∃ onInt onTstp interrupted,
          w.caught systemV sig inCall = { w with onInt, onTstp, interrupted } := by
        unfold caught
        split
        · exact ⟨_, _, _, rfl⟩
        · exact ⟨w.onInt, w.onTstp, w.interrupted, rfl⟩
      obtain ⟨onInt, onTstp, interrupted, hcaught⟩ := hcaught
      rw [hcaught]
      cases sig with
      | int => exact ⟨w.fgPid, onInt, onTstp, interrupted, by simp [runHandler]⟩
      | tstp =>
          obtain ⟨fgPid, hrun⟩ := sigtstpHandler_eq { w with onInt, onTstp, interrupted }
          have hhandler : w.onTstp = .handler := hd
          refine ⟨fgPid, onInt, onTstp, interrupted, ?_⟩
          simp only [runHandler, hrun, hhandler, true_and]
          rfl
  next hd =>
      split at h
      · cases h
        refine ⟨w.fgPid, w.onInt, w.onTstp, w.interrupted, ?_⟩
        rw [if_neg]
        rintro ⟨rfl, hhandler, -⟩
        cases hd.symm.trans hhandler
      · cases h

theorem waitStatus_eq_some {pid : Int} {r : Report} (h : w.waitStatus pid = some r) :
    ∃ target o c, w.waitTarget = some (target, o) ∧ w.interrupted = false ∧
      c ∈ w.children ∧ c.pid = pid ∧ c.Answers target ∧ c.status o = some r := by
  unfold waitStatus at h
  split at h
  next target o htarget =>
      split at h
      · cases h
      next hinterrupted =>
          simp only [Option.bind_eq_some_iff, Option.filter_eq_some_iff, decide_eq_true_eq] at h
          obtain ⟨c, ⟨hc, hanswers⟩, hstatus⟩ := h
          obtain ⟨hmem, hpid⟩ := Children.child?_eq_some hc
          exact ⟨target, o, c, htarget, by simpa using hinterrupted, hmem, hpid, hanswers, hstatus⟩
  next => cases h

theorem waitStatus_ne_continued {pid : Int} {r : Report} (h : w.waitStatus pid = some r) :
    r ≠ .continued := by
  obtain ⟨target, o, c, htarget, -, -, -, -, hstatus⟩ := waitStatus_eq_some h
  have ho : o.continued = false := by
    unfold waitTarget at htarget
    split at htarget
    · cases htarget
      rfl
    · simp only [Option.map_eq_some_iff, Prod.mk.injEq] at htarget
      obtain ⟨job, -, -, rfl⟩ := htarget
      rfl
    · cases htarget
      rfl
    · cases htarget
  rintro rfl
  simpa [ho] using c.status_allowed hstatus

theorem checkable_eq_some {pid : Int} {r : Report} (h : w.checkable pid = some r) :
    ∃ c ∈ w.children, c.pid = pid ∧ c.status checkOptions = some r := by
  simp only [checkable, Option.bind_eq_some_iff] at h
  obtain ⟨c, hc, hstatus⟩ := h
  obtain ⟨hmem, hpid⟩ := Children.child?_eq_some hc
  exact ⟨c, hmem, hpid, hstatus⟩

end World

end OxyC.Shell
