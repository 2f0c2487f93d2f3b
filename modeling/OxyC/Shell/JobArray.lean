import OxyC.Foundation.Compaction
import OxyC.Shell.Process

/-!
# The job table as an array

`remove_job`, `check_jobs` and `do_fg` over the cells of `jobs`, with the lines
they print.  The cells from `job_count` on hold what earlier jobs left there.
-/

namespace OxyC.Shell

open OxyC.Foundation

/-- `jobs` with `job_count`. -/
abbrev JobArray := Packed Job

/-- A status as `waitpid` returns it. -/
inductive Status where
  | exited (code : Nat)
  | signaled (sig : Nat)
  | stopped (sig : Nat)
  | continued
  deriving DecidableEq, Repr

def Status.report : Status → Report
  | .exited _ => .exited
  | .signaled _ => .exited
  | .stopped _ => .stopped
  | .continued => .continued

inductive JobLine where
  | exitedNormally (cmdline : List Char) (pid : Int)
  | killed (cmdline : List Char) (pid : Int) (sig : Nat)
  | stopped (jobId : Int) (cmdline : List Char)
  | cmdline (text : List Char)
  | noSuchJob
  | waitpidError
  deriving DecidableEq, Repr

/-- What the loop of `check_jobs` does to an entry, for a result of `waitpid`. -/
def visitJob (result : Int) (status : Status) (job : Job) : Option Job × List JobLine :=
  if job.pid = result then
    match status with
    | .exited _ => (none, [.exitedNormally job.cmdline job.pid])
    | .signaled sig => (none, [.killed job.cmdline job.pid sig])
    | .stopped _ => (some { job with state := .stopped }, [.stopped job.jobId job.cmdline])
    | .continued => (some { job with state := .running }, [])
  else (some job, [])

namespace JobArray

/-- `failed` tells whether the last call fails with another error than ECHILD. -/
def checkJobs (failed : Bool) : List (Int × Status) → JobArray → JobArray × List JobLine
  | [], t => (t, if failed then [.waitpidError] else [])
  | (result, status) :: results, t =>
      let (t, out) := t.compact (visitJob result status)
      let (t, rest) := checkJobs failed results t
      (t, out ++ rest)

/-- `none` where a cell in front of the array is written to. -/
def removeJob (index : Int) (t : JobArray) : Option JobArray :=
  if index < t.count - 1 ∧ index < 0 then none else some (t.remove index.toNat)

/-- The index of the entry that `job` points to in `do_fg`. -/
def pickJob (jid : Int) (t : JobArray) : Option Nat :=
  if jid = -1 ∧ 0 < t.count then some (t.count - 1)
  else t.entries.findIdx? (·.jobId = jid)

/-- `i` in `do_fg`, which is `junk` where the loop is not run. -/
def pickIndex (jid junk : Int) (k : Nat) (t : JobArray) : Int :=
  if jid = -1 ∧ 0 < t.count then junk else k

def setState (k : Nat) (state : JobState) (t : JobArray) : JobArray :=
  t.modify k fun job => { job with state }

/-- `stopped` is the value of `WIFSTOPPED`; `none` where a cell outside the array is used. -/
def doFg (jid junk : Int) (stopped : Bool) (t : JobArray) : Option (JobArray × List JobLine) :=
  match t.pickJob jid with
  | none => some (t, [.noSuchJob])
  | some k =>
      let i := t.pickIndex jid junk k
      let line := JobLine.cmdline (t.slots k).cmdline
      let t := if (t.slots k).state = .stopped then t.setState k .running else t
      if stopped then
        let t := t.setState k .stopped
        let behind := t.slots t.count
        if (t.count : Int) < maxJobs then
          some (t, [line, .stopped behind.jobId behind.cmdline])
        else none
      else (t.removeJob i).map (·, [line])

/-! ## The table and its entries -/

structure Holds (t : JobArray) (table : JobTable) : Prop where
  jobs : table.jobs = t.entries
  jobCount : table.jobCount = t.count

variable {t : JobArray} {table : JobTable}

theorem visitJob_fst (result : Int) (status : Status) (job : Job) :
    (visitJob result status job).1 = JobTable.checked result status.report job := by
  unfold visitJob JobTable.checked
  split
  · cases status <;> rfl
  · rfl

theorem entries_checked (result : Int) (status : Status) (t : JobArray) :
    (t.compact (visitJob result status)).1.entries =
      t.entries.filterMap (JobTable.checked result status.report) := by
  rw [Packed.entries_compact]
  simp only [visitJob_fst]

theorem Holds.checkReport (h : t.Holds table) (result : Int) (status : Status) :
    Holds (t.compact (visitJob result status)).1 (table.checkReport result status.report) where
  jobs := by
    rw [entries_checked]
    simp only [JobTable.checkReport, JobTable.jobs_checkLoop, h.jobs]
  jobCount := by
    have hle := List.length_filterMap_le (JobTable.checked result status.report) t.entries
    rw [← Packed.length_entries, entries_checked]
    simp only [JobTable.checkReport, JobTable.jobs_checkLoop, h.jobs, h.jobCount,
      Packed.length_entries] at hle ⊢
    omega

theorem entries_setState (k : Nat) (state : JobState) (t : JobArray) :
    (t.setState k state).entries = t.entries.modify k fun job => { job with state } :=
  Packed.entries_modify k _ t

theorem Holds.setState (h : t.Holds table) (k : Nat) (state : JobState) :
    Holds (t.setState k state) (table.setState k state) where
  jobs := by rw [entries_setState, ← h.jobs, JobTable.setState]
  jobCount := h.jobCount

theorem Holds.removeJob {t' : JobArray} (h : t.Holds table) (hpos : 0 < t.count) {index : Int}
    (hremove : t.removeJob index = some t') : Holds t' (table.removeJob index) := by
  unfold JobArray.removeJob at hremove
  split at hremove
  · cases hremove
  · cases hremove
    have hcount := h.jobCount
    constructor
    · simp only [JobTable.removeJob, h.jobs, hcount]
      rw [Packed.entries_remove hpos]
      congr 1
      omega
    · simp only [JobTable.removeJob, Packed.remove]
      omega

theorem Holds.pick (h : t.Holds table) (jid : Int) : table.pick jid = t.pickJob jid := by
  have hcount := h.jobCount
  unfold JobTable.pick pickJob
  rw [h.jobs]
  by_cases hdefault : jid = -1 ∧ 0 < t.count
  · rw [if_pos hdefault, if_pos ⟨hdefault.1, by omega⟩]
    congr 1
    omega
  · rw [if_neg hdefault, if_neg fun hcontra => hdefault ⟨hcontra.1, by omega⟩]

theorem Holds.pickIndex (h : t.Holds table) (jid junk : Int) (k : Nat) :
    table.pickIndex jid junk k = t.pickIndex jid junk k := by
  have hcount := h.jobCount
  unfold JobTable.pickIndex JobArray.pickIndex
  congr 1
  rw [eq_iff_iff]
  exact and_congr_right fun _ => by omega

theorem pickJob_lt {jid : Int} {k : Nat} (hk : t.pickJob jid = some k) : k < t.count := by
  unfold pickJob at hk
  split at hk
  next hdefault =>
      simp only [Option.some.injEq] at hk
      omega
  next =>
      have hlt := (List.findIdx?_eq_some_iff_getElem.mp hk).1
      rwa [Packed.length_entries] at hlt

end JobArray

end OxyC.Shell
