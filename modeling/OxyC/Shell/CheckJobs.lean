import OxyC.Shell.JobArray

/-!
# What `check_jobs` leaves

The results of `waitpid` come one after the other, each with a loop over the
table.  For an entry only those with its pid count.
-/

namespace OxyC.Shell

open OxyC.Foundation

namespace JobArray

/-- A result says that the child has exited or was killed. -/
def Ended (results : List (Int × Status)) (pid : Int) : Prop :=
  ∃ x ∈ results, x.1 = pid ∧ x.2.report = .exited

instance (results : List (Int × Status)) (pid : Int) : Decidable (Ended results pid) :=
  inferInstanceAs (Decidable (∃ x ∈ results, _))

/-- What the results with the pid say about the state of its entries, one after the other. -/
def marks (results : List (Int × Status)) (pid : Int) : List JobState :=
  (results.filter (·.1 = pid)).filterMap fun x => JobTable.marked x.2.report

/-- The state that the last stop or continuation gives to an entry. -/
def lastState (results : List (Int × Status)) (job : Job) : JobState :=
  (marks results job.pid).getLast?.getD job.state

/-- The entry behind all results. -/
def fate (results : List (Int × Status)) (job : Job) : Option Job :=
  if Ended results job.pid then none else some { job with state := lastState results job }

variable {results : List (Int × Status)} {result : Int} {status : Status} {job : Job}

theorem ended_cons {pid : Int} :
    Ended ((result, status) :: results) pid ↔
      (result = pid ∧ status.report = .exited) ∨ Ended results pid := by
  simp [Ended]

theorem fate_of_other (h : job.pid ≠ result) :
    fate ((result, status) :: results) job = fate results job := by
  have hne : ¬ result = job.pid := fun heq => h heq.symm
  simp only [fate, ended_cons, hne, false_and, false_or, lastState, marks]
  rw [List.filter_cons_of_neg (by simpa using hne)]

theorem fate_of_exited (h : job.pid = result) (hexited : status.report = .exited) :
    fate ((result, status) :: results) job = none := by
  rw [fate, if_pos]
  exact ended_cons.mpr (.inl ⟨h.symm, hexited⟩)

theorem fate_of_marked (h : job.pid = result) {state : JobState}
    (hmarked : JobTable.marked status.report = some state) :
    fate ((result, status) :: results) job = fate results { job with state } := by
  have hrunning : status.report ≠ .exited := by
    intro heq
    rw [heq] at hmarked
    cases hmarked
  have hmarks : marks ((result, status) :: results) job.pid = state :: marks results job.pid := by
    rw [marks, List.filter_cons_of_pos (by simpa using h.symm)]
    simp only [List.filterMap_cons, hmarked, marks]
  have hlast : lastState ((result, status) :: results) job =
      lastState results { job with state } := by
    simp only [lastState, hmarks, List.getLast?_cons, Option.getD_some]
  simp only [fate, ended_cons, hrunning, and_false, false_or, hlast]

theorem fate_cons :
    fate ((result, status) :: results) job =
      (JobTable.checked result status.report job).bind (fate results) := by
  by_cases hpid : job.pid = result
  · cases hmarked : JobTable.marked status.report with
    | none =>
        have hexited : status.report = .exited := by
          cases status <;> first | rfl | cases hmarked
        simp only [fate_of_exited hpid hexited, JobTable.checked, hpid, if_true, hmarked,
          Option.map_none, Option.bind_none]
    | some state =>
        simp only [fate_of_marked hpid hmarked, JobTable.checked, hpid, if_true, hmarked,
          Option.map_some, Option.bind_some]
  · simp only [fate_of_other hpid, JobTable.checked, hpid, if_false, Option.bind_some]

theorem entries_checkJobs (failed : Bool) (results : List (Int × Status)) (t : JobArray) :
    (checkJobs failed results t).1.entries = t.entries.filterMap (fate results) := by
  induction results generalizing t with
  | nil =>
      have hfate : fate [] = some := by
        funext job
        simp [fate, Ended, lastState, marks]
      rw [hfate, List.filterMap_some]
      rfl
  | cons x results ih =>
      obtain ⟨result, status⟩ := x
      have hfate : fate ((result, status) :: results) =
          fun job => (JobTable.checked result status.report job).bind (fate results) :=
        funext fun _ => fate_cons
      rw [hfate, ← List.filterMap_filterMap, ← entries_checked]
      exact ih (t.compact (visitJob result status)).1

theorem filterMap_fate (results : List (Int × Status)) (jobs : List Job) :
    jobs.filterMap (fate results) =
      (jobs.filter fun job => ¬ Ended results job.pid).map fun job =>
        { job with state := lastState results job } := by
  induction jobs with
  | nil => rfl
  | cons job jobs ih =>
      by_cases hended : Ended results job.pid
      · have hfate : fate results job = none := if_pos hended
        rw [List.filterMap_cons_none hfate, List.filter_cons_of_neg (by simpa using hended), ih]
      · have hfate : fate results job = some { job with state := lastState results job } :=
          if_neg hended
        rw [List.filterMap_cons_some hfate, List.filter_cons_of_pos (by simpa using hended),
          List.map_cons, ih]

/--
Whatever `waitpid` returns, exactly the entries of children that have not ended are left, in
their order and with the state that was reported last.
-/
theorem check_jobs_leaves (failed : Bool) (results : List (Int × Status)) (t : JobArray) :
    (checkJobs failed results t).1.entries =
        (t.entries.filter fun job => ¬ Ended results job.pid).map
          (fun job => { job with state := lastState results job }) ∧
      (checkJobs failed results t).1.count =
        (t.entries.filter fun job => ¬ Ended results job.pid).length := by
  have hentries := (entries_checkJobs failed results t).trans (filterMap_fate results t.entries)
  refine ⟨hentries, ?_⟩
  rw [← Packed.length_entries, hentries, List.length_map]

end JobArray

end OxyC.Shell
