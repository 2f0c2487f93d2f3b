import OxyC.Shell.JobSteps
import OxyC.Shell.JobTable

/-!
# The listing of the jobs

`activities` sorts the table by the command lines.  The entries stay the same,
and `next_job_id` has given each an id of its own, so a job is found by its id
as before.
-/

namespace OxyC.Shell

open OxyC.Foundation

namespace JobTable

/-- The job that `do_fg` and `do_bg` take. -/
def found (jid : Int) (t : JobTable) : Option Job := (t.pick jid).bind (t.jobs[·]?)

/-- The ids differ and are below the next one. -/
structure IdsDistinct (t : JobTable) : Prop where
  coherent : t.Coherent
  nodup : (t.jobs.map Job.jobId).Nodup
  lt : ∀ job ∈ t.jobs, job.jobId < t.nextJobId

variable {t t' : JobTable}

theorem found_eq_find? {jid : Int} (hjid : jid ≠ -1) :
    t.found jid = t.jobs.find? (·.jobId = jid) := by
  rw [found, pick, if_neg fun h => hjid h.1, List.find?_eq_bind_findIdx?_getElem?]

theorem find?_eq_some_iff {jid : Int} {job : Job} (hnodup : (t.jobs.map Job.jobId).Nodup) :
    t.jobs.find? (·.jobId = jid) = some job ↔ job ∈ t.jobs ∧ job.jobId = jid := by
  constructor
  · intro h
    exact ⟨List.mem_of_find?_eq_some h, by simpa using List.find?_some h⟩
  · rintro ⟨hjob, hid⟩
    have hsome : (t.jobs.find? (·.jobId = jid)).isSome := by
      rw [List.find?_isSome]
      exact ⟨job, hjob, decide_eq_true hid⟩
    obtain ⟨other, hother⟩ := Option.isSome_iff_exists.mp hsome
    have hsame : other.jobId = job.jobId := by
      rw [hid]
      simpa using List.find?_some hother
    rw [hother, List.inj_on_of_nodup_map hnodup (List.mem_of_find?_eq_some hother) hjob hsame]

/-- The order of the entries does not matter for a job that is named by its id. -/
theorem found_of_perm (hperm : t'.jobs.Perm t.jobs) (hnodup : (t.jobs.map Job.jobId).Nodup)
    {jid : Int} (hjid : jid ≠ -1) : t'.found jid = t.found jid := by
  have hnodup' : (t'.jobs.map Job.jobId).Nodup := (hperm.map _).nodup_iff.mpr hnodup
  rw [found_eq_find? hjid, found_eq_find? hjid]
  ext job
  rw [find?_eq_some_iff hnodup', find?_eq_some_iff hnodup, hperm.mem_iff]

/-- The listing sorts the entries, and each is found by its id as before. -/
theorem activities_sorts (t : JobTable) :
    t.activities.jobs.Perm t.jobs ∧
      (t.activities.jobs.Pairwise fun job later => strcmpPos job.cmdline later.cmdline = false) ∧
      ((t.jobs.map Job.jobId).Nodup → ∀ jid ≠ -1, t.activities.found jid = t.found jid) := by
  refine ⟨perm_activities t, ?_, fun hnodup jid hjid => ?_⟩
  · rw [jobs_activities]
    exact pairwise_exchangeSort strictWeak_cmdlineAbove t.jobs
  · exact found_of_perm (perm_activities t) hnodup hjid

/-- Two jobs that the listing exchanges. -/
def exchanged : JobTable where
  jobs := [⟨1, 101, ['b', ' '], .running⟩, ⟨2, 102, ['a', ' '], .stopped⟩]
  jobCount := 2
  nextJobId := 3

theorem activities_sorts_exchanged :
    exchanged.activities.jobs.Perm exchanged.jobs ∧
      (exchanged.activities.jobs.Pairwise fun job later =>
        strcmpPos job.cmdline later.cmdline = false) ∧
      exchanged.activities.found 1 = exchanged.found 1 := by
  obtain ⟨hperm, hsorted, hfound⟩ := activities_sorts exchanged
  exact ⟨hperm, hsorted, hfound (by decide) 1 (by decide)⟩

/-! ## The ids in the table -/

namespace IdsDistinct

theorem empty : IdsDistinct {} := ⟨coherent_empty, List.nodup_nil, by simp⟩

theorem of_subperm (h : t.IdsDistinct) (hcount : t'.jobCount = t'.jobs.length)
    (hnext : t'.nextJobId = t.nextJobId)
    (hsub : (t'.jobs.map Job.entry).Subperm (t.jobs.map Job.entry)) : t'.IdsDistinct := by
  have hids : (t'.jobs.map Job.jobId).Subperm (t.jobs.map Job.jobId) := by
    obtain ⟨entries, hperm, hsublist⟩ := hsub
    have hmap : ∀ jobs : List Job, jobs.map Job.jobId = (jobs.map Job.entry).map Prod.fst := by
      simp [Job.entry]
    rw [hmap, hmap]
    exact ⟨entries.map Prod.fst, hperm.map _, hsublist.map _⟩
  refine ⟨⟨hcount, hnext ▸ h.coherent.nextJobId_ge, hnext ▸ h.coherent.nextJobId_le⟩, ?_, ?_⟩
  · obtain ⟨ids, hperm, hsublist⟩ := hids
    exact hperm.nodup_iff.mp (h.nodup.sublist hsublist)
  · intro job hjob
    obtain ⟨old, hold, hid⟩ := List.mem_map.mp (hids.subset (List.mem_map_of_mem hjob))
    rw [hnext, ← hid]
    exact h.lt old hold

theorem put (h : t.IdsDistinct) (hmax : t.nextJobId ≠ intMax) (pid : Int) (cmdline : List Char)
    (state : JobState) : (t.put pid cmdline state).IdsDistinct where
  coherent := coherent_put h.coherent pid cmdline state
  nodup := by
    rw [JobTable.put, List.map_append, List.map_singleton, List.nodup_append_comm,
      List.singleton_append, List.nodup_cons]
    refine ⟨fun hmem => ?_, h.nodup⟩
    obtain ⟨job, hjob, hid⟩ := List.mem_map.mp hmem
    have := h.lt job hjob
    simp only at hid
    omega
  lt := by
    intro job hjob
    rw [put_nextJobId h.coherent hmax]
    rcases List.mem_append.mp hjob with hold | hnew
    · have := h.lt job hold
      omega
    · rw [List.mem_singleton.mp hnew]
      exact Int.lt_succ_self _

end IdsDistinct

end JobTable

namespace World

/-- A new job finds an id below the greatest `int`. -/
def IdsLast (w : World) (e : Event) : Prop := w.PutsJob e → w.table.nextJobId ≠ intMax

variable {systemV : Bool}

/-- The ids in the table differ in every run in which `next_job_id` does not wrap around. -/
theorem idsDistinct_of_run {shell : Int} {events : List Event}
    (hguard : (machine systemV).Guarded IdsLast events (start shell)) :
    (machine systemV).Always (fun w => w.table.IdsDistinct) events (start shell) := by
  apply (machine systemV).always_of_guarded (J := fun w => w.Counted ∧ w.table.IdsDistinct) _ _
    ⟨counted_start shell, JobTable.IdsDistinct.empty⟩ hguard
  · rintro e w w' out ⟨hcounted, hids⟩ hlast hstep
    obtain ⟨hcounted', htable⟩ := hcounted.next (next_of_step hstep).1
    refine ⟨hcounted', ?_⟩
    rcases htable with hthins | ⟨-, hsorted⟩ | ⟨hputs, pid, cmdline, state, hput⟩
    · exact hids.of_subperm hthins.jobCount_eq hthins.nextJobId_eq hthins.entries.subperm
    · rw [hsorted]
      have hkeeps := JobTable.keeps_activities hcounted.jobCount_eq
      exact hids.of_subperm hkeeps.jobCount_eq hkeeps.nextJobId_eq hkeeps.entries
    · rw [hput]
      exact hids.put (hlast hputs) pid cmdline state
  · exact fun w hw => hw.2

end World

end OxyC.Shell
