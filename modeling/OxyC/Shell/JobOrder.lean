import OxyC.Shell.JobSteps
import OxyC.Shell.LaunchText

/-!
# The job that is taken without an argument

`do_fg` and `do_bg` take the last entry of the table.  It is the one recorded
last as long as the ids of the entries increase, which `activities` does not see
to: it sorts by the command lines.
-/

namespace OxyC.Shell

open OxyC.Foundation

namespace JobTable

/-- Without an argument an entry is taken that has the greatest id, if there is any. -/
def SelectsLatest (t : JobTable) : Prop :=
  0 < t.jobCount → ∃ k job, t.pick (-1) = some k ∧ t.jobs[k]? = some job ∧
    ∀ other ∈ t.jobs, other.jobId ≤ job.jobId

instance (t : JobTable) : Decidable t.SelectsLatest :=
  decidable_of_iff (0 < t.jobCount → ((t.pick (-1)).bind fun k => t.jobs[k]?).any fun job =>
      t.jobs.all fun other => other.jobId ≤ job.jobId) <| by
    simp only [SelectsLatest, Option.any_eq_true, Option.bind_eq_some_iff, List.all_eq_true,
      decide_eq_true_eq]
    refine forall_congr' fun _ => ⟨?_, ?_⟩
    · rintro ⟨job, ⟨k, hk, hjob⟩, hall⟩
      exact ⟨k, job, hk, hjob, hall⟩
    · rintro ⟨k, job, hk, hjob, hall⟩
      exact ⟨job, ⟨k, hk, hjob⟩, hall⟩

/-- The new id is greater than those in the table: `next_job_id` has not wrapped around. -/
def Fresh (t : JobTable) : Prop := ∀ job ∈ t.jobs, job.jobId < t.nextJobId

instance (t : JobTable) : Decidable t.Fresh := inferInstanceAs (Decidable (∀ _ ∈ _, _))

/-- `activities` finds the command lines in order. -/
def CmdlinesSorted (t : JobTable) : Prop :=
  t.jobs.Pairwise fun job later => strcmpPos job.cmdline later.cmdline = false

instance (t : JobTable) : Decidable t.CmdlinesSorted :=
  inferInstanceAs (Decidable (List.Pairwise _ _))

/-- The ids increase from entry to entry. -/
structure InOrder (t : JobTable) : Prop where
  jobCount_eq : t.jobCount = t.jobs.length
  sorted : (t.jobs.map Job.entry).Pairwise fun x y => x.1 < y.1

variable {t t' : JobTable}

theorem inOrder_empty : InOrder {} := ⟨rfl, .nil⟩

namespace InOrder

theorem selectsLatest (h : t.InOrder) : t.SelectsLatest := by
  intro hpos
  have hcount := h.jobCount_eq
  have hlt : (t.jobCount - 1).toNat < t.jobs.length := by omega
  refine ⟨(t.jobCount - 1).toNat, t.jobs[(t.jobCount - 1).toNat], if_pos ⟨rfl, hpos⟩,
    List.getElem?_eq_getElem hlt, ?_⟩
  intro other hother
  obtain ⟨i, hi, rfl⟩ := List.mem_iff_getElem.mp hother
  by_cases hlast : i = (t.jobCount - 1).toNat
  · subst hlast
    exact le_rfl
  · have hless := List.pairwise_iff_getElem.mp (List.pairwise_map.mp h.sorted) i
      (t.jobCount - 1).toNat hi hlt (by omega)
    exact hless.le

theorem thins (h : t.InOrder) (hthins : t.Thins t') : t'.InOrder :=
  ⟨hthins.jobCount_eq, h.sorted.sublist hthins.entries⟩

theorem put (h : t.InOrder) (hfresh : t.Fresh) (pid : Int) (cmdline : List Char)
    (state : JobState) : (t.put pid cmdline state).InOrder where
  jobCount_eq := jobCount_put h.jobCount_eq ..
  sorted := by
    simp only [JobTable.put, List.map_append, List.map_cons, List.map_nil]
    rw [List.pairwise_append]
    refine ⟨h.sorted, List.pairwise_singleton _ _, ?_⟩
    simp only [List.forall_mem_map, List.forall_mem_singleton]
    exact hfresh

/-- No round of the sort finds two entries to exchange. -/
theorem activities (h : t.InOrder) (hsorted : t.CmdlinesSorted) : t.activities.InOrder := by
  have hround : ∀ p : Nat × Nat, p.1 < p.2 → t.exchange p = t := by
    intro p hp
    unfold exchange
    split
    next hinside =>
        have hpair := List.pairwise_iff_getElem.mp hsorted p.1 p.2 hinside.1 hinside.2 hp
        rw [if_neg]
        simpa using hpair
    next => rfl
  have hrounds : ∀ rounds : List (Nat × Nat), (∀ p ∈ rounds, p.1 < p.2) →
      rounds.foldl exchange t = t := by
    intro rounds hall
    induction rounds with
    | nil => rfl
    | cons p rounds ih =>
        rw [List.foldl_cons, hround p (hall p List.mem_cons_self)]
        exact ih fun q hq => hall q (List.mem_cons_of_mem p hq)
  have hsame : t.activities = t := by
    apply hrounds
    intro p hp
    obtain ⟨i, -, hi⟩ := List.mem_flatMap.mp hp
    obtain ⟨j, hj, rfl⟩ := List.mem_map.mp hi
    have := (List.mem_range'_1.mp hj).1
    simp only
    omega
  rw [hsame]
  exact h

end InOrder

end JobTable

namespace World

/-- The steps that leave the ids in order. -/
def KeepsOrder (w : World) : Event → Prop
  | .signal sig _ => sig = .tstp ∧ w.onTstp = .handler ∧ w.Records → w.table.Fresh
  | .launchBg _ _ => w.table.Fresh
  | .activities => w.table.CmdlinesSorted
  | _ => True

instance (w : World) : (e : Event) → Decidable (w.KeepsOrder e)
  | .signal _ _ => inferInstanceAs (Decidable (_ ∧ _ ∧ _ → JobTable.Fresh _))
  | .launchBg _ _ => inferInstanceAs (Decidable (JobTable.Fresh _))
  | .activities => inferInstanceAs (Decidable (JobTable.CmdlinesSorted _))
  | .happens _ _ | .checkReport _ | .checkDone | .readLine | .endLine | .launchFg _ _
  | .endForeground | .fg _ _ | .beginWait | .bg _ | .pipeline _ | .forkStage _ _
  | .waitReturns _ | .waitFails _ => isTrue trivial

/-- The table is in order, and `do_fg` stands at one of its entries. -/
structure InOrder (w : World) : Prop where
  table : w.table.InOrder
  pointed : ∀ k ∈ w.pc.job?, k < w.table.jobs.length

variable {systemV : Bool} {w w' : World}

theorem inOrder_start (shell : Int) : (start shell).InOrder :=
  ⟨JobTable.inOrder_empty, by simp [start, Pc.job?]⟩

theorem KeepsOrder.fresh {e : Event} (hguard : w.KeepsOrder e) (hputs : w.PutsJob e) :
    w.table.Fresh := by
  cases e with
  | launchBg pid line => exact hguard
  | signal sig inCall => exact hguard hputs
  | _ => exact hputs.elim

theorem InOrder.next (hw : w.InOrder) {e : Event} (hguard : w.KeepsOrder e)
    (h : w.next systemV e = some w') : w'.InOrder := by
  have hcounted : w.Counted := ⟨hw.table.jobCount_eq, hw.pointed⟩
  obtain ⟨hcounted', hstep⟩ := hcounted.next h
  refine ⟨?_, hcounted'.pointed⟩
  rcases hstep with hthins | ⟨rfl, htable⟩ | ⟨hputs, pid, cmdline, state, htable⟩
  · exact hw.table.thins hthins
  · rw [htable]
    exact hw.table.activities hguard
  · rw [htable]
    exact hw.table.put (hguard.fresh hputs) pid cmdline state

/--
In a run in which `activities` finds the command lines sorted and every new id is greater than
those in the table, `fg` and `bg` without an argument take the job recorded last.
-/
theorem selects_latest {systemV : Bool} {shell : Int} {events : List Event}
    (hguard : (machine systemV).Guarded KeepsOrder events (start shell)) :
    (machine systemV).Always (fun w => w.table.SelectsLatest) events (start shell) := by
  apply (machine systemV).always_of_guarded (J := InOrder) _ _ (inOrder_start shell) hguard
  · intro e w w' out hw hkeeps hstep
    exact hw.next hkeeps (next_of_step hstep).1
  · exact fun w hw => hw.table.selectsLatest

def catLine : TypedLine := ⟨"cat &".toList, by decide, by decide⟩

def lsLine : TypedLine := ⟨"ls &".toList, by decide, by decide⟩

/-- The lines are typed, and the jobs are listed. -/
def launchAndList (first second : TypedLine) : List Event :=
  [.checkDone, .readLine, .launchBg 1001 first, .launchBg 1002 second, .activities]

theorem selects_latest_sorted :
    (machine true).Always (fun w => w.table.SelectsLatest) (launchAndList catLine lsLine)
      (start 1000) :=
  selects_latest (by decide)

/-- The listing puts the older job last. -/
theorem selects_older :
    ¬ (machine true).Always (fun w => w.table.SelectsLatest) (launchAndList lsLine catLine)
      (start 1000) := by
  exact (machine true).not_always _ _ (fun w => w.table.SelectsLatest)
    (fun _ h => decide_eq_true h) (by decide)

end World

end OxyC.Shell
