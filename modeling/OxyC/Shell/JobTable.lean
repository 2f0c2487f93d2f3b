import OxyC.Shell.LaunchText
import OxyC.Shell.Process

/-!
# The job table over all runs

The table stays well formed exactly in the runs without a fork that fails, a
launch into a full table, an id that overflows and an index below the table.
-/

namespace OxyC.Shell

open OxyC.Foundation

namespace JobTable

structure Ok (t : JobTable) : Prop where
  jobCount_nonneg : 0 ≤ t.jobCount
  jobCount_le : t.jobCount ≤ maxJobs
  writes_inside : ∀ x ∈ t.writes, 0 ≤ x ∧ x < maxJobs
  ids_nodup : (t.jobs.map Job.jobId).Nodup
  ids_lt : ∀ job ∈ t.jobs, job.jobId < t.nextJobId
  pids_pos : ∀ job ∈ t.jobs, 0 < job.pid
  cmdlines_fit : ∀ job ∈ t.jobs, job.cmdline.length < cmdlineSize

/-- What holds of the table in every run. -/
structure Coherent (t : JobTable) : Prop where
  jobCount_eq : t.jobCount = t.jobs.length
  nextJobId_ge : -0x80000000 ≤ t.nextJobId
  nextJobId_le : t.nextJobId ≤ intMax

theorem coherent_empty : Coherent {} := ⟨rfl, by decide, by decide⟩

theorem ok_empty : Ok {} := by
  refine ⟨by decide, by decide, ?_, ?_, ?_, ?_, ?_⟩ <;> simp

variable {t t' : JobTable}

theorem Keeps.coherent (h : Keeps t t') (ht : t.Coherent) : t'.Coherent where
  jobCount_eq := h.jobCount_eq
  nextJobId_ge := h.nextJobId_eq ▸ ht.nextJobId_ge
  nextJobId_le := h.nextJobId_eq ▸ ht.nextJobId_le

theorem Keeps.ok (h : Keeps t t') (hcount : t.jobCount = t.jobs.length) (ht : t.Ok) : t'.Ok where
  jobCount_nonneg := by
    have := h.jobCount_eq
    omega
  jobCount_le := by
    have hlength : t'.jobs.length ≤ t.jobs.length := by simpa using h.entries.length_le
    have := h.jobCount_eq
    have := ht.jobCount_le
    omega
  writes_inside := by
    intro x hx
    rcases h.writes_within x hx with hx | hx
    · exact ht.writes_inside x hx
    · have := ht.jobCount_le
      exact ⟨hx.1, by omega⟩
  ids_nodup := h.nodup Prod.fst ht.ids_nodup
  ids_lt := by
    intro job hjob
    obtain ⟨old, hold, heq⟩ := h.exists_entry hjob
    have hid : old.jobId = job.jobId := congrArg Prod.fst heq
    rw [h.nextJobId_eq, ← hid]
    exact ht.ids_lt old hold
  pids_pos := by
    intro job hjob
    obtain ⟨old, hold, heq⟩ := h.exists_entry hjob
    have hpid : old.pid = job.pid := congrArg (·.2.1) heq
    rw [← hpid]
    exact ht.pids_pos old hold
  cmdlines_fit := by
    intro job hjob
    obtain ⟨old, hold, heq⟩ := h.exists_entry hjob
    have hcmdline : old.cmdline = job.cmdline := congrArg (·.2.2) heq
    rw [← hcmdline]
    exact ht.cmdlines_fit old hold

theorem put_nextJobId (ht : t.Coherent) (h : t.nextJobId ≠ intMax) (pid : Int)
    (cmdline : List Char) (state : JobState) :
    (t.put pid cmdline state).nextJobId = t.nextJobId + 1 := by
  have hge := ht.nextJobId_ge
  have hle := ht.nextJobId_le
  unfold intMax at h hle
  exact Int.bmod_eq_of_le (by omega) (by omega)

theorem coherent_put (ht : t.Coherent) (pid : Int) (cmdline : List Char) (state : JobState) :
    (t.put pid cmdline state).Coherent where
  jobCount_eq := jobCount_put ht.jobCount_eq ..
  nextJobId_ge := by
    have := Int.le_bmod (x := t.nextJobId + 1) (m := 0x100000000) (by decide)
    simpa [put] using this
  nextJobId_le := by
    have := Int.bmod_lt (x := t.nextJobId + 1) (m := 0x100000000) (by decide)
    simp only [put, intMax]
    omega

theorem ok_put_iff (ht : t.Coherent) (hok : t.Ok) (pid : Int) {cmdline : List Char}
    (hfits : cmdline.length < cmdlineSize) (state : JobState) :
    (t.put pid cmdline state).Ok ↔
      0 < pid ∧ t.jobCount < maxJobs ∧ t.nextJobId ≠ intMax := by
  constructor
  · intro h
    refine ⟨h.pids_pos _ (List.mem_append_right _ (List.mem_singleton_self _)), ?_, ?_⟩
    · exact (h.writes_inside t.jobCount (List.mem_cons_self ..)).2
    · intro hmax
      have hlt := h.ids_lt _ (List.mem_append_right _ (List.mem_singleton_self _))
      simp only [put, hmax, intMax] at hlt
      exact absurd hlt (by decide)
  · rintro ⟨hpid, hroom, hmax⟩
    have hnext := put_nextJobId ht hmax pid cmdline state
    refine ⟨?_, ?_, ?_, ?_, ?_, ?_, ?_⟩
    · have := hok.jobCount_nonneg
      simp only [put]
      omega
    · simp only [put]
      omega
    · intro x hx
      simp only [put, List.mem_cons] at hx
      rcases hx with rfl | hx
      · exact ⟨hok.jobCount_nonneg, hroom⟩
      · exact hok.writes_inside x hx
    · simp only [put, List.map_append, List.map_cons, List.map_nil]
      rw [← List.concat_eq_append, List.nodup_concat]
      refine ⟨?_, hok.ids_nodup⟩
      simp only [List.mem_map, not_exists, not_and]
      intro job hjob heq
      have := hok.ids_lt job hjob
      omega
    · intro job hjob
      rw [hnext]
      simp only [put, List.mem_append, List.mem_singleton] at hjob
      rcases hjob with hjob | rfl
      · have := hok.ids_lt job hjob
        omega
      · simp
    · intro job hjob
      simp only [put, List.mem_append, List.mem_singleton] at hjob
      rcases hjob with hjob | rfl
      · exact hok.pids_pos job hjob
      · exact hpid
    · intro job hjob
      simp only [put, List.mem_append, List.mem_singleton] at hjob
      rcases hjob with hjob | rfl
      · exact hok.cmdlines_fit job hjob
      · exact hfits

theorem coherent_removeJob (ht : t.Coherent) (hne : t.jobs ≠ []) (i : Int) :
    (t.removeJob i).Coherent where
  jobCount_eq := jobCount_removeJob ht.jobCount_eq hne i
  nextJobId_ge := ht.nextJobId_ge
  nextJobId_le := ht.nextJobId_le

theorem ok_removeJob_iff (ht : t.Coherent) (hne : t.jobs ≠ []) (hok : t.Ok) (i : Int) :
    (t.removeJob i).Ok ↔ 0 ≤ i := by
  constructor
  · intro h
    by_contra hneg
    have hcount := ht.jobCount_eq
    have hpos := List.length_pos_of_ne_nil hne
    have hmem : i ∈ (t.removeJob i).writes := by
      simp only [removeJob, List.mem_append, List.mem_map, List.mem_range]
      exact .inl ⟨0, by omega, by simp⟩
    have := (h.writes_inside i hmem).1
    omega
  · intro hi
    exact (keeps_removeJob ht.jobCount_eq hne hi).ok ht.jobCount_eq hok

end JobTable

namespace World

/-- What holds of the table and of the pointer into it in every run. -/
structure Coherent (w : World) : Prop where
  table : w.table.Coherent
  pointed : ∀ k ∈ w.pc.job?, k < w.table.jobs.length

def KeepsTable (w : World) : Event → Prop
  | .launchBg pid _ => 0 < pid ∧ w.table.jobCount < maxJobs ∧ w.table.nextJobId ≠ intMax
  | .signal sig _ =>
      sig = .tstp ∧ w.onTstp = .handler ∧ w.Records → w.table.nextJobId ≠ intMax
  | .waitReturns pid => w.waitStatus pid = some .exited → ∀ k i, w.pc = .bringing k i → 0 ≤ i
  | .waitFails junkStopped => junkStopped = false → ∀ k i, w.pc = .bringing k i → 0 ≤ i
  | _ => True

variable {systemV : Bool} {w w' : World}

theorem coherent_start (shell : Int) : (start shell).Coherent :=
  ⟨JobTable.coherent_empty, by simp [start, Pc.job?]⟩

section Steps

variable (hw : w.Coherent) (hok : w.table.Ok)
include hw hok

theorem ok_of_table_eq (htable : w'.table = w.table) (hpc : ∀ k ∈ w'.pc.job?, k ∈ w.pc.job?) :
    w'.Coherent ∧ (w'.table.Ok ↔ True) := by
  refine ⟨⟨htable ▸ hw.table, fun k hk => ?_⟩, by simpa [htable] using hok⟩
  rw [htable]
  exact hw.pointed k (hpc k hk)

theorem ok_moved {pc : Pc} (hpc : pc.job? = none) :
    Coherent { w with pc } ∧ (w.table.Ok ↔ True) :=
  ok_of_table_eq hw hok rfl (by simp [hpc])

/-- A step that moves, marks and removes entries. -/
theorem ok_of_keeps (hkeeps : w.table.Keeps w'.table)
    (hpc : ∀ k ∈ w'.pc.job?, k < w'.table.jobs.length) :
    w'.Coherent ∧ (w'.table.Ok ↔ True) := by
  refine ⟨⟨hkeeps.coherent hw.table, hpc⟩, ?_⟩
  simpa using hkeeps.ok hw.table.jobCount_eq hok

theorem ok_signal {sig : Signal} {inCall : Bool} (h : w.signal systemV sig inCall = some w') :
    w'.Coherent ∧ (w'.table.Ok ↔ w.KeepsTable (.signal sig inCall)) := by
  obtain ⟨fgPid, onInt, onTstp, interrupted, rfl⟩ := signal_eq_some h
  simp only [KeepsTable]
  split
  next hrecords =>
      have hlt : w.table.jobCount < maxJobs := hrecords.2.2.2.2
      have hpid : 0 < w.fgPid := hrecords.2.2.2.1
      refine ⟨⟨JobTable.coherent_put hw.table .., fun k hk => ?_⟩, ?_⟩
      · have := hw.pointed k hk
        rw [JobTable.length_put]
        omega
      · have hfits : fgCmdline.length < cmdlineSize := by decide
        simp [JobTable.ok_put_iff hw.table hok _ hfits, hpid, hlt, hrecords]
  next hrecords =>
      refine ⟨⟨hw.table, hw.pointed⟩, ?_⟩
      simp [hok, hrecords]

theorem ok_launchBg {pid : Int} {line : TypedLine} {cmd : ShellCmd (List Char)}
    (hcmd : parseLine line.text = some cmd) (hset : cmd.bgUntil ≠ -1) (hpc : w.pc = .command) :
    (w.launchBg pid cmd).Coherent ∧
      ((w.launchBg pid cmd).table.Ok ↔ w.KeepsTable (.launchBg pid line)) := by
  have hfits := length_cmdlineOf_bgArgs_lt hcmd hset
  refine ⟨⟨JobTable.coherent_put hw.table .., ?_⟩, JobTable.ok_put_iff hw.table hok pid hfits _⟩
  simp [launchBg, hpc, Pc.job?]

theorem ok_fg (jid junk : Int) :
    (w.fg jid junk).Coherent ∧ ((w.fg jid junk).table.Ok ↔ True) := by
  unfold fg
  split
  next => exact ok_of_table_eq hw hok rfl fun _ hk => hk
  next k hpick =>
      have hk := JobTable.pick_lt hw.table.jobCount_eq hpick
      split
      next => exact ok_of_table_eq hw hok rfl fun _ hk => hk
      next job hjob =>
          split
          · refine ok_of_keeps hw hok (JobTable.keeps_setState hw.table.jobCount_eq hk _) ?_
            intro k' hk'
            cases hk'
            exact (JobTable.length_setState ..).symm ▸ hk
          · refine ok_of_keeps hw hok (.refl hw.table.jobCount_eq) ?_
            intro k' hk'
            cases hk'
            exact hk

theorem ok_returned (stopped : Bool) :
    (w.returned stopped).Coherent ∧ ((w.returned stopped).table.Ok ↔
      (stopped = false → ∀ k i, w.pc = .bringing k i → 0 ≤ i)) := by
  unfold returned
  split
  next hpc =>
      simpa [hpc] using ok_moved hw hok (rfl : Pc.waited.job? = none)
  next k i hpc =>
      have hk : k < w.table.jobs.length := hw.pointed k (by simp [hpc, Pc.job?])
      cases stopped with
      | true =>
          have hkeeps := JobTable.keeps_setState hw.table.jobCount_eq hk .stopped
          refine ⟨⟨hkeeps.coherent hw.table, by simp [Pc.job?]⟩, ?_⟩
          simpa using hkeeps.ok hw.table.jobCount_eq hok
      | false =>
          have hne := List.ne_nil_of_length_pos (Nat.zero_lt_of_lt hk)
          refine ⟨⟨JobTable.coherent_removeJob hw.table hne i, by simp [Pc.job?]⟩, ?_⟩
          simp [JobTable.ok_removeJob_iff hw.table hne hok, hpc]
  next left hpc =>
      simpa [hpc] using ok_moved hw hok (Pc.job?_reapLoop (left - 1))
  next hpc _ =>
      refine ⟨hw, ?_⟩
      simp only [hok, true_iff]
      intro _ k i hbringing
      exact absurd hbringing (hpc k i)

end Steps

theorem next_coherent {e : Event} (hw : w.Coherent) (hok : w.table.Ok)
    (h : w.next systemV e = some w') :
    w'.Coherent ∧ (w'.table.Ok ↔ w.KeepsTable e) := by
  cases e with
  | signal sig inCall => exact ok_signal hw hok h
  | launchBg pid line =>
      obtain ⟨cmd, hcmd, hset, hpc, -, rfl⟩ := next_launchBg h
      exact ok_launchBg hw hok hcmd hset hpc
  | beginWait =>
      obtain ⟨k, i, hpc, rfl⟩ := next_beginWait h
      exact ok_of_table_eq hw hok rfl (by simp [beginWait, hpc, Pc.job?])
  | forkStage pid args =>
      obtain ⟨left, natoms, -, -, rfl⟩ := next_forkStage h
      exact ok_of_table_eq hw hok rfl (by simp)
  | waitReturns pid =>
      obtain ⟨r, hr, rfl⟩ := next_waitReturns h
      have hcollected : (w.collected pid r).Coherent := ⟨hw.table, hw.pointed⟩
      have hreturned := ok_returned hcollected hok (decide (r = .stopped))
      have hne := waitStatus_ne_continued hr
      refine ⟨hreturned.1, hreturned.2.trans ?_⟩
      cases r <;> simp_all [KeepsTable, collected]
  | waitFails junkStopped =>
      obtain ⟨-, rfl⟩ := of_guarded h
      have hcleared : { w with interrupted := false }.Coherent := ⟨hw.table, hw.pointed⟩
      exact ok_returned hcleared hok junkStopped
  | happens r pid =>
      obtain ⟨-, rfl⟩ := of_guarded h
      exact ok_of_table_eq hw hok rfl fun _ hk => hk
  | checkReport pid =>
      obtain ⟨hpc, r, -, rfl⟩ := next_checkReport h
      refine ok_of_keeps hw hok (JobTable.keeps_checkReport hw.table.jobCount_eq pid r) ?_
      simp [collected, hpc, Pc.job?]
  | bg jid =>
      obtain ⟨hpc, rfl⟩ := of_guarded h
      refine ok_of_keeps hw hok (JobTable.keeps_doBg hw.table.jobCount_eq jid) ?_
      simp [hpc, Pc.job?]
  | activities =>
      obtain ⟨hpc, rfl⟩ := of_guarded h
      refine ok_of_keeps hw hok (JobTable.keeps_activities hw.table.jobCount_eq) ?_
      simp [hpc, Pc.job?]
  | fg jid junk =>
      obtain ⟨-, rfl⟩ := of_guarded h
      exact ok_fg hw hok jid junk
  | pipeline natoms =>
      obtain ⟨-, rfl⟩ := of_guarded h
      exact ok_of_table_eq hw hok rfl (by simp)
  | checkDone | readLine | endLine | launchFg | endForeground =>
      obtain ⟨-, rfl⟩ := of_guarded h
      refine ok_of_table_eq hw hok rfl ?_
      simp [launchFg, endForeground, Pc.job?]

/--
In every run the table is well formed exactly if no step forks in vain, finds
the table full, or uses up the last id, and `do_fg` removes no index below 0.
-/
theorem jobTable_ok_iff (systemV : Bool) (shell : Int) (events : List Event) :
    (machine systemV).Always (fun w => w.table.Ok) events (start shell) ↔
      (machine systemV).Guarded ((machine systemV).WhenTaken KeepsTable) events (start shell) := by
  apply (machine systemV).always_iff_guarded_taken (J := Coherent)
  · intro e w w' out hw hok h
    exact next_coherent hw hok (next_of_step h).1
  · exact coherent_start shell
  · exact JobTable.ok_empty

def ampLine : TypedLine := ⟨"a &".toList, by decide, by decide⟩

/-- The table takes the -1 of a fork that failed for a pid. -/
theorem jobTable_failed_fork :
    ¬ (machine true).Always (fun w => w.table.Ok) [.checkDone, .readLine, .launchBg (-1) ampLine]
      (start 1000) := by
  apply (machine true).not_always _ _ (fun w => w.table.jobs.all fun job => 0 < job.pid) _ (by decide)
  intro w hok
  simpa using hok.pids_pos

end World

end OxyC.Shell
