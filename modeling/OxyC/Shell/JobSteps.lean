import OxyC.Shell.Process

/-!
# What a step does to the job table

A step of the shell process marks and removes entries, sorts them, or puts a new
one behind the last.
-/

namespace OxyC.Shell

open OxyC.Foundation

namespace JobTable

/-- Entries are marked or removed; the others stay in their order. -/
structure Thins (t t' : JobTable) : Prop where
  jobCount_eq : t'.jobCount = t'.jobs.length
  nextJobId_eq : t'.nextJobId = t.nextJobId
  entries : (t'.jobs.map Job.entry).Sublist (t.jobs.map Job.entry)

namespace Thins

variable {t : JobTable}

theorem refl (h : t.jobCount = t.jobs.length) : Thins t t := ⟨h, rfl, .refl _⟩

theorem setState (h : t.jobCount = t.jobs.length) (k : Nat) (state : JobState) :
    Thins t (t.setState k state) :=
  ⟨by rw [length_setState]; exact h, rfl, by rw [entry_setState]⟩

theorem removeJob (h : t.jobCount = t.jobs.length) (hne : t.jobs ≠ []) (i : Int) :
    Thins t (t.removeJob i) :=
  ⟨jobCount_removeJob h hne i, rfl, (List.eraseIdx_sublist _ _).map _⟩

theorem checkReport (h : t.jobCount = t.jobs.length) (pid : Int) (r : Report) :
    Thins t (t.checkReport pid r) := by
  have hkeeps := keeps_checkReport h pid r
  refine ⟨hkeeps.jobCount_eq, hkeeps.nextJobId_eq, ?_⟩
  simp only [JobTable.checkReport, jobs_checkLoop]
  exact entries_filterMap pid r t.jobs

theorem doBg (h : t.jobCount = t.jobs.length) (jid : Int) : Thins t (t.doBg jid) := by
  unfold JobTable.doBg
  split
  · exact refl h
  · split
    · exact refl h
    · exact setState h _ _

end Thins

end JobTable

namespace World

/-- The entries are counted, and `do_fg` stands at one of them. -/
structure Counted (w : World) : Prop where
  jobCount_eq : w.table.jobCount = w.table.jobs.length
  pointed : ∀ k ∈ w.pc.job?, k < w.table.jobs.length

/-- The step puts a job into the table. -/
def PutsJob (w : World) : Event → Prop
  | .launchBg _ _ => True
  | .signal sig _ => sig = .tstp ∧ w.onTstp = .handler ∧ w.Records
  | _ => False

/-- What a step does to the table. -/
def TableStep (w w' : World) (e : Event) : Prop :=
  w.table.Thins w'.table ∨ (e = .activities ∧ w'.table = w.table.activities) ∨
    w.PutsJob e ∧ ∃ pid cmdline state, w'.table = w.table.put pid cmdline state

variable {systemV : Bool} {w w' : World} {e : Event}

theorem counted_start (shell : Int) : (start shell).Counted :=
  ⟨rfl, by simp [start, Pc.job?]⟩

namespace Counted

/-- A step that leaves `do_fg`. -/
theorem of_thins (hthins : w.table.Thins w'.table) (hpc : w'.pc.job? = none) :
    w'.Counted ∧ w.TableStep w' e :=
  ⟨⟨hthins.jobCount_eq, by simp [hpc]⟩, .inl hthins⟩

variable (hw : w.Counted)
include hw

theorem of_table_eq (htable : w'.table = w.table) (hpc : ∀ k ∈ w'.pc.job?, k ∈ w.pc.job?) :
    w'.Counted ∧ w.TableStep w' e := by
  refine ⟨⟨htable ▸ hw.jobCount_eq, fun k hk => ?_⟩, .inl ?_⟩
  · rw [htable]
    exact hw.pointed k (hpc k hk)
  · rw [htable]
    exact .refl hw.jobCount_eq

theorem signal {sig : Signal} {inCall : Bool} (h : w.signal systemV sig inCall = some w') :
    w'.Counted ∧ w.TableStep w' (.signal sig inCall) := by
  obtain ⟨fgPid, onInt, onTstp, interrupted, rfl⟩ := signal_eq_some h
  split
  next hrecords =>
      refine ⟨⟨JobTable.jobCount_put hw.jobCount_eq .., fun k hk => ?_⟩,
        .inr (.inr ⟨hrecords, _, _, _, rfl⟩)⟩
      have := hw.pointed k hk
      rw [JobTable.length_put]
      omega
  next => exact hw.of_table_eq rfl fun _ hk => hk

theorem fg (jid junk : Int) : (w.fg jid junk).Counted ∧ w.TableStep (w.fg jid junk) e := by
  unfold World.fg
  split
  next => exact hw.of_table_eq rfl fun _ hk => hk
  next k hpick =>
      have hk := JobTable.pick_lt hw.jobCount_eq hpick
      split
      next => exact hw.of_table_eq rfl fun _ hk => hk
      next job hjob =>
          split
          · have hthins := JobTable.Thins.setState hw.jobCount_eq k .running
            refine ⟨⟨hthins.jobCount_eq, ?_⟩, .inl hthins⟩
            rintro k' ⟨⟩
            exact (JobTable.length_setState ..).symm ▸ hk
          · refine ⟨⟨hw.jobCount_eq, ?_⟩, .inl (.refl hw.jobCount_eq)⟩
            rintro k' ⟨⟩
            exact hk

theorem returned (stopped : Bool) :
    (w.returned stopped).Counted ∧ w.TableStep (w.returned stopped) e := by
  unfold World.returned
  split
  next => exact of_thins (.refl hw.jobCount_eq) rfl
  next k i hpc =>
      have hk : k < w.table.jobs.length := hw.pointed k (by simp [hpc, Pc.job?])
      cases stopped with
      | true => exact of_thins (.setState hw.jobCount_eq k .stopped) rfl
      | false =>
          have hne := List.ne_nil_of_length_pos (Nat.zero_lt_of_lt hk)
          exact of_thins (.removeJob hw.jobCount_eq hne i) rfl
  next => exact of_thins (.refl hw.jobCount_eq) (Pc.job?_reapLoop _)
  next => exact hw.of_table_eq rfl fun _ hk => hk

theorem next (h : w.next systemV e = some w') : w'.Counted ∧ w.TableStep w' e := by
  cases e with
  | signal sig inCall => exact hw.signal h
  | launchBg pid line =>
      obtain ⟨cmd, -, -, hpc, -, rfl⟩ := next_launchBg h
      exact ⟨⟨JobTable.jobCount_put hw.jobCount_eq .., by simp [World.launchBg, hpc, Pc.job?]⟩,
        .inr (.inr ⟨trivial, _, _, _, rfl⟩)⟩
  | beginWait =>
      obtain ⟨k, i, hpc, rfl⟩ := next_beginWait h
      exact hw.of_table_eq rfl (by simp [World.beginWait, hpc, Pc.job?])
  | forkStage pid args =>
      obtain ⟨left, natoms, -, -, rfl⟩ := next_forkStage h
      exact hw.of_table_eq rfl (by simp)
  | waitReturns pid =>
      obtain ⟨r, -, rfl⟩ := next_waitReturns h
      have hcollected : (w.collected pid r).Counted := ⟨hw.jobCount_eq, hw.pointed⟩
      exact hcollected.returned _
  | waitFails junkStopped =>
      obtain ⟨-, rfl⟩ := of_guarded h
      have hcleared : { w with interrupted := false }.Counted := ⟨hw.jobCount_eq, hw.pointed⟩
      exact hcleared.returned junkStopped
  | happens r pid =>
      obtain ⟨-, rfl⟩ := of_guarded h
      exact hw.of_table_eq rfl fun _ hk => hk
  | checkReport pid =>
      obtain ⟨hpc, r, -, rfl⟩ := next_checkReport h
      exact of_thins (.checkReport hw.jobCount_eq pid r) (by simp [collected, hpc, Pc.job?])
  | bg jid =>
      obtain ⟨hpc, rfl⟩ := of_guarded h
      exact of_thins (.doBg hw.jobCount_eq jid) (by simp [hpc, Pc.job?])
  | activities =>
      obtain ⟨hpc, rfl⟩ := of_guarded h
      have hkeeps := JobTable.keeps_activities hw.jobCount_eq
      exact ⟨⟨hkeeps.jobCount_eq, by simp [hpc, Pc.job?]⟩, .inr (.inl ⟨rfl, rfl⟩)⟩
  | fg jid junk =>
      obtain ⟨-, rfl⟩ := of_guarded h
      exact hw.fg jid junk
  | pipeline natoms =>
      obtain ⟨-, rfl⟩ := of_guarded h
      exact hw.of_table_eq rfl (by simp)
  | checkDone | readLine | endLine | launchFg | endForeground =>
      obtain ⟨-, rfl⟩ := of_guarded h
      refine hw.of_table_eq rfl ?_
      simp [World.launchFg, World.endForeground, Pc.job?]

end Counted

end World

end OxyC.Shell
