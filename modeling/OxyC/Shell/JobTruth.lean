import OxyC.Shell.Process

/-!
# What the job table tells

Every entry is about a child that has not been reaped, as long as the wait calls
that reap children outside `check_jobs` come upon no recorded job, and the
handler of SIGTSTP records none.
-/

namespace OxyC.Shell

open OxyC.Foundation

structure Job.Truthful (job : Job) (c : Child Args) : Prop where
  pid_eq : c.pid = job.pid
  everStopped : job.state = .stopped → c.everStopped
  cmdline_eq : job.cmdline = cmdlineOf c.launched

instance (job : Job) (c : Child Args) : Decidable (job.Truthful c) :=
  decidable_of_iff (c.pid = job.pid ∧ (job.state = .stopped → c.everStopped) ∧
      job.cmdline = cmdlineOf c.launched)
    ⟨fun h => ⟨h.1, h.2.1, h.2.2⟩, fun h => ⟨h.pid_eq, h.everStopped, h.cmdline_eq⟩⟩

namespace JobTable

/-- The entries of `t` are about different children among `cs`, and true of them. -/
structure Honest (t : JobTable) (cs : Children Args) : Prop where
  jobCount_eq : t.jobCount = t.jobs.length
  jobs_nodup : (t.jobs.map Job.pid).Nodup
  children_nodup : cs.pids.Nodup
  children_pos : ∀ c ∈ cs, 0 < c.pid
  truthful : ∀ job ∈ t.jobs, ∃ c ∈ cs, job.Truthful c

theorem honest_empty : Honest {} [] := by
  refine ⟨rfl, ?_, ?_, ?_, ?_⟩ <;> simp [Children.pids]

namespace Honest

variable {t t' : JobTable} {cs : Children Args} {pid : Int}

theorem child_unique (h : Honest t cs) {c d : Child Args} (hc : c ∈ cs) (hd : d ∈ cs)
    (heq : c.pid = d.pid) : c = d :=
  List.inj_on_of_nodup_map h.children_nodup hc hd heq

theorem truthful_of_pid (h : Honest t cs) {job : Job} (hjob : job ∈ t.jobs) {c : Child Args}
    (hc : c ∈ cs) (hpid : c.pid = job.pid) : job.Truthful c := by
  obtain ⟨d, hd, htruth⟩ := h.truthful job hjob
  have heq := h.child_unique hc hd (hpid.trans htruth.pid_eq.symm)
  exact heq ▸ htruth

theorem pid_mem (h : Honest t cs) {job : Job} (hjob : job ∈ t.jobs) : job.pid ∈ cs.pids := by
  obtain ⟨c, hc, htruth⟩ := h.truthful job hjob
  exact htruth.pid_eq ▸ Children.mem_pids_of_mem hc

theorem grow {cs' : Children Args} (h : Honest t cs) (hpids : cs'.pids = cs.pids)
    (hgrows : ∀ c ∈ cs, ∃ d ∈ cs', Children.Grows c d) : Honest t cs' where
  jobCount_eq := h.jobCount_eq
  jobs_nodup := h.jobs_nodup
  children_nodup := hpids ▸ h.children_nodup
  children_pos := by
    intro c hc
    obtain ⟨d, hd, heq⟩ := Children.mem_pids.mp (hpids ▸ Children.mem_pids_of_mem hc)
    exact heq ▸ h.children_pos d hd
  truthful := by
    intro job hjob
    obtain ⟨c, hc, htruth⟩ := h.truthful job hjob
    obtain ⟨d, hd, hgrow⟩ := hgrows c hc
    refine ⟨d, hd, hgrow.pid_eq.trans htruth.pid_eq, ?_, ?_⟩
    · exact fun hstopped => hgrow.everStopped (htruth.everStopped hstopped)
    · rw [hgrow.launched_eq]
      exact htruth.cmdline_eq

theorem happen (h : Honest t cs) (r : Report) (pid : Int) :
    Honest t (cs.update pid (·.happen r)) :=
  h.grow (Children.pids_happen r) fun _ hc => Children.mem_happen r hc

theorem fork (h : Honest t cs) (hpos : 0 < pid) (hnew : pid ∉ cs.pids) (args : Args) :
    Honest t (cs.fork pid args) where
  jobCount_eq := h.jobCount_eq
  jobs_nodup := h.jobs_nodup
  children_nodup := by
    rw [Children.pids_fork, ← List.concat_eq_append, List.nodup_concat]
    exact ⟨hnew, h.children_nodup⟩
  children_pos := by
    intro c hc
    rw [Children.fork, List.mem_append, List.mem_singleton] at hc
    rcases hc with hc | rfl
    · exact h.children_pos c hc
    · exact hpos
  truthful := by
    intro job hjob
    obtain ⟨c, hc, htruth⟩ := h.truthful job hjob
    exact ⟨c, Children.mem_fork hc args, htruth⟩

/-- A wait call may take any child that is not recorded. -/
theorem collect (h : Honest t cs) {r : Report}
    (hother : r = .exited → ∀ job ∈ t.jobs, job.pid ≠ pid) : Honest t (cs.collect pid r) where
  jobCount_eq := h.jobCount_eq
  jobs_nodup := h.jobs_nodup
  children_nodup := by
    by_cases hr : r = .exited
    · rw [hr, Children.pids_collect_exited]
      exact h.children_nodup.filter _
    · rw [Children.pids_collect hr]
      exact h.children_nodup
  children_pos := by
    intro c hc
    have hmem : c.pid ∈ cs.pids := Children.pids_collect_subset (Children.mem_pids_of_mem hc)
    obtain ⟨d, hd, heq⟩ := Children.mem_pids.mp hmem
    exact heq ▸ h.children_pos d hd
  truthful := by
    intro job hjob
    obtain ⟨c, hc, htruth⟩ := h.truthful job hjob
    have hne : r = .exited → c.pid ≠ pid := fun hr => htruth.pid_eq ▸ hother hr job hjob
    obtain ⟨d, hd, hgrow⟩ := Children.mem_collect hc hne
    refine ⟨d, hd, hgrow.pid_eq.trans htruth.pid_eq, ?_, ?_⟩
    · exact fun hstopped => hgrow.everStopped (htruth.everStopped hstopped)
    · rw [hgrow.launched_eq]
      exact htruth.cmdline_eq

/-- Entries may be moved, removed and marked, if those marked STOPPED have been stopped. -/
theorem keep (h : Honest t cs) (hkeeps : Keeps t t')
    (hstopped : ∀ job ∈ t'.jobs, job.state = .stopped → ∀ c ∈ cs, c.pid = job.pid →
      c.everStopped) : Honest t' cs where
  jobCount_eq := hkeeps.jobCount_eq
  jobs_nodup := hkeeps.nodup (·.2.1) h.jobs_nodup
  children_nodup := h.children_nodup
  children_pos := h.children_pos
  truthful := by
    intro job hjob
    obtain ⟨old, hold, hentry⟩ := hkeeps.exists_entry hjob
    obtain ⟨c, hc, htruth⟩ := h.truthful old hold
    have hpid : c.pid = job.pid := htruth.pid_eq.trans (congrArg (·.2.1) hentry)
    refine ⟨c, hc, hpid, fun hstate => hstopped job hjob hstate c hc hpid, ?_⟩
    exact (congrArg (·.2.2) hentry).symm.trans htruth.cmdline_eq

theorem everStopped (h : Honest t cs) {job : Job} (hjob : job ∈ t.jobs)
    (hstate : job.state = .stopped) {c : Child Args} (hc : c ∈ cs) (hpid : c.pid = job.pid) :
    c.everStopped :=
  (h.truthful_of_pid hjob hc hpid).everStopped hstate

theorem sub (h : Honest t cs) (hkeeps : Keeps t t') (hsub : ∀ job ∈ t'.jobs, job ∈ t.jobs) :
    Honest t' cs :=
  h.keep hkeeps fun job hjob hstate _ hc hpid => h.everStopped (hsub job hjob) hstate hc hpid

theorem setState (h : Honest t cs) {k : Nat} (hk : k < t.jobs.length) {state : JobState}
    (hstopped : state = .stopped → ∀ job ∈ t.jobs[k]?, ∀ c ∈ cs, c.pid = job.pid →
      c.everStopped) : Honest (t.setState k state) cs := by
  refine h.keep (keeps_setState h.jobCount_eq hk state) ?_
  intro job hjob hstate c hc hpid
  rcases mem_setState hjob with hold | ⟨old, hold, rfl⟩
  · exact h.everStopped hold hstate hc hpid
  · exact hstopped hstate old hold c hc hpid

theorem doBg (h : Honest t cs) (jid : Int) : Honest (t.doBg jid) cs := by
  unfold JobTable.doBg
  split
  · exact h
  next k hk =>
      split
      · exact h
      · exact h.setState (pick_lt h.jobCount_eq hk) nofun

theorem activities (h : Honest t cs) : Honest t.activities cs :=
  h.sub (keeps_activities h.jobCount_eq) fun _ hjob => (perm_activities t).subset hjob

theorem removeJob (h : Honest t cs) (hne : t.jobs ≠ []) {i : Int} (hi : 0 ≤ i) :
    Honest (t.removeJob i) cs :=
  h.sub (keeps_removeJob h.jobCount_eq hne hi) fun _ hjob => List.mem_of_mem_eraseIdx hjob

theorem launchInBg (h : Honest t cs) (hpos : 0 < pid) (hnew : pid ∉ cs.pids)
    (cmd : ShellCmd (List Char)) :
    Honest (t.launchInBg pid cmd) (cs.fork pid (bgArgs cmd)) := by
  have hforked := h.fork hpos hnew (bgArgs cmd)
  refine ⟨?_, ?_, hforked.children_nodup, hforked.children_pos, ?_⟩
  · exact jobCount_put h.jobCount_eq ..
  · simp only [JobTable.launchInBg, put, List.map_append, List.map_cons, List.map_nil]
    rw [← List.concat_eq_append, List.nodup_concat]
    refine ⟨?_, h.jobs_nodup⟩
    intro hmem
    obtain ⟨job, hjob, heq⟩ := List.mem_map.mp hmem
    exact hnew (heq ▸ h.pid_mem hjob)
  · intro job hjob
    simp only [JobTable.launchInBg, put, List.mem_append, List.mem_singleton] at hjob
    rcases hjob with hjob | rfl
    · exact hforked.truthful job hjob
    · refine ⟨⟨pid, bgArgs cmd, [], false⟩, ?_, ⟨rfl, by simp, rfl⟩⟩
      exact List.mem_append_right _ (List.mem_singleton_self _)

/-- `do_fg` removes the entry of the child that it has reaped. -/
theorem removeJob_collect (h : Honest t cs) {k : Nat} {job : Job} (hjob : t.jobs[k]? = some job)
    {i : Int} (hi : 0 ≤ i) (hmin : min i (t.jobCount - 1) = k) :
    Honest (t.removeJob i) (cs.collect job.pid .exited) := by
  have hne : t.jobs ≠ [] := List.ne_nil_of_mem (List.mem_of_getElem? hjob)
  apply (h.removeJob hne hi).collect
  intro _ other hother heq
  have hk : (max 0 (min i (t.jobCount - 1))).toNat = k := by omega
  simp only [JobTable.removeJob, hk] at hother
  obtain ⟨j, hj, hget⟩ := List.mem_eraseIdx_iff_getElem?.mp hother
  apply hj
  have hlt : j < (t.jobs.map Job.pid).length := by
    simpa using (List.getElem?_eq_some_iff.mp hget).1
  exact (List.getElem?_inj hlt h.jobs_nodup).mp (by simp [hget, hjob, heq])

theorem checkReport (h : Honest t cs) {c : Child Args} (hc : c ∈ cs) {r : Report}
    (hpending : c.pending = some r) :
    Honest (t.checkReport c.pid r) (cs.collect c.pid r) := by
  have hkept : Honest (t.checkReport c.pid r) cs := by
    refine h.keep (keeps_checkReport h.jobCount_eq c.pid r) ?_
    intro job' hjob' hstate d hd hpid
    obtain ⟨job, hjob, hchecked⟩ := mem_checkReport.mp hjob'
    rcases checked_eq_some hchecked with ⟨-, rfl⟩ | ⟨hsame, state, hmarked, rfl⟩
    · exact h.everStopped hjob hstate hd hpid
    · have hr : r = .stopped := by cases r <;> simp_all [marked]
      have hdc : d = c := h.child_unique hd hc (hpid.trans hsame)
      exact hdc ▸ c.everStopped_of_pending (hr ▸ hpending)
  apply hkept.collect
  rintro rfl job' hjob'
  obtain ⟨job, -, hchecked⟩ := mem_checkReport.mp hjob'
  rcases checked_eq_some hchecked with ⟨hother, rfl⟩ | ⟨-, state, hmarked, -⟩
  · exact hother
  · cases hmarked

end Honest

end JobTable

namespace World

def TellsTruth (w : World) : Prop := ∀ job ∈ w.table.jobs, ∃ c ∈ w.children, job.Truthful c

instance (w : World) : Decidable w.TellsTruth := inferInstanceAs (Decidable (∀ _ ∈ _, _))

/-- What the shell knows about the job or the child that it waits for. -/
def Fits (t : JobTable) : Pc → Prop
  | .foreground pid => pid = -1 ∨ 0 < pid ∧ ∀ job ∈ t.jobs, job.pid ≠ pid
  | .resuming k _ | .bringing k _ => k < t.jobs.length
  | _ => True

structure Honest (w : World) : Prop where
  honest : w.table.Honest w.children
  fits : Fits w.table w.pc

def NoJobExited (w : World) : Prop :=
  ∀ c ∈ w.children, c.pending = some .exited → ∀ job ∈ w.table.jobs, job.pid ≠ c.pid

instance (w : World) : Decidable w.NoJobExited := inferInstanceAs (Decidable (∀ _ ∈ _, _ → _))

/--
The steps that keep the table true: the handler of SIGTSTP records nothing, a
background launch forks and finds room, `do_fg` removes the entry it has waited
for and takes no value for a stop that is none, and no recorded job has exited
when a wait call takes any child.
-/
def KeepsTruth (w : World) : Event → Prop
  | .signal sig _ => ¬ (sig = .tstp ∧ w.onTstp = .handler ∧ w.Records)
  | .launchBg pid _ => 0 < pid ∧ w.table.jobCount < maxJobs
  | .waitReturns pid =>
      match w.pc with
      | .foreground target => target = -1 → w.NoJobExited
      | .bringing k i =>
          w.waitStatus pid = some .exited → 0 ≤ i ∧ min i (w.table.jobCount - 1) = k
      | .reaping _ => w.NoJobExited
      | _ => True
  | .waitFails junkStopped =>
      match w.pc with
      | .bringing k i =>
          if junkStopped then
            ∀ job ∈ w.table.jobs[k]?, ∀ c ∈ w.children, c.pid = job.pid → c.everStopped
          else 0 ≤ i
      | _ => True
  | _ => True

instance (w : World) (e : Event) : Decidable (w.KeepsTruth e) := by
  unfold KeepsTruth
  split
  case h_3 => split <;> infer_instance
  case h_4 => split <;> infer_instance
  all_goals infer_instance

theorem honest_start (shell : Int) : (start shell).Honest := ⟨JobTable.honest_empty, trivial⟩

variable {systemV : Bool} {w w' : World}

theorem Honest.tellsTruth (h : w.Honest) : w.TellsTruth := h.honest.truthful

theorem fits_reapLoop (t : JobTable) (left : Nat) : Fits t (.reapLoop left) := by
  unfold Pc.reapLoop
  split <;> trivial

theorem fits_forkLoop (t : JobTable) (left natoms : Nat) : Fits t (.forkLoop left natoms) := by
  unfold Pc.forkLoop
  split
  · exact fits_reapLoop t natoms
  · trivial

theorem forked_of_pos {pid : Int} (hpos : 0 < pid) (args : Args) (w : World) :
    w.forked pid args = w.children.fork pid args := by
  rw [forked, if_neg (by omega)]

namespace Honest

variable (hw : w.Honest)
include hw

theorem signal {sig : Signal} {inCall : Bool} (hguard : w.KeepsTruth (.signal sig inCall))
    (h : w.signal systemV sig inCall = some w') : w'.Honest := by
  obtain ⟨fgPid, onInt, onTstp, interrupted, rfl⟩ := signal_eq_some h
  rw [if_neg hguard]
  exact ⟨hw.honest, hw.fits⟩

theorem launchFg {pid : Int} (hfork : pid = -1 ∨ w.Forks pid) (args : Args) :
    (w.launchFg pid args).Honest := by
  rcases hfork with rfl | ⟨hpos, -, hnew⟩
  · exact ⟨hw.honest, .inl rfl⟩
  · refine ⟨?_, .inr ⟨hpos, ?_⟩⟩
    · simp only [World.launchFg, forked_of_pos hpos]
      exact hw.honest.fork hpos hnew args
    · intro job hjob heq
      exact hnew (heq ▸ hw.honest.pid_mem hjob)

theorem launchBg {pid : Int} (hpos : 0 < pid) (hfork : pid = -1 ∨ w.Forks pid)
    (hpc : w.pc = .command) (cmd : ShellCmd (List Char)) : (w.launchBg pid cmd).Honest := by
  obtain ⟨-, -, hnew⟩ := hfork.resolve_left (by omega)
  refine ⟨?_, ?_⟩
  · simp only [World.launchBg, forked_of_pos hpos]
    exact hw.honest.launchInBg hpos hnew cmd
  · simp [World.launchBg, hpc, Fits]

theorem fg (jid junk : Int) : (w.fg jid junk).Honest := by
  unfold World.fg
  split
  next => exact hw
  next k hpick =>
      have hk := JobTable.pick_lt hw.honest.jobCount_eq hpick
      split
      next => exact hw
      next job hjob =>
          split
          · refine ⟨hw.honest.setState hk nofun, ?_⟩
            change k < (w.table.setState k .running).jobs.length
            rwa [JobTable.length_setState]
          · exact ⟨hw.honest, hk⟩

theorem exists_job {k : Nat} {i : Int} (hpc : w.pc = .bringing k i) :
    ∃ job, w.table.jobs[k]? = some job ∧ job ∈ w.table.jobs ∧ 0 < job.pid ∧
      k < w.table.jobs.length := by
  have hk : k < w.table.jobs.length := by simpa [hpc, Fits] using hw.fits
  have hjob := List.getElem?_eq_getElem hk
  obtain ⟨c, hc, htruth⟩ := hw.honest.truthful _ (List.getElem_mem hk)
  exact ⟨_, hjob, List.getElem_mem hk, htruth.pid_eq ▸ hw.honest.children_pos c hc, hk⟩

theorem waitReturns {pid : Int} (hguard : w.KeepsTruth (.waitReturns pid)) {r : Report}
    (hr : w.waitStatus pid = some r) :
    ((w.collected pid r).returned (r = .stopped)).Honest := by
  obtain ⟨target, o, c, htarget, -, hc, rfl, hanswers, hstatus⟩ := waitStatus_eq_some hr
  have hpending := c.pending_of_status hstatus
  cases hpc : w.pc with
  | foreground pid =>
      have hfits := hw.fits
      rw [hpc] at hfits
      have htarget' : target = pid := by simp_all [waitTarget]
      simp only [KeepsTruth, hpc] at hguard
      simp only [returned, collected, hpc]
      refine ⟨hw.honest.collect ?_, trivial⟩
      rintro rfl job hjob
      rcases hfits with hany | ⟨hpos, hother⟩
      · exact hguard hany c hc hpending job hjob
      · have hpid : c.pid = pid := by rcases hanswers with h | h <;> omega
        exact hpid ▸ hother job hjob
  | bringing k i =>
      obtain ⟨job, hget, hjob, hpos, hk⟩ := hw.exists_job hpc
      have htarget' : target = job.pid := by simp_all [waitTarget]
      have hpid : c.pid = job.pid := by rcases hanswers with h | h <;> omega
      simp only [returned, collected, hpc]
      cases r with
      | continued => exact absurd rfl (waitStatus_ne_continued hr)
      | stopped =>
          simp only [decide_true, if_true]
          have hmarked : (w.table.setState k .stopped).Honest w.children := by
            refine hw.honest.setState hk ?_
            intro _ job' hjob' d hd hdpid
            cases hget.symm.trans hjob'
            have hdc : d = c := hw.honest.child_unique hd hc (hdpid.trans hpid.symm)
            exact hdc ▸ c.everStopped_of_pending hpending
          exact ⟨hmarked.collect (r := .stopped) nofun, trivial⟩
      | exited =>
          simp only [KeepsTruth, hpc] at hguard
          obtain ⟨hi, hmin⟩ := hguard hr
          rw [hpid]
          exact ⟨hw.honest.removeJob_collect hget hi hmin, trivial⟩
  | reaping left =>
      simp only [KeepsTruth, hpc] at hguard
      simp only [returned, collected, hpc]
      refine ⟨hw.honest.collect ?_, fits_reapLoop _ _⟩
      rintro rfl job hjob
      exact hguard c hc hpending job hjob
  | checking | prompt | command | waited | resuming | forking =>
      simp [waitTarget, hpc] at htarget

theorem waitFails {junkStopped : Bool} (hguard : w.KeepsTruth (.waitFails junkStopped))
    (hfails : w.WaitFails) : ({ w with interrupted := false }.returned junkStopped).Honest := by
  obtain ⟨x, hx, -⟩ := hfails
  cases hpc : w.pc with
  | foreground pid =>
      simp only [returned]
      exact ⟨hw.honest, trivial⟩
  | bringing k i =>
      obtain ⟨job, hget, hjob, hpos, hk⟩ := hw.exists_job hpc
      simp only [KeepsTruth, hpc] at hguard
      simp only [returned]
      cases junkStopped with
      | true => exact ⟨hw.honest.setState hk fun _ => by simpa using hguard, trivial⟩
      | false =>
          have hi : 0 ≤ i := by simpa using hguard
          exact ⟨hw.honest.removeJob (List.ne_nil_of_mem hjob) hi, trivial⟩
  | reaping left =>
      simp only [returned]
      exact ⟨hw.honest, fits_reapLoop _ _⟩
  | checking | prompt | command | waited | resuming | forking =>
      simp [waitTarget, hpc] at hx

theorem next {e : Event} (hguard : w.KeepsTruth e) (h : w.next systemV e = some w') :
    w'.Honest := by
  cases e with
  | happens r pid =>
      obtain ⟨-, rfl⟩ := of_guarded h
      exact ⟨hw.honest.happen r pid, hw.fits⟩
  | signal sig inCall => exact hw.signal hguard h
  | checkReport pid =>
      obtain ⟨hpc, r, hr, rfl⟩ := next_checkReport h
      obtain ⟨c, hc, rfl, hstatus⟩ := checkable_eq_some hr
      refine ⟨hw.honest.checkReport hc (c.pending_of_status hstatus), ?_⟩
      simp [collected, hpc, Fits]
  | launchFg pid args =>
      obtain ⟨⟨-, hfork⟩, rfl⟩ := of_guarded h
      exact hw.launchFg hfork args
  | launchBg pid line =>
      obtain ⟨cmd, -, -, hpc, hfork, rfl⟩ := next_launchBg h
      exact hw.launchBg hguard.1 hfork hpc cmd
  | fg jid junk =>
      obtain ⟨-, rfl⟩ := of_guarded h
      exact hw.fg jid junk
  | beginWait =>
      obtain ⟨k, i, hpc, rfl⟩ := next_beginWait h
      have hfits := hw.fits
      rw [hpc] at hfits
      exact ⟨hw.honest, hfits⟩
  | bg jid =>
      obtain ⟨hpc, rfl⟩ := of_guarded h
      exact ⟨hw.honest.doBg jid, by simp [hpc, Fits]⟩
  | activities =>
      obtain ⟨hpc, rfl⟩ := of_guarded h
      exact ⟨hw.honest.activities, by simp [hpc, Fits]⟩
  | pipeline natoms =>
      obtain ⟨-, rfl⟩ := of_guarded h
      exact ⟨hw.honest, fits_forkLoop ..⟩
  | forkStage pid args =>
      obtain ⟨left, natoms, -, ⟨hpos, -, hnew⟩, rfl⟩ := next_forkStage h
      exact ⟨hw.honest.fork hpos hnew args, fits_forkLoop ..⟩
  | waitReturns pid =>
      obtain ⟨r, hr, rfl⟩ := next_waitReturns h
      exact hw.waitReturns hguard hr
  | waitFails junkStopped =>
      obtain ⟨hfails, rfl⟩ := of_guarded h
      exact hw.waitFails hguard hfails
  | checkDone | readLine | endLine | endForeground =>
      obtain ⟨-, rfl⟩ := of_guarded h
      exact ⟨hw.honest, trivial⟩

end Honest

/-- In a run whose steps all keep the table true, it is true at every prompt. -/
theorem jobTable_truthful {systemV : Bool} {shell : Int} {events : List Event}
    (hguard : (machine systemV).Guarded KeepsTruth events (start shell)) :
    (machine systemV).Always (fun w => w.pc = .prompt → w.TellsTruth) events (start shell) := by
  apply (machine systemV).always_of_guarded (J := Honest) _ _ (honest_start shell) hguard
  · intro e w w' out hw hkeeps hstep
    exact hw.next hkeeps (next_of_step hstep).1
  · exact fun w hw _ => hw.tellsTruth

def sleepLine : TypedLine := ⟨"sleep 5 &".toList, by decide, by decide⟩

/-- A job that is stopped, brought to the foreground and waited for until it exits. -/
def broughtBack : List Event :=
  [.checkDone, .readLine, .launchBg 1001 sleepLine, .endLine, .happens .stopped 1001,
    .checkReport 1001, .checkDone, .readLine, .fg 1 0, .beginWait, .happens .continued 1001,
    .signal .int false, .happens .exited 1001, .waitReturns 1001, .endLine, .checkDone]

theorem jobTable_truthful_broughtBack :
    (machine true).Always (fun w => w.pc = .prompt → w.TellsTruth) broughtBack (start 1000) :=
  jobTable_truthful (by decide)

/-- With System V signals, Ctrl-Z takes the shell out of `waitpid` while the command runs on. -/
def untouched : List Event :=
  [.checkDone, .readLine, .launchFg 1001 ["sleep".toList, "5".toList], .signal .tstp true,
    .waitFails false, .endForeground, .endLine, .checkDone]

/-- With `waitpid` restarted, the command is reaped there and its entry stays. -/
def reapedInForeground : List Event :=
  [.checkDone, .readLine, .launchFg 1001 ["sleep".toList, "5".toList], .signal .tstp true,
    .happens .exited 1001, .waitReturns 1001, .endForeground, .endLine, .checkDone]

/-- Ctrl-Z at a foreground command leaves an entry that is wrong at the next prompt. -/
theorem jobTable_untruthful :
    ¬ (machine true).Always (fun w => w.pc = .prompt → w.TellsTruth) untouched (start 1000) ∧
      ¬ (machine false).Always (fun w => w.pc = .prompt → w.TellsTruth) reapedInForeground
        (start 1000) := by
  constructor
  · exact (machine true).not_always _ _ (fun w => w.pc = .prompt → w.TellsTruth)
      (fun _ h => decide_eq_true h) (by decide)
  · exact (machine false).not_always _ _ (fun w => w.pc = .prompt → w.TellsTruth)
      (fun _ h => decide_eq_true h) (by decide)

end World

end OxyC.Shell
