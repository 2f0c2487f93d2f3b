import OxyC.Shell.JobSteps

/-!
# Ctrl-C and Ctrl-D

Which process group `sigint_handler` signals and which ones `handle_eof` kills.
-/

namespace OxyC.Shell

open OxyC.Foundation

namespace JobTable

def pids (t : JobTable) : List Int := t.jobs.map Job.pid

theorem pids_put (pid : Int) (cmdline : List Char) (state : JobState) (t : JobTable) :
    (t.put pid cmdline state).pids = t.pids ++ [pid] := by
  simp [pids, put]

theorem pids_setState (k : Nat) (state : JobState) (t : JobTable) :
    (t.setState k state).pids = t.pids := by
  have h := congrArg (List.map fun x : Int × Int × List Char => x.2.1)
    (entry_setState k state t)
  simpa [pids, Function.comp_def, Job.entry] using h

theorem pids_doBg (jid : Int) (t : JobTable) : (t.doBg jid).pids = t.pids := by
  unfold doBg
  split
  · rfl
  · split
    · rfl
    · exact pids_setState _ _ t

theorem mem_pids_activities {pid : Int} {t : JobTable} (h : pid ∈ t.pids) :
    pid ∈ t.activities.pids :=
  ((perm_activities t).map Job.pid).mem_iff.mpr h

theorem mem_pids_checkReport {pid pid' : Int} {r : Report} {t : JobTable} (h : pid ∈ t.pids)
    (hother : r = .exited → pid ≠ pid') : pid ∈ (t.checkReport pid' r).pids := by
  obtain ⟨job, hjob, rfl⟩ := List.mem_map.mp h
  have hkept : ∃ job', checked pid' r job = some job' := by
    unfold checked
    split
    next hpid =>
        cases r with
        | exited => exact absurd hpid (hother rfl)
        | stopped => exact ⟨_, rfl⟩
        | continued => exact ⟨_, rfl⟩
    next => exact ⟨job, rfl⟩
  obtain ⟨job', hchecked⟩ := hkept
  have hentry := congrArg (·.2.1) (entry_checked hchecked)
  exact List.mem_map.mpr ⟨job', mem_checkReport.mpr ⟨job, hjob, hchecked⟩, hentry⟩

/-- Removing the entry at `k` drops no other process id. -/
theorem mem_pids_removeJob {pid : Int} {k : Nat} {job : Job} {t : JobTable}
    (hcount : t.jobCount = t.jobs.length) (hjob : t.jobs[k]? = some job) (h : pid ∈ t.pids)
    (hother : pid ≠ job.pid) : pid ∈ (t.removeJob k).pids := by
  obtain ⟨other, hmem, rfl⟩ := List.mem_map.mp h
  obtain ⟨j, hj⟩ := List.mem_iff_getElem?.mp hmem
  have hk := (List.getElem?_eq_some_iff.mp hjob).1
  have hindex : (max 0 (min (k : Int) (t.jobCount - 1))).toNat = k := by omega
  refine List.mem_map.mpr ⟨other, ?_, rfl⟩
  simp only [removeJob, hindex]
  refine List.mem_eraseIdx_iff_getElem?.mpr ⟨j, ?_, hj⟩
  rintro rfl
  rw [hj] at hjob
  cases hjob
  exact hother rfl

end JobTable

namespace World

def Event.forks? : Event → Option Int
  | .launchFg pid _ | .launchBg pid _ | .forkStage pid _ => some pid
  | _ => none

/-- The event that a process id stems from; ids are used again. -/
def lastFork (es : List Event) (pid : Int) : Option Event :=
  es.reverse.find? fun e => e.forks? = some pid

def LaunchedFg (es : List Event) (pid : Int) : Prop :=
  ∃ args, lastFork es pid = some (.launchFg pid args)

def LaunchedBg (es : List Event) (pid : Int) : Prop :=
  ∃ line, lastFork es pid = some (.launchBg pid line)

theorem lastFork_concat (es : List Event) (e : Event) (pid : Int) :
    lastFork (es ++ [e]) pid = if e.forks? = some pid then some e else lastFork es pid := by
  rw [lastFork, List.reverse_concat, List.find?_cons]
  split <;> simp_all [lastFork]

/-! ## Ctrl-C -/

/-- What `fg_pid` is when the handler may signal it. -/
def Aims (t : JobTable) (target : Int) : Pc → Prop
  | .foreground pid => target = pid
  | .waited => True
  | .resuming k _ => ∃ job, t.jobs[k]? = some job ∧ job.pid = target
  | _ => False

structure Aimed (systemV : Bool) (es : List Event) (w : World) : Prop where
  child : ∀ pid, w.pc = .foreground pid →
    pid = -1 ∨ (0 < pid ∧ pid ≠ w.shell) ∧ pid ∈ w.children.pids ∧ LaunchedFg es pid
  /-- The handlers stay installed, and only that of SIGTSTP forgets the command. -/
  held : ∀ pid, w.pc = .foreground pid →
    (w.fgPid = pid ∨ w.fgPid = -1) ∧ (systemV = false → w.onInt = .handler)
  aim : 0 < w.fgPid → w.fgPid ≠ w.shell → Aims w.table w.fgPid w.pc

variable {systemV : Bool} {w w' : World} {es : List Event} {e : Event}

theorem reapLoop_ne_foreground (left : Nat) (pid : Int) : .reapLoop left ≠ Pc.foreground pid := by
  unfold Pc.reapLoop
  split <;> exact nofun

theorem forkLoop_ne_foreground (left natoms : Nat) (pid : Int) :
    .forkLoop left natoms ≠ Pc.foreground pid := by
  unfold Pc.forkLoop
  split
  · exact reapLoop_ne_foreground natoms pid
  · exact nofun

theorem sigtstpHandler_fgPid (w : World) :
    w.sigtstpHandler.fgPid = w.fgPid ∨ w.sigtstpHandler.fgPid = -1 := by
  unfold sigtstpHandler
  split
  · exact .inl rfl
  · split
    · exact .inr rfl
    · exact .inl rfl

theorem signal_fgPid {sig : Signal} {inCall : Bool} (h : w.signal systemV sig inCall = some w') :
    w'.fgPid = w.fgPid ∨ w'.fgPid = -1 := by
  have hcaught : (w.caught systemV sig inCall).fgPid = w.fgPid := by
    unfold caught
    split <;> rfl
  unfold signal at h
  split at h
  · cases h
    exact .inl rfl
  · cases h
    cases sig with
    | int => exact .inl hcaught
    | tstp =>
        rw [← hcaught]
        exact sigtstpHandler_fgPid _
  · split at h
    · cases h
      exact .inl rfl
    · cases h

/-- A handler that stays installed is all that a signal is to the shell. -/
theorem signal_bsd {sig : Signal} {inCall : Bool} (h : w.signal false sig inCall = some w') :
    w' = w ∨ w' = w.runHandler sig := by
  unfold signal at h
  split at h
  · exact .inl (Option.some.inj h).symm
  · exact .inr (Option.some.inj h).symm
  · split at h
    · exact .inl (Option.some.inj h).symm
    · cases h

theorem runHandler_eq (sig : Signal) (w : World) :
    ∃ table fgPid, w.runHandler sig = { w with table, fgPid } := by
  cases sig with
  | int => exact ⟨w.table, w.fgPid, rfl⟩
  | tstp =>
      obtain ⟨fgPid, heq⟩ := sigtstpHandler_eq w
      exact ⟨_, fgPid, heq⟩

theorem signal_onInt {sig : Signal} {inCall : Bool} (h : w.signal systemV sig inCall = some w') :
    systemV = false → w'.onInt = w.onInt := by
  rintro rfl
  obtain rfl | rfl := signal_bsd h
  · rfl
  · obtain ⟨table, fgPid, heq⟩ := runHandler_eq sig w
    rw [heq]

theorem LaunchedFg.concat {pid : Int} (h : LaunchedFg es pid) (he : e.forks? ≠ some pid) :
    LaunchedFg (es ++ [e]) pid := by
  obtain ⟨args, hlast⟩ := h
  exact ⟨args, by rw [lastFork_concat, if_neg he, hlast]⟩

theorem launchedFg_concat (es : List Event) (pid : Int) (args : Args) :
    LaunchedFg (es ++ [.launchFg pid args]) pid := by
  refine ⟨args, (lastFork_concat es _ pid).trans (if_pos ?_)⟩
  rfl

namespace Aimed

/-- A step after which no foreground command runs and the handler signals nobody. -/
theorem of_idle (hpc : ∀ pid, w'.pc ≠ .foreground pid)
    (hidle : w'.fgPid = -1 ∨ w'.fgPid = w'.shell) : Aimed systemV es w' where
  child := fun pid h => absurd h (hpc pid)
  held := fun pid h => absurd h (hpc pid)
  aim := by
    intro hpos hne
    obtain h | h := hidle
    · omega
    · exact absurd h hne

/-- A step that starts from a point at which the handler signals nobody, and ends at one. -/
theorem of_not_aims (h : Aimed systemV es w) (haims : ¬ Aims w.table w.fgPid w.pc)
    (hpc : ∀ pid, w'.pc ≠ .foreground pid) (hfgPid : w'.fgPid = w.fgPid)
    (hshell : w'.shell = w.shell) : Aimed systemV (es ++ [e]) w' where
  child := fun pid hforeground => absurd hforeground (hpc pid)
  held := fun pid hforeground => absurd hforeground (hpc pid)
  aim := by
    intro hpos hne
    rw [hfgPid] at hpos hne
    rw [hshell] at hne
    exact absurd (h.aim hpos hne) haims

theorem signal {sig : Signal} {inCall : Bool} (h : Aimed systemV es w)
    (hsignal : w.signal systemV sig inCall = some w') :
    Aimed systemV (es ++ [.signal sig inCall]) w' := by
  have hfgPid := signal_fgPid hsignal
  have honInt := signal_onInt hsignal
  obtain ⟨fgPid, onInt, onTstp, interrupted, rfl⟩ := signal_eq_some hsignal
  dsimp only at hfgPid honInt
  constructor
  case child =>
    intro pid hpc
    refine (h.child pid hpc).imp_right fun ⟨hpos, hmem, hfg⟩ => ⟨hpos, hmem, hfg.concat nofun⟩
  case held =>
    intro pid hpc
    obtain ⟨hheld, hinstalled⟩ := h.held pid hpc
    refine ⟨?_, fun hbsd => (honInt hbsd).trans (hinstalled hbsd)⟩
    obtain rfl | rfl := hfgPid
    · exact hheld
    · exact .inr rfl
  case aim =>
    intro hpos hne
    dsimp only at hpos hne ⊢
    obtain rfl | rfl := hfgPid
    · have haims := h.aim hpos hne
      cases hpc : w.pc with
      | resuming k i =>
          rw [hpc] at haims
          obtain ⟨job, hjob, hpid⟩ := haims
          refine ⟨job, ?_, hpid⟩
          split
          · exact (List.getElem?_append_left (List.getElem?_eq_some_iff.mp hjob).1).trans hjob
          · exact hjob
      | _ =>
          rw [hpc] at haims
          exact haims
    · omega

theorem fg (h : Aimed systemV es w) (hpc : w.pc = .command) (jid junk : Int) :
    Aimed systemV (es ++ [.fg jid junk]) (w.fg jid junk) := by
  have haims : ¬ Aims w.table w.fgPid w.pc := by
    rw [hpc]
    exact id
  have hsame : Aimed systemV (es ++ [.fg jid junk]) w :=
    h.of_not_aims haims (by simp [hpc]) rfl rfl
  unfold World.fg
  split
  · exact hsame
  · split
    · exact hsame
    next k hpick job hjob =>
        split
        · constructor
          · rintro pid ⟨⟩
          · rintro pid ⟨⟩
          · intro _ _
            exact ⟨{ job with state := .running }, by simp [JobTable.setState, hjob], rfl⟩
        · refine h.of_not_aims haims ?_ rfl rfl
          rintro pid ⟨⟩

/-- Behind a wait call, whichever children there are then. -/
theorem returned (h : Aimed systemV es w) (w' : World) (hpc : w'.pc = w.pc)
    (htable : w'.table = w.table)
    (hfgPid : w'.fgPid = w.fgPid) (hshell : w'.shell = w.shell) (stopped : Bool) :
    Aimed systemV (es ++ [e]) (w'.returned stopped) := by
  have haim := h.aim
  rw [← hpc, ← htable, ← hfgPid, ← hshell] at haim
  cases hpoint : w'.pc with
  | foreground pid =>
      simp only [World.returned, hpoint]
      exact ⟨nofun, nofun, fun _ _ => trivial⟩
  | bringing k i =>
      simp only [World.returned, hpoint]
      exact of_idle nofun (.inl rfl)
  | reaping left =>
      simp only [World.returned, hpoint]
      rw [hpoint] at haim
      have hpc' : ∀ pid, .reapLoop (left - 1) ≠ Pc.foreground pid := reapLoop_ne_foreground _
      exact ⟨fun pid hforeground => absurd hforeground (hpc' pid),
        fun pid hforeground => absurd hforeground (hpc' pid),
        fun hpos hne => (haim hpos hne).elim⟩
  | checking | prompt | command | waited | resuming | forking =>
      have hreturned : w'.returned stopped = w' := by simp only [World.returned, hpoint]
      rw [hreturned]
      exact ⟨by simp [hpoint], by simp [hpoint], haim⟩

theorem step (h : Aimed systemV es w) (hnext : w.next systemV e = some w') :
    Aimed systemV (es ++ [e]) w' := by
  cases e with
  | signal sig inCall => exact h.signal hnext
  | happens r pid =>
      obtain ⟨-, rfl⟩ := of_guarded hnext
      refine ⟨fun pid' hpc => ?_, h.held, h.aim⟩
      obtain hfail | ⟨hpos, hmem, hfg⟩ := h.child pid' hpc
      · exact .inl hfail
      · exact .inr ⟨hpos, by simpa using hmem, hfg.concat (by rintro ⟨⟩)⟩
  | checkReport pid =>
      obtain ⟨hpc, r, -, rfl⟩ := next_checkReport hnext
      exact h.of_not_aims (by rw [hpc]; exact id) (by simp [collected, hpc]) rfl rfl
  | checkDone =>
      obtain ⟨⟨hpc, -⟩, rfl⟩ := of_guarded hnext
      exact h.of_not_aims (by rw [hpc]; exact id) (by rintro pid ⟨⟩) rfl rfl
  | readLine =>
      obtain ⟨⟨hpc, -⟩, rfl⟩ := of_guarded hnext
      exact h.of_not_aims (by rw [hpc]; exact id) (by rintro pid ⟨⟩) rfl rfl
  | endLine =>
      obtain ⟨hpc, rfl⟩ := of_guarded hnext
      exact h.of_not_aims (by rw [hpc]; exact id) (by rintro pid ⟨⟩) rfl rfl
  | launchFg pid args =>
      obtain ⟨⟨hpc, hforks⟩, rfl⟩ := of_guarded hnext
      refine ⟨?_, ?_, fun _ _ => rfl⟩ <;> rintro pid' ⟨⟩
      case refine_2 => exact ⟨.inl rfl, fun _ => rfl⟩
      refine hforks.imp_right fun hforks =>
        ⟨⟨hforks.1, hforks.2.1⟩, ?_, launchedFg_concat es pid args⟩
      have hne : pid ≠ -1 := by
        have hpos := hforks.1
        omega
      simp [World.launchFg, forked, hne]
  | endForeground =>
      obtain ⟨-, rfl⟩ := of_guarded hnext
      exact of_idle (by rintro pid ⟨⟩) (.inl rfl)
  | launchBg pid line =>
      obtain ⟨cmd, -, -, hpc, -, rfl⟩ := next_launchBg hnext
      exact h.of_not_aims (by rw [hpc]; exact id) (by simp [World.launchBg, hpc]) rfl rfl
  | fg jid junk =>
      obtain ⟨hpc, rfl⟩ := of_guarded hnext
      exact h.fg hpc jid junk
  | beginWait =>
      obtain ⟨k, i, -, rfl⟩ := next_beginWait hnext
      exact of_idle (by rintro pid ⟨⟩) (.inr rfl)
  | bg jid =>
      obtain ⟨hpc, rfl⟩ := of_guarded hnext
      exact h.of_not_aims (by rw [hpc]; exact id) (by simp [hpc]) rfl rfl
  | activities =>
      obtain ⟨hpc, rfl⟩ := of_guarded hnext
      exact h.of_not_aims (by rw [hpc]; exact id) (by simp [hpc]) rfl rfl
  | pipeline natoms =>
      obtain ⟨hpc, rfl⟩ := of_guarded hnext
      refine h.of_not_aims (by rw [hpc]; exact id) ?_ rfl rfl
      exact forkLoop_ne_foreground natoms natoms
  | forkStage pid args =>
      obtain ⟨left, natoms, hpc, -, rfl⟩ := next_forkStage hnext
      refine h.of_not_aims (by rw [hpc]; exact id) ?_ rfl rfl
      exact forkLoop_ne_foreground (left - 1) natoms
  | waitReturns pid =>
      obtain ⟨r, -, rfl⟩ := next_waitReturns hnext
      exact h.returned (w.collected pid r) rfl rfl rfl rfl _
  | waitFails junkStopped =>
      obtain ⟨-, rfl⟩ := of_guarded hnext
      exact h.returned { w with interrupted := false } rfl rfl rfl rfl junkStopped

end Aimed

/-- Where Ctrl-C takes effect: the shell waits for the command that it has launched, or has just
done so, or is about to bring a job to the foreground. -/
inductive Interrupted (es : List Event) (w : World) (pid : Int) : Prop
  | foreground (waits : w.pc = .foreground pid) (unreaped : pid ∈ w.children.pids)
      (launched : LaunchedFg es pid)
  | waited (waited : w.pc = .waited)
  | resuming (k : Nat) (i : Int) (job : Job) (resumes : w.pc = .resuming k i)
      (entry : w.table.jobs[k]? = some job) (pid_eq : job.pid = pid)

theorem Aimed.interrupted (h : Aimed systemV es w) (hpos : 0 < w.fgPid)
    (hshell : w.fgPid ≠ w.shell) : Interrupted es w w.fgPid := by
  have haim := h.aim hpos hshell
  cases hpc : w.pc with
  | foreground pid =>
      rw [hpc] at haim
      cases haim
      obtain hfail | ⟨-, hmem, hfg⟩ := h.child _ hpc
      · omega
      · exact .foreground hpc hmem hfg
  | waited => exact .waited hpc
  | resuming k i =>
      rw [hpc] at haim
      obtain ⟨job, hjob, hpid⟩ := haim
      exact .resuming k i job hpc hjob hpid
  | _ =>
      rw [hpc] at haim
      exact haim.elim

structure Listed (es : List Event) (w : World) : Prop where
  counted : w.Counted
  interrupted : w.interrupted = false
  children_pos : ∀ pid ∈ w.children.pids, 0 < pid
  /-- `do_fg` stands at the entry that it is going to remove. -/
  pointed : ∀ k i, (w.pc = .resuming k i ∨ w.pc = .bringing k i) → i = k
  listed : ∀ pid ∈ w.children.pids, LaunchedBg es pid → pid ∈ w.table.pids

theorem LaunchedBg.of_concat {pid : Int} (h : LaunchedBg (es ++ [e]) pid)
    (he : e.forks? ≠ some pid) : LaunchedBg es pid := by
  obtain ⟨line, hlast⟩ := h
  rw [lastFork_concat, if_neg he] at hlast
  exact ⟨line, hlast⟩

theorem not_launchedBg_concat {pid : Int} (he : e.forks? = some pid)
    (hfg : ∀ line, e ≠ .launchBg pid line) : ¬ LaunchedBg (es ++ [e]) pid := by
  rintro ⟨line, hlast⟩
  rw [lastFork_concat, if_pos he] at hlast
  exact hfg line (Option.some.inj hlast)

/-! ### Steps -/

namespace Listed

section Quiet

variable (h : Listed es w) (hnext : w.next false e = some w')
include h hnext

theorem of_step (hinterrupted : w'.interrupted = false)
    (hpointed : ∀ k i, (w'.pc = .resuming k i ∨ w'.pc = .bringing k i) → i = k)
    (hpids : ∀ pid ∈ w'.children.pids,
      e.forks? = some pid ∧ 0 < pid ∨ e.forks? ≠ some pid ∧ pid ∈ w.children.pids)
    (hkept : ∀ pid ∈ w'.children.pids, pid ∈ w.table.pids → pid ∈ w'.table.pids)
    (hnew : ∀ pid line, e = .launchBg pid line → pid ∈ w'.table.pids) :
    Listed (es ++ [e]) w' where
  counted := (h.counted.next hnext).1
  interrupted := hinterrupted
  pointed := hpointed
  children_pos := by
    intro pid hpid
    obtain ⟨-, hpos⟩ | ⟨-, hold⟩ := hpids pid hpid
    · exact hpos
    · exact h.children_pos pid hold
  listed := by
    intro pid hpid hbg
    obtain ⟨hforks, -⟩ | ⟨hforks, hold⟩ := hpids pid hpid
    · by_contra hnot
      refine not_launchedBg_concat hforks (fun line he => hnot ?_) hbg
      exact hnew pid line he
    · exact hkept pid hpid (h.listed pid hold (hbg.of_concat hforks))

/-- A step without a fork. -/
theorem of_quiet (hforks : e.forks? = none) (hinterrupted : w'.interrupted = false)
    (hpointed : ∀ k i, (w'.pc = .resuming k i ∨ w'.pc = .bringing k i) → i = k)
    (hpids : w'.children.pids ⊆ w.children.pids)
    (hkept : ∀ pid ∈ w'.children.pids, pid ∈ w.table.pids → pid ∈ w'.table.pids) :
    Listed (es ++ [e]) w' := by
  refine h.of_step hnext hinterrupted hpointed (fun pid hpid => ?_) hkept ?_
  · exact .inr ⟨by simp [hforks], hpids hpid⟩
  · rintro pid line rfl
    cases hforks

end Quiet

theorem signal {sig : Signal} {inCall : Bool} (h : Listed es w)
    (hnext : w.next false (.signal sig inCall) = some w') :
    Listed (es ++ [.signal sig inCall]) w' := by
  have hsignal : w.signal false sig inCall = some w' := hnext
  have hkept : ∀ pid, pid ∈ w.table.pids → pid ∈ w'.table.pids := by
    intro pid hpid
    obtain ⟨-, -, -, -, rfl⟩ := signal_eq_some hsignal
    dsimp only
    split
    · rw [JobTable.pids_put]
      exact List.mem_append_left _ hpid
    · exact hpid
  have hrest : w'.interrupted = w.interrupted ∧ w'.pc = w.pc ∧ w'.children = w.children := by
    obtain rfl | rfl := signal_bsd hsignal
    · exact ⟨rfl, rfl, rfl⟩
    · obtain ⟨table, fgPid, heq⟩ := runHandler_eq sig w
      rw [heq]
      exact ⟨rfl, rfl, rfl⟩
  obtain ⟨hinterrupted, hpc, hchildren⟩ := hrest
  refine h.of_quiet hnext rfl (hinterrupted.trans h.interrupted) ?_ ?_ fun pid _ => hkept pid
  · rw [hpc]
    exact h.pointed
  · rw [hchildren]
    exact List.Subset.refl _

theorem fg {jid junk : Int} (h : Listed es w) (hjid : jid ≠ -1)
    (hnext : w.next false (.fg jid junk) = some w') : Listed (es ++ [.fg jid junk]) w' := by
  obtain ⟨hpc, heq⟩ := of_guarded hnext
  have hindex : ∀ k, w.table.pickIndex jid junk k = k := fun k => if_neg fun hlast => hjid hlast.1
  have hrest : w'.children = w.children ∧ w'.interrupted = w.interrupted ∧
      w'.table.pids = w.table.pids ∧ (w'.pc = .command ∨ ∃ k : Nat, w'.pc = .resuming k k) := by
    subst heq
    unfold World.fg
    split
    · exact ⟨rfl, rfl, rfl, .inl hpc⟩
    next k hpick =>
        split
        · exact ⟨rfl, rfl, rfl, .inl hpc⟩
        next job hjob =>
            rw [hindex]
            split
            · exact ⟨rfl, rfl, JobTable.pids_setState k .running w.table, .inr ⟨k, rfl⟩⟩
            · exact ⟨rfl, rfl, rfl, .inr ⟨k, rfl⟩⟩
  obtain ⟨hchildren, hinterrupted, htable, hpc'⟩ := hrest
  refine h.of_quiet hnext rfl (hinterrupted.trans h.interrupted) ?_ ?_ fun pid _ hpid => ?_
  · obtain hcommand | ⟨k, hresuming⟩ := hpc'
    · simp [hcommand]
    · rw [hresuming]
      rintro k' i (⟨⟨⟩⟩ | ⟨⟨⟩⟩)
      rfl
  · rw [hchildren]
    exact List.Subset.refl _
  · rw [htable]
    exact hpid

/-- Behind a wait call.  What `do_fg` removes is the entry of a process that is no child. -/
theorem returned (h : Listed es w) {v : World} {stopped : Bool}
    (hnext : w.next false e = some (v.returned stopped)) (hforks : e.forks? = none)
    (htable : v.table = w.table) (hpc : v.pc = w.pc) (hinterrupted : v.interrupted = false)
    (hpids : v.children.pids ⊆ w.children.pids)
    (hgone : ∀ k i job, w.pc = .bringing k i → w.table.jobs[k]? = some job → stopped = false →
      job.pid ∉ v.children.pids) : Listed (es ++ [e]) (v.returned stopped) := by
  have hrest : (v.returned stopped).children = v.children ∧
      (v.returned stopped).interrupted = v.interrupted := by
    unfold World.returned
    split <;> exact ⟨rfl, rfl⟩
  obtain ⟨hchildren, hkeeps⟩ := hrest
  have hcounted := (h.counted.next hnext).1
  refine h.of_quiet hnext hforks (hkeeps.trans hinterrupted) ?_ ?_ ?_
  · intro k i hpoint
    cases hv : v.pc with
    | foreground pid => simp [World.returned, hv] at hpoint
    | bringing k' i' => simp [World.returned, hv] at hpoint
    | reaping left =>
        simp only [World.returned, hv] at hpoint
        unfold Pc.reapLoop at hpoint
        split at hpoint <;> simp at hpoint
    | checking | prompt | command | waited | resuming | forking =>
        simp only [World.returned, hv] at hpoint
        rw [← hv, hpc] at hpoint
        exact h.pointed k i hpoint
  · rw [hchildren]
    exact hpids
  · rw [hchildren]
    intro pid hpid hlisted
    cases hv : v.pc with
    | bringing k i =>
        have hpoint : w.pc = .bringing k i := hpc.symm.trans hv
        obtain rfl := h.pointed k i (.inr hpoint)
        have hk : k < w.table.jobs.length := h.counted.pointed k (by rw [hpoint]; rfl)
        have hjob := List.getElem?_eq_getElem hk
        simp only [World.returned, hv, htable]
        cases stopped with
        | true =>
            rw [if_pos rfl, JobTable.pids_setState]
            exact hlisted
        | false =>
            rw [if_neg (by decide)]
            refine JobTable.mem_pids_removeJob h.counted.jobCount_eq hjob hlisted ?_
            rintro rfl
            exact hgone k _ _ hpoint hjob rfl hpid
    | _ =>
        simp only [World.returned, hv, htable]
        exact hlisted

theorem waitReturns {pid : Int} (h : Listed es w)
    (hnext : w.next false (.waitReturns pid) = some w') : Listed (es ++ [.waitReturns pid]) w' := by
  obtain ⟨r, hr, rfl⟩ := next_waitReturns hnext
  refine h.returned hnext rfl rfl rfl h.interrupted Children.pids_collect_subset ?_
  intro k i job hpc hjob hstopped hmem
  obtain ⟨target, o, c, htarget, -, -, rfl, hanswers, -⟩ := waitStatus_eq_some hr
  have hexited : r = .exited := by
    cases r with
    | exited => rfl
    | stopped => simp at hstopped
    | continued => exact absurd rfl (waitStatus_ne_continued hr)
  simp only [waitTarget, hpc, hjob, Option.map_some, Option.some.injEq, Prod.mk.injEq] at htarget
  obtain ⟨rfl, -⟩ := htarget
  simp only [collected, hexited, Children.pids_collect_exited, List.mem_filter,
    decide_eq_true_eq] at hmem
  obtain ⟨hchild, hne⟩ := hmem
  have hpos := h.children_pos _ hchild
  obtain hany | hpid := hanswers
  · omega
  · exact hne hpid.symm

theorem waitFails {junkStopped : Bool} (h : Listed es w)
    (hnext : w.next false (.waitFails junkStopped) = some w') :
    Listed (es ++ [.waitFails junkStopped]) w' := by
  obtain ⟨⟨x, hx, hfails⟩, rfl⟩ := of_guarded hnext
  refine h.returned hnext rfl rfl rfl rfl (List.Subset.refl _) ?_
  intro k i job hpc hjob _ hmem
  simp only [waitTarget, hpc, hjob, Option.map_some, Option.mem_def, Option.some.injEq] at hx
  subst hx
  obtain hinterrupted | hnone := hfails
  · rw [h.interrupted] at hinterrupted
    cases hinterrupted
  · obtain ⟨c, hc, hpid⟩ := Children.mem_pids.mp hmem
    exact hnone c hc (.inr hpid)

theorem forked (h : Listed es w) {pid : Int} (args : Args) (hforks : e.forks? = some pid)
    (hpid : pid = -1 ∨ w.Forks pid) {p : Int} (hp : p ∈ (w.forked pid args).pids) :
    e.forks? = some p ∧ 0 < p ∨ e.forks? ≠ some p ∧ p ∈ w.children.pids := by
  unfold World.forked at hp
  split at hp
  next hfails =>
      have hpos := h.children_pos p hp
      refine .inr ⟨?_, hp⟩
      rw [hforks, ne_eq, Option.some.injEq]
      omega
  next hne =>
      obtain ⟨hpos, -, hnew⟩ := hpid.resolve_left hne
      rw [Children.pids_fork, List.mem_append, List.mem_singleton] at hp
      obtain hold | rfl := hp
      · refine .inr ⟨?_, hold⟩
        rw [hforks, ne_eq, Option.some.injEq]
        rintro rfl
        exact hnew hold
      · exact .inl ⟨hforks, hpos⟩

/-- Outside of `do_fg`. -/
theorem pointed_of_job {pc : Pc} (hjob : pc.job? = none) (k : Nat) (i : Int)
    (hpc : pc = .resuming k i ∨ pc = .bringing k i) : i = k := by
  obtain rfl | rfl := hpc <;> cases hjob

theorem step (h : Listed es w) (he : ∀ junk, e ≠ .fg (-1) junk)
    (hnext : w.next false e = some w') : Listed (es ++ [e]) w' := by
  cases e with
  | signal sig inCall => exact h.signal hnext
  | fg jid junk =>
      refine h.fg ?_ hnext
      rintro rfl
      exact he junk rfl
  | waitReturns pid => exact h.waitReturns hnext
  | waitFails junkStopped => exact h.waitFails hnext
  | happens r pid =>
      obtain ⟨-, rfl⟩ := of_guarded hnext
      exact h.of_quiet hnext rfl h.interrupted h.pointed (by simp) fun _ _ hpid => hpid
  | checkReport pid =>
      obtain ⟨hpc, r, hr, rfl⟩ := next_checkReport hnext
      refine h.of_quiet hnext rfl h.interrupted (by simp [collected, hpc])
        Children.pids_collect_subset fun p hp hlisted => ?_
      refine JobTable.mem_pids_checkReport hlisted ?_
      rintro rfl
      simp only [collected, Children.pids_collect_exited, List.mem_filter,
        decide_eq_true_eq] at hp
      exact hp.2
  | launchFg pid args =>
      obtain ⟨⟨-, hpid⟩, rfl⟩ := of_guarded hnext
      exact h.of_step hnext h.interrupted (by simp [World.launchFg])
        (fun p hp => h.forked args rfl hpid hp) (fun _ _ hlisted => hlisted) (by rintro _ _ ⟨⟩)
  | launchBg pid line =>
      obtain ⟨cmd, -, -, hpc, hpid, rfl⟩ := next_launchBg hnext
      have htable : (w.launchBg pid cmd).table.pids = w.table.pids ++ [pid] :=
        JobTable.pids_put ..
      refine h.of_step hnext h.interrupted (by simp [World.launchBg, hpc])
        (fun p hp => h.forked (bgArgs cmd) rfl hpid hp) ?_ ?_
      · rw [htable]
        exact fun _ _ hlisted => List.mem_append_left _ hlisted
      · rintro p l ⟨⟩
        rw [htable]
        exact List.mem_append_right _ (List.mem_singleton_self _)
  | forkStage pid args =>
      obtain ⟨left, natoms, -, hforks, rfl⟩ := next_forkStage hnext
      have hforked : w.forked pid args = w.children.fork pid args := by
        have hpos := hforks.1
        rw [World.forked, if_neg (by omega)]
      refine h.of_step hnext h.interrupted (pointed_of_job (Pc.job?_forkLoop ..))
        (fun p hp => h.forked args rfl (.inr hforks) ?_) (fun _ _ hlisted => hlisted)
        (by rintro _ _ ⟨⟩)
      rw [hforked]
      exact hp
  | beginWait =>
      obtain ⟨k, i, hpc, rfl⟩ := next_beginWait hnext
      have hindex := h.pointed k i (.inl hpc)
      refine h.of_quiet hnext rfl h.interrupted ?_ (List.Subset.refl _) fun _ _ hlisted => hlisted
      rintro k' i' (⟨⟨⟩⟩ | ⟨⟨⟩⟩)
      exact hindex
  | bg jid =>
      obtain ⟨hpc, rfl⟩ := of_guarded hnext
      refine h.of_quiet hnext rfl h.interrupted (by simp [hpc]) (List.Subset.refl _) ?_
      rw [JobTable.pids_doBg]
      exact fun _ _ hlisted => hlisted
  | activities =>
      obtain ⟨hpc, rfl⟩ := of_guarded hnext
      exact h.of_quiet hnext rfl h.interrupted (by simp [hpc]) (List.Subset.refl _)
        fun _ _ hlisted => JobTable.mem_pids_activities hlisted
  | pipeline natoms =>
      obtain ⟨hpc, rfl⟩ := of_guarded hnext
      exact h.of_quiet hnext rfl h.interrupted (pointed_of_job (Pc.job?_forkLoop ..))
        (List.Subset.refl _) fun _ _ hlisted => hlisted
  | checkDone | readLine | endLine | endForeground =>
      obtain ⟨-, rfl⟩ := of_guarded hnext
      exact h.of_quiet hnext rfl h.interrupted (by simp [World.endForeground])
        (List.Subset.refl _) fun _ _ hlisted => hlisted

end Listed

end World

end OxyC.Shell
