import OxyC.Shell.Process

/-!
# The wait loop of a pipeline

`execute_pipeline` calls `wait` as often as it has forked.  Where no other child
has exited at any of these calls, they reap the stages and nothing else.
-/

namespace OxyC.Shell

open OxyC.Foundation

namespace World

def Event.ofPipeline : Event → Bool
  | .happens _ _ | .signal _ _ | .forkStage _ _ | .waitReturns _ | .waitFails _ => true
  | _ => false

def Event.ofCheckJobs : Event → Bool
  | .happens _ _ | .signal _ _ | .checkReport _ | .checkDone => true
  | _ => false

/-- At a call of `wait`, only stages have exited, and no handler has run in it. -/
def WaitsForStages (w : World) : Event → Prop
  | .waitReturns _ | .waitFails _ =>
      w.interrupted = false ∧ ∀ c ∈ w.children, c.pending = some .exited → c.pid ∈ w.stages
  | _ => True

instance (w : World) : (e : Event) → Decidable (w.WaitsForStages e)
  | .waitReturns _ | .waitFails _ => inferInstanceAs (Decidable (_ ∧ ∀ _ ∈ _, _ → _))
  | .happens .. | .signal .. | .checkReport _ | .checkDone | .readLine | .endLine | .launchFg ..
  | .endForeground | .launchBg .. | .fg .. | .beginWait | .bg _ | .activities | .pipeline _
  | .forkStage .. => .isTrue trivial

/-- How far a pipeline is, with its stages that have not been reaped. -/
def Progress (natoms : Nat) (stages unreaped : List Int) : Pc → Prop
  | .forking left natoms' =>
      natoms' = natoms ∧ 0 < left ∧ stages.length + left = natoms ∧ unreaped = stages
  | .reaping left => 0 < left ∧ stages.length = natoms ∧ unreaped.length = left
  | .command => stages.length = natoms ∧ unreaped = []
  | _ => False

/-- In a pipeline that began in `w`, the children are those of `w` and stages. -/
structure Running (w : World) (natoms : Nat) (s : World) (unreaped : List Int) : Prop where
  pids_eq : s.children.pids = w.children.pids ++ unreaped
  nodup : unreaped.Nodup
  stages_new : ∀ pid ∈ s.stages, pid ∉ w.children.pids
  progress : Progress natoms s.stages unreaped s.pc

theorem progress_reapLoop {natoms : Nat} {stages unreaped : List Int}
    (hstages : stages.length = natoms) :
    Progress natoms stages unreaped (.reapLoop unreaped.length) := by
  unfold Pc.reapLoop
  split
  next hzero => exact ⟨hstages, List.eq_nil_of_length_eq_zero hzero⟩
  next hpos => exact ⟨by omega, hstages, rfl⟩

theorem progress_forkLoop {natoms left : Nat} {stages : List Int}
    (h : stages.length + left = natoms) :
    Progress natoms stages stages (.forkLoop left natoms) := by
  unfold Pc.forkLoop
  split
  next hzero =>
      have hlength : stages.length = natoms := by omega
      rw [← hlength]
      exact progress_reapLoop rfl
  next hpos => exact ⟨rfl, by omega, h, rfl⟩

variable {systemV : Bool} {w s s' : World} {natoms : Nat} {unreaped : List Int}

theorem Running.of_waitTarget (h : Running w natoms s unreaped) {x : Int × WaitOptions}
    (hx : s.waitTarget = some x) :
    x = (-1, {}) ∧ ∃ left, s.pc = .reaping (left + 1) ∧ s.stages.length = natoms ∧
      unreaped.length = left + 1 := by
  have hprogress := h.progress
  cases hpc : s.pc <;> simp only [hpc, Progress] at hprogress <;>
    simp only [waitTarget, hpc, reduceCtorEq, Option.some.injEq] at hx
  case reaping left =>
    obtain ⟨hpos, hstages, hlength⟩ := hprogress
    refine ⟨hx.symm, left - 1, ?_, hstages, by omega⟩
    rw [Nat.sub_add_cancel hpos]

theorem Running.forkStage (h : Running w natoms s unreaped) {pid : Int} {args : Args}
    (hstep : s.next systemV (.forkStage pid args) = some s') :
    Running w natoms s' (unreaped ++ [pid]) := by
  obtain ⟨left, natoms', hpc, ⟨-, -, hnew⟩, rfl⟩ := next_forkStage hstep
  have hprogress := h.progress
  rw [hpc] at hprogress
  obtain ⟨rfl, hpos, hlength, rfl⟩ := hprogress
  rw [h.pids_eq, List.mem_append, not_or] at hnew
  refine ⟨?_, ?_, ?_, ?_⟩
  · rw [Children.pids_fork, h.pids_eq, List.append_assoc]
  · rw [← List.concat_eq_append, List.nodup_concat]
    exact ⟨hnew.2, h.nodup⟩
  · intro p hp
    rw [List.mem_append, List.mem_singleton] at hp
    rcases hp with hp | rfl
    · exact h.stages_new p hp
    · exact hnew.1
  · apply progress_forkLoop
    rw [List.length_append, List.length_singleton]
    omega

theorem Running.waitReturns (h : Running w natoms s unreaped) {pid : Int}
    (hguard : s.WaitsForStages (.waitReturns pid))
    (hstep : s.next systemV (.waitReturns pid) = some s') :
    Running w natoms s' (unreaped.erase pid) := by
  obtain ⟨r, hr, rfl⟩ := next_waitReturns hstep
  obtain ⟨target, o, c, htarget, -, hc, rfl, -, hstatus⟩ := waitStatus_eq_some hr
  obtain ⟨hx, left, hpc, hstages, hlength⟩ := h.of_waitTarget htarget
  have ho : o = {} := congrArg Prod.snd hx
  have hexited : r = .exited := by simpa [ho] using c.status_allowed hstatus
  subst hexited
  have hstage := hguard.2 c hc (c.pending_of_status hstatus)
  have hother := h.stages_new c.pid hstage
  have hmem : c.pid ∈ unreaped := by
    have := Children.mem_pids_of_mem hc
    rw [h.pids_eq, List.mem_append] at this
    exact this.resolve_left hother
  have hreturned : (s.collected c.pid .exited).returned (decide (Report.exited = .stopped)) =
      { s.collected c.pid .exited with pc := .reapLoop left } := by
    simp [returned, collected, hpc]
  rw [hreturned]
  refine ⟨?_, h.nodup.erase c.pid, h.stages_new, ?_⟩
  · simp only [collected]
    rw [Children.pids_collect_exited, h.pids_eq, List.filter_append, h.nodup.erase_eq_filter]
    congr 1
    · rw [List.filter_eq_self]
      intro p hp
      simpa using ne_of_mem_of_not_mem hp hother
    · exact List.filter_congr fun p _ => by simp [bne, beq_eq_decide]
  · have hleft : (unreaped.erase c.pid).length = left := by
      rw [List.length_erase_of_mem hmem]
      omega
    simp only [collected]
    rw [← hleft]
    exact progress_reapLoop hstages

theorem Running.waitFails (h : Running w natoms s unreaped) {junkStopped : Bool}
    (hguard : s.WaitsForStages (.waitFails junkStopped)) :
    s.next systemV (.waitFails junkStopped) = none := by
  simp only [next, ite_eq_right_iff, reduceCtorEq, imp_false]
  rintro ⟨x, hx, hfails⟩
  obtain ⟨rfl, left, -, -, hlength⟩ := h.of_waitTarget hx
  have hmem : ∃ pid, pid ∈ s.children.pids := by
    obtain ⟨pid, hpid⟩ := List.exists_mem_of_length_pos (by omega : 0 < unreaped.length)
    exact ⟨pid, h.pids_eq ▸ List.mem_append_right _ hpid⟩
  obtain ⟨pid, hpid⟩ := hmem
  obtain ⟨c, hc, -⟩ := Children.mem_pids.mp hpid
  rcases hfails with hinterrupted | hnone
  · simp [hguard.1] at hinterrupted
  · exact hnone c hc (.inl rfl)

theorem Running.next (h : Running w natoms s unreaped) {e : Event} (he : e.ofPipeline = true)
    (hguard : s.WaitsForStages e) (hstep : s.next systemV e = some s') :
    ∃ unreaped', Running w natoms s' unreaped' := by
  cases e with
  | happens r pid =>
      obtain ⟨-, rfl⟩ := of_guarded hstep
      refine ⟨unreaped, ?_, h.nodup, h.stages_new, h.progress⟩
      simpa using h.pids_eq
  | signal sig inCall =>
      obtain ⟨fgPid, onInt, onTstp, interrupted, rfl⟩ := signal_eq_some hstep
      exact ⟨unreaped, h.pids_eq, h.nodup, h.stages_new, h.progress⟩
  | forkStage pid args => exact ⟨_, h.forkStage hstep⟩
  | waitReturns pid => exact ⟨_, h.waitReturns hguard hstep⟩
  | waitFails junkStopped => simp [h.waitFails hguard] at hstep
  | checkReport | checkDone | readLine | endLine | launchFg | endForeground | launchBg | fg
  | beginWait | bg | activities | pipeline => cases he

theorem running_run {events : List Event} (hevents : ∀ e ∈ events, e.ofPipeline = true)
    (hguard : (machine systemV).Guarded WaitsForStages events s) {t : World}
    {outs : List (Int × Report)} (hrun : (machine systemV).run events s = some (t, outs))
    (h : Running w natoms s unreaped) : ∃ unreaped', Running w natoms t unreaped' := by
  induction events generalizing s unreaped outs with
  | nil =>
      simp only [Mealy.run_nil, Option.some.injEq, Prod.mk.injEq] at hrun
      exact ⟨unreaped, hrun.1 ▸ h⟩
  | cons e events ih =>
      obtain ⟨s', out, rest, hstep, hrest, -⟩ := Mealy.run_cons_eq_some _ |>.mp hrun
      obtain ⟨unreaped', h'⟩ :=
        h.next (hevents e List.mem_cons_self) hguard.1 (next_of_step hstep).1
      exact ih (fun e he => hevents e (List.mem_cons_of_mem _ he)) (hguard.2 s' out hstep) hrest h'

/-- Nothing that happens up to the next prompt loses the exit of a child. -/
theorem received_of_checkJobs {events : List Event} (hevents : ∀ e ∈ events, e.ofCheckJobs = true)
    {t : World} {outs : List (Int × Report)}
    (hrun : (machine systemV).run events s = some (t, outs)) {pid : Int}
    (hpid : pid ∈ s.children.pids) : (pid, .exited) ∈ outs ∨ pid ∈ t.children.pids := by
  induction events generalizing s outs with
  | nil =>
      simp only [Mealy.run_nil, Option.some.injEq, Prod.mk.injEq] at hrun
      exact .inr (hrun.1 ▸ hpid)
  | cons e events ih =>
      obtain ⟨s', out, rest, hstep, hrest, rfl⟩ := Mealy.run_cons_eq_some _ |>.mp hrun
      obtain ⟨hnext, rfl⟩ := next_of_step hstep
      have hfirst : (pid, .exited) ∈ s.received e ∨ pid ∈ s'.children.pids := by
        have he := hevents e List.mem_cons_self
        cases e with
        | happens r other =>
            obtain ⟨-, rfl⟩ := of_guarded hnext
            exact .inr (by simpa using hpid)
        | signal sig inCall =>
            obtain ⟨fgPid, onInt, onTstp, interrupted, rfl⟩ := signal_eq_some hnext
            exact .inr hpid
        | checkReport other =>
            obtain ⟨-, r, hr, rfl⟩ := next_checkReport hnext
            simp only [received, hr, Option.map_some, Option.toList_some, List.mem_singleton,
              Prod.mk.injEq, collected]
            by_cases hexited : r = .exited
            · rw [hexited, Children.pids_collect_exited, List.mem_filter, decide_eq_true_eq]
              by_cases hother : pid = other
              · exact .inl ⟨hother, rfl⟩
              · exact .inr ⟨hpid, hother⟩
            · rw [Children.pids_collect hexited]
              exact .inr hpid
        | checkDone =>
            obtain ⟨-, rfl⟩ := of_guarded hnext
            exact .inr hpid
        | readLine | endLine | launchFg | endForeground | launchBg | fg | beginWait | bg
        | activities | pipeline | forkStage | waitReturns | waitFails => cases he
      rcases hfirst with hreceived | hpid'
      · exact .inl (List.mem_append_left _ hreceived)
      · rcases ih (fun e he => hevents e (List.mem_cons_of_mem _ he)) hrest hpid' with h | h
        · exact .inl (List.mem_append_right _ h)
        · exact .inr h

/--
A pipeline of `natoms` stages that began in `w` and returned in `t` has reaped
its stages and no other child, so the next `check_jobs` receives the exit of
every other child that has exited.
-/
structure ReapsStages (systemV : Bool) (w : World) (natoms : Nat) (t : World) : Prop where
  stages_length : t.stages.length = natoms
  stages_reaped : ∀ pid ∈ t.stages, pid ∉ t.children.pids
  others_kept : t.children.pids = w.children.pids
  exits_received : ∀ (events : List Event) (u : World) (outs : List (Int × Report)),
    (∀ e ∈ events, e.ofCheckJobs = true) →
    (machine systemV).run (.endLine :: events ++ [.checkDone]) t = some (u, outs) →
    ∀ pid ∈ w.children.pids,
      (pid, .exited) ∈ outs ∨ ∃ c ∈ u.children, c.pid = pid ∧ c.pending ≠ some .exited

theorem exits_received_of_kept {t u : World} {events : List Event} {outs : List (Int × Report)}
    (hevents : ∀ e ∈ events, e.ofCheckJobs = true)
    (hrun : (machine systemV).run (.endLine :: events ++ [.checkDone]) t = some (u, outs))
    {pid : Int} (hpid : pid ∈ t.children.pids) :
    (pid, .exited) ∈ outs ∨ ∃ c ∈ u.children, c.pid = pid ∧ c.pending ≠ some .exited := by
  obtain ⟨s', out, rest, hend, hcheck, rfl⟩ := Mealy.run_cons_eq_some _ |>.mp hrun
  have hpid' : pid ∈ s'.children.pids := by
    obtain ⟨hnext, -⟩ := next_of_step hend
    obtain ⟨-, rfl⟩ := of_guarded hnext
    exact hpid
  have hall : ∀ e ∈ events ++ [.checkDone], e.ofCheckJobs = true := by
    intro e he
    rw [List.mem_append, List.mem_singleton] at he
    rcases he with he | rfl
    · exact hevents e he
    · rfl
  rcases received_of_checkJobs hall hcheck hpid' with hreceived | hkept
  · exact .inl (List.mem_append_right _ hreceived)
  · obtain ⟨c, hc, hcpid⟩ := Children.mem_pids.mp hkept
    obtain ⟨v, out', rest', -, hdone, -⟩ := Mealy.run_concat _ |>.mp hcheck
    obtain ⟨hnext, -⟩ := next_of_step hdone
    obtain ⟨⟨-, hnone⟩, rfl⟩ := of_guarded hnext
    refine .inr ⟨c, hc, hcpid, fun hexited => ?_⟩
    have := hnone c hc
    rw [c.status_exited hexited] at this
    cases this

/--
In every order in which stages and other children stop and terminate, a pipeline
whose calls of `wait` all come while no other child has exited reaps its stages
and nothing else.
-/
theorem pipeline_reapsStages {systemV : Bool} {w t : World} {natoms : Nat} {events : List Event}
    {outs : List (Int × Report)} (hevents : ∀ e ∈ events, e.ofPipeline = true)
    (hguard : (machine systemV).Guarded WaitsForStages (.pipeline natoms :: events) w)
    (hrun : (machine systemV).run (.pipeline natoms :: events) w = some (t, outs))
    (hreturned : t.pc = .command) : ReapsStages systemV w natoms t := by
  obtain ⟨s, out, rest, hstep, hrest, -⟩ := Mealy.run_cons_eq_some _ |>.mp hrun
  have hbegun : Running w natoms s [] := by
    obtain ⟨hnext, -⟩ := next_of_step hstep
    obtain ⟨-, rfl⟩ := of_guarded hnext
    exact ⟨by simp, List.nodup_nil, by simp, progress_forkLoop (by simp)⟩
  obtain ⟨unreaped, h⟩ := running_run hevents (hguard.2 s out hstep) hrest hbegun
  have hprogress := h.progress
  rw [hreturned] at hprogress
  obtain ⟨hlength, rfl⟩ := hprogress
  have hkept : t.children.pids = w.children.pids := by simpa using h.pids_eq
  refine ⟨hlength, fun pid hpid => hkept ▸ h.stages_new pid hpid, hkept, ?_⟩
  intro events u outs hevents hcheck pid hpid
  exact exits_received_of_kept hevents hcheck (hkept ▸ hpid)

def pipelineLine : TypedLine := ⟨"a & b | c".toList, by decide, by decide⟩

def pipelineBegins : World :=
  { shell := 1000, children := [⟨1001, ["a".toList], [], false⟩], pc := .command }

def inTurn : List Event :=
  [.forkStage 1002 ["b".toList], .forkStage 1003 ["c".toList], .happens .exited 1003,
    .waitReturns 1003, .happens .exited 1002, .waitReturns 1002, .happens .exited 1001]

theorem pipeline_reapsStages_inTurn :
    ∃ t outs, (machine true).run (.pipeline 2 :: inTurn) pipelineBegins = some (t, outs) ∧
      ReapsStages true pipelineBegins 2 t := by
  obtain ⟨t, outs, hrun, hpc⟩ := (machine true).exists_run (.pipeline 2 :: inTurn) pipelineBegins
    (fun x => x.1.pc = .command) (by decide)
  have hguard : (machine true).Guarded WaitsForStages (.pipeline 2 :: inTurn) pipelineBegins := by
    decide
  exact ⟨t, outs, hrun, pipeline_reapsStages (by decide) hguard hrun (by simpa using hpc)⟩

/-- With another child that has exited, `wait` can return that child instead. -/
theorem wait_reaps_other {left : Nat} (hpc : s.pc = .reaping left)
    (hinterrupted : s.interrupted = false) {c : Child Args}
    (hc : s.children.child? c.pid = some c) (hexited : c.pending = some .exited) :
    ∃ s', s.next systemV (.waitReturns c.pid) = some s' ∧ c.pid ∉ s'.children.pids := by
  have hstatus : s.waitStatus c.pid = some .exited := by
    simp [waitStatus, waitTarget, hpc, hinterrupted, hc, Child.Answers, Option.filter,
      c.status_exited hexited]
  refine ⟨_, by rw [next, hstatus, Option.map_some], ?_⟩
  simp [returned, collected, hpc, Children.pids_collect_exited]

def jobFirst : List Event :=
  [.checkDone, .readLine, .launchBg 1001 pipelineLine, .pipeline 2, .forkStage 1002 ["b".toList],
    .forkStage 1003 ["c".toList], .happens .exited 1001, .happens .exited 1002,
    .waitReturns 1001, .waitReturns 1002]

/-- A job that exits before the stages is counted for one of them. -/
theorem pipeline_reaps_job :
    ∃ t outs, (machine true).run jobFirst (start 1000) = some (t, outs) ∧ t.pc = .command ∧
      1003 ∈ t.stages ∧ 1003 ∈ t.children.pids ∧ 1001 ∉ t.children.pids := by
  obtain ⟨t, outs, hrun, ht⟩ := (machine true).exists_run jobFirst (start 1000)
    (fun x => x.1.pc = .command && x.1.stages.contains 1003 &&
      x.1.children.pids.contains 1003 && !x.1.children.pids.contains 1001) (by decide)
  simp only [Bool.and_eq_true, decide_eq_true_eq, List.contains_eq_mem, Bool.not_eq_true',
    decide_eq_false_iff_not] at ht
  exact ⟨t, outs, hrun, ht.1.1.1, ht.1.1.2, ht.1.2, ht.2⟩

end World

end OxyC.Shell
