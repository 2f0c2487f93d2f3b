import OxyC.Foundation.ExchangeSort
import OxyC.Foundation.Processes
import OxyC.Shell.Parse
import Mathlib.Data.List.Nodup
import Mathlib.Data.List.Perm.Subperm

/-!
# The job table

`jobs[64]`, `job_count` and `next_job_id`, with the functions that write to
them.  The entries below `job_count` are a list; the indices of the array that
are written to are kept beside it.
-/

namespace OxyC.Shell

open OxyC.Foundation

inductive JobState where
  | running
  | stopped
  deriving DecidableEq, Repr

structure Job where
  jobId : Int
  pid : Int
  cmdline : List Char
  state : JobState
  deriving DecidableEq, Repr

/-- What stays with an entry wherever it is moved. -/
def Job.entry (job : Job) : Int × Int × List Char := (job.jobId, job.pid, job.cmdline)

def maxJobs : Int := 64

def intMax : Int := 0x7fffffff

structure JobTable where
  jobs : List Job := []
  jobCount : Int := 0
  nextJobId : Int := 1
  writes : List Int := []
  deriving DecidableEq, Repr

/-- The words that `do_in_bg` reads off the background prefix of `cmd`. -/
def bgArgs (cmd : ShellCmd (List Char)) : List (List Char) :=
  (cmd.groups.take cmd.bgUntil.toNat).flatMap fun g => g.atoms.flatMap Atomic.argv

/-- The two `strcat` for each word. -/
def cmdlineOf (args : List (List Char)) : List Char := args.flatMap (· ++ [' '])

/-- `strcmp` is positive. -/
def strcmpPos : List Char → List Char → Bool
  | [], _ => false
  | _ :: _, [] => true
  | a :: as, b :: bs => if a = b then strcmpPos as bs else b.toNat < a.toNat

/-- `activities` puts `a` behind `b`. -/
def Job.cmdlineAbove (a b : Job) : Bool := strcmpPos a.cmdline b.cmdline

/-! ## The order of the command lines -/

theorem strcmpPos_asymm (s t : List Char) (h : strcmpPos s t = true) : strcmpPos t s = false := by
  induction s generalizing t with
  | nil => cases h
  | cons c s ih =>
      cases t with
      | nil => rfl
      | cons c' t =>
          rw [strcmpPos] at h ⊢
          by_cases heq : c = c'
          · rw [if_pos heq] at h
            rw [if_pos heq.symm]
            exact ih t h
          · rw [if_neg heq, decide_eq_true_eq] at h
            rw [if_neg (Ne.symm heq), decide_eq_false_iff_not]
            omega

theorem strcmpPos_not_trans (s t u : List Char) (hst : strcmpPos s t = false)
    (htu : strcmpPos t u = false) : strcmpPos s u = false := by
  induction s generalizing t u with
  | nil => rfl
  | cons c s ih =>
      cases t with
      | nil => cases hst
      | cons c' t =>
          cases u with
          | nil => cases htu
          | cons c'' u =>
              rw [strcmpPos] at hst htu ⊢
              by_cases heq : c = c'
              · rw [if_pos heq] at hst
                subst heq
                split at htu
                next heq' =>
                    rw [if_pos heq']
                    exact ih t u hst htu
                next hne =>
                    rw [if_neg hne]
                    exact htu
              · rw [if_neg heq, decide_eq_false_iff_not] at hst
                have hlt : c.toNat ≠ c'.toNat := fun h => heq (Char.toNat_inj.mp h)
                split at htu
                next heq' =>
                    subst heq'
                    rw [if_neg heq, decide_eq_false_iff_not]
                    exact hst
                next hne =>
                    rw [decide_eq_false_iff_not] at htu
                    have hfar : c ≠ c'' := by
                      rintro rfl
                      omega
                    rw [if_neg hfar, decide_eq_false_iff_not]
                    omega

theorem strictWeak_cmdlineAbove : StrictWeak Job.cmdlineAbove where
  asymm a b := strcmpPos_asymm a.cmdline b.cmdline
  not_trans a b c := strcmpPos_not_trans a.cmdline b.cmdline c.cmdline

namespace JobTable

/-- The entry behind the last one, as `do_in_bg` and `sigtstp_handler` write it. -/
def put (pid : Int) (cmdline : List Char) (state : JobState) (t : JobTable) : JobTable where
  jobs := t.jobs ++ [⟨t.nextJobId, pid, cmdline, state⟩]
  jobCount := t.jobCount + 1
  nextJobId := (t.nextJobId + 1).bmod 0x100000000
  writes := t.jobCount :: t.writes

/-- The parent of `do_in_bg`, with what `fork` returned. -/
def launchInBg (pid : Int) (cmd : ShellCmd (List Char)) (t : JobTable) : JobTable :=
  t.put pid (cmdlineOf (bgArgs cmd)) .running

def setState (k : Nat) (state : JobState) (t : JobTable) : JobTable :=
  { t with
    jobs := t.jobs.modify k fun job => { job with state }
    writes := k :: t.writes }

/--
Every entry from `index` on takes the one behind it.  With an index below 0 that
is the first entry of the table that disappears, with one too large the last.
-/
def removeJob (index : Int) (t : JobTable) : JobTable :=
  { t with
    jobs := t.jobs.eraseIdx (max 0 (min index (t.jobCount - 1))).toNat
    jobCount := t.jobCount - 1
    writes := (List.range (t.jobCount - 1 - index).toNat).map (fun x : Nat => index + x) ++ t.writes }

/-- The index of the entry that `job` points to in `do_fg` and `do_bg`. -/
def pick (jid : Int) (t : JobTable) : Option Nat :=
  if jid = -1 ∧ 0 < t.jobCount then some (t.jobCount - 1).toNat
  else t.jobs.findIdx? (·.jobId = jid)

/-- `i` in `do_fg`, which is not initialised where the loop is not run. -/
def pickIndex (jid junk : Int) (k : Nat) (t : JobTable) : Int :=
  if jid = -1 ∧ 0 < t.jobCount then junk else k

def stateOf (k : Nat) (t : JobTable) : Option JobState := t.jobs[k]?.map Job.state

def doBg (jid : Int) (t : JobTable) : JobTable :=
  match t.pick jid with
  | none => t
  | some k => if t.stateOf k = some .running then t else t.setState k .running

/-- One round of the two loops of `activities`. -/
def exchange (t : JobTable) (p : Nat × Nat) : JobTable :=
  if h : p.1 < t.jobs.length ∧ p.2 < t.jobs.length then
    if strcmpPos (t.jobs.get ⟨p.1, h.1⟩).cmdline (t.jobs.get ⟨p.2, h.2⟩).cmdline then
      { t with
        jobs := (t.jobs.set p.1 (t.jobs.get ⟨p.2, h.2⟩)).set p.2 (t.jobs.get ⟨p.1, h.1⟩)
        writes := p.1 :: p.2 :: t.writes }
    else t
  else t

def activities (t : JobTable) : JobTable :=
  let n := t.jobs.length
  ((List.range (n - 1)).flatMap fun i => (List.range' (i + 1) (n - (i + 1))).map (i, ·)).foldl
    exchange t

/-- What `check_jobs` marks an entry with; the entry of a child that is gone is removed. -/
def marked : Report → Option JobState
  | .exited => none
  | .stopped => some .stopped
  | .continued => some .running

/-- The loop of `check_jobs` from entry `i` on, for the status `r` of `pid`. -/
def checkLoop (pid : Int) (r : Report) : Nat → List Job → List Job × List Int
  | _, [] => ([], [])
  | i, job :: jobs =>
      if job.pid = pid then
        match marked r with
        | none =>
            let (rest, writes) := checkLoop pid r i jobs
            (rest, (List.range jobs.length).map (fun x => ((i + x : Nat) : Int)) ++ writes)
        | some state =>
            let (rest, writes) := checkLoop pid r (i + 1) jobs
            ({ job with state } :: rest, i :: writes)
      else
        let (rest, writes) := checkLoop pid r (i + 1) jobs
        (job :: rest, writes)

def checkReport (pid : Int) (r : Report) (t : JobTable) : JobTable :=
  let (jobs, writes) := checkLoop pid r 0 t.jobs
  { t with
    jobs
    jobCount := t.jobCount - (t.jobs.length - jobs.length : Nat)
    writes := writes ++ t.writes }

/-! ## Entries -/

variable {t t' : JobTable}

/-- The entries of `t'` are among those of `t`, and no index outside `t` was written to. -/
structure Keeps (t t' : JobTable) : Prop where
  entries : (t'.jobs.map Job.entry).Subperm (t.jobs.map Job.entry)
  jobCount_eq : t'.jobCount = t'.jobs.length
  nextJobId_eq : t'.nextJobId = t.nextJobId
  writes_within : ∀ x ∈ t'.writes, x ∈ t.writes ∨ 0 ≤ x ∧ x < t.jobs.length

theorem Keeps.refl (h : t.jobCount = t.jobs.length) : Keeps t t :=
  ⟨List.Subperm.refl _, h, rfl, fun _ hx => .inl hx⟩

theorem Keeps.trans {t'' : JobTable} (h : Keeps t t') (h' : Keeps t' t'') : Keeps t t'' where
  entries := h'.entries.trans h.entries
  jobCount_eq := h'.jobCount_eq
  nextJobId_eq := h'.nextJobId_eq.trans h.nextJobId_eq
  writes_within := by
    intro x hx
    have hlength : t'.jobs.length ≤ t.jobs.length := by simpa using h.entries.length_le
    rcases h'.writes_within x hx with hx | hx
    · exact h.writes_within x hx
    · exact .inr ⟨hx.1, by omega⟩

theorem Keeps.exists_entry (h : Keeps t t') {job : Job} (hjob : job ∈ t'.jobs) :
    ∃ old ∈ t.jobs, old.entry = job.entry :=
  List.mem_map.mp (h.entries.subset (List.mem_map_of_mem hjob))

theorem Keeps.nodup {β : Type*} (h : Keeps t t') (f : Int × Int × List Char → β)
    (ht : (t.jobs.map fun job => f job.entry).Nodup) :
    (t'.jobs.map fun job => f job.entry).Nodup := by
  obtain ⟨entries, hperm, hsub⟩ := h.entries
  have hmap : ∀ jobs : List Job, jobs.map (fun job => f job.entry) = (jobs.map Job.entry).map f := by
    simp
  rw [hmap, ← (hperm.map f).nodup_iff]
  exact (hmap t.jobs ▸ ht).sublist (hsub.map f)

theorem length_put (pid : Int) (cmdline : List Char) (state : JobState) (t : JobTable) :
    (t.put pid cmdline state).jobs.length = t.jobs.length + 1 := by
  rw [put, List.length_append, List.length_singleton]

theorem jobCount_put (h : t.jobCount = t.jobs.length) (pid : Int) (cmdline : List Char)
    (state : JobState) :
    (t.put pid cmdline state).jobCount = (t.put pid cmdline state).jobs.length := by
  rw [length_put, Int.natCast_succ, ← h]
  rfl

theorem entry_setState (k : Nat) (state : JobState) (t : JobTable) :
    (t.setState k state).jobs.map Job.entry = t.jobs.map Job.entry := by
  apply List.ext_getElem?
  intro i
  simp only [setState, List.getElem?_map, List.getElem?_modify]
  cases t.jobs[i]? with
  | none => rfl
  | some job => by_cases hi : k = i <;> simp [hi, Job.entry]

theorem length_setState (k : Nat) (state : JobState) (t : JobTable) :
    (t.setState k state).jobs.length = t.jobs.length := by
  simp [setState]

theorem mem_setState {k : Nat} {state : JobState} {job : Job}
    (h : job ∈ (t.setState k state).jobs) :
    job ∈ t.jobs ∨ ∃ old, t.jobs[k]? = some old ∧ job = { old with state } := by
  obtain ⟨i, hi⟩ := List.mem_iff_getElem?.mp h
  rw [setState, List.getElem?_modify] at hi
  obtain ⟨old, hold, rfl⟩ := Option.map_eq_some_iff.mp hi
  by_cases hk : k = i
  · subst hk
    exact .inr ⟨old, hold, by simp⟩
  · exact .inl (by simpa [hk] using List.mem_of_getElem? hold)

theorem keeps_setState (h : t.jobCount = t.jobs.length) {k : Nat} (hk : k < t.jobs.length)
    (state : JobState) : Keeps t (t.setState k state) where
  entries := by rw [entry_setState]
  jobCount_eq := by rw [length_setState]; exact h
  nextJobId_eq := rfl
  writes_within := by
    intro x hx
    simp only [setState, List.mem_cons] at hx
    rcases hx with rfl | hx
    · exact .inr ⟨by omega, by omega⟩
    · exact .inl hx

theorem pick_lt {jid : Int} {k : Nat} (h : t.jobCount = t.jobs.length) (hk : t.pick jid = some k) :
    k < t.jobs.length := by
  unfold pick at hk
  split at hk
  next hcount =>
      simp only [Option.some.injEq] at hk
      omega
  next => exact (List.findIdx?_eq_some_iff_getElem.mp hk).1

theorem keeps_doBg (h : t.jobCount = t.jobs.length) (jid : Int) : Keeps t (t.doBg jid) := by
  unfold doBg
  split
  · exact .refl h
  next k hk =>
      split
      · exact .refl h
      · exact keeps_setState h (pick_lt h hk) _

theorem jobCount_removeJob (h : t.jobCount = t.jobs.length) (hne : t.jobs ≠ []) (i : Int) :
    (t.removeJob i).jobCount = (t.removeJob i).jobs.length := by
  have hpos := List.length_pos_of_ne_nil hne
  have hlt : (max 0 (min i (t.jobCount - 1))).toNat < t.jobs.length := by omega
  simp only [removeJob, List.length_eraseIdx_of_lt hlt]
  omega

theorem keeps_removeJob (h : t.jobCount = t.jobs.length) (hne : t.jobs ≠ []) {i : Int}
    (hi : 0 ≤ i) : Keeps t (t.removeJob i) where
  entries := ((List.eraseIdx_sublist _ _).map _).subperm
  jobCount_eq := jobCount_removeJob h hne i
  nextJobId_eq := rfl
  writes_within := by
    intro x hx
    simp only [removeJob, List.mem_append, List.mem_map, List.mem_range] at hx
    rcases hx with ⟨y, hy, rfl⟩ | hx
    · exact .inr ⟨by omega, by omega⟩
    · exact .inl hx

theorem jobs_exchange (t : JobTable) (p : Nat × Nat) :
    (t.exchange p).jobs = Foundation.exchange Job.cmdlineAbove t.jobs p := by
  unfold exchange Foundation.exchange
  split
  · exact apply_ite JobTable.jobs _ _ _
  · rfl

theorem jobs_foldl_exchange (t : JobTable) (rounds : List (Nat × Nat)) :
    (rounds.foldl exchange t).jobs = rounds.foldl (Foundation.exchange Job.cmdlineAbove) t.jobs := by
  induction rounds generalizing t with
  | nil => rfl
  | cons p rounds ih => rw [List.foldl_cons, ih, jobs_exchange, List.foldl_cons]

/-- The loops of `activities` only exchange entries. -/
theorem jobs_activities (t : JobTable) :
    t.activities.jobs = exchangeSort Job.cmdlineAbove t.jobs :=
  jobs_foldl_exchange t _

theorem perm_activities (t : JobTable) : t.activities.jobs.Perm t.jobs := by
  rw [jobs_activities]
  exact perm_exchangeSort _ _

theorem keeps_exchange (h : t.jobCount = t.jobs.length) (p : Nat × Nat) :
    Keeps t (t.exchange p) := by
  have hperm : (t.exchange p).jobs.Perm t.jobs := by
    rw [jobs_exchange]
    exact perm_exchange _ _ _
  refine ⟨(hperm.map _).subperm, ?_, ?_, ?_⟩
  · rw [hperm.length_eq, ← h]
    unfold exchange
    split
    · split <;> rfl
    · rfl
  · unfold exchange
    split
    · split <;> rfl
    · rfl
  · intro x hx
    unfold exchange at hx
    split at hx
    next hp =>
        split at hx
        · simp only [List.mem_cons] at hx
          rcases hx with rfl | rfl | hx
          · exact .inr ⟨by omega, by omega⟩
          · exact .inr ⟨by omega, by omega⟩
          · exact .inl hx
        · exact .inl hx
    next => exact .inl hx

theorem keeps_activities (h : t.jobCount = t.jobs.length) : Keeps t t.activities := by
  unfold activities
  simp only
  generalize (List.range (t.jobs.length - 1)).flatMap _ = rounds
  induction rounds generalizing t with
  | nil => exact .refl h
  | cons p rounds ih =>
      have hfirst := keeps_exchange h p
      exact hfirst.trans (ih hfirst.jobCount_eq)

/-- What a status does to an entry. -/
def checked (pid : Int) (r : Report) (job : Job) : Option Job :=
  if job.pid = pid then (marked r).map fun state => { job with state } else some job

theorem checked_eq_some {pid : Int} {r : Report} {job job' : Job}
    (h : checked pid r job = some job') :
    (job.pid ≠ pid ∧ job' = job) ∨
      (job.pid = pid ∧ ∃ state, marked r = some state ∧ job' = { job with state }) := by
  unfold checked at h
  split at h
  next hpid =>
      obtain ⟨state, hstate, rfl⟩ := Option.map_eq_some_iff.mp h
      exact .inr ⟨hpid, state, hstate, rfl⟩
  next hpid =>
      cases h
      exact .inl ⟨hpid, rfl⟩

theorem entry_checked {pid : Int} {r : Report} {job job' : Job}
    (h : checked pid r job = some job') : job'.entry = job.entry := by
  rcases checked_eq_some h with ⟨-, rfl⟩ | ⟨-, state, -, rfl⟩ <;> rfl

theorem jobs_checkLoop (pid : Int) (r : Report) (i : Nat) (jobs : List Job) :
    (checkLoop pid r i jobs).1 = jobs.filterMap (checked pid r) := by
  induction jobs generalizing i with
  | nil => rfl
  | cons job jobs ih =>
      by_cases hpid : job.pid = pid
      · cases hr : marked r <;> simp [checkLoop, checked, hpid, hr, ih]
      · simp [checkLoop, checked, hpid, ih]

theorem writes_checkLoop (pid : Int) (r : Report) (i : Nat) (jobs : List Job) :
    ∀ x ∈ (checkLoop pid r i jobs).2, (i : Int) ≤ x ∧ x < i + jobs.length := by
  induction jobs generalizing i with
  | nil => simp [checkLoop]
  | cons job jobs ih =>
      intro x hx
      simp only [checkLoop, List.length_cons] at hx ⊢
      split at hx
      · split at hx
        · simp only [List.mem_append, List.mem_map, List.mem_range] at hx
          rcases hx with ⟨y, hy, rfl⟩ | hx
          · omega
          · have := ih i x hx
            omega
        · simp only [List.mem_cons] at hx
          rcases hx with rfl | hx
          · omega
          · have := ih (i + 1) x hx
            omega
      · have := ih (i + 1) x hx
        omega

theorem entries_filterMap (pid : Int) (r : Report) (jobs : List Job) :
    ((jobs.filterMap (checked pid r)).map Job.entry).Sublist (jobs.map Job.entry) := by
  induction jobs with
  | nil => exact .slnil
  | cons job jobs ih =>
      cases h : checked pid r job with
      | none =>
          rw [List.filterMap_cons_none h]
          exact ih.cons _
      | some job' =>
          rw [List.filterMap_cons_some h, List.map_cons, List.map_cons, entry_checked h]
          exact ih.cons_cons _

theorem mem_checkReport {pid : Int} {r : Report} {job' : Job} :
    job' ∈ (t.checkReport pid r).jobs ↔ ∃ job ∈ t.jobs, checked pid r job = some job' := by
  simp only [checkReport, jobs_checkLoop, List.mem_filterMap]

theorem keeps_checkReport (h : t.jobCount = t.jobs.length) (pid : Int) (r : Report) :
    Keeps t (t.checkReport pid r) where
  entries := by
    simp only [checkReport, jobs_checkLoop]
    exact (entries_filterMap pid r t.jobs).subperm
  jobCount_eq := by
    simp only [checkReport, jobs_checkLoop]
    have := List.length_filterMap_le (checked pid r) t.jobs
    omega
  nextJobId_eq := rfl
  writes_within := by
    intro x hx
    simp only [checkReport, List.mem_append] at hx
    rcases hx with hx | hx
    · have := writes_checkLoop pid r 0 t.jobs x hx
      exact .inr (by omega)
    · exact .inl hx

end JobTable

end OxyC.Shell
