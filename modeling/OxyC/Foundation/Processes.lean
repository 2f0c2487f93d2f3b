import Mathlib.Data.List.Nodup

/-!
# The children of a process

A child that has exited stays until a wait call returns its status.  A wait call
names a child or takes any, and its options say whether stops and continuations
are reported too.
-/

namespace OxyC.Foundation

inductive Report where
  | exited
  | stopped
  | continued
  deriving DecidableEq, Repr

structure Child (α : Type*) where
  pid : Int
  launched : α
  /-- What has happened to the child, the latest first. -/
  history : List Report := []
  /-- Whether a wait call has returned the latest of it. -/
  reported : Bool := false
  deriving DecidableEq, Repr

structure WaitOptions where
  untraced : Bool := false
  continued : Bool := false
  deriving DecidableEq, Repr

namespace Child

variable {α : Type*} (c : Child α)

def everStopped : Prop := .stopped ∈ c.history

instance : Decidable c.everStopped := inferInstanceAs (Decidable (_ ∈ _))

def pending : Option Report := if c.reported then none else c.history.head?

def CanHappen (r : Report) : Prop :=
  match r, c.history.head? with
  | _, some .exited => False
  | .exited, _ => True
  | .stopped, last => last ≠ some .stopped
  | .continued, last => last = some .stopped

instance (r : Report) : Decidable (c.CanHappen r) := by
  unfold CanHappen
  split <;> infer_instance

def happen (r : Report) : Child α := { c with history := r :: c.history, reported := false }

/-- The status that a wait call with these options finds. -/
def status (o : WaitOptions) : Option Report :=
  c.pending.filter fun r => r = .exited || r = .stopped && o.untraced || r = .continued && o.continued

/-- The children that a wait call for `target` is about. -/
def Answers (target : Int) : Prop := target = -1 ∨ c.pid = target

instance (target : Int) : Decidable (c.Answers target) := inferInstanceAs (Decidable (_ ∨ _))

theorem pending_of_status {o : WaitOptions} {r : Report} (h : c.status o = some r) :
    c.pending = some r := by
  simp only [status, Option.filter_eq_some_iff] at h
  exact h.1

theorem everStopped_of_pending (h : c.pending = some .stopped) : c.everStopped := by
  unfold pending at h
  split at h
  · cases h
  · exact List.mem_of_head? h

theorem status_allowed {o : WaitOptions} {r : Report} (h : c.status o = some r) :
    r = .exited ∨ r = .stopped ∧ o.untraced = true ∨ r = .continued ∧ o.continued = true := by
  simp only [status, Option.filter_eq_some_iff, Bool.or_eq_true, decide_eq_true_eq,
    Bool.and_eq_true, or_assoc] at h
  exact h.2

theorem status_exited (h : c.pending = some .exited) (o : WaitOptions) :
    c.status o = some .exited := by
  simp [status, h]

end Child

abbrev Children (α : Type*) := List (Child α)

namespace Children

variable {α : Type*} (cs : Children α)

def pids : List Int := cs.map Child.pid

def child? (pid : Int) : Option (Child α) := cs.find? (·.pid = pid)

def update (pid : Int) (f : Child α → Child α) : Children α :=
  cs.map fun c => if c.pid = pid then f c else c

/-- The children after a wait call has returned the status `r` of `pid`. -/
def collect (pid : Int) (r : Report) : Children α :=
  if r = .exited then cs.filter (·.pid ≠ pid)
  else cs.update pid fun c => { c with reported := true }

def fork (pid : Int) (launched : α) : Children α := cs ++ [⟨pid, launched, [], false⟩]

variable {cs} {pid : Int}

theorem child?_eq_some {c : Child α} (h : cs.child? pid = some c) : c ∈ cs ∧ c.pid = pid := by
  refine ⟨List.mem_of_find?_eq_some h, ?_⟩
  simpa using List.find?_some h

theorem mem_pids : pid ∈ cs.pids ↔ ∃ c ∈ cs, c.pid = pid := by simp [pids]

theorem mem_pids_of_mem {c : Child α} (h : c ∈ cs) : c.pid ∈ cs.pids := mem_pids.mpr ⟨c, h, rfl⟩

theorem pids_update {f : Child α → Child α} (hf : ∀ c, (f c).pid = c.pid) :
    (cs.update pid f).pids = cs.pids := by
  simp only [pids, update, List.map_map]
  apply List.map_congr_left
  intro c _
  simp only [Function.comp_apply]
  split
  · exact hf c
  · rfl

@[simp] theorem pids_happen (r : Report) : (cs.update pid (·.happen r)).pids = cs.pids :=
  pids_update fun _ => rfl

theorem pids_collect_exited : (cs.collect pid .exited).pids = cs.pids.filter (· ≠ pid) := by
  simp [collect, pids, List.filter_map, Function.comp_def]

theorem pids_collect {r : Report} (h : r ≠ .exited) : (cs.collect pid r).pids = cs.pids := by
  rw [collect, if_neg h]
  exact pids_update fun _ => rfl

theorem pids_collect_subset {r : Report} : (cs.collect pid r).pids ⊆ cs.pids := by
  by_cases h : r = .exited
  · rw [h, pids_collect_exited]
    exact List.filter_sublist.subset
  · rw [pids_collect h]
    exact List.Subset.refl _

@[simp] theorem pids_fork (launched : α) : (cs.fork pid launched).pids = cs.pids ++ [pid] := by
  simp [fork, pids]

/-- A child that keeps being there, perhaps with more having happened to it. -/
structure Grows (c d : Child α) : Prop where
  pid_eq : d.pid = c.pid
  launched_eq : d.launched = c.launched
  history_suffix : c.history <:+ d.history

theorem Grows.refl (c : Child α) : Grows c c := ⟨rfl, rfl, List.suffix_refl _⟩

theorem Grows.everStopped {c d : Child α} (h : Grows c d) (hc : c.everStopped) : d.everStopped :=
  h.history_suffix.subset hc

theorem mem_update {f : Child α → Child α} (hf : ∀ c, Grows c (f c)) {c : Child α} (hc : c ∈ cs) :
    ∃ d ∈ cs.update pid f, Grows c d := by
  refine ⟨if c.pid = pid then f c else c, List.mem_map_of_mem hc, ?_⟩
  split
  · exact hf c
  · exact .refl c

theorem mem_happen (r : Report) {c : Child α} (hc : c ∈ cs) :
    ∃ d ∈ cs.update pid (·.happen r), Grows c d :=
  mem_update (f := (·.happen r)) (fun _ => ⟨rfl, rfl, List.suffix_cons _ _⟩) hc

theorem mem_collect {r : Report} {c : Child α} (hc : c ∈ cs) (h : r = .exited → c.pid ≠ pid) :
    ∃ d ∈ cs.collect pid r, Grows c d := by
  by_cases hr : r = .exited
  · refine ⟨c, ?_, .refl c⟩
    simp [collect, hr, hc, h hr]
  · rw [collect, if_neg hr]
    exact mem_update (f := fun c => { c with reported := true })
      (fun _ => ⟨rfl, rfl, List.suffix_refl _⟩) hc

theorem mem_fork {c : Child α} (hc : c ∈ cs) (launched : α) : c ∈ cs.fork pid launched :=
  List.mem_append_left _ hc

end Children

end OxyC.Foundation
