import OxyC.Bakery.Shop

/-!
# The queues of the bakery

The functions of `queue.c`, called in any order on the three queues.  Each queue
answers as a list of its own, although a customer has only one link.
-/

namespace OxyC.Bakery

open OxyC.Foundation

section Calls

variable {κ : Type*}

inductive QueueCall (κ : Type*) where
  /-- `q_push`. -/
  | push (c : κ)
  /-- `q_pop`. -/
  | pop

/-- The queues after `q_init`, which leaves the links as they are. -/
def qInit (next : κ → Option κ) : LinkedQueues Line κ := ⟨next, fun _ => {}⟩

/-- What is said about one of the queues. -/
def ofLine {β : Type*} (l : Line) (xs : List (Line × β)) : List β :=
  xs.filterMap fun x => if x.1 = l then some x.2 else none

def QueueCall.pushed : QueueCall κ → Option κ
  | push c => some c
  | pop => none

/-- A list from which the first element is taken. -/
def fifo : Mealy (QueueCall κ) (Option κ) (List κ) where
  step
    | .push c, cs => some (cs ++ [c], [])
    | .pop, cs => some (cs.tail, [cs.head?])

theorem run_fifo {calls : List (QueueCall κ)} {cs cs' : List κ} {outs : List (Option κ)}
    (hrun : fifo.run calls cs = some (cs', outs)) :
    cs ++ calls.filterMap QueueCall.pushed = outs.reduceOption ++ cs' := by
  induction calls generalizing cs outs with
  | nil =>
      cases hrun
      rw [List.filterMap_nil, List.append_nil]
      rfl
  | cons call calls ih =>
      obtain ⟨next, out, rest, hstep, hrest, rfl⟩ := fifo.run_cons_eq_some.mp hrun
      have htail := ih hrest
      cases call with
      | push c =>
          cases hstep
          rw [List.nil_append, ← htail, List.append_assoc]
          rfl
      | pop =>
          cases hstep
          cases cs with
          | nil => exact htail
          | cons c cs => exact congrArg (c :: ·) htail

variable {q : LinkedQueues Line κ} {ls : Line → List κ}

@[simp] theorem ofLine_nil {β : Type*} (l : Line) : ofLine l ([] : List (Line × β)) = [] := rfl

theorem ofLine_singleton {β : Type*} (l k : Line) (x : β) :
    ofLine l [(k, x)] = if k = l then [x] else [] := by
  by_cases hk : k = l <;> simp [ofLine, hk]

theorem ofLine_append {β : Type*} (l : Line) (xs ys : List (Line × β)) :
    ofLine l (xs ++ ys) = ofLine l xs ++ ofLine l ys := List.filterMap_append

theorem represents_qInit (next : κ → Option κ) : (qInit next).Represents fun _ => [] :=
  LinkedQueues.represents_empty next

variable [DecidableEq κ]

/-- The queues of `queue.c`; a pop is answered with the queue and the old head. -/
def queueFunctions : Mealy (Line × QueueCall κ) (Line × Option κ) (LinkedQueues Line κ) where
  step
    | (l, .push c), q => some (q.push l c, [])
    | (l, .pop), q => some (q.pop l, [(l, (q.queue l).head)])

/-- A customer is pushed while it is in none of the queues. -/
def PushesFree (q : LinkedQueues Line κ) : Line × QueueCall κ → Prop
  | (_, .push c) => ∀ l, ¬ q.Holds l c
  | (_, .pop) => True

/-- A call on one queue is answered by its list, and the other lists stay as they are. -/
theorem step_queueFunctions (hrep : q.Represents ls) {call : Line × QueueCall κ}
    (hfree : PushesFree q call) :
    ∃ q' out ls', queueFunctions.step call q = some (q', out) ∧ q'.Represents ls' ∧
      ∀ l, fifo.run (ofLine l [call]) (ls l) = some (ls' l, ofLine l out) := by
  obtain ⟨k, call⟩ := call
  cases call with
  | push c =>
      have hnotMem : ∀ l, c ∉ ls l := fun l hmem => hfree l (hrep.holds_iff.mpr hmem)
      refine ⟨_, _, _, rfl, hrep.push hnotMem k, fun l => ?_⟩
      rw [ofLine_singleton]
      by_cases hk : k = l
      · subst hk
        rw [if_pos rfl, Function.update_self]
        rfl
      · rw [if_neg hk, Function.update_of_ne (Ne.symm hk)]
        rfl
  | pop =>
      refine ⟨_, _, _, rfl, hrep.pop k, fun l => ?_⟩
      rw [ofLine_singleton, ofLine_singleton, hrep.head k]
      by_cases hk : k = l
      · subst hk
        rw [if_pos rfl, if_pos rfl, Function.update_self]
        rfl
      · rw [if_neg hk, if_neg hk, Function.update_of_ne (Ne.symm hk)]
        rfl

theorem run_queueFunctions {calls : List (Line × QueueCall κ)} (hrep : q.Represents ls)
    (hfree : queueFunctions.Guarded PushesFree calls q) :
    ∃ q' outs ls', queueFunctions.run calls q = some (q', outs) ∧ q'.Represents ls' ∧
      ∀ l, fifo.run (ofLine l calls) (ls l) = some (ls' l, ofLine l outs) := by
  induction calls generalizing q ls with
  | nil => exact ⟨q, [], ls, rfl, hrep, fun _ => rfl⟩
  | cons call calls ih =>
      obtain ⟨q', out, ls', hstep, hrep', hfirst⟩ := step_queueFunctions hrep hfree.1
      obtain ⟨q'', outs, ls'', hrun, hrep'', hrest⟩ := ih hrep' (hfree.2 q' out hstep)
      refine ⟨q'', out ++ outs, ls'', ?_, hrep'', fun l => ?_⟩
      · exact queueFunctions.run_cons_eq_some.mpr ⟨q', out, outs, hstep, hrun, rfl⟩
      · rw [← List.singleton_append, ofLine_append, ofLine_append]
        exact fifo.run_append.mpr ⟨ls' l, _, _, hfirst l, hrest l, rfl⟩

/-- Each queue answers as a list of its own that sees the calls on this queue only. -/
theorem queues_are_lists (next : κ → Option κ) {calls : List (Line × QueueCall κ)}
    (hfree : queueFunctions.Guarded PushesFree calls (qInit next)) :
    ∃ q outs ls, queueFunctions.run calls (qInit next) = some (q, outs) ∧ q.Represents ls ∧
      ∀ l, fifo.run (ofLine l calls) [] = some (ls l, ofLine l outs) ∧
        (q.queue l).head = (ls l).head? ∧
        (ofLine l calls).filterMap QueueCall.pushed = (ofLine l outs).reduceOption ++ ls l ∧
        ∀ call q' out, PushesFree q (l, call) →
          queueFunctions.step (l, call) q = some (q', out) →
          ∃ ls', q'.Represents ls' ∧ ∀ k ≠ l, ls' k = ls k := by
  obtain ⟨q, outs, ls, hrun, hrep, hlists⟩ := run_queueFunctions (represents_qInit next) hfree
  refine ⟨q, outs, ls, hrun, hrep, fun l => ⟨hlists l, hrep.head l, ?_, ?_⟩⟩
  · rw [← run_fifo (hlists l), List.nil_append]
  · intro call q' out hpush hcall
    obtain ⟨q'', out', ls', hstep, hrep', hothers⟩ := step_queueFunctions hrep hpush
    obtain ⟨rfl, rfl⟩ := Prod.mk.inj (Option.some.inj (hcall.symm.trans hstep))
    refine ⟨ls', hrep', fun k hk => ?_⟩
    have hother := hothers k
    rw [ofLine_singleton, if_neg (Ne.symm hk)] at hother
    exact ((Prod.mk.inj (Option.some.inj hother)).1).symm

end Calls

/-- One customer stands and another one sits; only the first is taken out. -/
def twoCustomers : List (Line × QueueCall Nat) :=
  [(.standing, .push 2), (.sofa, .push 1), (.standing, .pop), (.standing, .pop)]

theorem guarded_twoCustomers :
    queueFunctions.Guarded PushesFree twoCustomers (qInit fun _ => none) := by
  have hfirst : ∀ l, ¬ (qInit fun _ => none).Holds l 2 := by
    rintro l (hreach | htail)
    · cases l <;> cases hreach
    · cases l <;> cases htail
  have hsecond : ∀ l, ¬ ((qInit fun _ => none).push .standing 2).Holds l 1 := by
    have hrep := (represents_qInit fun _ : Nat => none).push (a := 2) (fun _ => List.not_mem_nil)
      .standing
    intro l
    rw [hrep.holds_iff]
    cases l <;> decide
  refine ⟨hfirst, fun q out hstep => ?_⟩
  cases hstep
  refine ⟨hsecond, fun q out hstep => ?_⟩
  exact ⟨trivial, fun q out hstep => ⟨trivial, fun q out hstep => trivial⟩⟩

theorem queues_are_lists_two :
    ∃ q outs ls, queueFunctions.run twoCustomers (qInit fun _ => none) = some (q, outs) ∧
      q.Represents ls ∧
      ∀ l, fifo.run (ofLine l twoCustomers) [] = some (ls l, ofLine l outs) ∧
        (q.queue l).head = (ls l).head? ∧
        (ofLine l twoCustomers).filterMap QueueCall.pushed =
          (ofLine l outs).reduceOption ++ ls l ∧
        ∀ call q' out, PushesFree q (l, call) →
          queueFunctions.step (l, call) q = some (q', out) →
          ∃ ls', q'.Represents ls' ∧ ∀ k ≠ l, ls' k = ls k :=
  queues_are_lists (fun _ => none) guarded_twoCustomers

end OxyC.Bakery
