import OxyC.Bakery.ServiceOnce

/-!
# The two counters

`current_customers` and `sofa_occupied` count the customers by what they have
done so far.
-/

namespace OxyC.Bakery

open OxyC.Foundation

theorem countP_range {α : Type*} {p : α → Bool} {q : Nat → Bool} {as : List α}
    (h : ∀ i a, as[i]? = some a → q i = p a) : (List.range as.length).countP q = as.countP p := by
  induction as using List.reverseRecOn with
  | nil => rfl
  | append_singleton as a ih =>
      have hlast : q as.length = p a := h as.length a (by simp)
      have hinit : (List.range as.length).countP q = as.countP p := by
        refine ih fun i b hi => h i b ?_
        rw [List.getElem?_append_left (List.getElem?_eq_some_iff.mp hi).1, hi]
      rw [List.length_append, List.length_singleton, List.range_succ, List.countP_append,
        List.countP_append, hinit, List.countP_singleton, List.countP_singleton, hlast]

theorem Stage.leaves_mem_iff (c : Nat) (st : Stage) :
    .leaves c ∈ st.history c ↔ st.inside = false := by
  cases st with
  | arrived => simp [history, inside]
  | inLine => simp [history, inside]
  | _ b => cases b <;> simp [history, inside, lifecycle, seating, service, checkout]

theorem Stage.sits_mem_iff (c : Nat) (st : Stage) :
    .sits c ∈ st.history c ↔ st.holdsSeat = true ∨ st.inside = false := by
  cases st with
  | arrived => simp [history, inside, holdsSeat]
  | inLine => simp [history, inside, holdsSeat]
  | _ b => cases b <;> simp [history, inside, holdsSeat, lifecycle, seating]

theorem Stage.inside_of_holdsSeat {st : Stage} (h : st.holdsSeat = true) : st.inside = true := by
  cases st <;> first | rfl | cases h

section Runs

variable {split : Bool} {arrivals : List Arrival} {es : List Event} {s : Shop Linked}
  {outs : List Deed}

/-- The customers that have not executed their leaving section. -/
def customersInside (n : Nat) (outs : List Deed) : Nat :=
  (List.range n).countP fun c => .leaves c ∉ outs

/-- The customers that have taken a seat and have not executed their leaving section. -/
def seatsTaken (n : Nat) (outs : List Deed) : Nat :=
  (List.range n).countP fun c => .sits c ∈ outs ∧ .leaves c ∉ outs

theorem Recorded.customersInside {stages : List Stage} (h : Recorded outs stages) :
    customersInside stages.length outs = stages.countP Stage.inside := by
  refine countP_range fun c st hst => ?_
  have hleaves : Deed.leaves c ∈ outs ↔ st.inside = false := by
    rw [h.mem_iff, ← st.leaves_mem_iff c]
    simp [Deed.customer, hst]
  simp [hleaves]

theorem Recorded.seatsTaken {stages : List Stage} (h : Recorded outs stages) :
    seatsTaken stages.length outs = stages.countP Stage.holdsSeat := by
  refine countP_range fun c st hst => ?_
  have hleaves : Deed.leaves c ∈ outs ↔ st.inside = false := by
    rw [h.mem_iff, ← st.leaves_mem_iff c]
    simp [Deed.customer, hst]
  have hsits : Deed.sits c ∈ outs ↔ st.holdsSeat = true ∨ st.inside = false := by
    rw [h.mem_iff, ← st.sits_mem_iff c]
    simp [Deed.customer, hst]
  have hinside := @Stage.inside_of_holdsSeat st
  simp only [hleaves, hsits]
  cases hseat : st.holdsSeat <;> cases hin : st.inside <;> simp_all

/-- The counters are what the deeds of the run say. -/
structure Accounts (outs : List Deed) (s : Shop Linked) : Prop where
  current : s.currentCustomers = customersInside s.customers.length outs
  current_nonneg : 0 ≤ s.currentCustomers
  current_le : s.currentCustomers ≤ maxCapacity
  sofa : s.sofaOccupied = seatsTaken s.customers.length outs
  sofa_nonneg : 0 ≤ s.sofaOccupied

/-- The counters are right in every reachable shop. -/
theorem accounts_of_run
    (hrun : (bakery Linked split).run es (opening Linked arrivals) = some (s, outs)) :
    Accounts outs s := by
  obtain ⟨t, hlists, hrefines⟩ := exists_lists hrun
  obtain ⟨stages, htracks, hrecorded⟩ := exists_tracks hlists
  have hlength := htracks.length
  have hcurrent := htracks.current
  have hsofa := htracks.sofa
  have hcapacity := htracks.capacity
  rw [hrefines.same] at hlength hcurrent hsofa hcapacity
  simp only [Shop.withQueues] at hlength hcurrent hsofa hcapacity
  constructor
  case current => rw [hlength, hrecorded.customersInside, hcurrent]
  case current_nonneg => omega
  case current_le => exact hcapacity
  case sofa => rw [hlength, hrecorded.seatsTaken, hsofa]
  case sofa_nonneg => omega

end Runs

/-- The second customer is admitted while the first one sits. -/
theorem accounts_of_run_visit :
    ∃ s outs, (bakery Linked true).run
        ([.main, .customer 0, .customer 0, .customer 0, .main].map .step)
        (opening Linked [⟨0, 1⟩, ⟨3, 2⟩]) = some (s, outs) ∧ Accounts outs s :=
  ⟨_, _, rfl, accounts_of_run (show (bakery Linked true).run
    ([.main, .customer 0, .customer 0, .customer 0, .main].map .step)
    (opening Linked [⟨0, 1⟩, ⟨3, 2⟩]) = some (_, _) from rfl)⟩

end OxyC.Bakery
