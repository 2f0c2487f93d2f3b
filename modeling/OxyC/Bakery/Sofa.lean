import OxyC.Bakery.Accounting

/-!
# The seats of the sofa

The seat test on entry is made without the lock.  A seat may be gone when the
customer takes the lock and counts itself in.
-/

namespace OxyC.Bakery

open OxyC.Foundation

section Bound

variable {Q : Type} [Queues Q] {split : Bool}

def SofaBound (s : Shop Q) : Prop := s.sofaOccupied ≤ sofaSeats

/-- A customer that counts itself in without a second test does so while there is a seat. -/
def SeatStillFree (s : Shop Q) (e : Event) : Prop :=
  ∀ c cu, e = .step (.customer c) → s.customers[c]? = some cu → cu.point = .taking →
    s.sofaOccupied < sofaSeats

theorem CustomerMove.sofaOccupied {c : Nat} {cu : Customer} {s s' : Shop Q} {out : List Deed}
    (hmove : CustomerMove split c cu s s' out) :
    (cu.point = .taking ∧ s'.sofaOccupied = s.sofaOccupied + 1) ∨
      (cu.point ≠ .taking ∧ (s'.sofaOccupied ≤ s.sofaOccupied ∨
        s.sofaOccupied < sofaSeats ∧ s'.sofaOccupied = s.sofaOccupied + 1)) := by
  cases hmove with
  | takesSeat point => exact .inl ⟨point, rfl⟩
  | leavesStanding point head free => exact .inr ⟨by simp [point], .inr ⟨free, rfl⟩⟩
  | leaves point =>
      refine .inr ⟨by simp [point], .inl ?_⟩
      show s.sofaOccupied - 1 ≤ s.sofaOccupied
      omega
  | findsSeat point free nobody =>
      exact .inr ⟨by rcases point with point | point <;> simp [point], .inl (Int.le_refl _)⟩
  | decides point full =>
      exact .inr ⟨by rcases point with point | point <;> simp [point], .inl (Int.le_refl _)⟩
  | _ => exact .inr ⟨by simp [*], .inl (Int.le_refl _)⟩

theorem sofaBound_step {e : Event} {s s' : Shop Q} {out : List Deed} (h : SofaBound s)
    (hmove : Moves split e s s' out) : SofaBound s' ↔ SeatStillFree s e := by
  unfold SofaBound SeatStillFree at *
  cases hmove with
  | main move => cases move <;> simp_all [Shop.broadcastChefCv]
  | chef k chef move => cases move <;> simp_all [Shop.chefTo, Shop.customer, Shop.pop]
  | chefWakes k chef => simp_all [Shop.chefTo]
  | customerWakes c customer point => simp_all [Shop.goTo, Shop.customer]
  | @customer c _ _ cu _ customer move =>
      have hown : ∀ d cu', Event.step (.customer c) = .step (.customer d) →
          s.customers[d]? = some cu' → cu' = cu := by
        rintro d cu' ⟨⟩ hcu'
        exact Option.some.inj (hcu'.symm.trans customer)
      rcases move.sofaOccupied with ⟨hpoint, hsofa⟩ | ⟨hpoint, hsofa⟩
      · rw [hsofa]
        constructor
        · intro hbound _ _ _ _ _
          omega
        · intro hfree
          have := hfree c cu rfl customer hpoint
          omega
      · constructor
        · intro _ d cu' hself hcu' hpoint'
          rw [hown d cu' hself hcu'] at hpoint'
          exact absurd hpoint' hpoint
        · intro _
          rcases hsofa with hle | ⟨hfree, hsofa⟩ <;> omega

theorem sofaBound_iff_guarded (arrivals : List Arrival) (es : List Event) :
    (bakery Q split).Always SofaBound es (opening Q arrivals) ↔
      (bakery Q split).Guarded ((bakery Q split).WhenTaken SeatStillFree) es
        (opening Q arrivals) := by
  refine (bakery Q split).always_iff_guarded_taken (J := fun _ => True) ?_ es trivial ?_
  · intro e s s' out _ hbound hstep
    exact ⟨trivial, sofaBound_step hbound (moves_of_step hstep)⟩
  · simp [SofaBound, opening, sofaSeats]

end Bound

/-! ## How many customers it takes -/

section Arrivals

variable {arrivals : List Arrival}

theorem length_customers_le {Q : Type} [Queues Q] {split : Bool} {es : List Event} {t : Shop Q}
    {outs : List Deed} (hrun : (bakery Q split).run es (opening Q arrivals) = some (t, outs)) :
    t.customers.length + t.arrivals.length ≤ arrivals.length := by
  refine (bakery Q split).run_invariant
    (P := fun s => s.customers.length + s.arrivals.length ≤ arrivals.length) ?_
    (by simp [opening]) hrun
  intro e s s' out hle hstep
  have hmove := moves_of_step hstep
  by_cases he : e = .step .main
  · subst he
    cases hmove with
    | main move =>
        cases move with
        | closes i point all => exact hle
        | _ => simp_all <;> omega
  · have hsame := hmove.sameMain he
    rwa [hsame.length, hsame.arrivals]

/-- All the customers pass the seat test before any of them takes the lock. -/
def rush : List Event :=
  List.replicate 5 (.step .main) ++
    [.customer 0, .customer 1, .customer 2, .customer 3, .customer 4,
      .customer 0, .customer 1, .customer 2, .customer 3, .customer 4].map .step

theorem not_sofaBound_rush (h : sofaSeats < arrivals.length) :
    ¬ (bakery Linked false).Always SofaBound rush (opening Linked arrivals) := by
  match arrivals, h with
  | a :: b :: c :: d :: e :: rest, _ =>
    intro halways
    have hrun : ∃ t outs, (bakery Linked false).run rush
        (opening Linked (a :: b :: c :: d :: e :: rest)) = some (t, outs) ∧
          t.sofaOccupied = 5 := ⟨_, _, rfl, rfl⟩
    obtain ⟨t, outs, hrun, hfive⟩ := hrun
    have hbound : t.sofaOccupied ≤ sofaSeats := halways.of_run _ hrun
    rw [hfive] at hbound
    exact absurd hbound (by decide)

/--
In every run the bound is kept exactly as long as each customer that has passed the seat test
counts itself in before the seats run out.  No order of the steps breaks it exactly if there are
no more arrivals than seats.
-/
theorem sofa_bound (arrivals : List Arrival) :
    (∀ es, (bakery Linked false).Always SofaBound es (opening Linked arrivals) ↔
      (bakery Linked false).Guarded ((bakery Linked false).WhenTaken SeatStillFree) es
        (opening Linked arrivals)) ∧
    ((∀ es, (bakery Linked false).Always SofaBound es (opening Linked arrivals)) ↔
      arrivals.length ≤ sofaSeats) := by
  refine ⟨sofaBound_iff_guarded arrivals, ?_, ?_⟩
  · intro halways
    by_contra hmany
    exact not_sofaBound_rush (Int.not_le.mp hmany) (halways rush)
  · intro hfew es
    refine (bakery Linked false).always_of_run (fun es t outs hrun => ?_) es
    have haccounts := accounts_of_run hrun
    have hle := length_customers_le hrun
    have hseats : seatsTaken t.customers.length outs ≤ t.customers.length := by
      have hcount := List.countP_le_length (l := List.range t.customers.length)
        (p := fun c => decide (.sits c ∈ outs ∧ .leaves c ∉ outs))
      rwa [List.length_range] at hcount
    rw [SofaBound, haccounts.sofa]
    omega

/-- Five customers find the sofa empty. -/
theorem sofa_bound_five :
    ¬ (bakery Linked false).Always SofaBound rush (opening Linked (List.replicate 5 ⟨0, 1⟩)) :=
  not_sofaBound_rush (by decide)

end Arrivals

end OxyC.Bakery
