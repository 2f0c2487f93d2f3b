import OxyC.Bakery.Rest

/-!
# The order of the service

The chefs take the customers from the sofa and from the register in the order in
which these have lined up there, whoever takes them, and nobody is taken from the
sofa while a payment is waiting.
-/

namespace OxyC.Bakery

open OxyC.Foundation

/-- The customer that the step puts into the line, one of those that the chefs look after. -/
def Deed.joins (l : Line) : Deed → Option Nat
  | .joinsSofa c => if l = .sofa then some c else none
  | .joinsPayment c => if l = .payment then some c else none
  | _ => none

/-- The customer that a chef takes out of the line. -/
def Deed.called (l : Line) : Deed → Option Nat
  | .takes _ c => if l = .sofa then some c else none
  | .bills _ c => if l = .payment then some c else none
  | _ => none

/-- The chefs have called those that joined the line first; the others are still in it. -/
def InTurn (outs : List Deed) (s : Shop Lists) : Prop :=
  ∀ l, l ≠ .standing → outs.filterMap (Deed.joins l) = outs.filterMap (Deed.called l) ++ s.queues l

section Steps

variable {split : Bool} {s s' : Shop Lists} {outs out : List Deed}

theorem InTurn.same (h : InTurn outs s) (hqueues : ∀ l, l ≠ .standing → s'.queues l = s.queues l)
    (hjoins : ∀ l, out.filterMap (Deed.joins l) = [])
    (hcalled : ∀ l, out.filterMap (Deed.called l) = []) : InTurn (outs ++ out) s' := by
  intro l hl
  rw [List.filterMap_append, List.filterMap_append, hjoins, hcalled, List.append_nil,
    List.append_nil, hqueues l hl]
  exact h l hl

theorem InTurn.joins (h : InTurn outs s) {c : Nat} {l : Line} {d : Deed}
    (hqueues : s'.queues = Function.update s.queues l (s.queues l ++ [c]))
    (hjoins : ∀ l', d.joins l' = if l' = l then some c else none)
    (hcalled : ∀ l', d.called l' = none) : InTurn (outs ++ [d]) s' := by
  intro l' hl'
  rw [List.filterMap_append, List.filterMap_append, h l' hl', hqueues]
  by_cases hl : l' = l
  · subst hl
    simp [hjoins, hcalled]
  · simp [hjoins, hcalled, hl]

theorem InTurn.called (h : InTurn outs s) {c : Nat} {l : Line} {d : Deed}
    (hhead : (s.queues l).head? = some c)
    (hqueues : s'.queues = Function.update s.queues l (s.queues l).tail)
    (hjoins : ∀ l', d.joins l' = none)
    (hcalled : ∀ l', d.called l' = if l' = l then some c else none) :
    InTurn (outs ++ [d]) s' := by
  intro l' hl'
  rw [List.filterMap_append, List.filterMap_append, h l' hl', hqueues]
  by_cases hl : l' = l
  · subst hl
    have hcons : s.queues l' = c :: (s.queues l').tail := List.eq_cons_of_mem_head? hhead
    rw [hcons]
    simp [hjoins, hcalled]
  · simp [hjoins, hcalled, hl]

theorem InTurn.step {e : Event} (h : InTurn outs s) (hmove : Moves split e s s' out) :
    InTurn (outs ++ out) s' := by
  cases hmove with
  | main move =>
      cases move with
      | admits a rest point arrivals room =>
          exact h.same (fun _ _ => rfl) (by simp [Deed.joins]) (by simp [Deed.called])
      | _ => exact h.same (fun _ _ => rfl) (fun _ => rfl) (fun _ => rfl)
  | chef k chef move =>
      cases move with
      | bills c point head =>
          exact h.called head rfl (by simp [Deed.joins]) (by simp [Deed.called])
      | takes c point head =>
          exact h.called head rfl (by simp [Deed.joins]) (by simp [Deed.called])
      | _ => exact h.same (fun _ _ => rfl) (by simp [Deed.joins]) (by simp [Deed.called])
  | customer c customer move =>
      cases move with
      | joinsSofa point => exact h.joins rfl (by simp [Deed.joins]) (by simp [Deed.called])
      | joinsPayment point => exact h.joins rfl (by simp [Deed.joins]) (by simp [Deed.called])
      | joinsStanding point =>
          exact h.same (fun l hl => Function.update_of_ne hl _ _) (by simp [Deed.joins])
            (by simp [Deed.called])
      | leavesStanding point head free =>
          exact h.same (fun l hl => Function.update_of_ne hl _ _) (by simp [Deed.joins])
            (by simp [Deed.called])
      | _ => exact h.same (fun _ _ => rfl) (by simp [Deed.joins]) (by simp [Deed.called])
  | chefWakes k chef => exact h.same (fun _ _ => rfl) (fun _ => rfl) (fun _ => rfl)
  | customerWakes c customer point =>
      exact h.same (fun _ _ => rfl) (fun _ => rfl) (fun _ => rfl)

/-! ## Payments first -/

/-- When the shop is closed nobody is left on the sofa. -/
theorem Supervised.sofa_nil {stages : List Stage} (h : Supervised s) (htracks : Tracks s stages)
    (hclosed : s.shutdownFlag = true) : s.queues .sofa = [] := by
  rw [List.eq_nil_iff_forall_not_mem]
  intro c hc
  obtain ⟨st, hst, hline⟩ := htracks.of_line hc
  obtain ⟨cu, hcu, hmatch⟩ := htracks.customer hst
  have hpoint := hmatch.1
  rw [h.all hclosed c cu hcu] at hpoint
  cases st <;> simp_all [Stage.line, Stage.points]

theorem popPayment_of_picking {k : Nat} (hpayment : s.queues .payment ≠ []) :
    chefThread k .picking s = popPayment k s := by
  have hpos : 0 < s.size .payment := List.length_pos_iff.mpr hpayment
  have hsome : ¬ (s.size .payment = 0 ∧ s.size .sofa = 0) := fun h => Nat.ne_of_gt hpos h.1
  rw [chefThread, if_neg hsome, if_pos hpos]

theorem takes_notMem_popPayment {k k' c : Nat} (h : popPayment k s = some (s', out)) :
    .takes k' c ∉ out := by
  unfold popPayment at h
  split at h
  · cases h
    simp
  · cases h

theorem payment_nil_of_takes {stages : List Stage} (hstaffed : Staffed s)
    (hsupervised : Supervised s) (htracks : Tracks s stages) {k k' c : Nat} {p : ChefPoint}
    (hk : s.chefs[k]? = some p) (h : chefThread k p s = some (s', out))
    (htakes : .takes k' c ∈ out) : s.queues .payment = [] := by
  cases chefMove_of_chefThread h with
  | takes d point head =>
      rcases point with rfl | rfl
      · by_contra hpayment
        rw [popPayment_of_picking hpayment] at h
        exact takes_notMem_popPayment h htakes
      · -- only a chef that has seen the shop closed looks here, and the sofa is empty then
        have hclosed := hstaffed.done _ (List.mem_of_getElem? hk) (by simp)
        have hnil := hsupervised.sofa_nil htracks hclosed
        have hhead : (s.queues .sofa).head? = some d := head
        simp [hnil] at hhead
  | _ => simp at htakes

theorem payment_nil_of_step {stages : List Stage} (hstaffed : Staffed s)
    (hsupervised : Supervised s) (htracks : Tracks s stages) {e : Event} {k c : Nat}
    (hstep : (bakery Lists split).step e s = some (s', out)) (htakes : .takes k c ∈ out) :
    s.queues .payment = [] := by
  cases e with
  | step thread =>
      cases thread with
      | main => cases mainMove_of_mainThread hstep <;> simp at htakes
      | chef j =>
          obtain ⟨p, hj, h⟩ := Option.bind_eq_some_iff.mp hstep
          exact payment_nil_of_takes hstaffed hsupervised htracks hj h htakes
      | customer d =>
          obtain ⟨cu, -, h⟩ := Option.bind_eq_some_iff.mp hstep
          cases customerMove_of_customerThread h <;> simp at htakes
  | spurious thread => cases moves_of_step hstep <;> simp at htakes

end Steps

section Runs

variable {split : Bool} {arrivals : List Arrival} {es : List Event} {outs : List Deed}

theorem inTurn_of_run {t : Shop Lists}
    (hrun : (bakery Lists split).run es (opening Lists arrivals) = some (t, outs)) :
    InTurn outs t :=
  (bakery Lists split).run_invariant_history (P := fun _ outs t => InTurn outs t)
    (fun _ _ => rfl) (fun _ _ _ _ _ _ _ h hstep => h.step (moves_of_step hstep)) hrun

theorem staffed_opening (arrivals : List Arrival) : Staffed (opening Lists arrivals) where
  length := List.length_replicate
  asleep hmem := by cases List.eq_of_mem_replicate hmem
  done p hp hpoint := by
    rw [List.eq_of_mem_replicate hp] at hpoint
    simp at hpoint

theorem supervised_opening (arrivals : List Arrival) : Supervised (opening Lists arrivals) :=
  ⟨by simp [opening], by simp [opening], by simp [opening]⟩

theorem staffed_supervised_of_run {t : Shop Lists}
    (hrun : (bakery Lists split).run es (opening Lists arrivals) = some (t, outs)) :
    Staffed t ∧ Supervised t := by
  refine (bakery Lists split).run_invariant (P := fun t => Staffed t ∧ Supervised t) ?_
    ⟨staffed_opening arrivals, supervised_opening arrivals⟩ hrun
  intro e s s' out h hstep
  exact ⟨h.1.step (moves_of_step hstep), h.2.step (moves_of_step hstep)⟩

/-- What a run has done in the lines that the chefs look after, and what its next step can do. -/
structure FirstServed (split : Bool) (outs : List Deed) (s : Shop Linked) : Prop where
  inTurn : ∀ l, l ≠ .standing → ∃ waiting,
    outs.filterMap (Deed.joins l) = outs.filterMap (Deed.called l) ++ waiting ∧
      ∀ c, s.queues.Holds l c ↔ c ∈ waiting
  paymentsFirst : ∀ e s' out k c, (bakery Linked split).step e s = some (s', out) →
    .takes k c ∈ out → s.size .payment = 0

/-- In every order of the steps the chefs serve the sofa and the register first come, first
served, and payments before orders. -/
theorem first_served {s : Shop Linked}
    (hrun : (bakery Linked split).run es (opening Linked arrivals) = some (s, outs)) :
    FirstServed split outs s := by
  obtain ⟨t, hlists, hrefines⟩ := exists_lists hrun
  obtain ⟨stages, htracks, -⟩ := exists_tracks hlists
  obtain ⟨hstaffed, hsupervised⟩ := staffed_supervised_of_run hlists
  constructor
  case inTurn =>
    intro l hl
    exact ⟨t.queues l, inTurn_of_run hlists l hl, fun c => hrefines.holds_iff⟩
  case paymentsFirst =>
    intro e s' out k c hstep htakes
    have hrel : Option.Rel Agree ((bakery Linked split).step e s)
        ((bakery Lists split).step e t) := agree_step htracks hrefines
    rw [hstep] at hrel
    cases hlist : (bakery Lists split).step e t with
    | none =>
        rw [hlist] at hrel
        cases hrel
    | some y =>
        rw [hlist] at hrel
        cases hrel with
        | some hagree =>
            obtain ⟨-, rfl⟩ := hagree
            have hnil := payment_nil_of_step hstaffed hsupervised htracks hlist htakes
            exact (hrefines.queues.size .payment).trans (by rw [hnil]; rfl)

/-- The customer of `visit` takes its turn at both lines. -/
theorem first_served_visit :
    ∃ s outs, (bakery Linked false).run (visit.map .step) (opening Linked [⟨0, 1⟩]) =
      some (s, outs) ∧ outs.filterMap (Deed.called .payment) = [0] ∧ FirstServed false outs s :=
  ⟨_, lifecycle 0 false 0 0, rfl, rfl,
    first_served (show (bakery Linked false).run (visit.map .step)
      (opening Linked [⟨0, 1⟩]) = some (_, _) from rfl)⟩

end Runs

end OxyC.Bakery
