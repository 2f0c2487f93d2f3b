import OxyC.Bakery.Rest

/-!
# The lost wake-up

A customer that has decided to stand begins to wait without looking again.  If
everybody with a seat leaves in between, nobody is left to wake it, and whoever
comes later stands behind it.
-/

namespace OxyC.Bakery

open OxyC.Foundation

/-- Some order of the threads takes the shop from `s` to `s'`. -/
def Leads (s s' : Shop Lists) : Prop :=
  ∃ (ts : List Thread) (outs : List Deed),
    (bakery Lists false).run (ts.map .step) s = some (s', outs)

theorem Leads.refl (s : Shop Lists) : Leads s s := ⟨[], [], rfl⟩

theorem Leads.trans {s s' s'' : Shop Lists} (h : Leads s s') (h' : Leads s' s'') :
    Leads s s'' := by
  obtain ⟨ts, outs, hrun⟩ := h
  obtain ⟨ts', outs', hrun'⟩ := h'
  refine ⟨ts ++ ts', outs ++ outs', ?_⟩
  rw [List.map_append]
  exact (bakery Lists false).run_append.mpr ⟨s', outs, outs', hrun, hrun', rfl⟩

theorem Leads.step {s s' : Shop Lists} (thread : Thread) (out : List Deed)
    (h : threadStep false s thread = some (s', out)) : Leads s s' := by
  refine ⟨[thread], out, ?_⟩
  have hstep : (bakery Lists false).step (.step thread) s = some (s', out) := h
  simp [Mealy.run, hstep]

section Stranded

variable {s : Shop Lists} {rest : List Arrival}

/-- The first in the standing queue is asleep, and no seat is held. -/
structure Stranded (rest : List Arrival) (s : Shop Lists) : Prop where
  arrivals : s.arrivals = rest
  main : s.main = .admitting
  customers : ∀ cu ∈ s.customers, cu.point = .freed ∨ cu.point = .waiting
  asleep : ∃ cu ∈ s.customers, cu.point = .waiting
  queue : s.queues .standing ≠ []
  chefs : ∀ p ∈ s.chefs, p = .waiting

theorem Leads.customer {s' : Shop Lists} {c : Nat} (cu : Customer) {out : List Deed}
    (hcu : s.customers[c]? = some cu) (h : customerThread false c cu s = some (s', out)) :
    Leads s s' := by
  refine .step (.customer c) out ?_
  rw [threadStep, hcu, Option.bind_some, h]

theorem decides_to_stand {c : Nat} {cu : Customer} (hpoint : cu.point = .entered)
    (hqueue : s.queues .standing ≠ []) :
    customerThread false c cu s = some (s.goTo c .standing, []) := by
  have hsize : s.size .standing ≠ 0 := fun h => hqueue (List.eq_nil_of_length_eq_zero h)
  simp [customerThread, hpoint, hsize]

theorem modify_concat {α : Type*} (as : List α) (a : α) (f : α → α) :
    (as ++ [a]).modify as.length f = as ++ [f a] := by
  induction as with
  | nil => rfl
  | cons b as ih => simpa using ih

/-- The next arrival is turned away or falls asleep too. -/
theorem Stranded.admit {a : Arrival} (h : Stranded (a :: rest) s) :
    ∃ s', Leads s s' ∧ Stranded rest s' := by
  by_cases hfull : maxCapacity ≤ s.currentCustomers
  · refine ⟨{ s with arrivals := rest }, .step .main [] ?_,
      { h with arrivals := rfl }⟩
    simp [threadStep, mainThread, h.main, h.arrivals, hfull]
  · let n := s.customers.length
    let s₁ : Shop Lists :=
      { s with
        arrivals := rest
        customers := s.customers ++ [{ id := a.id }]
        currentCustomers := s.currentCustomers + 1 }
    let s₂ := s₁.goTo n .standing
    let s₃ := (s₂.push .standing n).goTo n .queued
    let s₄ := s₃.goTo n .waiting
    have hcustomers₂ : s₂.customers = s.customers ++ [{ id := a.id, point := .standing }] :=
      modify_concat _ _ _
    have hcustomers₃ : s₃.customers = s.customers ++ [{ id := a.id, point := .queued }] := by
      show s₂.customers.modify n _ = _
      rw [hcustomers₂, modify_concat]
    have hcustomers₄ : s₄.customers = s.customers ++ [{ id := a.id, point := .waiting }] := by
      show s₃.customers.modify n _ = _
      rw [hcustomers₃, modify_concat]
    have hadmits : Leads s s₁ := by
      refine .step .main [.admits n] ?_
      simp [threadStep, mainThread, h.main, h.arrivals, hfull, s₁, n]
    have hdecides : Leads s₁ s₂ :=
      .customer { id := a.id } List.getElem?_concat_length (decides_to_stand rfl h.queue)
    have hjoins : Leads s₂ s₃ :=
      .customer (c := n) { id := a.id, point := .standing }
        (by rw [hcustomers₂]; exact List.getElem?_concat_length) rfl
    have hsleeps : Leads s₃ s₄ :=
      .customer (c := n) { id := a.id, point := .queued }
        (by rw [hcustomers₃]; exact List.getElem?_concat_length) rfl
    refine ⟨s₄, ((hadmits.trans hdecides).trans hjoins).trans hsleeps, ?_⟩
    constructor
    case arrivals => rfl
    case main => exact h.main
    case customers =>
      intro cu hcu
      rw [hcustomers₄, List.mem_append, List.mem_singleton] at hcu
      rcases hcu with hcu | rfl
      · exact h.customers cu hcu
      · exact .inr rfl
    case asleep =>
      obtain ⟨cu, hcu, hwaiting⟩ := h.asleep
      exact ⟨cu, by rw [hcustomers₄]; exact List.mem_append_left _ hcu, hwaiting⟩
    case queue =>
      have hqueue : s₄.queues .standing = s.queues .standing ++ [n] := by simp [s₄, s₃, s₂, s₁]
      rw [hqueue]
      simp
    case chefs => exact h.chefs

theorem Stranded.admitAll (h : Stranded rest s) : ∃ s', Leads s s' ∧ Stranded [] s' := by
  induction rest generalizing s with
  | nil => exact ⟨s, .refl s, h⟩
  | cons a rest ih =>
      obtain ⟨s₁, hfirst, h₁⟩ := h.admit
      obtain ⟨s₂, hothers, h₂⟩ := ih h₁
      exact ⟨s₂, hfirst.trans hothers, h₂⟩

/-- The chefs and the customers that are left are asleep, and `main` waits for one of them. -/
theorem stuck_of_asleep {i : Nat} {cu : Customer} (hmain : s.main = .joining i)
    (hcustomers : ∀ cu ∈ s.customers, cu.point = .freed ∨ cu.point = .waiting)
    (hchefs : ∀ p ∈ s.chefs, p = .waiting) (hcu : s.customers[i]? = some cu)
    (hwaiting : cu.point = .waiting) : Stuck s := by
  intro thread
  cases thread with
  | main => simp [threadStep, mainThread, hmain, hcu, hwaiting]
  | chef k =>
      cases hk : s.chefs[k]? with
      | none => simp [threadStep, hk]
      | some p =>
          obtain rfl := hchefs p (List.mem_of_getElem? hk)
          simp [threadStep, hk, chefThread]
  | customer c =>
      cases hc : s.customers[c]? with
      | none => simp [threadStep, hc]
      | some other =>
          rcases hcustomers other (List.mem_of_getElem? hc) with hp | hp <;>
            simp [threadStep, hc, customerThread, hp]

/-- `main` joins the customers up to the first one that is asleep. -/
theorem stuck_of_joining {n i : Nat} (hmain : s.main = .joining i)
    (hcustomers : ∀ cu ∈ s.customers, cu.point = .freed ∨ cu.point = .waiting)
    (hchefs : ∀ p ∈ s.chefs, p = .waiting) {cu : Customer}
    (hasleep : s.customers[i + n]? = some cu) (hwaiting : cu.point = .waiting) :
    ∃ s', Leads s s' ∧ Stuck s' ∧ ∃ cu ∈ s'.customers, cu.point = .waiting := by
  induction n generalizing i s with
  | zero =>
      exact ⟨s, .refl s, stuck_of_asleep hmain hcustomers hchefs hasleep hwaiting, cu,
        List.mem_of_getElem? hasleep, hwaiting⟩
  | succ n ih =>
      have hlt : i < s.customers.length := by
        have := (List.getElem?_eq_some_iff.mp hasleep).1
        omega
      have hfirst : s.customers[i]? = some (s.customers.get ⟨i, hlt⟩) :=
        List.getElem?_eq_getElem hlt
      generalize s.customers.get ⟨i, hlt⟩ = first at hfirst
      rcases hcustomers first (List.mem_of_getElem? hfirst) with hfreed | hstuck
      · have hindex : i + (n + 1) = i + 1 + n := by omega
        have hjoin : Leads s { s with main := .joining (i + 1) } := by
          refine .step .main [] ?_
          simp [threadStep, mainThread, hmain, hfirst, hfreed]
        obtain ⟨s', hothers, hrest⟩ := ih (i := i + 1) (s := { s with main := .joining (i + 1) })
          rfl hcustomers hchefs (hindex ▸ hasleep)
        exact ⟨s', hjoin.trans hothers, hrest⟩
      · exact ⟨s, .refl s, stuck_of_asleep hmain hcustomers hchefs hfirst hstuck, first,
          List.mem_of_getElem? hfirst, hstuck⟩

theorem Stranded.stuck (h : Stranded rest s) :
    ∃ s', Leads s s' ∧ Stuck s' ∧ ∃ cu ∈ s'.customers, cu.point = .waiting := by
  obtain ⟨s₁, hadmits, h₁⟩ := h.admitAll
  obtain ⟨cu, hmem, hwaiting⟩ := h₁.asleep
  obtain ⟨c, hc⟩ := List.mem_iff_getElem?.mp hmem
  have hstop : Leads s₁ { s₁ with main := .joining 0 } := by
    refine .step .main [] ?_
    simp [threadStep, mainThread, h₁.main, h₁.arrivals]
  obtain ⟨s₂, hjoins, hstuck⟩ := stuck_of_joining (n := c) (i := 0)
    (s := { s₁ with main := .joining 0 }) rfl h₁.customers h₁.chefs (by simpa using hc) hwaiting
  exact ⟨s₂, (hadmits.trans hstop).trans hjoins, hstuck⟩

end Stranded

section LateWait

variable (a b c d e : Arrival) (rest : List Arrival)

/-- The fifth customer has decided to stand. -/
def late (p₀ p₁ p₂ p₃ : CustomerPoint) (inside seats : Int) (queues : Lists) : Shop Lists where
  arrivals := rest
  main := .admitting
  customers := [{ id := a.id, point := p₀ }, { id := b.id, point := p₁ },
    { id := c.id, point := p₂ }, { id := d.id, point := p₃ }, { id := e.id, point := .standing }]
  chefs := List.replicate numChefs .looping
  currentCustomers := inside
  sofaOccupied := seats
  queues := queues
  shutdownFlag := false

/-- A run on a shop given in full, whose queues are empty in the end. -/
theorem Leads.late (ts : List Thread) {s : Shop Lists} {p₀ p₁ p₂ p₃ : CustomerPoint}
    {inside seats : Int}
    (h : ∃ queues outs, (bakery Lists false).run (ts.map .step) s =
      some (late a b c d e rest p₀ p₁ p₂ p₃ inside seats queues, outs) ∧ ∀ l, queues l = []) :
    Leads s (OxyC.Bakery.late a b c d e rest p₀ p₁ p₂ p₃ inside seats fun _ => []) := by
  obtain ⟨queues, outs, hrun, hempty⟩ := h
  obtain rfl : queues = fun _ => [] := funext hempty
  exact ⟨ts, outs, hrun⟩

theorem line_forall {P : Line → Prop} (sofa : P .sofa) (standing : P .standing)
    (payment : P .payment) (l : Line) : P l := by
  cases l
  · exact sofa
  · exact standing
  · exact payment

/-- The four that sit leave before the fifth begins to wait. -/
theorem leads_late : Leads (opening Lists (a :: b :: c :: d :: e :: rest))
    (late a b c d e rest .freed .freed .freed .freed 1 0 fun _ => []) := by
  have hsit : Leads (opening Lists (a :: b :: c :: d :: e :: rest))
      (late a b c d e rest .seated .seated .seated .seated 5 4 fun _ => []) :=
    .late _ _ _ _ _ _
      (List.replicate 5 .main ++ [.customer 0, .customer 0, .customer 1, .customer 1, .customer 2,
        .customer 2, .customer 3, .customer 3, .customer 4])
      ⟨_, _, rfl, line_forall rfl rfl rfl⟩
  have hfirst : Leads (late a b c d e rest .seated .seated .seated .seated 5 4 fun _ => [])
      (late a b c d e rest .left .seated .seated .seated 4 3 fun _ => []) :=
    .late _ _ _ _ _ _ (errand 0) ⟨_, _, rfl, line_forall rfl rfl rfl⟩
  have hsecond : Leads (late a b c d e rest .left .seated .seated .seated 4 3 fun _ => [])
      (late a b c d e rest .left .left .seated .seated 3 2 fun _ => []) :=
    .late _ _ _ _ _ _ (errand 1) ⟨_, _, rfl, line_forall rfl rfl rfl⟩
  have hthird : Leads (late a b c d e rest .left .left .seated .seated 3 2 fun _ => [])
      (late a b c d e rest .left .left .left .seated 2 1 fun _ => []) :=
    .late _ _ _ _ _ _ (errand 2) ⟨_, _, rfl, line_forall rfl rfl rfl⟩
  have hfourth : Leads (late a b c d e rest .left .left .left .seated 2 1 fun _ => [])
      (late a b c d e rest .left .left .left .left 1 0 fun _ => []) :=
    .late _ _ _ _ _ _ (errand 3) ⟨_, _, rfl, line_forall rfl rfl rfl⟩
  have hfreed : Leads (late a b c d e rest .left .left .left .left 1 0 fun _ => [])
      (late a b c d e rest .freed .freed .freed .freed 1 0 fun _ => []) :=
    .late _ _ _ _ _ _ [.customer 0, .customer 1, .customer 2, .customer 3]
      ⟨_, _, rfl, line_forall rfl rfl rfl⟩
  exact ((((hsit.trans hfirst).trans hsecond).trans hthird).trans hfourth).trans hfreed

theorem leads_stranded : ∃ s, Leads (opening Lists (a :: b :: c :: d :: e :: rest)) s ∧
    Stranded rest s := by
  let s : Shop Lists :=
    { arrivals := rest
      main := .admitting
      customers := [{ id := a.id, point := .freed }, { id := b.id, point := .freed },
        { id := c.id, point := .freed }, { id := d.id, point := .freed },
        { id := e.id, point := .waiting }]
      chefs := List.replicate numChefs .waiting
      currentCustomers := 1
      sofaOccupied := 0
      queues := Function.update (fun _ => []) .standing [4]
      shutdownFlag := false }
  refine ⟨s, (leads_late a b c d e rest).trans
    ⟨[.customer 4, .customer 4, .chef 0, .chef 0, .chef 1, .chef 1, .chef 2, .chef 2, .chef 3,
      .chef 3], _, rfl⟩, rfl, rfl, ?_, ?_, ?_, ?_⟩
  · simp [s]
  · simp [s]
  · simp [s]
  · exact fun p hp => List.eq_of_mem_replicate hp

end LateWait

section Freedom

variable {arrivals : List Arrival}

theorem exists_stuck (hmany : sofaSeats < arrivals.length) :
    ∃ (ts : List Thread) (s : Shop Linked) (outs : List Deed),
      (bakery Linked false).run (ts.map .step) (opening Linked arrivals) = some (s, outs) ∧
        Stuck s ∧ ¬ Final s := by
  match arrivals, hmany with
  | a :: b :: c :: d :: e :: rest, _ =>
    obtain ⟨s₁, hlate, hstranded⟩ := leads_stranded a b c d e rest
    obtain ⟨t, hrest, hstuck, cu, hcu, hwaiting⟩ := hstranded.stuck
    obtain ⟨ts, outs, hrun⟩ := hlate.trans hrest
    obtain ⟨s, hlinked, hrefines⟩ := exists_linked hrun
    obtain ⟨stages, htracks, -⟩ := exists_tracks hrun
    refine ⟨ts, s, outs, hlinked, (hrefines.stuck_iff htracks).mpr hstuck, fun hfinal => ?_⟩
    have hfreed : cu.point = .freed := by
      rw [hrefines.same] at hcu
      exact hfinal.customers cu hcu
    rw [hwaiting] at hfreed
    cases hfreed

theorem final_of_guarded {ts : List Thread} {s : Shop Linked} {outs : List Deed}
    (hguard : (bakery Linked false).Guarded WaitsInTime (ts.map .step) (opening Linked arrivals))
    (hrun : (bakery Linked false).run (ts.map .step) (opening Linked arrivals) = some (s, outs))
    (hstuck : Stuck s) : Final s :=
  ((bakery Linked false).run_invariant_of_guarded (P := Sound)
    (fun _ _ _ _ hsound hguard hstep => hsound.step hguard hstep) (sound_opening arrivals) hguard
    hrun).final hstuck

theorem final_of_few {split : Bool} {es : List Event} {s : Shop Linked} {outs : List Deed}
    (hfew : (arrivals.length : Int) ≤ sofaSeats)
    (hrun : (bakery Linked split).run es (opening Linked arrivals) = some (s, outs))
    (hstuck : Stuck s) : Final s := by
  have hsound := (bakery Linked split).run_invariant_history
    (P := fun _ _ s => Sound s) (sound_opening arrivals) ?_ hrun
  · exact hsound.final hstuck
  · intro es e outs s s' out hrun hsound hstep
    refine hsound.step ?_ hstep
    obtain ⟨t, hlists, hrefines⟩ := exists_lists hrun
    have hnobody := nobodyStands_of_run hfew hlists
    rw [hrefines.same] at hnobody
    intro c cu _ hcu hpoint _
    have hnot := hnobody.points c cu hcu
    simp [hpoint] at hnot

/--
A run comes to rest only when everybody has left, if whenever the first customer of the standing
queue begins to wait somebody holds a seat or is about to take one.  No order of the steps gets
stuck before that exactly if there are no more arrivals than seats.
-/
theorem deadlock_freedom (arrivals : List Arrival) :
    (∀ (ts : List Thread) (s : Shop Linked) (outs : List Deed),
      (bakery Linked false).Guarded WaitsInTime (ts.map .step) (opening Linked arrivals) →
      (bakery Linked false).run (ts.map .step) (opening Linked arrivals) = some (s, outs) →
      Stuck s → Final s) ∧
    ((∀ (ts : List Thread) (s : Shop Linked) (outs : List Deed),
      (bakery Linked false).run (ts.map .step) (opening Linked arrivals) = some (s, outs) →
      Stuck s → Final s) ↔ arrivals.length ≤ sofaSeats) := by
  refine ⟨fun ts s outs => final_of_guarded, ?_, fun hfew ts s outs => final_of_few hfew⟩
  intro hall
  by_contra hmany
  obtain ⟨ts, s, outs, hrun, hstuck, hnot⟩ := exists_stuck (Int.not_le.mp hmany)
  exact hnot (hall ts s outs hrun hstuck)

/-- The fifth of five customers begins to wait after the other four have left. -/
def lateWait : List Thread :=
  List.replicate 5 .main ++
    [.customer 0, .customer 0, .customer 1, .customer 1, .customer 2, .customer 2, .customer 3,
      .customer 3, .customer 4] ++
    errand 0 ++ errand 1 ++ errand 2 ++ errand 3 ++
    [.customer 0, .customer 1, .customer 2, .customer 3, .customer 4, .customer 4, .chef 0,
      .chef 0, .chef 1, .chef 1, .chef 2, .chef 2, .chef 3, .chef 3] ++
    List.replicate 5 .main

def stuckTest (s : Shop Linked) : Bool :=
  (threadStep false s .main).isNone &&
    (List.range s.chefs.length).all (fun k => (threadStep false s (.chef k)).isNone) &&
    (List.range s.customers.length).all fun c => (threadStep false s (.customer c)).isNone

theorem stuck_of_test {s : Shop Linked} (h : stuckTest s = true) : Stuck s := by
  simp only [stuckTest, Bool.and_eq_true, Option.isNone_iff_eq_none, List.all_eq_true,
    List.mem_range] at h
  obtain ⟨⟨hmain, hchefs⟩, hcustomers⟩ := h
  intro thread
  cases thread with
  | main => exact hmain
  | chef k =>
      by_cases hk : k < s.chefs.length
      · exact hchefs k hk
      · simp [threadStep, List.getElem?_eq_none (Nat.le_of_not_lt hk)]
  | customer c =>
      by_cases hc : c < s.customers.length
      · exact hcustomers c hc
      · simp [threadStep, List.getElem?_eq_none (Nat.le_of_not_lt hc)]

theorem deadlock_freedom_five :
    ∃ s outs, (bakery Linked false).run (lateWait.map .step)
      (opening Linked (List.replicate 5 ⟨0, 1⟩)) = some (s, outs) ∧ Stuck s ∧ ¬ Final s := by
  obtain ⟨s, outs, hrun, htest⟩ := (bakery Linked false).exists_run (lateWait.map .step)
    (opening Linked (List.replicate 5 ⟨0, 1⟩))
    (fun x => stuckTest x.1 && x.1.customers.any (·.point = .waiting)) (by decide +kernel)
  simp only [Bool.and_eq_true, List.any_eq_true, decide_eq_true_eq] at htest
  obtain ⟨hstuck, cu, hcu, hwaiting⟩ := htest
  refine ⟨s, outs, hrun, stuck_of_test hstuck, fun hfinal => ?_⟩
  have hfreed := hfinal.customers cu hcu
  rw [hwaiting] at hfreed
  cases hfreed

end Freedom

end OxyC.Bakery
