import OxyC.Bakery.Deadlock
import OxyC.Foundation.Potential

/-!
# The bakery closes

No order of the steps keeps the threads going forever: every step uses up some
of the work that is left, and only a wake-up that nobody asked for adds to it.
-/

namespace OxyC.Bakery

open OxyC.Foundation

def Event.isSpurious : Event → Bool
  | .spurious _ => true
  | .step _ => false

/-! ## The work that is left -/

/-- The steps behind a broadcast are paid for by the thread that broadcasts; there are at most
`n` customers to be woken. -/
def CustomerPoint.work (n : Nat) : CustomerPoint → Nat
  | .entered => n + 120
  | .sawSeat => n + 119
  | .standing => n + 118
  | .queued => n + 117
  | .woken => n + 116
  | .waiting => n + 115
  | .taking => n + 115
  | .seated => n + 114
  | .unserved => n + 76
  | .served => n + 75
  | .ordered => n + 74
  | .finished => n + 73
  | .paying => n + 35
  | .paid => n + 34
  | .left => 1
  | .freed => 0

def ChefPoint.work (closed : Bool) : ChefPoint → Nat
  | .serving _ => 8
  | .broke => 7
  | .awaiting _ => 7
  | .baking _ => 6
  | .accepting _ => 6
  | .brokeSofa => 6
  | .looping => if closed then 1 else 5
  | .picking => if closed then 8 else 4
  | .waiting => 0
  | .returned => 0

def MainPoint.work (n : Nat) : MainPoint → Nat
  | .admitting => n + 39
  | .joining i => (n - i) + 38
  | .joiningChefs k => (numChefs - k) + 1
  | .returned => 0

namespace Shop

def customersWork (n : Nat) (s : Shop Lists) : Nat :=
  (s.customers.map fun cu => cu.point.work n).sum

def chefsWork (s : Shop Lists) : Nat := (s.chefs.map (ChefPoint.work s.shutdownFlag)).sum

/-- A customer in a queue lets the chef that takes it run on from `picking`. -/
def queuesWork (s : Shop Lists) : Nat :=
  5 * ((s.queues .payment).length + (s.queues .sofa).length)

def work (n : Nat) (s : Shop Lists) : Nat :=
  s.main.work n + s.arrivals.length * (n + 121) + s.customersWork n + s.chefsWork + s.queuesWork

/-- Nobody comes in who was not among the `n` arrivals, and there are as many chefs as before. -/
structure Peopled (n : Nat) (s : Shop Lists) : Prop where
  customers : s.customers.length + s.arrivals.length ≤ n
  chefs : s.chefs.length = numChefs

end Shop

section Steps

variable {split : Bool} {n c k : Nat} {cu : Customer} {p : ChefPoint} {s s' : Shop Lists}
  {out : List Deed}

namespace Shop

/-! ### What the operations do to it -/

theorem work_customer (hcu : s.customers[c]? = some cu) (f : Customer → Customer) :
    (s.customer c f).work n + cu.point.work n = s.work n + (f cu).point.work n := by
  have hsum := sum_map_modify (fun cu => cu.point.work n) f hcu
  simp only [work, customersWork, customer_customers]
  simp only [customer, chefsWork, queuesWork]
  omega

theorem work_goTo (hcu : s.customers[c]? = some cu) (point : CustomerPoint) :
    (s.goTo c point).work n + cu.point.work n = s.work n + point.work n :=
  work_customer hcu _

/-- What happens to a semaphore is no work of the customer. -/
theorem work_semaphore (s : Shop Lists) {f : Customer → Customer}
    (hf : ∀ cu, (f cu).point = cu.point) : (s.customer c f).work n = s.work n := by
  cases hcu : s.customers[c]? with
  | none =>
      have hsame : s.customers.modify c f = s.customers :=
        List.modify_eq_self (List.getElem?_eq_none_iff.mp hcu)
      rw [customer, hsame]
  | some cu =>
      have hwork := work_customer (n := n) hcu f
      rw [hf] at hwork
      omega

theorem work_chefTo (hk : s.chefs[k]? = some p) (p' : ChefPoint) :
    (s.chefTo k p').work n + p.work s.shutdownFlag = s.work n + p'.work s.shutdownFlag := by
  have hsum := sum_map_set (ChefPoint.work s.shutdownFlag) p' hk
  simp only [work, customersWork, chefTo_customers]
  simp only [chefTo, chefsWork, queuesWork]
  omega

theorem work_push (s : Shop Lists) (l : Line) :
    (s.push l c).work n = s.work n + if l = .standing then 0 else 5 := by
  simp only [work, queuesWork, push_queues, customersWork, push_customers]
  cases l <;> simp [push, chefsWork]
  · omega
  · omega

theorem work_pop {l : Line} (hhead : s.head l = some c) :
    (s.pop l).work n + (if l = .standing then 0 else 5) = s.work n := by
  have hpos : 0 < (s.queues l).length :=
    List.length_pos_of_mem (List.mem_of_mem_head? hhead)
  simp only [work, queuesWork, pop_queues, customersWork, pop_customers]
  cases l <;> simp [pop, chefsWork]
  · omega
  · omega

theorem work_counters (s : Shop Lists) (sofaOccupied currentCustomers : Int) :
    ({ s with sofaOccupied, currentCustomers } : Shop Lists).work n = s.work n := rfl

theorem work_broadcastChefCv (hchefs : s.chefs.length = numChefs) :
    s.broadcastChefCv.work n ≤ s.work n + 32 := by
  have hsum : ((s.chefs.map ChefPoint.wake).map (ChefPoint.work s.shutdownFlag)).sum ≤
      (s.chefs.map (ChefPoint.work s.shutdownFlag)).sum + 8 * s.chefs.length := by
    apply sum_map_map_le
    intro p _
    cases p <;> cases s.shutdownFlag <;> simp [ChefPoint.wake, ChefPoint.work]
  rw [hchefs, numChefs] at hsum
  simp only [work, customersWork, broadcastChefCv_customers]
  simp only [broadcastChefCv, chefsWork, queuesWork]
  omega

theorem work_broadcastStandingCv (hcustomers : s.customers.length ≤ n) :
    s.broadcastStandingCv.work n ≤ s.work n + n := by
  have hsum : ((s.customers.map Customer.wake).map fun cu => cu.point.work n).sum ≤
      (s.customers.map fun cu => cu.point.work n).sum + 1 * s.customers.length := by
    apply sum_map_map_le
    intro cu _
    cases hpoint : cu.point <;>
      simp [Customer.wake, hpoint, CustomerPoint.wake, CustomerPoint.work]
  simp only [work, customersWork, broadcastStandingCv_customers]
  simp only [broadcastStandingCv, chefsWork, queuesWork]
  omega

end Shop

open Shop

theorem CustomerMove.work_lt (hmove : CustomerMove split c cu s s' out)
    (hcu : s.customers[c]? = some cu) (hcustomers : s.customers.length ≤ n)
    (hchefs : s.chefs.length = numChefs) : s'.work n < s.work n := by
  cases hmove with
  | seesSeat point free =>
      have hwork := work_goTo (n := n) hcu .sawSeat
      simp only [point, CustomerPoint.work] at hwork
      omega
  | findsSeat point free nobody =>
      have hwork := work_goTo (n := n) hcu .taking
      rcases point with point | point <;> simp only [point, CustomerPoint.work] at hwork <;> omega
  | decides point full =>
      have hwork := work_goTo (n := n) hcu .standing
      rcases point with point | point <;> simp only [point, CustomerPoint.work] at hwork <;> omega
  | takesSeat point =>
      have hcounter := work_counters (n := n) s (s.sofaOccupied + 1) s.currentCustomers
      have hwork := work_goTo (n := n) (s := { s with sofaOccupied := s.sofaOccupied + 1 }) hcu
        .seated
      simp only [point, CustomerPoint.work] at hwork
      omega
  | joinsStanding point =>
      have hpush := work_push (n := n) (c := c) s .standing
      have hwork := work_goTo (n := n) (s := s.push .standing c) hcu .queued
      simp only [point, CustomerPoint.work] at hwork
      simp only [if_true] at hpush
      omega
  | sleeps point =>
      have hwork := work_goTo (n := n) hcu .waiting
      simp only [point, CustomerPoint.work] at hwork
      omega
  | leavesStanding point head free =>
      have hpop := work_pop (n := n) head
      have hcounter := work_counters (n := n) (s.pop .standing) (s.sofaOccupied + 1)
        s.currentCustomers
      have hwork := work_goTo (n := n)
        (s := { s.pop .standing with sofaOccupied := s.sofaOccupied + 1 }) hcu .seated
      simp only [point, CustomerPoint.work] at hwork
      simp only [if_true] at hpop
      simp only [pop] at hcounter hpop hwork ⊢
      omega
  | sleepsAgain point stay =>
      have hwork := work_goTo (n := n) hcu .waiting
      simp only [point, CustomerPoint.work] at hwork
      omega
  | joinsSofa point =>
      have hpush := work_push (n := n) (c := c) s .sofa
      have hwake := work_broadcastChefCv (s := s.push .sofa c) (n := n) hchefs
      have hwork := work_goTo (n := n) (s := (s.push .sofa c).broadcastChefCv) hcu .unserved
      simp only [point, CustomerPoint.work] at hwork
      simp only [reduceCtorEq, if_false] at hpush
      omega
  | isServed point post =>
      have hwork := work_customer (n := n) hcu
        fun cu => { cu with semServed := cu.semServed - 1, point := .served }
      simp only [point, CustomerPoint.work] at hwork
      omega
  | requests point =>
      have hwork := work_customer (n := n) hcu
        fun cu => { cu with semStartBake := cu.semStartBake + 1, point := .ordered }
      simp only [point, CustomerPoint.work] at hwork
      omega
  | getsCake point post =>
      have hwork := work_customer (n := n) hcu
        fun cu => { cu with semBakeDone := cu.semBakeDone - 1, point := .finished }
      simp only [point, CustomerPoint.work] at hwork
      omega
  | joinsPayment point =>
      have hpush := work_push (n := n) (c := c) s .payment
      have hwake := work_broadcastChefCv (s := s.push .payment c) (n := n) hchefs
      have hwork := work_goTo (n := n) (s := (s.push .payment c).broadcastChefCv) hcu .paying
      simp only [point, CustomerPoint.work] at hwork
      simp only [reduceCtorEq, if_false] at hpush
      omega
  | hasPaid point post =>
      have hwork := work_customer (n := n) hcu
        fun cu => { cu with semPaymentOk := cu.semPaymentOk - 1, point := .paid }
      simp only [point, CustomerPoint.work] at hwork
      omega
  | leaves point =>
      -- everybody who stands may be woken here, and every chef
      have hcounter := work_counters (n := n) s (s.sofaOccupied - 1) (s.currentCustomers - 1)
      have hstanding := work_broadcastStandingCv
        (s := { s with
          sofaOccupied := s.sofaOccupied - 1
          currentCustomers := s.currentCustomers - 1 }) (n := n)
        hcustomers
      have hwake := work_broadcastChefCv
        (s := { s with
          sofaOccupied := s.sofaOccupied - 1
          currentCustomers := s.currentCustomers - 1 }.broadcastStandingCv) (n := n) hchefs
      have hcu' : (s.customers.map Customer.wake)[c]? = some cu.wake := by simp [hcu]
      have hwork := work_goTo (n := n)
        (s := { s with
          sofaOccupied := s.sofaOccupied - 1
          currentCustomers := s.currentCustomers - 1
        }.broadcastStandingCv.broadcastChefCv) hcu' .left
      simp only [Customer.wake, point, CustomerPoint.wake, CustomerPoint.work] at hwork
      omega
  | frees point =>
      have hwork := work_goTo (n := n) hcu .freed
      simp only [point, CustomerPoint.work] at hwork
      omega

theorem ChefMove.work_lt (hmove : ChefMove k p s s' out) (hk : s.chefs[k]? = some p) :
    s'.work n < s.work n := by
  cases hmove with
  | looks point running =>
      have hwork := work_chefTo (n := n) hk .picking
      simp [point, running, ChefPoint.work] at hwork
      omega
  | returns point closed =>
      have hwork := work_chefTo (n := n) hk .returned
      simp [point, closed, ChefPoint.work] at hwork
      omega
  | waits point payment sofa running =>
      have hwork := work_chefTo (n := n) hk .waiting
      simp [point, running, ChefPoint.work] at hwork
      omega
  | breaks point closed =>
      have hwork := work_chefTo (n := n) hk .broke
      simp [point, closed, ChefPoint.work] at hwork
      omega
  | bills c point head =>
      have hpop := work_pop (n := n) head
      have hwork := work_chefTo (n := n) (s := s.pop .payment) hk (.accepting c)
      simp only [reduceCtorEq, if_false] at hpop
      rcases point with rfl | rfl <;> simp only [ChefPoint.work] at hwork <;> try split at hwork
      all_goals omega
  | takes c point head =>
      have hpop := work_pop (n := n) head
      have hwork := work_chefTo (n := n) (s := s.pop .sofa) hk (.serving c)
      simp only [reduceCtorEq, if_false] at hpop
      rcases point with rfl | rfl <;> simp only [ChefPoint.work] at hwork <;> try split at hwork
      all_goals omega
  | findsNoPayment point =>
      have hwork := work_chefTo (n := n) hk .brokeSofa
      simp only [point, ChefPoint.work] at hwork
      omega
  | findsNoSofa point =>
      have hwork := work_chefTo (n := n) hk .looping
      simp only [point, ChefPoint.work] at hwork
      split at hwork <;> omega
  | accepts c point =>
      have hsame := work_semaphore (n := n) (c := c) s
        (f := fun cu => { cu with semPaymentOk := cu.semPaymentOk + 1 }) fun _ => rfl
      have hwork := work_chefTo (n := n)
        (s := s.customer c fun cu => { cu with semPaymentOk := cu.semPaymentOk + 1 }) hk .looping
      simp only [point, ChefPoint.work] at hwork
      split at hwork <;> omega
  | serves c point =>
      have hsame := work_semaphore (n := n) (c := c) s
        (f := fun cu => { cu with semServed := cu.semServed + 1 }) fun _ => rfl
      have hwork := work_chefTo (n := n)
        (s := s.customer c fun cu => { cu with semServed := cu.semServed + 1 }) hk (.awaiting c)
      simp only [point, ChefPoint.work] at hwork
      omega
  | bakes c cu point customer post =>
      have hsame := work_semaphore (n := n) (c := c) s
        (f := fun cu => { cu with semStartBake := cu.semStartBake - 1 }) fun _ => rfl
      have hwork := work_chefTo (n := n)
        (s := s.customer c fun cu => { cu with semStartBake := cu.semStartBake - 1 }) hk (.baking c)
      simp only [point, ChefPoint.work] at hwork
      omega
  | finishesCake c point =>
      have hsame := work_semaphore (n := n) (c := c) s
        (f := fun cu => { cu with semBakeDone := cu.semBakeDone + 1 }) fun _ => rfl
      have hwork := work_chefTo (n := n)
        (s := s.customer c fun cu => { cu with semBakeDone := cu.semBakeDone + 1 }) hk .looping
      simp only [point, ChefPoint.work] at hwork
      split at hwork <;> omega

theorem MainMove.work_lt (hmove : MainMove s s' out) (hpeopled : s.Peopled n) :
    s'.work n < s.work n := by
  have hcustomers := hpeopled.customers
  have hchefs := hpeopled.chefs
  cases hmove with
  | turnsAway a rest point arrivals full =>
      simp only [work, arrivals, List.length_cons, Nat.succ_mul, customersWork, chefsWork,
        queuesWork]
      omega
  | admits a rest point arrivals room =>
      simp only [work, arrivals, List.length_cons, Nat.succ_mul, customersWork, chefsWork,
        queuesWork, List.map_append, List.map_cons, List.map_nil, List.sum_append,
        List.sum_singleton]
      have hentered : (CustomerPoint.entered).work n = n + 120 := rfl
      omega
  | stopsAdmitting point arrivals =>
      have hmain : (MainPoint.joining 0).work n < (MainPoint.admitting).work n := by
        simp [MainPoint.work]
      simp only [work, point, customersWork, chefsWork, queuesWork]
      omega
  | joins i cu point customer freed =>
      obtain ⟨hlt, -⟩ := List.getElem?_eq_some_iff.mp customer
      have hmain : (MainPoint.joining (i + 1)).work n < (MainPoint.joining i).work n := by
        simp only [MainPoint.work]
        omega
      simp only [work, point, customersWork, chefsWork, queuesWork]
      omega
  | closes i point all =>
      -- the chefs that are woken find the shop closed
      have hmain : (MainPoint.joiningChefs 0).work n + 33 ≤ (MainPoint.joining i).work n := by
        simp only [MainPoint.work, numChefs]
        omega
      have hsum : ((s.chefs.map ChefPoint.wake).map (ChefPoint.work true)).sum ≤
          (s.chefs.map (ChefPoint.work s.shutdownFlag)).sum + 8 * s.chefs.length := by
        apply sum_map_map_le
        intro p _
        cases p <;> cases s.shutdownFlag <;> simp [ChefPoint.wake, ChefPoint.work]
      rw [hchefs, numChefs] at hsum
      simp only [work, broadcastChefCv, point, customersWork, chefsWork, queuesWork]
      omega
  | joinsChef k point chef =>
      obtain ⟨hlt, -⟩ := List.getElem?_eq_some_iff.mp chef
      have hmain : (MainPoint.joiningChefs (k + 1)).work n < (MainPoint.joiningChefs k).work n := by
        simp only [MainPoint.work]
        omega
      simp only [work, point, customersWork, chefsWork, queuesWork]
      omega
  | returns k point all =>
      have hmain : (MainPoint.returned).work n < (MainPoint.joiningChefs k).work n := by
        simp [MainPoint.work]
      simp only [work, point, customersWork, chefsWork, queuesWork]
      omega

/-- A step leaves less to do; a wake-up without a broadcast adds at most a look at the queues. -/
theorem Moves.work_lt {e : Event} (hmove : Moves split e s s' out) (hpeopled : s.Peopled n) :
    s'.work n + 1 ≤ s.work n + if e.isSpurious then 9 else 0 := by
  have hcustomers := hpeopled.customers
  cases hmove with
  | main move => exact move.work_lt hpeopled
  | chef k chef move => exact move.work_lt chef
  | customer c customer move => exact move.work_lt customer (by omega) hpeopled.chefs
  | chefWakes k chef =>
      have hwork := work_chefTo (n := n) chef .picking
      simp only [ChefPoint.work] at hwork
      simp only [Event.isSpurious, if_true]
      split at hwork <;> omega
  | customerWakes c customer point =>
      have hwork := work_goTo (n := n) customer .woken
      simp only [point, CustomerPoint.work] at hwork
      simp only [Event.isSpurious, if_true]
      omega

theorem Moves.length_chefs {e : Event} (hmove : Moves split e s s' out) :
    s'.chefs.length = s.chefs.length := by
  cases hmove with
  | main move => cases move <;> simp [broadcastChefCv]
  | chef k chef move => cases move <;> simp [chefTo, Shop.pop, Shop.customer]
  | customer c customer move =>
      cases move <;>
        simp [goTo, Shop.customer, Shop.push, Shop.pop, broadcastChefCv, broadcastStandingCv]
  | chefWakes k chef => simp [chefTo]
  | customerWakes c customer point => rfl

theorem Moves.peopled {e : Event} (hmove : Moves split e s s' out) (hpeopled : s.Peopled n) :
    s'.Peopled n := by
  have hcustomers := hpeopled.customers
  refine ⟨?_, hmove.length_chefs.trans hpeopled.chefs⟩
  by_cases he : e = .step .main
  · subst he
    cases hmove with
    | main move => cases move <;> simp_all [broadcastChefCv] <;> omega
  · have hsame := hmove.sameMain he
    rw [hsame.length, hsame.arrivals]
    exact hcustomers

end Steps

/-! ## The runs -/

section Runs

variable {split : Bool} {arrivals : List Arrival}

/-- The work that `n` arrivals bring. -/
def stepBound (n : Nat) : Nat := n * n + 122 * n + 59

theorem work_opening (arrivals : List Arrival) :
    (opening Lists arrivals).work arrivals.length = stepBound arrivals.length := by
  have hchefs : ((List.replicate numChefs ChefPoint.looping).map (ChefPoint.work false)).sum = 20 :=
    rfl
  simp only [Shop.work, opening, Shop.customersWork, Shop.chefsWork, Shop.queuesWork, hchefs,
    Queues.qInit, MainPoint.work, stepBound, Nat.mul_add]
  simp
  omega

theorem peopled_opening (arrivals : List Arrival) :
    (opening Lists arrivals).Peopled arrivals.length :=
  ⟨by simp [opening], rfl⟩

theorem exists_threads {es : List Event} (h : ∀ e ∈ es, e.isSpurious = false) :
    ∃ ts : List Thread, es = ts.map .step := by
  induction es with
  | nil => exact ⟨[], rfl⟩
  | cons e es ih =>
      obtain ⟨ts, rfl⟩ := ih fun e he => h e (List.mem_cons_of_mem _ he)
      cases e with
      | step th => exact ⟨th :: ts, rfl⟩
      | spurious th => simpa [Event.isSpurious] using h (.spurious th) List.mem_cons_self

theorem length_le_stepBound {es : List Event} {s : Shop Linked} {outs : List Deed}
    (hrun : (bakery Linked split).run es (opening Linked arrivals) = some (s, outs)) :
    es.length ≤ stepBound arrivals.length + 9 * es.countP Event.isSpurious := by
  obtain ⟨t, hlists, -⟩ := exists_lists hrun
  have hlength := (bakery Lists split).length_add_potential_le (J := Shop.Peopled arrivals.length)
    (Shop.work arrivals.length) (fun e => if e.isSpurious then 9 else 0)
    (fun e s s' out hpeopled hstep =>
      ⟨(moves_of_step hstep).peopled hpeopled, (moves_of_step hstep).work_lt hpeopled⟩)
    (peopled_opening arrivals) hlists
  rw [work_opening, sum_map_gain] at hlength
  omega

/-- Every run can be continued until no thread can take a step. -/
theorem exists_continuation {es : List Event} {s : Shop Linked} {outs : List Deed}
    (hrun : (bakery Linked split).run es (opening Linked arrivals) = some (s, outs)) :
    ∃ (us : List Thread) (s' : Shop Linked) (outs' : List Deed),
      (bakery Linked split).run (us.map .step) s = some (s', outs') ∧ Stuck s' := by
  obtain ⟨t, hlists, -⟩ := exists_lists hrun
  have hpeopled := (bakery Lists split).run_invariant (P := Shop.Peopled arrivals.length)
    (fun e s s' out hpeopled hstep => (moves_of_step hstep).peopled hpeopled)
    (peopled_opening arrivals) hlists
  obtain ⟨fs, t', outs', hfs, hrest, hend⟩ := (bakery Lists split).exists_run_to_rest
    (G := fun _ e => e.isSpurious = false) (J := Shop.Peopled arrivals.length)
    (Shop.work arrivals.length)
    (fun e s s' out he hpeopled hstep => by
      have hwork := (moves_of_step hstep).work_lt hpeopled
      rw [he] at hwork
      exact ⟨(moves_of_step hstep).peopled hpeopled, hwork⟩)
    hpeopled
  obtain ⟨us, rfl⟩ := exists_threads (hfs.forall_mem _ hrest)
  have hwhole := (bakery Lists split).run_append.mpr ⟨t, outs, outs', hlists, hrest, rfl⟩
  obtain ⟨s', hlinked, hrefines⟩ := exists_linked hwhole
  obtain ⟨s₁, out, rest, hfirst, hsecond, -⟩ := (bakery Linked split).run_append.mp hlinked
  rw [hrun] at hfirst
  cases hfirst
  obtain ⟨stages, htracks, -⟩ := exists_tracks hwhole
  refine ⟨us, s', rest, hsecond, (hrefines.stuck_iff htracks).mpr fun th => ?_⟩
  exact threadStep_eq_none_iff.mp (hend (.step th) rfl)

/--
Without wake-ups that nobody asked for the threads take at most `stepBound` steps, and each such
wake-up allows for nine more.  With no more arrivals than seats every run, such wake-ups included,
can be continued until everybody has left and every thread has returned.
-/
theorem bakery_closes (split : Bool) (arrivals : List Arrival) :
    (∀ (es : List Event) (s : Shop Linked) (outs : List Deed),
      (bakery Linked split).run es (opening Linked arrivals) = some (s, outs) →
      es.length ≤ stepBound arrivals.length + 9 * es.countP Event.isSpurious) ∧
    (arrivals.length ≤ sofaSeats →
      ∀ (es : List Event) (s : Shop Linked) (outs : List Deed),
      (bakery Linked split).run es (opening Linked arrivals) = some (s, outs) →
      ∃ (us : List Thread) (s' : Shop Linked) (outs' : List Deed),
      (bakery Linked split).run (us.map .step) s = some (s', outs') ∧ Final s') := by
  refine ⟨fun es s outs => length_le_stepBound, fun hfew es s outs hrun => ?_⟩
  obtain ⟨us, s', outs', hrest, hstuck⟩ := exists_continuation hrun
  have hwhole := (bakery Linked split).run_append.mpr ⟨s, outs, outs', hrun, hrest, rfl⟩
  exact ⟨us, s', outs', hrest, final_of_few hfew hwhole hstuck⟩

end Runs

end OxyC.Bakery
