import OxyC.Bakery.Shop

/-!
# The steps of the bakery

What each thread can do, one rule for each branch of its body.  Every invariant
is proved by cases on these rules.
-/

namespace OxyC.Bakery

open OxyC.Foundation

variable {Q : Type} [Queues Q]

inductive CustomerMove (split : Bool) (c : Nat) (cu : Customer) (s : Shop Q) :
    Shop Q → List Deed → Prop where
  | seesSeat (point : cu.point = .entered) (free : s.sofaOccupied < sofaSeats) :
      CustomerMove split c cu s (s.goTo c .sawSeat) []
  | findsSeat (point : cu.point = .entered ∨ cu.point = .sawSeat)
      (free : cu.point = .entered → s.sofaOccupied < sofaSeats)
      (nobody : s.size .standing = 0) : CustomerMove split c cu s (s.goTo c .taking) []
  | decides (point : cu.point = .entered ∨ cu.point = .sawSeat)
      (full : ¬ (s.sofaOccupied < sofaSeats ∧ s.size .standing = 0)) :
      CustomerMove split c cu s (s.goTo c .standing) []
  | takesSeat (point : cu.point = .taking) :
      CustomerMove split c cu s
        ({ s with sofaOccupied := s.sofaOccupied + 1 }.goTo c .seated) [.sits c]
  | joinsStanding (point : cu.point = .standing) :
      CustomerMove split c cu s ((s.push .standing c).goTo c .queued) [.stands c]
  | sleeps (point : cu.point = .queued) : CustomerMove split c cu s (s.goTo c .waiting) []
  | leavesStanding (point : cu.point = .woken) (head : s.head .standing = some c)
      (free : s.sofaOccupied < sofaSeats) :
      CustomerMove split c cu s
        ({ s.pop .standing with sofaOccupied := s.sofaOccupied + 1 }.goTo c .seated) [.sits c]
  | sleepsAgain (point : cu.point = .woken)
      (stay : ¬ (s.head .standing = some c ∧ s.sofaOccupied < sofaSeats)) :
      CustomerMove split c cu s (s.goTo c .waiting) []
  | joinsSofa (point : cu.point = .seated) :
      CustomerMove split c cu s ((s.push .sofa c).broadcastChefCv.goTo c .unserved) [.joinsSofa c]
  | isServed (point : cu.point = .unserved) (post : 0 < cu.semServed) :
      CustomerMove split c cu s
        (s.customer c fun cu => { cu with semServed := cu.semServed - 1, point := .served }) []
  | requests (point : cu.point = .served) :
      CustomerMove split c cu s
        (s.customer c fun cu => { cu with semStartBake := cu.semStartBake + 1, point := .ordered })
        [.requests c]
  | getsCake (point : cu.point = .ordered) (post : 0 < cu.semBakeDone) :
      CustomerMove split c cu s
        (s.customer c fun cu => { cu with semBakeDone := cu.semBakeDone - 1, point := .finished })
        []
  | joinsPayment (point : cu.point = .finished) :
      CustomerMove split c cu s
        ((s.push .payment c).broadcastChefCv.goTo c .paying) [.joinsPayment c]
  | hasPaid (point : cu.point = .paying) (post : 0 < cu.semPaymentOk) :
      CustomerMove split c cu s
        (s.customer c fun cu => { cu with semPaymentOk := cu.semPaymentOk - 1, point := .paid }) []
  | leaves (point : cu.point = .paid) :
      CustomerMove split c cu s
        ({ s with
          sofaOccupied := s.sofaOccupied - 1
          currentCustomers := s.currentCustomers - 1
        }.broadcastStandingCv.broadcastChefCv.goTo c .left) [.leaves c]
  | frees (point : cu.point = .left) : CustomerMove split c cu s (s.goTo c .freed) [.frees c]

inductive ChefMove (k : Nat) (p : ChefPoint) (s : Shop Q) : Shop Q → List Deed → Prop where
  | looks (point : p = .looping) (running : s.shutdownFlag = false) :
      ChefMove k p s (s.chefTo k .picking) []
  | returns (point : p = .looping) (closed : s.shutdownFlag = true) :
      ChefMove k p s (s.chefTo k .returned) []
  | waits (point : p = .picking) (payment : s.size .payment = 0) (sofa : s.size .sofa = 0)
      (running : s.shutdownFlag = false) : ChefMove k p s (s.chefTo k .waiting) []
  | breaks (point : p = .picking) (closed : s.shutdownFlag = true) :
      ChefMove k p s (s.chefTo k .broke) []
  | bills (c : Nat) (point : p = .picking ∨ p = .broke) (head : s.head .payment = some c) :
      ChefMove k p s ((s.pop .payment).chefTo k (.accepting c)) [.bills k c]
  | takes (c : Nat) (point : p = .picking ∨ p = .brokeSofa) (head : s.head .sofa = some c) :
      ChefMove k p s ((s.pop .sofa).chefTo k (.serving c)) [.takes k c]
  | findsNoPayment (point : p = .broke) : ChefMove k p s (s.chefTo k .brokeSofa) []
  | findsNoSofa (point : p = .brokeSofa) : ChefMove k p s (s.chefTo k .looping) []
  | accepts (c : Nat) (point : p = .accepting c) :
      ChefMove k p s
        ((s.customer c fun cu => { cu with semPaymentOk := cu.semPaymentOk + 1 }).chefTo k .looping)
        [.accepts k c]
  | serves (c : Nat) (point : p = .serving c) :
      ChefMove k p s
        ((s.customer c fun cu => { cu with semServed := cu.semServed + 1 }).chefTo k (.awaiting c))
        []
  | bakes (c : Nat) (cu : Customer) (point : p = .awaiting c) (customer : s.customers[c]? = some cu)
      (post : 0 < cu.semStartBake) :
      ChefMove k p s
        ((s.customer c fun cu => { cu with semStartBake := cu.semStartBake - 1 }).chefTo k
          (.baking c)) [.bakes k c]
  | finishesCake (c : Nat) (point : p = .baking c) :
      ChefMove k p s
        ((s.customer c fun cu => { cu with semBakeDone := cu.semBakeDone + 1 }).chefTo k .looping)
        [.finishesCake k c]

inductive MainMove (s : Shop Q) : Shop Q → List Deed → Prop where
  | turnsAway (a : Arrival) (rest : List Arrival) (point : s.main = .admitting)
      (arrivals : s.arrivals = a :: rest) (full : maxCapacity ≤ s.currentCustomers) :
      MainMove s { s with arrivals := rest } []
  | admits (a : Arrival) (rest : List Arrival) (point : s.main = .admitting)
      (arrivals : s.arrivals = a :: rest) (room : s.currentCustomers < maxCapacity) :
      MainMove s
        { s with
          arrivals := rest
          customers := s.customers ++ [{ id := a.id }]
          currentCustomers := s.currentCustomers + 1 } [.admits s.customers.length]
  | stopsAdmitting (point : s.main = .admitting) (arrivals : s.arrivals = []) :
      MainMove s { s with main := .joining 0 } []
  | joins (i : Nat) (cu : Customer) (point : s.main = .joining i)
      (customer : s.customers[i]? = some cu) (freed : cu.point = .freed) :
      MainMove s { s with main := .joining (i + 1) } []
  | closes (i : Nat) (point : s.main = .joining i) (all : s.customers.length ≤ i) :
      MainMove s { s with main := .joiningChefs 0, shutdownFlag := true }.broadcastChefCv []
  | joinsChef (k : Nat) (point : s.main = .joiningChefs k) (chef : s.chefs[k]? = some .returned) :
      MainMove s { s with main := .joiningChefs (k + 1) } []
  | returns (k : Nat) (point : s.main = .joiningChefs k) (all : s.chefs.length ≤ k) :
      MainMove s { s with main := .returned } []

inductive Moves (split : Bool) : Event → Shop Q → Shop Q → List Deed → Prop where
  | main {s s' : Shop Q} {out : List Deed} (move : MainMove s s' out) :
      Moves split (.step .main) s s' out
  | chef (k : Nat) {s s' : Shop Q} {p : ChefPoint} {out : List Deed} (chef : s.chefs[k]? = some p)
      (move : ChefMove k p s s' out) : Moves split (.step (.chef k)) s s' out
  | customer (c : Nat) {s s' : Shop Q} {cu : Customer} {out : List Deed}
      (customer : s.customers[c]? = some cu) (move : CustomerMove split c cu s s' out) :
      Moves split (.step (.customer c)) s s' out
  | chefWakes (k : Nat) {s : Shop Q} (chef : s.chefs[k]? = some .waiting) :
      Moves split (.spurious (.chef k)) s (s.chefTo k .picking) []
  | customerWakes (c : Nat) {s : Shop Q} {cu : Customer} (customer : s.customers[c]? = some cu)
      (point : cu.point = .waiting) : Moves split (.spurious (.customer c)) s (s.goTo c .woken) []

variable {split : Bool} {s s' : Shop Q} {out : List Deed}

theorem customerMove_of_customerThread {c : Nat} {cu : Customer}
    (h : customerThread split c cu s = some (s', out)) : CustomerMove split c cu s s' out := by
  cases hpoint : cu.point with
  | entered =>
      simp only [customerThread, hpoint] at h
      split at h
      · rename_i hfree
        split at h
        · cases h
          exact .seesSeat hpoint hfree
        · split at h
          · rename_i hnobody
            cases h
            exact .findsSeat (.inl hpoint) (fun _ => hfree) hnobody
          · rename_i hsome
            cases h
            exact .decides (.inl hpoint) fun hboth => hsome hboth.2
      · rename_i hfull
        cases h
        exact .decides (.inl hpoint) fun hboth => hfull hboth.1
  | sawSeat =>
      simp only [customerThread, hpoint] at h
      split at h
      · rename_i hnobody
        cases h
        exact .findsSeat (.inr hpoint) (fun hentered => by simp [hpoint] at hentered) hnobody
      · rename_i hsome
        cases h
        exact .decides (.inr hpoint) fun hboth => hsome hboth.2
  | woken =>
      simp only [customerThread, hpoint] at h
      split at h
      · rename_i hboth
        cases h
        exact .leavesStanding hpoint hboth.1 hboth.2
      · rename_i hstay
        cases h
        exact .sleepsAgain hpoint hstay
  | unserved =>
      simp only [customerThread, hpoint, Option.ite_none_right_eq_some] at h
      obtain ⟨hpost, h⟩ := h
      cases h
      exact .isServed hpoint hpost
  | ordered =>
      simp only [customerThread, hpoint, Option.ite_none_right_eq_some] at h
      obtain ⟨hpost, h⟩ := h
      cases h
      exact .getsCake hpoint hpost
  | paying =>
      simp only [customerThread, hpoint, Option.ite_none_right_eq_some] at h
      obtain ⟨hpost, h⟩ := h
      cases h
      exact .hasPaid hpoint hpost
  | taking =>
      simp only [customerThread, hpoint, Option.some.injEq, Prod.mk.injEq] at h
      exact h.1 ▸ h.2 ▸ .takesSeat hpoint
  | standing =>
      simp only [customerThread, hpoint, Option.some.injEq, Prod.mk.injEq] at h
      exact h.1 ▸ h.2 ▸ .joinsStanding hpoint
  | queued =>
      simp only [customerThread, hpoint, Option.some.injEq, Prod.mk.injEq] at h
      exact h.1 ▸ h.2 ▸ .sleeps hpoint
  | seated =>
      simp only [customerThread, hpoint, Option.some.injEq, Prod.mk.injEq] at h
      exact h.1 ▸ h.2 ▸ .joinsSofa hpoint
  | served =>
      simp only [customerThread, hpoint, Option.some.injEq, Prod.mk.injEq] at h
      exact h.1 ▸ h.2 ▸ .requests hpoint
  | finished =>
      simp only [customerThread, hpoint, Option.some.injEq, Prod.mk.injEq] at h
      exact h.1 ▸ h.2 ▸ .joinsPayment hpoint
  | paid =>
      simp only [customerThread, hpoint, Option.some.injEq, Prod.mk.injEq] at h
      exact h.1 ▸ h.2 ▸ .leaves hpoint
  | left =>
      simp only [customerThread, hpoint, Option.some.injEq, Prod.mk.injEq] at h
      exact h.1 ▸ h.2 ▸ .frees hpoint
  | waiting => simp [customerThread, hpoint] at h
  | freed => simp [customerThread, hpoint] at h

theorem chefMove_of_popPayment {k : Nat} {p : ChefPoint} (hpoint : p = .picking ∨ p = .broke)
    (h : popPayment k s = some (s', out)) : ChefMove k p s s' out := by
  unfold popPayment at h
  split at h
  · rename_i c hhead
    cases h
    exact .bills c hpoint hhead
  · cases h

theorem chefMove_of_popSofa {k : Nat} {p : ChefPoint} (hpoint : p = .picking ∨ p = .brokeSofa)
    (h : popSofa k s = some (s', out)) : ChefMove k p s s' out := by
  unfold popSofa at h
  split at h
  · rename_i c hhead
    cases h
    exact .takes c hpoint hhead
  · cases h

theorem chefMove_of_chefThread {k : Nat} {p : ChefPoint}
    (h : chefThread k p s = some (s', out)) : ChefMove k p s s' out := by
  cases p with
  | looping =>
      simp only [chefThread] at h
      split at h
      · rename_i hclosed
        cases h
        exact .returns rfl hclosed
      · rename_i hrunning
        cases h
        exact .looks rfl (by simpa using hrunning)
  | picking =>
      simp only [chefThread] at h
      split at h
      · rename_i hempty
        split at h
        · rename_i hclosed
          cases h
          exact .breaks rfl hclosed
        · rename_i hrunning
          cases h
          exact .waits rfl hempty.1 hempty.2 (by simpa using hrunning)
      · split at h
        · exact chefMove_of_popPayment (.inl rfl) h
        · exact chefMove_of_popSofa (.inl rfl) h
  | waiting => cases h
  | broke =>
      simp only [chefThread] at h
      split at h
      · exact chefMove_of_popPayment (.inr rfl) h
      · cases h
        exact .findsNoPayment rfl
  | brokeSofa =>
      simp only [chefThread] at h
      split at h
      · exact chefMove_of_popSofa (.inr rfl) h
      · cases h
        exact .findsNoSofa rfl
  | accepting c =>
      cases h
      exact .accepts c rfl
  | serving c =>
      cases h
      exact .serves c rfl
  | awaiting c =>
      simp only [chefThread] at h
      split at h
      · rename_i cu hcu
        rw [Option.ite_none_right_eq_some] at h
        obtain ⟨hpost, h⟩ := h
        cases h
        exact .bakes c cu rfl hcu hpost
      · cases h
  | baking c =>
      cases h
      exact .finishesCake c rfl
  | returned => cases h

omit [Queues Q] in
theorem mainMove_of_mainThread (h : mainThread s = some (s', out)) : MainMove s s' out := by
  cases hpoint : s.main with
  | admitting =>
      simp only [mainThread, hpoint] at h
      split at h
      · rename_i a rest harrivals
        split at h
        · rename_i hfull
          cases h
          simpa only [hpoint] using MainMove.turnsAway a rest hpoint harrivals hfull
        · rename_i hroom
          cases h
          simpa only [hpoint] using MainMove.admits a rest hpoint harrivals (Int.not_le.mp hroom)
      · rename_i harrivals
        cases h
        exact .stopsAdmitting hpoint harrivals
  | joining i =>
      simp only [mainThread, hpoint] at h
      split at h
      · rename_i cu hcu
        rw [Option.ite_none_right_eq_some] at h
        obtain ⟨hfreed, h⟩ := h
        cases h
        exact .joins i cu hpoint hcu hfreed
      · rename_i hnone
        cases h
        exact .closes i hpoint (List.getElem?_eq_none_iff.mp hnone)
  | joiningChefs k =>
      simp only [mainThread, hpoint] at h
      split at h
      · rename_i p hp
        rw [Option.ite_none_right_eq_some] at h
        obtain ⟨hreturned, h⟩ := h
        cases h
        exact .joinsChef k hpoint (hreturned ▸ hp)
      · rename_i hnone
        cases h
        exact .returns k hpoint (List.getElem?_eq_none_iff.mp hnone)
  | returned => simp [mainThread, hpoint] at h

theorem moves_of_step {e : Event} (h : (bakery Q split).step e s = some (s', out)) :
    Moves split e s s' out := by
  cases e with
  | step t =>
      cases t with
      | main => exact .main (mainMove_of_mainThread h)
      | chef k =>
          obtain ⟨p, hchef, h⟩ := Option.bind_eq_some_iff.mp h
          exact .chef k hchef (chefMove_of_chefThread h)
      | customer c =>
          obtain ⟨cu, hcustomer, h⟩ := Option.bind_eq_some_iff.mp h
          exact .customer c hcustomer (customerMove_of_customerThread h)
  | spurious t =>
      cases t with
      | main => cases h
      | chef k =>
          obtain ⟨hchef, h⟩ := Option.ite_none_right_eq_some.mp h
          cases h
          exact .chefWakes k hchef
      | customer c =>
          obtain ⟨cu, hcustomer, h⟩ := Option.bind_eq_some_iff.mp h
          obtain ⟨hpoint, h⟩ := Option.ite_none_right_eq_some.mp h
          cases h
          exact .customerWakes c hcustomer hpoint

/-! ## What a step leaves alone -/

/-- What only `main` changes. -/
structure SameMain (s s' : Shop Q) : Prop where
  arrivals : s'.arrivals = s.arrivals
  main : s'.main = s.main
  shutdownFlag : s'.shutdownFlag = s.shutdownFlag
  length : s'.customers.length = s.customers.length

theorem Moves.sameMain {e : Event} (hmove : Moves split e s s' out) (he : e ≠ .step .main) :
    SameMain s s' := by
  cases hmove with
  | main move => exact absurd rfl he
  | chef k chef move => cases move <;> exact ⟨rfl, rfl, rfl, by simp⟩
  | customer c customer move => cases move <;> exact ⟨rfl, rfl, rfl, by simp⟩
  | chefWakes k chef => exact ⟨rfl, rfl, rfl, rfl⟩
  | customerWakes c customer point => exact ⟨rfl, rfl, rfl, by simp⟩

section Others

variable {customers : List Customer} {c d : Nat} {cu : Customer}

theorem exists_modify {f : Customer → Customer} (hcu : customers[c]? = some cu)
    (hf : c = d → (f cu).point = cu.point) :
    ∃ cu', (customers.modify d f)[c]? = some cu' ∧ cu'.point = cu.point := by
  by_cases hd : d = c
  · exact ⟨f cu, by simp [hcu, hd], hf hd.symm⟩
  · exact ⟨cu, by simp [hcu, hd], rfl⟩

/-- Only its own steps and the end of a wait take a customer to another point. -/
theorem Moves.point_of_other {e : Event} (hmove : Moves split e s s' out)
    (he : e ≠ .step (.customer c)) (hcu : s.customers[c]? = some cu) :
    ∃ cu', s'.customers[c]? = some cu' ∧ (cu'.point = cu.point ∨ cu.point = .waiting) := by
  cases hmove with
  | main move =>
      cases move with
      | admits a rest point arrivals room =>
          obtain ⟨hlt, -⟩ := List.getElem?_eq_some_iff.mp hcu
          exact ⟨cu, by rw [List.getElem?_append_left hlt, hcu], .inl rfl⟩
      | _ => exact ⟨cu, hcu, .inl rfl⟩
  | chef k chef move =>
      have hpoint : ∀ d (f : Customer → Customer), (∀ cu, (f cu).point = cu.point) →
          ∃ cu', (s.customers.modify d f)[c]? = some cu' ∧
            (cu'.point = cu.point ∨ cu.point = .waiting) := by
        intro d f hf
        obtain ⟨cu', hcu', hsame⟩ := exists_modify (d := d) (f := f) hcu fun _ => hf cu
        exact ⟨cu', hcu', .inl hsame⟩
      cases move with
      | accepts d point => exact hpoint d _ fun _ => rfl
      | serves d point => exact hpoint d _ fun _ => rfl
      | bakes d _ point customer post => exact hpoint d _ fun _ => rfl
      | finishesCake d point => exact hpoint d _ fun _ => rfl
      | _ => exact ⟨cu, hcu, .inl rfl⟩
  | customer d customer move =>
      have hd : c ≠ d := by
        rintro rfl
        exact he rfl
      have hpoint : ∀ f : Customer → Customer, ∃ cu', (s.customers.modify d f)[c]? = some cu' ∧
          (cu'.point = cu.point ∨ cu.point = .waiting) := by
        intro f
        obtain ⟨cu', hcu', hsame⟩ := exists_modify (f := f) hcu fun h => absurd h hd
        exact ⟨cu', hcu', .inl hsame⟩
      cases move with
      | leaves point =>
          have hwoken : (s.customers.map Customer.wake)[c]? = some cu.wake := by simp [hcu]
          obtain ⟨cu', hcu', hsame⟩ := exists_modify
            (f := fun cu => { cu with point := .left }) hwoken fun h => absurd h hd
          refine ⟨cu', hcu', ?_⟩
          rw [hsame]
          cases hp : cu.point <;> simp [Customer.wake, hp, CustomerPoint.wake]
      | _ => exact hpoint _
  | chefWakes k chef => exact ⟨cu, hcu, .inl rfl⟩
  | @customerWakes d _ cu' customer point =>
      by_cases hd : c = d
      · subst hd
        have hsame : cu' = cu := Option.some.inj (customer.symm.trans hcu)
        rw [hsame] at point
        exact ⟨{ cu with point := .woken }, by simp [Shop.goTo, Shop.customer, hcu], .inr point⟩
      · obtain ⟨cu', hcu', hsame⟩ := exists_modify
          (f := fun cu => { cu with point := .woken }) hcu fun h => absurd h hd
        exact ⟨cu', hcu', .inl hsame⟩

end Others

end OxyC.Bakery
