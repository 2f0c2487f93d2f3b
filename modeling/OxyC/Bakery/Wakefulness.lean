import OxyC.Bakery.Tracking

/-!
# Who is awake

A chef sleeps only while there is nothing to do, and the first customer of the
standing queue only while somebody holds a seat, if it began to wait in time.
-/

namespace OxyC.Bakery

open OxyC.Foundation

section Seats

variable {Q : Type} [Queues Q] {split : Bool} {s s' : Shop Q} {out : List Deed} {c : Nat}
  {cu : Customer}

/-- The customer has a seat, or has passed the seat test on entry. -/
def CustomerPoint.seatBound : CustomerPoint → Bool
  | .taking | .seated | .unserved | .served | .ordered | .finished | .paying | .paid => true
  | _ => false

def SeatHeld (s : Shop Q) : Prop :=
  ∃ (c : Nat) (cu : Customer), s.customers[c]? = some cu ∧ cu.point.seatBound = true

def NoneWaits (s : Shop Q) : Prop :=
  ∀ (c : Nat) (cu : Customer), s.customers[c]? = some cu → cu.point ≠ .waiting

/-- The first customer of the standing queue begins to wait while a seat is held. -/
def WaitsInTime (s : Shop Q) (e : Event) : Prop :=
  ∀ c cu, e = .step (.customer c) → s.customers[c]? = some cu → cu.point = .queued →
    s.head .standing = some c → SeatHeld s

omit [Queues Q] in
theorem noneWaits_leaves (s₁ : Shop Q) (h : s'.customers =
    (s₁.customers.map Customer.wake).modify c fun cu => { cu with point := .left }) :
    NoneWaits s' := by
  intro d cu' hcu' hwaiting
  rw [h, List.getElem?_modify, List.getElem?_map, Option.map_eq_map, Option.map_map,
    Option.map_eq_some_iff] at hcu'
  obtain ⟨old, -, rfl⟩ := hcu'
  by_cases hd : c = d
  · simp [hd] at hwaiting
  · rw [Function.comp_apply, if_neg hd] at hwaiting
    cases hp : old.point <;> simp [Customer.wake, hp, CustomerPoint.wake] at hwaiting

theorem CustomerMove.seatHeld (hmove : CustomerMove split c cu s s' out)
    (hcu : s.customers[c]? = some cu) (hbound : cu.point.seatBound = true) :
    SeatHeld s' ∨ NoneWaits s' := by
  cases hmove with
  | leaves point => exact .inr (noneWaits_leaves s rfl)
  | takesSeat point => exact .inl ⟨c, { cu with point := .seated }, by simp [hcu], rfl⟩
  | joinsSofa point => exact .inl ⟨c, { cu with point := .unserved }, by simp [hcu], rfl⟩
  | isServed point post =>
      exact .inl ⟨c, { cu with semServed := cu.semServed - 1, point := .served },
        by simp [hcu], rfl⟩
  | requests point =>
      exact .inl ⟨c, { cu with semStartBake := cu.semStartBake + 1, point := .ordered },
        by simp [hcu], rfl⟩
  | getsCake point post =>
      exact .inl ⟨c, { cu with semBakeDone := cu.semBakeDone - 1, point := .finished },
        by simp [hcu], rfl⟩
  | joinsPayment point => exact .inl ⟨c, { cu with point := .paying }, by simp [hcu], rfl⟩
  | hasPaid point post =>
      exact .inl ⟨c, { cu with semPaymentOk := cu.semPaymentOk - 1, point := .paid },
        by simp [hcu], rfl⟩
  | findsSeat point free nobody =>
      rcases point with point | point <;> rw [point] at hbound <;> cases hbound
  | decides point full =>
      rcases point with point | point <;> rw [point] at hbound <;> cases hbound
  | seesSeat point free =>
      rw [point] at hbound
      cases hbound
  | joinsStanding point =>
      rw [point] at hbound
      cases hbound
  | sleeps point =>
      rw [point] at hbound
      cases hbound
  | leavesStanding point head free =>
      rw [point] at hbound
      cases hbound
  | sleepsAgain point stay =>
      rw [point] at hbound
      cases hbound
  | frees point =>
      rw [point] at hbound
      cases hbound

theorem SeatHeld.step {e : Event} (h : SeatHeld s) (hmove : Moves split e s s' out) :
    SeatHeld s' ∨ NoneWaits s' := by
  obtain ⟨c, cu, hcu, hbound⟩ := h
  by_cases he : e = .step (.customer c)
  · subst he
    cases hmove with
    | @customer _ _ _ cu' _ customer move =>
        have hsame : cu' = cu := Option.some.inj (customer.symm.trans hcu)
        rw [hsame] at move
        exact move.seatHeld hcu hbound
  · obtain ⟨cu', hcu', hsame | hwaiting⟩ := hmove.point_of_other he hcu
    · exact .inl ⟨c, cu', hcu', hsame ▸ hbound⟩
    · rw [hwaiting] at hbound
      cases hbound

theorem Moves.stays_awake {e : Event} (hmove : Moves split e s s' out)
    (he : e ≠ .step (.customer c)) (hcu : s.customers[c]? = some cu)
    (hawake : cu.point ≠ .waiting) :
    ∃ cu', s'.customers[c]? = some cu' ∧ cu'.point ≠ .waiting := by
  obtain ⟨cu', hcu', hsame | hwaiting⟩ := hmove.point_of_other he hcu
  · exact ⟨cu', hcu', hsame ▸ hawake⟩
  · exact absurd hwaiting hawake

end Seats

/-! ## The first customer of the standing queue -/

section Head

variable {split : Bool} {s s' : Shop Lists} {out : List Deed} {stages : List Stage}

/-- It is awake, or somebody will leave and wake it. -/
def Minded (s : Shop Lists) : Prop :=
  ∀ c, (s.queues .standing).head? = some c →
    (∃ cu, s.customers[c]? = some cu ∧ cu.point ≠ .waiting) ∨ SeatHeld s

theorem exists_awake (hnone : NoneWaits s) (htracks : Tracks s stages) {c : Nat}
    (hc : (s.queues .standing).head? = some c) :
    ∃ cu, s.customers[c]? = some cu ∧ cu.point ≠ .waiting := by
  obtain ⟨st, hst, -⟩ := htracks.of_line (List.mem_of_mem_head? hc)
  obtain ⟨cu, hcu, -⟩ := htracks.customer hst
  exact ⟨cu, hcu, hnone c cu hcu⟩

/-- A step that leaves the head of the queue, and is not one of its own. -/
theorem Minded.keep {e : Event} (h : Minded s) (hmove : Moves split e s s' out)
    (htracks : Tracks s' stages)
    (hhead : ∀ c, (s'.queues .standing).head? = some c →
      (s.queues .standing).head? = some c ∧ e ≠ .step (.customer c)) : Minded s' := by
  intro c hc
  obtain ⟨hold, he⟩ := hhead c hc
  rcases h c hold with ⟨cu, hcu, hawake⟩ | hheld
  · exact .inl (hmove.stays_awake he hcu hawake)
  · cases hheld.step hmove with
    | inl hheld => exact .inr hheld
    | inr hnone => exact .inl (exists_awake hnone htracks hc)

theorem minded_of (h : SeatHeld s ∨ NoneWaits s) (htracks : Tracks s stages) : Minded s := by
  intro c hc
  cases h with
  | inl hheld => exact .inr hheld
  | inr hnone => exact .inl (exists_awake hnone htracks hc)

/-- With all the seats taken somebody holds one. -/
theorem Tracks.seatHeld (h : Tracks s stages) (hfull : sofaSeats ≤ s.sofaOccupied) :
    SeatHeld s := by
  have hpos : 0 < stages.countP Stage.holdsSeat := by
    have hsofa := h.sofa
    unfold sofaSeats at hfull
    omega
  obtain ⟨st, hmem, hseat⟩ := List.countP_pos_iff.mp hpos
  obtain ⟨c, hst⟩ := List.mem_iff_getElem?.mp hmem
  obtain ⟨cu, hcu, hmatch⟩ := h.customer hst
  refine ⟨c, cu, hcu, ?_⟩
  have hpoint := hmatch.1
  generalize cu.point = point at hpoint
  cases st <;> simp_all [Stage.points, Stage.holdsSeat, CustomerPoint.seatBound]

theorem Minded.customerMove (h : Minded s) {stages' : List Stage} (htracks : Tracks s stages)
    (htracks' : Tracks s' stages') {c : Nat} {cu : Customer} (hcu : s.customers[c]? = some cu)
    (hmove : CustomerMove split c cu s s' out) (hguard : WaitsInTime s (.step (.customer c))) :
    Minded s' := by
  have hmoves : Moves split (.step (.customer c)) s s' out := .customer c hcu hmove
  have hstanding := htracks.point_of_standing hcu
  -- the queue and its head stay, and `c` is not the head
  have hkeep : (∀ d, (s'.queues .standing).head? = some d → (s.queues .standing).head? = some d) →
      (s.queues .standing).head? ≠ some c → Minded s' := by
    intro hqueue hne
    refine h.keep hmoves htracks' fun d hd => ⟨hqueue d hd, ?_⟩
    rintro ⟨⟩
    exact hne (hqueue c hd)
  have hbound := hmove.seatHeld hcu
  cases hmove with
  | takesSeat point => exact minded_of (hbound (by rw [point]; rfl)) htracks'
  | joinsSofa point => exact minded_of (hbound (by rw [point]; rfl)) htracks'
  | isServed point post => exact minded_of (hbound (by rw [point]; rfl)) htracks'
  | requests point => exact minded_of (hbound (by rw [point]; rfl)) htracks'
  | getsCake point post => exact minded_of (hbound (by rw [point]; rfl)) htracks'
  | joinsPayment point => exact minded_of (hbound (by rw [point]; rfl)) htracks'
  | hasPaid point post => exact minded_of (hbound (by rw [point]; rfl)) htracks'
  | leaves point => exact minded_of (hbound (by rw [point]; rfl)) htracks'
  | findsSeat point free nobody =>
      exact minded_of (.inl ⟨c, { cu with point := .taking }, by simp [hcu], rfl⟩) htracks'
  | leavesStanding point head free =>
      exact minded_of (.inl ⟨c, { cu with point := .seated }, by simp [hcu], rfl⟩) htracks'
  | seesSeat point free =>
      refine hkeep (fun _ hd => hd) fun hhead => ?_
      simpa [point] using hstanding (List.mem_of_mem_head? hhead)
  | decides point full =>
      refine hkeep (fun _ hd => hd) fun hhead => ?_
      rcases point with point | point <;>
        simpa [point] using hstanding (List.mem_of_mem_head? hhead)
  | frees point =>
      refine hkeep (fun _ hd => hd) fun hhead => ?_
      simpa [point] using hstanding (List.mem_of_mem_head? hhead)
  | joinsStanding point =>
      cases hqueue : s.queues .standing with
      | nil =>
          intro d hd
          have hself : c = d := by simpa [hqueue] using hd
          subst hself
          exact .inl ⟨{ cu with point := .queued }, by simp [hcu], by simp⟩
      | cons first rest =>
          refine hkeep (fun d hd => ?_) fun hhead => ?_
          · simpa [hqueue] using hd
          · simpa [point] using hstanding (List.mem_of_mem_head? hhead)
  | sleeps point =>
      by_cases hhead : (s.queues .standing).head? = some c
      · exact minded_of ((hguard c cu rfl hcu point hhead).step hmoves) htracks'
      · exact hkeep (fun _ hd => hd) hhead
  | sleepsAgain point stay =>
      by_cases hhead : (s.queues .standing).head? = some c
      · have hfull : sofaSeats ≤ s.sofaOccupied :=
          Int.not_lt.mp fun hfree => stay ⟨hhead, hfree⟩
        exact minded_of ((htracks.seatHeld hfull).step hmoves) htracks'
      · exact hkeep (fun _ hd => hd) hhead

theorem Minded.step {e : Event} (h : Minded s) {stages' : List Stage} (htracks : Tracks s stages)
    (htracks' : Tracks s' stages') (hmove : Moves split e s s' out) (hguard : WaitsInTime s e) :
    Minded s' := by
  by_cases hcustomer : ∃ c, e = .step (.customer c)
  · obtain ⟨c, rfl⟩ := hcustomer
    cases hmove with
    | customer _ customer move => exact h.customerMove htracks htracks' customer move hguard
  · refine h.keep hmove htracks' fun c hc => ⟨?_, fun he => hcustomer ⟨c, he⟩⟩
    cases hmove with
    | main move => cases move <;> exact hc
    | chef k chef move => cases move <;> simpa using hc
    | customer d customer move => exact absurd ⟨d, rfl⟩ hcustomer
    | chefWakes k chef => exact hc
    | customerWakes d customer point => exact hc

end Head

/-! ## The chefs and `main` -/

section Chefs

variable {split : Bool} {s s' : Shop Lists} {out : List Deed}

/-- The chefs are asleep only without work and return only after the shutdown. -/
structure Staffed (s : Shop Lists) : Prop where
  length : s.chefs.length = numChefs
  asleep : .waiting ∈ s.chefs →
    s.queues .sofa = [] ∧ s.queues .payment = [] ∧ s.shutdownFlag = false
  done : ∀ p ∈ s.chefs, p = .returned ∨ p = .broke ∨ p = .brokeSofa → s.shutdownFlag = true

theorem waiting_notMem_wake (chefs : List ChefPoint) : .waiting ∉ chefs.map ChefPoint.wake := by
  intro hmem
  obtain ⟨p, -, hp⟩ := List.mem_map.mp hmem
  cases p <;> cases hp

theorem mem_of_mem_wake {p : ChefPoint} {chefs : List ChefPoint}
    (h : p ∈ chefs.map ChefPoint.wake) (hp : p ≠ .picking) : p ∈ chefs := by
  obtain ⟨q, hq, rfl⟩ := List.mem_map.mp h
  cases q <;> first | exact hq | exact absurd rfl hp

theorem Staffed.done_set (h : Staffed s) {k : Nat} {p q : ChefPoint}
    (hdone : p = .returned ∨ p = .broke ∨ p = .brokeSofa → s.shutdownFlag = true)
    (hq : q ∈ s.chefs.set k p) (hpoint : q = .returned ∨ q = .broke ∨ q = .brokeSofa) :
    s.shutdownFlag = true := by
  cases List.mem_or_eq_of_mem_set hq with
  | inl hq => exact h.done q hq hpoint
  | inr heq => exact hdone (heq ▸ hpoint)

theorem Staffed.chefTo (h : Staffed s) {k : Nat} {p : ChefPoint} (hqueues : s'.queues = s.queues)
    (hflag : s'.shutdownFlag = s.shutdownFlag) (hchefs : s'.chefs = s.chefs.set k p)
    (hasleep : p = .waiting →
      s.queues .sofa = [] ∧ s.queues .payment = [] ∧ s.shutdownFlag = false)
    (hdone : p = .returned ∨ p = .broke ∨ p = .brokeSofa → s.shutdownFlag = true) : Staffed s' where
  length := by rw [hchefs, List.length_set, h.length]
  asleep := by
    intro hmem
    rw [hqueues, hflag]
    rw [hchefs] at hmem
    cases List.mem_or_eq_of_mem_set hmem with
    | inl hmem => exact h.asleep hmem
    | inr heq => exact hasleep heq.symm
  done := by
    rw [hchefs, hflag]
    exact fun q hq hpoint => h.done_set hdone hq hpoint

theorem Staffed.same (h : Staffed s) (hchefs : s'.chefs = s.chefs)
    (hsofa : s'.queues .sofa = s.queues .sofa) (hpayment : s'.queues .payment = s.queues .payment)
    (hflag : s'.shutdownFlag = s.shutdownFlag) : Staffed s' where
  length := by rw [hchefs, h.length]
  asleep := by
    rw [hchefs, hsofa, hpayment, hflag]
    exact h.asleep
  done := by
    rw [hchefs, hflag]
    exact h.done

theorem Staffed.broadcast (h : Staffed s) (hchefs : s'.chefs = s.chefs.map ChefPoint.wake)
    (hflag : s.shutdownFlag = true → s'.shutdownFlag = true) : Staffed s' where
  length := by rw [hchefs, List.length_map, h.length]
  asleep := by
    rw [hchefs]
    exact fun hmem => absurd hmem (waiting_notMem_wake s.chefs)
  done := by
    intro p hp hpoint
    rw [hchefs] at hp
    refine hflag (h.done p (mem_of_mem_wake hp ?_) hpoint)
    rintro rfl
    simp at hpoint

/-- A chef takes somebody out of a queue, so no chef has been asleep. -/
theorem Staffed.pop (h : Staffed s) {k c : Nat} {l : Line} {p : ChefPoint}
    (hhead : (s.queues l).head? = some c) (hl : l = .sofa ∨ l = .payment)
    (hp : p.customer = some c) (hchefs : s'.chefs = s.chefs.set k p)
    (hflag : s'.shutdownFlag = s.shutdownFlag) : Staffed s' where
  length := by rw [hchefs, List.length_set, h.length]
  asleep := by
    intro hmem
    rw [hchefs] at hmem
    cases List.mem_or_eq_of_mem_set hmem with
    | inl hmem =>
        have hempty := h.asleep hmem
        rcases hl with rfl | rfl <;> simp_all
    | inr heq =>
        rw [← heq] at hp
        cases hp
  done := by
    rw [hchefs, hflag]
    refine fun q hq hpoint => h.done_set ?_ hq hpoint
    rintro (rfl | rfl | rfl) <;> cases hp

theorem Staffed.chefMove (h : Staffed s) {k : Nat} {p : ChefPoint} (hk : s.chefs[k]? = some p)
    (hmove : ChefMove k p s s' out) : Staffed s' := by
  have hdone := h.done p (List.mem_of_getElem? hk)
  cases hmove with
  | looks point running => exact h.chefTo rfl rfl rfl (by simp) (by simp)
  | returns point closed => exact h.chefTo rfl rfl rfl (by simp) fun _ => closed
  | waits point payment sofa running =>
      have hsofa : s.queues .sofa = [] := List.eq_nil_of_length_eq_zero sofa
      have hpayment : s.queues .payment = [] := List.eq_nil_of_length_eq_zero payment
      exact h.chefTo rfl rfl rfl (fun _ => ⟨hsofa, hpayment, running⟩) (by simp)
  | breaks point closed => exact h.chefTo rfl rfl rfl (by simp) fun _ => closed
  | bills c point head => exact h.pop head (.inr rfl) (p := .accepting c) rfl rfl rfl
  | takes c point head => exact h.pop head (.inl rfl) (p := .serving c) rfl rfl rfl
  | findsNoPayment point =>
      exact h.chefTo rfl rfl rfl (by simp) fun _ => hdone (.inr (.inl point))
  | findsNoSofa point => exact h.chefTo rfl rfl rfl (by simp) (by simp)
  | accepts c point => exact h.chefTo rfl rfl rfl (by simp) (by simp)
  | serves c point => exact h.chefTo rfl rfl rfl (by simp) (by simp)
  | bakes c cu point customer post => exact h.chefTo rfl rfl rfl (by simp) (by simp)
  | finishesCake c point => exact h.chefTo rfl rfl rfl (by simp) (by simp)

theorem Staffed.step {e : Event} (h : Staffed s) (hmove : Moves split e s s' out) :
    Staffed s' := by
  cases hmove with
  | main move =>
      cases move with
      | closes i point all => exact h.broadcast rfl fun _ => rfl
      | _ => exact h.same rfl rfl rfl rfl
  | chef k chef move => exact h.chefMove chef move
  | chefWakes k chef => exact h.chefTo rfl rfl rfl (by simp) (by simp)
  | customerWakes c customer point => exact h.same rfl rfl rfl rfl
  | customer c customer move =>
      cases move with
      | joinsSofa point => exact h.broadcast rfl id
      | joinsPayment point => exact h.broadcast rfl id
      | leaves point => exact h.broadcast rfl id
      | joinsStanding point => exact h.same rfl (by simp) (by simp) rfl
      | leavesStanding point head free => exact h.same rfl (by simp) (by simp) rfl
      | _ => exact h.same rfl rfl rfl rfl

end Chefs

section Main

variable {split : Bool} {s s' : Shop Lists} {out : List Deed}

/-- How far `main` has come. -/
structure Supervised (s : Shop Lists) : Prop where
  joining : ∀ i, s.main = .joining i → ∀ j < i, ∀ cu, s.customers[j]? = some cu → cu.point = .freed
  shutdown : s.shutdownFlag = true ↔ (∃ k, s.main = .joiningChefs k) ∨ s.main = .returned
  all : s.shutdownFlag = true →
    ∀ (c : Nat) (cu : Customer), s.customers[c]? = some cu → cu.point = .freed

/-- A customer that has freed itself takes no step, and none wakes it. -/
theorem Moves.freed {e : Event} (hmove : Moves split e s s' out) {c : Nat} {cu' : Customer}
    (hold : ∀ cu, s.customers[c]? = some cu → cu.point = .freed)
    (hlt : c < s.customers.length) (hcu' : s'.customers[c]? = some cu') : cu'.point = .freed := by
  have hcu : s.customers[c]? = some (s.customers.get ⟨c, hlt⟩) := List.getElem?_eq_getElem hlt
  have hfreed := hold _ hcu
  by_cases he : e = .step (.customer c)
  · subst he
    cases hmove with
    | @customer _ _ _ cu _ customer move =>
        have hpoint := hold cu customer
        cases move <;> simp_all
  · obtain ⟨cu, hcu₂, hsame | hwaiting⟩ := hmove.point_of_other he hcu
    · obtain rfl : cu' = cu := Option.some.inj (hcu'.symm.trans hcu₂)
      exact hsame.trans hfreed
    · simp_all

theorem Supervised.mainMove (h : Supervised s) (hmove : MainMove s s' out) : Supervised s' := by
  have hflag : s.main = .admitting ∨ (∃ i, s.main = .joining i) → s.shutdownFlag = false := by
    intro hpoint
    rw [Bool.eq_false_iff]
    intro hclosed
    rcases h.shutdown.mp hclosed with ⟨k, hk⟩ | hk <;>
      rcases hpoint with hpoint | ⟨i, hpoint⟩ <;> rw [hk] at hpoint <;> cases hpoint
  cases hmove with
  | turnsAway a rest point arrivals full =>
      have hopen := hflag (.inl point)
      exact ⟨by simp [point], by simp [hopen, point], by simp [hopen]⟩
  | admits a rest point arrivals room =>
      have hopen := hflag (.inl point)
      exact ⟨by simp [point], by simp [hopen, point], by simp [hopen]⟩
  | stopsAdmitting point arrivals =>
      have hopen := hflag (.inl point)
      exact ⟨by simp, by simp [hopen], by simp [hopen]⟩
  | joins i cu point customer freed =>
      have hopen := hflag (.inr ⟨i, point⟩)
      refine ⟨?_, by simp [hopen], by simp [hopen]⟩
      rintro i' hi' j hj cu' hcu'
      obtain rfl : i + 1 = i' := by simpa using hi'
      rcases Nat.lt_succ_iff_lt_or_eq.mp hj with hlt | rfl
      · exact h.joining i point j hlt cu' hcu'
      · obtain rfl : cu = cu' := Option.some.inj (customer.symm.trans hcu')
        exact freed
  | closes i point all =>
      refine ⟨by simp [Shop.broadcastChefCv], by simp [Shop.broadcastChefCv], fun _ c cu hcu => ?_⟩
      obtain ⟨hlt, -⟩ := List.getElem?_eq_some_iff.mp hcu
      exact h.joining i point c (Nat.lt_of_lt_of_le hlt all) cu hcu
  | joinsChef k point chef =>
      have hclosed := h.shutdown.mpr (.inl ⟨k, point⟩)
      exact ⟨by simp, by simp [hclosed], fun _ => h.all hclosed⟩
  | returns k point all =>
      have hclosed := h.shutdown.mpr (.inl ⟨k, point⟩)
      exact ⟨by simp, by simp [hclosed], fun _ => h.all hclosed⟩

theorem Supervised.step {e : Event} (h : Supervised s) (hmove : Moves split e s s' out) :
    Supervised s' := by
  by_cases he : e = .step .main
  · subst he
    cases hmove with
    | main move => exact h.mainMove move
  · have hsame := hmove.sameMain he
    have hlt : ∀ {c : Nat} {cu : Customer}, s'.customers[c]? = some cu →
        c < s.customers.length := by
      intro c cu hcu
      rw [← hsame.length]
      exact (List.getElem?_eq_some_iff.mp hcu).1
    constructor
    case joining =>
      intro i hi j hj cu hcu
      rw [hsame.main] at hi
      exact hmove.freed (h.joining i hi j hj) (hlt hcu) hcu
    case shutdown => rw [hsame.shutdownFlag, hsame.main, h.shutdown]
    case all =>
      intro hclosed c cu hcu
      rw [hsame.shutdownFlag] at hclosed
      exact hmove.freed (h.all hclosed c) (hlt hcu) hcu

end Main

end OxyC.Bakery
