import OxyC.Bakery.Tracking

/-!
# Linked queues and lists

The bakery over the queues of `queue.c` and the bakery over lists take the same
steps: a customer is pushed only while it is in no queue.
-/

namespace OxyC.Bakery

open OxyC.Foundation

def Shop.withQueues {Q Q' : Type} (q : Q') (s : Shop Q) : Shop Q' where
  arrivals := s.arrivals
  main := s.main
  customers := s.customers
  chefs := s.chefs
  currentCustomers := s.currentCustomers
  sofaOccupied := s.sofaOccupied
  queues := q
  shutdownFlag := s.shutdownFlag

structure Refines (s : Shop Linked) (t : Shop Lists) : Prop where
  same : t = s.withQueues t.queues
  queues : s.queues.Represents t.queues

def Agree (x : Shop Linked × List Deed) (y : Shop Lists × List Deed) : Prop :=
  Refines x.1 y.1 ∧ x.2 = y.2

section Steps

variable {s : Shop Linked} {t : Shop Lists} {ls : Lists} {stages : List Stage} {c k : Nat}

theorem rel_ite {α β : Type*} {R : α → β → Prop} {p q : Prop} [Decidable p] [Decidable q]
    {x x' : Option α} {y y' : Option β} (hpq : p ↔ q) (hpos : q → Option.Rel R x y)
    (hneg : ¬ q → Option.Rel R x' y') :
    Option.Rel R (if p then x else x') (if q then y else y') := by
  by_cases hq : q
  · rw [if_pos (hpq.mpr hq), if_pos hq]
    exact hpos hq
  · rw [if_neg fun hp => hq (hpq.mp hp), if_neg hq]
    exact hneg hq

theorem size_withQueues (h : s.queues.Represents ls) (l : Line) :
    s.size l = (s.withQueues ls).size l := h.size l

theorem head_withQueues (h : s.queues.Represents ls) (l : Line) :
    s.head l = (s.withQueues ls).head l := h.head l

/-- Where a customer pushes itself it is in no queue. -/
theorem Tracks.fresh (h : Tracks t stages) {cu : Customer} (hcu : t.customers[c]? = some cu)
    (hpoint : cu.point ∈ [.standing, .seated, .finished]) (l : Line) : c ∉ t.queues l := by
  obtain ⟨st, hst, hmatch⟩ := h.stage hcu
  have hpoints := hmatch.1
  intro hmem
  obtain ⟨st', hst', hline⟩ := h.of_line hmem
  obtain rfl : st = st' := Option.some.inj (hst.symm.trans hst')
  simp only [List.mem_cons, List.not_mem_nil, or_false] at hpoint
  rcases hpoint with hp | hp | hp <;> cases st <;> simp_all [Stage.points, Stage.line]

theorem agree_customerThread (split : Bool) (h : s.queues.Represents ls)
    (htracks : Tracks (s.withQueues ls) stages) {cu : Customer}
    (hcu : s.customers[c]? = some cu) :
    Option.Rel Agree (customerThread split c cu s)
      (customerThread split c cu (s.withQueues ls)) := by
  have hsize := size_withQueues h
  have hhead := head_withQueues h
  cases hpoint : cu.point with
  | entered =>
      simp only [customerThread, hpoint]
      refine rel_ite Iff.rfl (fun _ => ?_) fun _ => .some ⟨⟨rfl, h⟩, rfl⟩
      refine rel_ite Iff.rfl (fun _ => .some ⟨⟨rfl, h⟩, rfl⟩) fun _ => ?_
      exact rel_ite (by rw [hsize]) (fun _ => .some ⟨⟨rfl, h⟩, rfl⟩) fun _ => .some ⟨⟨rfl, h⟩, rfl⟩
  | sawSeat =>
      simp only [customerThread, hpoint]
      exact rel_ite (by rw [hsize]) (fun _ => .some ⟨⟨rfl, h⟩, rfl⟩) fun _ => .some ⟨⟨rfl, h⟩, rfl⟩
  | woken =>
      simp only [customerThread, hpoint]
      refine rel_ite (by rw [hhead]; rfl) (fun _ => ?_) fun _ => .some ⟨⟨rfl, h⟩, rfl⟩
      exact .some ⟨⟨rfl, h.pop .standing⟩, rfl⟩
  | standing =>
      simp only [customerThread, hpoint]
      exact .some ⟨⟨rfl, h.push (htracks.fresh hcu (by simp [hpoint])) .standing⟩, rfl⟩
  | seated =>
      simp only [customerThread, hpoint]
      exact .some ⟨⟨rfl, h.push (htracks.fresh hcu (by simp [hpoint])) .sofa⟩, rfl⟩
  | finished =>
      simp only [customerThread, hpoint]
      exact .some ⟨⟨rfl, h.push (htracks.fresh hcu (by simp [hpoint])) .payment⟩, rfl⟩
  | unserved =>
      simp only [customerThread, hpoint]
      exact rel_ite Iff.rfl (fun _ => .some ⟨⟨rfl, h⟩, rfl⟩) fun _ => .none
  | ordered =>
      simp only [customerThread, hpoint]
      exact rel_ite Iff.rfl (fun _ => .some ⟨⟨rfl, h⟩, rfl⟩) fun _ => .none
  | paying =>
      simp only [customerThread, hpoint]
      exact rel_ite Iff.rfl (fun _ => .some ⟨⟨rfl, h⟩, rfl⟩) fun _ => .none
  | waiting =>
      simp only [customerThread, hpoint]
      exact .none
  | freed =>
      simp only [customerThread, hpoint]
      exact .none
  | taking =>
      simp only [customerThread, hpoint]
      exact .some ⟨⟨rfl, h⟩, rfl⟩
  | queued =>
      simp only [customerThread, hpoint]
      exact .some ⟨⟨rfl, h⟩, rfl⟩
  | served =>
      simp only [customerThread, hpoint]
      exact .some ⟨⟨rfl, h⟩, rfl⟩
  | paid =>
      simp only [customerThread, hpoint]
      exact .some ⟨⟨rfl, h⟩, rfl⟩
  | left =>
      simp only [customerThread, hpoint]
      exact .some ⟨⟨rfl, h⟩, rfl⟩

theorem agree_popPayment (h : s.queues.Represents ls) :
    Option.Rel Agree (popPayment k s) (popPayment k (s.withQueues ls)) := by
  simp only [popPayment, ← head_withQueues h]
  cases s.head .payment with
  | none => exact .none
  | some c => exact .some ⟨⟨rfl, h.pop .payment⟩, rfl⟩

theorem agree_popSofa (h : s.queues.Represents ls) :
    Option.Rel Agree (popSofa k s) (popSofa k (s.withQueues ls)) := by
  simp only [popSofa, ← head_withQueues h]
  cases s.head .sofa with
  | none => exact .none
  | some c => exact .some ⟨⟨rfl, h.pop .sofa⟩, rfl⟩

theorem agree_chefThread (h : s.queues.Represents ls) (p : ChefPoint) :
    Option.Rel Agree (chefThread k p s) (chefThread k p (s.withQueues ls)) := by
  have hsize := size_withQueues h
  cases p with
  | looping =>
      exact rel_ite Iff.rfl (fun _ => .some ⟨⟨rfl, h⟩, rfl⟩) fun _ => .some ⟨⟨rfl, h⟩, rfl⟩
  | picking =>
      refine rel_ite (by rw [hsize, hsize]) (fun _ => ?_) fun _ => ?_
      · exact rel_ite Iff.rfl (fun _ => .some ⟨⟨rfl, h⟩, rfl⟩) fun _ => .some ⟨⟨rfl, h⟩, rfl⟩
      · exact rel_ite (by rw [hsize]) (fun _ => agree_popPayment h) fun _ => agree_popSofa h
  | broke =>
      exact rel_ite (by rw [hsize]) (fun _ => agree_popPayment h) fun _ => .some ⟨⟨rfl, h⟩, rfl⟩
  | brokeSofa =>
      exact rel_ite (by rw [hsize]) (fun _ => agree_popSofa h) fun _ => .some ⟨⟨rfl, h⟩, rfl⟩
  | waiting => exact .none
  | returned => exact .none
  | accepting c => exact .some ⟨⟨rfl, h⟩, rfl⟩
  | serving c => exact .some ⟨⟨rfl, h⟩, rfl⟩
  | baking c => exact .some ⟨⟨rfl, h⟩, rfl⟩
  | awaiting c =>
      simp only [chefThread]
      cases hcu : s.customers[c]? with
      | none =>
          have hcu' : (s.withQueues ls).customers[c]? = none := hcu
          rw [hcu']
          exact .none
      | some cu =>
          have hcu' : (s.withQueues ls).customers[c]? = some cu := hcu
          rw [hcu']
          exact rel_ite Iff.rfl (fun _ => .some ⟨⟨rfl, h⟩, rfl⟩) fun _ => .none

theorem agree_mainThread (h : s.queues.Represents ls) :
    Option.Rel Agree (mainThread s) (mainThread (s.withQueues ls)) := by
  unfold mainThread
  have hmain : (s.withQueues ls).main = s.main := rfl
  have harrivals : (s.withQueues ls).arrivals = s.arrivals := rfl
  have hcustomers : (s.withQueues ls).customers = s.customers := rfl
  have hchefs : (s.withQueues ls).chefs = s.chefs := rfl
  rw [hmain, harrivals, hcustomers, hchefs]
  cases s.main with
  | admitting =>
      cases s.arrivals with
      | nil => exact .some ⟨⟨rfl, h⟩, rfl⟩
      | cons a rest =>
          exact rel_ite Iff.rfl (fun _ => .some ⟨⟨rfl, h⟩, rfl⟩) fun _ => .some ⟨⟨rfl, h⟩, rfl⟩
  | joining i =>
      dsimp only
      cases s.customers[i]? with
      | none => exact .some ⟨⟨rfl, h⟩, rfl⟩
      | some cu => exact rel_ite Iff.rfl (fun _ => .some ⟨⟨rfl, h⟩, rfl⟩) fun _ => .none
  | joiningChefs k =>
      dsimp only
      cases s.chefs[k]? with
      | none => exact .some ⟨⟨rfl, h⟩, rfl⟩
      | some p => exact rel_ite Iff.rfl (fun _ => .some ⟨⟨rfl, h⟩, rfl⟩) fun _ => .none
  | returned => exact .none

theorem agree_threadStep (split : Bool) (h : s.queues.Represents ls)
    (htracks : Tracks (s.withQueues ls) stages) (thread : Thread) :
    Option.Rel Agree (threadStep split s thread) (threadStep split (s.withQueues ls) thread) := by
  cases thread with
  | main => exact agree_mainThread h
  | chef k =>
      simp only [threadStep]
      have hchefs : (s.withQueues ls).chefs = s.chefs := rfl
      rw [hchefs]
      cases s.chefs[k]? with
      | none => exact .none
      | some p => exact agree_chefThread h p
  | customer c =>
      simp only [threadStep]
      have hcustomers : (s.withQueues ls).customers = s.customers := rfl
      rw [hcustomers]
      cases hcu : s.customers[c]? with
      | none => exact .none
      | some cu => exact agree_customerThread split h htracks hcu

theorem agree_spuriousWakeUp (h : s.queues.Represents ls) (thread : Thread) :
    Option.Rel Agree (spuriousWakeUp s thread) (spuriousWakeUp (s.withQueues ls) thread) := by
  cases thread with
  | main => exact .none
  | chef k => exact rel_ite Iff.rfl (fun _ => .some ⟨⟨rfl, h⟩, rfl⟩) fun _ => .none
  | customer c =>
      simp only [spuriousWakeUp]
      have hcustomers : (s.withQueues ls).customers = s.customers := rfl
      rw [hcustomers]
      cases s.customers[c]? with
      | none => exact .none
      | some cu => exact rel_ite Iff.rfl (fun _ => .some ⟨⟨rfl, h⟩, rfl⟩) fun _ => .none

end Steps

section Runs

variable {split : Bool}

theorem agree_step {e : Event} {s : Shop Linked} {t : Shop Lists} {stages : List Stage}
    (htracks : Tracks t stages) (h : Refines s t) :
    Option.Rel Agree ((bakery Linked split).step e s) ((bakery Lists split).step e t) := by
  obtain ⟨hsame, hqueues⟩ := h
  rw [hsame] at htracks ⊢
  cases e with
  | step thread => exact agree_threadStep split hqueues htracks thread
  | spurious thread => exact agree_spuriousWakeUp hqueues thread

theorem refines_opening (arrivals : List Arrival) :
    Refines (opening Linked arrivals) (opening Lists arrivals) :=
  ⟨rfl, LinkedQueues.represents_init⟩

variable (split) in
/-- Every run over the linked queues is one over the lists, and the other way round. -/
theorem agree_run (es : List Event) (arrivals : List Arrival) :
    Option.Rel Agree ((bakery Linked split).run es (opening Linked arrivals))
      ((bakery Lists split).run es (opening Lists arrivals)) := by
  refine (bakery Linked split).run_refines (bakery Lists split)
    (J := fun t => ∃ stages, Tracks t stages) ?_ ?_ es ⟨[], tracks_opening arrivals⟩
    (refines_opening arrivals)
  · rintro e t t' out ⟨stages, htracks⟩ hstep
    obtain ⟨stages', htracks', -⟩ := htracks.step (moves_of_step hstep)
    exact ⟨stages', htracks'⟩
  · rintro e s t ⟨stages, htracks⟩ h
    exact agree_step htracks h

theorem exists_lists {es : List Event} {arrivals : List Arrival} {s : Shop Linked}
    {outs : List Deed}
    (hrun : (bakery Linked split).run es (opening Linked arrivals) = some (s, outs)) :
    ∃ t, (bakery Lists split).run es (opening Lists arrivals) = some (t, outs) ∧ Refines s t := by
  have hrel := agree_run split es arrivals
  rw [hrun] at hrel
  generalize (bakery Lists split).run es (opening Lists arrivals) = y at hrel ⊢
  cases hrel with
  | @some _ y hagree =>
      obtain ⟨hrefines, rfl⟩ := hagree
      exact ⟨y.1, rfl, hrefines⟩

theorem exists_linked {es : List Event} {arrivals : List Arrival} {t : Shop Lists}
    {outs : List Deed}
    (hrun : (bakery Lists split).run es (opening Lists arrivals) = some (t, outs)) :
    ∃ s, (bakery Linked split).run es (opening Linked arrivals) = some (s, outs) ∧ Refines s t := by
  have hrel := agree_run split es arrivals
  rw [hrun] at hrel
  generalize (bakery Linked split).run es (opening Linked arrivals) = x at hrel ⊢
  cases hrel with
  | @some x _ hagree =>
      obtain ⟨hrefines, rfl⟩ := hagree
      exact ⟨x.1, rfl, hrefines⟩

end Runs

end OxyC.Bakery
