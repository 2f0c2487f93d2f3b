import OxyC.Bakery.Overtaking
import OxyC.Bakery.Sofa
import OxyC.Bakery.Wakefulness

/-!
# Where the bakery comes to rest

A shop in which no thread can take a step has served everybody, unless the first
customer of the standing queue has begun to wait when nobody was left to wake it.
-/

namespace OxyC.Bakery

open OxyC.Foundation

section Rest

variable {Q : Type} [Queues Q]

def Stuck (s : Shop Q) : Prop := ∀ thread, threadStep false s thread = none

/-- Everybody has left and every thread has returned. -/
structure Final (s : Shop Q) : Prop where
  customers : ∀ cu ∈ s.customers, cu.point = .freed
  queues : ∀ l, s.size l = 0 ∧ s.head l = none
  chefs : ∀ p ∈ s.chefs, p = .returned
  main : s.main = .returned

theorem blocked_customer {s : Shop Q} {c : Nat} {cu : Customer}
    (h : customerThread false c cu s = none) :
    cu.point = .waiting ∨ cu.point = .freed ∨ (cu.point = .unserved ∧ cu.semServed = 0) ∨
      (cu.point = .ordered ∧ cu.semBakeDone = 0) ∨ (cu.point = .paying ∧ cu.semPaymentOk = 0) := by
  cases hpoint : cu.point with
  | entered =>
      simp only [customerThread, hpoint, Bool.false_eq_true, if_false] at h
      split at h
      · split at h <;> cases h
      · cases h
  | sawSeat =>
      simp only [customerThread, hpoint] at h
      split at h <;> cases h
  | woken =>
      simp only [customerThread, hpoint] at h
      split at h <;> cases h
  | waiting => simp
  | freed => simp
  | unserved => simpa [customerThread, hpoint] using h
  | ordered => simpa [customerThread, hpoint] using h
  | paying => simpa [customerThread, hpoint] using h
  | taking => simp [customerThread, hpoint] at h
  | standing => simp [customerThread, hpoint] at h
  | queued => simp [customerThread, hpoint] at h
  | seated => simp [customerThread, hpoint] at h
  | served => simp [customerThread, hpoint] at h
  | finished => simp [customerThread, hpoint] at h
  | paid => simp [customerThread, hpoint] at h
  | left => simp [customerThread, hpoint] at h

theorem customerThread_ne_none {split : Bool} {s : Shop Q} {c : Nat} {cu : Customer}
    (h : cu.point = .entered) : customerThread split c cu s ≠ none := by
  simp only [customerThread, h]
  split
  · split
    · simp
    · split <;> simp
  · simp

/-- Cutting the seat test in two blocks nobody and lets nobody run on. -/
theorem threadStep_eq_none_iff {split : Bool} {s : Shop Q} {thread : Thread} :
    threadStep split s thread = none ↔ threadStep false s thread = none := by
  cases thread with
  | main => rfl
  | chef k => rfl
  | customer c =>
      simp only [threadStep]
      cases s.customers[c]? with
      | none => rfl
      | some cu =>
          simp only [Option.bind_some]
          by_cases hpoint : cu.point = .entered
          · exact iff_of_false (customerThread_ne_none hpoint) (customerThread_ne_none hpoint)
          · cases h : cu.point with
            | entered => exact absurd h hpoint
            | _ => simp only [customerThread, h]

end Rest

section Lists

variable {s : Shop Lists} {stages : List Stage}

theorem popPayment_ne_none {k : Nat} (h : s.size .payment ≠ 0) : popPayment k s ≠ none := by
  unfold popPayment
  cases hhead : s.head .payment with
  | some c => simp
  | none =>
      have hnil : s.queues .payment = [] := List.head?_eq_none_iff.mp hhead
      exact absurd (congrArg List.length hnil) h

theorem popSofa_ne_none {k : Nat} (h : s.size .sofa ≠ 0) : popSofa k s ≠ none := by
  unfold popSofa
  cases hhead : s.head .sofa with
  | some c => simp
  | none =>
      have hnil : s.queues .sofa = [] := List.head?_eq_none_iff.mp hhead
      exact absurd (congrArg List.length hnil) h

theorem blocked_chef {k : Nat} {p : ChefPoint} (h : chefThread k p s = none) :
    p = .waiting ∨ p = .returned ∨
      ∃ c, p = .awaiting c ∧ ∀ cu, s.customers[c]? = some cu → cu.semStartBake = 0 := by
  cases p with
  | looping =>
      simp only [chefThread] at h
      split at h <;> cases h
  | picking =>
      simp only [chefThread] at h
      split at h
      · split at h <;> cases h
      · rename_i hsome
        split at h
        · exact absurd h (popPayment_ne_none (by omega))
        · exact absurd h (popSofa_ne_none (by omega))
  | waiting => exact .inl rfl
  | broke =>
      simp only [chefThread] at h
      split at h
      · exact absurd h (popPayment_ne_none (by omega))
      · cases h
  | brokeSofa =>
      simp only [chefThread] at h
      split at h
      · exact absurd h (popSofa_ne_none (by omega))
      · cases h
  | accepting c => cases h
  | serving c => cases h
  | awaiting c =>
      refine .inr (.inr ⟨c, rfl, fun cu hcu => ?_⟩)
      simpa [chefThread, hcu] using h
  | baking c => cases h
  | returned => exact .inr (.inl rfl)

variable (htracks : Tracks s stages) (hstuck : Stuck s)

include htracks hstuck

theorem Stuck.chef {k : Nat} {p : ChefPoint} (hk : s.chefs[k]? = some p) :
    p = .waiting ∨ p = .returned := by
  have hnone := hstuck (.chef k)
  rw [threadStep, hk, Option.bind_some] at hnone
  rcases blocked_chef hnone with hp | hp | ⟨c, rfl, hsem⟩
  · exact .inl hp
  · exact .inr hp
  · obtain ⟨st, hst, hchef⟩ := htracks.of_chef hk rfl
    obtain ⟨cu, hcu, hmatch⟩ := htracks.customer hst
    have hblocked := hstuck (.customer c)
    rw [threadStep, hcu, Option.bind_some] at hblocked
    have hcustomer := blocked_customer hblocked
    have hzero := hsem cu hcu
    obtain ⟨hpoint, hsems⟩ := hmatch
    simp only [Customer.sems, Stage.sems] at hsems
    exfalso
    generalize cu.point = point at hpoint hcustomer
    cases st <;> simp_all [Stage.chef, Stage.points]

/-- Whoever is left is asleep in the standing queue or waits in a queue for a chef. -/
theorem Stuck.stage {c : Nat} {st : Stage} (hst : stages[c]? = some st) :
    (st = .inLine ∧ ∃ cu, s.customers[c]? = some cu ∧ cu.point = .waiting) ∨
      st.line = some .sofa ∨ st.line = some .payment ∨ ∃ b k k', st = .freed b k k' := by
  obtain ⟨cu, hcu, hmatch⟩ := htracks.customer hst
  have hblocked := hstuck (.customer c)
  rw [threadStep, hcu, Option.bind_some] at hblocked
  have hcustomer := blocked_customer hblocked
  have hchef : ∀ k p, st.chef c = some (k, p) → p = .waiting ∨ p = .returned := by
    intro k p hp
    have habout : p.customer = some c := by
      cases st <;> simp [Stage.chef] at hp <;> rw [← hp.2] <;> rfl
    exact hstuck.chef htracks ((htracks.chefs k p c habout).mpr (by simp [hst, hp]))
  obtain ⟨hpoint, hsems⟩ := hmatch
  have hwaiting : cu.point = .waiting → ∃ cu, s.customers[c]? = some cu ∧ cu.point = .waiting :=
    fun h => ⟨cu, hcu, h⟩
  simp only [Customer.sems, Stage.sems] at hsems
  generalize cu.point = point at hpoint hcustomer hwaiting
  rcases hcustomer with rfl | rfl | ⟨rfl, hzero⟩ | ⟨rfl, hzero⟩ | ⟨rfl, hzero⟩ <;> cases st <;>
    simp_all [Stage.chef, Stage.points, Stage.line]

theorem Stuck.freed_of_open (hminded : Minded s) (hstaffed : Staffed s)
    (hopen : s.shutdownFlag = false) {c : Nat} {st : Stage} (hst : stages[c]? = some st) :
    ∃ b k k', st = .freed b k k' := by
  -- there is a chef, and it is asleep
  have hasleep : ChefPoint.waiting ∈ s.chefs := by
    have hlt : 0 < s.chefs.length := by rw [hstaffed.length]; decide
    have hfirst : s.chefs[0]? = some (s.chefs.get ⟨0, hlt⟩) := List.getElem?_eq_getElem hlt
    cases hstuck.chef htracks hfirst with
    | inl hwaiting => exact hwaiting ▸ List.mem_of_getElem? hfirst
    | inr hreturned =>
        have hclosed := hstaffed.done _ (List.mem_of_getElem? hfirst) (.inl hreturned)
        rw [hopen] at hclosed
        cases hclosed
  obtain ⟨hsofa, hpayment, -⟩ := hstaffed.asleep hasleep
  have hstage : ∀ {d : Nat} {st : Stage}, stages[d]? = some st →
      (st = .inLine ∧ ∃ cu, s.customers[d]? = some cu ∧ cu.point = .waiting) ∨
        ∃ b k k', st = .freed b k k' := by
    intro d st hst
    have hqueue : ∀ l, st.line = some l → d ∈ s.queues l := fun l hl =>
      htracks.files.mem_iff.mpr (Option.bind_eq_some_iff.mpr ⟨st, hst, hl⟩)
    rcases hstuck.stage htracks hst with h | h | h | h
    · exact .inl h
    · have hmem := hqueue _ h
      rw [hsofa] at hmem
      cases hmem
    · have hmem := hqueue _ h
      rw [hpayment] at hmem
      cases hmem
    · exact .inr h
  rcases hstage hst with ⟨rfl, -⟩ | hfreed
  · exfalso
    have hmem : c ∈ s.queues .standing := htracks.files.mem_iff.mpr (by simp [hst, Stage.line])
    obtain ⟨first, hfirst⟩ : ∃ first, (s.queues .standing).head? = some first :=
      ⟨_, List.head?_eq_some_head (List.ne_nil_of_mem hmem)⟩
    rcases hminded first hfirst with ⟨cu, hcu, hawake⟩ | ⟨d, cu, hcu, hbound⟩
    · obtain ⟨st, hst, hline⟩ := htracks.of_line (List.mem_of_mem_head? hfirst)
      rcases hstage hst with ⟨-, cu', hcu', hwaiting⟩ | ⟨b, k, k', rfl⟩
      · obtain rfl : cu = cu' := Option.some.inj (hcu.symm.trans hcu')
        exact hawake hwaiting
      · cases hline
    · obtain ⟨st, hst, hmatch⟩ := htracks.stage hcu
      rcases hstage hst with ⟨-, cu', hcu', hwaiting⟩ | ⟨b, k, k', rfl⟩
      · obtain rfl : cu = cu' := Option.some.inj (hcu.symm.trans hcu')
        rw [hwaiting] at hbound
        cases hbound
      · have hpoint : cu.point = .freed := by simpa [Stage.points] using hmatch.1
        rw [hpoint] at hbound
        cases hbound
  · exact hfreed

theorem Stuck.freed (hminded : Minded s) (hstaffed : Staffed s) (hsupervised : Supervised s)
    {c : Nat} {st : Stage} (hst : stages[c]? = some st) : ∃ b k k', st = .freed b k k' := by
  cases hflag : s.shutdownFlag with
  | false => exact hstuck.freed_of_open htracks hminded hstaffed hflag hst
  | true =>
      obtain ⟨cu, hcu, hmatch⟩ := htracks.customer hst
      have hfreed := hsupervised.all hflag c cu hcu
      have hpoint := hmatch.1
      rw [hfreed] at hpoint
      cases st <;> simp_all [Stage.points]

theorem Stuck.final (hminded : Minded s) (hstaffed : Staffed s) (hsupervised : Supervised s) :
    Final s := by
  have hfreed : ∀ {c : Nat} {st : Stage}, stages[c]? = some st → ∃ b k k', st = .freed b k k' :=
    fun hst => hstuck.freed htracks hminded hstaffed hsupervised hst
  have hcustomers : ∀ (c : Nat) (cu : Customer), s.customers[c]? = some cu → cu.point = .freed := by
    intro c cu hcu
    obtain ⟨st, hst, hmatch⟩ := htracks.stage hcu
    obtain ⟨b, k, k', rfl⟩ := hfreed hst
    simpa [Stage.points] using hmatch.1
  have hmain : mainThread s = none := hstuck .main
  have hclosed : s.shutdownFlag = true := by
    rw [hsupervised.shutdown]
    cases hpoint : s.main with
    | admitting =>
        exfalso
        simp only [mainThread, hpoint] at hmain
        split at hmain
        · split at hmain <;> cases hmain
        · cases hmain
    | joining i =>
        exfalso
        simp only [mainThread, hpoint] at hmain
        split at hmain
        · rename_i cu hcu
          simp [hcustomers i cu hcu] at hmain
        · cases hmain
    | joiningChefs k => exact .inl ⟨k, rfl⟩
    | returned => exact .inr rfl
  have hchefs : ∀ p ∈ s.chefs, p = .returned := by
    intro p hp
    obtain ⟨k, hk⟩ := List.mem_iff_getElem?.mp hp
    cases hstuck.chef htracks hk with
    | inl hwaiting =>
        have hopen := (hstaffed.asleep (hwaiting ▸ hp)).2.2
        rw [hclosed] at hopen
        cases hopen
    | inr hreturned => exact hreturned
  constructor
  case customers =>
    intro cu hcu
    obtain ⟨c, hc⟩ := List.mem_iff_getElem?.mp hcu
    exact hcustomers c cu hc
  case queues =>
    intro l
    have hnil : s.queues l = [] := by
      rw [List.eq_nil_iff_forall_not_mem]
      intro c hc
      obtain ⟨st, hst, hline⟩ := htracks.of_line hc
      obtain ⟨b, k, k', rfl⟩ := hfreed hst
      cases hline
    exact ⟨congrArg List.length hnil, congrArg List.head? hnil⟩
  case chefs => exact hchefs
  case main =>
    rcases hsupervised.shutdown.mp hclosed with ⟨k, hk⟩ | hreturned
    · exfalso
      simp only [mainThread, hk] at hmain
      split at hmain
      · rename_i p hp
        simp [hchefs p (List.mem_of_getElem? hp)] at hmain
      · cases hmain
    · exact hreturned

end Lists

/-! ## The runs -/

section Runs

variable {s s' : Shop Linked} {t : Shop Lists} {out : List Deed} {arrivals : List Arrival}

/-- The invariants, over the linked queues. -/
def Sound (s : Shop Linked) : Prop :=
  ∃ t stages, Refines s t ∧ Tracks t stages ∧ Minded t ∧ Staffed t ∧ Supervised t

theorem Refines.waitsInTime (h : Refines s t) {e : Event} (hguard : WaitsInTime s e) :
    WaitsInTime t e := by
  obtain ⟨hsame, hqueues⟩ := h
  rw [hsame]
  intro c cu he hcu hpoint hhead
  rw [← head_withQueues hqueues] at hhead
  exact hguard c cu he hcu hpoint hhead

theorem Refines.final (h : Refines s t) (hfinal : Final t) : Final s := by
  obtain ⟨hsame, hqueues⟩ := h
  rw [hsame] at hfinal
  refine ⟨hfinal.customers, fun l => ?_, hfinal.chefs, hfinal.main⟩
  rw [size_withQueues hqueues, head_withQueues hqueues]
  exact hfinal.queues l

theorem Refines.stuck_iff {stages : List Stage} (h : Refines s t) (htracks : Tracks t stages) :
    Stuck s ↔ Stuck t := by
  refine forall_congr' fun thread => ?_
  have hrel : Option.Rel Agree (threadStep false s thread) (threadStep false t thread) :=
    agree_step (e := .step thread) htracks h
  generalize threadStep false s thread = x at hrel ⊢
  generalize threadStep false t thread = y at hrel ⊢
  cases hrel with
  | none => simp
  | some => simp

theorem Sound.step {split : Bool} {e : Event} (h : Sound s) (hguard : WaitsInTime s e)
    (hstep : (bakery Linked split).step e s = some (s', out)) : Sound s' := by
  obtain ⟨t, stages, hrefines, htracks, hminded, hstaffed, hsupervised⟩ := h
  have hrel : Option.Rel Agree ((bakery Linked split).step e s) ((bakery Lists split).step e t) :=
    agree_step htracks hrefines
  rw [hstep] at hrel
  cases hlists : (bakery Lists split).step e t with
  | none =>
      rw [hlists] at hrel
      cases hrel
  | some y =>
      rw [hlists] at hrel
      cases hrel with
      | some hagree =>
          have hmove : Moves split e t y.1 y.2 := moves_of_step hlists
          obtain ⟨stages', htracks', -⟩ := htracks.step hmove
          exact ⟨y.1, stages', hagree.1, htracks',
            hminded.step htracks htracks' hmove (hrefines.waitsInTime hguard),
            hstaffed.step hmove, hsupervised.step hmove⟩

theorem Sound.final (h : Sound s) (hstuck : Stuck s) : Final s := by
  obtain ⟨t, stages, hrefines, htracks, hminded, hstaffed, hsupervised⟩ := h
  exact hrefines.final
    (((hrefines.stuck_iff htracks).mp hstuck).final htracks hminded hstaffed hsupervised)

theorem sound_opening (arrivals : List Arrival) : Sound (opening Linked arrivals) := by
  refine ⟨opening Lists arrivals, [], refines_opening arrivals, tracks_opening arrivals, ?_, ?_, ?_⟩
  · intro c hc
    cases hc
  · refine ⟨List.length_replicate, fun hmem => ?_, fun p hp hpoint => ?_⟩
    · cases List.eq_of_mem_replicate hmem
    · rw [List.eq_of_mem_replicate hp] at hpoint
      simp at hpoint
  · exact ⟨by simp [opening], by simp [opening], by simp [opening]⟩

end Runs

/-! ## Few arrivals -/

section Few

variable {s s' : Shop Lists} {stages : List Stage} {out : List Deed} {split : Bool}

/-- Nobody stands or is about to. -/
structure NobodyStands (s : Shop Lists) : Prop where
  queue : s.queues .standing = []
  points : ∀ (c : Nat) (cu : Customer), s.customers[c]? = some cu →
    cu.point ∉ [.standing, .queued, .waiting, .woken]

theorem NobodyStands.customerMove (h : NobodyStands s) (htracks : Tracks s stages)
    (hfew : (s.customers.length : Int) ≤ sofaSeats) {c : Nat} {cu : Customer}
    (hcu : s.customers[c]? = some cu) (hmove : CustomerMove split c cu s s' out) :
    s'.queues .standing = [] ∧ ∃ cu', s'.customers[c]? = some cu' ∧
      cu'.point ∉ [.standing, .queued, .waiting, .woken] := by
  have hpoint := h.points c cu hcu
  have hqueue := h.queue
  cases hmove with
  | decides point full =>
      exfalso
      have hsize : s.size .standing = 0 := congrArg List.length hqueue
      have hfull : sofaSeats ≤ s.sofaOccupied := Int.not_lt.mp fun hfree => full ⟨hfree, hsize⟩
      have hall : stages.countP Stage.holdsSeat = stages.length := by
        have hsofa := htracks.sofa
        have hlength := htracks.length
        have hle := List.countP_le_length (l := stages) (p := Stage.holdsSeat)
        omega
      have hst := htracks.arrived_of_point hcu (by rcases point with h | h <;> simp [h])
      have hseat := List.countP_eq_length.mp hall _ (List.mem_of_getElem? hst)
      cases hseat
  | joinsStanding point => simp [point] at hpoint
  | sleeps point => simp [point] at hpoint
  | leavesStanding point head free => simp [point] at hpoint
  | sleepsAgain point stay => simp [point] at hpoint
  | leaves point =>
      exact ⟨hqueue, { cu.wake with point := .left }, by simp [hcu], by simp⟩
  | _ => exact ⟨by simpa using hqueue, _, by simp [hcu]; rfl, by simp⟩

theorem NobodyStands.step {e : Event} (h : NobodyStands s) (htracks : Tracks s stages)
    (hfew : (s.customers.length : Int) ≤ sofaSeats) (hmove : Moves split e s s' out) :
    NobodyStands s' := by
  have hothers : ∀ (c : Nat) (cu : Customer), e ≠ .step (.customer c) → c < s.customers.length →
      s'.customers[c]? = some cu → cu.point ∉ [.standing, .queued, .waiting, .woken] := by
    intro c cu' he hlt hcu'
    have hcu : s.customers[c]? = some (s.customers.get ⟨c, hlt⟩) := List.getElem?_eq_getElem hlt
    have hpoint := h.points c _ hcu
    obtain ⟨cu, hcu₂, hsame | hwaiting⟩ := hmove.point_of_other he hcu
    · obtain rfl : cu' = cu := Option.some.inj (hcu'.symm.trans hcu₂)
      rwa [hsame]
    · rw [hwaiting] at hpoint
      simp at hpoint
  by_cases he : e = .step .main
  · subst he
    cases hmove with
    | main move =>
        refine ⟨by cases move <;> exact h.queue, fun c cu hcu => ?_⟩
        by_cases hlt : c < s.customers.length
        · exact hothers c cu (by simp) hlt hcu
        · cases move with
          | admits a rest point arrivals room =>
              rw [List.getElem?_append_right (Nat.le_of_not_lt hlt)] at hcu
              obtain rfl : cu = { id := a.id } :=
                List.mem_singleton.mp (List.mem_of_getElem? hcu)
              simp
          | _ => exact absurd (List.getElem?_eq_some_iff.mp hcu).1 hlt
  · have hlt : ∀ {c : Nat} {cu : Customer}, s'.customers[c]? = some cu →
        c < s.customers.length := by
      intro c cu hcu
      rw [← (hmove.sameMain he).length]
      exact (List.getElem?_eq_some_iff.mp hcu).1
    by_cases hcustomer : ∃ c, e = .step (.customer c)
    · obtain ⟨c, rfl⟩ := hcustomer
      obtain ⟨hqueue, cu', hcu', hpoint⟩ : s'.queues .standing = [] ∧
          ∃ cu', s'.customers[c]? = some cu' ∧
            cu'.point ∉ [.standing, .queued, .waiting, .woken] := by
        cases hmove with
        | customer _ customer move => exact h.customerMove htracks hfew customer move
      refine ⟨hqueue, fun d cu hcu => ?_⟩
      by_cases hd : d = c
      · subst hd
        obtain rfl : cu = cu' := Option.some.inj (hcu.symm.trans hcu')
        exact hpoint
      · refine hothers d cu (fun heq => hd ?_) (hlt hcu) hcu
        injection heq with heq
        injection heq with heq
        exact heq.symm
    · refine ⟨?_, fun c cu hcu => hothers c cu (fun heq => hcustomer ⟨c, heq⟩) (hlt hcu) hcu⟩
      cases hmove with
      | main move => exact absurd rfl he
      | chef k chef move => cases move <;> simpa using h.queue
      | customer c customer move => exact absurd ⟨c, rfl⟩ hcustomer
      | chefWakes k chef => exact h.queue
      | customerWakes c customer point => exact h.queue

theorem nobodyStands_of_run {arrivals : List Arrival} (hfew : (arrivals.length : Int) ≤ sofaSeats)
    {es : List Event} {t : Shop Lists} {outs : List Deed}
    (hrun : (bakery Lists split).run es (opening Lists arrivals) = some (t, outs)) :
    NobodyStands t := by
  have hall := (bakery Lists split).run_invariant_history
    (P := fun _ _ t => NobodyStands t ∧ ∃ stages, Tracks t stages)
    ⟨⟨rfl, by simp [opening]⟩, [], tracks_opening arrivals⟩ ?_ hrun
  · exact hall.1
  · rintro es e outs t t' out hrun ⟨hnobody, stages, htracks⟩ hstep
    have hmove := moves_of_step hstep
    have hle := length_customers_le hrun
    obtain ⟨stages', htracks', -⟩ := htracks.step hmove
    exact ⟨hnobody.step htracks (by omega) hmove, stages', htracks'⟩

end Few

end OxyC.Bakery
