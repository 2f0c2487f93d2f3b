import OxyC.Bakery.Service

/-!
# Every run serves its customers

The stages follow the steps of the shop, so that what has been done for a
customer is always the first part of one service.
-/

namespace OxyC.Bakery

open OxyC.Foundation

section Steps

variable {s s' : Shop Lists} {stages : List Stage} {out : List Deed} {split : Bool}

theorem Tracks.customerMove (h : Tracks s stages) {c : Nat} {cu : Customer}
    (hcu : s.customers[c]? = some cu) (hmove : CustomerMove split c cu s s' out) :
    ∃ stages', Tracks s' stages' ∧ Progress stages stages' out := by
  obtain ⟨st, hst, hmatch⟩ := h.stage hcu
  have hpoint := hmatch.1
  cases hmove with
  | seesSeat point free =>
      obtain rfl : st = .arrived := by cases st <;> simp_all [Stage.points]
      exact ⟨stages, h.remain hst fun _ _ => .goTo (by simp [Stage.points]) rfl, .stays⟩
  | findsSeat point free nobody =>
      obtain rfl : st = .arrived := by
        rcases point with point | point <;> cases st <;> simp_all [Stage.points]
      exact ⟨stages, h.remain hst fun _ _ => .goTo (by simp [Stage.points]) rfl, .stays⟩
  | decides point full =>
      obtain rfl : st = .arrived := by
        rcases point with point | point <;> cases st <;> simp_all [Stage.points]
      exact ⟨stages, h.remain hst fun _ _ => .goTo (by simp [Stage.points]) rfl, .stays⟩
  | takesSeat point =>
      obtain rfl : st = .arrived := by cases st <;> simp_all [Stage.points]
      refine ⟨_, h.advance (.seated false) hst rfl
        (fun _ _ => .goTo (by simp [Stage.points]) rfl) (h.files_same hst rfl)
        (h.chefs_same hst rfl) ?_ ?_ ?_, .advances _ hst rfl (by simp [Deed.customer])⟩
      · simp [Shop.goTo, Shop.customer, Stage.inside]
      · simp [Shop.goTo, Shop.customer, Stage.holdsSeat]
      · simp [Stage.inside]
  | joinsStanding point =>
      obtain rfl : st = .arrived := by cases st <;> simp_all [Stage.points]
      exact ⟨_, h.proceed .inLine hst rfl (fun _ _ => .goTo (by simp [Stage.points]) rfl)
        (h.files.push (by simp [hst, Stage.line]) .standing) (h.chefs_same hst rfl) rfl rfl rfl rfl,
        .advances _ hst rfl (by simp [Deed.customer])⟩
  | sleeps point =>
      obtain rfl : st = .inLine := by cases st <;> simp_all [Stage.points]
      exact ⟨stages, h.remain hst fun _ _ => .goTo (by simp [Stage.points]) rfl, .stays⟩
  | leavesStanding point head free =>
      obtain rfl : st = .inLine := by cases st <;> simp_all [Stage.points]
      refine ⟨_, h.advance (.seated true) hst rfl
        (fun _ _ => .goTo (by simp [Stage.points]) rfl) (h.files.pop head)
        (h.chefs_same hst rfl) ?_ ?_ ?_, .advances _ hst rfl (by simp [Deed.customer])⟩
      · simp [Shop.goTo, Shop.customer, Shop.pop, Stage.inside]
      · simp [Shop.goTo, Shop.customer, Stage.holdsSeat]
      · simp [Stage.inside]
  | sleepsAgain point stay =>
      obtain rfl : st = .inLine := by cases st <;> simp_all [Stage.points]
      exact ⟨stages, h.remain hst fun _ _ => .goTo (by simp [Stage.points]) rfl, .stays⟩
  | joinsSofa point =>
      obtain ⟨b, rfl⟩ : ∃ b, st = .seated b := by cases st <;> simp_all [Stage.points]
      exact ⟨_, h.broadcastChefCv.proceed (.onSofa b) hst rfl
        (fun _ _ => .goTo (by simp [Stage.points]) rfl)
        (h.files.push (by simp [hst, Stage.line]) .sofa) (h.broadcastChefCv.chefs_same hst rfl)
        rfl rfl rfl rfl, .advances _ hst rfl (by simp [Deed.customer])⟩
  | isServed point post =>
      obtain ⟨b, k, rfl⟩ : ∃ b k, st = .offered b k := by
        have hsems := hmatch.2
        cases st <;> simp_all [Stage.points, Stage.sems, Customer.sems]
      exact ⟨_, h.alone (.served b k) hst
        (fun _ _ hold =>
          ⟨by simp [Stage.points], by simp_all [Stage.Matches, Stage.sems, Customer.sems]⟩)
        rfl rfl rfl rfl,
        .advances _ hst (List.append_nil _).symm (by simp)⟩
  | requests point =>
      obtain ⟨b, k, rfl⟩ : ∃ b k, st = .served b k := by cases st <;> simp_all [Stage.points]
      exact ⟨_, h.alone (.ordered b k) hst
        (fun _ _ hold =>
          ⟨by simp [Stage.points], by simp_all [Stage.Matches, Stage.sems, Customer.sems]⟩)
        rfl rfl rfl rfl,
        .advances _ hst (by simp [Stage.history]) (by simp [Deed.customer])⟩
  | getsCake point post =>
      obtain ⟨b, k, rfl⟩ : ∃ b k, st = .baked b k := by
        have hsems := hmatch.2
        cases st <;> simp_all [Stage.points, Stage.sems, Customer.sems]
      exact ⟨_, h.alone (.finished b k) hst
        (fun _ _ hold =>
          ⟨by simp [Stage.points], by simp_all [Stage.Matches, Stage.sems, Customer.sems]⟩)
        rfl rfl rfl rfl,
        .advances _ hst (List.append_nil _).symm (by simp)⟩
  | joinsPayment point =>
      obtain ⟨b, k, rfl⟩ : ∃ b k, st = .finished b k := by
        cases st <;> simp_all [Stage.points]
      exact ⟨_, h.broadcastChefCv.proceed (.paying b k) hst rfl
        (fun _ _ => .goTo (by simp [Stage.points]) rfl)
        (h.files.push (by simp [hst, Stage.line]) .payment) (h.broadcastChefCv.chefs_same hst rfl)
        rfl rfl rfl rfl, .advances _ hst rfl (by simp [Deed.customer])⟩
  | hasPaid point post =>
      obtain ⟨b, k, k', rfl⟩ : ∃ b k k', st = .settled b k k' := by
        have hsems := hmatch.2
        cases st <;> simp_all [Stage.points, Stage.sems, Customer.sems]
      exact ⟨_, h.alone (.paid b k k') hst
        (fun _ _ hold =>
          ⟨by simp [Stage.points], by simp_all [Stage.Matches, Stage.sems, Customer.sems]⟩)
        rfl rfl rfl rfl,
        .advances _ hst (List.append_nil _).symm (by simp)⟩
  | leaves point =>
      obtain ⟨b, k, k', rfl⟩ : ∃ b k k', st = .paid b k k' := by
        cases st <;> simp_all [Stage.points]
      have hawake := h.broadcastStandingCv.broadcastChefCv
      refine ⟨_, hawake.advance (.left b k k') hst rfl
        (fun _ _ => .goTo (by simp [Stage.points]) rfl) (hawake.files_same hst rfl)
        (hawake.chefs_same hst rfl) ?_ ?_ ?_,
        .advances _ hst (by simp [Stage.history]) (by simp [Deed.customer])⟩
      · simp [Shop.goTo, Shop.customer, Shop.broadcastChefCv, Shop.broadcastStandingCv,
          Stage.inside]
      · simp [Shop.goTo, Shop.customer, Shop.broadcastChefCv, Shop.broadcastStandingCv,
          Stage.holdsSeat]
      · simp [Stage.inside]
  | frees point =>
      obtain ⟨b, k, k', rfl⟩ : ∃ b k k', st = .left b k k' := by
        cases st <;> simp_all [Stage.points]
      exact ⟨_, h.alone (.freed b k k') hst
        (fun _ _ => .goTo (by simp [Stage.points]) rfl) rfl rfl rfl rfl,
        .advances _ hst (by simp [Stage.history, lifecycle, checkout]) (by simp [Deed.customer])⟩

theorem Tracks.chefMove (h : Tracks s stages) {k : Nat} {p : ChefPoint}
    (hk : s.chefs[k]? = some p) (hmove : ChefMove k p s s' out) :
    ∃ stages', Tracks s' stages' ∧ Progress stages stages' out := by
  cases hmove with
  | looks point running =>
      subst point
      exact ⟨stages, h.chefTo hk rfl rfl, .stays⟩
  | returns point closed =>
      subst point
      exact ⟨stages, h.chefTo hk rfl rfl, .stays⟩
  | waits point payment sofa running =>
      subst point
      exact ⟨stages, h.chefTo hk rfl rfl, .stays⟩
  | breaks point closed =>
      subst point
      exact ⟨stages, h.chefTo hk rfl rfl, .stays⟩
  | findsNoPayment point =>
      subst point
      exact ⟨stages, h.chefTo hk rfl rfl, .stays⟩
  | findsNoSofa point =>
      subst point
      exact ⟨stages, h.chefTo hk rfl rfl, .stays⟩
  | takes c point head =>
      have hfree : p.customer = none := by rcases point with rfl | rfl <;> rfl
      obtain ⟨st, hst, hline⟩ := h.of_line (List.mem_of_mem_head? head)
      obtain ⟨b, rfl⟩ : ∃ b, st = .onSofa b := by cases st <;> simp_all [Stage.line]
      have hset := h.chefs.set (.serving c) hk c (by simp [hfree])
        (by simp [ChefPoint.customer]) (by simp [hst, hfree, Stage.chef])
      exact ⟨_, h.proceed (.picked b k) hst (List.modify_id _ _).symm
        (fun _ _ hold => hold) (h.files.pop head) hset rfl rfl rfl rfl,
        .advances _ hst (by simp [Stage.history]) (by simp [Deed.customer])⟩
  | bills c point head =>
      have hfree : p.customer = none := by rcases point with rfl | rfl <;> rfl
      obtain ⟨st, hst, hline⟩ := h.of_line (List.mem_of_mem_head? head)
      obtain ⟨b, k₀, rfl⟩ : ∃ b k₀, st = .paying b k₀ := by
        cases st <;> simp_all [Stage.line]
      have hset := h.chefs.set (.accepting c) hk c (by simp [hfree])
        (by simp [ChefPoint.customer]) (by simp [hst, hfree, Stage.chef])
      exact ⟨_, h.proceed (.billed b k₀ k) hst (List.modify_id _ _).symm
        (fun _ _ hold => hold) (h.files.pop head) hset rfl rfl rfl rfl,
        .advances _ hst (by simp [Stage.history]) (by simp [Deed.customer])⟩
  | accepts c point =>
      subst point
      obtain ⟨st, hst, hchef⟩ := h.of_chef hk rfl
      obtain ⟨b, k₀, rfl⟩ : ∃ b k₀, st = .billed b k₀ k := by
        cases st <;> simp_all [Stage.chef]
      have hset := h.chefs.set .looping hk c (by simp [ChefPoint.customer])
        (by simp [ChefPoint.customer]) (by simp [hst, ChefPoint.customer, Stage.chef])
      exact ⟨_, h.proceed (.settled b k₀ k) hst rfl
        (fun _ _ hold => ⟨hold.1, by simp_all [Stage.Matches, Stage.sems, Customer.sems]⟩)
        (h.files_same hst rfl) hset rfl rfl rfl rfl,
        .advances _ hst (by simp [Stage.history]) (by simp [Deed.customer])⟩
  | serves c point =>
      subst point
      obtain ⟨st, hst, hchef⟩ := h.of_chef hk rfl
      obtain ⟨b, rfl⟩ : ∃ b, st = .picked b k := by cases st <;> simp_all [Stage.chef]
      have hset := h.chefs.set (.awaiting c) hk c (by simp [ChefPoint.customer])
        (by simp [ChefPoint.customer]) (by simp [hst, ChefPoint.customer, Stage.chef])
      exact ⟨_, h.proceed (.offered b k) hst rfl
        (fun _ _ hold => ⟨hold.1, by simp_all [Stage.Matches, Stage.sems, Customer.sems]⟩)
        (h.files_same hst rfl) hset rfl rfl rfl rfl,
        .advances _ hst (List.append_nil _).symm (by simp)⟩
  | bakes c cu point customer post =>
      subst point
      obtain ⟨st, hst, hchef⟩ := h.of_chef hk rfl
      obtain ⟨st₀, hst₀, hmatch⟩ := h.stage customer
      obtain rfl : st = st₀ := Option.some.inj (hst.symm.trans hst₀)
      obtain ⟨b, rfl⟩ : ∃ b, st = .ordered b k := by
        have hsems := hmatch.2
        cases st <;> simp_all [Stage.chef, Stage.sems, Customer.sems]
      have hset := h.chefs.set (.baking c) hk c (by simp [ChefPoint.customer])
        (by simp [ChefPoint.customer]) (by simp [hst, ChefPoint.customer, Stage.chef])
      exact ⟨_, h.proceed (.baking b k) hst rfl
        (fun _ _ hold => ⟨hold.1, by simp_all [Stage.Matches, Stage.sems, Customer.sems]⟩)
        (h.files_same hst rfl) hset rfl rfl rfl rfl,
        .advances _ hst (by simp [Stage.history]) (by simp [Deed.customer])⟩
  | finishesCake c point =>
      subst point
      obtain ⟨st, hst, hchef⟩ := h.of_chef hk rfl
      obtain ⟨b, rfl⟩ : ∃ b, st = .baking b k := by cases st <;> simp_all [Stage.chef]
      have hset := h.chefs.set .looping hk c (by simp [ChefPoint.customer])
        (by simp [ChefPoint.customer]) (by simp [hst, ChefPoint.customer, Stage.chef])
      exact ⟨_, h.proceed (.baked b k) hst rfl
        (fun _ _ hold => ⟨hold.1, by simp_all [Stage.Matches, Stage.sems, Customer.sems]⟩)
        (h.files_same hst rfl) hset rfl rfl rfl rfl,
        .advances _ hst (by simp [Stage.history, service]) (by simp [Deed.customer])⟩

theorem Tracks.admit (h : Tracks s stages) (a : Arrival) (rest : List Arrival)
    (hroom : s.currentCustomers < maxCapacity) :
    Tracks { s with
      arrivals := rest
      customers := s.customers ++ [{ id := a.id }]
      currentCustomers := s.currentCustomers + 1 } (stages ++ [.arrived]) where
  customers := by
    intro c
    have hrel := h.customers c
    have hlength := h.length
    rcases Nat.lt_trichotomy c stages.length with hlt | heq | hgt
    · simpa [List.getElem?_append_left hlt, List.getElem?_append_left (hlength ▸ hlt)] using hrel
    · subst heq
      have hlast : (s.customers ++ [{ id := a.id }])[stages.length]? = some { id := a.id } := by
        rw [← hlength, List.getElem?_concat_length]
      rw [hlast, List.getElem?_concat_length]
      exact .some ⟨by simp [Stage.points], rfl⟩
    · rw [List.getElem?_eq_none (by simp; omega), List.getElem?_eq_none (by simp; omega)]
      exact .none
  files := by
    refine h.files.congr fun c => ?_
    rcases Nat.lt_trichotomy c stages.length with hlt | heq | hgt
    · rw [List.getElem?_append_left hlt]
    · subst heq
      simp [Stage.line]
    · rw [List.getElem?_eq_none (by simp; omega), List.getElem?_eq_none (by omega)]
  chefs := by
    refine h.chefs.congr fun c => ?_
    rcases Nat.lt_trichotomy c stages.length with hlt | heq | hgt
    · rw [List.getElem?_append_left hlt]
    · subst heq
      simp [Stage.chef]
    · rw [List.getElem?_eq_none (by simp; omega), List.getElem?_eq_none (by omega)]
  current := by simp [h.current, Stage.inside]
  sofa := by simp [h.sofa, Stage.holdsSeat]
  capacity := by
    simp only
    omega

theorem Tracks.mainMove (h : Tracks s stages) (hmove : MainMove s s' out) :
    ∃ stages', Tracks s' stages' ∧ Progress stages stages' out := by
  cases hmove with
  | turnsAway a rest point arrivals full => exact ⟨stages, { h with }, .stays⟩
  | admits a rest point arrivals room =>
      rw [h.length]
      exact ⟨_, h.admit a rest room, .admits⟩
  | stopsAdmitting point arrivals => exact ⟨stages, { h with }, .stays⟩
  | joins i cu point customer freed => exact ⟨stages, { h with }, .stays⟩
  | closes i point all => exact ⟨stages, { h.broadcastChefCv with }, .stays⟩
  | joinsChef k point chef => exact ⟨stages, { h with }, .stays⟩
  | returns k point all => exact ⟨stages, { h with }, .stays⟩

/-- A step takes at most one customer to another stage. -/
theorem Tracks.step {e : Event} (h : Tracks s stages) (hmove : Moves split e s s' out) :
    ∃ stages', Tracks s' stages' ∧ Progress stages stages' out := by
  cases hmove with
  | main move => exact h.mainMove move
  | chef k chef move => exact h.chefMove chef move
  | customer c customer move => exact h.customerMove customer move
  | chefWakes k chef => exact ⟨stages, h.chefTo chef rfl rfl, .stays⟩
  | customerWakes c customer point =>
      obtain ⟨st, hst, hmatch⟩ := h.stage customer
      obtain rfl : st = .inLine := by
        have hpoint := hmatch.1
        cases st <;> simp_all [Stage.points]
      exact ⟨stages, h.remain hst fun _ _ => .goTo (by simp [Stage.points]) rfl, .stays⟩

end Steps

/-! ## The runs -/

section Runs

variable {split : Bool} {stages stages' : List Stage} {outs out : List Deed}

/-- What has been done for each customer is what its stage says. -/
def Recorded (outs : List Deed) (stages : List Stage) : Prop :=
  ∀ c : Nat, outs.filter (·.customer = c) = (stages[c]?.map (Stage.history c)).getD []

theorem Recorded.progress (h : Recorded outs stages) (hprogress : Progress stages stages' out) :
    Recorded (outs ++ out) stages' := by
  intro c
  rw [List.filter_append, h c]
  cases hprogress with
  | stays => simp
  | admits =>
      rcases Nat.lt_trichotomy c stages.length with hlt | heq | hgt
      · simp [List.getElem?_append_left hlt, Deed.customer, Nat.ne_of_gt hlt]
      · subst heq
        simp [Deed.customer, Stage.history]
      · rw [List.getElem?_eq_none (Nat.le_of_lt hgt), List.getElem?_eq_none (by simp; omega)]
        simp [Deed.customer, Nat.ne_of_lt hgt]
  | @advances d st st' _ hst hhistory habout =>
      obtain ⟨hlt, -⟩ := List.getElem?_eq_some_iff.mp hst
      by_cases hc : c = d
      · subst hc
        have hout : out.filter (·.customer = c) = out :=
          List.filter_eq_self.mpr fun deed hdeed => by simp [habout deed hdeed]
        rw [hst, List.getElem?_set_self hlt, hout]
        exact hhistory.symm
      · have hout : out.filter (·.customer = c) = [] :=
          List.filter_eq_nil_iff.mpr fun deed hdeed => by simp [habout deed hdeed, Ne.symm hc]
        rw [List.getElem?_set_ne (Ne.symm hc), hout, List.append_nil]

theorem Recorded.mem_iff (h : Recorded outs stages) {d : Deed} :
    d ∈ outs ↔ ∃ st, stages[d.customer]? = some st ∧ d ∈ st.history d.customer := by
  have hfilter : d ∈ outs ↔ d ∈ outs.filter (·.customer = d.customer) := by simp
  rw [hfilter, h]
  cases stages[d.customer]? with
  | none => simp
  | some st => simp

theorem tracks_opening (arrivals : List Arrival) : Tracks (opening Lists arrivals) [] where
  customers _ := .none
  files := ⟨fun _ => List.nodup_nil, by simp [opening, Queues.qInit]⟩
  chefs := by
    intro k p c hp
    simp only [opening, List.getElem?_replicate, List.getElem?_nil, Option.bind_none,
      reduceCtorEq, iff_false]
    split
    · rintro ⟨⟩
      cases hp
    · simp
  current := rfl
  sofa := rfl
  capacity := by simp [opening, maxCapacity]

theorem exists_tracks {arrivals : List Arrival} {es : List Event} {t : Shop Lists}
    (hrun : (bakery Lists split).run es (opening Lists arrivals) = some (t, outs)) :
    ∃ stages, Tracks t stages ∧ Recorded outs stages := by
  refine (bakery Lists split).run_invariant_history
    (P := fun _ outs t => ∃ stages, Tracks t stages ∧ Recorded outs stages)
    ⟨[], tracks_opening arrivals, fun c => by simp⟩ ?_ hrun
  rintro es e outs t t' out - ⟨stages, htracks, hrecorded⟩ hstep
  obtain ⟨stages', htracks', hprogress⟩ := htracks.step (moves_of_step hstep)
  exact ⟨stages', htracks', hrecorded.progress hprogress⟩

end Runs

end OxyC.Bakery
