import OxyC.Bakery.ServiceOnce

/-!
# The order of the seats

The standing queue is left at the head only, and an arrival that finds somebody
in it joins it.
-/

namespace OxyC.Bakery

open OxyC.Foundation

variable {split : Bool} {stages : List Stage} {outs out : List Deed}

inductive SeatStep (s s' : Shop Lists) : List Deed → Prop where
  | neither {out : List Deed} (queue : s'.queues .standing = s.queues .standing)
      (quiet : ∀ c, .stands c ∉ out ∧ .sits c ∉ out) : SeatStep s s' out
  | fromEntry (c : Nat) (cu : Customer) (customer : s.customers[c]? = some cu)
      (point : cu.point = .taking) (queue : s'.queues .standing = s.queues .standing) :
      SeatStep s s' [.sits c]
  | joins (c : Nat) (cu : Customer) (customer : s.customers[c]? = some cu)
      (point : cu.point = .standing) (queue : s'.queues .standing = s.queues .standing ++ [c]) :
      SeatStep s s' [.stands c]
  | fromQueue (c : Nat) (queue : s.queues .standing = c :: s'.queues .standing) :
      SeatStep s s' [.sits c]

theorem Moves.seatStep {e : Event} {s s' : Shop Lists} (hmove : Moves split e s s' out) :
    SeatStep s s' out := by
  cases hmove with
  | main move => cases move <;> exact .neither rfl (by simp)
  | chefWakes k chef => exact .neither rfl (by simp)
  | customerWakes c customer point => exact .neither rfl (by simp)
  | chef k chef move =>
      cases move with
      | bills c point head =>
          exact .neither (by simp) (by simp)
      | takes c point head =>
          exact .neither (by simp) (by simp)
      | _ => exact .neither rfl (by simp)
  | @customer c _ _ cu _ customer move =>
      cases move with
      | takesSeat point => exact .fromEntry c cu customer point rfl
      | joinsStanding point =>
          exact .joins c cu customer point (by simp)
      | leavesStanding point head free =>
          refine .fromQueue c ?_
          simpa using List.eq_cons_of_mem_head? head
      | joinsSofa point => exact .neither (by simp) (by simp)
      | joinsPayment point => exact .neither (by simp) (by simp)
      | _ => exact .neither rfl (by simp)

/-! ## First come, first seated -/

/-- The customers that joined the standing queue, in order. -/
def standers (outs : List Deed) : List Nat :=
  outs.filterMap fun
    | .stands c => some c
    | _ => none

/-- The customers that took a seat, in order. -/
def sitters (outs : List Deed) : List Nat :=
  outs.filterMap fun
    | .sits c => some c
    | _ => none

theorem mem_standers {c : Nat} : c ∈ standers outs ↔ .stands c ∈ outs := by
  rw [standers, List.mem_filterMap]
  constructor
  · rintro ⟨d, hd, hc⟩
    cases d <;> simp_all
  · intro hc
    exact ⟨_, hc, rfl⟩

theorem mem_sitters {c : Nat} : c ∈ sitters outs ↔ .sits c ∈ outs := by
  rw [sitters, List.mem_filterMap]
  constructor
  · rintro ⟨d, hd, hc⟩
    cases d <;> simp_all
  · intro hc
    exact ⟨_, hc, rfl⟩

theorem standers_append (outs out : List Deed) :
    standers (outs ++ out) = standers outs ++ standers out := List.filterMap_append

theorem sitters_append (outs out : List Deed) :
    sitters (outs ++ out) = sitters outs ++ sitters out := List.filterMap_append

/-- The standers that have a seat, and behind them those that do not. -/
def FirstCome (outs : List Deed) (s : Shop Lists) : Prop :=
  standers outs = (sitters outs).filter (· ∈ standers outs) ++ s.queues .standing

section Steps

variable {s s' : Shop Lists} {e c : Nat}

theorem Recorded.notMem_of_arrived (h : Recorded outs stages) (hst : stages[c]? = some .arrived) :
    c ∉ standers outs ∧ c ∉ sitters outs := by
  rw [mem_standers, mem_sitters, h.mem_iff, h.mem_iff]
  simp [Deed.customer, hst, Stage.history]

theorem Recorded.mem_of_inLine (h : Recorded outs stages) (hst : stages[c]? = some .inLine) :
    c ∈ standers outs := by
  rw [mem_standers, h.mem_iff]
  exact ⟨.inLine, hst, by simp [Stage.history, Deed.customer]⟩

theorem FirstCome.step (h : FirstCome outs s) (htracks : Tracks s stages)
    (hrecorded : Recorded outs stages) (hstep : SeatStep s s' out) :
    FirstCome (outs ++ out) s' := by
  unfold FirstCome at h ⊢
  rw [standers_append, sitters_append]
  cases hstep with
  | neither queue quiet =>
      have hstanders : standers out = [] :=
        List.eq_nil_iff_forall_not_mem.mpr fun c hc => (quiet c).1 (mem_standers.mp hc)
      have hsitters : sitters out = [] :=
        List.eq_nil_iff_forall_not_mem.mpr fun c hc => (quiet c).2 (mem_sitters.mp hc)
      rw [hstanders, hsitters, List.append_nil, List.append_nil, queue]
      exact h
  | fromEntry c cu customer point queue =>
      have hnot := (hrecorded.notMem_of_arrived
        (htracks.arrived_of_point customer (by simp [point]))).1
      have hstanders : standers [.sits c] = [] := rfl
      have hsitters : sitters [.sits c] = [c] := rfl
      rw [hstanders, hsitters, List.append_nil, queue, List.filter_append,
        List.filter_singleton]
      simpa [hnot] using h
  | joins c cu customer point queue =>
      have hnot := (hrecorded.notMem_of_arrived
        (htracks.arrived_of_point customer (by simp [point]))).2
      have hstanders : standers [.stands c] = [c] := rfl
      have hsitters : sitters [.stands c] = [] := rfl
      have hfilter : (sitters outs).filter (· ∈ standers outs ++ [c]) =
          (sitters outs).filter (· ∈ standers outs) := by
        refine List.filter_congr fun d hd => ?_
        have hne : d ≠ c := by
          rintro rfl
          exact hnot hd
        simp [hne]
      rw [hstanders, hsitters, List.append_nil, queue, hfilter, ← List.append_assoc, ← h]
  | fromQueue c queue =>
      have hmem : c ∈ standers outs :=
        hrecorded.mem_of_inLine (htracks.inLine_iff.mp (queue ▸ List.mem_cons_self))
      have hstanders : standers [.sits c] = [] := rfl
      have hsitters : sitters [.sits c] = [c] := rfl
      rw [hstanders, hsitters, List.append_nil, List.filter_append, List.filter_singleton]
      rw [queue] at h
      simpa [hmem] using h

/-! ## No overtaking -/

/-- Customer `e` stands, and `c` has not passed the seat test or stands behind it. -/
def Behind (e c : Nat) (s : Shop Lists) : Prop :=
  e ∈ s.queues .standing ∧
    ((∃ cu, s.customers[c]? = some cu ∧ cu.point ∈ [.entered, .sawSeat, .standing]) ∨
      [e, c].Sublist (s.queues .standing))

theorem Behind.notMem_sits (h : Behind e c s) (htracks : Tracks s stages)
    (hstep : SeatStep s s' out) : .sits c ∉ out := by
  intro hsits
  -- neither customer that can take a seat is `c`
  have hentry : ∀ cu, s.customers[c]? = some cu → cu.point ≠ .taking := by
    intro cu hcu hpoint
    have harrived := htracks.arrived_of_point hcu (by simp [hpoint])
    rcases h.2 with ⟨cu', hcu', hpoint'⟩ | hsub
    · obtain rfl : cu = cu' := Option.some.inj (hcu.symm.trans hcu')
      simp [hpoint] at hpoint'
    · have hin := htracks.inLine_iff.mp (hsub.subset (by simp : c ∈ [e, c]))
      rw [harrived] at hin
      cases hin
  have hqueue : ∀ rest, s.queues .standing ≠ c :: rest := by
    intro rest hcons
    have hmem : c ∈ s.queues .standing := hcons ▸ List.mem_cons_self
    rcases h.2 with ⟨cu, hcu, hpoint⟩ | hsub
    · have harrived := htracks.arrived_of_point hcu (by simp at hpoint ⊢; tauto)
      rw [htracks.inLine_iff, harrived] at hmem
      cases hmem
    · have hnodup := htracks.files.nodup .standing
      rw [hcons, List.nodup_cons] at hnodup
      rw [hcons] at hsub
      cases hsub with
      | cons _ hrest => exact hnodup.1 (hrest.subset (by simp))
      | cons_cons _ hrest => exact hnodup.1 (hrest.subset (by simp))
  cases hstep with
  | neither queue quiet => exact (quiet c).2 hsits
  | fromEntry d cu customer point queue =>
      obtain rfl : c = d := by simpa using hsits
      exact hentry cu customer point
  | joins d cu customer point queue => simp at hsits
  | fromQueue d queue =>
      obtain rfl : c = d := by simpa using hsits
      exact hqueue _ queue

/-- The queue of a customer that has joined it behind `e`, after a step. -/
theorem SeatStep.sublist (hstep : SeatStep s s' out) (he : .sits e ∉ out)
    (hsub : [e, c].Sublist (s.queues .standing)) : [e, c].Sublist (s'.queues .standing) := by
  cases hstep with
  | neither queue quiet => rwa [queue]
  | fromEntry d cu customer point queue => rwa [queue]
  | joins d cu customer point queue =>
      rw [queue]
      exact hsub.trans (List.sublist_append_left _ _)
  | fromQueue d queue =>
      rw [queue] at hsub
      cases hsub with
      | cons _ hrest => exact hrest
      | cons_cons _ hrest => simp at he

theorem SeatStep.mem (hstep : SeatStep s s' out) (he : .sits e ∉ out)
    (hmem : e ∈ s.queues .standing) : e ∈ s'.queues .standing := by
  cases hstep with
  | neither queue quiet => rwa [queue]
  | fromEntry d cu customer point queue => rwa [queue]
  | joins d cu customer point queue =>
      rw [queue]
      exact List.mem_append_left _ hmem
  | fromQueue d queue =>
      rw [queue] at hmem
      have hne : e ≠ d := by simpa using he
      exact (List.mem_cons.mp hmem).resolve_left hne

/-- While `e` stands, the seat test sends `c` to the standing queue. -/
theorem CustomerMove.behind {cu : Customer} (hmove : CustomerMove split c cu s s' out)
    (hcu : s.customers[c]? = some cu) (hpoint : cu.point ∈ [.entered, .sawSeat, .standing])
    (he : e ∈ s.queues .standing) :
    (∃ cu', s'.customers[c]? = some cu' ∧ cu'.point ∈ [.entered, .sawSeat, .standing]) ∨
      [e, c].Sublist (s'.queues .standing) := by
  cases hmove with
  | seesSeat point free => exact .inl ⟨{ cu with point := .sawSeat }, by simp [hcu], by simp⟩
  | decides point full => exact .inl ⟨{ cu with point := .standing }, by simp [hcu], by simp⟩
  | findsSeat point free nobody =>
      have hnil : s.queues .standing = [] := List.eq_nil_of_length_eq_zero nobody
      rw [hnil] at he
      cases he
  | joinsStanding point =>
      have hsub := List.Sublist.append (List.singleton_sublist.mpr he) (List.Sublist.refl [c])
      exact .inr (by simpa using hsub)
  | _ => simp_all

theorem Behind.step {ev : Event} (h : Behind e c s) (hmove : Moves split ev s s' out)
    (he : .sits e ∉ out) : Behind e c s' := by
  refine ⟨hmove.seatStep.mem he h.1, ?_⟩
  rcases h.2 with ⟨cu, hcu, hpoint⟩ | hsub
  · by_cases hself : ev = .step (.customer c)
    · subst hself
      cases hmove with
      | @customer _ _ _ cu' _ customer move =>
          have hsame : cu' = cu := Option.some.inj (customer.symm.trans hcu)
          rw [hsame] at move
          exact move.behind hcu hpoint h.1
    · obtain ⟨cu', hcu', hsame | hwaiting⟩ := hmove.point_of_other hself hcu
      · exact .inl ⟨cu', hcu', hsame ▸ hpoint⟩
      · simp [hwaiting] at hpoint
  · exact .inr (hmove.seatStep.sublist he hsub)

/-- No seat is taken by `c` before one is taken by `e`. -/
def SitsFirst (e c : Nat) (outs : List Deed) : Prop :=
  ∀ before after, outs = before ++ .sits c :: after → .sits e ∈ before

theorem SitsFirst.append (h : SitsFirst e c outs) (hout : .sits e ∈ outs ∨ .sits c ∉ out) :
    SitsFirst e c (outs ++ out) := by
  intro before after heq
  rcases List.append_eq_append_iff.mp heq with ⟨mid, hbefore, hmid⟩ | ⟨mid, houts, hmid⟩
  · rw [hbefore]
    refine List.mem_append_left _ (hout.resolve_right fun hnot => hnot ?_)
    rw [hmid]
    simp
  · cases mid with
    | nil =>
        simp only [List.nil_append] at hmid
        rw [List.append_nil] at houts
        rw [← houts]
        refine hout.resolve_right fun hnot => hnot ?_
        rw [← hmid]
        simp
    | cons d mid =>
        simp only [List.cons_append, List.cons.injEq] at hmid
        obtain ⟨rfl, -⟩ := hmid
        exact h before mid houts

end Steps

section Runs

variable {arrivals : List Arrival} {es es' : List Event} {outs' : List Deed} {e c : Nat}

theorem firstCome_of_run {t : Shop Lists}
    (hrun : (bakery Lists split).run es (opening Lists arrivals) = some (t, outs)) :
    FirstCome outs t := by
  have hall := (bakery Lists split).run_invariant_history
    (P := fun _ outs t => FirstCome outs t ∧ ∃ stages, Tracks t stages ∧ Recorded outs stages)
    (s := opening Lists arrivals) ⟨rfl, [], tracks_opening arrivals, fun c => by simp⟩ ?_ hrun
  · exact hall.1
  · rintro es e outs t t' out - ⟨hfirst, stages, htracks, hrecorded⟩ hstep
    have hmove := moves_of_step hstep
    obtain ⟨stages', htracks', hprogress⟩ := htracks.step hmove
    exact ⟨hfirst.step htracks hrecorded hmove.seatStep, stages', htracks',
      hrecorded.progress hprogress⟩

theorem sitsFirst_of_run {s t : Shop Lists} (htracks : Tracks s stages)
    (hbehind : Behind e c s) (hsits : .sits c ∉ outs)
    (hrun : (bakery Lists split).run es s = some (t, outs')) : SitsFirst e c (outs ++ outs') := by
  have hstart : SitsFirst e c outs := by
    rintro before after rfl
    simp at hsits
  have hall := (bakery Lists split).run_invariant_history
    (P := fun _ outs' t => SitsFirst e c (outs ++ outs') ∧
      (.sits e ∈ outs ++ outs' ∨ Behind e c t) ∧ ∃ stages, Tracks t stages)
    ⟨by simpa using hstart, .inr hbehind, stages, htracks⟩ ?_ hrun
  · exact hall.1
  · rintro es ev outs' t t' out - ⟨hfirst, hstatus, stages, htracks⟩ hstep
    have hmove := moves_of_step hstep
    obtain ⟨stages', htracks', -⟩ := htracks.step hmove
    rw [← List.append_assoc]
    refine ⟨hfirst.append ?_, ?_, stages', htracks'⟩
    · exact hstatus.imp_right fun h => h.notMem_sits htracks hmove.seatStep
    · rcases hstatus with hsat | h
      · exact .inl (List.mem_append_left _ hsat)
      · by_cases he : .sits e ∈ out
        · exact .inl (List.mem_append_right _ he)
        · exact .inr (h.step hmove he)

/--
Those who stood take seats in the order in which they joined the standing queue, and a customer
that has not begun its seat test while `e` stands there never takes a seat before `e` does.
-/
theorem no_overtaking {s t : Shop Linked}
    (hrun : (bakery Linked split).run es (opening Linked arrivals) = some (s, outs))
    (hrest : (bakery Linked split).run es' s = some (t, outs')) :
    (sitters (outs ++ outs')).filter (· ∈ standers (outs ++ outs')) <+: standers (outs ++ outs') ∧
      ∀ c cu e, s.customers[c]? = some cu → cu.point = .entered → s.queues.Holds .standing e →
        SitsFirst e c (outs ++ outs') := by
  have hall : (bakery Linked split).run (es ++ es') (opening Linked arrivals) =
      some (t, outs ++ outs') :=
    (bakery Linked split).run_append.mpr ⟨s, outs, outs', hrun, hrest, rfl⟩
  obtain ⟨t₂, hall₂, -⟩ := exists_lists hall
  constructor
  · exact ⟨_, (firstCome_of_run hall₂).symm⟩
  · intro c cu e hcu hpoint hholds
    obtain ⟨s₂, hrun₂, hrefines⟩ := exists_lists hrun
    obtain ⟨stages, htracks, hrecorded⟩ := exists_tracks hrun₂
    have hcu₂ : s₂.customers[c]? = some cu := by
      rw [hrefines.same]
      exact hcu
    have harrived := htracks.arrived_of_point hcu₂ (by simp [hpoint])
    have hbehind : Behind e c s₂ :=
      ⟨hrefines.holds_iff.mp hholds, .inl ⟨cu, hcu₂, by simp [hpoint]⟩⟩
    have hsits : .sits c ∉ outs := fun h =>
      (hrecorded.notMem_of_arrived harrived).2 (mem_sitters.mpr h)
    obtain ⟨s₃, outs₃, rest, hrun₃, hrest₃, heq⟩ := (bakery Lists split).run_append.mp hall₂
    rw [hrun₂, Option.some.injEq, Prod.mk.injEq] at hrun₃
    obtain ⟨rfl, rfl⟩ := hrun₃
    rw [heq]
    exact sitsFirst_of_run htracks hbehind hsits hrest₃

end Runs

/-- Four customers sit, the fifth stands and the sixth enters. -/
def fullSofa : List Thread :=
  List.replicate 6 .main ++
    [.customer 0, .customer 0, .customer 1, .customer 1, .customer 2, .customer 2, .customer 3,
      .customer 3, .customer 4, .customer 4]

/-- The sixth stands too, and two seats become free. -/
def twoLeave : List Thread :=
  [.customer 5, .customer 5, .customer 5, .customer 4] ++ errand 0 ++
    [.customer 5, .customer 4] ++ errand 1 ++ [.customer 5]

theorem no_overtaking_sixth :
    ∃ s outs t outs',
      (bakery Linked false).run (fullSofa.map .step)
        (opening Linked (List.replicate 6 ⟨0, 0⟩)) = some (s, outs) ∧
      (bakery Linked false).run (twoLeave.map .step) s = some (t, outs') ∧
      sitters (outs ++ outs') = [0, 1, 2, 3, 4, 5] ∧ SitsFirst 4 5 (outs ++ outs') :=
  ⟨_, _, _, _, rfl, rfl, rfl,
    (no_overtaking (show (bakery Linked false).run (fullSofa.map .step)
        (opening Linked (List.replicate 6 ⟨0, 0⟩)) = some (_, _) from rfl)
      (show (bakery Linked false).run (twoLeave.map .step) _ = some (_, _) from rfl)).2
      5 _ 4 rfl rfl (.inr rfl)⟩

end OxyC.Bakery
