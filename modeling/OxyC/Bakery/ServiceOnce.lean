import OxyC.Bakery.Refinement

/-!
# Served once

Whatever the order of the steps, what is done for a customer is the first part
of one service, by one chef and one payment, and nobody touches a customer that
has freed itself.
-/

namespace OxyC.Bakery

open OxyC.Foundation

theorem Stage.history_prefix (c : Nat) (st : Stage) :
    ∃ stood k k', st.history c <+: lifecycle c stood k k' := by
  cases st with
  | arrived => exact ⟨false, 0, 0, by simp [history, lifecycle, seating]⟩
  | inLine => exact ⟨true, 0, 0, by simp [history, lifecycle, seating]⟩
  | seated b => exact ⟨b, 0, 0, by simp [history, lifecycle]⟩
  | onSofa b => exact ⟨b, 0, 0, by simp [history, lifecycle, service]⟩
  | picked b k => exact ⟨b, k, 0, by simp [history, lifecycle, service]⟩
  | offered b k => exact ⟨b, k, 0, by simp [history, lifecycle, service]⟩
  | served b k => exact ⟨b, k, 0, by simp [history, lifecycle, service]⟩
  | ordered b k => exact ⟨b, k, 0, by simp [history, lifecycle, service]⟩
  | baking b k => exact ⟨b, k, 0, by simp [history, lifecycle, service]⟩
  | baked b k => exact ⟨b, k, 0, by simp [history, lifecycle]⟩
  | finished b k => exact ⟨b, k, 0, by simp [history, lifecycle]⟩
  | paying b k => exact ⟨b, k, 0, by simp [history, lifecycle, checkout]⟩
  | billed b k k' => exact ⟨b, k, k', by simp [history, lifecycle, checkout]⟩
  | settled b k k' => exact ⟨b, k, k', by simp [history, lifecycle, checkout]⟩
  | paid b k k' => exact ⟨b, k, k', by simp [history, lifecycle, checkout]⟩
  | left b k k' => exact ⟨b, k, k', by simp [history, lifecycle, checkout]⟩
  | freed b k k' => exact ⟨b, k, k', by simp [history]⟩

theorem Stage.taken_of_joinsSofa {c : Nat} {st : Stage} (h : .joinsSofa c ∈ st.history c) :
    st.line = some .sofa ∨ ∃! k, .takes k c ∈ st.history c := by
  cases st with
  | arrived => simp [history] at h
  | inLine => simp [history] at h
  | seated b => cases b <;> simp [history, seating] at h
  | onSofa b => exact .inl rfl
  | _ b => exact .inr (by cases b <;> simp [history, lifecycle, seating, service, checkout])

theorem Stage.eq_freed {c : Nat} {st : Stage} (h : .frees c ∈ st.history c) :
    ∃ b k k', st = .freed b k k' := by
  cases st with
  | freed b k k' => exact ⟨b, k, k', rfl⟩
  | arrived => simp [history] at h
  | inLine => simp [history] at h
  | _ b => cases b <;> simp [history, seating, service] at h

section Runs

variable {split : Bool} {arrivals : List Arrival} {es : List Event} {s : Shop Linked}
  {t : Shop Lists} {outs : List Deed} {stages : List Stage}

theorem Refines.holds_iff (h : Refines s t) {l : Line} {c : Nat} :
    s.queues.Holds l c ↔ c ∈ t.queues l := h.queues.holds_iff

/-- No queue and no chef has a customer that has freed itself. -/
theorem Tracks.unused (h : Tracks t stages) {c : Nat} {b : Bool} {k k' : Nat}
    (hst : stages[c]? = some (.freed b k k')) :
    (∀ l, c ∉ t.queues l) ∧ ∀ p ∈ t.chefs, p.customer ≠ some c := by
  constructor
  · intro l hmem
    obtain ⟨st, hst', hline⟩ := h.of_line hmem
    rw [hst] at hst'
    cases hst'
    cases hline
  · intro p hp hcustomer
    obtain ⟨i, hi⟩ := List.mem_iff_getElem?.mp hp
    obtain ⟨st, hst', hchef⟩ := h.of_chef hi hcustomer
    rw [hst] at hst'
    cases hst'
    cases hchef

/-- What a reachable shop and the deeds that led to it have in common. -/
structure ServedOnce (outs : List Deed) (s : Shop Linked) : Prop where
  lifecycle : ∀ c, ∃ stood k k', outs.filter (·.customer = c) <+: lifecycle c stood k k'
  taken : ∀ c, .joinsSofa c ∈ outs → s.queues.Holds .sofa c ∨ ∃! k, .takes k c ∈ outs
  one_queue : ∀ c l l', s.queues.Holds l c → s.queues.Holds l' c → l = l'
  unused : ∀ c, .frees c ∈ outs →
    (∀ l, ¬ s.queues.Holds l c) ∧ ∀ p ∈ s.chefs, p.customer ≠ some c

/-- Every customer is served once, in the order of the lifecycle, in every run. -/
theorem served_once
    (hrun : (bakery Linked split).run es (opening Linked arrivals) = some (s, outs)) :
    ServedOnce outs s := by
  obtain ⟨t, hlists, hrefines⟩ := exists_lists hrun
  obtain ⟨stages, htracks, hrecorded⟩ := exists_tracks hlists
  constructor
  case lifecycle =>
    intro c
    rw [hrecorded c]
    cases stages[c]? with
    | none => exact ⟨false, 0, 0, List.nil_prefix⟩
    | some st => exact st.history_prefix c
  case taken =>
    intro c hjoins
    obtain ⟨st, hst, hmem⟩ := hrecorded.mem_iff.mp hjoins
    cases Stage.taken_of_joinsSofa hmem with
    | inl hline =>
        left
        rw [hrefines.holds_iff, htracks.files.mem_iff]
        exact Option.bind_eq_some_iff.mpr ⟨st, hst, hline⟩
    | inr htaken =>
        right
        obtain ⟨k, hk, hunique⟩ := htaken
        refine ⟨k, hrecorded.mem_iff.mpr ⟨st, hst, hk⟩, fun k' hk' => ?_⟩
        obtain ⟨st', hst', hmem'⟩ := hrecorded.mem_iff.mp hk'
        obtain rfl : st = st' := Option.some.inj (hst.symm.trans hst')
        exact hunique k' hmem'
  case one_queue =>
    intro c l l' hl hl'
    rw [hrefines.holds_iff] at hl hl'
    exact htracks.files.apart hl hl'
  case unused =>
    intro c hfrees
    obtain ⟨st, hst, hmem⟩ := hrecorded.mem_iff.mp hfrees
    obtain ⟨b, k, k', rfl⟩ := Stage.eq_freed hmem
    obtain ⟨hqueues, hchefs⟩ := htracks.unused hst
    refine ⟨fun l hl => hqueues l (hrefines.holds_iff.mp hl), ?_⟩
    have hsame : t.chefs = s.chefs := by rw [hrefines.same]; rfl
    exact hsame ▸ hchefs

end Runs

/-- From the seat of customer `c` to its leaving section, served by the first chef alone. -/
def errand (c : Nat) : List Thread :=
  [.customer c, .chef 0, .chef 0, .chef 0, .customer c, .customer c, .chef 0, .chef 0,
    .customer c, .customer c, .chef 0, .chef 0, .chef 0, .customer c, .customer c]

def visit : List Thread :=
  [.main, .customer 0, .customer 0] ++ errand 0 ++ [.customer 0]

theorem served_once_visit :
    ∃ s, (bakery Linked false).run (visit.map .step) (opening Linked [⟨0, 1⟩]) =
      some (s, lifecycle 0 false 0 0) ∧ ServedOnce (lifecycle 0 false 0 0) s :=
  ⟨_, rfl, served_once (show (bakery Linked false).run (visit.map .step)
    (opening Linked [⟨0, 1⟩]) = some (_, _) from rfl)⟩

end OxyC.Bakery
