import OxyC.Bakery.Moves
import OxyC.Foundation.Filing

/-!
# The service of a customer

What the shop is for: every customer passes through the same stages, and the
stage says which queue and which chef it is with, which of its semaphores has
been posted and what has been done for it.
-/

namespace OxyC.Bakery

open OxyC.Foundation

/-- `stood` is set for a seat taken from the standing queue; the chef `k` bakes, `k'` is paid. -/
inductive Stage where
  | arrived
  | inLine
  | seated (stood : Bool)
  | onSofa (stood : Bool)
  | picked (stood : Bool) (k : Nat)
  | offered (stood : Bool) (k : Nat)
  | served (stood : Bool) (k : Nat)
  | ordered (stood : Bool) (k : Nat)
  | baking (stood : Bool) (k : Nat)
  | baked (stood : Bool) (k : Nat)
  | finished (stood : Bool) (k : Nat)
  | paying (stood : Bool) (k : Nat)
  | billed (stood : Bool) (k k' : Nat)
  | settled (stood : Bool) (k k' : Nat)
  | paid (stood : Bool) (k k' : Nat)
  | left (stood : Bool) (k k' : Nat)
  | freed (stood : Bool) (k k' : Nat)
  deriving DecidableEq, Repr

def Customer.sems (cu : Customer) : Nat × Nat × Nat × Nat :=
  (cu.semServed, cu.semStartBake, cu.semBakeDone, cu.semPaymentOk)

/-- The customer that a chef has in hand. -/
def ChefPoint.customer : ChefPoint → Option Nat
  | .accepting c | .serving c | .awaiting c | .baking c => some c
  | _ => none

def seating (c : Nat) (stood : Bool) : List Deed :=
  if stood then [.admits c, .stands c, .sits c] else [.admits c, .sits c]

def service (c k : Nat) : List Deed :=
  [.joinsSofa c, .takes k c, .requests c, .bakes k c, .finishesCake k c]

def checkout (c k' : Nat) : List Deed :=
  [.joinsPayment c, .bills k' c, .accepts k' c, .leaves c, .frees c]

/-- All that is done for a customer, in order. -/
def lifecycle (c : Nat) (stood : Bool) (k k' : Nat) : List Deed :=
  seating c stood ++ service c k ++ checkout c k'

namespace Stage

def points : Stage → List CustomerPoint
  | arrived => [.entered, .sawSeat, .taking, .standing]
  | inLine => [.queued, .waiting, .woken]
  | seated _ => [.seated]
  | onSofa _ | picked _ _ | offered _ _ => [.unserved]
  | served _ _ => [.served]
  | ordered _ _ | baking _ _ | baked _ _ => [.ordered]
  | finished _ _ => [.finished]
  | paying _ _ | billed _ _ _ | settled _ _ _ => [.paying]
  | paid _ _ _ => [.paid]
  | left _ _ _ => [.left]
  | freed _ _ _ => [.freed]

def sems : Stage → Nat × Nat × Nat × Nat
  | offered _ _ => (1, 0, 0, 0)
  | ordered _ _ => (0, 1, 0, 0)
  | baked _ _ => (0, 0, 1, 0)
  | settled _ _ _ => (0, 0, 0, 1)
  | _ => (0, 0, 0, 0)

def line : Stage → Option Line
  | inLine => some .standing
  | onSofa _ => some .sofa
  | paying _ _ => some .payment
  | _ => none

/-- The chef that has customer `c` in hand, and where it is. -/
def chef (c : Nat) : Stage → Option (Nat × ChefPoint)
  | picked _ k => some (k, .serving c)
  | offered _ k | served _ k | ordered _ k => some (k, .awaiting c)
  | baking _ k => some (k, .baking c)
  | billed _ _ k' => some (k', .accepting c)
  | _ => none

def inside : Stage → Bool
  | left _ _ _ | freed _ _ _ => false
  | _ => true

def holdsSeat : Stage → Bool
  | arrived | inLine | left _ _ _ | freed _ _ _ => false
  | _ => true

/-- What has been done for customer `c`. -/
def history (c : Nat) : Stage → List Deed
  | arrived => [.admits c]
  | inLine => [.admits c, .stands c]
  | seated b => seating c b
  | onSofa b => seating c b ++ [.joinsSofa c]
  | picked b k | offered b k | served b k => seating c b ++ [.joinsSofa c, .takes k c]
  | ordered b k => seating c b ++ [.joinsSofa c, .takes k c, .requests c]
  | baking b k => seating c b ++ [.joinsSofa c, .takes k c, .requests c, .bakes k c]
  | baked b k | finished b k => seating c b ++ service c k
  | paying b k => seating c b ++ service c k ++ [.joinsPayment c]
  | billed b k k' => seating c b ++ service c k ++ [.joinsPayment c, .bills k' c]
  | settled b k k' | paid b k k' =>
      seating c b ++ service c k ++ [.joinsPayment c, .bills k' c, .accepts k' c]
  | left b k k' =>
      seating c b ++ service c k ++ [.joinsPayment c, .bills k' c, .accepts k' c, .leaves c]
  | freed b k k' => lifecycle c b k k'

/-- The record of a customer at this stage. -/
def Matches (st : Stage) (cu : Customer) : Prop := cu.point ∈ st.points ∧ cu.sems = st.sems

end Stage

/-- The stages of the customers, in the order in which they were admitted. -/
structure Tracks (s : Shop Lists) (stages : List Stage) : Prop where
  customers : ∀ c : Nat, Option.Rel (fun cu st => Stage.Matches st cu) s.customers[c]? stages[c]?
  files : Files s.queues fun c : Nat => stages[c]?.bind Stage.line
  chefs : Attended ChefPoint.customer s.chefs fun c : Nat => stages[c]?.bind (Stage.chef c)
  current : s.currentCustomers = stages.countP Stage.inside
  sofa : s.sofaOccupied = stages.countP Stage.holdsSeat
  capacity : s.currentCustomers ≤ maxCapacity

inductive Progress (stages : List Stage) : List Stage → List Deed → Prop where
  | stays : Progress stages stages []
  | admits : Progress stages (stages ++ [.arrived]) [.admits stages.length]
  | advances {c : Nat} {st : Stage} (st' : Stage) {out : List Deed} (stage : stages[c]? = some st)
      (history : st'.history c = st.history c ++ out) (about : ∀ d ∈ out, d.customer = c) :
      Progress stages (stages.set c st') out

section Tracks

variable {s s' : Shop Lists} {stages : List Stage} {c : Nat} {cu : Customer} {st st' : Stage}

theorem Tracks.stage (h : Tracks s stages) (hcu : s.customers[c]? = some cu) :
    ∃ st, stages[c]? = some st ∧ st.Matches cu := by
  have hrel := h.customers c
  rw [hcu] at hrel
  generalize stages[c]? = x at hrel ⊢
  cases hrel with
  | some hmatch => exact ⟨_, rfl, hmatch⟩

theorem Tracks.customer (h : Tracks s stages) (hst : stages[c]? = some st) :
    ∃ cu, s.customers[c]? = some cu ∧ st.Matches cu := by
  have hrel := h.customers c
  rw [hst] at hrel
  generalize s.customers[c]? = x at hrel ⊢
  cases hrel with
  | some hmatch => exact ⟨_, rfl, hmatch⟩

theorem Tracks.length (h : Tracks s stages) : s.customers.length = stages.length := by
  apply Nat.le_antisymm
  · by_contra hlt
    obtain ⟨cu, hcu⟩ : ∃ cu, s.customers[stages.length]? = some cu :=
      ⟨_, List.getElem?_eq_getElem (Nat.lt_of_not_le hlt)⟩
    obtain ⟨st, hst, -⟩ := h.stage hcu
    simp at hst
  · by_contra hlt
    obtain ⟨st, hst⟩ : ∃ st, stages[s.customers.length]? = some st :=
      ⟨_, List.getElem?_eq_getElem (Nat.lt_of_not_le hlt)⟩
    obtain ⟨cu, hcu, -⟩ := h.customer hst
    simp at hcu

theorem bind_set {β : Type*} (f : Nat → Stage → Option β) (hst : stages[c]? = some st) :
    (fun d : Nat => (stages.set c st')[d]?.bind (f d)) =
      Function.update (fun d : Nat => stages[d]?.bind (f d)) c (f c st') := by
  obtain ⟨hlt, -⟩ := List.getElem?_eq_some_iff.mp hst
  funext d
  by_cases hd : d = c
  · subst hd
    simp [hlt]
  · rw [Function.update_of_ne hd, List.getElem?_set_ne (Ne.symm hd)]

theorem update_same {β : Type*} (f : Nat → Stage → Option β) (hst : stages[c]? = some st)
    (hf : f c st' = f c st) :
    Function.update (fun d : Nat => stages[d]?.bind (f d)) c (f c st') =
      fun d : Nat => stages[d]?.bind (f d) := by
  have hvalue : f c st' = (fun d : Nat => stages[d]?.bind (f d)) c := by simp [hst, hf]
  rw [hvalue, Function.update_eq_self]

theorem countP_set {p : Stage → Bool} (hst : stages[c]? = some st) :
    ((stages.set c st').countP p : Int) =
      stages.countP p - (if p st then 1 else 0) + if p st' then 1 else 0 := by
  obtain ⟨hlt, hget⟩ := List.getElem?_eq_some_iff.mp hst
  rw [List.countP_set hlt, hget]
  have hpos : p st = true → 0 < stages.countP p := fun hp =>
    List.countP_pos_iff.mpr ⟨st, List.mem_of_getElem? hst, hp⟩
  by_cases hp : p st = true
  · have := hpos hp
    rw [if_pos hp, if_pos hp]
    split <;> omega
  · rw [if_neg hp, if_neg hp]
    split <;> omega

theorem Tracks.files_same (h : Tracks s stages) (hst : stages[c]? = some st)
    (hline : st'.line = st.line) :
    Files s.queues (Function.update (fun d : Nat => stages[d]?.bind Stage.line) c st'.line) := by
  rw [update_same (fun _ => Stage.line) hst hline]
  exact h.files

theorem Tracks.chefs_same (h : Tracks s stages) (hst : stages[c]? = some st)
    (hchef : st'.chef c = st.chef c) :
    Attended ChefPoint.customer s.chefs
      (Function.update (fun d : Nat => stages[d]?.bind (Stage.chef d)) c (st'.chef c)) := by
  rw [update_same Stage.chef hst hchef]
  exact h.chefs

variable (st') in
/-- Customer `c` goes on to the stage `st'`. -/
theorem Tracks.advance (h : Tracks s stages) (hst : stages[c]? = some st)
    {f : Customer → Customer} (hcustomers : s'.customers = s.customers.modify c f)
    (hmatch : ∀ cu, s.customers[c]? = some cu → st.Matches cu → st'.Matches (f cu))
    (hfiles : Files s'.queues
      (Function.update (fun d : Nat => stages[d]?.bind Stage.line) c st'.line))
    (hchefs : Attended ChefPoint.customer s'.chefs
      (Function.update (fun d : Nat => stages[d]?.bind (Stage.chef d)) c (st'.chef c)))
    (hcurrent : s'.currentCustomers =
      s.currentCustomers - (if st.inside then 1 else 0) + if st'.inside then 1 else 0)
    (hsofa : s'.sofaOccupied =
      s.sofaOccupied - (if st.holdsSeat then 1 else 0) + if st'.holdsSeat then 1 else 0)
    (hinside : st'.inside = true → st.inside = true) : Tracks s' (stages.set c st') where
  customers := by
    obtain ⟨hlt, -⟩ := List.getElem?_eq_some_iff.mp hst
    intro d
    rw [hcustomers, List.getElem?_modify]
    by_cases hd : c = d
    · subst hd
      obtain ⟨cu, hcu, hold⟩ := h.customer hst
      simp only [hcu, List.getElem?_set_self hlt, if_true, Option.map_eq_map, Option.map_some]
      exact .some (hmatch cu hcu hold)
    · simp only [if_neg hd, List.getElem?_set_ne hd, Option.map_eq_map, Option.map_id']
      exact h.customers d
  files := by
    rw [bind_set (fun _ => Stage.line) hst]
    exact hfiles
  chefs := by
    rw [bind_set Stage.chef hst]
    exact hchefs
  current := by rw [countP_set hst, hcurrent, h.current]
  sofa := by rw [countP_set hst, hsofa, h.sofa]
  capacity := by
    have hcapacity := h.capacity
    rw [hcurrent]
    split <;> split <;> simp_all
    omega

variable (st') in
/-- The same for a step that is neither the taking of a seat nor the leaving. -/
theorem Tracks.proceed (h : Tracks s stages) (hst : stages[c]? = some st)
    {f : Customer → Customer} (hcustomers : s'.customers = s.customers.modify c f)
    (hmatch : ∀ cu, s.customers[c]? = some cu → st.Matches cu → st'.Matches (f cu))
    (hfiles : Files s'.queues
      (Function.update (fun d : Nat => stages[d]?.bind Stage.line) c st'.line))
    (hchefs : Attended ChefPoint.customer s'.chefs
      (Function.update (fun d : Nat => stages[d]?.bind (Stage.chef d)) c (st'.chef c)))
    (hcurrent : s'.currentCustomers = s.currentCustomers)
    (hsofa : s'.sofaOccupied = s.sofaOccupied) (hinside : st'.inside = st.inside)
    (hseat : st'.holdsSeat = st.holdsSeat) : Tracks s' (stages.set c st') := by
  refine h.advance st' hst hcustomers hmatch hfiles hchefs ?_ ?_ fun hst' => hinside ▸ hst'
  · rw [hcurrent, hinside]
    omega
  · rw [hsofa, hseat]
    omega

variable (st') in
/-- The same for a step that changes nothing but the customer. -/
theorem Tracks.alone (h : Tracks s stages) (hst : stages[c]? = some st) {f : Customer → Customer}
    (hmatch : ∀ cu, s.customers[c]? = some cu → st.Matches cu → st'.Matches (f cu))
    (hline : st'.line = st.line) (hchef : st'.chef c = st.chef c)
    (hinside : st'.inside = st.inside) (hseat : st'.holdsSeat = st.holdsSeat) :
    Tracks (s.customer c f) (stages.set c st') :=
  h.proceed st' hst rfl hmatch (h.files_same hst hline) (h.chefs_same hst hchef) rfl rfl hinside
    hseat

/-- Customer `c` stays at its stage. -/
theorem Tracks.remain (h : Tracks s stages) (hst : stages[c]? = some st)
    {f : Customer → Customer}
    (hmatch : ∀ cu, s.customers[c]? = some cu → st.Matches cu → st.Matches (f cu)) :
    Tracks (s.customer c f) stages := by
  have hset : stages.set c st = stages := by
    obtain ⟨hlt, hget⟩ := List.getElem?_eq_some_iff.mp hst
    rw [← hget, List.set_getElem_self hlt]
  rw [← hset]
  exact h.alone st hst hmatch rfl rfl rfl rfl

theorem Tracks.broadcastStandingCv (h : Tracks s stages) : Tracks s.broadcastStandingCv stages :=
  { h with
    customers := by
      intro c
      have hrel := h.customers c
      simp only [Shop.broadcastStandingCv, List.getElem?_map]
      generalize s.customers[c]? = x at hrel ⊢
      generalize stages[c]? = y at hrel ⊢
      cases hrel with
      | none => exact .none
      | @some cu st hmatch =>
          refine .some ⟨?_, hmatch.2⟩
          have hpoint := hmatch.1
          simp only [Customer.wake]
          cases hcu : cu.point <;> rw [hcu] at hpoint <;> try exact hpoint
          cases st <;> simp_all [Stage.points, CustomerPoint.wake] }

theorem Tracks.of_line (h : Tracks s stages) {l : Line} (hc : c ∈ s.queues l) :
    ∃ st, stages[c]? = some st ∧ st.line = some l :=
  Option.bind_eq_some_iff.mp (h.files.mem_iff.mp hc)

theorem Tracks.of_chef (h : Tracks s stages) {k : Nat} {p : ChefPoint} (hk : s.chefs[k]? = some p)
    (hp : p.customer = some c) : ∃ st, stages[c]? = some st ∧ st.chef c = some (k, p) :=
  Option.bind_eq_some_iff.mp ((h.chefs k p c hp).mp hk)

theorem Tracks.arrived_of_point (h : Tracks s stages) (hcu : s.customers[c]? = some cu)
    (hpoint : cu.point ∈ [.entered, .sawSeat, .taking, .standing]) :
    stages[c]? = some .arrived := by
  obtain ⟨st, hst, hmatch⟩ := h.stage hcu
  have hpoints := hmatch.1
  obtain rfl : st = .arrived := by
    generalize cu.point = point at hpoint hpoints
    cases point <;> cases st <;> simp_all [Stage.points]
  exact hst

theorem Tracks.inLine_iff (h : Tracks s stages) :
    c ∈ s.queues .standing ↔ stages[c]? = some .inLine := by
  constructor
  · intro hmem
    obtain ⟨st, hst, hline⟩ := h.of_line hmem
    cases st <;> simp_all [Stage.line]
  · intro hst
    exact h.files.mem_iff.mpr (Option.bind_eq_some_iff.mpr ⟨.inLine, hst, rfl⟩)

theorem Tracks.point_of_standing (h : Tracks s stages) (hcu : s.customers[c]? = some cu)
    (hc : c ∈ s.queues .standing) : cu.point ∈ [.queued, .waiting, .woken] := by
  obtain ⟨st, hst, hmatch⟩ := h.stage hcu
  have hinLine := h.inLine_iff.mp hc
  rw [hst] at hinLine
  cases hinLine
  exact hmatch.1

theorem Stage.Matches.goTo {p : CustomerPoint} (hp : p ∈ st'.points) (hsems : st'.sems = st.sems)
    (h : st.Matches cu) : st'.Matches { cu with point := p } :=
  ⟨hp, h.2.trans hsems.symm⟩

theorem ChefPoint.wake_eq_iff {p q : ChefPoint} (hq : q.customer = some c) :
    p.wake = q ↔ p = q := by
  cases p <;> cases q <;> simp_all [ChefPoint.wake, ChefPoint.customer]

theorem Tracks.broadcastChefCv (h : Tracks s stages) : Tracks s.broadcastChefCv stages :=
  { h with chefs := h.chefs.map fun _ _ _ hq => ChefPoint.wake_eq_iff hq }

/-- A chef that has nobody in hand goes on without anybody. -/
theorem Tracks.chefTo (h : Tracks s stages) {k : Nat} {p p' : ChefPoint}
    (hk : s.chefs[k]? = some p) (hp : p.customer = none) (hp' : p'.customer = none) :
    Tracks (s.chefTo k p') stages :=
  { h with chefs := h.chefs.set_free hk hp hp' }

end Tracks

end OxyC.Bakery
