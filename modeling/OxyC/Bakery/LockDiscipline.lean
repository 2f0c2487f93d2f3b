import OxyC.Bakery.Statements
import OxyC.Foundation.Ownership

/-!
# Who holds the lock

A table says for each line whether a thread that stands before it has the lock.
The statements agree with the table up to the lines that break the discipline;
behind these the table is silent.
-/

namespace OxyC.Bakery

open OxyC.Foundation

def Command.releases : Command → Bool
  | .unlock | .wait _ => true
  | _ => false

/-- The conditions that read one of the queues or of the two counters. -/
def Test.accesses : Test → Bool
  | .full | .nothingToDo | .paymentWaiting | .sofaWaiting | .seatFree | .myTurn => true
  | _ => false

def Command.accesses : Command → Bool
  | .test t _ => t.accesses
  | .push _ | .pop _ | .countSofa _ | .countCustomers _ => true
  | _ => false

/-- The statement that a running thread executes when it takes its turn. -/
def Floor.executes (s : Floor) (th : Thread) (l : Local) (st : Statement) : Prop :=
  s.threads th = some l ∧ l.status = .running ∧ statementAt th.role l.line = some st

/-- Each statement of the kind `needs` is executed by the holder of the lock. -/
def HeldWhen (needs : Command → Bool) (s : Floor) (e : Event) : Prop :=
  ∀ th l st, e = .step th → s.executes th l st → needs st.command → s.holder = some th

/-- No statement is executed at one of the points of `bad`, given by line and way there. -/
def Avoids (bad : Role → Nat → Bool → Bool) (s : Floor) (e : Event) : Prop :=
  ∀ th l st, e = .step th → s.executes th l st → bad th.role l.line l.broke = false

/-! ## Tables -/

/-- Whether the lock is held before a line; `none` before lines that are not reached. -/
abbrev Table := Role → Nat → Bool → Option Bool

/--
A statement outside `bad` has the lock if it needs it and goes on to where the table expects it
to be.  A statement inside `bad` needs the lock and does not have it.
-/
def Statement.agrees (held : Table) (bad : Role → Nat → Bool → Bool) (needs : Command → Bool)
    (r : Role) (broke : Bool) (st : Statement) : Bool :=
  match held r st.line broke with
  | none => true
  | some b =>
      if bad r st.line broke then needs st.command && !b
      else
        (!needs st.command || b) &&
          match st.command with
          | .lock => held r st.next false = some true
          | .unlock => b && held r st.next broke = some false
          | .wait _ => b && held r st.next broke = some true
          | .test _ otherwise => held r st.next broke = some b && held r otherwise broke = some b
          | .leaveLoop => held r st.next true = some b
          | .create =>
              r = .main && b && held r st.next broke = some b &&
                held .customer 95 false = some false
          | .ret => true
          | _ => held r st.next broke = some b

/-- A running thread before a line at which the lock is held. -/
def Owns (held : Table) (th : Thread) (l : Local) : Prop :=
  l.status = .running ∧ held th.role l.line l.broke = some true

structure Kept (held : Table) (threads : Thread → Option Local) (holder : Option Thread) :
    Prop where
  tracked : Tracked (Owns held) threads holder
  known : ∀ th l, threads th = some l → (held th.role l.line l.broke).isSome
  parked : ∀ th l, threads th = some l → l.status ≠ .running →
    held th.role l.line l.broke = some true

namespace Kept

variable {held : Table} {threads : Thread → Option Local} {holder holder' : Option Thread}
  {th : Thread} {l l' : Local}

theorem move (h : Kept held threads holder)
    (htracked : Tracked (Owns held) (Function.update threads th (some l')) holder')
    (hknown : (held th.role l'.line l'.broke).isSome)
    (hparked : l'.status ≠ .running → held th.role l'.line l'.broke = some true) :
    Kept held (Function.update threads th (some l')) holder' := by
  refine ⟨htracked, fun u m hm => ?_, fun u m hm => ?_⟩
  · rw [Function.update_apply] at hm
    split at hm
    case isTrue hu =>
      cases hm
      exact hu ▸ hknown
    case isFalse => exact h.known u m hm
  · rw [Function.update_apply] at hm
    split at hm
    case isTrue hu =>
      cases hm
      exact hu ▸ hparked
    case isFalse => exact h.parked u m hm

theorem keep (h : Kept held threads holder) (hl : threads th = some l)
    (hrunning : l.status = .running) (hrunning' : l'.status = .running)
    (hsame : held th.role l'.line l'.broke = held th.role l.line l.broke) :
    Kept held (Function.update threads th (some l')) holder := by
  refine h.move (h.tracked.keep hl ?_) ?_ (absurd hrunning')
  · simp [Owns, hrunning, hrunning', hsame]
  · rw [hsame]
    exact h.known th l hl

theorem acquire (h : Kept held threads none) (hrunning : l'.status = .running)
    (hheld : held th.role l'.line l'.broke = some true) :
    Kept held (Function.update threads th (some l')) (some th) :=
  h.move (h.tracked.acquire ⟨hrunning, hheld⟩) (by simp [hheld]) (absurd hrunning)

theorem release (h : Kept held threads holder) (hholder : holder = some th)
    (hrunning : l'.status = .running) (hfree : held th.role l'.line l'.broke = some false) :
    Kept held (Function.update threads th (some l')) none := by
  subst hholder
  exact h.move (h.tracked.release (by simp [Owns, hfree])) (by simp [hfree]) (absurd hrunning)

theorem sleep (h : Kept held threads holder) (hholder : holder = some th)
    (hasleep : l'.status ≠ .running) (hheld : held th.role l'.line l'.broke = some true) :
    Kept held (Function.update threads th (some l')) none := by
  subst hholder
  exact h.move (h.tracked.release fun howns => hasleep howns.1) (by simp [hheld]) fun _ => hheld

theorem spawn (h : Kept held threads holder) (hholder : holder ≠ some th)
    (hfree : held th.role l.line l.broke = some false) (hrunning : l.status = .running) :
    Kept held (Function.update threads th (some l)) holder := by
  refine h.move (h.tracked.move ?_ fun _ _ => Iff.rfl) (by simp [hfree]) (absurd hrunning)
  simp [hholder, Owns, hfree]

theorem broadcast (h : Kept held threads holder) (cv : Cond) :
    Kept held (fun th => (threads th).map (Local.wake cv)) holder := by
  have hwake : ∀ l : Local, (l.wake cv).line = l.line ∧ (l.wake cv).broke = l.broke ∧
      ((l.wake cv).status = .running ↔ l.status = .running) := by
    intro l
    unfold Local.wake
    split <;> simp_all
  refine ⟨h.tracked.map fun th l => ?_, fun th l' hl' => ?_, fun th l' hl' hparked => ?_⟩
  · obtain ⟨hline, hbroke, hstatus⟩ := hwake l
    rw [Owns, Owns, hline, hbroke, hstatus]
  · obtain ⟨l, hl, rfl⟩ := Option.map_eq_some_iff.mp hl'
    obtain ⟨hline, hbroke, -⟩ := hwake l
    rw [hline, hbroke]
    exact h.known th l hl
  · obtain ⟨l, hl, rfl⟩ := Option.map_eq_some_iff.mp hl'
    obtain ⟨hline, hbroke, hstatus⟩ := hwake l
    rw [hline, hbroke]
    exact h.parked th l hl (mt hstatus.mpr hparked)

end Kept

section Steps

variable {held : Table} {bad : Role → Nat → Bool → Bool} {needs : Command → Bool}

structure Agrees (held : Table) (bad : Role → Nat → Bool → Bool) (needs : Command → Bool) :
    Prop where
  code : ∀ (r : Role) (broke : Bool), ∀ st ∈ r.code, st.agrees held bad needs r broke
  main : held .main 67 false = some false
  chef : held .chef 10 false = some false

theorem Agrees.keptOpening (h : Agrees held bad needs) (arrivals : List Arrival) :
    Kept held (Floor.opening arrivals).threads (Floor.opening arrivals).holder := by
  have hstart : ∀ th l, (Floor.opening arrivals).threads th = some l →
      l.status = .running ∧ held th.role l.line l.broke = some false := by
    intro th l hl
    cases th with
    | main =>
        cases hl
        exact ⟨rfl, h.main⟩
    | chef k =>
        simp only [Floor.opening, Option.ite_none_right_eq_some, Option.some.injEq] at hl
        obtain ⟨-, rfl⟩ := hl
        exact ⟨rfl, h.chef⟩
    | customer c => cases hl
  refine ⟨fun th l hl => ?_, fun th l hl => ?_, fun th l hl hparked => ?_⟩
  · simp [Floor.opening, Owns, (hstart th l hl).2]
  · simp [(hstart th l hl).2]
  · exact absurd (hstart th l hl).1 hparked

theorem Agrees.execute (h : Agrees held bad needs) {s s' : Floor} {th : Thread} {l : Local}
    {st : Statement} (hkept : Kept held s.threads s.holder) (hexec : s.executes th l st)
    (hgood : bad th.role l.line l.broke = false)
    (hstep : execute th l st s = some s') : Kept held s'.threads s'.holder := by
  obtain ⟨hl, hrunning, hst⟩ := hexec
  obtain ⟨hmem, hline⟩ := mem_of_statementAt hst
  have hagrees := h.code th.role l.broke st hmem
  obtain ⟨b, hb⟩ := Option.isSome_iff_exists.mp (hkept.known th l hl)
  simp only [Statement.agrees, hline, hb, hgood, Bool.false_eq_true, if_false,
    Bool.and_eq_true] at hagrees
  obtain ⟨-, hnext⟩ := hagrees
  have hholder : b = true → s.holder = some th := by
    rintro rfl
    exact (hkept.tracked.holder_iff hl).mpr ⟨hrunning, hb⟩
  unfold Bakery.execute at hstep
  cases hcommand : st.command with
  | lock =>
      simp only [hcommand] at hstep hnext
      split at hstep
      case isTrue hfree =>
        cases hstep
        exact (hfree ▸ hkept).acquire hrunning (by simpa using hnext)
      case isFalse => cases hstep
  | unlock =>
      simp only [hcommand, Bool.and_eq_true, decide_eq_true_eq] at hstep hnext
      cases hstep
      exact hkept.release (hholder hnext.1) hrunning hnext.2
  | wait cv =>
      simp only [hcommand, Bool.and_eq_true, decide_eq_true_eq] at hstep hnext
      cases hstep
      exact hkept.sleep (hholder hnext.1) (by simp) hnext.2
  | broadcast cv =>
      simp only [hcommand, decide_eq_true_eq] at hstep hnext
      cases hstep
      refine (hkept.broadcast cv).keep (l := l) ?_ hrunning hrunning (hnext.trans hb.symm)
      simp [hl, Local.wake, hrunning]
  | test t otherwise =>
      simp only [hcommand, Bool.and_eq_true, decide_eq_true_eq] at hstep hnext
      cases hstep
      refine hkept.keep hl hrunning hrunning ?_
      rw [hb]
      dsimp only
      split
      · exact hnext.1
      · exact hnext.2
  | create =>
      simp only [hcommand, Bool.and_eq_true, decide_eq_true_eq] at hstep hnext
      obtain ⟨⟨⟨hmain, hheld⟩, hsame⟩, hfree⟩ := hnext
      cases hstep
      have hdistinct : th ≠ .customer s.custCount := by
        rintro rfl
        cases hmain
      have hother : s.holder ≠ some (.customer s.custCount) := by
        simp [hholder hheld, hdistinct]
      have hspawn := hkept.spawn hother (l := { line := 95 }) hfree rfl
      refine hspawn.keep (l := l) ?_ hrunning hrunning (hsame.trans hb.symm)
      rw [Function.update_of_ne hdistinct, hl]
  | leaveLoop =>
      simp only [hcommand, decide_eq_true_eq] at hstep hnext
      cases hstep
      exact hkept.keep hl hrunning hrunning (hnext.trans hb.symm)
  | ret =>
      simp only [hcommand] at hstep
      cases hstep
  | lockPayment | join | joinChef =>
      simp only [hcommand, decide_eq_true_eq, Option.ite_none_right_eq_some,
        Option.some.injEq] at hstep hnext
      obtain ⟨-, rfl⟩ := hstep
      exact hkept.keep hl hrunning hrunning (hnext.trans hb.symm)
  | push | post =>
      simp only [hcommand, decide_eq_true_eq, Option.map_eq_some_iff] at hstep hnext
      obtain ⟨c, -, rfl⟩ := hstep
      exact hkept.keep hl hrunning hrunning (hnext.trans hb.symm)
  | semWait =>
      simp only [hcommand, decide_eq_true_eq, Option.bind_eq_some_iff,
        Option.ite_none_right_eq_some, Option.some.injEq] at hstep hnext
      obtain ⟨c, -, -, rfl⟩ := hstep
      exact hkept.keep hl hrunning hrunning (hnext.trans hb.symm)
  | _ =>
      simp only [hcommand, decide_eq_true_eq] at hstep hnext
      cases hstep
      exact hkept.keep hl hrunning hrunning (hnext.trans hb.symm)

theorem Agrees.step (h : Agrees held bad needs) {e : Event} {s s' : Floor} {out : List Empty}
    (hkept : Kept held s.threads s.holder) (havoids : Avoids bad s e)
    (hstep : statements.step e s = some (s', out)) : Kept held s'.threads s'.holder := by
  cases e with
  | step th =>
      simp only [statements, threadTurn, Option.map_eq_some_iff, Option.bind_eq_some_iff,
        Prod.mk.injEq] at hstep
      obtain ⟨s', ⟨l, hl, hturn⟩, rfl, -⟩ := hstep
      cases hstatus : l.status with
      | running =>
          simp only [hstatus, Option.bind_eq_some_iff] at hturn
          obtain ⟨st, hst, hexecute⟩ := hturn
          exact h.execute hkept ⟨hl, hstatus, hst⟩ (havoids th l st rfl ⟨hl, hstatus, hst⟩) hexecute
      | asleep => simp [hstatus] at hturn
      | reacquiring =>
          simp only [hstatus, reacquire, Option.ite_none_right_eq_some, Option.some.injEq] at hturn
          obtain ⟨hfree, rfl⟩ := hturn
          exact (hfree ▸ hkept).acquire rfl (hkept.parked th l hl (by simp [hstatus]))
  | spurious th =>
      simp only [statements, wakeUp, Option.map_eq_some_iff, Option.bind_eq_some_iff,
        Prod.mk.injEq] at hstep
      obtain ⟨s', ⟨l, hl, hturn⟩, rfl, -⟩ := hstep
      cases hstatus : l.status with
      | running => simp [hstatus] at hturn
      | reacquiring => simp [hstatus] at hturn
      | asleep cv =>
          simp only [hstatus, Option.some.injEq] at hturn
          subst hturn
          have hheld := hkept.parked th l hl (by simp [hstatus])
          refine hkept.move (hkept.tracked.keep hl ?_) (by simp [hheld]) fun _ => hheld
          simp [Owns, hstatus]

/-- Where the table is right, the bad points are exactly those that break the discipline. -/
theorem Agrees.heldWhen_iff (h : Agrees held bad needs) {s : Floor} (e : Event)
    (hkept : Kept held s.threads s.holder) : HeldWhen needs s e ↔ Avoids bad s e := by
  have hpoint : ∀ th l st, s.executes th l st →
      ((needs st.command → s.holder = some th) ↔ bad th.role l.line l.broke = false) := by
    rintro th l st ⟨hl, hrunning, hst⟩
    obtain ⟨hmem, hline⟩ := mem_of_statementAt hst
    have hagrees := h.code th.role l.broke st hmem
    obtain ⟨b, hb⟩ := Option.isSome_iff_exists.mp (hkept.known th l hl)
    have hholder : s.holder = some th ↔ b = true := by
      rw [hkept.tracked.holder_iff hl]
      simp [Owns, hrunning, hb]
    simp only [Statement.agrees, hline, hb] at hagrees
    cases hbad : bad th.role l.line l.broke with
    | true =>
        simp only [hbad, if_true, Bool.and_eq_true, Bool.not_eq_true'] at hagrees
        simp [hholder, hagrees.1, hagrees.2]
    | false =>
        simp only [hbad, Bool.false_eq_true, if_false, Bool.and_eq_true, Bool.or_eq_true,
          Bool.not_eq_true'] at hagrees
        simp only [hholder, iff_true]
        intro hneeds
        exact hagrees.1.resolve_left (by simp [hneeds])
  constructor
  · intro hheld th l st he hexec
    exact (hpoint th l st hexec).mp (hheld th l st he hexec)
  · intro havoids th l st he hexec
    exact (hpoint th l st hexec).mpr (havoids th l st he hexec)

/-- A run keeps the discipline exactly as long as it avoids the bad points. -/
theorem Agrees.guarded_iff (h : Agrees held bad needs) (arrivals : List Arrival)
    (es : List Event) :
    statements.Guarded (statements.WhenTaken (HeldWhen needs)) es (Floor.opening arrivals) ↔
      statements.Guarded (statements.WhenTaken (Avoids bad)) es (Floor.opening arrivals) := by
  refine statements.guarded_iff_guarded (J := fun s => Kept held s.threads s.holder) ?_ ?_ es
    (h.keptOpening arrivals)
  · intro e s s' out hkept havoids hstep
    exact h.step hkept (havoids (by simp [hstep])) hstep
  · intro e s hkept
    exact imp_congr_right fun _ => h.heldWhen_iff e hkept

end Steps

/-! ## The two tables -/

def mainHeld (line : Nat) : Bool :=
  line ∈ [73, 74, 85, 92, 94, 98, 99, 114, 115, 116]

/-- The waiting loop of a chef is not entered again after its `break`. -/
def chefHeld (line : Nat) (broke : Bool) : Option Bool :=
  if line ∈ [16, 18, 19, 22] then if broke then none else some true
  else if line ∈ [20] then if broke then none else some false
  else if line ∈ [26, 27, 29, 49, 50, 52, 69] then some !broke
  else some false

/-- Up to the first wait of a standing customer and along the way past it. -/
def releaseTable : Table
  | .main, line, _ => some (mainHeld line)
  | .chef, line, broke => chefHeld line broke
  | .customer, line, _ =>
      if line ∈ [124, 126, 127, 129, 132, 134, 137, 138, 141, 142, 143, 144, 145] then none
      else some (line ∈ [102, 103, 111, 112, 113, 169, 170, 171, 183, 184, 187, 189, 190])

/-- The wait of line 121, and the releases behind the `break` of line 20. -/
def strayRelease : Role → Nat → Bool → Bool
  | .main, _, _ => false
  | .chef, line, broke => broke && line ∈ [29, 52, 69]
  | .customer, line, _ => line = 121

/-- Up to the seat test of a customer. -/
def accessTable : Table
  | .main, line, _ => some (mainHeld line)
  | .chef, line, broke =>
      if broke && line ∈ [27, 29, 49, 50, 52, 69] then none else chefHeld line broke
  | .customer, line, _ => if line ∈ [95, 96, 99] then some false else none

/-- The seat test of line 99, and the test of line 26 behind the `break` of line 20. -/
def strayAccess : Role → Nat → Bool → Bool
  | .main, _, _ => false
  | .chef, line, broke => broke && line = 26
  | .customer, line, _ => line = 99

def Command.guarded (c : Command) : Bool := c.releases || c.accesses

theorem agrees_release : Agrees releaseTable strayRelease Command.releases where
  code := by
    intro r broke
    cases r <;> cases broke <;> decide
  main := rfl
  chef := rfl

theorem agrees_access : Agrees accessTable strayAccess Command.guarded where
  code := by
    intro r broke
    cases r <;> cases broke <;> decide
  main := rfl
  chef := rfl

/-- Up to the first stray release two threads are never in their critical sections together. -/
theorem critical_sections_exclusive {arrivals : List Arrival} {es : List Event} {s : Floor}
    {outs : List Empty} {th th' : Thread} {l l' : Local}
    (hguard : statements.Guarded (Avoids strayRelease) es (Floor.opening arrivals))
    (hrun : statements.run es (Floor.opening arrivals) = some (s, outs))
    (hl : s.threads th = some l) (hl' : s.threads th' = some l')
    (howns : Owns releaseTable th l) (howns' : Owns releaseTable th' l') : th = th' := by
  have hkept := statements.run_invariant_of_guarded
    (P := fun s => Kept releaseTable s.threads s.holder)
    (fun _ _ _ _ hkept havoids hstep => agrees_release.step hkept havoids hstep)
    (agrees_release.keptOpening arrivals) hguard hrun
  exact hkept.tracked.exclusive hl hl' howns howns'

/-! ## Runs that break the discipline -/

/-- The first customer comes to its seat test while `main` still holds the lock. -/
def firstTest : List Event :=
  List.replicate 7 (.step .main) ++ List.replicate 2 (.step (.customer 0))

/-- A chef tests the flag, the shop closes, and the chef breaks out of its waiting loop. -/
def lastCall : List Event :=
  [.step (.chef 0)] ++ List.replicate 7 (.step .main) ++ List.replicate 5 (.step (.chef 0))

/-- Another chef takes the lock before the first one falls through to its second release. -/
def secondRelease : List Event :=
  [.step (.chef 1)] ++ lastCall ++
    [.step (.chef 0), .step (.chef 0), .step (.chef 1), .step (.chef 0)]

theorem not_guarded {needs : Command → Bool} {s : Floor} (es : List Event) (th : Thread)
    (l : Local) (st : Statement) (hrunning : l.status = .running)
    (hst : statementAt th.role l.line = some st) (hneeds : needs st.command)
    (htest : (statements.run es s).any (fun x =>
      x.1.threads th = some l && x.1.holder ≠ some th && (threadTurn x.1 th).isSome) = true) :
    ¬ statements.Guarded (statements.WhenTaken (HeldWhen needs)) (es ++ [.step th]) s := by
  intro hguard
  obtain ⟨t, outs, hrun, hend⟩ := statements.exists_run es s _ htest
  simp only [Bool.and_eq_true, decide_eq_true_eq] at hend
  obtain ⟨⟨hl, hholder⟩, htaken⟩ := hend
  have hheld := hguard.of_run _ hrun (by simpa [statements] using htaken)
  exact hholder (hheld th l st rfl ⟨hl, hrunning, hst⟩ hneeds)

theorem exists_unheld_access (arrivals : List Arrival) :
    ∃ es, ¬ statements.Guarded (statements.WhenTaken (HeldWhen Command.guarded)) es
      (Floor.opening arrivals) := by
  cases arrivals with
  | nil =>
      exact ⟨_, not_guarded lastCall (.chef 0) { line := 26, broke := true }
        ⟨26, .test .paymentWaiting 49, 27⟩ rfl rfl rfl rfl⟩
  | cons a rest =>
      exact ⟨_, not_guarded firstTest (.customer 0) { line := 99 }
        ⟨99, .test .seatFree 117, 101⟩ rfl rfl rfl rfl⟩

/--
In every run the lock is released by its holder exactly as long as no customer comes to its first
wait and no chef to a release behind its `break`.  Together with the accesses this is so as long
as no customer comes to its seat test and no chef to a test behind its `break`.  Every list of
arrivals has a run that does.
-/
theorem lock_discipline (arrivals : List Arrival) :
    (∀ es, statements.Guarded (statements.WhenTaken (HeldWhen Command.releases)) es
        (Floor.opening arrivals) ↔
      statements.Guarded (statements.WhenTaken (Avoids strayRelease)) es
        (Floor.opening arrivals)) ∧
    (∀ es, statements.Guarded (statements.WhenTaken (HeldWhen Command.guarded)) es
        (Floor.opening arrivals) ↔
      statements.Guarded (statements.WhenTaken (Avoids strayAccess)) es
        (Floor.opening arrivals)) ∧
    ∃ es, ¬ statements.Guarded (statements.WhenTaken (HeldWhen Command.guarded)) es
      (Floor.opening arrivals) :=
  ⟨agrees_release.guarded_iff arrivals, agrees_access.guarded_iff arrivals,
    exists_unheld_access arrivals⟩

theorem lock_discipline_closing :
    ¬ statements.Guarded (statements.WhenTaken (HeldWhen Command.releases)) secondRelease
      (Floor.opening []) :=
  not_guarded secondRelease.dropLast (.chef 0) { line := 69, broke := true }
    ⟨69, .unlock, 10⟩ rfl rfl rfl rfl

end OxyC.Bakery
