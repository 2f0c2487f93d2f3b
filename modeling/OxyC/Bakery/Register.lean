import OxyC.Bakery.LockDiscipline

/-!
# The register

`payment_mutex` is taken and given back by the chefs alone, and the pairing of the
two calls does not suffer from the stray releases of `lock`.  So the payments are
accepted one after the other in every run, and no thread holds one of the mutexes
while it asks for the other.
-/

namespace OxyC.Bakery

open OxyC.Foundation

/-! ## What a statement does to the threads and to the mutexes -/

/-- The lines that a statement may send its thread to. -/
def Statement.targets (st : Statement) : List Nat :=
  match st.command with
  | .test _ otherwise => [st.next, otherwise]
  | _ => [st.next]

def Command.holderAfter (th : Thread) (holder : Option Thread) : Command → Option Thread
  | .lock => some th
  | .unlock | .wait _ => none
  | _ => holder

def Command.paymentAfter (th : Thread) (holder : Option Thread) : Command → Option Thread
  | .lockPayment => some th
  | .unlockPayment => none
  | _ => holder

def Command.countAfter (count : Nat) : Command → Nat
  | .countThread => count + 1
  | _ => count

/-- The threads, before the one that executes the command moves on. -/
def Command.threadsAfter (s : Floor) : Command → Thread → Option Local
  | .broadcast cv => fun u => (s.threads u).map (Local.wake cv)
  | .create => Function.update s.threads (.customer s.custCount) (some { line := 95 })
  | _ => s.threads

structure Effect (s : Floor) (th : Thread) (st : Statement) (l' : Local) (s' : Floor) :
    Prop where
  threads : s'.threads = Function.update (st.command.threadsAfter s) th (some l')
  holder : s'.holder = st.command.holderAfter th s.holder
  payment : s'.paymentHolder = st.command.paymentAfter th s.paymentHolder
  count : s'.custCount = st.command.countAfter s.custCount
  free : st.command = .lockPayment → s.paymentHolder = none
  line : l'.line ∈ st.targets
  status : (∀ cv, st.command ≠ .wait cv) → l'.status = .running

theorem effect_of_execute {s s' : Floor} {th : Thread} {l : Local} {st : Statement}
    (hrunning : l.status = .running) (h : execute th l st s = some s') :
    ∃ l', Effect s th st l' s' := by
  obtain ⟨line, command, next⟩ := st
  cases command with
  | test t otherwise =>
      cases h
      refine ⟨_, rfl, rfl, rfl, rfl, nofun, ?_, fun _ => hrunning⟩
      dsimp only [Statement.targets]
      split <;> simp
  | lock | join | joinChef =>
      simp only [execute, Option.ite_none_right_eq_some, Option.some.injEq] at h
      obtain ⟨-, rfl⟩ := h
      exact ⟨_, rfl, rfl, rfl, rfl, nofun, .head _, fun _ => hrunning⟩
  | lockPayment =>
      simp only [execute, Option.ite_none_right_eq_some, Option.some.injEq] at h
      obtain ⟨hfree, rfl⟩ := h
      exact ⟨_, rfl, rfl, rfl, rfl, fun _ => hfree, .head _, fun _ => hrunning⟩
  | push | post =>
      simp only [execute, Option.map_eq_some_iff] at h
      obtain ⟨c, -, rfl⟩ := h
      exact ⟨_, rfl, rfl, rfl, rfl, nofun, .head _, fun _ => hrunning⟩
  | semWait =>
      simp only [execute, Option.bind_eq_some_iff, Option.ite_none_right_eq_some,
        Option.some.injEq] at h
      obtain ⟨c, -, -, rfl⟩ := h
      exact ⟨_, rfl, rfl, rfl, rfl, nofun, .head _, fun _ => hrunning⟩
  | wait cv =>
      cases h
      exact ⟨_, rfl, rfl, rfl, rfl, nofun, .head _, fun hrun => absurd rfl (hrun cv)⟩
  | ret => cases h
  | _ =>
      cases h
      exact ⟨_, rfl, rfl, rfl, rfl, nofun, .head _, fun _ => hrunning⟩

/-! ## Where the mutexes are held -/

/-- From the call that takes `payment_mutex` to the one that gives it back. -/
def registerLines : List Nat := [35, 36, 39, 42]

/-- A chef that accepts a payment. -/
def AtRegister (th : Thread) (l : Local) : Prop :=
  th.role = .chef ∧ l.status = .running ∧ l.line ∈ registerLines

/-- The lines before which a thread may have `lock`, whatever has happened to it before. -/
def Role.sections : Role → List Nat
  | .main => [73, 74, 85, 92, 94, 98, 99, 114, 115, 116]
  | .chef => [16, 18, 19, 22, 26, 27, 29, 49, 50, 52, 69]
  | .customer =>
      [102, 103, 111, 112, 113, 121, 124, 126, 127, 129, 132, 134, 142, 143, 144, 169, 170, 171,
        183, 184, 187, 189, 190]

/-- A statement keeps its thread in the section, unless it gives the lock back. -/
def Statement.encloses (r : Role) (st : Statement) : Bool :=
  match st.command with
  | .lock | .wait _ => st.next ∈ r.sections
  | .unlock => true
  | _ => st.line ∉ r.sections ∨ st.targets.all (· ∈ r.sections)

/-- The two calls, and nothing else, lead to the register and away from it. -/
def Statement.attends (r : Role) (st : Statement) : Bool :=
  match st.command with
  | .lockPayment => r = .chef ∧ st.next ∈ registerLines
  | .unlockPayment => r = .chef ∧ st.line ∈ registerLines ∧ st.next ∉ registerLines
  | .wait _ => st.line ∉ registerLines ∧ st.next ∉ registerLines
  | _ => st.targets.all fun n => n ∈ registerLines ↔ st.line ∈ registerLines

/-- Only `main` starts customers, and between the start and the count it goes nowhere else. -/
def Statement.counts (r : Role) (st : Statement) : Bool :=
  match st.command with
  | .create => r = .main ∧ st.line ≠ 98 ∧ st.next = 98
  | .countThread => r = .main ∧ st.line = 98 ∧ st.next ≠ 98
  | _ => r ≠ .main ∨ st.line ≠ 98 ∧ 98 ∉ st.targets

theorem encloses_of_mem (r : Role) : ∀ st ∈ r.code, st.encloses r := by
  cases r <;> decide

theorem attends_of_mem (r : Role) : ∀ st ∈ r.code, st.attends r := by
  cases r <;> decide

theorem counts_of_mem (r : Role) : ∀ st ∈ r.code, st.counts r := by
  cases r <;> decide

theorem notMem_registerLines {r : Role} {n : Nat} (h : n ∈ r.sections) : n ∉ registerLines := by
  cases r <;> simp_all [Role.sections, registerLines] <;> omega

/-- The keeping of both mutexes, and of the numbers of the customers. -/
structure Attended (s : Floor) : Prop where
  register : Tracked AtRegister s.threads s.paymentHolder
  cashier : ∀ th, s.paymentHolder = some th → th.role = .chef
  inside : ∀ th, s.holder = some th →
    ∃ l, s.threads th = some l ∧ l.status = .running ∧ l.line ∈ th.role.sections
  parked : ∀ th l, s.threads th = some l → l.status ≠ .running → l.line ∈ th.role.sections
  fresh : ∀ c l, s.threads (.customer c) = some l →
    c < s.custCount ∨ c = s.custCount ∧ ∃ m, s.threads .main = some m ∧ m.line = 98

/-! ## The other threads -/

/-- A thread that has at most been woken up. -/
structure Stays (l m : Local) : Prop where
  line : m.line = l.line
  running : m.status = .running ↔ l.status = .running

theorem Stays.refl (l : Local) : Stays l l := ⟨rfl, Iff.rfl⟩

theorem Stays.wake (cv : Cond) (l : Local) : Stays l (l.wake cv) := by
  unfold Local.wake
  split
  · exact ⟨rfl, by simp_all⟩
  · exact .refl l

theorem Stays.atRegister {l m : Local} (h : Stays l m) (th : Thread) :
    AtRegister th m ↔ AtRegister th l := by
  rw [AtRegister, AtRegister, h.line, h.running]

section Others

variable {s : Floor} {c : Command} {u : Thread} {l m : Local}

theorem stays_of_threadsAfter (h : c.threadsAfter s u = some m) :
    (c = .create ∧ u = .customer s.custCount ∧ m = { line := 95 }) ∨
      ∃ l, s.threads u = some l ∧ Stays l m := by
  cases c with
  | broadcast cv =>
      obtain ⟨l, hl, rfl⟩ := Option.map_eq_some_iff.mp h
      exact .inr ⟨l, hl, .wake cv l⟩
  | create =>
      rw [Command.threadsAfter, Function.update_apply] at h
      split at h
      case isTrue hu =>
        cases h
        exact .inl ⟨rfl, hu, rfl⟩
      case isFalse => exact .inr ⟨m, h, .refl m⟩
  | _ => exact .inr ⟨m, h, .refl m⟩

theorem threadsAfter_of_threads (h : s.threads u = some l)
    (hold : c = .create → u ≠ .customer s.custCount) :
    ∃ m, c.threadsAfter s u = some m ∧ Stays l m := by
  cases c with
  | broadcast cv => exact ⟨l.wake cv, by simp [Command.threadsAfter, h], .wake cv l⟩
  | create =>
      refine ⟨l, ?_, .refl l⟩
      rw [Command.threadsAfter, Function.update_of_ne (hold rfl)]
      exact h
  | _ => exact ⟨l, h, .refl l⟩

theorem Attended.registerAfter (h : Attended s) (c : Command) :
    Tracked AtRegister (c.threadsAfter s) s.paymentHolder := by
  intro u m hm
  obtain ⟨-, rfl, rfl⟩ | ⟨l, hl, hstays⟩ := stays_of_threadsAfter hm
  · constructor
    · intro hholder
      exact absurd (h.cashier _ hholder) (by simp [Thread.role])
    · rintro ⟨hchef, -, -⟩
      exact absurd hchef (by simp [Thread.role])
  · exact (h.register.holder_iff hl).trans (hstays.atRegister u).symm

end Others

/-! ## The steps -/

section Steps

variable {s s' : Floor} {th : Thread} {l l' : Local} {st : Statement}

/-- `main` starts a customer whose number nobody has. -/
theorem Attended.unborn (h : Attended s) (hexec : s.executes th l st)
    (hcreate : st.command = .create) : s.threads (.customer s.custCount) = none := by
  obtain ⟨hl, -, hst⟩ := hexec
  obtain ⟨hmem, hline⟩ := mem_of_statementAt hst
  have hcounts := counts_of_mem th.role st hmem
  simp only [Statement.counts, hcreate, decide_eq_true_eq] at hcounts
  obtain ⟨hmain, hne, -⟩ := hcounts
  cases th with
  | main =>
      by_contra hsome
      obtain ⟨m, hm⟩ := Option.ne_none_iff_exists'.mp hsome
      obtain hlt | ⟨-, k, hk, hk98⟩ := h.fresh _ m hm
      · exact Nat.lt_irrefl _ hlt
      · rw [hl] at hk
        cases hk
        exact hne (hline.trans hk98)
  | chef k => cases hmain
  | customer c => cases hmain

theorem Attended.old (h : Attended s) (hexec : s.executes th l st) {u : Thread} {m : Local}
    (hm : s.threads u = some m) (hcreate : st.command = .create) : u ≠ .customer s.custCount := by
  rintro rfl
  rw [h.unborn hexec hcreate] at hm
  cases hm

theorem Attended.registerStep (h : Attended s) (hexec : s.executes th l st)
    (heffect : Effect s th st l' s') : Tracked AtRegister s'.threads s'.paymentHolder := by
  have ⟨hl, hrunning, hst⟩ := hexec
  obtain ⟨hmem, hline⟩ := mem_of_statementAt hst
  have hattends := attends_of_mem th.role st hmem
  have hafter := h.registerAfter st.command
  have htarget := heffect.line
  have hstatus := heffect.status
  rw [heffect.threads, heffect.payment]
  cases hcommand : st.command with
  | lockPayment =>
      simp only [Statement.attends, Statement.targets, hcommand, decide_eq_true_eq,
        List.mem_singleton] at hattends htarget
      rw [hcommand, heffect.free hcommand] at hafter
      exact hafter.acquire ⟨hattends.1, hstatus (by simp [hcommand]), htarget ▸ hattends.2⟩
  | unlockPayment =>
      simp only [Statement.attends, Statement.targets, hcommand, decide_eq_true_eq,
        List.mem_singleton] at hattends htarget
      obtain ⟨hchef, hbefore, hbehind⟩ := hattends
      have hholder := (h.register.holder_iff hl).mpr ⟨hchef, hrunning, hline ▸ hbefore⟩
      rw [hcommand, hholder] at hafter
      exact hafter.release fun hat => hbehind (htarget ▸ hat.2.2)
  | wait cv =>
      simp only [Statement.attends, Statement.targets, hcommand, decide_eq_true_eq,
        List.mem_singleton] at hattends htarget
      obtain ⟨hbefore, hbehind⟩ := hattends
      rw [hcommand] at hafter
      refine hafter.keep hl (iff_of_false ?_ ?_)
      · exact fun hat => hbehind (htarget ▸ hat.2.2)
      · exact fun hat => hbefore (hline ▸ hat.2.2)
  | _ =>
      obtain ⟨m, hm, hstays⟩ := threadsAfter_of_threads hl (h.old hexec hl)
      simp only [Statement.attends, hcommand, List.all_eq_true, decide_eq_true_eq] at hattends
      rw [hcommand] at hafter hm
      refine hafter.keep hm ?_
      rw [hstays.atRegister, AtRegister, AtRegister, hattends _ htarget, hline,
        hstatus (by simp [hcommand]), hrunning]

theorem Attended.insideStep (h : Attended s) (hexec : s.executes th l st)
    (heffect : Effect s th st l' s') :
    ∀ u, s'.holder = some u →
      ∃ l, s'.threads u = some l ∧ l.status = .running ∧ l.line ∈ u.role.sections := by
  intro u hu
  have ⟨hl, hrunning, hst⟩ := hexec
  obtain ⟨hmem, hline⟩ := mem_of_statementAt hst
  have hencloses := encloses_of_mem th.role st hmem
  have htarget := heffect.line
  have hstatus := heffect.status
  rw [heffect.holder] at hu
  rw [heffect.threads]
  cases hcommand : st.command with
  | lock =>
      simp only [Statement.encloses, Statement.targets, hcommand, decide_eq_true_eq,
        List.mem_singleton] at hencloses htarget
      rw [hcommand] at hu
      cases hu
      exact ⟨l', Function.update_self .., hstatus (by simp [hcommand]), htarget ▸ hencloses⟩
  | unlock | wait cv =>
      rw [hcommand] at hu
      cases hu
  | _ =>
      rw [hcommand] at hu
      obtain ⟨k, hk, hkrunning, hksection⟩ := h.inside u hu
      by_cases hself : u = th
      · subst hself
        rw [hl] at hk
        cases hk
        simp only [Statement.encloses, hcommand, decide_eq_true_eq, List.all_eq_true] at hencloses
        refine ⟨l', Function.update_self .., hstatus (by simp [hcommand]), ?_⟩
        exact hencloses.resolve_left (not_not_intro (hline ▸ hksection)) _ htarget
      · obtain ⟨m, hm, hstays⟩ := threadsAfter_of_threads hk (h.old hexec hk)
        rw [hcommand] at hm
        refine ⟨m, ?_, hstays.running.mpr hkrunning, hstays.line ▸ hksection⟩
        rw [Function.update_of_ne hself]
        exact hm

theorem Attended.parkedStep (h : Attended s) (hexec : s.executes th l st)
    (heffect : Effect s th st l' s') :
    ∀ u m, s'.threads u = some m → m.status ≠ .running → m.line ∈ u.role.sections := by
  intro u m hm hparked
  rw [heffect.threads, Function.update_apply] at hm
  split at hm
  case isTrue hself =>
    cases hm
    subst hself
    by_contra hsection
    have hwait : ∃ cv, st.command = .wait cv := by
      by_contra hnot
      exact hparked (heffect.status fun cv hcv => hnot ⟨cv, hcv⟩)
    obtain ⟨cv, hcommand⟩ := hwait
    obtain ⟨hmem, hline⟩ := mem_of_statementAt hexec.2.2
    have hencloses := encloses_of_mem u.role st hmem
    have htarget := heffect.line
    simp only [Statement.encloses, Statement.targets, hcommand, decide_eq_true_eq,
      List.mem_singleton] at hencloses htarget
    exact hsection (htarget ▸ hencloses)
  case isFalse =>
    obtain ⟨-, -, rfl⟩ | ⟨k, hk, hstays⟩ := stays_of_threadsAfter hm
    · exact absurd rfl hparked
    · rw [hstays.line]
      exact h.parked u k hk (mt hstays.running.mpr hparked)

theorem Attended.freshStep (h : Attended s) (hexec : s.executes th l st)
    (heffect : Effect s th st l' s') :
    ∀ c m, s'.threads (.customer c) = some m →
      c < s'.custCount ∨ c = s'.custCount ∧ ∃ k, s'.threads .main = some k ∧ k.line = 98 := by
  intro c m hm
  have ⟨hl, hrunning, hst⟩ := hexec
  obtain ⟨hmem, hline⟩ := mem_of_statementAt hst
  have hcounts := counts_of_mem th.role st hmem
  -- the customer was there before, unless this step starts it
  have hbefore : (st.command = .create ∧ c = s.custCount) ∨
      ∃ k, s.threads (.customer c) = some k := by
    rw [heffect.threads, Function.update_apply] at hm
    split at hm
    case isTrue hself => exact .inr ⟨l, hself ▸ hl⟩
    case isFalse =>
      obtain ⟨hcreate, hc, -⟩ | ⟨k, hk, -⟩ := stays_of_threadsAfter hm
      · exact .inl ⟨hcreate, by simpa using hc⟩
      · exact .inr ⟨k, hk⟩
  have hle : c ≤ s.custCount := by
    obtain ⟨-, rfl⟩ | ⟨k, hk⟩ := hbefore
    · exact Nat.le_refl _
    · obtain hlt | ⟨rfl, -⟩ := h.fresh c k hk
      · exact Nat.le_of_lt hlt
      · exact Nat.le_refl _
  rw [heffect.count, heffect.threads]
  cases hcommand : st.command with
  | create =>
      simp only [Statement.counts, hcommand, decide_eq_true_eq] at hcounts
      obtain ⟨hmain, -, hnext⟩ := hcounts
      have htarget := heffect.line
      simp only [Statement.targets, hcommand, List.mem_singleton] at htarget
      cases th with
      | main =>
          exact (Nat.lt_or_eq_of_le hle).imp_right fun hc =>
            ⟨hc, l', Function.update_self .., htarget.trans hnext⟩
      | chef k => cases hmain
      | customer d => cases hmain
  | countThread => exact .inl (Nat.lt_succ_of_le hle)
  | _ =>
      obtain ⟨hcreate, -⟩ | ⟨k, hk⟩ := hbefore
      · rw [hcommand] at hcreate
        cases hcreate
      · refine (h.fresh c k hk).imp_right fun ⟨hc, k', hk', hk98⟩ => ⟨hc, ?_⟩
        simp only [Statement.counts, hcommand, decide_eq_true_eq] at hcounts
        by_cases hself : th = .main
        · subst hself
          rw [hl] at hk'
          cases hk'
          exact absurd (hline.trans hk98) (hcounts.resolve_left (by simp [Thread.role])).1
        · obtain ⟨m', hm', hstays⟩ := threadsAfter_of_threads hk' (h.old hexec hk')
          rw [hcommand] at hm'
          refine ⟨m', ?_, hstays.line.trans hk98⟩
          rw [Function.update_of_ne (Ne.symm hself)]
          exact hm'

theorem Attended.execute (h : Attended s) (hexec : s.executes th l st)
    (hstep : execute th l st s = some s') : Attended s' := by
  obtain ⟨l', heffect⟩ := effect_of_execute hexec.2.1 hstep
  refine ⟨h.registerStep hexec heffect, fun u hu => ?_, h.insideStep hexec heffect,
    h.parkedStep hexec heffect, h.freshStep hexec heffect⟩
  have hattends := attends_of_mem th.role st (mem_of_statementAt hexec.2.2).1
  rw [heffect.payment] at hu
  cases hcommand : st.command with
  | lockPayment =>
      simp only [Statement.attends, hcommand, decide_eq_true_eq] at hattends
      rw [hcommand] at hu
      cases hu
      exact hattends.1
  | unlockPayment =>
      rw [hcommand] at hu
      cases hu
  | _ =>
      rw [hcommand] at hu
      exact h.cashier u hu

variable (l') in
/-- A thread inside `pthread_cond_wait` changes its status, and may take the lock again. -/
theorem Attended.rouse (h : Attended s) (hl : s.threads th = some l) (hparked : l.status ≠ .running)
    (hline : l'.line = l.line) (holder' : Option Thread)
    (hholder : ∀ u, holder' = some u → u = th ∧ l'.status = .running ∨ s.holder = some u) :
    Attended ({ s with holder := holder' }.goTo th l') := by
  have hsection := h.parked th l hl hparked
  have hupdate : ∀ u m, Function.update s.threads th (some l') u = some m →
      ∃ k, s.threads u = some k ∧ m.line = k.line ∧ (m.status = k.status ∨ u = th) := by
    intro u m hm
    rw [Function.update_apply] at hm
    split at hm
    case isTrue hself =>
      cases hm
      exact ⟨l, hself ▸ hl, hline, .inr hself⟩
    case isFalse => exact ⟨m, hm, rfl, .inl rfl⟩
  refine ⟨?_, h.cashier, fun u hu => ?_, fun u m hm hstatus => ?_, fun c m hm => ?_⟩
  · refine h.register.keep hl (iff_of_false ?_ fun hat => hparked hat.2.1)
    exact fun hat => notMem_registerLines (hline ▸ hsection) hat.2.2
  · obtain ⟨rfl, hrunning⟩ | hbefore := hholder u hu
    · exact ⟨l', Function.update_self .., hrunning, hline ▸ hsection⟩
    · obtain ⟨k, hk, hrunning, hksection⟩ := h.inside u hbefore
      have hother : u ≠ th := by
        rintro rfl
        rw [hl] at hk
        cases hk
        exact hparked hrunning
      exact ⟨k, (Function.update_of_ne hother ..).trans hk, hrunning, hksection⟩
  · obtain ⟨k, hk, hkline, hsame | rfl⟩ := hupdate u m hm
    · exact hkline ▸ h.parked u k hk (hsame ▸ hstatus)
    · rw [hl] at hk
      cases hk
      exact hkline ▸ hsection
  · obtain ⟨k, hk, -⟩ := hupdate _ m hm
    refine (h.fresh c k hk).imp_right fun ⟨hc, k', hk', hk98⟩ => ⟨hc, ?_⟩
    by_cases hself : th = .main
    · subst hself
      rw [hl] at hk'
      cases hk'
      exact ⟨l', by simp [Floor.goTo], hline.trans hk98⟩
    · exact ⟨k', (Function.update_of_ne (Ne.symm hself) ..).trans hk', hk98⟩

theorem Attended.step {e : Event} {out : List Empty} (h : Attended s)
    (hstep : statements.step e s = some (s', out)) : Attended s' := by
  cases e with
  | step th =>
      simp only [statements, threadTurn, Option.map_eq_some_iff, Option.bind_eq_some_iff,
        Prod.mk.injEq] at hstep
      obtain ⟨s', ⟨l, hl, hturn⟩, rfl, -⟩ := hstep
      cases hstatus : l.status with
      | running =>
          simp only [hstatus, Option.bind_eq_some_iff] at hturn
          obtain ⟨st, hst, hexecute⟩ := hturn
          exact h.execute ⟨hl, hstatus, hst⟩ hexecute
      | asleep => simp [hstatus] at hturn
      | reacquiring =>
          simp only [hstatus, reacquire, Option.ite_none_right_eq_some, Option.some.injEq] at hturn
          obtain ⟨-, rfl⟩ := hturn
          refine h.rouse { l with status := .running } hl (by simp [hstatus]) rfl (some th) ?_
          exact fun u hu => .inl ⟨(Option.some.inj hu).symm, rfl⟩
  | spurious th =>
      simp only [statements, wakeUp, Option.map_eq_some_iff, Option.bind_eq_some_iff,
        Prod.mk.injEq] at hstep
      obtain ⟨s', ⟨l, hl, hturn⟩, rfl, -⟩ := hstep
      cases hstatus : l.status with
      | running => simp [hstatus] at hturn
      | reacquiring => simp [hstatus] at hturn
      | asleep cv =>
          simp only [hstatus, Option.some.injEq] at hturn
          subst hturn
          exact h.rouse { l with status := .reacquiring } hl (by simp [hstatus]) rfl s.holder
            fun u hu => .inr hu

end Steps

theorem attended_opening (arrivals : List Arrival) : Attended (Floor.opening arrivals) := by
  have hstart : ∀ th l, (Floor.opening arrivals).threads th = some l →
      l.status = .running ∧ ¬ AtRegister th l := by
    intro th l hl
    cases th with
    | main =>
        cases hl
        exact ⟨rfl, by simp [AtRegister, registerLines]⟩
    | chef k =>
        simp only [Floor.opening, Option.ite_none_right_eq_some, Option.some.injEq] at hl
        obtain ⟨-, rfl⟩ := hl
        exact ⟨rfl, by simp [AtRegister, registerLines]⟩
    | customer c => cases hl
  refine ⟨fun th l hl => ?_, ?_, ?_, fun th l hl hparked => ?_, ?_⟩
  · refine iff_of_false ?_ (hstart th l hl).2
    rintro ⟨⟩
  · rintro th ⟨⟩
  · rintro th ⟨⟩
  · exact absurd (hstart th l hl).1 hparked
  · rintro c l ⟨⟩

/-! ## The payments -/

/-- The payments are accepted one after the other, and the mutexes are not nested. -/
structure Registered (s : Floor) : Prop where
  /-- Who is recorded as the holder of `payment_mutex` is the one at the register. -/
  holds : ∀ th l, s.threads th = some l → (s.paymentHolder = some th ↔ AtRegister th l)
  alone : ∀ th th' l l', s.threads th = some l → s.threads th' = some l' →
    AtRegister th l → AtRegister th' l' → th = th'
  apart : ∀ th, s.paymentHolder = some th → s.holder ≠ some th
  /-- Nobody asks for one of the mutexes while it holds the other. -/
  asks : ∀ th l st, s.executes th l st →
    (s.holder = some th → st.command ≠ .lockPayment) ∧
      (s.paymentHolder = some th → st.command ≠ .lock)

theorem Attended.registered {s : Floor} (h : Attended s) : Registered s where
  holds := fun th l hl => h.register.holder_iff hl
  alone := fun th th' l l' hl hl' => h.register.exclusive hl hl'
  apart := by
    intro th hpayment hholder
    obtain ⟨l, hl, -, hsection⟩ := h.inside th hholder
    exact notMem_registerLines hsection ((h.register.holder_iff hl).mp hpayment).2.2
  asks := by
    rintro th l st ⟨hl, hrunning, hst⟩
    obtain ⟨hmem, hline⟩ := mem_of_statementAt hst
    have hencloses := encloses_of_mem th.role st hmem
    have hattends := attends_of_mem th.role st hmem
    constructor
    · intro hholder hcommand
      obtain ⟨k, hk, -, hsection⟩ := h.inside th hholder
      rw [hl] at hk
      cases hk
      simp only [Statement.encloses, Statement.attends, Statement.targets, hcommand,
        decide_eq_true_eq, hline, hsection] at hencloses hattends
      exact notMem_registerLines (by simpa using hencloses) hattends.2
    · intro hpayment hcommand
      have hat := (h.register.holder_iff hl).mp hpayment
      simp only [Statement.encloses, Statement.attends, Statement.targets, hcommand,
        decide_eq_true_eq, hline, hat.2.2] at hencloses hattends
      exact notMem_registerLines hencloses (by simpa using hattends)

/-- In every run the chefs accept the payments one after the other. -/
theorem register_exclusive {arrivals : List Arrival} {es : List Event} {s : Floor}
    {outs : List Empty} (hrun : statements.run es (Floor.opening arrivals) = some (s, outs)) :
    Registered s := by
  have hattended := statements.run_invariant (P := Attended)
    (fun _ _ _ _ h hstep => h.step hstep) (attended_opening arrivals) hrun
  exact hattended.registered

/-- The one customer is served and lines up at the register, and a chef comes there. -/
def firstPayment : List Event :=
  List.replicate 10 (.step .main) ++ List.replicate 12 (.step (.customer 0)) ++
    List.replicate 8 (.step (.chef 0)) ++ List.replicate 4 (.step (.customer 0)) ++
    List.replicate 5 (.step (.chef 0)) ++ List.replicate 7 (.step (.customer 0)) ++
    List.replicate 7 (.step (.chef 0))

theorem register_exclusive_firstPayment : ∃ s outs,
    statements.run firstPayment (Floor.opening [⟨0, 7⟩]) = some (s, outs) ∧
      s.paymentHolder = some (.chef 0) ∧ Registered s := by
  obtain ⟨s, outs, hrun, hholder⟩ := statements.exists_run firstPayment (Floor.opening [⟨0, 7⟩])
    (fun x => x.1.paymentHolder = some (.chef 0)) rfl
  exact ⟨s, outs, hrun, of_decide_eq_true hholder, register_exclusive hrun⟩

end OxyC.Bakery
