import OxyC.Bakery.Shop

/-!
# The statements of the threads

The bodies of `main`, `chef_thread` and `customer_thread` with each statement as
one step.  A thread stands before a line of its function.  The mutexes are the
default ones: a release frees the mutex, whoever holds it.
-/

namespace OxyC.Bakery

open OxyC.Foundation

inductive Cond where
  | chefCv
  | standingCv
  deriving DecidableEq, Repr

inductive Sem where
  | served
  | startBake
  | bakeDone
  | paymentOk
  deriving DecidableEq, Repr

/-- The conditions of the `while`, `for` and `if` statements. -/
inductive Test where
  | moreArrivals
  | full
  | moreThreads
  | moreChefs
  | stillOpen
  | nothingToDo
  | closing
  | paymentWaiting
  | sofaWaiting
  | seatFree
  | myTurn
  | mismatch
  deriving DecidableEq, Repr

inductive Command where
  /-- Logging, sleeping, a jump, the end of an allocation's life. -/
  | skip
  | test (t : Test) (otherwise : Nat)
  | lock
  | unlock
  | lockPayment
  | unlockPayment
  | wait (cv : Cond)
  | broadcast (cv : Cond)
  | push (l : Line)
  | pop (l : Line)
  | countSofa (n : Int)
  | countCustomers (n : Int)
  | post (sem : Sem)
  | semWait (sem : Sem)
  | initCustomer
  | create
  | countThread
  | nextArrival
  | join
  | joinChef
  | shutDown
  /-- The `break` out of the waiting loop of a chef. -/
  | leaveLoop
  | ret
  deriving DecidableEq, Repr

structure Statement where
  line : Nat
  command : Command
  /-- Where the thread goes on, if the test of the statement holds. -/
  next : Nat
  deriving DecidableEq, Repr

/-- `main`, from the loop over the arrivals on. -/
def mainCode : List Statement :=
  [⟨67, .test .moreArrivals 107, 70⟩,
   ⟨70, .skip, 72⟩,
   ⟨72, .lock, 73⟩,
   ⟨73, .test .full 85, 74⟩,
   ⟨74, .unlock, 77⟩,
   ⟨77, .skip, 79⟩,
   ⟨79, .nextArrival, 67⟩,
   ⟨85, .initCustomer, 92⟩,
   ⟨92, .countCustomers 1, 94⟩,
   ⟨94, .create, 98⟩,
   ⟨98, .countThread, 99⟩,
   ⟨99, .unlock, 102⟩,
   ⟨102, .nextArrival, 67⟩,
   ⟨107, .test .moreThreads 110, 108⟩,
   ⟨108, .join, 107⟩,
   ⟨110, .skip, 113⟩,
   ⟨113, .lock, 114⟩,
   ⟨114, .shutDown, 115⟩,
   ⟨115, .broadcast .chefCv, 116⟩,
   ⟨116, .unlock, 118⟩,
   ⟨118, .test .moreChefs 122, 119⟩,
   ⟨119, .joinChef, 118⟩,
   ⟨122, .ret, 122⟩]

/-- `chef_thread`. -/
def chefCode : List Statement :=
  [⟨10, .test .stillOpen 71, 15⟩,
   ⟨15, .lock, 16⟩,
   ⟨16, .test .nothingToDo 26, 18⟩,
   ⟨18, .test .closing 22, 19⟩,
   ⟨19, .unlock, 20⟩,
   ⟨20, .leaveLoop, 26⟩,
   ⟨22, .wait .chefCv, 16⟩,
   ⟨26, .test .paymentWaiting 49, 27⟩,
   ⟨27, .pop .payment, 29⟩,
   ⟨29, .unlock, 32⟩,
   ⟨32, .lockPayment, 35⟩,
   ⟨35, .skip, 36⟩,
   ⟨36, .skip, 39⟩,
   ⟨39, .post .paymentOk, 42⟩,
   ⟨42, .unlockPayment, 45⟩,
   ⟨45, .skip, 10⟩,
   ⟨49, .test .sofaWaiting 69, 50⟩,
   ⟨50, .pop .sofa, 52⟩,
   ⟨52, .unlock, 55⟩,
   ⟨55, .post .served, 58⟩,
   ⟨58, .semWait .startBake, 60⟩,
   ⟨60, .skip, 61⟩,
   ⟨61, .skip, 64⟩,
   ⟨64, .post .bakeDone, 66⟩,
   ⟨66, .skip, 10⟩,
   ⟨69, .unlock, 10⟩,
   ⟨71, .ret, 71⟩]

/-- `customer_thread`. -/
def customerCode : List Statement :=
  [⟨95, .skip, 96⟩,
   ⟨96, .skip, 99⟩,
   ⟨99, .test .seatFree 117, 101⟩,
   ⟨101, .lock, 102⟩,
   ⟨102, .countSofa 1, 103⟩,
   ⟨103, .unlock, 106⟩,
   ⟨106, .skip, 107⟩,
   ⟨107, .skip, 110⟩,
   ⟨110, .lock, 111⟩,
   ⟨111, .push .sofa, 112⟩,
   ⟨112, .broadcast .chefCv, 113⟩,
   ⟨113, .unlock, 152⟩,
   ⟨117, .push .standing, 118⟩,
   ⟨118, .skip, 121⟩,
   ⟨121, .wait .standingCv, 124⟩,
   ⟨124, .test .myTurn 121, 126⟩,
   ⟨126, .pop .standing, 127⟩,
   ⟨127, .test .mismatch 132, 129⟩,
   ⟨129, .skip, 132⟩,
   ⟨132, .countSofa 1, 134⟩,
   ⟨134, .unlock, 137⟩,
   ⟨137, .skip, 138⟩,
   ⟨138, .skip, 141⟩,
   ⟨141, .lock, 142⟩,
   ⟨142, .push .sofa, 143⟩,
   ⟨143, .broadcast .chefCv, 144⟩,
   ⟨144, .unlock, 145⟩,
   ⟨145, .skip, 152⟩,
   ⟨152, .semWait .served, 154⟩,
   ⟨154, .skip, 155⟩,
   ⟨155, .skip, 158⟩,
   ⟨158, .post .startBake, 161⟩,
   ⟨161, .semWait .bakeDone, 164⟩,
   ⟨164, .skip, 165⟩,
   ⟨165, .skip, 168⟩,
   ⟨168, .lock, 169⟩,
   ⟨169, .push .payment, 170⟩,
   ⟨170, .broadcast .chefCv, 171⟩,
   ⟨171, .unlock, 174⟩,
   ⟨174, .semWait .paymentOk, 179⟩,
   ⟨179, .skip, 180⟩,
   ⟨180, .skip, 182⟩,
   ⟨182, .lock, 183⟩,
   ⟨183, .countSofa (-1), 184⟩,
   ⟨184, .countCustomers (-1), 187⟩,
   ⟨187, .broadcast .standingCv, 189⟩,
   ⟨189, .broadcast .chefCv, 190⟩,
   ⟨190, .unlock, 193⟩,
   ⟨193, .skip, 194⟩,
   ⟨194, .skip, 195⟩,
   ⟨195, .skip, 196⟩,
   ⟨196, .skip, 197⟩,
   ⟨197, .ret, 197⟩]

inductive Role where
  | main
  | chef
  | customer
  deriving DecidableEq, Repr

def Role.code : Role → List Statement
  | .main => mainCode
  | .chef => chefCode
  | .customer => customerCode

def Thread.role : Thread → Role
  | .main => .main
  | .chef _ => .chef
  | .customer _ => .customer

def statementAt (r : Role) (line : Nat) : Option Statement := r.code.find? (·.line = line)

theorem mem_of_statementAt {r : Role} {line : Nat} {st : Statement}
    (h : statementAt r line = some st) : st ∈ r.code ∧ st.line = line :=
  ⟨List.mem_of_find?_eq_some h, by simpa using List.find?_some h⟩

inductive Status where
  | running
  | asleep (cv : Cond)
  /-- Woken up inside `pthread_cond_wait`, the lock not yet taken again. -/
  | reacquiring
  deriving DecidableEq, Repr

structure Local where
  line : Nat
  status : Status := .running
  /-- `toPay`, `toBake` or `popped`. -/
  popped : Option Nat := none
  /-- The thread came out of the waiting loop by the `break`; no statement reads this. -/
  broke : Bool := false
  deriving DecidableEq, Repr

def Local.wake (cv : Cond) (l : Local) : Local :=
  if l.status = .asleep cv then { l with status := .reacquiring } else l

structure Floor where
  threads : Thread → Option Local
  arrivals : List Arrival
  custCount : Nat
  joined : Nat
  joinedChefs : Nat
  /-- Who holds `lock`. -/
  holder : Option Thread
  /-- Who holds `payment_mutex`. -/
  paymentHolder : Option Thread
  currentCustomers : Int
  sofaOccupied : Int
  queues : Linked
  sems : Nat → Sem → Nat
  shutdownFlag : Bool

namespace Floor

def goTo (th : Thread) (l : Local) (s : Floor) : Floor :=
  { s with threads := Function.update s.threads th (some l) }

def broadcast (cv : Cond) (s : Floor) : Floor :=
  { s with threads := fun th => (s.threads th).map (Local.wake cv) }

def setSem (c : Nat) (sem : Sem) (n : Nat) (s : Floor) : Floor :=
  { s with sems := Function.update s.sems c (Function.update (s.sems c) sem n) }

def returned (th : Thread) (s : Floor) : Bool :=
  match s.threads th with
  | some l => (statementAt th.role l.line).any (·.command = .ret)
  | none => false

end Floor

/-- The customer whose structure a thread works on. -/
def Thread.serves (l : Local) : Thread → Option Nat
  | .customer c => some c
  | _ => l.popped

def Test.holds (th : Thread) (l : Local) (s : Floor) : Test → Bool
  | .moreArrivals => s.arrivals ≠ []
  | .full => s.currentCustomers ≥ maxCapacity
  | .moreThreads => s.joined < s.custCount
  | .moreChefs => s.joinedChefs < numChefs
  | .stillOpen => !s.shutdownFlag
  | .nothingToDo => (s.queues.queue .payment).size = 0 ∧ (s.queues.queue .sofa).size = 0
  | .closing => s.shutdownFlag
  | .paymentWaiting => 0 < (s.queues.queue .payment).size
  | .sofaWaiting => 0 < (s.queues.queue .sofa).size
  | .seatFree => s.sofaOccupied < sofaSeats ∧ (s.queues.queue .standing).size = 0
  | .myTurn => (s.queues.queue .standing).head = th.serves l ∧ s.sofaOccupied < sofaSeats
  | .mismatch => l.popped ≠ th.serves l

/-- The step of a running thread; `none` stands for a thread that blocks, has returned or fails. -/
def execute (th : Thread) (l : Local) (st : Statement) (s : Floor) : Option Floor :=
  let onward := { l with line := st.next }
  match st.command with
  | .skip => some (s.goTo th onward)
  | .test t otherwise =>
      some (s.goTo th { l with line := if t.holds th l s then st.next else otherwise })
  | .lock =>
      if s.holder = none then
        some ({ s with holder := some th }.goTo th { onward with broke := false })
      else none
  | .unlock => some ({ s with holder := none }.goTo th onward)
  | .lockPayment =>
      if s.paymentHolder = none then
        some ({ s with paymentHolder := some th }.goTo th onward)
      else none
  | .unlockPayment => some ({ s with paymentHolder := none }.goTo th onward)
  | .wait cv => some ({ s with holder := none }.goTo th { onward with status := .asleep cv })
  | .broadcast cv => some ((s.broadcast cv).goTo th onward)
  | .push line =>
      (th.serves l).map fun c => { s with queues := s.queues.push line c }.goTo th onward
  | .pop line =>
      some ({ s with queues := s.queues.pop line }.goTo th
        { onward with popped := (s.queues.queue line).head })
  | .countSofa n => some ({ s with sofaOccupied := s.sofaOccupied + n }.goTo th onward)
  | .countCustomers n =>
      some ({ s with currentCustomers := s.currentCustomers + n }.goTo th onward)
  | .post sem =>
      (th.serves l).map fun c => (s.setSem c sem (s.sems c sem + 1)).goTo th onward
  | .semWait sem =>
      (th.serves l).bind fun c =>
        if 0 < s.sems c sem then some ((s.setSem c sem (s.sems c sem - 1)).goTo th onward)
        else none
  | .initCustomer =>
      some ({ s with sems := Function.update s.sems s.custCount fun _ => 0 }.goTo th onward)
  | .create => some ((s.goTo (.customer s.custCount) { line := 95 }).goTo th onward)
  | .countThread => some ({ s with custCount := s.custCount + 1 }.goTo th onward)
  | .nextArrival => some ({ s with arrivals := s.arrivals.tail }.goTo th onward)
  | .join =>
      if s.returned (.customer s.joined) then
        some ({ s with joined := s.joined + 1 }.goTo th onward)
      else none
  | .joinChef =>
      if s.returned (.chef s.joinedChefs) then
        some ({ s with joinedChefs := s.joinedChefs + 1 }.goTo th onward)
      else none
  | .shutDown => some ({ s with shutdownFlag := true }.goTo th onward)
  | .leaveLoop => some (s.goTo th { onward with broke := true })
  | .ret => none

/-- The end of `pthread_cond_wait`. -/
def reacquire (th : Thread) (l : Local) (s : Floor) : Option Floor :=
  if s.holder = none then
    some ({ s with holder := some th }.goTo th { l with status := .running })
  else none

def threadTurn (s : Floor) (th : Thread) : Option Floor :=
  (s.threads th).bind fun l =>
    match l.status with
    | .running => (statementAt th.role l.line).bind fun st => execute th l st s
    | .asleep _ => none
    | .reacquiring => reacquire th l s

def wakeUp (s : Floor) (th : Thread) : Option Floor :=
  (s.threads th).bind fun l =>
    match l.status with
    | .asleep _ => some (s.goTo th { l with status := .reacquiring })
    | _ => none

def statements : Mealy Event Empty Floor where
  step e s :=
    match e with
    | .step th => (threadTurn s th).map (·, [])
    | .spurious th => (wakeUp s th).map (·, [])

/-- The chefs have been started and the arrivals have been read. -/
def Floor.opening (arrivals : List Arrival) : Floor where
  threads
    | .main => some { line := 67 }
    | .chef k => if k < numChefs then some { line := 10 } else none
    | .customer _ => none
  arrivals := arrivals
  custCount := 0
  joined := 0
  joinedChefs := 0
  holder := none
  paymentHolder := none
  currentCustomers := 0
  sofaOccupied := 0
  queues := .init
  sems _ _ := 0
  shutdownFlag := false

end OxyC.Bakery
