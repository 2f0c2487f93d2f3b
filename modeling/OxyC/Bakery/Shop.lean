import OxyC.Foundation.LinkedQueue
import OxyC.Foundation.Mealy
import Mathlib.Data.List.Basic

/-!
# The bakery

The threads of `main.c` and `threads.c`.  Each unlocked test, critical section,
queue operation, wait and semaphore operation is one step of the thread that
executes it; the sleeps are part of the order of the steps.  The queues of
`queue.c` are a parameter, so that the same threads run over plain lists.
-/

namespace OxyC.Bakery

open OxyC.Foundation

def maxCapacity : Int := 25

def sofaSeats : Int := 4

def numChefs : Nat := 4

structure Arrival where
  ts : Int
  id : Int
  deriving DecidableEq, Repr

/-- `sofa_queue`, `standing_queue` and `payment_queue`. -/
inductive Line where
  | sofa
  | standing
  | payment
  deriving DecidableEq, Repr

/-- What the threads do with the three queues; a customer is known by its thread. -/
class Queues (Q : Type) where
  qInit : Q
  qPush : Line → Nat → Q → Q
  qPop : Line → Q → Q
  head : Line → Q → Option Nat
  size : Line → Q → Nat

/-- The queues of `queue.c`; `next` is the link in the customer. -/
abbrev Linked := LinkedQueues Line Nat

instance : Queues Linked where
  qInit := .init
  qPush := LinkedQueues.push
  qPop := LinkedQueues.pop
  head l q := (q.queue l).head
  size l q := (q.queue l).size

abbrev Lists := Line → List Nat

instance : Queues Lists where
  qInit _ := []
  qPush l c q := Function.update q l (q l ++ [c])
  qPop l q := Function.update q l (q l).tail
  head l q := (q l).head?
  size l q := (q l).length

/-- Where `customer_thread` is, named after what it does next or waits for. -/
inductive CustomerPoint where
  | entered
  /-- Between the two reads of the seat test. -/
  | sawSeat
  | taking
  | standing
  | queued
  | waiting
  | woken
  | seated
  | unserved
  | served
  | ordered
  | finished
  | paying
  | paid
  | left
  | freed
  deriving DecidableEq, Repr

structure Customer where
  id : Int
  point : CustomerPoint := .entered
  semServed : Nat := 0
  semStartBake : Nat := 0
  semBakeDone : Nat := 0
  semPaymentOk : Nat := 0
  deriving DecidableEq, Repr

/-- Where `chef_thread` is. -/
inductive ChefPoint where
  | looping
  | picking
  | waiting
  /-- Behind the `break`, before the two tests that follow the loop. -/
  | broke
  | brokeSofa
  | accepting (c : Nat)
  | serving (c : Nat)
  | awaiting (c : Nat)
  | baking (c : Nat)
  | returned
  deriving DecidableEq, Repr

inductive MainPoint where
  | admitting
  | joining (i : Nat)
  | joiningChefs (k : Nat)
  | returned
  deriving DecidableEq, Repr

structure Shop (Q : Type) where
  arrivals : List Arrival
  main : MainPoint
  customers : List Customer
  chefs : List ChefPoint
  currentCustomers : Int
  sofaOccupied : Int
  queues : Q
  shutdownFlag : Bool

/-- What a step does, seen from the customer it is about. -/
inductive Deed where
  | admits (c : Nat)
  | stands (c : Nat)
  | sits (c : Nat)
  | joinsSofa (c : Nat)
  | takes (k c : Nat)
  | requests (c : Nat)
  | bakes (k c : Nat)
  | finishesCake (k c : Nat)
  | joinsPayment (c : Nat)
  | bills (k c : Nat)
  | accepts (k c : Nat)
  | leaves (c : Nat)
  | frees (c : Nat)
  deriving DecidableEq, Repr

def Deed.customer : Deed → Nat
  | .admits c | .stands c | .sits c | .joinsSofa c | .takes _ c | .requests c | .bakes _ c
  | .finishesCake _ c | .joinsPayment c | .bills _ c | .accepts _ c | .leaves c | .frees c => c

inductive Thread where
  | main
  | chef (k : Nat)
  | customer (c : Nat)
  deriving DecidableEq, Repr

/-- A thread takes its next step, or wakes up without a broadcast. -/
inductive Event where
  | step (t : Thread)
  | spurious (t : Thread)
  deriving DecidableEq, Repr

def CustomerPoint.wake : CustomerPoint → CustomerPoint
  | .waiting => .woken
  | p => p

def Customer.wake (cu : Customer) : Customer := { cu with point := cu.point.wake }

def ChefPoint.wake : ChefPoint → ChefPoint
  | .waiting => .picking
  | p => p

namespace Shop

variable {Q : Type}

def customer (c : Nat) (f : Customer → Customer) (s : Shop Q) : Shop Q :=
  { s with customers := s.customers.modify c f }

def goTo (c : Nat) (p : CustomerPoint) (s : Shop Q) : Shop Q :=
  s.customer c fun cu => { cu with point := p }

def chefTo (k : Nat) (p : ChefPoint) (s : Shop Q) : Shop Q := { s with chefs := s.chefs.set k p }

def broadcastChefCv (s : Shop Q) : Shop Q := { s with chefs := s.chefs.map ChefPoint.wake }

def broadcastStandingCv (s : Shop Q) : Shop Q :=
  { s with customers := s.customers.map Customer.wake }

variable [Queues Q]

def push (l : Line) (c : Nat) (s : Shop Q) : Shop Q :=
  { s with queues := Queues.qPush l c s.queues }

def pop (l : Line) (s : Shop Q) : Shop Q := { s with queues := Queues.qPop l s.queues }

def head (l : Line) (s : Shop Q) : Option Nat := Queues.head l s.queues

def size (l : Line) (s : Shop Q) : Nat := Queues.size l s.queues

section Fields

omit [Queues Q]

variable (s : Shop Q) (c k : Nat) (f : Customer → Customer) (p : CustomerPoint) (p' : ChefPoint)

@[simp] theorem customer_customers : (s.customer c f).customers = s.customers.modify c f := rfl

@[simp] theorem customer_queues : (s.customer c f).queues = s.queues := rfl

@[simp] theorem goTo_customers :
    (s.goTo c p).customers = s.customers.modify c fun cu => { cu with point := p } := rfl

@[simp] theorem goTo_queues : (s.goTo c p).queues = s.queues := rfl

@[simp] theorem chefTo_customers : (s.chefTo k p').customers = s.customers := rfl

@[simp] theorem chefTo_queues : (s.chefTo k p').queues = s.queues := rfl

@[simp] theorem broadcastChefCv_customers : s.broadcastChefCv.customers = s.customers := rfl

@[simp] theorem broadcastChefCv_queues : s.broadcastChefCv.queues = s.queues := rfl

@[simp] theorem broadcastStandingCv_customers :
    s.broadcastStandingCv.customers = s.customers.map Customer.wake := rfl

end Fields

@[simp] theorem push_customers (s : Shop Q) (l : Line) (c : Nat) :
    (s.push l c).customers = s.customers := rfl

@[simp] theorem pop_customers (s : Shop Q) (l : Line) : (s.pop l).customers = s.customers := rfl

@[simp] theorem push_queues (s : Shop Lists) (l : Line) (c : Nat) :
    (s.push l c).queues = Function.update s.queues l (s.queues l ++ [c]) := rfl

@[simp] theorem pop_queues (s : Shop Lists) (l : Line) :
    (s.pop l).queues = Function.update s.queues l (s.queues l).tail := rfl

end Shop

section Threads

variable {Q : Type} [Queues Q]

/-- With `split` the two reads of the seat test are two steps. -/
def customerThread (split : Bool) (c : Nat) (cu : Customer) (s : Shop Q) :
    Option (Shop Q × List Deed) :=
  match cu.point with
  | .entered =>
      if s.sofaOccupied < sofaSeats then
        if split then some (s.goTo c .sawSeat, [])
        else if s.size .standing = 0 then some (s.goTo c .taking, [])
        else some (s.goTo c .standing, [])
      else some (s.goTo c .standing, [])
  | .sawSeat =>
      if s.size .standing = 0 then some (s.goTo c .taking, [])
      else some (s.goTo c .standing, [])
  | .taking => some ({ s with sofaOccupied := s.sofaOccupied + 1 }.goTo c .seated, [.sits c])
  | .standing => some ((s.push .standing c).goTo c .queued, [.stands c])
  | .queued => some (s.goTo c .waiting, [])
  | .waiting => none
  | .woken =>
      if s.head .standing = some c ∧ s.sofaOccupied < sofaSeats then
        some ({ s.pop .standing with sofaOccupied := s.sofaOccupied + 1 }.goTo c .seated, [.sits c])
      else some (s.goTo c .waiting, [])
  | .seated => some ((s.push .sofa c).broadcastChefCv.goTo c .unserved, [.joinsSofa c])
  | .unserved =>
      if 0 < cu.semServed then
        some (s.customer c fun cu =>
          { cu with semServed := cu.semServed - 1, point := .served }, [])
      else none
  | .served =>
      some (s.customer c fun cu =>
        { cu with semStartBake := cu.semStartBake + 1, point := .ordered }, [.requests c])
  | .ordered =>
      if 0 < cu.semBakeDone then
        some (s.customer c fun cu =>
          { cu with semBakeDone := cu.semBakeDone - 1, point := .finished }, [])
      else none
  | .finished => some ((s.push .payment c).broadcastChefCv.goTo c .paying, [.joinsPayment c])
  | .paying =>
      if 0 < cu.semPaymentOk then
        some (s.customer c fun cu =>
          { cu with semPaymentOk := cu.semPaymentOk - 1, point := .paid }, [])
      else none
  | .paid =>
      some ({ s with
          sofaOccupied := s.sofaOccupied - 1
          currentCustomers := s.currentCustomers - 1
        }.broadcastStandingCv.broadcastChefCv.goTo c .left, [.leaves c])
  | .left => some (s.goTo c .freed, [.frees c])
  | .freed => none

/-- `toPay = q_pop(&payment_queue)`; the rest of the branch fails on `NULL`. -/
def popPayment (k : Nat) (s : Shop Q) : Option (Shop Q × List Deed) :=
  match s.head .payment with
  | some c => some ((s.pop .payment).chefTo k (.accepting c), [.bills k c])
  | none => none

/-- `toBake = q_pop(&sofa_queue)`. -/
def popSofa (k : Nat) (s : Shop Q) : Option (Shop Q × List Deed) :=
  match s.head .sofa with
  | some c => some ((s.pop .sofa).chefTo k (.serving c), [.takes k c])
  | none => none

def chefThread (k : Nat) (p : ChefPoint) (s : Shop Q) : Option (Shop Q × List Deed) :=
  match p with
  | .looping =>
      if s.shutdownFlag then some (s.chefTo k .returned, []) else some (s.chefTo k .picking, [])
  | .picking =>
      if s.size .payment = 0 ∧ s.size .sofa = 0 then
        if s.shutdownFlag then some (s.chefTo k .broke, []) else some (s.chefTo k .waiting, [])
      else if 0 < s.size .payment then popPayment k s
      else popSofa k s
  | .waiting => none
  -- the lock is not held here: each of the two tests is a step of its own
  | .broke => if 0 < s.size .payment then popPayment k s else some (s.chefTo k .brokeSofa, [])
  | .brokeSofa => if 0 < s.size .sofa then popSofa k s else some (s.chefTo k .looping, [])
  | .accepting c =>
      some ((s.customer c fun cu => { cu with semPaymentOk := cu.semPaymentOk + 1 }).chefTo k
        .looping, [.accepts k c])
  | .serving c =>
      some ((s.customer c fun cu => { cu with semServed := cu.semServed + 1 }).chefTo k
        (.awaiting c), [])
  | .awaiting c =>
      match s.customers[c]? with
      | some cu =>
          if 0 < cu.semStartBake then
            some ((s.customer c fun cu => { cu with semStartBake := cu.semStartBake - 1 }).chefTo k
              (.baking c), [.bakes k c])
          else none
      | none => none
  | .baking c =>
      some ((s.customer c fun cu => { cu with semBakeDone := cu.semBakeDone + 1 }).chefTo k
        .looping, [.finishesCake k c])
  | .returned => none

def mainThread (s : Shop Q) : Option (Shop Q × List Deed) :=
  match s.main with
  | .admitting =>
      match s.arrivals with
      | a :: rest =>
          if s.currentCustomers ≥ maxCapacity then some ({ s with arrivals := rest }, [])
          else
            some ({ s with
              arrivals := rest
              customers := s.customers ++ [{ id := a.id }]
              currentCustomers := s.currentCustomers + 1 }, [.admits s.customers.length])
      | [] => some ({ s with main := .joining 0 }, [])
  | .joining i =>
      match s.customers[i]? with
      | some cu =>
          if cu.point = .freed then some ({ s with main := .joining (i + 1) }, []) else none
      | none => some ({ s with main := .joiningChefs 0, shutdownFlag := true }.broadcastChefCv, [])
  | .joiningChefs k =>
      match s.chefs[k]? with
      | some p =>
          if p = .returned then some ({ s with main := .joiningChefs (k + 1) }, []) else none
      | none => some ({ s with main := .returned }, [])
  | .returned => none

def threadStep (split : Bool) (s : Shop Q) : Thread → Option (Shop Q × List Deed)
  | .main => mainThread s
  | .chef k => s.chefs[k]?.bind fun p => chefThread k p s
  | .customer c => s.customers[c]?.bind fun cu => customerThread split c cu s

def spuriousWakeUp (s : Shop Q) : Thread → Option (Shop Q × List Deed)
  | .main => none
  | .chef k => if s.chefs[k]? = some .waiting then some (s.chefTo k .picking, []) else none
  | .customer c =>
      s.customers[c]?.bind fun cu =>
        if cu.point = .waiting then some (s.goTo c .woken, []) else none

end Threads

def bakery (Q : Type) [Queues Q] (split : Bool) : Mealy Event Deed (Shop Q) where
  step e s :=
    match e with
    | .step t => threadStep split s t
    | .spurious t => spuriousWakeUp s t

/-- The chefs have been started and the arrivals have been read. -/
def opening (Q : Type) [Queues Q] (arrivals : List Arrival) : Shop Q where
  arrivals := arrivals
  main := .admitting
  customers := []
  chefs := List.replicate numChefs .looping
  currentCustomers := 0
  sofaOccupied := 0
  queues := Queues.qInit
  shutdownFlag := false

end OxyC.Bakery
