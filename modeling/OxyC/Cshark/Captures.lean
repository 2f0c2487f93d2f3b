import OxyC.Foundation.Monitor
import Mathlib.Data.List.Basic

/-!
# Captures and Ctrl-C

`start_capture`, `start_capture_with_filter` and `handle_sigint` with each call of
the packet library and each assignment to the two globals as one step.  SIGINT may
arrive between any two steps.  What the library returns is an input; the calls that
it receives are the output, and `Pcap` says which of them it allows.
-/

namespace OxyC.Cshark

open OxyC.Foundation

/-- The calls on handles and on filter programs, which are known by their numbers. -/
inductive Call where
  | openLive (h : Nat)
  /-- The call succeeds and fills in the program. -/
  | compile (h p : Nat) (text : String)
  | compileFails (h : Nat) (text : String)
  | setFilter (h p : Nat)
  | freeCode (p : Nat)
  | loop (h : Nat)
  | getErr (h : Nat)
  | close (h : Nat)
  | breakLoop (h : Nat)
  deriving DecidableEq, Repr

/-! ## The contract of the library -/

/-- The handles that are open and the programs that are to be freed. -/
structure Pcap where
  handles : List Nat := []
  programs : List Nat := []
  deriving DecidableEq, Repr

def Pcap.call (c : Call) (p : Pcap) : Option Pcap :=
  match c with
  | .openLive h => if h ∈ p.handles then none else some { p with handles := h :: p.handles }
  | .compile h q _ =>
      if h ∈ p.handles ∧ q ∉ p.programs then some { p with programs := q :: p.programs } else none
  | .setFilter h q => if h ∈ p.handles ∧ q ∈ p.programs then some p else none
  | .freeCode q =>
      if q ∈ p.programs then some { p with programs := p.programs.erase q } else none
  | .close h => if h ∈ p.handles then some { p with handles := p.handles.erase h } else none
  | .compileFails h _ | .loop h | .getErr h | .breakLoop h => if h ∈ p.handles then some p else none

/-! ## The two functions -/

/-- Where the program is; `h` is the local `handle` and `q` the local `fp`. -/
inductive Point where
  | menu
  | opening (filtered : Bool)
  /-- `fgets` for the number of the filter. -/
  | choosing (h : Nat)
  | compiling (h : Nat) (choice : Int)
  | installing (h q : Nat)
  | freeing (h q : Nat)
  /-- Before the message about a filter that could not be compiled or set. -/
  | complaining (h : Nat) (q : Option Nat)
  | discarding (h q : Nat)
  | abandoning (h : Nat)
  /-- Before `g_handle = handle`. -/
  | publishing (filtered : Bool) (h : Nat)
  /-- Before `g_capturing = 1`. -/
  | starting (filtered : Bool) (h : Nat)
  | entering (filtered : Bool) (h : Nat)
  /-- In `pcap_loop`. -/
  | looping (filtered : Bool) (h : Nat)
  | reporting (filtered : Bool) (h : Nat)
  | closing (h : Nat)
  /-- Before `g_handle = NULL`. -/
  | withdrawing (h : Nat)
  /-- Before `g_capturing = 0`. -/
  | stopping
  deriving DecidableEq, Repr

structure Captures where
  point : Point := .menu
  gHandle : Option Nat := none
  gCapturing : Bool := false
  /-- How many handles and programs there have been. -/
  opened : Nat := 0
  compiled : Nat := 0
  deriving DecidableEq, Repr

inductive Captures.Event where
  | sigint
  | capture (filtered : Bool)
  | opens (ok : Bool)
  /-- The number typed; `none` is the end of the input. -/
  | chooses (choice : Option Int)
  | compiles (ok : Bool)
  | installs (ok : Bool)
  | packet
  /-- `pcap_loop` returns, with a negative result if it failed or was broken. -/
  | returns (negative : Bool)
  /-- A statement that has no outcome. -/
  | next
  deriving DecidableEq, Repr

def filterExp (choice : Int) : String :=
  if choice = 1 then "tcp port 80"
  else if choice = 2 then "tcp port 443"
  else if choice = 3 then "udp port 53"
  else if choice = 4 then "arp"
  else if choice = 5 then "tcp"
  else if choice = 6 then "udp"
  else ""

namespace Captures

@[simp] def goTo (point : Point) (s : Captures) : Captures := { s with point }

/-- `handle_sigint`. -/
def handleSigint (s : Captures) : List Call :=
  match s.gHandle with
  | some h => if s.gCapturing then [.breakLoop h] else []
  | none => []

def next (s : Captures) : Option (Captures × List Call) :=
  match s.point with
  | .freeing h q => some (s.goTo (.publishing true h), [.freeCode q])
  | .complaining h (some q) => some (s.goTo (.discarding h q), [.getErr h])
  | .complaining h none => some (s.goTo (.abandoning h), [.getErr h])
  | .discarding h q => some (s.goTo (.abandoning h), [.freeCode q])
  | .abandoning h => some (s.goTo .menu, [.close h])
  | .publishing filtered h => some ({ s with gHandle := some h }.goTo (.starting filtered h), [])
  | .starting filtered h => some ({ s with gCapturing := true }.goTo (.entering filtered h), [])
  | .entering filtered h => some (s.goTo (.looping filtered h), [.loop h])
  | .reporting filtered h =>
      -- without a filter the text is asked for twice
      some (s.goTo (.closing h), if filtered then [.getErr h] else [.getErr h, .getErr h])
  | .closing h => some (s.goTo (.withdrawing h), [.close h])
  | .withdrawing _ => some ({ s with gHandle := none }.goTo .stopping, [])
  | .stopping => some ({ s with gCapturing := false }.goTo .menu, [])
  | _ => none

def step (e : Event) (s : Captures) : Option (Captures × List Call) :=
  match e, s.point with
  | .sigint, _ => some (s, s.handleSigint)
  | .next, _ => s.next
  | .capture filtered, .menu => some (s.goTo (.opening filtered), [])
  | .opens ok, .opening filtered =>
      if ok then
        some ({ s with opened := s.opened + 1 }.goTo
          (if filtered then .choosing s.opened else .publishing false s.opened),
          [.openLive s.opened])
      else some (s.goTo .menu, [])
  | .chooses none, .choosing h => some (s.goTo (.abandoning h), [])
  | .chooses (some choice), .choosing h => some (s.goTo (.compiling h choice), [])
  | .compiles ok, .compiling h choice =>
      if ok then
        some ({ s with compiled := s.compiled + 1 }.goTo (.installing h s.compiled),
          [.compile h s.compiled (filterExp choice)])
      else some (s.goTo (.complaining h none), [.compileFails h (filterExp choice)])
  | .installs ok, .installing h q =>
      some (s.goTo (if ok then .freeing h q else .complaining h (some q)), [.setFilter h q])
  | .packet, .looping filtered h => some (s.goTo (.looping filtered h), [])
  | .returns negative, .looping filtered h =>
      some (s.goTo (if negative then .reporting filtered h else .closing h), [])
  | _, _ => none

def machine : Mealy Event Call Captures := ⟨step⟩

end Captures

/-! ## What is open where -/

namespace Point

@[simp] def handle? : Point → Option Nat
  | .menu | .opening _ | .withdrawing _ | .stopping => none
  | .choosing h | .compiling h _ | .installing h _ | .freeing h _ | .complaining h _
  | .discarding h _ | .abandoning h | .publishing _ h | .starting _ h | .entering _ h
  | .looping _ h | .reporting _ h | .closing h => some h

@[simp] def program? : Point → Option Nat
  | .installing _ q | .freeing _ q | .discarding _ q => some q
  | .complaining _ q => q
  | _ => none

@[simp] def published? : Point → Option Nat
  | .starting _ h | .entering _ h | .looping _ h | .reporting _ h | .closing h
  | .withdrawing h => some h
  | _ => none

@[simp] def capturing : Point → Bool
  | .entering _ _ | .looping _ _ | .reporting _ _ | .closing _ | .withdrawing _ | .stopping => true
  | _ => false

/-- The handle whose loop a SIGINT breaks. -/
@[simp] def broken? : Point → Option Nat
  | .entering _ h | .looping _ h | .reporting _ h | .closing h | .withdrawing h => some h
  | _ => none

@[simp] def withdraws : Point → Bool
  | .withdrawing _ => true
  | _ => false

/-- What the library has given out. -/
@[simp] def pcap (point : Point) : Pcap := ⟨point.handle?.toList, point.program?.toList⟩

end Point

/-- The calls that the program makes outside of its handler. -/
def Pcap.ownCall (c : Call) (p : Pcap) : Option Pcap :=
  match c with
  | .breakLoop _ => some p
  | c => p.call c

namespace Captures

/-- The globals are those of the point. -/
structure Placed (s : Captures) : Prop where
  gHandle : s.gHandle = s.point.published?
  gCapturing : s.gCapturing = s.point.capturing

/-- No SIGINT arrives between `pcap_close` and the assignment behind it. -/
def Spares (s : Captures) (e : Event) : Prop := e = .sigint → s.point.withdraws = false

variable {s s' : Captures} {e : Event} {out : List Call}

/-- The program goes from point to point as the library allows. -/
structure Lawful (s s' : Captures) (out : List Call) : Prop where
  placed : s'.Placed
  allowed : watch Pcap.call out s.point.pcap = some s'.point.pcap
  own : ∀ c ∈ out, ∀ h, c ≠ .breakLoop h

theorem Placed.next (h : s.Placed) (hnext : s.next = some (s', out)) : Lawful s s' out := by
  obtain ⟨hhandle, hcapturing⟩ := h
  obtain ⟨point, gHandle, gCapturing, opened, compiled⟩ := s
  dsimp only at hhandle hcapturing
  subst hhandle hcapturing
  cases point with
  | menu | opening _ | choosing _ | compiling _ _ | installing _ _ | looping _ _ => cases hnext
  | complaining h q =>
      cases q <;> cases hnext <;> exact ⟨⟨rfl, rfl⟩, by simp [watch, Pcap.call], by simp⟩
  | reporting filtered h =>
      cases filtered <;> cases hnext <;> exact ⟨⟨rfl, rfl⟩, by simp [watch, Pcap.call], by simp⟩
  | _ =>
      cases hnext
      exact ⟨⟨rfl, rfl⟩, by simp [watch, Pcap.call], by simp⟩

theorem Placed.step (h : s.Placed) (hstep : s.step e = some (s', out)) (he : e ≠ .sigint) :
    Lawful s s' out := by
  have hnext : s.next = some (s', out) → Lawful s s' out := h.next
  obtain ⟨hhandle, hcapturing⟩ := h
  obtain ⟨point, gHandle, gCapturing, opened, compiled⟩ := s
  dsimp only at hhandle hcapturing
  subst hhandle hcapturing
  cases e with
  | sigint => exact absurd rfl he
  | next => exact hnext hstep
  | capture filtered =>
      cases point with
      | menu =>
          cases hstep
          exact ⟨⟨rfl, rfl⟩, by simp [watch], by simp⟩
      | _ => cases hstep
  | opens ok =>
      cases point with
      | opening filtered =>
          cases ok <;> cases filtered <;> cases hstep <;>
            exact ⟨⟨rfl, rfl⟩, by simp [watch, Pcap.call], by simp⟩
      | _ => cases hstep
  | chooses choice =>
      cases point with
      | choosing h =>
          cases choice <;> cases hstep <;> exact ⟨⟨rfl, rfl⟩, by simp [watch], by simp⟩
      | _ => cases choice <;> cases hstep
  | compiles ok =>
      cases point with
      | compiling h choice =>
          cases ok <;> cases hstep <;>
            exact ⟨⟨rfl, rfl⟩, by simp [watch, Pcap.call], by simp⟩
      | _ => cases hstep
  | installs ok =>
      cases point with
      | installing h q =>
          cases ok <;> cases hstep <;>
            exact ⟨⟨rfl, rfl⟩, by simp [watch, Pcap.call], by simp⟩
      | _ => cases hstep
  | packet =>
      cases point with
      | looping filtered h =>
          cases hstep
          exact ⟨⟨rfl, rfl⟩, by simp [watch], by simp⟩
      | _ => cases hstep
  | returns negative =>
      cases point with
      | looping filtered h =>
          cases negative <;> cases hstep <;> exact ⟨⟨rfl, rfl⟩, by simp [watch], by simp⟩
      | _ => cases hstep

/-- The handler calls the library for the handle that is published, while a capture goes on. -/
theorem Placed.handleSigint_eq (h : s.Placed) :
    s.handleSigint = s.point.broken?.toList.map .breakLoop := by
  rw [handleSigint, h.gHandle, h.gCapturing]
  cases s.point <;> rfl

theorem Placed.sigint (h : s.Placed) (hstep : s.step .sigint = some (s', out)) :
    s' = s ∧ watch Pcap.ownCall out s.point.pcap = some s.point.pcap ∧
      watch Pcap.call out s.point.pcap =
        if s.point.withdraws then none else some s.point.pcap := by
  cases hstep
  rw [h.handleSigint_eq]
  refine ⟨rfl, ?_, ?_⟩
  · cases s.point <;> simp [watch, Pcap.ownCall]
  · cases s.point <;> simp [watch, Pcap.call]

/-! ## Every run -/

/-- What holds of the calls of a run. -/
structure Safe (es : List Event) (s : Captures) (calls : List Call) : Prop where
  /-- The library allows all the calls exactly if no SIGINT falls between `pcap_close` and the
  assignment behind it. -/
  allowed_iff : (watch Pcap.call calls {}).isSome ↔ machine.Guarded Spares es {}
  /-- The calls outside of the handler are always allowed, and they leave nothing behind. -/
  own : watch Pcap.ownCall calls {} = some s.point.pcap
  globals : s.point = .menu → s.gHandle = none ∧ s.gCapturing = false
  /-- A SIGINT breaks the loop of the capture that goes on, and no other. -/
  signals : ∀ es₁ es₂ s₁ calls₁, es = es₁ ++ .sigint :: es₂ →
    machine.run es₁ {} = some (s₁, calls₁) →
    ∃ rest, calls = calls₁ ++ s₁.point.broken?.toList.map .breakLoop ++ rest

end Captures

end OxyC.Cshark
