import OxyC.Cshark.Summary
import OxyC.Foundation.Allocation
import OxyC.Foundation.Mealy

/-!
# The menu and its sessions

The loop of `main` with the two capture routines, the storing half of
`packet_handler` and `free_stored_packets`.  The copies of the frames are blocks
of a heap, so that their releases can be counted; every allocation succeeds.
-/

namespace OxyC.Cshark

open OxyC.Foundation

inductive Pc where
  /-- `select_device`. -/
  | selecting
  | menu
  | inspecting
  /-- Before `pcap_open_live`. -/
  | opening (filtered : Bool)
  /-- `start_capture_with_filter` asks for a filter. -/
  | prompting
  /-- `pcap_loop`. -/
  | capturing
  /-- `main` has returned. -/
  | exited
  deriving DecidableEq, Repr

inductive Input where
  /-- `select_device` returns; the choice of an interface may be invalid. -/
  | device (valid : Bool)
  /-- `pcap_findalldevs` fails, or the input ends in `select_device`. -/
  | noDevice
  /-- The number typed in the menu; `none` is the end of the input. -/
  | option (choice : Option Int)
  | inspect (choice : Option Int)
  | opened (ok : Bool)
  /-- The number typed, and whether the filter can be compiled and set. -/
  | filter (choice : Option Int) (compiled installed : Bool)
  | deliver (frame : Frame)
  /-- `pcap_loop` returns. -/
  | stopped

/-- `stored_packet_t` with the number of the block that its data point to. -/
structure Entry where
  header : PcapHeader
  data : Option Nat
  deriving DecidableEq, Repr

/-- An entry of a table that `calloc` returns. -/
def zeroedEntry : Entry := { header := ⟨0, 0, 0, 0⟩, data := none }

structure Program where
  pc : Pc
  /-- `g_packet_count`. -/
  packetCount : UInt64
  /-- `g_packets`. -/
  packets : Option (Nat → Entry)
  /-- `g_stored_count`. -/
  storedCount : Nat
  copies : Heap (List UInt8)

/-- What is printed about packets; `none` where a decoder reads outside of a frame. -/
abbrev Printed := Option (List Item)

namespace Program

def start : Program where
  pc := .selecting
  packetCount := 0
  packets := none
  storedCount := 0
  copies := {}

/-- The globals as the rest of the program reads them. -/
def view (s : Program) : Globals where
  packetCount := s.packetCount
  packets := s.packets.map fun packets i =>
    { header := (packets i).header, data := (packets i).data.bind s.copies.read }
  storedCount := s.storedCount

def stored (s : Program) : List StoredPacket :=
  match s.view.packets with
  | none => []
  | some packets => (List.range s.storedCount).map packets

def freeStoredPackets (s : Program) : Program :=
  match s.packets with
  | none => { s with storedCount := 0 }
  | some packets =>
      { s with
        packets := none
        storedCount := 0
        copies := s.copies.release
          ((List.range s.storedCount).filterMap fun i => (packets i).data) }

/-- The options 1 and 2 of the menu. -/
def startSession (filtered : Bool) (s : Program) : Program :=
  { s.freeStoredPackets with pc := .opening filtered, packets := some fun _ => zeroedEntry }

def option (choice : Int) (s : Program) : Program :=
  if choice = 1 then s.startSession false
  else if choice = 2 then s.startSession true
  else if choice = 3 then { s with pc := .inspecting }
  else if choice = 4 then { s with pc := .exited }
  else s

/-- Only `start_capture` resets the packet count, and before it opens the device. -/
def opened (filtered ok : Bool) (s : Program) : Program :=
  let s := if filtered then s else { s with packetCount := 0 }
  { s with pc := if ok then (if filtered then .prompting else .capturing) else .menu }

/-- The first half of `packet_handler`; `none` when it writes through the null pointer. -/
def store (frame : Frame) (s : Program) : Option Program :=
  let s := { s with packetCount := s.packetCount + 1 }
  if s.storedCount < maxPackets then
    s.packets.map fun packets =>
      { s with
        packets := some
          (Function.update packets s.storedCount ⟨frame.header, some s.copies.next⟩)
        storedCount := s.storedCount + 1
        copies := s.copies.alloc frame.bytes }
  else some s

/-- The decoders read the frame and write nothing. -/
def packetHandler (frame : Frame) (s : Program) : Option (Program × List Printed) :=
  (s.store frame).map fun s =>
    (s, [decodeFrame s.packetCount.toNat frame.header frame.packet])

def step (input : Input) (s : Program) : Option (Program × List Printed) :=
  match s.pc, input with
  | .selecting, .device valid => some ({ s with pc := if valid then .menu else .selecting }, [])
  | .selecting, .noDevice => some ({ s with pc := .exited }, [])
  | .menu, .option none => some ({ s with pc := .exited }, [])
  | .menu, .option (some choice) => some (s.option choice, [])
  | .inspecting, .inspect choice =>
      some ({ s with pc := .menu }, [inspectLastSession choice s.view])
  | .opening filtered, .opened ok => some (s.opened filtered ok, [])
  | .prompting, .filter choice compiled installed =>
      let running := choice.isSome && compiled && installed
      some ({ s with pc := if running then .capturing else .menu }, [])
  | .capturing, .deliver frame => s.packetHandler frame
  | .capturing, .stopped => some ({ s with pc := .menu }, [])
  | _, _ => none

def machine : Mealy Input Printed Program := ⟨step⟩

end Program

end OxyC.Cshark
