import OxyC.Cshark.Live
import Mathlib.Data.List.Induction
import Mathlib.Logic.Function.Basic

/-!
# The store of a session

The globals of `cshark.c` and the storing half of `packet_handler`.  Entries are
counted whether or not the copy of the frame could be allocated.
-/

namespace OxyC.Cshark

open OxyC.Foundation

def maxPackets : Nat := 10000

/-- `stored_packet_t`; `none` is the null pointer. -/
structure StoredPacket where
  header : PcapHeader
  data : Option (List UInt8)
  deriving DecidableEq, Repr

structure Globals where
  /-- `g_packet_count`. -/
  packetCount : UInt64
  /-- `g_packets`. -/
  packets : Option (Nat → StoredPacket)
  /-- `g_stored_count`. -/
  storedCount : Nat

/-- A frame that `pcap_loop` delivers, and whether the `malloc` for its copy succeeds. -/
structure Delivery where
  frame : Frame
  allocated : Bool

def Delivery.entry (d : Delivery) : StoredPacket where
  header := d.frame.header
  data := if d.allocated then some d.frame.bytes else none

def zeroedPacket : StoredPacket := { header := ⟨0, 0, 0, 0⟩, data := none }

def Globals.fresh : Globals where
  packetCount := 0
  packets := some fun _ => zeroedPacket
  storedCount := 0

/-- The first half of `packet_handler`. -/
def storePacket (d : Delivery) (g : Globals) : Option Globals :=
  let g := { g with packetCount := g.packetCount + 1 }
  if g.storedCount < maxPackets then
    g.packets.map fun packets =>
      { g with
        packets := some (Function.update packets g.storedCount d.entry)
        storedCount := g.storedCount + 1 }
  else some g

def packetHandler (d : Delivery) (g : Globals) : Option (Globals × List Item) := do
  let g ← storePacket d g
  let items ← decodeFrame g.packetCount.toNat d.frame.header d.frame.packet
  pure (g, items)

def storeAll (ds : List Delivery) (g : Globals) : Option Globals :=
  ds.foldlM (fun g d => storePacket d g) g

/-- The entries of the store are those of the first frames delivered. -/
structure Holds (ds : List Delivery) (g : Globals) : Prop where
  count : g.storedCount = (ds.take maxPackets).length
  entries : ∃ packets, g.packets = some packets ∧
    ∀ i d, (ds.take maxPackets)[i]? = some d → packets i = d.entry

theorem holds_fresh : Holds [] Globals.fresh where
  count := rfl
  entries := ⟨_, rfl, by simp⟩

theorem Holds.store {ds : List Delivery} {g : Globals} (h : Holds ds g) (d : Delivery) :
    ∃ g', storePacket d g = some g' ∧ Holds (ds ++ [d]) g' := by
  obtain ⟨hcount, packets, hpackets, hentries⟩ := h
  by_cases hroom : ds.length < maxPackets
  · have htake : (ds ++ [d]).take maxPackets = ds ++ [d] :=
      List.take_of_length_le (by simp; omega)
    have htake' : ds.take maxPackets = ds := List.take_of_length_le (by omega)
    rw [htake'] at hcount hentries
    have hstore : g.storedCount < maxPackets := by omega
    refine ⟨_, by simp only [storePacket, hstore, if_true, hpackets, Option.map_some]; rfl, ?_, ?_⟩
    · rw [htake, List.length_append, hcount]
      rfl
    · refine ⟨_, rfl, fun i d' hd' => ?_⟩
      rw [htake] at hd'
      by_cases hi : i = g.storedCount
      · subst hi
        rw [hcount, List.getElem?_concat_length, Option.some.injEq] at hd'
        rw [Function.update_self, hd']
      · have hlt : i < ds.length := by
          have := (List.getElem?_eq_some_iff.mp hd').1
          rw [List.length_append, List.length_singleton] at this
          omega
        rw [List.getElem?_append_left hlt] at hd'
        rw [Function.update_of_ne hi]
        exact hentries i d' hd'
  · have htake : (ds ++ [d]).take maxPackets = ds.take maxPackets :=
      List.take_append_of_le_length (by omega)
    have hfull : ¬ g.storedCount < maxPackets := by
      rw [hcount, List.length_take]
      omega
    refine ⟨_, by simp only [storePacket, hfull, if_false]; rfl, ?_, ?_⟩
    · rw [htake, ← hcount]
    · rw [htake]
      exact ⟨packets, hpackets, hentries⟩

theorem exists_storeAll (ds : List Delivery) :
    ∃ g, storeAll ds Globals.fresh = some g ∧ Holds ds g := by
  induction ds using List.reverseRecOn with
  | nil => exact ⟨_, rfl, holds_fresh⟩
  | append_singleton ds d ih =>
      obtain ⟨g, hg, hholds⟩ := ih
      obtain ⟨g', hg', hholds'⟩ := hholds.store d
      refine ⟨g', ?_, hholds'⟩
      rw [storeAll, List.foldlM_append]
      simp only [storeAll] at hg
      simp [hg, hg']

end OxyC.Cshark
