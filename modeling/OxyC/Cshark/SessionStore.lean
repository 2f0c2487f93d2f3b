import OxyC.Cshark.Sessions

/-!
# The store over all sessions

Whatever is chosen, the store holds the first frames of the current session, and
each copy of an earlier session has been freed once.
-/

namespace OxyC.Cshark

open OxyC.Foundation

/-- What the inputs so far have delivered. -/
structure History where
  /-- The frames copied in earlier sessions. -/
  earlier : List Frame
  /-- All frames since the last session was started. -/
  current : List Frame

namespace History

def kept (h : History) : List Frame := h.current.take maxPackets

def restart (h : History) : History := ⟨h.earlier ++ h.kept, []⟩

def deliver (h : History) (frame : Frame) : History := ⟨h.earlier, h.current ++ [frame]⟩

def next (h : History) : Input → History
  | .option (some choice) => if choice = 1 ∨ choice = 2 then h.restart else h
  | .deliver frame => h.deliver frame
  | _ => h

theorem kept_deliver (h : History) (frame : Frame) :
    (h.deliver frame).kept = if h.kept.length < maxPackets then h.kept ++ [frame] else h.kept := by
  have hlength : h.kept.length = min maxPackets h.current.length := List.length_take
  split
  case isTrue hroom =>
    have hkept : h.kept = h.current := List.take_of_length_le (by omega)
    rw [hkept]
    apply List.take_of_length_le
    rw [deliver, List.length_append, List.length_singleton]
    omega
  case isFalse hfull =>
    exact List.take_append_of_le_length (by omega)

end History

def history (inputs : List Input) : History := inputs.foldl History.next ⟨[], []⟩

structure WellStored (h : History) (s : Program) : Prop where
  bounded : s.storedCount ≤ maxPackets
  allocated : 0 < s.storedCount ∨ s.pc = .capturing → s.packets ≠ none
  stored : s.stored = h.kept.map fun frame => ⟨frame.header, some frame.bytes⟩
  copied : s.copies.blocks = (h.earlier ++ h.kept).map Frame.bytes
  freed : ∀ a < h.earlier.length, s.copies.released.count a = 1
  current : ∀ a, h.earlier.length ≤ a → s.copies.released.count a = 0

/-! ## The invariant -/

/-- The table behind `g_packets` when the copies of `frames` are the blocks from `n` on. -/
def table (n : Nat) (frames : List Frame) (i : Nat) : Entry :=
  (frames[i]?).elim zeroedEntry fun frame => ⟨frame.header, some (n + i)⟩

/-- A session has been started and its capture has not ended. -/
def Pc.Active : Pc → Prop
  | .opening _ | .prompting | .capturing => True
  | _ => False

structure Keeps (h : History) (s : Program) : Prop where
  count : s.storedCount = h.kept.length
  packets : s.packets = none ∧ h.current = [] ∨ s.packets = some (table h.earlier.length h.kept)
  blocks : s.copies.blocks = (h.earlier ++ h.kept).map Frame.bytes
  accounted : s.copies.Accounted (List.range' h.earlier.length h.kept.length)
  active : s.pc.Active → s.packets ≠ none

section Table

variable {n : Nat} {frames : List Frame} {frame : Frame}

theorem table_of_lt {i : Nat} (h : i < frames.length) :
    table n frames i = ⟨frames[i].header, some (n + i)⟩ := by
  rw [table, List.getElem?_eq_getElem h]
  rfl

theorem table_append : table n (frames ++ [frame]) =
    Function.update (table n frames) frames.length ⟨frame.header, some (n + frames.length)⟩ := by
  funext i
  by_cases hi : i = frames.length
  · subst hi
    rw [Function.update_self, table, List.getElem?_concat_length]
    rfl
  · rw [Function.update_of_ne hi, table, table]
    by_cases hlt : i < frames.length
    · rw [List.getElem?_append_left hlt]
    · have hbeyond : (frames ++ [frame]).length ≤ i := by
        rw [List.length_append, List.length_singleton]
        omega
      rw [List.getElem?_eq_none hbeyond, List.getElem?_eq_none (Nat.le_of_not_lt hlt)]

theorem filterMap_table :
    ((List.range frames.length).filterMap fun i => (table n frames i).data) =
      List.range' n frames.length := by
  have hdata : ∀ i ∈ List.range frames.length, (table n frames i).data = some (n + i) := by
    intro i hi
    rw [table_of_lt (List.mem_range.mp hi)]
  rw [List.filterMap_congr hdata, List.filterMap_eq_map', List.range'_eq_map_range]

end Table

namespace Program

variable {s : Program} {frame : Frame} {packets : Nat → Entry}

theorem store_of_room (hroom : s.storedCount < maxPackets) (hpackets : s.packets = some packets) :
    s.store frame = some
      { pc := s.pc
        packetCount := s.packetCount + 1
        packets := some (Function.update packets s.storedCount ⟨frame.header, some s.copies.next⟩)
        storedCount := s.storedCount + 1
        copies := s.copies.alloc frame.bytes } := by
  simp only [store, hroom, if_true, hpackets, Option.map_some]

theorem store_of_full (hfull : ¬ s.storedCount < maxPackets) :
    s.store frame = some { s with packetCount := s.packetCount + 1 } := by
  simp only [store, hfull, if_false]

end Program

namespace Keeps

variable {h : History} {s s' : Program}

theorem start : Keeps ⟨[], []⟩ Program.start where
  count := rfl
  packets := .inl ⟨rfl, rfl⟩
  blocks := rfl
  accounted := Heap.accounted_empty
  active := fun hactive => hactive.elim

theorem move (hkeeps : Keeps h s) (pc : Pc) (packetCount : UInt64)
    (hpc : pc.Active → s.packets ≠ none) :
    Keeps h { s with pc := pc, packetCount := packetCount } where
  count := hkeeps.count
  packets := hkeeps.packets
  blocks := hkeeps.blocks
  accounted := hkeeps.accounted
  active := hpc

/-- The copies that are released are those of the session that ends. -/
theorem copies_freeStoredPackets (hkeeps : Keeps h s) :
    s.freeStoredPackets.copies.blocks = s.copies.blocks ∧
      s.freeStoredPackets.copies.Accounted [] := by
  rcases hkeeps.packets with ⟨hnone, hempty⟩ | hsome
  · have hno : h.kept = [] := by rw [History.kept, hempty, List.take_nil]
    have haccounted := hkeeps.accounted
    rw [hno] at haccounted
    simp only [Program.freeStoredPackets, hnone, true_and]
    exact haccounted
  · simp only [Program.freeStoredPackets, hsome, hkeeps.count, filterMap_table]
    exact ⟨rfl, hkeeps.accounted.release⟩

theorem startSession (hkeeps : Keeps h s) (filtered : Bool) :
    Keeps h.restart (s.startSession filtered) := by
  obtain ⟨hblocks, haccounted⟩ := hkeeps.copies_freeStoredPackets
  refine ⟨?_, .inr rfl, ?_, haccounted, fun _ => by simp [Program.startSession]⟩
  · simp only [Program.startSession, Program.freeStoredPackets]
    split <;> rfl
  · rw [Program.startSession, hblocks, hkeeps.blocks]
    simp [History.restart, History.kept]

theorem store (hkeeps : Keeps h s) (hpackets : s.packets ≠ none) (frame : Frame) :
    ∃ s', s.store frame = some s' ∧ s'.pc = s.pc ∧ Keeps (h.deliver frame) s' := by
  have hsome := hkeeps.packets.resolve_left fun hnone => hpackets hnone.1
  have hcount := hkeeps.count
  have hkept := h.kept_deliver frame
  by_cases hroom : s.storedCount < maxPackets
  · rw [if_pos (by omega)] at hkept
    have hnext : s.copies.next = h.earlier.length + h.kept.length := by
      rw [Heap.next, hkeeps.blocks, List.length_map, List.length_append]
    refine ⟨_, Program.store_of_room hroom hsome, rfl, ?_, .inr ?_, ?_, ?_, by simp⟩
    · rw [hkept, hcount, List.length_append, List.length_singleton]
    · rw [hkept, table_append, hcount, hnext]
      rfl
    · rw [hkept, Heap.blocks_alloc, hkeeps.blocks]
      simp only [List.map_append, List.append_assoc]
      rfl
    · have haccounted := hkeeps.accounted.alloc (v := frame.bytes)
      rw [hnext, ← List.range'_1_concat] at haccounted
      rw [hkept, List.length_append, List.length_singleton]
      exact haccounted
  · rw [if_neg (by omega)] at hkept
    refine ⟨_, Program.store_of_full hroom, rfl, ?_⟩
    have hmoved := hkeeps.move s.pc (s.packetCount + 1) hkeeps.active
    constructor
    · rw [hkept]
      exact hmoved.count
    · rw [hkept]
      exact .inr hsome
    · rw [hkept]
      exact hmoved.blocks
    · rw [hkept]
      exact hmoved.accounted
    · exact hmoved.active

theorem option (hkeeps : Keeps h s) (choice : Int) :
    Keeps (h.next (.option (some choice))) (s.option choice) := by
  have hmenu : ∀ pc : Pc, ¬ pc.Active → Keeps h { s with pc := pc } := fun pc hpc =>
    hkeeps.move pc s.packetCount fun hactive => absurd hactive hpc
  unfold History.next Program.option
  by_cases h1 : choice = 1
  · simp only [h1, true_or, if_true]
    exact hkeeps.startSession false
  · by_cases h2 : choice = 2
    · simp only [h2, or_true, if_true]
      exact hkeeps.startSession true
    · simp only [h1, h2, or_self, if_false]
      split
      · exact hmenu .inspecting id
      · split
        · exact hmenu .exited id
        · exact hkeeps

theorem opened (hkeeps : Keeps h s) {filtered : Bool} (hpc : s.pc = .opening filtered)
    (ok : Bool) : Keeps h (s.opened filtered ok) := by
  have hpackets : s.packets ≠ none := hkeeps.active (by rw [hpc]; trivial)
  cases filtered with
  | false => exact hkeeps.move _ 0 fun _ => hpackets
  | true => exact hkeeps.move _ s.packetCount fun _ => hpackets

theorem step (hkeeps : Keeps h s) {input : Input} {out : List Printed}
    (hstep : s.step input = some (s', out)) : Keeps (h.next input) s' := by
  have hmove : ∀ pc : Pc, ¬ pc.Active → Keeps h { s with pc := pc } := fun pc hpc =>
    hkeeps.move pc s.packetCount fun hactive => absurd hactive hpc
  unfold Program.step at hstep
  split at hstep
  case h_1 valid _ =>
    cases hstep
    cases valid with
    | false => exact hmove .selecting id
    | true => exact hmove .menu id
  case h_2 =>
    cases hstep
    exact hmove .exited id
  case h_3 =>
    cases hstep
    exact hmove .exited id
  case h_4 choice _ =>
    cases hstep
    exact hkeeps.option choice
  case h_5 =>
    cases hstep
    exact hmove .menu id
  case h_6 filtered ok hpc =>
    cases hstep
    exact hkeeps.opened hpc ok
  case h_7 choice compiled installed hpc =>
    cases hstep
    have hpackets : s.packets ≠ none := hkeeps.active (by rw [hpc]; trivial)
    exact hkeeps.move _ s.packetCount fun _ => hpackets
  case h_8 frame hpc =>
    have hpackets : s.packets ≠ none := hkeeps.active (by rw [hpc]; trivial)
    obtain ⟨t, hstore, -, hkeeps'⟩ := hkeeps.store hpackets frame
    simp only [Program.packetHandler, hstore, Option.map_some] at hstep
    cases hstep
    exact hkeeps'
  case h_9 =>
    cases hstep
    exact hmove .menu id
  case h_10 => cases hstep

theorem run {inputs : List Input} {out : List Printed}
    (hrun : Program.machine.run inputs Program.start = some (s, out)) :
    Keeps (history inputs) s := by
  refine Program.machine.run_invariant_history (P := fun inputs _ s => Keeps (history inputs) s)
    start ?_ hrun
  intro inputs input _ t t' out _ hkeeps hstep
  rw [history, List.foldl_append]
  exact hkeeps.step hstep

theorem read_copy (hkeeps : Keeps h s) {i : Nat} (hi : i < h.kept.length) :
    s.copies.read (h.earlier.length + i) = some h.kept[i].bytes := by
  have howned : h.earlier.length + i ∈ List.range' h.earlier.length h.kept.length :=
    List.mem_range'_1.mpr ⟨Nat.le_add_right _ i, by omega⟩
  rw [hkeeps.accounted.read_of_owned howned, hkeeps.blocks, List.getElem?_map,
    List.getElem?_append_right (Nat.le_add_right _ i), Nat.add_sub_cancel_left,
    List.getElem?_eq_getElem hi, Option.map_some]

theorem holds (hkeeps : Keeps h s) (hpackets : s.packets ≠ none) :
    Holds (h.current.map fun frame => ⟨frame, true⟩) s.view := by
  have hsome := hkeeps.packets.resolve_left fun hnone => hpackets hnone.1
  constructor
  · rw [← List.map_take, List.length_map]
    exact hkeeps.count
  · refine ⟨_, by rw [Program.view, hsome, Option.map_some], fun i d hd => ?_⟩
    rw [← List.map_take, List.getElem?_map] at hd
    obtain ⟨frame, hframe, rfl⟩ := Option.map_eq_some_iff.mp hd
    obtain ⟨hi, rfl⟩ : ∃ hi : i < h.kept.length, h.kept[i] = frame :=
      List.getElem?_eq_some_iff.mp hframe
    rw [table_of_lt hi, Option.bind_some, hkeeps.read_copy hi]
    rfl

theorem stored (hkeeps : Keeps h s) :
    s.stored = h.kept.map fun frame => ⟨frame.header, some frame.bytes⟩ := by
  rcases hkeeps.packets with ⟨hnone, hempty⟩ | hsome
  · have hno : h.kept = [] := by rw [History.kept, hempty, List.take_nil]
    simp only [Program.stored, Program.view, hnone, hno, Option.map_none, List.map_nil]
  · obtain ⟨-, packets, hpackets, hentries⟩ := hkeeps.holds (by simp [hsome])
    rw [Program.stored, hpackets, hkeeps.count]
    apply List.ext_getElem
    · simp
    · intro i hi hi'
      rw [List.length_map] at hi'
      rw [List.getElem_map, List.getElem_map, List.getElem_range]
      refine hentries i ⟨h.kept[i], true⟩ ?_
      rw [← List.map_take, List.getElem?_map]
      exact congrArg _ (List.getElem?_eq_getElem hi')

theorem wellStored (hkeeps : Keeps h s) : WellStored h s := by
  have hcount := hkeeps.count
  have hkept : h.kept.length ≤ maxPackets := List.length_take_le _ _
  have hlength : s.copies.blocks.length = h.earlier.length + h.kept.length := by
    rw [hkeeps.blocks, List.length_map, List.length_append]
  refine ⟨by omega, ?_, hkeeps.stored, hkeeps.blocks, ?_, ?_⟩
  · intro hneeded
    cases hneeded with
    | inl hstored =>
        rcases hkeeps.packets with ⟨hnone, hempty⟩ | hsome
        · rw [hcount, History.kept, hempty, List.take_nil] at hstored
          cases hstored
        · simp [hsome]
    | inr hcapturing => exact hkeeps.active (by rw [hcapturing]; trivial)
  · intro a ha
    rw [hkeeps.accounted.count_released (by omega), if_neg]
    intro howned
    have := (List.mem_range'_1.mp howned).1
    omega
  · intro a ha
    by_cases hmade : a < s.copies.blocks.length
    · rw [hkeeps.accounted.count_released hmade, if_pos]
      exact List.mem_range'_1.mpr ⟨ha, by omega⟩
    · exact List.count_eq_zero.mpr fun hreleased =>
        hmade (hkeeps.accounted.lt_of_mem_released hreleased)

end Keeps

/-- The store is right in every state that the menu, the captures and the inspections lead to. -/
theorem sessions_well_stored {inputs : List Input} {s : Program} {out : List Printed}
    (hrun : Program.machine.run inputs Program.start = some (s, out)) :
    WellStored (history inputs) s :=
  (Keeps.run hrun).wellStored

/-- An Ethernet header of an unknown protocol. -/
def bare : Frame where
  header := { sec := 0, usec := 0, caplen := 14, len := 14 }
  bytes := List.replicate 14 0
  complete := by decide

/-- A session with one packet, and one whose device cannot be opened. -/
def twoSessions : List Input :=
  [.device true, .option (some 1), .opened true, .deliver bare, .stopped, .option (some 2),
    .opened false]

theorem sessions_well_stored_two :
    ∃ s out, Program.machine.run twoSessions Program.start = some (s, out) ∧
      history twoSessions = ⟨[bare], []⟩ ∧ WellStored (history twoSessions) s :=
  ⟨_, _, rfl, rfl, sessions_well_stored rfl⟩

/-- The copies of the last session are not freed when `main` returns. -/
theorem last_session_kept :
    ∃ s out, Program.machine.run
        [.device true, .option (some 1), .opened true, .deliver bare, .stopped, .option (some 4)]
        Program.start = some (s, out) ∧
      s.pc = .exited ∧ s.copies.blocks.length = 1 ∧ s.copies.released.count 0 = 0 :=
  ⟨_, _, rfl, rfl, rfl, rfl⟩

end OxyC.Cshark
