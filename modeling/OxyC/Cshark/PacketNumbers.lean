import OxyC.Cshark.SessionStore

/-!
# The numbers of the packets

A packet is numbered by `g_packet_count` when it is printed and by its place in
the store when it is inspected.  Only `start_capture` resets the first number.
-/

namespace OxyC.Cshark

open OxyC.Foundation

/-- The packet that `inspect_last_session` shows when `id` is typed. -/
def shownPacket (id : Int) (g : Globals) : Option StoredPacket :=
  if id < 1 ∨ id > g.storedCount then none
  else g.packets.map fun packets => packets (id.toNat - 1)

theorem inspectLastSession_of_shownPacket {id : Int} {g : Globals} {p : StoredPacket}
    (h : shownPacket id g = some p) :
    inspectLastSession (some id) g = (do
      let lines ← summaryLoop g
      let layers ← layerByLayer p.data ((p.header.caplen.toNat : Int).bmod 0x100000000)
      pure ([printf "\n[C-Shark] Packets from last session (%d stored):\n" [.num g.storedCount]] ++
        lines ++ [printf "\nEnter Packet ID to inspect in detail (1-%d): " [.num g.storedCount]] ++
        (printf "\n[C-Shark] Detailed view of packet %d:\n" [.num id.toNat] :: layers))) := by
  unfold shownPacket at h
  split at h
  case isTrue => cases h
  case isFalse hin =>
    obtain ⟨packets, hpackets, rfl⟩ := Option.map_eq_some_iff.mp h
    have hstored : g.storedCount ≠ 0 := by omega
    simp only [inspectLastSession, hstored, if_false, hpackets, hin, inspectPacket,
      Option.bind_eq_bind, Option.bind_some, Option.pure_def, Option.bind_assoc]

/-- The number in the line that `packet_handler` prints below its rule. -/
def printedNumber : List Item → Option Nat
  | _ :: .printf ⟨"Packet #%llu | Timestamp: %ld.%06ld | Length: %u bytes\n", .num n :: _⟩ :: _ => some n
  | _ => none

theorem printedNumber_decodeFrame {count : Nat} {header : PcapHeader} {packet : Pointer}
    {items : List Item} (h : decodeFrame count header packet = some items) :
    printedNumber items = some count := by
  simp only [decodeFrame, Option.bind_eq_bind, Option.bind_eq_some_iff, Option.pure_def,
    Option.some.injEq] at h
  obtain ⟨dst, -, src, -, etype, -, network, -, rfl⟩ := h
  rfl

/-! ## The two counters -/

/-- No session is started. -/
def SameSession (inputs : List Input) : Prop :=
  ∀ choice, .option (some choice) ∈ inputs → choice ≠ 1 ∧ choice ≠ 2

/-- A packet has been delivered, and `s` is the state and `out` the output then. -/
structure Numbered (frame : Frame) (s : Program) (out : List Printed) : Prop where
  inStep : s.storedCount = min s.packetCount.toNat maxPackets
  printed : ∀ items, some items ∈ out → printedNumber items = some s.packetCount.toNat
  /-- Until the next session the number is the ID of the packet, unless it was not stored. -/
  shown : ∀ inputs t outs, SameSession inputs → Program.machine.run inputs s = some (t, outs) →
    shownPacket s.packetCount.toNat t.view =
      if s.packetCount.toNat ≤ maxPackets then some ⟨frame.header, some frame.bytes⟩ else none

def NumbersAlike (s : Program) : Input → Prop
  | .deliver frame => ∀ s' out, s.step (.deliver frame) = some (s', out) → Numbered frame s' out
  | _ => True

/-- The first packet of a session finds a count of zero, and no packet the largest count. -/
def KeepsNumbers (s : Program) : Input → Prop
  | .deliver _ => s.pc = .capturing →
      (s.storedCount = 0 → s.packetCount = 0) ∧ s.packetCount.toNat + 1 < 2 ^ 64
  | _ => True

/-- A session has been started and has no packets yet. -/
def Pc.Starting : Pc → Prop
  | .opening _ | .prompting => True
  | _ => False

/-- `g_packet_count` counts the packets of the session from the first one on. -/
structure Counts (h : History) (s : Program) : Prop where
  keeps : Keeps h s
  starting : s.pc.Starting → h.current = []
  counted : s.pc = .capturing → h.current ≠ [] → s.packetCount.toNat = h.current.length

namespace Counts

variable {h : History} {s s' : Program} {input : Input} {frame : Frame} {out : List Printed}

theorem start : Counts ⟨[], []⟩ Program.start where
  keeps := Keeps.start
  starting := fun hstarting => hstarting.elim
  counted := fun hcapturing => by cases hcapturing

theorem storedCount (hcounts : Counts h s) : s.storedCount = min h.current.length maxPackets := by
  rw [hcounts.keeps.count, History.kept, List.length_take, Nat.min_comm]

theorem storedCount_eq_zero (hcounts : Counts h s) : s.storedCount = 0 ↔ h.current = [] := by
  rw [hcounts.storedCount, ← List.length_eq_zero_iff, maxPackets]
  omega

end Counts

theorem packetCount_store {s s' : Program} {frame : Frame} (h : s.store frame = some s') :
    s'.packetCount = s.packetCount + 1 ∧ s'.pc = s.pc := by
  simp only [Program.store] at h
  split at h
  · obtain ⟨packets, -, rfl⟩ := Option.map_eq_some_iff.mp h
    exact ⟨rfl, rfl⟩
  · cases h
    exact ⟨rfl, rfl⟩

theorem step_deliver {s s' : Program} {frame : Frame} {out : List Printed}
    (h : s.step (.deliver frame) = some (s', out)) :
    s.pc = .capturing ∧ s.store frame = some s' ∧
      out = [decodeFrame s'.packetCount.toNat frame.header frame.packet] := by
  unfold Program.step at h
  split at h
  case h_8 hpc heq =>
    cases heq
    obtain ⟨t, hstore, heq⟩ := Option.map_eq_some_iff.mp h
    cases heq
    exact ⟨hpc, hstore, rfl⟩
  all_goals contradiction

namespace Counts

variable {h : History} {s s' : Program} {input : Input} {frame : Frame} {out : List Printed}

theorem of_nil (hkeeps : Keeps h s) (hnil : h.current = []) : Counts h s where
  keeps := hkeeps
  starting := fun _ => hnil
  counted := fun _ hsome => absurd hnil hsome

theorem of_not_active (hkeeps : Keeps h s) (hpc : ¬ s.pc.Active) : Counts h s where
  keeps := hkeeps
  starting := by
    intro hstarting
    cases hs : s.pc <;> simp_all [Pc.Starting, Pc.Active]
  counted := fun hcapturing => absurd (by rw [hcapturing]; trivial) hpc

theorem packetCount_eq (hcounts : Counts h s) (hpc : s.pc = .capturing)
    (hfirst : s.storedCount = 0 → s.packetCount = 0) :
    s.packetCount.toNat = h.current.length := by
  by_cases hnil : h.current = []
  · rw [hfirst (hcounts.storedCount_eq_zero.mpr hnil), hnil]
    rfl
  · exact hcounts.counted hpc hnil

theorem deliver (hcounts : Counts h s) (hkeeps' : Keeps (h.deliver frame) s')
    (hpc : s.pc = .capturing) (hguard : KeepsNumbers s (.deliver frame))
    (hstore : s.store frame = some s') : Counts (h.deliver frame) s' where
  keeps := hkeeps'
  starting := by
    rw [(packetCount_store hstore).2, hpc]
    exact False.elim
  counted := by
    intro _ _
    obtain ⟨hfirst, hroom⟩ := hguard hpc
    have hcount := hcounts.packetCount_eq hpc hfirst
    rw [(packetCount_store hstore).1, UInt64.toNat_add, History.deliver, List.length_append,
      ← hcount]
    exact Nat.mod_eq_of_lt hroom

theorem option_idle_or_nil (hpc : ¬ s.pc.Active) (choice : Int) :
    ¬ (s.option choice).pc.Active ∨ (h.next (.option (some choice))).current = [] := by
  by_cases hstart : choice = 1 ∨ choice = 2
  · right
    simp only [History.next, hstart, if_true, History.restart]
  · left
    rw [not_or] at hstart
    simp only [Program.option, hstart.1, hstart.2, if_false]
    split_ifs
    · exact id
    · exact id
    · exact hpc

/-- What is left of a session that is not capturing has no packets yet. -/
theorem idle_or_nil (hcounts : Counts h s) (hstep : s.step input = some (s', out))
    (hdeliver : ∀ frame, input ≠ .deliver frame) :
    ¬ s'.pc.Active ∨ (h.next input).current = [] := by
  unfold Program.step at hstep
  split at hstep
  case h_1 valid _ =>
    cases hstep
    cases valid <;> exact .inl id
  case h_4 choice hmenu =>
    cases hstep
    exact option_idle_or_nil (by rw [hmenu]; exact id) choice
  case h_6 filtered ok hpc => exact .inr (hcounts.starting (by rw [hpc]; trivial))
  case h_7 choice compiled installed hpc =>
    exact .inr (hcounts.starting (by rw [hpc]; trivial))
  case h_8 frame _ => exact absurd rfl (hdeliver frame)
  case h_10 => cases hstep
  all_goals
    cases hstep
    exact .inl id

theorem step (hcounts : Counts h s) (hguard : KeepsNumbers s input)
    (hstep : s.step input = some (s', out)) : Counts (h.next input) s' := by
  have hkeeps' := hcounts.keeps.step hstep
  by_cases hdeliver : ∃ frame, input = .deliver frame
  · obtain ⟨frame, rfl⟩ := hdeliver
    obtain ⟨hpc, hstore, -⟩ := step_deliver hstep
    exact hcounts.deliver hkeeps' hpc hguard hstore
  · cases hcounts.idle_or_nil hstep (not_exists.mp hdeliver) with
    | inl hidle => exact of_not_active hkeeps' hidle
    | inr hnil => exact of_nil hkeeps' hnil

end Counts

/-! ## The packet of a number -/

section Shown

variable {h : History} {s : Program}

theorem history_of_sameSession {inputs : List Input} (hsame : SameSession inputs) :
    ∃ more, inputs.foldl History.next h = ⟨h.earlier, h.current ++ more⟩ := by
  induction inputs generalizing h with
  | nil => exact ⟨[], by rw [List.append_nil]; rfl⟩
  | cons input inputs ih =>
      have hrest : SameSession inputs := fun choice hmem => hsame choice (.tail _ hmem)
      obtain ⟨more, hmore⟩ := ih (h := h.next input) hrest
      rw [List.foldl_cons, hmore]
      cases input with
      | deliver frame => exact ⟨frame :: more, by simp [History.next, History.deliver]⟩
      | option choice =>
          cases choice with
          | none => exact ⟨more, rfl⟩
          | some choice =>
              obtain ⟨h1, h2⟩ := hsame choice (.head _)
              exact ⟨more, by simp only [History.next, h1, h2, or_self, if_false]⟩
      | _ => exact ⟨more, rfl⟩

theorem Keeps.shownPacket (hkeeps : Keeps h s) {id : Nat} (hid : 0 < id) :
    shownPacket id s.view =
      h.kept[id - 1]?.map fun frame => ⟨frame.header, some frame.bytes⟩ := by
  have hcount : s.view.storedCount = h.kept.length := hkeeps.count
  by_cases hin : id ≤ h.kept.length
  · have hlt : id - 1 < h.kept.length := by omega
    have hpackets : s.packets ≠ none := by
      intro hnone
      have hsome := hkeeps.packets.resolve_right (by rw [hnone]; nofun)
      rw [History.kept, hsome.2, List.take_nil, List.length_nil] at hlt
      cases hlt
    have hsome := hkeeps.packets.resolve_left fun hnone => hpackets hnone.1
    rw [Cshark.shownPacket, if_neg (by omega), List.getElem?_eq_getElem hlt, Int.toNat_natCast]
    simp only [Program.view, hsome, Option.map_some, table_of_lt hlt, Option.bind_some,
      hkeeps.read_copy hlt]
  · rw [Cshark.shownPacket, if_pos (by omega), List.getElem?_eq_none (by omega)]
    rfl

/-- A packet that has just been stored keeps its ID until the next session. -/
theorem Keeps.shownPacket_deliver {frame : Frame}
    (hkeeps : Keeps (h.deliver frame) s) {inputs : List Input} {t : Program}
    {outs : List Printed} (hsame : SameSession inputs)
    (hrun : Program.machine.run inputs s = some (t, outs)) :
    Cshark.shownPacket (h.current.length + 1 : Nat) t.view =
      if h.current.length + 1 ≤ maxPackets then some ⟨frame.header, some frame.bytes⟩
      else none := by
  have hend : Keeps (inputs.foldl History.next (h.deliver frame)) t := by
    refine Program.machine.run_invariant_history
      (P := fun inputs _ t => Keeps (inputs.foldl History.next (h.deliver frame)) t)
      hkeeps ?_ hrun
    intro inputs input _ t t' out _ hkeeps hstep
    rw [List.foldl_append]
    exact hkeeps.step hstep
  obtain ⟨more, hmore⟩ := history_of_sameSession (h := h.deliver frame) hsame
  rw [hend.shownPacket (Nat.succ_pos _), hmore, History.kept, Nat.succ_sub_one]
  split
  case isTrue hstored =>
    rw [List.getElem?_take_of_lt (by omega), History.deliver, List.append_assoc,
      List.getElem?_append_right (Nat.le_refl _), Nat.sub_self]
    rfl
  case isFalse hfull =>
    rw [List.getElem?_take_eq_none (by omega)]
    rfl

end Shown

/-! ## Which runs keep the numbers alike -/

section Alike

variable {h : History} {s : Program}

theorem step_of_capturing {s' : Program} {frame : Frame} (hpc : s.pc = .capturing)
    (hstore : s.store frame = some s') :
    s.step (.deliver frame) =
      some (s', [decodeFrame s'.packetCount.toNat frame.header frame.packet]) := by
  simp only [Program.step, hpc, Program.packetHandler, hstore, Option.map_some]

/-- The counters agree after a delivery only if they did before it. -/
theorem Counts.keepsNumbers_of_inStep (hcounts : Counts h s) {s' : Program} {frame : Frame}
    (hkeeps' : Keeps (h.deliver frame) s') (hstore : s.store frame = some s')
    (hstep : s'.storedCount = min s'.packetCount.toNat maxPackets) :
    (s.storedCount = 0 → s.packetCount = 0) ∧ s.packetCount.toNat + 1 < 2 ^ 64 := by
  have hcount := hkeeps'.count
  have hlt := s.packetCount.toNat_lt
  rw [hstep, (packetCount_store hstore).1, UInt64.toNat_add, History.kept, History.deliver,
    List.length_take, List.length_append, List.length_singleton, UInt64.toNat_one,
    maxPackets] at hcount
  constructor
  · intro hnone
    have hnil := hcounts.storedCount_eq_zero.mp hnone
    rw [hnil, List.length_nil] at hcount
    apply UInt64.toNat_inj.mp
    rw [UInt64.toNat_zero]
    omega
  · omega

theorem Counts.numbered (hcounts : Counts h s) {s' : Program} {frame : Frame}
    (hkeeps' : Keeps (h.deliver frame) s') (hpc : s.pc = .capturing)
    (hguard : KeepsNumbers s (.deliver frame)) (hstore : s.store frame = some s') :
    Numbered frame s' [decodeFrame s'.packetCount.toNat frame.header frame.packet] := by
  have hcounts' := hcounts.deliver hkeeps' hpc hguard hstore
  have hcount : s'.packetCount.toNat = h.current.length + 1 := by
    refine (hcounts'.counted ((packetCount_store hstore).2.trans hpc) ?_).trans ?_
    · simp [History.deliver]
    · simp [History.deliver]
  constructor
  · rw [hcounts'.storedCount, hcount, History.deliver, List.length_append]
    rfl
  · intro items hitems
    rw [List.mem_singleton] at hitems
    exact printedNumber_decodeFrame hitems.symm
  · intro inputs t outs hsame hrun
    rw [hcount]
    exact hkeeps'.shownPacket_deliver hsame hrun

theorem Counts.numbersAlike_iff (hcounts : Counts h s) (input : Input) :
    NumbersAlike s input ↔ KeepsNumbers s input := by
  cases input with
  | deliver frame =>
      constructor
      · intro halike hpc
        have hpackets : s.packets ≠ none := hcounts.keeps.active (by rw [hpc]; trivial)
        obtain ⟨s', hstore, -, hkeeps'⟩ := hcounts.keeps.store hpackets frame
        have hnumbered := halike s' _ (step_of_capturing hpc hstore)
        exact hcounts.keepsNumbers_of_inStep hkeeps' hstore hnumbered.inStep
      · intro hguard s' out hstep
        obtain ⟨hpc, hstore, rfl⟩ := step_deliver hstep
        exact hcounts.numbered (hcounts.keeps.step hstep) hpc hguard hstore
  | _ => exact Iff.rfl

end Alike

/-- The number of every packet is its ID exactly in the runs that keep the count. -/
theorem numbers_alike_iff (inputs : List Input) :
    Program.machine.Guarded NumbersAlike inputs Program.start ↔
      Program.machine.Guarded KeepsNumbers inputs Program.start := by
  refine Program.machine.guarded_iff_guarded (J := fun s => ∃ h, Counts h s) ?_ ?_ inputs
    ⟨_, Counts.start⟩
  · rintro input s s' out ⟨h, hcounts⟩ hguard hstep
    exact ⟨_, hcounts.step hguard hstep⟩
  · rintro input s ⟨h, hcounts⟩
    exact hcounts.numbersAlike_iff input

/-- A packet in a plain session, and a filtered session without a filter. -/
def plainThenFiltered : List Input :=
  [.device true, .option (some 1), .opened true, .deliver bare, .stopped, .option (some 2),
    .opened true, .filter (some 7) true true]

/-- The first packet of the filtered session is printed as the second. -/
theorem not_numbers_alike :
    ¬ Program.machine.Guarded NumbersAlike (plainThenFiltered ++ [.deliver bare])
      Program.start := by
  intro halike
  have hlast := Mealy.Guarded.of_run Program.machine halike rfl
  have hnumbered := hlast _ _ rfl
  have hcounts : ¬ (1 : Nat) = min 2 maxPackets := by decide
  exact hcounts hnumbered.inStep

end OxyC.Cshark
