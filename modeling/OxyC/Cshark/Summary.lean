import OxyC.Cshark.InspectBounds
import OxyC.Cshark.Store

/-!
# The summary of a session

`inspect_last_session` lists the stored packets by casting headers at the
offsets of the frame.  It tests neither the data nor the captured length.
-/

namespace OxyC.Cshark

open OxyC.Foundation

/-- The part of the summary for TCP and UDP over IPv4. -/
def summarizePorts (format : String) (pkt : Pointer) (src dst : List UInt8) :
    Option Formatted := do
  let verHl ← pkt.u8 14
  let transport := pkt.add (14 + (verHl % 16 * 4 : Nat))
  let sport ← transport.u16 0
  let dport ← transport.u16 2
  pure ⟨format, [.addr src, .num sport, .addr dst, .num dport]⟩

def summarizeIpv4 (pkt : Pointer) : Option Formatted := do
  let src ← pkt.bytes 26 4
  let dst ← pkt.bytes 30 4
  let proto ← pkt.u8 23
  if proto = ipprotoTcp then summarizePorts "IPv4 TCP %s:%u -> %s:%u" pkt src dst
  else if proto = ipprotoUdp then summarizePorts "IPv4 UDP %s:%u -> %s:%u" pkt src dst
  else some ⟨"IPv4 %s -> %s Proto=%d", [.addr src, .addr dst, .num proto]⟩

def summarizeIpv6 (pkt : Pointer) : Option Formatted := do
  let src ← pkt.bytes 22 16
  let dst ← pkt.bytes 38 16
  let nxt ← pkt.u8 20
  pure ⟨"IPv6 %s -> %s NextHdr=%d", [.addr src, .addr dst, .num nxt]⟩

/-- The text in `summary`; a read through the null pointer has no result. -/
def summarize (data : Option (List UInt8)) : Option Formatted := do
  let bytes ← data
  let pkt : Pointer := { block := bytes }
  let etype ← pkt.u16 12
  if etype = ethertypeIp then summarizeIpv4 pkt
  else if etype = ethertypeIpv6 then summarizeIpv6 pkt
  else if etype = ethertypeArp then some ⟨"ARP", []⟩
  else some ⟨"Unknown", []⟩

def summaryLine (packets : Nat → StoredPacket) (i : Nat) : Option Item := do
  let h := (packets i).header
  let summary ← summarize (packets i).data
  pure (printf ("%d. Packet | Timestamp: %ld.%06ld | Length: %u bytes | " ++ summary.format ++ "\n")
    ([.num (i + 1), .int h.sec, .int h.usec, .num h.caplen.toNat] ++ summary.args))

def summaryLoop (g : Globals) : Option (List Item) := do
  let packets ← g.packets
  (List.range g.storedCount).mapM (summaryLine packets)

/-- What is shown of packet `id`; the captured length becomes an `int`. -/
def inspectPacket (packets : Nat → StoredPacket) (id : Nat) : Option (List Item) := do
  let p := packets (id - 1)
  let layers ← layerByLayer p.data ((p.header.caplen.toNat : Int).bmod 0x100000000)
  pure (printf "\n[C-Shark] Detailed view of packet %d:\n" [.num id] :: layers)

/-- `inspect_last_session`; `choice` is the number typed, `none` the end of the input. -/
def inspectLastSession (choice : Option Int) (g : Globals) : Option (List Item) :=
  if g.storedCount = 0 then
    some [printf "\n[C-Shark] No packets stored. Run a capture first.\n\n" []]
  else do
    let packets ← g.packets
    let lines ← summaryLoop g
    let detail ←
      match choice with
      | none => some []
      | some id =>
          if id < 1 ∨ id > g.storedCount then some [printf "Invalid ID.\n\n" []]
          else inspectPacket packets id.toNat
    pure ([printf "\n[C-Shark] Packets from last session (%d stored):\n" [.num g.storedCount]] ++
      lines ++ [printf "\nEnter Packet ID to inspect in detail (1-%d): " [.num g.storedCount]] ++
      detail)

/-! ## What the summary reads -/

/-- The headers that the summary looks into are captured. -/
structure Summarizable (b : List UInt8) : Prop where
  ethernet : 14 ≤ b.length
  ipv4 : etherType b = ethertypeIp → 34 ≤ b.length
  ports : etherType b = ethertypeIp → ipProtocol b = ipprotoTcp ∨ ipProtocol b = ipprotoUdp →
    14 + ipHeaderLen b + 4 ≤ b.length
  ipv6 : etherType b = ethertypeIpv6 → 54 ≤ b.length

section Reads

variable {b src dst : List UInt8} {format : String}

theorem summarizePorts_isSome_iff (h : 14 < b.length) :
    (summarizePorts format (packet b) src dst).isSome ↔ 14 + ipHeaderLen b + 4 ≤ b.length := by
  have hlength : (packet b).u8 14 = some (b.getD 14 0).toNat :=
    Pointer.u8_of_inside (inside_packet rfl (by decide) (by omega))
  simp only [summarizePorts, hlength, Option.bind_eq_bind, Option.bind_some, Option.pure_def,
    isSome_bind_bind_pure, Pointer.u16_isSome_iff, Pointer.inside_add]
  unfold Pointer.Inside ipHeaderLen
  simp only
  constructor
  · intro hports
    have := hports.2 (by decide)
    omega
  · intro hend
    constructor <;> intro _ <;> omega

theorem summarizeIpv4_isSome_iff (h : 34 ≤ b.length) :
    (summarizeIpv4 (packet b)).isSome ↔
      (ipProtocol b = ipprotoTcp ∨ ipProtocol b = ipprotoUdp →
        14 + ipHeaderLen b + 4 ≤ b.length) := by
  have hread : ∀ k n : Int, 0 ≤ k → k + n ≤ 34 → (packet b).Inside k n :=
    fun k n hk hn => inside_packet rfl hk (by omega)
  have hproto : (packet b).u8 23 = some (ipProtocol b) :=
    Pointer.u8_of_inside (hread 23 1 (by decide) (by decide))
  unfold summarizeIpv4
  refine isSome_bind_iff_of
    (Pointer.bytes_isSome_iff.mpr (hread 26 4 (by decide) (by decide))) fun src _ => ?_
  refine isSome_bind_iff_of
    (Pointer.bytes_isSome_iff.mpr (hread 30 4 (by decide) (by decide))) fun dst _ => ?_
  simp only [hproto, Option.bind_eq_bind, Option.bind_some]
  split
  case isTrue htcp =>
    rw [summarizePorts_isSome_iff (by omega)]
    simp only [htcp, true_or, true_implies]
  case isFalse htcp =>
    split
    case isTrue hudp =>
      rw [summarizePorts_isSome_iff (by omega)]
      simp only [hudp, or_true, true_implies]
    case isFalse hudp => simp [htcp, hudp]

theorem le_length_of_summarizeIpv4 (h : (summarizeIpv4 (packet b)).isSome) : 34 ≤ b.length := by
  obtain ⟨summary, hsummary⟩ := Option.isSome_iff_exists.mp h
  simp only [summarizeIpv4, Option.bind_eq_bind, Option.bind_eq_some_iff] at hsummary
  obtain ⟨_, -, dst, hdst, -⟩ := hsummary
  obtain ⟨-, hhigh⟩ := Pointer.inside_of_bytes hdst (by decide)
  simp only at hhigh
  omega

theorem summarizeIpv6_isSome_iff : (summarizeIpv6 (packet b)).isSome ↔ 54 ≤ b.length := by
  constructor
  · intro h
    obtain ⟨summary, hsummary⟩ := Option.isSome_iff_exists.mp h
    simp only [summarizeIpv6, Option.bind_eq_bind, Option.bind_eq_some_iff] at hsummary
    obtain ⟨_, -, dst, hdst, -⟩ := hsummary
    obtain ⟨-, hhigh⟩ := Pointer.inside_of_bytes hdst (by decide)
    simp only at hhigh
    omega
  · intro h
    have hread : ∀ k n : Int, 0 ≤ k → k + n ≤ 54 → (packet b).Inside k n :=
      fun k n hk hn => inside_packet rfl hk (by omega)
    simp (disch := exact hread _ _ (by decide) (by decide)) only [summarizeIpv6,
      Pointer.bytes_of_inside, Pointer.u8_of_inside, Option.bind_eq_bind, Option.bind_some]
    rfl

theorem summarize_isSome_iff {data : Option (List UInt8)} :
    (summarize data).isSome ↔ ∃ b, data = some b ∧ Summarizable b := by
  cases data with
  | none => simp [summarize]
  | some b =>
      simp only [Option.some.injEq, exists_eq_left']
      by_cases h : 14 ≤ b.length
      case neg =>
        constructor
        · intro hsome
          obtain ⟨summary, hsummary⟩ := Option.isSome_iff_exists.mp hsome
          simp only [summarize, Option.bind_eq_bind, Option.bind_some,
            Option.bind_eq_some_iff] at hsummary
          obtain ⟨etype, htype, -⟩ := hsummary
          obtain ⟨-, hhigh⟩ := Pointer.inside_of_u16 htype (by decide)
          simp only at hhigh
          omega
        · intro hheaders
          exact absurd hheaders.ethernet h
      case pos =>
        have htype : (packet b).u16 12 = some (etherType b) :=
          Pointer.u16_of_inside (inside_packet rfl (by decide) (by omega))
        simp only [summarize, htype, Option.bind_eq_bind, Option.bind_some]
        split
        case isTrue hip =>
          constructor
          · intro hsome
            have hlong := le_length_of_summarizeIpv4 hsome
            rw [summarizeIpv4_isSome_iff hlong] at hsome
            refine ⟨h, fun _ => hlong, fun _ => hsome, ?_⟩
            rw [hip]
            exact fun hip6 => absurd hip6 (by decide)
          · intro hheaders
            rw [summarizeIpv4_isSome_iff (hheaders.ipv4 hip)]
            exact hheaders.ports hip
        case isFalse hip =>
          split
          case isTrue hip6 =>
            rw [summarizeIpv6_isSome_iff]
            exact ⟨fun hlong => ⟨h, fun hip' => absurd hip' hip, fun hip' => absurd hip' hip,
              fun _ => hlong⟩, fun hheaders => hheaders.ipv6 hip6⟩
          case isFalse hip6 =>
            refine iff_of_true ?_ ⟨h, fun hip' => absurd hip' hip, fun hip' => absurd hip' hip,
              fun hip6' => absurd hip6' hip6⟩
            split <;> rfl

end Reads

/-- The copy of a delivered frame could be allocated and holds the headers of its protocols. -/
def Delivery.Listable (d : Delivery) : Prop := d.allocated = true ∧ Summarizable d.frame.bytes

theorem summaryLine_isSome_iff {packets : Nat → StoredPacket} {i : Nat} {d : Delivery}
    (h : packets i = d.entry) : (summaryLine packets i).isSome ↔ d.Listable := by
  simp only [summaryLine, h, Option.bind_eq_bind, Option.pure_def, isSome_bind_some_iff]
  rw [summarize_isSome_iff, Delivery.entry, Delivery.Listable]
  cases d.allocated <;> simp

/--
The summary loop reads only captured bytes exactly if the copies of all stored frames could be
allocated and hold the headers of their protocols.
-/
theorem summary_inside (ds : List Delivery) :
    ∃ g, storeAll ds Globals.fresh = some g ∧
      ((summaryLoop g).isSome ↔ ∀ d ∈ ds.take maxPackets, d.Listable) := by
  obtain ⟨g, hstore, hcount, packets, hpackets, hentries⟩ := exists_storeAll ds
  refine ⟨g, hstore, ?_⟩
  simp only [summaryLoop, hpackets, Option.bind_eq_bind, Option.bind_some, mapM_isSome_iff,
    List.mem_range, hcount]
  constructor
  · intro h d hd
    obtain ⟨i, hi⟩ := List.mem_iff_getElem?.mp hd
    exact (summaryLine_isSome_iff (hentries i d hi)).mp
      (h i (List.getElem?_eq_some_iff.mp hi).1)
  · intro h i hi
    have hget := List.getElem?_eq_getElem hi
    exact (summaryLine_isSome_iff (hentries i _ hget)).mpr (h _ (List.getElem_mem hi))

/-- A frame of 60 bytes of an unknown protocol whose copy could not be allocated. -/
def lost : Delivery where
  frame :=
    { header := { sec := 0, usec := 0, caplen := 60, len := 60 }
      bytes := List.replicate 60 0
      complete := by decide }
  allocated := false

theorem summary_inside_lost :
    ¬ ∃ g, storeAll [lost] Globals.fresh = some g ∧ (summaryLoop g).isSome := by
  rintro ⟨g, hstore, hsome⟩
  cases hstore
  cases hsome

end OxyC.Cshark
