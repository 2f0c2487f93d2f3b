import OxyC.Cshark.InspectBounds

/-!
# The two views of a frame

The live decoders measure a payload from the lengths that the headers announce,
the detailed view up to the end of the captured bytes.
-/

namespace OxyC.Cshark

open OxyC.Foundation

/-! ## What a view reports -/

structure Report where
  sourcePort : Nat
  destinationPort : Nat
  /-- Where the payload starts and its length, unless it is empty. -/
  payload : Option (Int × Int)
  deriving DecidableEq, Repr

def Arg.num? : Arg → Option Nat
  | .num n => some n
  | _ => none

/-- The numbers that a line about a transport header prints first. -/
def portsOf (args : List Arg) : Option (Nat × Nat) :=
  match args.filterMap Arg.num? with
  | source :: destination :: _ => some (source, destination)
  | _ => none

def Item.ports : Item → Option (Nat × Nat)
  | .printf f => if f.format ∈ portLines then portsOf f.args else none
  | .fieldBytes name extra _ _ _ => if name ∈ portFields then portsOf extra.args else none
  | _ => none

def Item.dumped : Item → Option (Int × Int)
  | .dump first len _ => if 0 < len then some (first, len) else none
  | _ => none

def report (items : List Item) : Option Report :=
  (items.findSome? Item.ports).map fun ports => ⟨ports.1, ports.2, items.findSome? Item.dumped⟩

def liveReport (count : Nat) (frame : Frame) : Option Report :=
  (decodeFrame count frame.header frame.packet).bind report

def detailedReport (frame : Frame) : Option Report :=
  (layerByLayer (some frame.bytes) ((frame.header.caplen.toNat : Int).bmod 0x100000000)).bind report

section Reports

variable {pre items post : List Item} {item : Item}

theorem Item.Lower.ports (h : item.Lower) : item.ports = none := by
  cases item with
  | printf f => exact if_neg h
  | fieldBytes name extra first last slice => exact if_neg h
  | _ => rfl

theorem Item.Lower.dumped (h : item.Lower) : item.dumped = none := by
  cases item with
  | dump first len lines => exact h.elim
  | _ => rfl

theorem lower_layer {name description : String} : (Item.layer name description).Lower := trivial

theorem findSome_ports (h : ∀ item ∈ items, item.Lower) : items.findSome? Item.ports = none :=
  List.findSome?_eq_none_iff.mpr fun item hitem => (h item hitem).ports

theorem findSome_dumped (h : ∀ item ∈ items, item.Lower) : items.findSome? Item.dumped = none :=
  List.findSome?_eq_none_iff.mpr fun item hitem => (h item hitem).dumped

theorem report_append (hpre : ∀ item ∈ pre, item.Lower) : report (pre ++ items) = report items := by
  simp only [report, List.findSome?_append, findSome_ports hpre, findSome_dumped hpre,
    Option.none_or]

theorem report_cons_lower (h : item.Lower) : report (item :: items) = report items := by
  have hpre : ∀ other ∈ [item], other.Lower := by simpa using h
  exact report_append hpre

theorem append_report (hpost : ∀ item ∈ post, item.Lower) :
    report (items ++ post) = report items := by
  simp only [report, List.findSome?_append, findSome_ports hpost, findSome_dumped hpost,
    Option.or_none]

theorem report_eq_none (h : ∀ item ∈ items, item.Lower) : report items = none := by
  have hnil : report (items ++ []) = report [] := report_append h
  rwa [List.append_nil] at hnil

theorem report_cons (ports : Nat × Nat) (hports : item.ports = some ports)
    (hdumped : item.dumped = none) :
    report (item :: items) = some ⟨ports.1, ports.2, items.findSome? Item.dumped⟩ := by
  simp [report, hports, hdumped]

theorem bind_report_map {x : Option (List Item)} (hpre : ∀ item ∈ pre, item.Lower) :
    (x.map (pre ++ ·)).bind report = x.bind report := by
  cases x with
  | none => rfl
  | some items => exact report_append hpre

end Reports

/-! ## The description of a transport header -/

def transportHeaderLen (b : List UInt8) (start proto : Nat) : Nat :=
  if proto = ipprotoTcp then (b.getD (start + 12) 0).toNat / 16 * 4 else 8

/-- The report on a packet that ends at `stop`. -/
def transportReport (b : List UInt8) (start proto stop : Nat) : Report where
  sourcePort := field b start 2
  destinationPort := field b (start + 2) 2
  payload :=
    let first : Int := start + transportHeaderLen b start proto
    if first < stop then some (first, stop - first) else none

/-- A transport header with at least its least length ends at `stop` or before. -/
structure CompleteTransport (b : List UInt8) (start proto stop : Nat) : Prop where
  known : proto = ipprotoTcp ∨ proto = ipprotoUdp
  least : proto = ipprotoTcp → 20 ≤ transportHeaderLen b start proto
  header : start + transportHeaderLen b start proto ≤ stop
  inside : stop ≤ b.length

/-- Two reports on one packet are the same exactly if the packet ends at the same place. -/
theorem transportReport_inj {b : List UInt8} {start proto stop stop' : Nat}
    (h : start + transportHeaderLen b start proto ≤ stop)
    (h' : start + transportHeaderLen b start proto ≤ stop') :
    transportReport b start proto stop = transportReport b start proto stop' ↔ stop = stop' := by
  constructor
  · intro heq
    have hpayload := congrArg Report.payload heq
    simp only [transportReport] at hpayload
    split at hpayload
    case isTrue hmore =>
      split at hpayload
      case isTrue =>
        have hlength := congrArg Prod.snd (Option.some.inj hpayload)
        simp only at hlength
        omega
      case isFalse => cases hpayload
    case isFalse hmore =>
      split at hpayload
      case isTrue => cases hpayload
      case isFalse => omega
  · rintro rfl
    rfl

theorem transportReport_eq {b : List UInt8} {start proto stop : Nat} {first len : Int}
    (hfirst : first = start + transportHeaderLen b start proto) (hlen : len = stop - first) :
    (⟨field b start 2, field b (start + 2) 2, if 0 < len then some (first, len) else none⟩ :
      Report) = transportReport b start proto stop := by
  subst hlen
  subst hfirst
  simp only [transportReport, Int.sub_pos]

/-! ## The live decoders -/

section Live

variable {b : List UInt8} {start proto stop : Nat}

@[simp] theorem dumped_printf {format : String} {args : List Arg} :
    (printf format args).dumped = none := rfl

@[simp] theorem dumped_firstBytes {len : Int} : (firstBytes len).dumped = none := rfl

@[simp] theorem dumped_dumpItem {data : Pointer} {len : Int} {lines : List Text} :
    (dumpItem data len lines).dumped = if 0 < len then some (data.offset, len) else none := rfl

@[simp] theorem dumped_flagNames {flags : Nat} {names : List (Nat × String)} :
    (flagNames flags names).findSome? Item.dumped = none := by
  rw [List.findSome?_eq_none_iff]
  intro item hitem
  obtain ⟨name, -, hname⟩ := List.mem_filterMap.mp hitem
  simp only [Option.ite_none_right_eq_some, Option.some.injEq] at hname
  rw [← hname.2]
  rfl

theorem u16_mk {k : Nat} (h : (Pointer.mk b start).Inside k 2) :
    (Pointer.mk b start).u16 k = some (field b (start + k) 2) := by
  rw [Pointer.u16_of_inside h]
  rfl

theorem ports_mk (h : (Pointer.mk b start).Inside 0 4) :
    (Pointer.mk b start).u16 0 = some (field b start 2) ∧
      (Pointer.mk b start).u16 2 = some (field b (start + 2) 2) :=
  ⟨u16_mk (k := 0) (h.mono (by decide) (by decide)),
    u16_mk (k := 2) (h.mono (by decide) (by decide))⟩

theorem report_decodeTcp {len : Int} {payload : Pointer} {items : List Item}
    (hports : (Pointer.mk b start).Inside 0 4)
    (h : decodeTcp ⟨b, start⟩ len payload = some items) :
    report items = some ⟨field b start 2, field b (start + 2) 2,
      if 0 < len then some (payload.offset, len) else none⟩ := by
  obtain ⟨hsource, hdestination⟩ := ports_mk hports
  simp only [decodeTcp, hsource, hdestination, Option.bind_eq_bind, Option.bind_some,
    Option.bind_eq_some_iff, Option.pure_def, Option.some.injEq] at h
  obtain ⟨seq, -, ack, -, flags, -, win, -, sum, -, off, -, lines, -, rfl⟩ := h
  simp only [List.cons_append, List.append_assoc]
  rw [report_cons (field b start 2, field b (start + 2) 2) rfl rfl]
  simp [List.findSome?_cons, List.findSome?_append, apply_ite Item.dumped]
  split_ifs <;> rfl

theorem report_decodeUdp {len : Int} {payload : Pointer} {items : List Item}
    (hports : (Pointer.mk b start).Inside 0 4)
    (h : decodeUdp ⟨b, start⟩ len payload = some items) :
    report items = some ⟨field b start 2, field b (start + 2) 2,
      if 0 < len then some (payload.offset, len) else none⟩ := by
  obtain ⟨hsource, hdestination⟩ := ports_mk hports
  simp only [decodeUdp, hsource, hdestination, Option.bind_eq_bind, Option.bind_some,
    Option.bind_eq_some_iff, Option.pure_def] at h
  obtain ⟨ulen, -, sum, -, h⟩ := h
  split at h
  case isTrue hpos =>
    obtain ⟨lines, -, h⟩ := Option.bind_eq_some_iff.mp h
    cases h
    rw [report_cons (field b start 2, field b (start + 2) 2) rfl rfl]
    simp [List.findSome?_cons, apply_ite Item.dumped]
    split_ifs <;> rfl
  case isFalse hpos =>
    cases h
    rw [report_cons (field b start 2, field b (start + 2) 2) rfl rfl, if_neg hpos]
    rfl

theorem CompleteTransport.honest (h : CompleteTransport b start proto stop) {announced : Int}
    (hannounced : announced = stop - start) : HonestTransport b start proto announced := by
  obtain ⟨hknown, hleast, hheader, hinside⟩ := h
  refine ⟨fun htcp _ => ?_, fun _ _ => by omega⟩
  rw [transportHeaderLen, if_pos htcp] at hheader
  omega

theorem report_decodeTransport (h : CompleteTransport b start proto stop) {announced : Int}
    (hannounced : announced = stop - start) :
    (decodeTransport proto ⟨b, start⟩ announced).bind report =
      some (transportReport b start proto stop) := by
  obtain ⟨items, hitems, -⟩ := contained_decodeTransport_iff.mpr (h.honest hannounced)
  obtain ⟨hknown, hleast, hheader, hinside⟩ := h
  rw [hitems, Option.bind_some]
  have hend : start + announced ≤ b.length := by omega
  have hread : ∀ k n : Int, 0 ≤ k → k + n ≤ transportHeaderLen b start proto →
      (Pointer.mk b start).Inside k n := fun k n hk hn => inside_of_le hend hk (by omega)
  unfold decodeTransport at hitems
  cases hknown with
  | inl htcp =>
      have hlen : transportHeaderLen b start proto = (b.getD (start + 12) 0).toNat / 16 * 4 :=
        if_pos htcp
      have hleast := hleast htcp
      have hoff : (Pointer.mk b start).u8 12 = some (b.getD (start + 12) 0).toNat :=
        u8_mk (k := 12) (hread 12 1 (by decide) (by omega))
      have hroom : tcpHdrLen ≤ announced := by
        rw [tcpHdrLen]
        omega
      simp only [htcp, hroom, and_self, if_true, hoff, Option.bind_eq_bind, Option.bind_some,
        Option.bind_eq_some_iff, Option.pure_def, Option.some.injEq] at hitems
      obtain ⟨tcp, hdecode, rfl⟩ := hitems
      have hreport := report_decodeTcp (hread 0 4 (by decide) (by omega)) hdecode
      refine hreport.trans (congrArg some (transportReport_eq ?_ ?_))
      · simp [Pointer.add, hlen]
      · simp only [Pointer.add]
        omega
  | inr hudp =>
      have hother : proto ≠ ipprotoTcp := by
        rw [hudp]
        decide
      have hlen : transportHeaderLen b start proto = 8 := if_neg hother
      have hroom : udpHdrLen ≤ announced := by
        rw [udpHdrLen]
        omega
      rw [if_neg fun htcp => hother htcp.1, if_pos ⟨hudp, hroom⟩] at hitems
      obtain ⟨udp, hdecode, hitems⟩ := Option.bind_eq_some_iff.mp hitems
      cases hitems
      have hreport := report_decodeUdp (hread 0 4 (by decide) (by omega)) hdecode
      refine hreport.trans (congrArg some (transportReport_eq ?_ ?_))
      · simp [Pointer.add, udpHdrLen, hlen]
      · simp only [Pointer.add]
        omega

end Live

/-! ## The frames that the views should agree on -/

def transportStart (b : List UInt8) : Nat :=
  if etherType b = ethertypeIp then 14 + ipHeaderLen b else 54

def transportProtocol (b : List UInt8) : Nat :=
  if etherType b = ethertypeIp then ipProtocol b else ip6NextHeader b

/-- The end of the packet that the network header announces. -/
def announcedEnd (b : List UInt8) : Nat :=
  if etherType b = ethertypeIp then 14 + ipTotalLen b else 54 + ip6PayloadLen b

/-- A well-formed packet with TCP or UDP, and any bytes behind it. -/
structure WellFormed (b : List UInt8) : Prop where
  network : etherType b = ethertypeIp ∧ 20 ≤ ipHeaderLen b ∨ etherType b = ethertypeIpv6
  transport : CompleteTransport b (transportStart b) (transportProtocol b) (announcedEnd b)

/-- The report on a frame whose packet ends at `stop`. -/
def packetReport (b : List UInt8) (stop : Nat) : Report :=
  transportReport b (transportStart b) (transportProtocol b) stop

theorem ipv4_fields {b : List UInt8} (h : etherType b = ethertypeIp) :
    transportStart b = 14 + ipHeaderLen b ∧ transportProtocol b = ipProtocol b ∧
      announcedEnd b = 14 + ipTotalLen b := by
  simp only [transportStart, transportProtocol, announcedEnd, h, if_true, and_self]

theorem ipv6_fields {b : List UInt8} (h : etherType b = ethertypeIpv6) :
    transportStart b = 54 ∧ transportProtocol b = ip6NextHeader b ∧
      announcedEnd b = 54 + ip6PayloadLen b := by
  have hother : ethertypeIpv6 ≠ ethertypeIp := by decide
  simp only [transportStart, transportProtocol, announcedEnd, h, hother, if_false, and_self]

theorem ne_ipv4_of_ipv6 {b : List UInt8} (h : etherType b = ethertypeIpv6) :
    etherType b ≠ ethertypeIp := by
  rw [h]
  decide

theorem WellFormed.le_transportStart {b : List UInt8} (h : WellFormed b) :
    34 ≤ transportStart b := by
  rcases h.network with ⟨hip, hleast⟩ | hip6
  · rw [(ipv4_fields hip).1]
    omega
  · rw [(ipv6_fields hip6).1]
    decide

theorem WellFormed.le_length {b : List UInt8} (h : WellFormed b) : 34 ≤ b.length := by
  have hstart := h.le_transportStart
  have hheader := h.transport.header
  have hinside := h.transport.inside
  omega

theorem announcedEnd_lt (b : List UInt8) : announcedEnd b < 65590 := by
  unfold announcedEnd ipTotalLen ip6PayloadLen
  split
  case isTrue =>
    have hlt := field_lt b 16 2
    omega
  case isFalse =>
    have hlt := field_lt b 18 2
    omega

theorem lengthBehindEthernet_eq (frame : Frame) (h : 14 ≤ frame.bytes.length)
    (hshort : frame.bytes.length < 2147483648) :
    lengthBehindEthernet frame.header.caplen = frame.bytes.length - 14 := by
  have hcaplen := frame.complete
  rw [lengthBehindEthernet, ethHdrLen, Int.bmod_eq_emod]
  split <;> omega

theorem liveReport_eq (count : Nat) {frame : Frame} (h : WellFormed frame.bytes)
    (hshort : frame.bytes.length < 2147483648) :
    liveReport count frame = some (packetReport frame.bytes (announcedEnd frame.bytes)) := by
  have hlong := h.le_length
  obtain ⟨pre, hpre, hframe⟩ := decodeFrame_eq count frame (by omega)
  have hbehind := lengthBehindEthernet_eq frame (by omega) hshort
  rw [liveReport, hframe, bind_report_map hpre, decodeNetwork, hbehind, packetReport]
  obtain ⟨hnetwork, htransport⟩ := h
  cases hnetwork with
  | inl hip =>
      obtain ⟨hstart, hproto, hend⟩ := ipv4_fields hip.1
      rw [hstart, hproto, hend] at htransport ⊢
      have hroom : ipHdrLen ≤ (frame.bytes.length : Int) - 14 := by
        rw [ipHdrLen]
        omega
      obtain ⟨pre', hpre', hdecode⟩ := decodeIpv4_eq hroom hlong
      rw [if_pos hip.1, hdecode, bind_report_map hpre']
      exact report_decodeTransport htransport (by omega)
  | inr hip6 =>
      obtain ⟨hstart, hproto, hend⟩ := ipv6_fields hip6
      rw [hstart, hproto, hend] at htransport ⊢
      have hheader := htransport.header
      have hinside := htransport.inside
      have hroom : ip6HdrLen ≤ (frame.bytes.length : Int) - 14 := by
        rw [ip6HdrLen]
        omega
      have hlong : 54 ≤ frame.bytes.length := by omega
      obtain ⟨pre', hpre', hdecode⟩ := decodeIpv6_eq hroom hlong
      rw [if_neg (ne_ipv4_of_ipv6 hip6), if_pos hip6, hdecode, bind_report_map hpre']
      exact report_decodeTransport htransport (by omega)

/-! ## The detailed view -/

section Detailed

variable {b : List UInt8} {start proto announced : Nat} {plen : Int} {items : List Item}
  {item : Item}

theorem eq_of_printFieldBytes {name : String} {pkt : Pointer} {first last : Int}
    {extra : Formatted} (h : printFieldBytes name pkt plen first last extra = some item) :
    item = .outOfBounds name ∧ plen ≤ first ∨
      ∃ last slice, item = .fieldBytes name extra first last slice := by
  unfold printFieldBytes at h
  split at h
  case isTrue hbound =>
    cases h
    exact .inl ⟨rfl, hbound⟩
  case isFalse =>
    obtain ⟨slice, -, hitem⟩ := Option.bind_eq_some_iff.mp h
    cases hitem
    exact .inr ⟨_, slice, rfl⟩

theorem lower_of_printFieldBytes {name : String} {pkt : Pointer} {first last : Int}
    {extra : Formatted} (h : printFieldBytes name pkt plen first last extra = some item)
    (hname : name ∉ portFields) : item.Lower := by
  rcases eq_of_printFieldBytes h with ⟨rfl, -⟩ | ⟨last, slice, rfl⟩
  · trivial
  · exact hname

theorem lower_fieldIf {c : Bool} {x : Option Item} (h : fieldIf c x = some items)
    (hx : ∀ item, x = some item → item.Lower) : ∀ item ∈ items, item.Lower := by
  unfold fieldIf at h
  split at h
  case isTrue =>
    obtain ⟨item, hitem, rfl⟩ := Option.map_eq_some_iff.mp h
    simpa using hx item hitem
  case isFalse =>
    cases h
    simp

theorem dumped_payloadLayer {title : String} {dump : Pointer → Int → Option (List Text)}
    {pkt : Pointer} {payloadOff : Int}
    (h : payloadLayer title dump pkt plen payloadOff = some items) :
    items.findSome? Item.dumped =
      if 0 < plen - payloadOff then some (payloadOff, plen - payloadOff) else none := by
  unfold payloadLayer at h
  split at h
  case isTrue hmore =>
    have hpos : plen - payloadOff > 0 := by omega
    simp only [hpos, if_true, Option.bind_eq_bind, Option.bind_eq_some_iff, Option.pure_def,
      Option.some.injEq] at h
    obtain ⟨lines, -, rfl⟩ := h
    rw [if_pos hpos]
    simp [List.findSome?_cons, Item.dumped, printf, hmore]
  case isFalse hmore =>
    cases h
    rw [if_neg (by omega)]
    rfl

theorem getU16Be_packet {k : Nat} (h : (k : Int) + 1 < b.length) :
    getU16Be (packet b) k b.length = some (field b k 2) := by
  rw [getU16Be, if_neg (by omega),
    Pointer.u16_of_inside (inside_packet rfl (by omega) (by omega))]
  simp

theorem ports_packet (h : start + 4 ≤ b.length) :
    getU16Be (packet b) start b.length = some (field b start 2) ∧
      getU16Be (packet b) (start + 2) b.length = some (field b (start + 2) 2) := by
  have hdestination := getU16Be_packet (b := b) (k := start + 2) (by omega)
  rw [Int.natCast_add, Nat.cast_ofNat] at hdestination
  exact ⟨getU16Be_packet (by omega), hdestination⟩

/-- What `layer_by_layer` prints for a TCP header and the bytes behind it. -/
theorem tcpLayer_eq_some {title control payloadTitle : String} (hend : start + 20 ≤ b.length)
    (h : tcpLayer title control payloadTitle (packet b) b.length start = some items) :
    ∃ ports seqField ackField controlField checksumField options payload,
      items = [.layer "LAYER 4" title, ports, seqField, ackField, controlField, checksumField] ++
        options ++ payload ∧
      printFieldBytes "Port Numbers" (packet b) b.length start (start + 3)
        ⟨"Source Port: %u | Destination Port: %u",
          [.num (field b start 2), .num (field b (start + 2) 2)]⟩ = some ports ∧
      (∃ extra, printFieldBytes "Sequence Number" (packet b) b.length (start + 4) (start + 7)
        extra = some seqField) ∧
      (∃ extra, printFieldBytes "Acknowledgment Number" (packet b) b.length (start + 8) (start + 11)
        extra = some ackField) ∧
      (∃ extra, printFieldBytes "Control Info" (packet b) b.length (start + 12) (start + 15)
        extra = some controlField) ∧
      (∃ extra, printFieldBytes "Checksum & Urgent" (packet b) b.length (start + 16) (start + 19)
        extra = some checksumField) ∧
      fieldIf (transportHeaderLen b start ipprotoTcp > 20)
        (printFieldBytes "TCP Options" (packet b) b.length (start + 20)
          (start + transportHeaderLen b start ipprotoTcp - 1)
          ⟨"Variable length TCP options", []⟩) = some options ∧
      payloadLayer payloadTitle printFullHexdump (packet b) b.length
        (start + transportHeaderLen b start ipprotoTcp) = some payload := by
  have hroom : start + 4 ≤ b.length := by omega
  obtain ⟨hsource, hdestination⟩ := ports_packet hroom
  have hoff : (packet b).u8 (start + 12) = some (b.getD (start + 12) 0).toNat := by
    rw [Pointer.u8_of_inside (inside_packet rfl (by omega) (by omega))]
    congr 3
    simp only [Int.zero_add]
    omega
  unfold tcpLayer at h
  obtain ⟨sport, hsport, h⟩ := Option.bind_eq_some_iff.mp h
  obtain ⟨dport, hdport, h⟩ := Option.bind_eq_some_iff.mp h
  obtain ⟨seq, -, h⟩ := Option.bind_eq_some_iff.mp h
  obtain ⟨ack, -, h⟩ := Option.bind_eq_some_iff.mp h
  obtain ⟨raw, hraw, h⟩ := Option.bind_eq_some_iff.mp h
  obtain ⟨flags, -, h⟩ := Option.bind_eq_some_iff.mp h
  obtain ⟨win, -, h⟩ := Option.bind_eq_some_iff.mp h
  obtain ⟨chksum, -, h⟩ := Option.bind_eq_some_iff.mp h
  obtain ⟨ports, hports, h⟩ := Option.bind_eq_some_iff.mp h
  obtain ⟨seqField, hseq, h⟩ := Option.bind_eq_some_iff.mp h
  obtain ⟨ackField, hack, h⟩ := Option.bind_eq_some_iff.mp h
  obtain ⟨controlField, hcontrol, h⟩ := Option.bind_eq_some_iff.mp h
  obtain ⟨urgent, -, h⟩ := Option.bind_eq_some_iff.mp h
  obtain ⟨checksumField, hchecksum, h⟩ := Option.bind_eq_some_iff.mp h
  obtain ⟨options, hoptions, h⟩ := Option.bind_eq_some_iff.mp h
  obtain ⟨payload, hpayload, h⟩ := Option.bind_eq_some_iff.mp h
  cases h
  obtain rfl := Option.some.inj (hsource.symm.trans hsport)
  obtain rfl := Option.some.inj (hdestination.symm.trans hdport)
  obtain rfl := Option.some.inj (hoff.symm.trans hraw)
  exact ⟨_, _, _, _, _, _, _, rfl, hports, ⟨_, hseq⟩, ⟨_, hack⟩, ⟨_, hcontrol⟩, ⟨_, hchecksum⟩,
    hoptions, hpayload⟩

theorem udpLayer_eq_some {title payloadTitle : String}
    {dump : Pointer → Int → Option (List Text)} (hend : start + 8 ≤ b.length)
    (h : udpLayer title payloadTitle dump (packet b) b.length start = some items) :
    ∃ ulen chksum header payload, items = [.layer "LAYER 4" title, header] ++ payload ∧
      printFieldBytes "UDP Header" (packet b) b.length start (start + 7)
        ⟨"Source: %u | Destination: %u | Length: %u bytes | Checksum: 0x%04X",
          [.num (field b start 2), .num (field b (start + 2) 2), .num ulen, .num chksum]⟩ =
        some header ∧
      payloadLayer payloadTitle dump (packet b) b.length (start + 8) = some payload := by
  have hroom : start + 4 ≤ b.length := by omega
  obtain ⟨hsource, hdestination⟩ := ports_packet hroom
  unfold udpLayer at h
  obtain ⟨sport, hsport, h⟩ := Option.bind_eq_some_iff.mp h
  obtain ⟨dport, hdport, h⟩ := Option.bind_eq_some_iff.mp h
  obtain ⟨ulen, -, h⟩ := Option.bind_eq_some_iff.mp h
  obtain ⟨chksum, -, h⟩ := Option.bind_eq_some_iff.mp h
  obtain ⟨header, hheader, h⟩ := Option.bind_eq_some_iff.mp h
  obtain ⟨payload, hpayload, h⟩ := Option.bind_eq_some_iff.mp h
  cases h
  obtain rfl := Option.some.inj (hsource.symm.trans hsport)
  obtain rfl := Option.some.inj (hdestination.symm.trans hdport)
  exact ⟨_, _, _, _, rfl, hheader, hpayload⟩

theorem report_tcpLayer {title control payloadTitle : String}
    (hend : start + 20 ≤ b.length)
    (h : tcpLayer title control payloadTitle (packet b) b.length start = some items) :
    report items = some (transportReport b start ipprotoTcp b.length) := by
  obtain ⟨ports, seqField, ackField, controlField, checksumField, options, payload, rfl, hports,
    ⟨_, hseq⟩, ⟨_, hack⟩, ⟨_, hcontrol⟩, ⟨_, hchecksum⟩, hoptions, hpayload⟩ :=
    tcpLayer_eq_some hend h
  have hheader : ∃ last slice, ports = .fieldBytes "Port Numbers" _ start last slice :=
    (eq_of_printFieldBytes hports).resolve_left fun h => by omega
  obtain ⟨last, slice, rfl⟩ := hheader
  rw [List.append_assoc, List.cons_append, report_cons_lower lower_layer, List.cons_append]
  rw [report_cons (field b start 2, field b (start + 2) 2) ?_ rfl]
  · have hlower : ∀ item ∈ [seqField, ackField, controlField, checksumField] ++ options,
        item.Lower := by
      simp only [List.forall_mem_append, List.forall_mem_cons, List.not_mem_nil, false_implies,
        implies_true, and_true]
      exact ⟨⟨lower_of_printFieldBytes hseq (by decide), lower_of_printFieldBytes hack (by decide),
        lower_of_printFieldBytes hcontrol (by decide),
        lower_of_printFieldBytes hchecksum (by decide)⟩,
        lower_fieldIf hoptions fun item hitem => lower_of_printFieldBytes hitem (by decide)⟩
    rw [← List.append_assoc, List.findSome?_append, findSome_dumped hlower, Option.none_or,
      dumped_payloadLayer hpayload]
    exact congrArg some (transportReport_eq rfl rfl)
  · simp [Item.ports, portFields, portsOf, Arg.num?]

theorem report_udpLayer {title payloadTitle : String} {dump : Pointer → Int → Option (List Text)}
    (hend : start + 8 ≤ b.length)
    (h : udpLayer title payloadTitle dump (packet b) b.length start = some items) :
    report items = some (transportReport b start ipprotoUdp b.length) := by
  obtain ⟨ulen, chksum, header, payload, rfl, hheader, hpayload⟩ := udpLayer_eq_some hend h
  have hfield : ∃ last slice, header = .fieldBytes "UDP Header" _ start last slice :=
    (eq_of_printFieldBytes hheader).resolve_left fun h => by omega
  obtain ⟨last, slice, rfl⟩ := hfield
  rw [List.cons_append, report_cons_lower lower_layer, List.cons_append]
  rw [report_cons (field b start 2, field b (start + 2) 2) ?_ rfl]
  · rw [List.nil_append, dumped_payloadLayer hpayload]
    exact congrArg some (transportReport_eq rfl rfl)
  · simp [Item.ports, portFields, portsOf, Arg.num?]

theorem CompleteTransport.cases (h : CompleteTransport b start proto announced) :
    proto = ipprotoTcp ∧ start + 20 ≤ b.length ∨ proto = ipprotoUdp ∧ start + 8 ≤ b.length := by
  obtain ⟨hknown, hleast, hheader, hinside⟩ := h
  cases hknown with
  | inl htcp =>
      have hleast := hleast htcp
      exact .inl ⟨htcp, by omega⟩
  | inr hudp =>
      subst hudp
      have hlen : transportHeaderLen b start ipprotoUdp = 8 := rfl
      exact .inr ⟨rfl, by omega⟩

theorem report_transportIpv4 (h : CompleteTransport b start proto announced)
    (hitems : transportIpv4 proto (packet b) b.length start = some items) :
    report items = some (transportReport b start proto b.length) := by
  rcases h.cases with ⟨rfl, hend⟩ | ⟨rfl, hend⟩
  · rw [transportIpv4, if_pos ⟨rfl, by omega⟩] at hitems
    exact report_tcpLayer hend hitems
  · rw [transportIpv4, if_neg fun h => absurd h.1 (by decide), if_pos ⟨rfl, by omega⟩] at hitems
    exact report_udpLayer hend hitems

theorem report_transportIpv6 (h : CompleteTransport b start proto announced)
    (hitems : transportIpv6 proto (packet b) b.length start = some items) :
    report items = some (transportReport b start proto b.length) := by
  rcases h.cases with ⟨rfl, hend⟩ | ⟨rfl, hend⟩
  · rw [transportIpv6, if_pos ⟨rfl, by omega⟩] at hitems
    exact report_tcpLayer hend hitems
  · rw [transportIpv6, if_neg fun h => absurd h.1 (by decide), if_pos ⟨rfl, by omega⟩] at hitems
    exact report_udpLayer hend hitems

theorem length_blanks (n : Nat) : (blanks n).length = n := by
  rw [blanks, String.length_ofList, List.length_replicate]

theorem lower_endOfAnalysis : ∀ item ∈ endOfAnalysis, item.Lower := by
  have htitle : (printf (blanks 83 ++ "END OF ANALYSIS" ++ blanks 38 ++ "\n") []).Lower :=
    lower_of_long (by simp only [String.length_append, length_blanks]; omega)
  simp [endOfAnalysis, lower_rule, htitle, portLines]

theorem lower_banner : ∀ item ∈ banner plen, item.Lower := by
  have htitle : (printf (blanks 72 ++ "PACKET ANALYSIS REPORT" ++ blanks 34 ++ "\n") []).Lower :=
    lower_of_long (by simp only [String.length_append, length_blanks]; omega)
  have hlength : (printf (blanks 72 ++ "Total Length: %d bytes" ++ blanks 34 ++ "\n")
      [.int plen]).Lower :=
    lower_of_long (by simp only [String.length_append, length_blanks]; omega)
  simp [banner, lower_rule, htitle, hlength, portLines]

theorem report_ipv4Layer (hend : 34 ≤ b.length)
    (h : CompleteTransport b (14 + ipHeaderLen b) (ipProtocol b) announced)
    (hitems : ipv4Layer (packet b) b.length = some items) :
    report items = some (transportReport b (14 + ipHeaderLen b) (ipProtocol b) b.length) := by
  have hfirst : (packet b).u8 ethHdrLen = some (b.getD 14 0).toNat :=
    Pointer.u8_of_inside (inside_packet rfl (by decide) (by rw [ethHdrLen]; omega))
  have hninth : (packet b).u8 (ethHdrLen + 9) = some (ipProtocol b) :=
    Pointer.u8_of_inside (inside_packet rfl (by decide) (by rw [ethHdrLen]; omega))
  unfold ipv4Layer at hitems
  rw [if_neg (by rw [ethHdrLen]; omega)] at hitems
  obtain ⟨verIhl, hver, hitems⟩ := Option.bind_eq_some_iff.mp hitems
  obtain ⟨tos, -, hitems⟩ := Option.bind_eq_some_iff.mp hitems
  obtain ⟨totlen, -, hitems⟩ := Option.bind_eq_some_iff.mp hitems
  obtain ⟨id, -, hitems⟩ := Option.bind_eq_some_iff.mp hitems
  obtain ⟨frag, -, hitems⟩ := Option.bind_eq_some_iff.mp hitems
  obtain ⟨ttl, -, hitems⟩ := Option.bind_eq_some_iff.mp hitems
  obtain ⟨proto, hproto, hitems⟩ := Option.bind_eq_some_iff.mp hitems
  obtain ⟨checksum, -, hitems⟩ := Option.bind_eq_some_iff.mp hitems
  obtain ⟨srcip, -, hitems⟩ := Option.bind_eq_some_iff.mp hitems
  obtain ⟨dstip, -, hitems⟩ := Option.bind_eq_some_iff.mp hitems
  obtain ⟨versionField, hversion, hitems⟩ := Option.bind_eq_some_iff.mp hitems
  obtain ⟨idField, hid, hitems⟩ := Option.bind_eq_some_iff.mp hitems
  obtain ⟨ttlField, httl, hitems⟩ := Option.bind_eq_some_iff.mp hitems
  obtain ⟨src, hsrc, hitems⟩ := Option.bind_eq_some_iff.mp hitems
  obtain ⟨dst, hdst, hitems⟩ := Option.bind_eq_some_iff.mp hitems
  obtain ⟨options, hoptions, hitems⟩ := Option.bind_eq_some_iff.mp hitems
  obtain ⟨transport, htransport, hitems⟩ := Option.bind_eq_some_iff.mp hitems
  cases hitems
  obtain rfl := Option.some.inj (hfirst.symm.trans hver)
  obtain rfl := Option.some.inj (hninth.symm.trans hproto)
  have hlower : ∀ item ∈ [Item.layer "LAYER 3" "Network Layer - IPv4", versionField, idField,
      ttlField, src, dst] ++ options, item.Lower := by
    simp only [List.forall_mem_append, List.forall_mem_cons, List.not_mem_nil, false_implies,
      implies_true, and_true]
    exact ⟨⟨lower_layer, lower_of_printFieldBytes hversion (by decide),
      lower_of_printFieldBytes hid (by decide), lower_of_printFieldBytes httl (by decide),
      lower_of_printFieldBytes hsrc (by decide), lower_of_printFieldBytes hdst (by decide)⟩,
      lower_fieldIf hoptions fun item hitem => lower_of_printFieldBytes hitem (by decide)⟩
  rw [append_report lower_endOfAnalysis, report_append hlower]
  exact report_transportIpv4 h htransport

theorem report_ipv6Layer (hend : 54 ≤ b.length)
    (h : CompleteTransport b 54 (ip6NextHeader b) announced)
    (hitems : ipv6Layer (packet b) b.length = some items) :
    report items = some (transportReport b 54 (ip6NextHeader b) b.length) := by
  have hsixth : (packet b).u8 (ethHdrLen + 6) = some (ip6NextHeader b) :=
    Pointer.u8_of_inside (inside_packet rfl (by decide) (by rw [ethHdrLen]; omega))
  unfold ipv6Layer at hitems
  rw [if_neg (by rw [ethHdrLen]; omega)] at hitems
  obtain ⟨vtf, -, hitems⟩ := Option.bind_eq_some_iff.mp hitems
  obtain ⟨versionField, hversion, hitems⟩ := Option.bind_eq_some_iff.mp hitems
  obtain ⟨payloadLen, -, hitems⟩ := Option.bind_eq_some_iff.mp hitems
  obtain ⟨nextHdr, hnext, hitems⟩ := Option.bind_eq_some_iff.mp hitems
  obtain ⟨hop, -, hitems⟩ := Option.bind_eq_some_iff.mp hitems
  obtain ⟨nextField, hnextField, hitems⟩ := Option.bind_eq_some_iff.mp hitems
  obtain ⟨srcbuf, -, hitems⟩ := Option.bind_eq_some_iff.mp hitems
  obtain ⟨dstbuf, -, hitems⟩ := Option.bind_eq_some_iff.mp hitems
  obtain ⟨src, hsrc, hitems⟩ := Option.bind_eq_some_iff.mp hitems
  obtain ⟨dst, hdst, hitems⟩ := Option.bind_eq_some_iff.mp hitems
  obtain ⟨transport, htransport, hitems⟩ := Option.bind_eq_some_iff.mp hitems
  cases hitems
  obtain rfl := Option.some.inj (hsixth.symm.trans hnext)
  have hlower : ∀ item ∈ [Item.layer "LAYER 3" "Network Layer - IPv6", versionField, nextField,
      src, dst], item.Lower := by
    simp only [List.forall_mem_cons, List.not_mem_nil, false_implies, implies_true, and_true]
    exact ⟨lower_layer, lower_of_printFieldBytes hversion (by decide),
      lower_of_printFieldBytes hnextField (by decide), lower_of_printFieldBytes hsrc (by decide),
      lower_of_printFieldBytes hdst (by decide)⟩
  rw [append_report lower_endOfAnalysis, report_append hlower]
  exact report_transportIpv6 h htransport

theorem report_networkLayer (h : WellFormed b)
    (hitems : networkLayer (etherType b) (packet b) b.length = some items) :
    report items = some (packetReport b b.length) := by
  have hlong := h.le_length
  obtain ⟨hnetwork, htransport⟩ := h
  rw [packetReport]
  cases hnetwork with
  | inl hip =>
      obtain ⟨hstart, hproto, hend⟩ := ipv4_fields hip.1
      rw [hstart, hproto] at htransport ⊢
      rw [networkLayer, if_pos hip.1] at hitems
      exact report_ipv4Layer hlong htransport hitems
  | inr hip6 =>
      obtain ⟨hstart, hproto, hend⟩ := ipv6_fields hip6
      rw [hstart, hproto] at htransport ⊢
      rw [networkLayer, if_neg (ne_ipv4_of_ipv6 hip6), if_pos hip6] at hitems
      have hheader := htransport.header
      have hinside := htransport.inside
      exact report_ipv6Layer (by omega) htransport hitems

theorem report_ethernetLayer (h : WellFormed b)
    (hitems : ethernetLayer (packet b) b.length = some items) :
    report items = some (packetReport b b.length) := by
  have hlong := h.le_length
  have htype : getU16Be (packet b) 12 b.length = some (etherType b) :=
    getU16Be_packet (k := 12) (by omega)
  unfold ethernetLayer at hitems
  obtain ⟨dhost, -, hitems⟩ := Option.bind_eq_some_iff.mp hitems
  obtain ⟨dst, hdst, hitems⟩ := Option.bind_eq_some_iff.mp hitems
  obtain ⟨shost, -, hitems⟩ := Option.bind_eq_some_iff.mp hitems
  obtain ⟨src, hsrc, hitems⟩ := Option.bind_eq_some_iff.mp hitems
  obtain ⟨ethertype, hethertype, hitems⟩ := Option.bind_eq_some_iff.mp hitems
  obtain ⟨typeField, htypeField, hitems⟩ := Option.bind_eq_some_iff.mp hitems
  obtain ⟨network, hnetwork, hitems⟩ := Option.bind_eq_some_iff.mp hitems
  cases hitems
  obtain rfl := Option.some.inj (htype.symm.trans hethertype)
  have hlower : ∀ item ∈ [Item.layer "LAYER 2" "Data Link Layer - Ethernet", dst, src, typeField],
      item.Lower := by
    simp only [List.forall_mem_cons, List.not_mem_nil, false_implies, implies_true, and_true]
    exact ⟨lower_layer, lower_of_printFieldBytes hdst (by decide),
      lower_of_printFieldBytes hsrc (by decide), lower_of_printFieldBytes htypeField (by decide)⟩
  rw [report_append hlower]
  exact report_networkLayer h hnetwork

end Detailed

/-- Up to the length where an `int` is exceeded, the detailed view is complete, and measures to the
end of the captured bytes. -/
theorem detailedReport_eq {frame : Frame} (h : WellFormed frame.bytes)
    (hshort : frame.bytes.length < 2147483648) :
    detailedReport frame = some (packetReport frame.bytes frame.bytes.length) := by
  have hcomplete := frame.complete
  have hlong := h.le_length
  have hplen : (frame.header.caplen.toNat : Int).bmod 0x100000000 = frame.bytes.length := by
    rw [Int.bmod_eq_emod]
    split <;> omega
  have hwraps : ¬ WrapsAround frame.bytes frame.bytes.length := by
    rintro ⟨-, hip, hihl, -⟩
    rcases h.network with ⟨-, hleast⟩ | hip6
    · omega
    · exact ne_ipv4_of_ipv6 hip6 hip
  have hsome := (ethernetLayer_isSome_iff rfl (by rw [intMax]; omega) (by omega)).mpr hwraps
  obtain ⟨layers, hlayers⟩ := Option.isSome_iff_exists.mp hsome
  have hpos : ¬ (frame.bytes.length : Int) ≤ 0 := by omega
  have hethernet : ¬ (frame.bytes.length : Int) < ethHdrLen := by
    rw [ethHdrLen]
    omega
  rw [detailedReport, hplen]
  simp only [layerByLayer, hpos, hethernet, if_false, hlayers, Option.bind_eq_bind,
    Option.bind_some, Option.pure_def]
  rw [report_append lower_banner]
  exact report_ethernetLayer h hlayers

theorem detailedReport_eq_none {frame : Frame} (hlong : 2147483648 ≤ frame.bytes.length) :
    detailedReport frame = none := by
  have hcomplete := frame.complete
  have hlt := frame.header.caplen.toNat_lt
  have hnegative : (frame.header.caplen.toNat : Int).bmod 0x100000000 ≤ 0 := by
    rw [Int.bmod_eq_emod]
    split <;> omega
  rw [detailedReport, layerByLayer]
  simp only [hnegative, if_true, Option.bind_some]
  exact report_eq_none (by simp [portLines])

/--
The views report the same of a well-formed frame exactly if its packet ends with the captured
bytes.
-/
theorem views_agree_iff (count : Nat) (frame : Frame) (h : WellFormed frame.bytes) :
    (∃ r, liveReport count frame = some r ∧ detailedReport frame = some r) ↔
      announcedEnd frame.bytes = frame.bytes.length := by
  by_cases hshort : frame.bytes.length < 2147483648
  case pos =>
    rw [liveReport_eq count h hshort, detailedReport_eq h hshort]
    have hheader := h.transport.header
    have hinside := h.transport.inside
    rw [← transportReport_inj hheader (hheader.trans hinside)]
    constructor
    · rintro ⟨r, hlive, hdetailed⟩
      exact Option.some.inj (hlive.trans hdetailed.symm)
    · intro heq
      exact ⟨_, rfl, congrArg some heq.symm⟩
  case neg =>
    have hend := announcedEnd_lt frame.bytes
    rw [detailedReport_eq_none (by omega)]
    constructor
    · rintro ⟨r, -, hr⟩
      cases hr
    · intro heq
      omega

/-- A UDP header without a payload in a frame with 18 bytes behind it. -/
def padded : Frame where
  header := { sec := 0, usec := 0, caplen := 60, len := 60 }
  bytes :=
    List.replicate 12 0 ++ [0x08, 0x00] ++
      [0x45, 0, 0, 28, 0, 0, 0, 0, 64, 17, 0, 0, 10, 0, 0, 1, 10, 0, 0, 2] ++
      [0, 53, 0, 99, 0, 8, 0, 0] ++ List.replicate 18 0
  complete := by decide

theorem wellFormed_padded : WellFormed padded.bytes where
  network := by decide
  transport := ⟨by decide, by decide, by decide, by decide⟩

theorem views_disagree :
    WellFormed padded.bytes ∧ liveReport 1 padded = some ⟨53, 99, none⟩ ∧
      detailedReport padded = some ⟨53, 99, some (42, 18)⟩ ∧
      liveReport 1 padded ≠ detailedReport padded := by
  have hlive : liveReport 1 padded = some ⟨53, 99, none⟩ :=
    (liveReport_eq 1 wellFormed_padded (by decide)).trans (by decide)
  have hdetailed : detailedReport padded = some ⟨53, 99, some (42, 18)⟩ :=
    (detailedReport_eq wellFormed_padded (by decide)).trans (by decide)
  refine ⟨wellFormed_padded, hlive, hdetailed, ?_⟩
  rw [hlive, hdetailed]
  decide

def unpadded : Frame where
  header := { sec := 0, usec := 0, caplen := 42, len := 42 }
  bytes := padded.bytes.take 42
  complete := by decide

theorem views_agree_unpadded :
    ∃ r, liveReport 1 unpadded = some r ∧ detailedReport unpadded = some r :=
  (views_agree_iff 1 unpadded ⟨by decide, by decide, by decide, by decide, by decide⟩).mpr
    (by decide)

end OxyC.Cshark
