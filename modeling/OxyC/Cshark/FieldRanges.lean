import OxyC.Cshark.Agreement
import OxyC.Foundation.Spans

/-!
# The bytes under each label

The ranges of bytes that `layer_by_layer` prints, from its branches and from the
lengths in the headers.  A layer starts where the header before it says that it
ends, be that inside the fields that were printed.
-/

namespace OxyC.Cshark

open OxyC.Foundation

/-- The bytes that stand under a label: the first and the last. -/
def Item.range : Item → Option (Int × Int)
  | .fieldBytes _ _ first last _ => some (first, last)
  | .dump first len _ => some (first, first + len - 1)
  | _ => none

def ranges (items : List Item) : List (Int × Int) := items.filterMap Item.range

/-- No byte stands under two labels, and the labels come in the order of the bytes. -/
def InOrder (items : List Item) : Prop := (ranges items).Pairwise fun r s => r.2 < s.1

/-! ## The ranges of a frame -/

section Frame

variable (b : List UInt8)

/-- A field of the frame, cut off at its end. -/
def fieldRange (first last : Int) : List (Int × Int) :=
  if (b.length : Int) ≤ first then [] else [(first, min last (b.length - 1))]

/-- Everything from `first` on. -/
def restRange (first : Int) : List (Int × Int) :=
  if first < b.length then [(first, (b.length : Int) - 1)] else []

def tcpFields (start : Int) : List (Int × Int) :=
  [(start, start + 3), (start + 4, start + 7), (start + 8, start + 11), (start + 12, start + 15),
    (start + 16, start + 19)]

def tcpRanges (start : Nat) : List (Int × Int) :=
  let hdrLen := transportHeaderLen b start ipprotoTcp
  tcpFields start ++
    (if 20 < hdrLen then fieldRange b (start + 20) (start + hdrLen - 1) else []) ++
    restRange b (start + hdrLen)

def transportRanges (start proto : Nat) : List (Int × Int) :=
  if proto = ipprotoTcp ∧ start + 20 ≤ b.length then tcpRanges b start
  else if proto = ipprotoUdp ∧ start + 8 ≤ b.length then
    ((start : Int), (start : Int) + 7) :: restRange b (start + 8)
  else []

def ipv4Fields : List (Int × Int) := [(14, 17), (18, 21), (22, 25), (26, 29), (30, 33)]

def ipv4Ranges : List (Int × Int) :=
  if b.length < 34 then []
  else
    ipv4Fields ++
      (if 20 < ipHeaderLen b then fieldRange b 34 (14 + ipHeaderLen b - 1) else []) ++
      transportRanges b (14 + ipHeaderLen b) (ipProtocol b)

def ipv6Ranges : List (Int × Int) :=
  if b.length < 54 then []
  else [(14, 17), (18, 21), (22, 37), (38, 53)] ++ transportRanges b 54 (ip6NextHeader b)

def arpRanges : List (Int × Int) := if b.length < 42 then [] else [(14, 21)]

def networkRanges : List (Int × Int) :=
  if etherType b = ethertypeIp then ipv4Ranges b
  else if etherType b = ethertypeIpv6 then ipv6Ranges b
  else if etherType b = ethertypeArp then arpRanges b
  else fieldRange b 14 (b.length - 1)

def frameRanges : List (Int × Int) :=
  if b.length < 14 then fieldRange b 0 (b.length - 1)
  else [(0, 5), (6, 11), (12, 13)] ++ networkRanges b

end Frame

/-! ## What the helpers print -/

section Helpers

variable {b : List UInt8} {items others : List Item} {item : Item}

@[simp] theorem ranges_nil : ranges [] = [] := rfl

@[simp] theorem ranges_append : ranges (items ++ others) = ranges items ++ ranges others :=
  List.filterMap_append

theorem ranges_cons : ranges (item :: items) = item.range.toList ++ ranges items := by
  rw [ranges, List.filterMap_cons]
  cases item.range <;> rfl

@[simp] theorem range_layer {name description : String} :
    (Item.layer name description).range = none := rfl

@[simp] theorem range_printf {format : String} {args : List Arg} :
    (printf format args).range = none := rfl

@[simp] theorem range_dump {first len : Int} {lines : List Text} :
    (Item.dump first len lines).range = some (first, first + len - 1) := rfl

@[simp] theorem ranges_banner (plen : Int) : ranges (banner plen) = [] := rfl

@[simp] theorem ranges_endOfAnalysis : ranges endOfAnalysis = [] := rfl

theorem range_of_printFieldBytes {name : String} {first last : Int} {extra : Formatted}
    (h : printFieldBytes name (packet b) b.length first last extra = some item) :
    item.range.toList = fieldRange b first last := by
  unfold printFieldBytes at h
  rw [fieldRange]
  split at h
  case isTrue hbound =>
    cases h
    rw [if_pos hbound]
    rfl
  case isFalse hbound =>
    obtain ⟨slice, -, hitem⟩ := Option.bind_eq_some_iff.mp h
    cases hitem
    have hlast : (if last ≥ b.length then (b.length : Int) - 1 else last) =
        min last (b.length - 1) := by
      split <;> omega
    rw [if_neg hbound, hlast]
    rfl

theorem range_of_inside {name : String} {first last : Int} {extra : Formatted}
    (h : printFieldBytes name (packet b) b.length first last extra = some item)
    (hle : first ≤ last) (hin : last < b.length) : item.range = some (first, last) := by
  have hrange := range_of_printFieldBytes h
  rw [fieldRange, if_neg (by omega), Int.min_eq_left (by omega)] at hrange
  cases hitem : item.range with
  | none =>
      rw [hitem] at hrange
      cases hrange
  | some r =>
      rw [hitem] at hrange
      cases hrange
      rfl

theorem ranges_fieldIf {c : Prop} [Decidable c] {name : String} {first last : Int}
    {extra : Formatted}
    (h : fieldIf c (printFieldBytes name (packet b) b.length first last extra) = some items) :
    ranges items = if c then fieldRange b first last else [] := by
  unfold fieldIf at h
  by_cases hc : c
  · rw [if_pos (decide_eq_true hc)] at h
    obtain ⟨item, hitem, rfl⟩ := Option.map_eq_some_iff.mp h
    rw [if_pos hc, ranges_cons, range_of_printFieldBytes hitem, ranges_nil, List.append_nil]
  · rw [if_neg (by simpa using hc)] at h
    cases h
    rw [if_neg hc]
    rfl

theorem ranges_payloadLayer {title : String} {dump : Pointer → Int → Option (List Text)}
    {pkt : Pointer} {payloadOff : Int}
    (h : payloadLayer title dump pkt b.length payloadOff = some items) :
    ranges items = restRange b payloadOff := by
  unfold payloadLayer at h
  rw [restRange]
  split at h
  case isTrue hmore =>
    have hpos : (b.length : Int) - payloadOff > 0 := by omega
    simp only [hpos, if_true, Option.bind_eq_bind, Option.bind_eq_some_iff, Option.pure_def,
      Option.some.injEq] at h
    obtain ⟨lines, -, rfl⟩ := h
    rw [if_pos hmore]
    simp [ranges_cons]
  case isFalse hmore =>
    cases h
    rw [if_neg hmore]
    rfl

end Helpers

/-! ## What the layers print -/

section Layers

variable {b : List UInt8} {start proto : Nat} {items : List Item}

theorem ranges_tcpLayer {title control payloadTitle : String} (hend : start + 20 ≤ b.length)
    (h : tcpLayer title control payloadTitle (packet b) b.length start = some items) :
    ranges items = tcpRanges b start := by
  obtain ⟨ports, seqField, ackField, controlField, checksumField, options, payload, rfl, hports,
    ⟨_, hseq⟩, ⟨_, hack⟩, ⟨_, hcontrol⟩, ⟨_, hchecksum⟩, hoptions, hpayload⟩ :=
    tcpLayer_eq_some hend h
  simp only [ranges_append, ranges_cons, range_layer, range_of_inside hports (by omega) (by omega),
    range_of_inside hseq (by omega) (by omega), range_of_inside hack (by omega) (by omega),
    range_of_inside hcontrol (by omega) (by omega),
    range_of_inside hchecksum (by omega) (by omega), ranges_fieldIf hoptions,
    ranges_payloadLayer hpayload, tcpRanges]
  rfl

theorem ranges_udpLayer {title payloadTitle : String} {dump : Pointer → Int → Option (List Text)}
    (hend : start + 8 ≤ b.length)
    (h : udpLayer title payloadTitle dump (packet b) b.length start = some items) :
    ranges items = ((start : Int), (start : Int) + 7) :: restRange b (start + 8) := by
  obtain ⟨ulen, chksum, header, payload, rfl, hheader, hpayload⟩ := udpLayer_eq_some hend h
  simp only [ranges_append, ranges_cons, range_layer, range_of_inside hheader (by omega) (by omega),
    ranges_payloadLayer hpayload]
  rfl

/-- Both network layers choose the transport layer in this way. -/
theorem ranges_transport {tcp udp : Option (List Item)}
    (htcp : start + 20 ≤ b.length → tcp = some items → ranges items = tcpRanges b start)
    (hudp : start + 8 ≤ b.length → udp = some items →
      ranges items = ((start : Int), (start : Int) + 7) :: restRange b (start + 8))
    (h : (if proto = ipprotoTcp ∧ (start : Int) + 20 ≤ b.length then tcp
      else if proto = ipprotoUdp ∧ (start : Int) + 8 ≤ b.length then udp
      else some []) = some items) :
    ranges items = transportRanges b start proto := by
  unfold transportRanges
  split at h
  case isTrue hyes =>
    have hend : start + 20 ≤ b.length := by omega
    rw [if_pos ⟨hyes.1, hend⟩]
    exact htcp hend h
  case isFalse hno =>
    rw [if_neg fun hboth => hno ⟨hboth.1, by omega⟩]
    split at h
    case isTrue hyes =>
      have hend : start + 8 ≤ b.length := by omega
      rw [if_pos ⟨hyes.1, hend⟩]
      exact hudp hend h
    case isFalse hno =>
      rw [if_neg fun hboth => hno ⟨hboth.1, by omega⟩]
      cases h
      rfl

theorem ranges_transportIpv4 (h : transportIpv4 proto (packet b) b.length start = some items) :
    ranges items = transportRanges b start proto :=
  ranges_transport ranges_tcpLayer ranges_udpLayer h

theorem ranges_transportIpv6 (h : transportIpv6 proto (packet b) b.length start = some items) :
    ranges items = transportRanges b start proto :=
  ranges_transport ranges_tcpLayer ranges_udpLayer h

theorem ranges_ipv4Layer (h : ipv4Layer (packet b) b.length = some items) :
    ranges items = ipv4Ranges b := by
  unfold ipv4Layer at h
  unfold ipv4Ranges
  extract_lets title ipOff at h
  have hoff : ipOff = 14 := rfl
  clear_value ipOff
  subst hoff
  split at h
  case isTrue htruncated =>
    cases h
    rw [if_pos (by omega)]
    rfl
  case isFalse hbound =>
    have hlong : 34 ≤ b.length := by omega
    have hfirst : (packet b).u8 14 = some (b.getD 14 0).toNat :=
      Pointer.u8_of_inside (inside_packet rfl (by decide) (by omega))
    have hninth : (packet b).u8 (14 + 9) = some (ipProtocol b) :=
      Pointer.u8_of_inside (inside_packet (k := 23) rfl (by decide) (by omega))
    obtain ⟨verIhl, hver, h⟩ := Option.bind_eq_some_iff.mp h
    obtain ⟨tos, -, h⟩ := Option.bind_eq_some_iff.mp h
    obtain ⟨totlen, -, h⟩ := Option.bind_eq_some_iff.mp h
    obtain ⟨id, -, h⟩ := Option.bind_eq_some_iff.mp h
    obtain ⟨frag, -, h⟩ := Option.bind_eq_some_iff.mp h
    obtain ⟨ttl, -, h⟩ := Option.bind_eq_some_iff.mp h
    obtain ⟨proto, hproto, h⟩ := Option.bind_eq_some_iff.mp h
    obtain ⟨checksum, -, h⟩ := Option.bind_eq_some_iff.mp h
    obtain ⟨srcip, -, h⟩ := Option.bind_eq_some_iff.mp h
    obtain ⟨dstip, -, h⟩ := Option.bind_eq_some_iff.mp h
    obtain ⟨versionField, hversion, h⟩ := Option.bind_eq_some_iff.mp h
    obtain ⟨idField, hid, h⟩ := Option.bind_eq_some_iff.mp h
    obtain ⟨ttlField, httl, h⟩ := Option.bind_eq_some_iff.mp h
    obtain ⟨src, hsrc, h⟩ := Option.bind_eq_some_iff.mp h
    obtain ⟨dst, hdst, h⟩ := Option.bind_eq_some_iff.mp h
    obtain ⟨options, hoptions, h⟩ := Option.bind_eq_some_iff.mp h
    obtain ⟨transport, htransport, h⟩ := Option.bind_eq_some_iff.mp h
    cases h
    obtain rfl := Option.some.inj (hfirst.symm.trans hver)
    obtain rfl := Option.some.inj (hninth.symm.trans hproto)
    have hl4 : ranges transport = transportRanges b (14 + ipHeaderLen b) (ipProtocol b) :=
      ranges_transportIpv4 htransport
    have hihl : ipHeaderLen b = (b.getD 14 0).toNat % 16 * 4 := rfl
    rw [if_neg (by omega)]
    simp only [ranges_append, ranges_cons, title, range_layer,
      range_of_inside hversion (by decide) (by omega), range_of_inside hid (by decide) (by omega),
      range_of_inside httl (by decide) (by omega), range_of_inside hsrc (by decide) (by omega),
      range_of_inside hdst (by decide) (by omega), ranges_fieldIf hoptions, hl4,
      ranges_endOfAnalysis, hihl]
    simp [ipv4Fields]

theorem ranges_ipv6Layer (h : ipv6Layer (packet b) b.length = some items) :
    ranges items = ipv6Ranges b := by
  unfold ipv6Layer at h
  unfold ipv6Ranges
  extract_lets title ip6Off at h
  have hoff : ip6Off = 14 := rfl
  clear_value ip6Off
  subst hoff
  split at h
  case isTrue htruncated =>
    cases h
    rw [if_pos (by omega)]
    rfl
  case isFalse hbound =>
    have hlong : 54 ≤ b.length := by omega
    have hsixth : (packet b).u8 (14 + 6) = some (ip6NextHeader b) :=
      Pointer.u8_of_inside (inside_packet (k := 20) rfl (by decide) (by omega))
    obtain ⟨vtf, -, h⟩ := Option.bind_eq_some_iff.mp h
    obtain ⟨versionField, hversion, h⟩ := Option.bind_eq_some_iff.mp h
    obtain ⟨payloadLen, -, h⟩ := Option.bind_eq_some_iff.mp h
    obtain ⟨nextHdr, hnext, h⟩ := Option.bind_eq_some_iff.mp h
    obtain ⟨hop, -, h⟩ := Option.bind_eq_some_iff.mp h
    obtain ⟨nextField, hnextField, h⟩ := Option.bind_eq_some_iff.mp h
    obtain ⟨srcbuf, -, h⟩ := Option.bind_eq_some_iff.mp h
    obtain ⟨dstbuf, -, h⟩ := Option.bind_eq_some_iff.mp h
    obtain ⟨src, hsrc, h⟩ := Option.bind_eq_some_iff.mp h
    obtain ⟨dst, hdst, h⟩ := Option.bind_eq_some_iff.mp h
    obtain ⟨transport, htransport, h⟩ := Option.bind_eq_some_iff.mp h
    cases h
    obtain rfl := Option.some.inj (hsixth.symm.trans hnext)
    have hl4 : ranges transport = transportRanges b 54 (ip6NextHeader b) :=
      ranges_transportIpv6 htransport
    rw [if_neg (by omega)]
    simp only [ranges_append, ranges_cons, title, range_layer,
      range_of_inside hversion (by decide) (by omega),
      range_of_inside hnextField (by decide) (by omega),
      range_of_inside hsrc (by decide) (by omega), range_of_inside hdst (by decide) (by omega),
      hl4, ranges_endOfAnalysis]
    simp

theorem ranges_arpLayer (h : arpLayer (packet b) b.length = some items) :
    ranges items = arpRanges b := by
  unfold arpLayer at h
  unfold arpRanges
  extract_lets title arpOff at h
  have hoff : arpOff = 14 := rfl
  clear_value arpOff
  subst hoff
  split at h
  case isTrue htruncated =>
    cases h
    rw [if_pos (by omega)]
    rfl
  case isFalse hbound =>
    obtain ⟨htype, -, h⟩ := Option.bind_eq_some_iff.mp h
    obtain ⟨ptype, -, h⟩ := Option.bind_eq_some_iff.mp h
    obtain ⟨op, -, h⟩ := Option.bind_eq_some_iff.mp h
    obtain ⟨header, hheader, h⟩ := Option.bind_eq_some_iff.mp h
    cases h
    rw [if_neg (by omega)]
    simp only [ranges_append, ranges_cons, title, range_layer,
      range_of_inside hheader (by decide) (by omega), ranges_endOfAnalysis]
    rfl

theorem ranges_unknownLayer {ethertype : Nat}
    (h : unknownLayer ethertype (packet b) b.length = some items) :
    ranges items = fieldRange b 14 (b.length - 1) := by
  unfold unknownLayer at h
  obtain ⟨data, hdata, h⟩ := Option.bind_eq_some_iff.mp h
  cases h
  simp only [ranges_append, ranges_cons, range_layer, range_of_printFieldBytes hdata,
    ranges_endOfAnalysis]
  simp [ethHdrLen]

theorem ranges_networkLayer
    (h : networkLayer (etherType b) (packet b) b.length = some items) :
    ranges items = networkRanges b := by
  unfold networkLayer at h
  unfold networkRanges
  split at h
  case isTrue hip =>
    rw [if_pos hip]
    exact ranges_ipv4Layer h
  case isFalse hip =>
    rw [if_neg hip]
    split at h
    case isTrue hip6 =>
      rw [if_pos hip6]
      exact ranges_ipv6Layer h
    case isFalse hip6 =>
      rw [if_neg hip6]
      split at h
      case isTrue harp =>
        rw [if_pos harp]
        exact ranges_arpLayer h
      case isFalse harp =>
        rw [if_neg harp]
        exact ranges_unknownLayer h

theorem ranges_layerByLayer (hne : 0 < b.length)
    (h : layerByLayer (some b) b.length = some items) : ranges items = frameRanges b := by
  have hpos : ¬ (b.length : Int) ≤ 0 := by omega
  simp only [layerByLayer, hpos, if_false] at h
  unfold frameRanges
  split at h
  case isTrue hshort =>
    unfold ethHdrLen at hshort
    rw [if_pos (by omega)]
    obtain ⟨raw, hraw, h⟩ := Option.bind_eq_some_iff.mp h
    cases h
    simp only [ranges_append, ranges_cons, ranges_banner, range_printf,
      range_of_printFieldBytes hraw]
    simp
  case isFalse hlong =>
    unfold ethHdrLen at hlong
    rw [if_neg (by omega)]
    obtain ⟨layers, hlayers, h⟩ := Option.bind_eq_some_iff.mp h
    cases h
    have htype : getU16Be (packet b) 12 b.length = some (etherType b) :=
      getU16Be_packet (k := 12) (by omega)
    unfold ethernetLayer at hlayers
    obtain ⟨dhost, -, h⟩ := Option.bind_eq_some_iff.mp hlayers
    obtain ⟨dst, hdst, h⟩ := Option.bind_eq_some_iff.mp h
    obtain ⟨shost, -, h⟩ := Option.bind_eq_some_iff.mp h
    obtain ⟨src, hsrc, h⟩ := Option.bind_eq_some_iff.mp h
    obtain ⟨ethertype, hvalue, h⟩ := Option.bind_eq_some_iff.mp h
    obtain ⟨typeField, htypeField, h⟩ := Option.bind_eq_some_iff.mp h
    obtain ⟨network, hnetwork, h⟩ := Option.bind_eq_some_iff.mp h
    cases h
    obtain rfl := Option.some.inj (htype.symm.trans hvalue)
    simp only [ranges_append, ranges_cons, ranges_banner, range_layer,
      range_of_inside hdst (by decide) (by omega), range_of_inside hsrc (by decide) (by omega),
      range_of_inside htypeField (by decide) (by omega), ranges_networkLayer hnetwork]
    rfl

end Layers

/-! ## When the ranges are in order -/

def TransportPrinted (b : List UInt8) : Prop :=
  transportProtocol b = ipprotoTcp ∧ transportStart b + 20 ≤ b.length ∨
    transportProtocol b = ipprotoUdp ∧ transportStart b + 8 ≤ b.length

/-- A header that is printed and has another one or a payload behind it is not shorter than its
fields. -/
structure HonestHeaders (b : List UInt8) : Prop where
  network : etherType b = ethertypeIp → 34 ≤ b.length → TransportPrinted b → 20 ≤ ipHeaderLen b
  transport : etherType b = ethertypeIp ∨ etherType b = ethertypeIpv6 →
    transportProtocol b = ipprotoTcp → transportStart b + 20 ≤ b.length →
      20 ≤ transportHeaderLen b (transportStart b) ipprotoTcp

section Order

variable {b : List UInt8} {start proto : Nat}

theorem spans_fieldRange {first last : Int} (hle : first ≤ last) :
    Spans first (fieldRange b first last) (last + 1) := by
  unfold fieldRange
  split
  · exact Int.le_add_one hle
  · simp only [Spans]
    omega

theorem spans_restRange (first : Int) :
    Spans first (restRange b first) (max first b.length) := by
  unfold restRange
  split
  · simp only [Spans]
    omega
  · simp only [Spans]
    omega

theorem spans_tcpRanges (hleast : 20 ≤ transportHeaderLen b start ipprotoTcp) :
    ∃ hi, Spans start (tcpRanges b start) hi := by
  have hfields : Spans start (tcpFields start) (start + 20) := by
    simp only [tcpFields, Spans]
    omega
  refine ⟨_, (hfields.append ?_).append (spans_restRange _)⟩
  split
  · have hle : (start : Int) + 20 ≤ start + transportHeaderLen b start ipprotoTcp - 1 := by omega
    exact (spans_fieldRange hle).mono (Int.le_refl _) (by omega)
  · simp only [Spans]
    omega

theorem spans_transportRanges
    (hleast : proto = ipprotoTcp → start + 20 ≤ b.length →
      20 ≤ transportHeaderLen b start ipprotoTcp) :
    ∃ hi, Spans start (transportRanges b start proto) hi := by
  unfold transportRanges
  split
  next htcp => exact spans_tcpRanges (hleast htcp.1 htcp.2)
  next =>
      split
      · refine ⟨_, ?_, ?_, spans_restRange _⟩
        · exact Int.le_refl _
        · simp only
          omega
      · exact ⟨start, Int.le_refl _⟩

theorem transportRanges_eq_nil (h : ¬ (proto = ipprotoTcp ∧ start + 20 ≤ b.length ∨
    proto = ipprotoUdp ∧ start + 8 ≤ b.length)) : transportRanges b start proto = [] := by
  obtain ⟨htcp, hudp⟩ := not_or.mp h
  rw [transportRanges, if_neg htcp, if_neg hudp]

theorem mem_transportRanges (h : proto = ipprotoTcp ∧ start + 20 ≤ b.length ∨
    proto = ipprotoUdp ∧ start + 8 ≤ b.length) :
    ∃ last, ((start : Int), last) ∈ transportRanges b start proto := by
  unfold transportRanges
  split
  next => exact ⟨start + 3, by simp [tcpRanges, tcpFields]⟩
  next htcp =>
      rw [if_pos (h.resolve_left htcp)]
      exact ⟨start + 7, List.mem_cons_self⟩

/-- A payload starts behind the last of the fields. -/
theorem le_of_pairwise_tcpRanges (hend : start + 20 ≤ b.length)
    (h : (tcpRanges b start).Pairwise fun r s => r.2 < s.1) :
    20 ≤ transportHeaderLen b start ipprotoTcp := by
  by_contra hshort
  rw [tcpRanges, List.pairwise_append] at h
  have hlast : ((start : Int) + 16, (start : Int) + 19) ∈ tcpFields start := by
    simp [tcpFields]
  have hpayload := h.2.2 _ (List.mem_append_left _ hlast)
    ((start : Int) + transportHeaderLen b start ipprotoTcp, (b.length : Int) - 1)
  have hmem := hpayload (by rw [restRange, if_pos (by omega)]; exact List.mem_singleton_self _)
  simp only at hmem
  omega

theorem ipv4Ranges_eq (hip : etherType b = ethertypeIp) (hlong : 34 ≤ b.length) :
    ipv4Ranges b = ipv4Fields ++
      (if 20 < ipHeaderLen b then fieldRange b 34 (14 + ipHeaderLen b - 1) else []) ++
      transportRanges b (transportStart b) (transportProtocol b) := by
  obtain ⟨hstart, hproto, -⟩ := ipv4_fields hip
  rw [ipv4Ranges, if_neg (by omega), hstart, hproto]

theorem ipv6Ranges_eq (hip6 : etherType b = ethertypeIpv6) (hlong : 54 ≤ b.length) :
    ipv6Ranges b = [(14, 17), (18, 21), (22, 37), (38, 53)] ++
      transportRanges b (transportStart b) (transportProtocol b) := by
  obtain ⟨hstart, hproto, -⟩ := ipv6_fields hip6
  rw [ipv6Ranges, if_neg (by omega), hstart, hproto]

theorem HonestHeaders.spans_ipv4 (h : HonestHeaders b) (hip : etherType b = ethertypeIp) :
    ∃ hi, Spans 14 (ipv4Ranges b) hi := by
  by_cases hlong : 34 ≤ b.length
  · have hfields : Spans 14 ipv4Fields 34 := by
      simp only [ipv4Fields, Spans]
      decide
    have hoptions : ∀ hi : Int, 34 ≤ hi → 14 + (ipHeaderLen b : Int) ≤ hi → Spans 34
        (if 20 < ipHeaderLen b then fieldRange b 34 (14 + ipHeaderLen b - 1) else []) hi := by
      intro hi hlo hend
      split
      · have hle : (34 : Int) ≤ 14 + ipHeaderLen b - 1 := by omega
        exact (spans_fieldRange hle).mono (Int.le_refl _) (by omega)
      · exact hlo
    rw [ipv4Ranges_eq hip hlong]
    by_cases hprinted : TransportPrinted b
    · have hleast := h.network hip hlong hprinted
      obtain ⟨hstart, -, -⟩ := ipv4_fields hip
      obtain ⟨hi, htransport⟩ := spans_transportRanges (h.transport (.inl hip))
      refine ⟨hi, (hfields.append (hoptions _ ?_ ?_)).append htransport⟩
      · omega
      · omega
    · rw [transportRanges_eq_nil hprinted, List.append_nil]
      exact ⟨max 34 (14 + ipHeaderLen b), hfields.append (hoptions _ (by omega) (by omega))⟩
  · rw [ipv4Ranges, if_pos (by omega)]
    exact ⟨14, Int.le_refl _⟩

theorem HonestHeaders.spans_ipv6 (h : HonestHeaders b) (hip6 : etherType b = ethertypeIpv6) :
    ∃ hi, Spans 14 (ipv6Ranges b) hi := by
  by_cases hlong : 54 ≤ b.length
  · obtain ⟨hstart, -, -⟩ := ipv6_fields hip6
    obtain ⟨hi, htransport⟩ := spans_transportRanges (h.transport (.inr hip6))
    have hfields : Spans 14 [(14, 17), (18, 21), (22, 37), (38, 53)] (transportStart b) := by
      rw [hstart]
      simp only [Spans]
      decide
    rw [ipv6Ranges_eq hip6 hlong]
    exact ⟨hi, hfields.append htransport⟩
  · rw [ipv6Ranges, if_pos (by omega)]
    exact ⟨14, Int.le_refl _⟩

theorem spans_arpRanges : ∃ hi, Spans 14 (arpRanges b) hi := by
  unfold arpRanges
  split
  next => exact ⟨14, Int.le_refl _⟩
  next => exact ⟨22, by simp only [Spans]; decide⟩

theorem spans_unknown : ∃ hi, Spans 14 (fieldRange b 14 (b.length - 1)) hi := by
  unfold fieldRange
  split
  next => exact ⟨14, Int.le_refl _⟩
  next =>
      refine ⟨b.length, ?_⟩
      simp only [Spans]
      omega

theorem HonestHeaders.spans_network (h : HonestHeaders b) :
    ∃ hi, Spans 14 (networkRanges b) hi := by
  unfold networkRanges
  split
  next hip => exact h.spans_ipv4 hip
  next =>
      split
      next hip6 => exact h.spans_ipv6 hip6
      next =>
          split
          next => exact spans_arpRanges
          next => exact spans_unknown

theorem HonestHeaders.spans (h : HonestHeaders b) : ∃ hi, Spans 0 (frameRanges b) hi := by
  unfold frameRanges
  split
  next hshort =>
      by_cases hempty : b.length = 0
      · rw [fieldRange, if_pos (by omega)]
        exact ⟨0, Int.le_refl _⟩
      · exact ⟨_, spans_fieldRange (by omega)⟩
  next hlong =>
      have hfields : Spans 0 [(0, 5), (6, 11), (12, 13)] 14 := by
        simp only [Spans]
        decide
      obtain ⟨hi, hnetwork⟩ := h.spans_network
      exact ⟨hi, hfields.append hnetwork⟩

theorem honestHeaders_of_pairwise (h : (frameRanges b).Pairwise fun r s => r.2 < s.1) :
    HonestHeaders b := by
  have hnetwork : 14 ≤ b.length → (networkRanges b).Pairwise fun r s => r.2 < s.1 := by
    intro hlong
    rw [frameRanges, if_neg (by omega)] at h
    exact (List.pairwise_append.mp h).2.1
  constructor
  case network =>
    intro hip hlong hprinted
    have hranges := hnetwork (by omega)
    rw [networkRanges, if_pos hip, ipv4Ranges_eq hip hlong, List.pairwise_append] at hranges
    obtain ⟨last, hmem⟩ := mem_transportRanges hprinted
    have hdst : ((30, 33) : Int × Int) ∈ ipv4Fields := by decide
    have hbehind := hranges.2.2 _ (List.mem_append_left _ hdst) _ hmem
    obtain ⟨hstart, -, -⟩ := ipv4_fields hip
    simp only at hbehind
    omega
  case transport =>
    intro hip htcp hend
    refine le_of_pairwise_tcpRanges hend ?_
    have htransport :
        (transportRanges b (transportStart b) (transportProtocol b)).Pairwise
          fun r s => r.2 < s.1 := by
      cases hip with
      | inl hip =>
          obtain ⟨hstart, -, -⟩ := ipv4_fields hip
          have hranges := hnetwork (by omega)
          rw [networkRanges, if_pos hip, ipv4Ranges_eq hip (by omega)] at hranges
          exact (List.pairwise_append.mp hranges).2.1
      | inr hip6 =>
          obtain ⟨hstart, -, -⟩ := ipv6_fields hip6
          have hranges := hnetwork (by omega)
          rw [networkRanges, if_neg (ne_ipv4_of_ipv6 hip6), if_pos hip6,
            ipv6Ranges_eq hip6 (by omega)] at hranges
          exact (List.pairwise_append.mp hranges).2.1
    rwa [transportRanges, if_pos ⟨htcp, hend⟩] at htransport

end Order

theorem HonestHeaders.not_wrapsAround {b : List UInt8} (h : HonestHeaders b)
    (hlong : 34 ≤ b.length) : ¬ WrapsAround b b.length := by
  rintro ⟨-, hip, hihl, htcp, -⟩
  obtain ⟨hstart, hproto, -⟩ := ipv4_fields hip
  have hprinted : TransportPrinted b := by
    refine .inl ⟨hproto.trans htcp, ?_⟩
    rw [hstart, hihl]
    exact hlong
  have hleast := h.network hip hlong hprinted
  omega

theorem layerByLayer_isSome {b : List UInt8} (hfits : (b.length : Int) ≤ intMax)
    (h : HonestHeaders b) : (layerByLayer (some b) b.length).isSome := by
  by_cases hlong : 14 ≤ b.length
  · rw [layerByLayer_isSome_of_long (by omega), ethernetLayer_isSome_iff rfl hfits (by omega)]
    by_cases hip : 34 ≤ b.length
    · exact h.not_wrapsAround hip
    · rintro ⟨hmax, -⟩
      unfold intMax at hmax
      omega
  · simp only [layerByLayer]
    split
    case isTrue => rfl
    case isFalse =>
      unfold ethHdrLen
      rw [if_pos (by omega)]
      exact isSome_bind_some_iff.mpr (field_isSome rfl (Int.le_refl 0))

/--
The labels share no byte and come in the order of the bytes exactly if no header announces less
than the fields that are printed of it.
-/
theorem layer_by_layer_ranges_iff (p : Packet) :
    (∃ items, layerByLayer (some p.bytes) p.plen = some items ∧ InOrder items) ↔
      HonestHeaders p.bytes := by
  have hcomplete := p.complete
  by_cases hpos : 0 < p.plen
  · have hlen : p.plen = p.bytes.length := by omega
    have hfits := p.fits
    rw [hlen] at hfits ⊢
    constructor
    · rintro ⟨items, hitems, horder⟩
      rw [InOrder, ranges_layerByLayer (by omega) hitems] at horder
      exact honestHeaders_of_pairwise horder
    · intro h
      obtain ⟨items, hitems⟩ := Option.isSome_iff_exists.mp (layerByLayer_isSome hfits h)
      obtain ⟨hi, hspans⟩ := h.spans
      refine ⟨items, hitems, ?_⟩
      rw [InOrder, ranges_layerByLayer (by omega) hitems]
      exact hspans.pairwise
  · have hempty : p.bytes.length = 0 := by omega
    refine iff_of_true ⟨[printf "[layer_by_layer] empty packet\n" []], ?_, .nil⟩ ?_
    · exact if_pos (by omega)
    · exact ⟨fun _ hlong => by omega, fun _ _ hend => by omega⟩

/-- A frame with UDP whose IPv4 header announces a length of four bytes. -/
def shortHeader : Packet where
  bytes := List.replicate 12 0 ++ [0x08, 0x00, 0x41, 0, 0, 34, 0, 0, 0, 0, 64, 17] ++
    List.replicate 10 0
  plen := 34
  fits := by decide
  complete := rfl

/-- The UDP header is read from bytes that stand under two other labels. -/
theorem layer_by_layer_ranges_overlap :
    ∃ items, layerByLayer (some shortHeader.bytes) shortHeader.plen = some items ∧
      ranges items = [(0, 5), (6, 11), (12, 13), (14, 17), (18, 21), (22, 25), (26, 29), (30, 33),
        (18, 25), (26, 33)] ∧ ¬ InOrder items := by
  have hsome : (layerByLayer (some shortHeader.bytes) shortHeader.bytes.length).isSome := by
    rw [layerByLayer_isSome_of_long (by decide), ethernetLayer_isSome_iff rfl (by decide)
      (by decide)]
    rintro ⟨hmax, -⟩
    exact absurd hmax (by decide)
  obtain ⟨items, hitems⟩ := Option.isSome_iff_exists.mp hsome
  have hranges : ranges items = [(0, 5), (6, 11), (12, 13), (14, 17), (18, 21), (22, 25), (26, 29),
      (30, 33), (18, 25), (26, 33)] := by
    rw [ranges_layerByLayer (by decide) hitems]
    decide
  refine ⟨items, hitems, hranges, ?_⟩
  rw [InOrder, hranges]
  decide

end OxyC.Cshark
