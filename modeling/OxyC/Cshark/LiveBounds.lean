import OxyC.Cshark.Live

/-!
# What the live decoders read

The decoders measure from the lengths that the headers announce.  They stay
inside of a frame exactly if these lengths do.
-/

namespace OxyC.Cshark

open OxyC.Foundation

/-- A payload that is passed on lies inside of the first `n` bytes. -/
def Item.Within (n : Nat) : Item → Prop
  | .payload first len | .dump first len _ => 0 ≤ len ∧ 0 ≤ first ∧ first + len ≤ n
  | _ => True

/-- The lines and fields that name the ports of a transport header. -/
def portLines : List String :=
  ["L4 (TCP): Src Port: %u (%s) | Dst Port: %u (%s)\n",
    "L4 (UDP): Src Port: %u | Dst Port: %u | Length: %u | Checksum: 0x%04X\n"]

def portFields : List String := ["Port Numbers", "UDP Header"]

/-- The item is about a layer below the transport layer. -/
def Item.Lower : Item → Prop
  | .printf f => f.format ∉ portLines
  | .fieldBytes name _ _ _ _ => name ∉ portFields
  | .dump _ _ _ | .payload _ _ => False
  | _ => True

theorem Item.Lower.within {n : Nat} {item : Item} (h : item.Lower) : item.Within n := by
  cases item with
  | dump first len lines => exact h.elim
  | payload first len => exact h.elim
  | _ => exact trivial

@[simp] theorem lower_printf {format : String} {args : List Arg} :
    (printf format args).Lower ↔ format ∉ portLines := Iff.rfl

/-- No port line is as long as a rule or a title. -/
theorem lower_of_long {format : String} {args : List Arg} (h : 100 ≤ format.length) :
    (printf format args).Lower := by
  intro hmem
  have hlength := List.mem_map_of_mem (f := String.length) hmem
  have hshort : ∀ n ∈ portLines.map String.length, n < 100 := by decide
  exact absurd (hshort _ hlength) (Nat.not_lt.mpr h)

theorem lower_rule : rule.Lower := by
  apply lower_of_long
  rw [String.length_append, String.length_ofList, List.length_replicate]
  omega

/-- The computation has read no byte outside, and passes on nothing outside of `n` bytes. -/
def Contained (n : Nat) (x : Option (List Item)) : Prop :=
  ∃ items, x = some items ∧ ∀ item ∈ items, item.Within n

namespace Contained

variable {n : Nat} {x : Option (List Item)} {pre : List Item}

theorem map_append (hpre : ∀ item ∈ pre, item.Lower) :
    Contained n (x.map (pre ++ ·)) ↔ Contained n x := by
  constructor
  · rintro ⟨_, hx, hitems⟩
    obtain ⟨items, rfl, rfl⟩ := Option.map_eq_some_iff.mp hx
    exact ⟨items, rfl, fun item hitem => hitems item (List.mem_append_right pre hitem)⟩
  · rintro ⟨items, rfl, hitems⟩
    refine ⟨pre ++ items, rfl, fun item hitem => ?_⟩
    cases List.mem_append.mp hitem with
    | inl hpre' => exact (hpre item hpre').within
    | inr hitem' => exact hitems item hitem'

end Contained

theorem within_printf {n : Nat} {format : String} {args : List Arg} :
    (printf format args).Within n := trivial

theorem within_flagNames {n flags : Nat} {names : List (Nat × String)} :
    ∀ item ∈ flagNames flags names, item.Within n := by
  intro item hitem
  obtain ⟨name, -, hname⟩ := List.mem_filterMap.mp hitem
  simp only [Option.ite_none_right_eq_some, Option.some.injEq] at hname
  rw [← hname.2]
  exact within_printf

/-! ## Layer 4 -/

section Transport

variable {header payload : Pointer} {len : Int} {n : Nat}

theorem exists_payload_lines (hpayload : (Item.payload payload.offset len).Within n)
    (hn : n = payload.block.length) : ∃ lines, printHexAscii payload len 64 = some lines := by
  obtain ⟨hlen, hlow, hhigh⟩ := hpayload
  rw [← Option.isSome_iff_exists, printHexAscii_isSome_iff (by omega)]
  intro hpos
  omega

theorem contained_decodeTcp (hheader : header.Inside 0 18)
    (hpayload : (Item.payload payload.offset len).Within n) (hn : n = payload.block.length) :
    Contained n (decodeTcp header len payload) := by
  obtain ⟨lines, hlines⟩ := exists_payload_lines hpayload hn
  simp (disch := exact hheader.mono (by decide) (by decide)) only [decodeTcp,
    Pointer.u8_of_inside, Pointer.u16_of_inside, Pointer.u32_of_inside, hlines,
    Option.bind_eq_bind, Option.bind_some]
  refine ⟨_, rfl, ?_⟩
  simp only [List.forall_mem_append, List.forall_mem_cons, List.not_mem_nil, false_implies,
    implies_true, within_printf, firstBytes, true_and, and_true]
  refine ⟨within_flagNames, ?_, hpayload⟩
  split <;> exact within_printf

theorem contained_decodeUdp (hheader : header.Inside 0 8)
    (hpayload : (Item.payload payload.offset len).Within n) (hn : n = payload.block.length) :
    Contained n (decodeUdp header len payload) := by
  obtain ⟨lines, hlines⟩ := exists_payload_lines hpayload hn
  simp (disch := exact hheader.mono (by decide) (by decide)) only [decodeUdp,
    Pointer.u16_of_inside, hlines, Option.bind_eq_bind, Option.bind_some]
  split
  case isTrue =>
    refine ⟨_, rfl, ?_⟩
    simp only [List.forall_mem_cons, List.not_mem_nil, false_implies, implies_true,
      within_printf, firstBytes, true_and, and_true]
    refine ⟨?_, hpayload⟩
    split
    case isTrue => exact within_printf
    case isFalse => split <;> exact within_printf
  case isFalse =>
    refine ⟨_, rfl, ?_⟩
    simp only [List.forall_mem_cons, List.not_mem_nil, false_implies, implies_true,
      within_printf, and_true]

/--
The lengths announced for a transport header at `start`, followed by `announced` bytes of header
and payload together, lie inside of the block.
-/
structure HonestTransport (block : List UInt8) (start : Nat) (proto : Nat) (announced : Int) :
    Prop where
  tcp : proto = ipprotoTcp → tcpHdrLen ≤ announced →
    (block.getD (start + 12) 0).toNat / 16 * 4 ≤ announced ∧ start + announced ≤ block.length
  udp : proto = ipprotoUdp → udpHdrLen ≤ announced → start + announced ≤ block.length

theorem inside_of_le {block : List UInt8} {start : Nat} {announced k m : Int}
    (hend : start + announced ≤ block.length) (hk : 0 ≤ k) (hm : k + m ≤ announced) :
    (Pointer.mk block start).Inside k m := by
  intro hpos
  constructor
  · show 0 ≤ (start : Int) + k
    omega
  · show (start : Int) + k + m ≤ block.length
    omega

theorem u8_mk {block : List UInt8} {start k : Nat} (h : (Pointer.mk block start).Inside k 1) :
    (Pointer.mk block start).u8 k = some (block.getD (start + k) 0).toNat := by
  rw [Pointer.u8_of_inside h]
  congr 3

section Payloads

variable {block : List UInt8} {start : Nat} {announced : Int}

theorem contained_tcp_iff (hlen : tcpHdrLen ≤ announced) :
    Contained block.length (decodeTransport ipprotoTcp ⟨block, start⟩ announced) ↔
      (block.getD (start + 12) 0).toNat / 16 * 4 ≤ announced ∧
        start + announced ≤ block.length := by
  unfold decodeTransport
  rw [if_pos ⟨rfl, hlen⟩]
  simp only [tcpHdrLen] at hlen
  constructor
  · rintro ⟨items, hitems, hwithin⟩
    simp only [Option.bind_eq_bind, Option.bind_eq_some_iff] at hitems
    obtain ⟨off, hoff, rest, -, hitems⟩ := hitems
    cases hitems
    have hvalue := u8_mk (k := 12) (Pointer.inside_of_u8 hoff)
    rw [Nat.cast_ofNat, hoff, Option.some.injEq] at hvalue
    obtain ⟨hlow, -, hhigh⟩ := hwithin _ List.mem_cons_self
    simp only [Pointer.add] at hhigh
    rw [← hvalue]
    omega
  · rintro ⟨hoff, hend⟩
    have hread := u8_mk (k := 12) (inside_of_le hend (by omega) (by omega))
    generalize (block.getD (start + 12) 0).toNat = off at hoff hread
    rw [Nat.cast_ofNat] at hread
    have hpayload : (Item.payload ((Pointer.mk block start).add (off / 16 * 4)).offset
        (announced - off / 16 * 4)).Within block.length := by
      refine ⟨by omega, ?_, ?_⟩ <;> simp only [Pointer.add] <;> omega
    obtain ⟨items, hitems, hwithin⟩ := contained_decodeTcp (n := block.length)
      (inside_of_le hend (Int.le_refl 0) (by omega)) hpayload rfl
    simp only [hread, hitems, Option.bind_eq_bind, Option.bind_some]
    exact ⟨_, rfl, List.forall_mem_cons.mpr ⟨hpayload, hwithin⟩⟩

theorem contained_udp_iff (hlen : udpHdrLen ≤ announced) :
    Contained block.length (decodeTransport ipprotoUdp ⟨block, start⟩ announced) ↔
      start + announced ≤ block.length := by
  unfold decodeTransport
  rw [if_neg fun htcp => absurd htcp.1 (by decide), if_pos ⟨rfl, hlen⟩]
  simp only [udpHdrLen] at hlen
  constructor
  · rintro ⟨items, hitems, hwithin⟩
    simp only [Option.bind_eq_bind, Option.bind_eq_some_iff] at hitems
    obtain ⟨rest, -, hitems⟩ := hitems
    cases hitems
    obtain ⟨-, -, hhigh⟩ := hwithin _ List.mem_cons_self
    simp only [Pointer.add] at hhigh
    omega
  · intro hend
    have hpayload : (Item.payload ((Pointer.mk block start).add udpHdrLen).offset
        (announced - udpHdrLen)).Within block.length := by
      refine ⟨?_, ?_, ?_⟩ <;> simp only [Pointer.add, udpHdrLen] <;> omega
    obtain ⟨items, hitems, hwithin⟩ := contained_decodeUdp (n := block.length)
      (inside_of_le hend (Int.le_refl 0) (by omega)) hpayload rfl
    simp only [hitems, Option.bind_eq_bind, Option.bind_some]
    exact ⟨_, rfl, List.forall_mem_cons.mpr ⟨hpayload, hwithin⟩⟩

theorem contained_decodeTransport_iff {proto : Nat} :
    Contained block.length (decodeTransport proto ⟨block, start⟩ announced) ↔
      HonestTransport block start proto announced := by
  by_cases htcp : proto = ipprotoTcp ∧ tcpHdrLen ≤ announced
  · obtain ⟨rfl, hlen⟩ := htcp
    rw [contained_tcp_iff hlen]
    have hudp : ipprotoTcp ≠ ipprotoUdp := by decide
    exact ⟨fun h => ⟨fun _ _ => h, fun heq => absurd heq hudp⟩, fun h => h.tcp rfl hlen⟩
  · by_cases hudp : proto = ipprotoUdp ∧ udpHdrLen ≤ announced
    · obtain ⟨rfl, hlen⟩ := hudp
      rw [contained_udp_iff hlen]
      have hnottcp : ipprotoUdp ≠ ipprotoTcp := by decide
      exact ⟨fun h => ⟨fun heq => absurd heq hnottcp, fun _ _ => h⟩, fun h => h.udp rfl hlen⟩
    · have hnone : decodeTransport proto ⟨block, start⟩ announced = some [] := by
        rw [decodeTransport, if_neg htcp, if_neg hudp]
        rfl
      rw [hnone]
      exact iff_of_true ⟨[], rfl, by simp⟩
        ⟨fun h h' => absurd ⟨h, h'⟩ htcp, fun h h' => absurd ⟨h, h'⟩ hudp⟩

end Payloads

end Transport

/-! ## Layer 3 -/

/-- Where the fields of the headers stand in a frame. -/
def etherType (b : List UInt8) : Nat := field b 12 2

def ipHeaderLen (b : List UInt8) : Nat := (b.getD 14 0).toNat % 16 * 4

def ipTotalLen (b : List UInt8) : Nat := field b 16 2

def ipProtocol (b : List UInt8) : Nat := (b.getD 23 0).toNat

def ip6PayloadLen (b : List UInt8) : Nat := field b 18 2

def ip6NextHeader (b : List UInt8) : Nat := (b.getD 20 0).toNat

section Network

variable {b : List UInt8} {len : Int} {n : Nat}

theorem map_append_eq_bind (x : Option (List Item)) (pre : List Item) :
    (x.bind fun items => some (pre ++ items)) = x.map (pre ++ ·) := by
  cases x <;> rfl

theorem lower_ite {c : Prop} [Decidable c] {format : String} (h : format ∉ portLines) :
    ∀ item ∈ if c then [printf format []] else [], item.Lower := by
  intro item hitem
  split at hitem
  case isTrue =>
    rw [List.mem_singleton.mp hitem]
    exact h
  case isFalse => cases hitem

theorem decodeIpv4_eq (hlen : ipHdrLen ≤ len) (hb : 34 ≤ b.length) :
    ∃ pre : List Item, (∀ item ∈ pre, item.Lower) ∧
      decodeIpv4 ⟨b, 14⟩ len = (decodeTransport (ipProtocol b) ⟨b, (14 + ipHeaderLen b : Nat)⟩
        (ipTotalLen b - ipHeaderLen b)).map (pre ++ ·) := by
  have hheader : (Pointer.mk b 14).Inside 0 20 := fun _ => by
    constructor <;> simp only <;> omega
  have hlength : ((b.getD 14 0).toNat : Int) % 16 * 4 = ipHeaderLen b := by
    simp [ipHeaderLen]
  have hnext : (Pointer.mk b 14).add (ipHeaderLen b) = ⟨b, (14 + ipHeaderLen b : Nat)⟩ := by
    simp [Pointer.add]
  unfold decodeIpv4
  rw [if_neg (Int.not_lt.mpr hlen)]
  simp (disch := exact hheader.mono (by decide) (by decide)) only [Pointer.u8_of_inside,
    Pointer.u16_of_inside, Pointer.bytes_of_inside, Option.bind_eq_bind, Option.bind_some,
    Int.reduceAdd, Int.reduceToNat, hlength, hnext, Option.pure_def, map_append_eq_bind]
  refine ⟨_, ?_, rfl⟩
  simp only [List.forall_mem_append, List.forall_mem_cons, List.not_mem_nil, false_implies,
    implies_true, lower_printf, and_true]
  exact ⟨⟨⟨⟨⟨by simp [portLines], by simp [portLines]⟩, lower_ite (by simp [portLines])⟩,
    lower_ite (by simp [portLines])⟩, lower_ite (by simp [portLines])⟩, by simp [portLines]⟩

theorem decodeIpv6_eq (hlen : ip6HdrLen ≤ len) (hb : 54 ≤ b.length) :
    ∃ pre : List Item, (∀ item ∈ pre, item.Lower) ∧
      decodeIpv6 ⟨b, 14⟩ len =
        (decodeTransport (ip6NextHeader b) ⟨b, (54 : Nat)⟩ (ip6PayloadLen b)).map (pre ++ ·) := by
  have hheader : (Pointer.mk b 14).Inside 0 40 := fun _ => by
    constructor <;> simp only <;> omega
  unfold decodeIpv6
  rw [if_neg (Int.not_lt.mpr hlen)]
  simp (disch := exact hheader.mono (by decide) (by decide)) only [Pointer.u8_of_inside,
    Pointer.u16_of_inside, Pointer.u32_of_inside, Pointer.bytes_of_inside, Option.bind_eq_bind,
    Option.bind_some, Int.reduceAdd, Int.reduceToNat, Option.pure_def, map_append_eq_bind]
  refine ⟨_, ?_, rfl⟩
  simp [portLines]

theorem contained_decodeArp_iff : Contained b.length (decodeArp ⟨b, 14⟩) ↔ 42 ≤ b.length := by
  constructor
  · rintro ⟨items, hitems, -⟩
    simp only [decodeArp, Option.bind_eq_bind, Option.bind_eq_some_iff] at hitems
    obtain ⟨_, -, _, -, tip, htip, -⟩ := hitems
    obtain ⟨-, hhigh⟩ := Pointer.inside_of_bytes htip (by decide)
    simp only at hhigh
    omega
  · intro hb
    have hheader : (Pointer.mk b 14).Inside 0 28 := fun _ => by
      constructor <;> simp only <;> omega
    simp (disch := exact hheader.mono (by decide) (by decide)) only [decodeArp,
      Pointer.u8_of_inside, Pointer.u16_of_inside, Pointer.bytes_of_inside, Option.bind_eq_bind,
      Option.bind_some]
    refine ⟨_, rfl, ?_⟩
    simp only [List.forall_mem_cons, List.not_mem_nil, false_implies, implies_true,
      within_printf, and_self]

theorem contained_decodeIpv4_iff (hb : len ≤ b.length - 14) :
    Contained b.length (decodeIpv4 ⟨b, 14⟩ len) ↔ (ipHdrLen ≤ len →
      HonestTransport b (14 + ipHeaderLen b) (ipProtocol b) (ipTotalLen b - ipHeaderLen b)) := by
  by_cases hlen : ipHdrLen ≤ len
  · have hlen' := hlen
    simp only [ipHdrLen] at hlen'
    obtain ⟨pre, hpre, heq⟩ := decodeIpv4_eq (b := b) hlen (by omega)
    rw [heq, Contained.map_append hpre, contained_decodeTransport_iff]
    simp only [hlen, true_implies]
  · simp only [hlen, false_implies, iff_true]
    unfold decodeIpv4
    rw [if_pos (Int.not_le.mp hlen)]
    exact ⟨_, rfl, by simp [within_printf]⟩

theorem contained_decodeIpv6_iff (hb : len ≤ b.length - 14) :
    Contained b.length (decodeIpv6 ⟨b, 14⟩ len) ↔ (ip6HdrLen ≤ len →
      HonestTransport b 54 (ip6NextHeader b) (ip6PayloadLen b)) := by
  by_cases hlen : ip6HdrLen ≤ len
  · have hlen' := hlen
    simp only [ip6HdrLen] at hlen'
    obtain ⟨pre, hpre, heq⟩ := decodeIpv6_eq (b := b) hlen (by omega)
    rw [heq, Contained.map_append hpre, contained_decodeTransport_iff]
    simp only [hlen, true_implies]
  · simp only [hlen, false_implies, iff_true]
    unfold decodeIpv6
    rw [if_pos (Int.not_le.mp hlen)]
    exact ⟨_, rfl, by simp [within_printf]⟩

end Network

/-! ## The frame -/

/-- The live decoders read no byte from `caplen` on and pass on no payload beyond it. -/
def DecodesInside (count : Nat) (frame : Frame) : Prop :=
  Contained frame.bytes.length (decodeFrame count frame.header frame.packet)

/-- The Ethernet header is there, and what the headers announce is there as well. -/
structure Honest (frame : Frame) : Prop where
  ethernet : 14 ≤ frame.bytes.length
  arp : etherType frame.bytes = ethertypeArp → 42 ≤ frame.bytes.length
  ipv4 : etherType frame.bytes = ethertypeIp →
    ipHdrLen ≤ lengthBehindEthernet frame.header.caplen →
    HonestTransport frame.bytes (14 + ipHeaderLen frame.bytes) (ipProtocol frame.bytes)
      (ipTotalLen frame.bytes - ipHeaderLen frame.bytes)
  ipv6 : etherType frame.bytes = ethertypeIpv6 →
    ip6HdrLen ≤ lengthBehindEthernet frame.header.caplen →
    HonestTransport frame.bytes 54 (ip6NextHeader frame.bytes) (ip6PayloadLen frame.bytes)

theorem lengthBehindEthernet_le (frame : Frame) (h : 14 ≤ frame.bytes.length) :
    lengthBehindEthernet frame.header.caplen ≤ frame.bytes.length - 14 := by
  have hcaplen := frame.complete
  rw [lengthBehindEthernet, ethHdrLen, Int.bmod_eq_emod]
  split <;> omega

theorem printMac_of_inside {p : Pointer} (h : p.Inside 0 6) :
    ∃ args, printMac p = some (printf "%02X:%02X:%02X:%02X:%02X:%02X" args) := by
  rw [printMac, Pointer.bytes_of_inside h]
  exact ⟨_, rfl⟩

theorem decodeFrame_eq (count : Nat) (frame : Frame) (h : 14 ≤ frame.bytes.length) :
    ∃ pre : List Item, (∀ item ∈ pre, item.Lower) ∧
      decodeFrame count frame.header frame.packet =
        (decodeNetwork (etherType frame.bytes) ⟨frame.bytes, 14⟩ frame.header.caplen).map
          (pre ++ ·) := by
  have hheader : frame.packet.Inside 0 14 := fun _ => by
    constructor <;> simp only [Frame.packet] <;> omega
  obtain ⟨dst, hdst⟩ := printMac_of_inside (hheader.mono (Int.le_refl 0) (by decide))
  obtain ⟨src, hsrc⟩ := printMac_of_inside (p := frame.packet.add 6)
    (Pointer.inside_add.mpr (hheader.mono (by decide) (by decide)))
  have htype : frame.packet.u16 12 = some (etherType frame.bytes) :=
    Pointer.u16_of_inside (hheader.mono (by decide) (by decide))
  have hbehind : frame.packet.add ethHdrLen = ⟨frame.bytes, 14⟩ := rfl
  simp only [decodeFrame, hdst, hsrc, htype, hbehind, Option.bind_eq_bind, Option.bind_some,
    Option.pure_def, map_append_eq_bind]
  refine ⟨_, ?_, rfl⟩
  simp only [List.forall_mem_cons, List.not_mem_nil, false_implies, implies_true, lower_printf,
    and_true]
  refine ⟨lower_rule, by simp [portLines], by simp [portLines], by simp [portLines],
    by simp [portLines], by simp [portLines], by simp [portLines], ?_⟩
  unfold etherTypeLine
  repeat' split
  all_goals simp [portLines]

theorem le_length_of_decodeFrame {count : Nat} {frame : Frame} {items : List Item}
    (h : decodeFrame count frame.header frame.packet = some items) :
    14 ≤ frame.bytes.length := by
  simp only [decodeFrame, Option.bind_eq_bind, Option.bind_eq_some_iff] at h
  obtain ⟨_, -, _, -, etype, htype, -⟩ := h
  obtain ⟨-, hhigh⟩ := Pointer.inside_of_u16 htype (by decide)
  simp only [Frame.packet] at hhigh
  omega

/--
The live decoders stay inside of a frame exactly if the Ethernet header, an ARP packet and the
lengths announced for a transport header with its payload do.
-/
theorem live_decoders_inside (count : Nat) (frame : Frame) :
    DecodesInside count frame ↔ Honest frame := by
  unfold DecodesInside
  by_cases h : 14 ≤ frame.bytes.length
  case neg =>
    constructor
    · rintro ⟨items, hitems, -⟩
      exact absurd (le_length_of_decodeFrame hitems) h
    · intro hhonest
      exact absurd hhonest.ethernet h
  case pos =>
    have hlen := lengthBehindEthernet_le frame h
    obtain ⟨pre, hpre, heq⟩ := decodeFrame_eq count frame h
    rw [heq, Contained.map_append hpre]
    unfold decodeNetwork
    split
    case isTrue hip =>
      rw [contained_decodeIpv4_iff hlen]
      refine ⟨fun hlengths => ⟨h, ?_, fun _ => hlengths, ?_⟩, fun hhonest => hhonest.ipv4 hip⟩
      · rw [hip]
        exact fun harp => absurd harp (by decide)
      · rw [hip]
        exact fun hip6 => absurd hip6 (by decide)
    case isFalse hip =>
      split
      case isTrue hip6 =>
        rw [contained_decodeIpv6_iff hlen]
        refine ⟨fun hlengths => ⟨h, ?_, fun hip' => absurd hip' hip, fun _ => hlengths⟩,
          fun hhonest => hhonest.ipv6 hip6⟩
        rw [hip6]
        exact fun harp => absurd harp (by decide)
      case isFalse hip6 =>
        split
        case isTrue harp =>
          rw [contained_decodeArp_iff]
          exact ⟨fun hlengths => ⟨h, fun _ => hlengths, fun hip' => absurd hip' hip,
            fun hip6' => absurd hip6' hip6⟩, fun hhonest => hhonest.arp harp⟩
        case isFalse harp =>
          exact ⟨fun _ => ⟨h, fun harp' => absurd harp' harp, fun hip' => absurd hip' hip,
            fun hip6' => absurd hip6' hip6⟩, fun _ => ⟨[], rfl, by simp⟩⟩

/-- An IPv4 packet with a UDP header that announces 100 bytes and brings none. -/
def announcing : Frame where
  header := { sec := 0, usec := 0, caplen := 42, len := 42 }
  bytes :=
    List.replicate 12 0 ++ [0x08, 0x00] ++
      [0x45, 0, 0, 128, 0, 0, 0, 0, 64, 17, 0, 0, 10, 0, 0, 1, 10, 0, 0, 2] ++
      [0, 53, 0, 53, 0, 108, 0, 0]
  complete := by decide

theorem live_decoders_inside_announcing : ¬ DecodesInside 1 announcing := by
  rintro ⟨items, hitems, -⟩
  have hnone : decodeFrame 1 announcing.header announcing.packet = none := by decide +kernel
  rw [hnone] at hitems
  cases hitems

end OxyC.Cshark
