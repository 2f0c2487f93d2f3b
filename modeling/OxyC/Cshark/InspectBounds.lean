import OxyC.Cshark.Inspect
import OxyC.Cshark.LiveBounds

/-!
# What the detailed view reads

Every read of `layer_by_layer` is guarded by the length of the packet.  Only the
counter of the full dump may leave its range.
-/

namespace OxyC.Cshark

open OxyC.Foundation

/-- A byte array of length `plen`, as `layer_by_layer` takes it. -/
structure Packet where
  bytes : List UInt8
  plen : Int
  fits : plen ≤ intMax
  complete : bytes.length = plen.toNat

/-- One step of a computation that cannot fail. -/
theorem isSome_bind_iff_of {α β : Type*} {x : Option α} {f : α → Option β} {P : Prop}
    (hx : x.isSome) (h : ∀ a, x = some a → ((f a).isSome ↔ P)) : (x.bind f).isSome ↔ P := by
  obtain ⟨a, rfl⟩ := Option.isSome_iff_exists.mp hx
  exact h a rfl

theorem isSome_bind_some_iff {α β : Type*} {x : Option α} {f : α → β} :
    (x.bind fun a => some (f a)).isSome ↔ x.isSome := by
  cases x <;> simp

section Helpers

variable {bytes : List UInt8} {plen off : Int}

/-- The packet as the functions see it. -/
abbrev packet (bytes : List UInt8) : Pointer := { block := bytes }

theorem inside_packet {k n : Int} (hlen : (bytes.length : Int) = plen) (hk : 0 ≤ k)
    (hn : k + n ≤ plen) : (packet bytes).Inside k n := by
  intro hpos
  constructor <;> simp only <;> omega

theorem u8_isSome {k : Int} (hlen : (bytes.length : Int) = plen) (hk : 0 ≤ k)
    (hn : k + 1 ≤ plen) : ((packet bytes).u8 k).isSome :=
  Pointer.u8_isSome_iff.mpr (inside_packet hlen hk hn)

theorem u32_isSome {k : Int} (hlen : (bytes.length : Int) = plen) (hk : 0 ≤ k)
    (hn : k + 4 ≤ plen) : ((packet bytes).u32 k).isSome :=
  Pointer.u32_isSome_iff.mpr (inside_packet hlen hk hn)

theorem bytes_isSome {k : Int} {n : Nat} (hlen : (bytes.length : Int) = plen) (hk : 0 ≤ k)
    (hn : k + n ≤ plen) : ((packet bytes).bytes k n).isSome :=
  Pointer.bytes_isSome_iff.mpr (inside_packet hlen hk hn)

theorem getU16Be_isSome (hlen : (bytes.length : Int) = plen) (hoff : 0 ≤ off) :
    (getU16Be (packet bytes) off plen).isSome := by
  unfold getU16Be
  split
  case isTrue => rfl
  case isFalse hbound =>
    rw [Pointer.u16_of_inside (inside_packet hlen hoff (by omega))]
    rfl

theorem getU32Be_isSome (hlen : (bytes.length : Int) = plen) (hoff : 0 ≤ off) :
    (getU32Be (packet bytes) off plen).isSome := by
  unfold getU32Be
  split
  case isTrue => rfl
  case isFalse hbound =>
    rw [Pointer.u32_of_inside (inside_packet hlen hoff (by omega))]
    rfl

theorem field_isSome {name : String} {extra : Formatted} {stop : Int}
    (hlen : (bytes.length : Int) = plen) (hoff : 0 ≤ off) :
    (printFieldBytes name (packet bytes) plen off stop extra).isSome :=
  printFieldBytes_isSome (inside_packet hlen (Int.le_refl 0) (by omega)) hoff

theorem fieldIf_isSome {c : Bool} {x : Option Item} (h : x.isSome) : (fieldIf c x).isSome := by
  unfold fieldIf
  split
  case isTrue => simpa using h
  case isFalse => rfl

end Helpers

/-! ## The layers -/

section Layers

variable {bytes : List UInt8} {plen : Int}

theorem payloadLayer_isSome_iff {title : String} {dump : Pointer → Int → Option (List Text)}
    {pkt : Pointer} {payloadOff : Int} :
    (payloadLayer title dump pkt plen payloadOff).isSome ↔
      (payloadOff < plen → (dump (pkt.add payloadOff) (plen - payloadOff)).isSome) := by
  unfold payloadLayer
  split
  case isTrue hoff =>
    have hpos : plen - payloadOff > 0 := by omega
    simp only [hpos, if_true, Option.bind_eq_bind, Option.pure_def, isSome_bind_some_iff, hoff,
      true_implies]
  case isFalse hoff => simp [hoff]

theorem fullPayload_isSome_iff {title : String} {payloadOff : Int}
    (hlen : (bytes.length : Int) = plen) (hfits : plen ≤ intMax) (hoff : 0 ≤ payloadOff) :
    (payloadLayer title printFullHexdump (packet bytes) plen payloadOff).isSome ↔
      plen - payloadOff ≤ 2147483632 := by
  unfold intMax at hfits
  rw [payloadLayer_isSome_iff]
  constructor
  · intro h
    by_contra hlong
    have hoffset : ((packet bytes).add payloadOff).offset < 2147483648 := by
      simp only [Pointer.add]
      omega
    have hnone := printFullHexdump_eq_none (Int.not_le.mp hlong) hoffset
    have hsome := h (by omega)
    rw [hnone] at hsome
    cases hsome
  · intro hshort _
    refine printFullHexdump_isSome ?_ hshort
    rw [Pointer.inside_add]
    exact inside_packet hlen (by omega) (by omega)

theorem tcpLayer_isSome_iff {title control payloadTitle : String} {l4Off : Int}
    (hlen : (bytes.length : Int) = plen) (hfits : plen ≤ intMax) (hoff : 0 ≤ l4Off)
    (hend : l4Off + 20 ≤ plen) :
    (tcpLayer title control payloadTitle (packet bytes) plen l4Off).isSome ↔
      plen - (l4Off + (bytes.getD (l4Off + 12).toNat 0).toNat / 16 * 4) ≤ 2147483632 := by
  have hraw : (packet bytes).u8 (l4Off + 12) = _ :=
    Pointer.u8_of_inside (inside_packet hlen (by omega) (by omega))
  unfold tcpLayer
  refine isSome_bind_iff_of (getU16Be_isSome hlen hoff) fun sport _ => ?_
  refine isSome_bind_iff_of (getU16Be_isSome hlen (by omega)) fun dport _ => ?_
  refine isSome_bind_iff_of (getU32Be_isSome hlen (by omega)) fun seq _ => ?_
  refine isSome_bind_iff_of (getU32Be_isSome hlen (by omega)) fun ack _ => ?_
  refine isSome_bind_iff_of (u8_isSome hlen (by omega) (by omega)) fun raw hvalue => ?_
  refine isSome_bind_iff_of (u8_isSome hlen (by omega) (by omega)) fun flags _ => ?_
  refine isSome_bind_iff_of (getU16Be_isSome hlen (by omega)) fun win _ => ?_
  refine isSome_bind_iff_of (getU16Be_isSome hlen (by omega)) fun chksum _ => ?_
  refine isSome_bind_iff_of (field_isSome hlen hoff) fun ports _ => ?_
  refine isSome_bind_iff_of (field_isSome hlen (by omega)) fun seqField _ => ?_
  refine isSome_bind_iff_of (field_isSome hlen (by omega)) fun ackField _ => ?_
  refine isSome_bind_iff_of (field_isSome hlen (by omega)) fun controlField _ => ?_
  refine isSome_bind_iff_of (getU16Be_isSome hlen (by omega)) fun urgent _ => ?_
  refine isSome_bind_iff_of (field_isSome hlen (by omega)) fun checksumField _ => ?_
  refine isSome_bind_iff_of (fieldIf_isSome (field_isSome hlen (by omega))) fun options _ => ?_
  rw [hraw, Option.some.injEq, Int.zero_add] at hvalue
  subst hvalue
  refine isSome_bind_some_iff.trans ((fullPayload_isSome_iff hlen hfits (by omega)).trans ?_)
  simp

theorem udpLayer_isSome {title payloadTitle : String} {dump : Pointer → Int → Option (List Text)}
    {l4Off : Int} (hlen : (bytes.length : Int) = plen) (hoff : 0 ≤ l4Off)
    (hdump : (payloadLayer payloadTitle dump (packet bytes) plen (l4Off + 8)).isSome) :
    (udpLayer title payloadTitle dump (packet bytes) plen l4Off).isSome := by
  rw [← iff_true (Option.isSome _ = true)]
  unfold udpLayer
  refine isSome_bind_iff_of (getU16Be_isSome hlen hoff) fun sport _ => ?_
  refine isSome_bind_iff_of (getU16Be_isSome hlen (by omega)) fun dport _ => ?_
  refine isSome_bind_iff_of (getU16Be_isSome hlen (by omega)) fun ulen _ => ?_
  refine isSome_bind_iff_of (getU16Be_isSome hlen (by omega)) fun chksum _ => ?_
  refine isSome_bind_iff_of (field_isSome hlen hoff) fun header _ => ?_
  exact isSome_bind_some_iff.trans (iff_true_intro hdump)

theorem transportIpv4_isSome_iff {proto : Nat} {l4Off : Int} (hlen : (bytes.length : Int) = plen)
    (hfits : plen ≤ intMax) (hoff : 14 ≤ l4Off) :
    (transportIpv4 proto (packet bytes) plen l4Off).isSome ↔
      (proto = ipprotoTcp → l4Off + 20 ≤ plen →
        plen - (l4Off + (bytes.getD (l4Off + 12).toNat 0).toNat / 16 * 4) ≤ 2147483632) := by
  unfold transportIpv4
  split
  case isTrue htcp =>
    rw [tcpLayer_isSome_iff hlen hfits (by omega) htcp.2]
    simp only [htcp, true_implies]
  case isFalse htcp =>
    have hno : ∀ P : Prop, (proto = ipprotoTcp → l4Off + 20 ≤ plen → P) ↔ True := fun P =>
      iff_true_intro fun hproto hend => absurd ⟨hproto, hend⟩ htcp
    rw [hno, iff_true]
    split
    case isTrue hudp =>
      refine udpLayer_isSome hlen (by omega) ?_
      rw [payloadLayer_isSome_iff]
      intro hmore
      unfold intMax at hfits ⊢
      rw [printHexAscii_isSome_iff (by omega), Pointer.inside_add]
      exact inside_packet hlen (by omega) (by omega)
    case isFalse => rfl

theorem transportIpv6_isSome {nextHdr : Nat} {l4Off : Int} (hlen : (bytes.length : Int) = plen)
    (hfits : plen ≤ intMax) (hoff : 54 ≤ l4Off) :
    (transportIpv6 nextHdr (packet bytes) plen l4Off).isSome := by
  unfold transportIpv6
  unfold intMax at hfits
  split
  case isTrue htcp =>
    rw [tcpLayer_isSome_iff hlen hfits (by omega) htcp.2]
    omega
  case isFalse =>
    split
    case isTrue hudp =>
      refine udpLayer_isSome hlen (by omega) ?_
      rw [fullPayload_isSome_iff hlen hfits (by omega)]
      omega
    case isFalse => rfl

/-- The dump of a TCP payload that begins right behind the Ethernet header of a longest packet. -/
def WrapsAround (bytes : List UInt8) (plen : Int) : Prop :=
  plen = intMax ∧ etherType bytes = ethertypeIp ∧ ipHeaderLen bytes = 0 ∧
    ipProtocol bytes = ipprotoTcp ∧ (bytes.getD 26 0).toNat / 16 = 0

theorem ipv4Layer_isSome_iff (hlen : (bytes.length : Int) = plen) (hfits : plen ≤ intMax) :
    (ipv4Layer (packet bytes) plen).isSome ↔
      ¬ (plen = intMax ∧ ipHeaderLen bytes = 0 ∧ ipProtocol bytes = ipprotoTcp ∧
        (bytes.getD 26 0).toNat / 16 = 0) := by
  unfold ipv4Layer
  unfold intMax at hfits
  extract_lets title ipOff
  split
  case isTrue htruncated =>
    unfold ipOff ethHdrLen at htruncated
    simp only [Option.isSome_some, true_iff]
    rintro ⟨hmax, -⟩
    unfold intMax at hmax
    omega
  case isFalse hbound =>
    unfold ipOff ethHdrLen at hbound
    have hhdr : ipOff + 20 ≤ plen := by
      unfold ipOff ethHdrLen
      omega
    have hbyte : ∀ k : Int, 0 ≤ k → k < 20 → (packet bytes).Inside (14 + k) 1 :=
      fun k hk hk' => inside_packet hlen (by omega) (by omega)
    have hfirst : (packet bytes).u8 ipOff = some (bytes.getD 14 0).toNat :=
      Pointer.u8_of_inside (hbyte 0 (by decide) (by decide))
    have hninth : (packet bytes).u8 (ipOff + 9) = some (ipProtocol bytes) :=
      Pointer.u8_of_inside (hbyte 9 (by decide) (by decide))
    refine isSome_bind_iff_of (u8_isSome hlen (by decide) (by omega)) fun verIhl hver => ?_
    refine isSome_bind_iff_of (u8_isSome hlen (by decide) (by omega)) fun tos _ => ?_
    refine isSome_bind_iff_of (getU16Be_isSome hlen (by decide)) fun totlen _ => ?_
    refine isSome_bind_iff_of (getU16Be_isSome hlen (by decide)) fun id _ => ?_
    refine isSome_bind_iff_of (getU16Be_isSome hlen (by decide)) fun frag _ => ?_
    refine isSome_bind_iff_of (u8_isSome hlen (by decide) (by omega)) fun ttl _ => ?_
    refine isSome_bind_iff_of (u8_isSome hlen (by decide) (by omega)) fun proto hproto => ?_
    refine isSome_bind_iff_of (getU16Be_isSome hlen (by decide)) fun checksum _ => ?_
    refine isSome_bind_iff_of (getU32Be_isSome hlen (by decide)) fun srcip _ => ?_
    refine isSome_bind_iff_of (getU32Be_isSome hlen (by decide)) fun dstip _ => ?_
    refine isSome_bind_iff_of (field_isSome hlen (by decide)) fun versionField _ => ?_
    refine isSome_bind_iff_of (field_isSome hlen (by decide)) fun idField _ => ?_
    refine isSome_bind_iff_of (field_isSome hlen (by decide)) fun ttlField _ => ?_
    refine isSome_bind_iff_of (field_isSome hlen (by decide)) fun src _ => ?_
    refine isSome_bind_iff_of (field_isSome hlen (by decide)) fun dst _ => ?_
    refine isSome_bind_iff_of (fieldIf_isSome (field_isSome hlen (by decide))) fun options _ => ?_
    obtain rfl := Option.some.inj (hfirst.symm.trans hver)
    obtain rfl := Option.some.inj (hninth.symm.trans hproto)
    refine isSome_bind_some_iff.trans ?_
    have hl4 : (14 : Int) ≤ 14 + ipHeaderLen bytes := by omega
    refine (transportIpv4_isSome_iff hlen hfits hl4).trans ?_
    have hindex : (14 + (ipHeaderLen bytes : Int) + 12).toNat = 26 + ipHeaderLen bytes := by omega
    rw [hindex]
    unfold intMax
    constructor
    · rintro h ⟨hmax, hihl, htcp, hoff⟩
      rw [hihl, Nat.add_zero] at h
      have hshort := h htcp (by omega)
      omega
    · intro h htcp hend
      by_contra hlong
      have hihl : ipHeaderLen bytes = 0 := by omega
      rw [hihl, Nat.add_zero] at hlong
      exact h ⟨by omega, hihl, htcp, by omega⟩

theorem ipv6Layer_isSome (hlen : (bytes.length : Int) = plen) (hfits : plen ≤ intMax) :
    (ipv6Layer (packet bytes) plen).isSome := by
  unfold ipv6Layer
  extract_lets title ip6Off
  split
  case isTrue => rfl
  case isFalse hbound =>
    unfold ip6Off ethHdrLen at hbound
    have hhdr : ip6Off + 40 ≤ plen := by
      unfold ip6Off ethHdrLen
      omega
    rw [← iff_true (Option.isSome _ = true)]
    refine isSome_bind_iff_of (u32_isSome hlen (by decide) (by omega)) fun vtf _ => ?_
    refine isSome_bind_iff_of (field_isSome hlen (by decide)) fun versionField _ => ?_
    refine isSome_bind_iff_of (getU16Be_isSome hlen (by decide)) fun payloadLen _ => ?_
    refine isSome_bind_iff_of (u8_isSome hlen (by decide) (by omega)) fun nextHdr _ => ?_
    refine isSome_bind_iff_of (u8_isSome hlen (by decide) (by omega)) fun hop _ => ?_
    refine isSome_bind_iff_of (field_isSome hlen (by decide)) fun nextField _ => ?_
    refine isSome_bind_iff_of (bytes_isSome hlen (by decide) (by omega)) fun srcbuf _ => ?_
    refine isSome_bind_iff_of (bytes_isSome hlen (by decide) (by omega)) fun dstbuf _ => ?_
    refine isSome_bind_iff_of (field_isSome hlen (by decide)) fun src _ => ?_
    refine isSome_bind_iff_of (field_isSome hlen (by decide)) fun dst _ => ?_
    exact isSome_bind_some_iff.trans (iff_true_intro (transportIpv6_isSome hlen hfits (by decide)))

theorem arpLayer_isSome (hlen : (bytes.length : Int) = plen) :
    (arpLayer (packet bytes) plen).isSome := by
  unfold arpLayer
  extract_lets title arpOff
  split
  case isTrue => rfl
  case isFalse =>
    rw [← iff_true (Option.isSome _ = true)]
    refine isSome_bind_iff_of (getU16Be_isSome hlen (by decide)) fun htype _ => ?_
    refine isSome_bind_iff_of (getU16Be_isSome hlen (by decide)) fun ptype _ => ?_
    refine isSome_bind_iff_of (getU16Be_isSome hlen (by decide)) fun op _ => ?_
    exact isSome_bind_some_iff.trans (iff_true_intro (field_isSome hlen (by decide)))

theorem unknownLayer_isSome {ethertype : Nat} (hlen : (bytes.length : Int) = plen) :
    (unknownLayer ethertype (packet bytes) plen).isSome := by
  unfold unknownLayer
  exact isSome_bind_some_iff.mpr (field_isSome hlen (by decide))

theorem ethernetLayer_isSome_iff (hlen : (bytes.length : Int) = plen) (hfits : plen ≤ intMax)
    (hlong : 14 ≤ plen) :
    (ethernetLayer (packet bytes) plen).isSome ↔ ¬ WrapsAround bytes plen := by
  have htype : getU16Be (packet bytes) 12 plen = some (etherType bytes) := by
    rw [getU16Be, if_neg (by omega)]
    exact Pointer.u16_of_inside (inside_packet hlen (by decide) (by omega))
  unfold ethernetLayer
  refine isSome_bind_iff_of (bytes_isSome hlen (by decide) (by omega)) fun dhost _ => ?_
  refine isSome_bind_iff_of (field_isSome hlen (by decide)) fun dst _ => ?_
  refine isSome_bind_iff_of (bytes_isSome hlen (by decide) (by omega)) fun shost _ => ?_
  refine isSome_bind_iff_of (field_isSome hlen (by decide)) fun src _ => ?_
  refine isSome_bind_iff_of (getU16Be_isSome hlen (by decide)) fun ethertype hvalue => ?_
  obtain rfl := Option.some.inj (htype.symm.trans hvalue)
  refine isSome_bind_iff_of (field_isSome hlen (by decide)) fun typeField _ => ?_
  refine isSome_bind_some_iff.trans ?_
  unfold networkLayer WrapsAround
  split
  case isTrue hip =>
    rw [ipv4Layer_isSome_iff hlen hfits]
    simp only [hip, true_and]
  case isFalse hip =>
    simp only [hip, false_and, and_false, not_false_eq_true, iff_true]
    split
    case isTrue => exact ipv6Layer_isSome hlen hfits
    case isFalse =>
      split
      case isTrue => exact arpLayer_isSome hlen
      case isFalse => exact unknownLayer_isSome hlen

end Layers

theorem layerByLayer_isSome_of_long {bytes : List UInt8} {plen : Int} (hlong : 14 ≤ plen) :
    (layerByLayer (some bytes) plen).isSome ↔ (ethernetLayer (packet bytes) plen).isSome := by
  have hpos : ¬ plen ≤ 0 := by omega
  have hethernet : ¬ plen < ethHdrLen := by
    unfold ethHdrLen
    omega
  simp only [layerByLayer, hpos, hethernet, if_false]
  exact isSome_bind_some_iff

/--
The detailed view reads only bytes of the packet, whatever its length and its contents, unless
the counter of the full dump wraps around.
-/
theorem layer_by_layer_inside (p : Packet) :
    (layerByLayer (some p.bytes) p.plen).isSome ↔ ¬ WrapsAround p.bytes p.plen := by
  have hcomplete := p.complete
  by_cases hlong : 14 ≤ p.plen
  · rw [layerByLayer_isSome_of_long hlong]
    exact ethernetLayer_isSome_iff (by omega) p.fits hlong
  · have hwraps : ¬ WrapsAround p.bytes p.plen := by
      rintro ⟨hmax, -⟩
      unfold intMax at hmax
      omega
    refine iff_of_true ?_ hwraps
    simp only [layerByLayer]
    split
    case isTrue => rfl
    case isFalse hpos =>
      unfold ethHdrLen
      rw [if_pos (by omega)]
      exact isSome_bind_some_iff.mpr (field_isSome (by omega) (Int.le_refl 0))

/-- A longest packet with header lengths of zero. -/
def longest : Packet where
  bytes :=
    List.replicate 12 0 ++ [0x08, 0x00, 0x40, 0, 0, 0, 0, 0, 0, 0, 0, 6] ++
      List.replicate 2147483623 0
  plen := intMax
  fits := by decide
  complete := by
    simp only [List.length_append, List.length_replicate]
    rfl

theorem layer_by_layer_inside_longest :
    ¬ (layerByLayer (some longest.bytes) longest.plen).isSome := by
  have hlen : (longest.bytes.length : Int) = longest.plen := by
    rw [longest.complete]
    rfl
  have hwraps : WrapsAround longest.bytes longest.plen := ⟨rfl, rfl, rfl, rfl, rfl⟩
  rw [layerByLayer_isSome_of_long (by decide),
    ethernetLayer_isSome_iff hlen longest.fits (by decide)]
  exact fun h => h hwraps

end OxyC.Cshark
