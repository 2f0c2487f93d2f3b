import OxyC.Cshark.Live

/-!
# The detailed view

`layer_by_layer` of `inspect.c`.  The branches for TCP and UDP over IPv4 and
over IPv6 differ in their titles and, for UDP, in the dump of the payload.
-/

namespace OxyC.Cshark

open OxyC.Foundation

def getU16Be (p : Pointer) (off len : Int) : Option Nat :=
  if off + 1 ≥ len then some 0 else p.u16 off

def getU32Be (p : Pointer) (off len : Int) : Option Nat :=
  if off + 3 ≥ len then some 0 else p.u32 off

def ipprotoIcmp : Nat := 1

def blanks (n : Nat) : String := String.ofList (List.replicate n ' ')

def banner (plen : Int) : List Item :=
  [printf "\n" [], rule, printf (blanks 72 ++ "PACKET ANALYSIS REPORT" ++ blanks 34 ++ "\n") [],
    printf (blanks 72 ++ "Total Length: %d bytes" ++ blanks 34 ++ "\n") [.int plen], rule]

def endOfAnalysis : List Item :=
  [printf "\n" [], rule, printf (blanks 83 ++ "END OF ANALYSIS" ++ blanks 38 ++ "\n") [], rule,
    printf "\n" []]

def fieldIf (c : Bool) (x : Option Item) : Option (List Item) := if c then x.map ([·]) else some []

/-! ## Layers 7 and 4 -/

/-- The payload from `payloadOff` to the end of the packet. -/
def payloadLayer (title : String) (dump : Pointer → Int → Option (List Text)) (pkt : Pointer)
    (plen payloadOff : Int) : Option (List Item) :=
  if payloadOff < plen then
    let payloadLen := plen - payloadOff
    if payloadLen > 0 then do
      let lines ← dump (pkt.add payloadOff) payloadLen
      pure [.layer "LAYER 7" title, printf "Payload (%d bytes):\n" [.int payloadLen],
        .dump payloadOff payloadLen lines, printf "\n" []]
    else some [.layer "LAYER 7" title]
  else some []

def flagString (flags : Nat) : String :=
  let names := [(0x01, "FIN "), (0x02, "SYN "), (0x04, "RST "), (0x08, "PSH "), (0x10, "ACK "),
    (0x20, "URG ")]
  let set := String.join (names.filterMap fun x => if flags &&& x.1 ≠ 0 then some x.2 else none)
  if set.isEmpty then "None" else set

/-- The branch for TCP, with its two titles and the format of one of its lines. -/
def tcpLayer (title control payloadTitle : String) (pkt : Pointer) (plen l4Off : Int) :
    Option (List Item) := do
  let sport ← getU16Be pkt l4Off plen
  let dport ← getU16Be pkt (l4Off + 2) plen
  let seq ← getU32Be pkt (l4Off + 4) plen
  let ack ← getU32Be pkt (l4Off + 8) plen
  let dataOffRaw ← pkt.u8 (l4Off + 12)
  let tcpHdr := dataOffRaw / 16 * 4
  let flags ← pkt.u8 (l4Off + 13)
  let win ← getU16Be pkt (l4Off + 14) plen
  let chksum ← getU16Be pkt (l4Off + 16) plen
  let ports ← printFieldBytes "Port Numbers" pkt plen l4Off (l4Off + 3)
    ⟨"Source Port: %u | Destination Port: %u", [.num sport, .num dport]⟩
  let seqField ← printFieldBytes "Sequence Number" pkt plen (l4Off + 4) (l4Off + 7)
    ⟨"Sequence Number: %u", [.num seq]⟩
  let ackField ← printFieldBytes "Acknowledgment Number" pkt plen (l4Off + 8) (l4Off + 11)
    ⟨"Acknowledgment Number: %u", [.num ack]⟩
  let controlField ← printFieldBytes "Control Info" pkt plen (l4Off + 12) (l4Off + 15)
    ⟨control, [.num tcpHdr, .str (flagString flags), .num win]⟩
  let urgent ← getU16Be pkt (l4Off + 18) plen
  let checksumField ← printFieldBytes "Checksum & Urgent" pkt plen (l4Off + 16) (l4Off + 19)
    ⟨"Checksum: 0x%04X | Urgent Pointer: %u", [.num chksum, .num urgent]⟩
  let options ← fieldIf (tcpHdr > 20)
    (printFieldBytes "TCP Options" pkt plen (l4Off + 20) (l4Off + tcpHdr - 1)
      ⟨"Variable length TCP options", []⟩)
  let payload ← payloadLayer payloadTitle printFullHexdump pkt plen (l4Off + tcpHdr)
  pure ([.layer "LAYER 4" title, ports, seqField, ackField, controlField, checksumField] ++
    options ++ payload)

/-- The branch for UDP. -/
def udpLayer (title payloadTitle : String) (dump : Pointer → Int → Option (List Text))
    (pkt : Pointer) (plen l4Off : Int) : Option (List Item) := do
  let sport ← getU16Be pkt l4Off plen
  let dport ← getU16Be pkt (l4Off + 2) plen
  let ulen ← getU16Be pkt (l4Off + 4) plen
  let chksum ← getU16Be pkt (l4Off + 6) plen
  let header ← printFieldBytes "UDP Header" pkt plen l4Off (l4Off + 7)
    ⟨"Source: %u | Destination: %u | Length: %u bytes | Checksum: 0x%04X",
      [.num sport, .num dport, .num ulen, .num chksum]⟩
  let payload ← payloadLayer payloadTitle dump pkt plen (l4Off + 8)
  pure ([.layer "LAYER 4" title, header] ++ payload)

def transportIpv4 (proto : Nat) (pkt : Pointer) (plen l4Off : Int) : Option (List Item) :=
  if proto = ipprotoTcp ∧ l4Off + 20 ≤ plen then
    tcpLayer "Transport Layer - TCP" "Header Length: %u bytes | Flags: %s│ Window: %u"
      "Application Layer - TCP Payload" pkt plen l4Off
  else if proto = ipprotoUdp ∧ l4Off + 8 ≤ plen then
    udpLayer "Transport Layer - UDP" "Application Layer - UDP Payload"
      (fun data len => printHexAscii data len intMax) pkt plen l4Off
  else some []

def transportIpv6 (nextHdr : Nat) (pkt : Pointer) (plen l4Off : Int) : Option (List Item) :=
  if nextHdr = ipprotoTcp ∧ l4Off + 20 ≤ plen then
    tcpLayer "Transport Layer - TCP over IPv6"
      "Header Length: %u bytes | Flags: %s | Window: %u"
      "Application Layer - TCP Payload (IPv6)" pkt plen l4Off
  else if nextHdr = ipprotoUdp ∧ l4Off + 8 ≤ plen then
    udpLayer "Transport Layer - UDP over IPv6" "Application Layer - UDP Payload (IPv6)"
      printFullHexdump pkt plen l4Off
  else some []

/-! ## Layer 3 -/

def ipv4Layer (pkt : Pointer) (plen : Int) : Option (List Item) :=
  let title := Item.layer "LAYER 3" "Network Layer - IPv4"
  let ipOff := ethHdrLen
  if ipOff + 20 > plen then some [title, printf "    [ERROR] IPv4 Header truncated\n" []]
  else do
    let verIhl ← pkt.u8 ipOff
    let version := verIhl / 16
    let ihl := verIhl % 16 * 4
    let tos ← pkt.u8 (ipOff + 1)
    let totlen ← getU16Be pkt (ipOff + 2) plen
    let id ← getU16Be pkt (ipOff + 4) plen
    let frag ← getU16Be pkt (ipOff + 6) plen
    let ttl ← pkt.u8 (ipOff + 8)
    let proto ← pkt.u8 (ipOff + 9)
    let checksum ← getU16Be pkt (ipOff + 10) plen
    let srcip ← getU32Be pkt (ipOff + 12) plen
    let dstip ← getU32Be pkt (ipOff + 16) plen
    let versionField ← printFieldBytes "Version & Header Info" pkt plen ipOff (ipOff + 3)
      ⟨"Version: %d | Header Length: %d bytes | ToS: 0x%02X | Total Length: %u bytes",
        [.num version, .num ihl, .num tos, .num totlen]⟩
    let idField ← printFieldBytes "Identification & Flags" pkt plen (ipOff + 4) (ipOff + 7)
      ⟨"ID: 0x%04X | DF:%s MF:%s | Fragment Offset: %u",
        [.num id, .str (if frag &&& 0x4000 ≠ 0 then "1" else "0"),
          .str (if frag &&& 0x2000 ≠ 0 then "1" else "0"),
          .num ((frag &&& 0x1fff) * 8 % 65536)]⟩
    let protoName := if proto = ipprotoTcp then "TCP" else if proto = ipprotoUdp then "UDP"
      else if proto = ipprotoIcmp then "ICMP" else "Other"
    let ttlField ← printFieldBytes "TTL & Protocol" pkt plen (ipOff + 8) (ipOff + 11)
      ⟨"TTL: %u hops | Protocol: %u (%s) | Checksum: 0x%04X",
        [.num ttl, .num proto, .str protoName, .num checksum]⟩
    let src ← printFieldBytes "Source IP Address" pkt plen (ipOff + 12) (ipOff + 15)
      ⟨"%s", [.addr (toBytes 4 srcip)]⟩
    let dst ← printFieldBytes "Destination IP Address" pkt plen (ipOff + 16) (ipOff + 19)
      ⟨"%s", [.addr (toBytes 4 dstip)]⟩
    let options ← fieldIf (ihl > 20)
      (printFieldBytes "IP Options" pkt plen (ipOff + 20) (ipOff + ihl - 1)
        ⟨"Variable length options", []⟩)
    let transport ← transportIpv4 proto pkt plen (ipOff + ihl)
    pure ([title, versionField, idField, ttlField, src, dst] ++ options ++ transport ++
      endOfAnalysis)

def ipv6Layer (pkt : Pointer) (plen : Int) : Option (List Item) :=
  let title := Item.layer "LAYER 3" "Network Layer - IPv6"
  let ip6Off := ethHdrLen
  if ip6Off + 40 > plen then some [title, printf "    [ERROR] IPv6 Header truncated\n" []]
  else do
    let vtf ← pkt.u32 ip6Off
    let versionField ← printFieldBytes "Version & Traffic Info" pkt plen ip6Off (ip6Off + 3)
      ⟨"Version: %d | Traffic Class: 0x%02X | Flow Label: 0x%05X",
        [.num (vtf / 0x10000000 % 0x10), .num (vtf / 0x100000 % 0x100), .num (vtf % 0x100000)]⟩
    let payloadLen ← getU16Be pkt (ip6Off + 4) plen
    let nextHdr ← pkt.u8 (ip6Off + 6)
    let hop ← pkt.u8 (ip6Off + 7)
    let nextHdrName := if nextHdr = ipprotoTcp then "TCP" else if nextHdr = ipprotoUdp then "UDP"
      else if nextHdr = 58 then "ICMPv6" else "Other"
    let nextField ← printFieldBytes "Payload & Next Header" pkt plen (ip6Off + 4) (ip6Off + 7)
      ⟨"Payload: %u bytes | Next Header: %u (%s) | Hop Limit: %u",
        [.num payloadLen, .num nextHdr, .str nextHdrName, .num hop]⟩
    let srcbuf ← pkt.bytes (ip6Off + 8) 16
    let dstbuf ← pkt.bytes (ip6Off + 24) 16
    let src ← printFieldBytes "Source IPv6 Address" pkt plen (ip6Off + 8) (ip6Off + 23)
      ⟨"%s", [.addr srcbuf]⟩
    let dst ← printFieldBytes "Destination IPv6 Address" pkt plen (ip6Off + 24) (ip6Off + 39)
      ⟨"%s", [.addr dstbuf]⟩
    let transport ← transportIpv6 nextHdr pkt plen (ip6Off + 40)
    pure ([title, versionField, nextField, src, dst] ++ transport ++ endOfAnalysis)

def arpLayer (pkt : Pointer) (plen : Int) : Option (List Item) :=
  let title := Item.layer "LAYER 3" "Network Layer - ARP (Address Resolution Protocol)"
  let arpOff := ethHdrLen
  if arpOff + 28 > plen then some [title, printf "    [ERROR] ARP packet truncated\n" []]
  else do
    let htype ← getU16Be pkt arpOff plen
    let ptype ← getU16Be pkt (arpOff + 2) plen
    let op ← getU16Be pkt (arpOff + 6) plen
    let opName := if op = 1 then "Request" else if op = 2 then "Reply" else "Unknown"
    let header ← printFieldBytes "ARP Header" pkt plen arpOff (arpOff + 7)
      ⟨"HW Type: 0x%04X | Protocol: 0x%04X | Operation: %u (%s)",
        [.num htype, .num ptype, .num op, .str opName]⟩
    pure ([title, header] ++ endOfAnalysis)

def unknownLayer (ethertype : Nat) (pkt : Pointer) (plen : Int) : Option (List Item) := do
  let data ← printFieldBytes "Unknown Protocol Data" pkt plen ethHdrLen (plen - 1)
    ⟨"EtherType 0x%04X not recognized", [.num ethertype]⟩
  pure ([.layer "LAYER 3" "Unknown Protocol", data] ++ endOfAnalysis)

def networkLayer (ethertype : Nat) (pkt : Pointer) (plen : Int) : Option (List Item) :=
  if ethertype = ethertypeIp then ipv4Layer pkt plen
  else if ethertype = ethertypeIpv6 then ipv6Layer pkt plen
  else if ethertype = ethertypeArp then arpLayer pkt plen
  else unknownLayer ethertype pkt plen

/-! ## Layer 2 -/

def ethernetLayer (pkt : Pointer) (plen : Int) : Option (List Item) := do
  let dhost ← pkt.bytes 0 6
  let dst ← printFieldBytes "Destination MAC" pkt plen 0 5
    ⟨"%02X:%02X:%02X:%02X:%02X:%02X", nums dhost⟩
  let shost ← pkt.bytes 6 6
  let src ← printFieldBytes "Source MAC" pkt plen 6 11
    ⟨"%02X:%02X:%02X:%02X:%02X:%02X", nums shost⟩
  let ethertype ← getU16Be pkt 12 plen
  let typeName := if ethertype = ethertypeIp then "IPv4"
    else if ethertype = ethertypeIpv6 then "IPv6"
    else if ethertype = ethertypeArp then "ARP" else "Unknown"
  let typeField ← printFieldBytes "EtherType" pkt plen 12 13
    ⟨"0x%04X (%s)", [.num ethertype, .str typeName]⟩
  let network ← networkLayer ethertype pkt plen
  pure ([.layer "LAYER 2" "Data Link Layer - Ethernet", dst, src, typeField] ++ network)

/-- `layer_by_layer`; `none` for `pkt` is the null pointer. -/
def layerByLayer (pkt : Option (List UInt8)) (plen : Int) : Option (List Item) :=
  match pkt with
  | none => some [printf "[layer_by_layer] empty packet\n" []]
  | some bytes =>
      let pkt : Pointer := { block := bytes }
      if plen ≤ 0 then some [printf "[layer_by_layer] empty packet\n" []]
      else if plen < ethHdrLen then do
        let raw ← printFieldBytes "Raw Frame" pkt plen 0 (plen - 1) ⟨"", []⟩
        pure (banner plen ++ [printf "  [ERROR] Truncated Ethernet header\n" [], raw])
      else do
        let layers ← ethernetLayer pkt plen
        pure (banner plen ++ layers)

end OxyC.Cshark
