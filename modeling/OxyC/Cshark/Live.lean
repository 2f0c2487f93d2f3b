import OxyC.Cshark.Print

/-!
# The live decoders

`decode_arp`, `decode_ipv6`, `decode_ipv4` of `L3.c`, `decode_tcp` and
`decode_udp` of `L4.c`, and the decoding half of `packet_handler`.  The headers
are read field by field at the offsets of the system's structures.
-/

namespace OxyC.Cshark

open OxyC.Foundation

structure PcapHeader where
  sec : Int
  usec : Int
  caplen : UInt32
  len : UInt32
  deriving DecidableEq, Repr

/-- A captured frame: `caplen` bytes and their header. -/
structure Frame where
  header : PcapHeader
  bytes : List UInt8
  complete : bytes.length = header.caplen.toNat

def Frame.packet (frame : Frame) : Pointer := { block := frame.bytes }

/-! ## Constants of the protocols -/

def ethHdrLen : Int := 14

def ethertypeIp : Nat := 0x0800

def ethertypeIpv6 : Nat := 0x86dd

def ethertypeArp : Nat := 0x0806

def ipprotoTcp : Nat := 6

def ipprotoUdp : Nat := 17

/-- `sizeof(struct ip)`. -/
def ipHdrLen : Int := 20

/-- `sizeof(struct ip6_hdr)`. -/
def ip6HdrLen : Int := 40

/-- `sizeof(struct tcphdr)`. -/
def tcpHdrLen : Int := 20

/-- `sizeof(struct udphdr)`. -/
def udpHdrLen : Int := 8

def printf (format : String) (args : List Arg) : Item := .printf ⟨format, args⟩

def nums (bytes : List UInt8) : List Arg := bytes.map fun b => .num b.toNat

def printMac (mac : Pointer) : Option Item := do
  let bytes ← mac.bytes 0 6
  pure (printf "%02X:%02X:%02X:%02X:%02X:%02X" (nums bytes))

/-! ## Layer 4 -/

def serviceOf (port : Nat) : String :=
  if port = 80 then "HTTP" else if port = 443 then "HTTPS" else if port = 53 then "DNS"
  else "Unknown"

def firstBytes (payloadLen : Int) : Item :=
  printf "Data (first %d bytes):\n" [.int (if payloadLen < 64 then payloadLen else 64)]

def dumpItem (data : Pointer) (len : Int) (lines : List Text) : Item :=
  .dump data.offset len lines

def flagNames (flags : Nat) (names : List (Nat × String)) : List Item :=
  names.filterMap fun x => if flags &&& x.1 ≠ 0 then some (printf x.2 []) else none

def decodeTcp (tcp : Pointer) (payloadLen : Int) (payload : Pointer) : Option (List Item) := do
  let srcPort ← tcp.u16 0
  let dstPort ← tcp.u16 2
  let srcProto := serviceOf srcPort
  let dstProto := serviceOf dstPort
  let seq ← tcp.u32 4
  let ack ← tcp.u32 8
  let flags ← tcp.u8 13
  let win ← tcp.u16 14
  let sum ← tcp.u16 16
  let off ← tcp.u8 12
  let lines ← printHexAscii payload payloadLen 64
  let identified :=
    if dstProto ≠ "Unknown" ∨ srcProto ≠ "Unknown" then
      let proto := if dstProto ≠ "Unknown" then dstProto else srcProto
      let port := if dstProto ≠ "Unknown" then dstPort else srcPort
      printf "L7 (Payload): Identified as %s on port %u - %d bytes\n"
        [.str proto, .num port, .int payloadLen]
    else
      printf "L7 (Payload): %d bytes (unknown TCP service)\n" [.int payloadLen]
  pure <|
    [printf "L4 (TCP): Src Port: %u (%s) | Dst Port: %u (%s)\n"
        [.num srcPort, .str srcProto, .num dstPort, .str dstProto],
      printf "Seq: %u | Ack: %u\n" [.num seq, .num ack],
      printf "Flags: [" []] ++
    flagNames flags
      [(0x02, "SYN,"), (0x10, "ACK,"), (0x01, "FIN,"), (0x04, "RST,"), (0x08, "PSH,"),
        (0x20, "URG,")] ++
    [printf "]\n" [],
      printf "Window: %u | Checksum: 0x%04X | Header Length: %d bytes\n"
        [.num win, .num sum, .num (off / 16 * 4)],
      identified, firstBytes payloadLen, dumpItem payload payloadLen lines]

def decodeUdp (udp : Pointer) (payloadLen : Int) (payload : Pointer) : Option (List Item) := do
  let sport ← udp.u16 0
  let dport ← udp.u16 2
  let ulen ← udp.u16 4
  let sum ← udp.u16 6
  let header := printf "L4 (UDP): Src Port: %u | Dst Port: %u | Length: %u | Checksum: 0x%04X\n"
    [.num sport, .num dport, .num ulen, .num sum]
  if payloadLen > 0 then
    let identified :=
      if sport = 53 ∨ dport = 53 then
        printf "L7 (Payload): Identified as DNS - %d bytes\n" [.int payloadLen]
      else if sport = 443 ∨ dport = 443 then
        printf "L7 (Payload): Identified as HTTPS/QUIC - %d bytes\n" [.int payloadLen]
      else printf "L7 (Payload): %d bytes (unknown UDP service)\n" [.int payloadLen]
    let lines ← printHexAscii payload payloadLen 64
    pure [header, identified, firstBytes payloadLen, dumpItem payload payloadLen lines]
  else pure [header, printf "L7 (Payload): None (0 bytes)\n" []]

/-- The choice of the transport decoder, which both network layers make alike. -/
def decodeTransport (proto : Nat) (payload : Pointer) (payloadLen : Int) : Option (List Item) :=
  if proto = ipprotoTcp ∧ payloadLen ≥ tcpHdrLen then do
    let off ← payload.u8 12
    let tcpHdr : Int := off / 16 * 4
    let rest := payload.add tcpHdr
    let items ← decodeTcp payload (payloadLen - tcpHdr) rest
    pure (.payload rest.offset (payloadLen - tcpHdr) :: items)
  else if proto = ipprotoUdp ∧ payloadLen ≥ udpHdrLen then do
    let rest := payload.add udpHdrLen
    let items ← decodeUdp payload (payloadLen - udpHdrLen) rest
    pure (.payload rest.offset (payloadLen - udpHdrLen) :: items)
  else pure []

/-! ## Layer 3 -/

def protoName (proto : Nat) : String :=
  if proto = ipprotoTcp then "TCP" else if proto = ipprotoUdp then "UDP" else "Unknown"

def decodeArp (packet : Pointer) : Option (List Item) := do
  let op ← packet.u16 6
  let opStr := if op = 1 then "Request" else if op = 2 then "Reply" else "Unknown"
  let sip ← packet.bytes 14 4
  let tip ← packet.bytes 24 4
  let sha ← packet.bytes 8 6
  let tha ← packet.bytes 18 6
  let hrd ← packet.u16 0
  let pro ← packet.u16 2
  let hln ← packet.u8 4
  let pln ← packet.u8 5
  pure
    [printf ("L3 (ARP): Sender IP: %s | Target IP: %s | " ++
        "Sender MAC: %02X:%02X:%02X:%02X:%02X:%02X | " ++
        "Target MAC: %02X:%02X:%02X:%02X:%02X:%02X |\n" ++
        "HW type: 0x%04X | Proto type: 0x%04X | HW len: %d | Proto len: %d\n")
      ([.addr sip, .addr tip] ++ nums sha ++ nums tha ++
        [.num hrd, .num pro, .num hln, .num pln]),
      printf "Operation: %s (%u)\n" [.str opStr, .num op],
      printf "L4: Not Applicable for ARP.\n" [],
      printf "L7 (Payload): None (ARP does not carry higher-layer data)\n" []]

def decodeIpv6 (packet : Pointer) (len : Int) : Option (List Item) :=
  if len < ip6HdrLen then some [printf "Truncated IPv6 header.\n" []]
  else do
    let src ← packet.bytes 8 16
    let dst ← packet.bytes 24 16
    let nxt ← packet.u8 6
    let hops ← packet.u8 7
    let flow ← packet.u32 0
    let plen ← packet.u16 4
    let transport ← decodeTransport nxt (packet.add ip6HdrLen) plen
    pure <|
      [printf "L3 (IPv6): Src IP: %s | Dst IP: %s | Next Header: %s (%d) | Hop Limit: %d\n"
          [.addr src, .addr dst, .str (protoName nxt), .num nxt, .num hops],
        printf "Traffic Class: %d | Flow Label: 0x%05X | Payload Length: %d\n"
          [.num (flow / 0x100000 % 0x100), .num (flow % 0x100000), .num plen]] ++ transport

def decodeIpv4 (packet : Pointer) (len : Int) : Option (List Item) :=
  if len < ipHdrLen then some [printf "Truncated IPv4 header.\n" []]
  else do
    let src ← packet.bytes 12 4
    let dst ← packet.bytes 16 4
    let verHl ← packet.u8 0
    let iphdrlen : Int := verHl % 16 * 4
    let totlen ← packet.u16 2
    let flags ← packet.u16 6
    let df := flags &&& 0x4000 ≠ 0
    let mf := flags &&& 0x2000 ≠ 0
    let proto ← packet.u8 9
    let ttl ← packet.u8 8
    let id ← packet.u16 4
    let transport ← decodeTransport proto (packet.add iphdrlen) (totlen - iphdrlen)
    pure <|
      [printf "L3 (IPv4): Src IP: %s | Dst IP: %s | Proto: %s (%d) | TTL: %d\n"
          [.addr src, .addr dst, .str (protoName proto), .num proto, .num ttl],
        printf "Packet ID: %u | Total Length: %d | Header Length: %d bytes | Flags:"
          [.num id, .num totlen, .int iphdrlen]] ++
      (if df then [printf " DF" []] else []) ++ (if mf then [printf " MF" []] else []) ++
      (if ¬ df ∧ ¬ mf then [printf " None" []] else []) ++ [printf "\n" []] ++ transport

/-! ## Layer 2 -/

/-- `caplen` without the Ethernet header, converted to the `int` that the decoders take. -/
def lengthBehindEthernet (caplen : UInt32) : Int :=
  ((caplen.toNat : Int) - ethHdrLen).bmod 0x100000000

def etherTypeLine (etype : Nat) : Item :=
  if etype = ethertypeIp then printf "EtherType: IPv4 (0x%04X)\n" [.num etype]
  else if etype = ethertypeIpv6 then printf "EtherType: IPv6 (0x%04X)\n" [.num etype]
  else if etype = ethertypeArp then printf "EtherType: ARP (0x%04X)\n" [.num etype]
  else printf "EtherType: 0x%04X (unknown)\n" [.num etype]

/-- The choice of the network decoder in `packet_handler`. -/
def decodeNetwork (etype : Nat) (packet : Pointer) (caplen : UInt32) : Option (List Item) :=
  if etype = ethertypeIp then decodeIpv4 packet (lengthBehindEthernet caplen)
  else if etype = ethertypeIpv6 then decodeIpv6 packet (lengthBehindEthernet caplen)
  else if etype = ethertypeArp then decodeArp packet
  else some []

def rule : Item := printf (String.ofList (List.replicate 183 '-') ++ "\n") []

/-- What `packet_handler` prints for a frame; `count` is `g_packet_count`. -/
def decodeFrame (count : Nat) (header : PcapHeader) (packet : Pointer) : Option (List Item) := do
  let dst ← printMac packet
  let src ← printMac (packet.add 6)
  let etype ← packet.u16 12
  let network ← decodeNetwork etype (packet.add ethHdrLen) header.caplen
  pure <|
    [rule, printf "Packet #%llu | Timestamp: %ld.%06ld | Length: %u bytes\n"
        [.num count, .int header.sec, .int header.usec, .num header.caplen.toNat],
      printf "L2 (Ethernet): Dst MAC: " [], dst, printf " | Src MAC: " [], src,
      printf " |\n" [], etherTypeLine etype] ++ network

end OxyC.Cshark
