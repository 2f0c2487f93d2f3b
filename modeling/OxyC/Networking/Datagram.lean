import OxyC.Foundation.BigEndian
import OxyC.Networking.Sham

/-!
# Datagrams and the receive buffer

`recvfrom` copies a datagram over the front of a buffer that keeps what earlier
datagrams left behind it, and both programs read the header and the payload out
of that buffer.  The payload length is computed from the number of bytes
received, in `size_t`.
-/

namespace OxyC.Networking

open OxyC.Foundation

/-- What one `recvfrom` returns: at least one byte, and no more than the buffer holds. -/
structure Datagram where
  bytes : List UInt8
  length_pos : 0 < bytes.length
  length_le : bytes.length ≤ recvBuf

def Header.encode (h : Header) : List UInt8 :=
  toBytes 4 h.seqNum.toNat ++ (toBytes 4 h.ackNum.toNat ++
    (toBytes 2 h.flags.toNat ++ toBytes 2 h.windowSize.toNat))

/-- The header at the front of `bytes`, each field through `ntohl` or `ntohs`. -/
def Header.decode (bytes : List UInt8) : Header where
  seqNum := UInt32.ofNat (ofBytes (bytes.take 4))
  ackNum := UInt32.ofNat (ofBytes ((bytes.drop 4).take 4))
  flags := UInt16.ofNat (ofBytes ((bytes.drop 8).take 2))
  windowSize := UInt16.ofNat (ofBytes ((bytes.drop 10).take 2))

@[simp] theorem Header.length_encode (h : Header) : h.encode.length = headerSize := by
  simp [encode, headerSize]

theorem Header.decode_encode (h : Header) (rest : List UInt8) :
    decode (h.encode ++ rest) = h := by
  have hseq := h.seqNum.toNat_lt
  have hack := h.ackNum.toNat_lt
  have hflags := h.flags.toNat_lt
  have hwin := h.windowSize.toNat_lt
  have hfour : ∀ bytes : List UInt8, bytes.drop 8 = (bytes.drop 4).drop 4 := by simp
  have htwo : ∀ bytes : List UInt8, bytes.drop 10 = (bytes.drop 8).drop 2 := by simp
  simp only [decode, encode, List.append_assoc, htwo, hfour, drop_toBytes_append]
  rw [ofBytes_take_append hseq, ofBytes_take_append hack, ofBytes_take_append hflags,
    ofBytes_take_append hwin]
  simp

theorem Header.decode_append {bytes : List UInt8} (h : headerSize ≤ bytes.length)
    (rest : List UInt8) : decode (bytes ++ rest) = decode bytes := by
  have hlong : 12 ≤ bytes.length := h
  have htake : ∀ k n, k + n ≤ 12 →
      ((bytes ++ rest).drop k).take n = (bytes.drop k).take n := by
    intro k n hkn
    rw [List.drop_append_of_le_length (by omega), List.take_append_of_le_length]
    rw [List.length_drop]
    omega
  have hfront := htake 0 4 (by omega)
  simp only [List.drop_zero] at hfront
  simp only [decode, hfront, htake 4 4 (by omega), htake 8 2 (by omega), htake 10 2 (by omega)]

/-- The packet that a datagram of at least `headerSize` bytes carries. -/
def Datagram.packet (d : Datagram) : Packet :=
  ⟨.decode d.bytes, d.bytes.drop headerSize⟩

def Packet.datagram (p : Packet) (h : p.data.length ≤ shamMtu) : Datagram where
  bytes := p.hdr.encode ++ p.data
  length_pos := by
    rw [List.length_append, Header.length_encode, headerSize]
    omega
  length_le := by
    rw [List.length_append, Header.length_encode, recvBuf]
    omega

/-- `uint8_t buf[RECV_BUF]`. -/
structure RecvBuffer where
  bytes : List UInt8
  length_eq : bytes.length = recvBuf

def zeroBuffer : RecvBuffer := ⟨List.replicate recvBuf 0, List.length_replicate⟩

namespace RecvBuffer

def recvfrom (d : Datagram) (b : RecvBuffer) : RecvBuffer where
  bytes := memcpy b.bytes d.bytes
  length_eq := by
    have hle := d.length_le
    rw [length_memcpy, b.length_eq]
    rw [b.length_eq]
    exact hle

def header (b : RecvBuffer) : Header := .decode b.bytes

/-- `dlen` bytes from the end of the header on; `none` when they run past the buffer. -/
def payload (dlen : Nat) (b : RecvBuffer) : Option (List UInt8) :=
  if headerSize + dlen ≤ recvBuf then some ((b.bytes.drop headerSize).take dlen) else none

end RecvBuffer

/-- `r - sizeof(struct sham_header)`. -/
def payloadLength (d : Datagram) : Nat := sizeSub d.bytes.length headerSize

/-- The payload length is at most `shamMtu` and lies inside the bytes received. -/
def InBounds (d : Datagram) : Prop :=
  payloadLength d ≤ shamMtu ∧ headerSize + payloadLength d ≤ d.bytes.length

theorem inBounds_iff {d : Datagram} : InBounds d ↔ headerSize ≤ d.bytes.length := by
  have hle := d.length_le
  have hbuf : recvBuf = 1036 := rfl
  have hmtu : shamMtu = 1024 := rfl
  have hsize : headerSize = 12 := rfl
  unfold InBounds payloadLength
  constructor
  · intro h
    omega
  · intro h
    rw [sizeSub_of_le h (by omega)]
    omega

theorem RecvBuffer.header_recvfrom {d : Datagram} (h : headerSize ≤ d.bytes.length)
    (b : RecvBuffer) : (b.recvfrom d).header = d.packet.hdr :=
  Header.decode_append h _

theorem RecvBuffer.payload_recvfrom {d : Datagram} (h : headerSize ≤ d.bytes.length)
    (b : RecvBuffer) : (b.recvfrom d).payload (payloadLength d) = some d.packet.data := by
  have hle := d.length_le
  have hbuf : recvBuf = 1036 := rfl
  have hlength : payloadLength d = d.bytes.length - headerSize := by
    unfold payloadLength
    exact sizeSub_of_le h (by omega)
  have htake : ((b.recvfrom d).bytes.drop headerSize).take (d.bytes.length - headerSize) =
      d.bytes.drop headerSize := by
    simp only [recvfrom, memcpy]
    rw [List.drop_append_of_le_length h, ← List.length_drop, List.take_left]
  rw [payload, hlength, if_pos (by omega), htake]
  rfl

theorem RecvBuffer.payload_le {dlen : Nat} {b : RecvBuffer} {text : List UInt8}
    (h : b.payload dlen = some text) : text.length = dlen ∧ dlen ≤ shamMtu := by
  have hlength := b.length_eq
  have hbuf : recvBuf = 1036 := rfl
  have hmtu : shamMtu = 1024 := rfl
  have hsize : headerSize = 12 := rfl
  unfold payload at h
  split at h
  · cases h
    rw [List.length_take, List.length_drop]
    omega
  · simp at h

/-- `d` is what `sendto` makes of the packet. -/
def Datagram.Carries (d : Datagram) (p : Packet) : Prop := d.bytes = p.hdr.encode ++ p.data

instance (d : Datagram) (p : Packet) : Decidable (d.Carries p) := by
  unfold Datagram.Carries
  infer_instance

namespace Datagram.Carries

variable {d : Datagram} {p : Packet}

theorem length_eq (h : d.Carries p) : d.bytes.length = headerSize + p.data.length := by
  rw [show d.bytes = p.hdr.encode ++ p.data from h, List.length_append, Header.length_encode]

theorem headerSize_le (h : d.Carries p) : headerSize ≤ d.bytes.length := by
  rw [h.length_eq]
  exact Nat.le_add_right _ _

theorem packet_eq (h : d.Carries p) : d.packet = p := by
  have hbytes : d.bytes = p.hdr.encode ++ p.data := h
  have hdata : (p.hdr.encode ++ p.data).drop headerSize = p.data := by
    rw [List.drop_append_of_le_length (by simp), List.drop_of_length_le (by simp),
      List.nil_append]
  simp only [Datagram.packet, hbytes, Header.decode_encode, hdata]

theorem header_recvfrom (h : d.Carries p) (b : RecvBuffer) :
    (b.recvfrom d).header = p.hdr := by
  rw [RecvBuffer.header_recvfrom h.headerSize_le, h.packet_eq]

theorem payloadLength_eq (h : d.Carries p) : payloadLength d = p.data.length := by
  have hle := d.length_le
  have hbuf : recvBuf = 1036 := rfl
  have hlength := h.length_eq
  unfold payloadLength
  rw [sizeSub_of_le h.headerSize_le (by omega)]
  omega

end Datagram.Carries

theorem Packet.packet_datagram (p : Packet) (h : p.data.length ≤ shamMtu) :
    (p.datagram h).packet = p := by
  have hcarries : (p.datagram h).Carries p := rfl
  exact hcarries.packet_eq

end OxyC.Networking
