import OxyC.Foundation.Stdio
import Mathlib.Data.UInt

/-!
# The S.H.A.M. wire format

`struct sham_header` is packed: four big-endian fields in twelve bytes.  A
datagram is a header followed by the payload bytes handed to `sendto`.
-/

namespace OxyC.Networking

open OxyC.Foundation

def shamMtu : Nat := 1024

def shamSyn : UInt16 := 0x1
def shamAck : UInt16 := 0x2
def shamFin : UInt16 := 0x4

/-- `sizeof(struct sham_header)`. -/
def headerSize : Nat := 12

/-- `RECV_BUF`, the size of both programs' receive buffer. -/
def recvBuf : Nat := shamMtu + headerSize

def defaultWin : UInt16 := 8192

structure Header where
  seqNum : UInt32 := 0
  ackNum : UInt32 := 0
  flags : UInt16 := 0
  windowSize : UInt16 := 0
  deriving DecidableEq, Repr

/-- The test `flags & flag` of the source. -/
def Header.has (h : Header) (flag : UInt16) : Bool := h.flags &&& flag != 0

@[simp] theorem shamSyn_and_shamFin : shamSyn &&& shamFin = 0 := by decide
@[simp] theorem shamAck_and_shamFin : shamAck &&& shamFin = 0 := by decide
@[simp] theorem shamFin_and_shamAck : shamFin &&& shamAck = 0 := by decide

structure Packet where
  hdr : Header
  data : List UInt8 := []
  deriving DecidableEq, Repr

/-- Subtraction in `size_t`, which wraps modulo `2 ^ 64`. -/
def sizeSub (a b : Nat) : Nat := (a + (2 ^ 64 - b)) % 2 ^ 64

theorem sizeSub_of_le {a b : Nat} (h : b ≤ a) (ha : a < 2 ^ 64) : sizeSub a b = a - b := by
  unfold sizeSub
  omega

end OxyC.Networking
