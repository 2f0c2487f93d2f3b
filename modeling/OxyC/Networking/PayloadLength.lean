import OxyC.Networking.Chat
import OxyC.Networking.ServerSocket

/-!
# Payload lengths on the three receive paths

The payload length is the number of bytes received less the header size, and
that number is only checked to be positive.  On every path, and in every run,
the lengths stay in bounds exactly when every datagram that is taken as data
holds a whole header.
-/

namespace OxyC.Networking

open OxyC.Foundation

/-- The datagram whose payload length the step computes. -/
def ServerSocket.dataRead (s : ServerSocket) (a : RawArrival) : Option Datagram :=
  if s.TakesData a then some a.datagram else none

def ChatServer.dataRead (s : ChatServer) (input : ChatInput) : Option Datagram :=
  match s.pc, input with
  | .receive, .datagram d => if (s.buf.recvfrom d).header.has shamFin then none else some d
  | _, _ => none

def ChatClient.dataRead (c : ChatClient) (input : ChatInput) : Option Datagram :=
  match c.pc, input with
  | .receive, .datagram d => if (c.buf.recvfrom d).header.has shamFin then none else some d
  | _, _ => none

section Paths

variable {ι ω σ : Type*} (M : Mealy ι ω σ) (dataRead : σ → ι → Option Datagram)

/-- Every payload length that the run computes is in bounds. -/
def LengthsInBounds : List ι → σ → Prop :=
  M.Guarded fun s i => ∀ d, dataRead s i = some d → InBounds d

/-- Every datagram that the run takes as data holds a whole header. -/
def HeadersWhole : List ι → σ → Prop :=
  M.Guarded fun s i => ∀ d, dataRead s i = some d → headerSize ≤ d.bytes.length

theorem lengthsInBounds_iff_headersWhole (is : List ι) (s : σ) :
    LengthsInBounds M dataRead is s ↔ HeadersWhole M dataRead is s := by
  apply M.guarded_congr
  intro s i
  simp only [inBounds_iff]

end Paths

theorem slotsFit_always (arrivals : List RawArrival) {s : ServerSocket}
    (h : s.server.reassembly.SlotsFit) :
    ServerSocket.machine.Always (fun s => s.server.reassembly.SlotsFit) arrivals s :=
  ServerSocket.machine.always_of_invariant
    (fun _ _ _ _ hs hstep => ServerSocket.slotsFit_step hs hstep) arrivals h

/--
From the file-name packet on, and in both chat loops, for any datagrams: the
lengths, the slots and the window are in bounds iff the headers are whole.
-/
theorem receive_paths_inBounds_iff {serverSeq : UInt32} {buf : RecvBuffer} {name : Datagram}
    {outname : List UInt8} {s : ServerSocket}
    (hname : ServerSocket.receiveName serverSeq buf name = some (outname, s))
    (arrivals : List RawArrival) (t : ChatServer) (c : ChatClient) (inputs : List ChatInput) :
    ((LengthsInBounds ServerSocket.machine ServerSocket.dataRead arrivals s ∧
        ServerSocket.machine.Always (fun s => s.server.reassembly.SlotsFit) arrivals s) ↔
      HeadersWhole ServerSocket.machine ServerSocket.dataRead arrivals s) ∧
    (LengthsInBounds ChatServer.machine ChatServer.dataRead inputs t ↔
      HeadersWhole ChatServer.machine ChatServer.dataRead inputs t) ∧
    (LengthsInBounds ChatClient.machine ChatClient.dataRead inputs c ↔
      HeadersWhole ChatClient.machine ChatClient.dataRead inputs c) := by
  have hslots := slotsFit_always arrivals (ServerSocket.slotsFit_receiveName hname)
  refine ⟨?_, lengthsInBounds_iff_headersWhole _ _ _ _, lengthsInBounds_iff_headersWhole _ _ _ _⟩
  rw [lengthsInBounds_iff_headersWhole]
  exact and_iff_left hslots

def nameDatagram : Datagram := (⟨{ seqNum := 100 }, [111]⟩ : Packet).datagram (by decide)

def runt : Datagram := ⟨[1], by decide, by decide⟩

def afterName : ServerSocket :=
  ⟨zeroBuffer.recvfrom nameDatagram, ⟨.receiving, 900, .start 101⟩⟩

theorem receiveName_nameDatagram :
    ServerSocket.receiveName 900 zeroBuffer nameDatagram = some ([111], afterName) := by
  have hpacket : nameDatagram.packet = ⟨{ seqNum := 100 }, [111]⟩ :=
    Packet.packet_datagram _ _
  rw [ServerSocket.receiveName_of_headerSize_lt (by decide), hpacket]
  rfl

theorem receive_paths_inBounds_nameAgain :
    LengthsInBounds ServerSocket.machine ServerSocket.dataRead [⟨nameDatagram, false⟩]
        afterName ∧
      ServerSocket.machine.Always (fun s => s.server.reassembly.SlotsFit)
        [⟨nameDatagram, false⟩] afterName := by
  have hwhole : HeadersWhole ServerSocket.machine ServerSocket.dataRead
      [⟨nameDatagram, false⟩] afterName := by
    refine ⟨?_, fun _ _ _ => trivial⟩
    intro d hd
    rw [ServerSocket.dataRead, if_pos (by decide +kernel)] at hd
    cases hd
    decide
  exact (receive_paths_inBounds_iff receiveName_nameDatagram [⟨nameDatagram, false⟩]
    ⟨.select, zeroBuffer, 900, []⟩ ⟨.select, zeroBuffer, 100, 8192, []⟩ []).1.mpr hwhole

theorem runt_out_of_bounds :
    ∃ s, ServerSocket.receiveName 900 zeroBuffer nameDatagram = some ([111], s) ∧
      s.dataRead ⟨runt, false⟩ = some runt ∧ payloadLength runt = 2 ^ 64 - 11 ∧
      ¬ LengthsInBounds ServerSocket.machine ServerSocket.dataRead [⟨runt, false⟩] s ∧
      s.step ⟨runt, false⟩ = none := by
  have hread : afterName.dataRead ⟨runt, false⟩ = some runt := by
    rw [ServerSocket.dataRead, if_pos (by decide +kernel)]
  have hlength : payloadLength runt = 2 ^ 64 - 11 := rfl
  refine ⟨afterName, receiveName_nameDatagram, hread, hlength, ?_, ?_⟩
  · rintro ⟨hbounds, -⟩
    have hle := (hbounds runt hread).1
    rw [hlength] at hle
    simp [shamMtu] at hle
  · rw [← Option.isNone_iff_eq_none]
    decide +kernel

end OxyC.Networking
