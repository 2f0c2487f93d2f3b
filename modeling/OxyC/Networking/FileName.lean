import OxyC.Networking.Datagram
import OxyC.Networking.Transfer

/-!
# The file-name packet

The client sends the name as it stands on its command line and counts all of it;
the server keeps what fits into `outname`, and counts that.
-/

namespace OxyC.Networking

open OxyC.Foundation

/-- `send_packet` on a payload of any length; `none` where `memcpy` runs past `pkt.data`. -/
def Client.transmit (seq : UInt32) (payload : List UInt8) (win : UInt16) : Option Datagram :=
  let pkt := sendPacket seq payload win
  if h : pkt.data.length ≤ shamMtu then some (pkt.datagram h) else none

def Client.transmitName (cliSeq : UInt32) (outname : List UInt8) (win : UInt16) :
    Option Datagram :=
  if outname.length > 0 then transmit (cliSeq + 1) outname win else none

/-- The server has the name, and waits for the byte that the client sends next. -/
def NameAgrees (cliSeq srvSeq : UInt32) (outname contents : List UInt8) (synAck : Header) : Prop :=
  ∃ d server, Client.transmitName cliSeq outname synAck.windowSize = some d ∧
    Server.receiveName srvSeq d.packet = some (outname, server) ∧
    server.reassembly.expected = (Client.start cliSeq outname contents synAck).nextseq

/-- What the server makes of a name of any length that fits into a packet. -/
theorem receiveName_of_transmitName {cliSeq : UInt32} {outname : List UInt8} {win : UInt16}
    {d : Datagram} (h : Client.transmitName cliSeq outname win = some d) (srvSeq : UInt32) :
    outname.length ≤ shamMtu ∧
      Server.receiveName srvSeq d.packet =
        some (outname.take 255,
          { phase := .receiving
            serverSeq := srvSeq
            reassembly := .start (cliSeq + 1 + UInt32.ofNat (min outname.length 255)) }) := by
  simp only [Client.transmitName, Client.transmit] at h
  split at h
  · rename_i hpos
    split at h
    · rename_i hfits
      cases h
      refine ⟨hfits, ?_⟩
      have hne : outname.length ≠ 0 := by omega
      rw [Packet.packet_datagram, Server.receiveName, Client.sendPacket, if_neg hne]
      by_cases hlong : outname.length ≥ Server.outnameSize
      · have hmin : min outname.length 255 = Server.outnameSize - 1 := by
          rw [Server.outnameSize] at hlong ⊢
          omega
        simp only [if_pos hlong, hmin]
        rfl
      · have hmin : min outname.length 255 = outname.length := by
          rw [Server.outnameSize] at hlong
          omega
        have htake : outname.take 255 = outname.take outname.length := by
          rw [List.take_length, List.take_of_length_le (by omega)]
        simp only [if_neg hlong, hmin, htake]
    · cases h
  · cases h

theorem nextseq_start {cliSeq : UInt32} {outname : List UInt8} (hne : outname ≠ [])
    (contents : List UInt8) (synAck : Header) :
    (Client.start cliSeq outname contents synAck).nextseq =
      cliSeq + 1 + UInt32.ofNat outname.length := by
  have hpos : outname.length > 0 := List.length_pos_iff.mpr hne
  rw [Client.start, if_pos hpos]

/-- The two sides agree on the name and on the number behind it exactly for the names that fit
into `outname`. -/
theorem nameAgrees_iff (cliSeq srvSeq : UInt32) {outname : List UInt8} (hne : outname ≠ [])
    (contents : List UInt8) (synAck : Header) :
    NameAgrees cliSeq srvSeq outname contents synAck ↔ outname.length ≤ 255 := by
  constructor
  · rintro ⟨d, server, hsent, hreceived, -⟩
    rw [(receiveName_of_transmitName hsent srvSeq).2] at hreceived
    have hname : outname.take 255 = outname := congrArg Prod.fst (Option.some.inj hreceived)
    have hlength := congrArg List.length hname
    rw [List.length_take] at hlength
    omega
  · intro hle
    have hpos : outname.length > 0 := List.length_pos_iff.mpr hne
    have hfits : outname.length ≤ shamMtu := by
      rw [shamMtu]
      omega
    have hsent : ∃ d, Client.transmitName cliSeq outname synAck.windowSize = some d := by
      rw [Client.transmitName, if_pos hpos]
      exact ⟨_, dif_pos hfits⟩
    obtain ⟨d, hd⟩ := hsent
    have hreceived := (receiveName_of_transmitName hd srvSeq).2
    rw [List.take_of_length_le hle, Nat.min_eq_left hle] at hreceived
    refine ⟨d, _, hd, hreceived, ?_⟩
    rw [nextseq_start hne]
    rfl

theorem nameAgrees_short :
    NameAgrees 4294967290 9 (List.replicate 255 97) [7] { windowSize := 8192 } :=
  (nameAgrees_iff 4294967290 9 (List.replicate_succ_ne_nil) [7] { windowSize := 8192 }).mpr
    (List.length_replicate).le

/-- A longer name is cut, and the file that follows is never in order. -/
theorem expected_ne_nextseq {cliSeq srvSeq : UInt32} {outname : List UInt8} {win : UInt16}
    {d : Datagram} (hlong : 255 < outname.length)
    (h : Client.transmitName cliSeq outname win = some d) :
    ∃ name server, Server.receiveName srvSeq d.packet = some (name, server) ∧ name ≠ outname ∧
      ∀ contents synAck,
        server.reassembly.expected ≠ (Client.start cliSeq outname contents synAck).nextseq := by
  obtain ⟨hfits, hreceived⟩ := receiveName_of_transmitName h srvSeq
  refine ⟨_, _, hreceived, ?_, ?_⟩
  · intro hname
    have hlength := congrArg List.length hname
    rw [List.length_take] at hlength
    omega
  · intro contents synAck heq
    have hne : outname ≠ [] := List.ne_nil_of_length_pos (by omega)
    rw [nextseq_start hne, Nat.min_eq_right hlong.le] at heq
    have hlengths := congrArg UInt32.toNat (add_left_cancel heq)
    rw [shamMtu] at hfits
    rw [UInt32.toNat_ofNat', UInt32.toNat_ofNat'] at hlengths
    omega

/-- A name of 256 bytes. -/
theorem nameAgrees_long :
    ¬ ∀ (cliSeq srvSeq : UInt32) (outname contents : List UInt8) (synAck : Header),
        outname ≠ [] → NameAgrees cliSeq srvSeq outname contents synAck := by
  intro hall
  have hlong : 255 < (List.replicate 256 (97 : UInt8)).length := by
    rw [List.length_replicate]
    omega
  obtain ⟨d, server, hsent, hreceived, hexpected⟩ :=
    hall 0 0 (List.replicate 256 97) [] {} List.replicate_succ_ne_nil
  obtain ⟨name, server', hreceived', -, hne⟩ := expected_ne_nextseq hlong hsent
  rw [hreceived'] at hreceived
  cases hreceived
  exact hne _ _ hexpected

end OxyC.Networking
