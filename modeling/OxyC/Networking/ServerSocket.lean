import OxyC.Networking.Datagram
import OxyC.Networking.Server
import Mathlib.Algebra.Order.BigOperators.Group.List
import Mathlib.Algebra.Order.Ring.Nat

/-!
# The receive loop on raw datagrams

The loop of `server.c` with its receive buffer.  A datagram shorter than the
header is read together with bytes that an earlier one left in the buffer, and
its payload length wraps around.  `none` also stands for an access past the
buffer or past a slot.  On datagrams that hold a whole header this is the
packet-level loop of `Server`.
-/

namespace OxyC.Networking

open OxyC.Foundation

structure RawArrival where
  datagram : Datagram
  shouldDrop : Bool := false

structure ServerSocket where
  buf : RecvBuffer
  server : Server

namespace ServerSocket

/-- The data branches of the receive loop: the payload is read only where it is used. -/
def receiveData (dlen : Nat) (buf : RecvBuffer) (r : Reassembly) : Option Reassembly :=
  let seq := buf.header.seqNum
  if seq = r.expected then (buf.payload dlen).bind fun payload => (r.write payload).drain
  else if r.expected < seq then
    if r.bufs.any Buffered.isFree then
      (buf.payload dlen).map fun payload => r.place seq payload
    else some r
  else some r

/-- The step gets to the computation of `dlen`. -/
def TakesData (s : ServerSocket) (a : RawArrival) : Prop :=
  s.server.phase = .receiving ∧ a.shouldDrop = false ∧
    (s.buf.recvfrom a.datagram).header.has shamFin = false

instance (s : ServerSocket) (a : RawArrival) : Decidable (s.TakesData a) := by
  unfold TakesData
  infer_instance

def step (a : RawArrival) (s : ServerSocket) : Option (ServerSocket × List Packet) :=
  let buf := s.buf.recvfrom a.datagram
  if s.TakesData a then
    (receiveData (payloadLength a.datagram) buf s.server.reassembly).map fun r =>
      (⟨buf, { s.server with reassembly := r }⟩, [Server.cumulativeAck r])
  else
    (s.server.step ⟨⟨buf.header, []⟩, a.shouldDrop⟩).map fun x => (⟨buf, x.1⟩, x.2)

def machine : Mealy RawArrival Packet ServerSocket := ⟨step⟩

/-- The file-name packet; here the length is checked. -/
def receiveName (serverSeq : UInt32) (buf : RecvBuffer) (name : Datagram) :
    Option (List UInt8 × ServerSocket) :=
  if name.bytes.length ≤ headerSize then none
  else
    let buf := buf.recvfrom name
    ((buf.payload (payloadLength name)).bind fun payload =>
      Server.receiveName serverSeq ⟨buf.header, payload⟩).map fun x => (x.1, ⟨buf, x.2⟩)

theorem receiveData_of_payload {dlen : Nat} {buf : RecvBuffer} {payload : List UInt8}
    (h : buf.payload dlen = some payload) (r : Reassembly) :
    receiveData dlen buf r = r.receive buf.header.seqNum payload := by
  by_cases horder : buf.header.seqNum = r.expected
  · simp [receiveData, Reassembly.receive, horder, h]
  · by_cases hlater : r.expected < buf.header.seqNum
    · by_cases hfree : r.bufs.any Buffered.isFree = true
      · simp [receiveData, Reassembly.receive, horder, hlater, hfree, h]
      · have hfull : ¬ r.HasFree := by
          rintro ⟨b, hb, hbfree⟩
          exact hfree (List.any_eq_true.mpr ⟨b, hb, hbfree⟩)
        rw [Reassembly.receive, Reassembly.place_of_not_hasFree hfull]
        simp [receiveData, horder, hlater, hfree]
    · simp [receiveData, Reassembly.receive, horder, hlater]

theorem step_of_headerSize_le {a : RawArrival} (h : headerSize ≤ a.datagram.bytes.length)
    (s : ServerSocket) :
    s.step a = (s.server.step ⟨a.datagram.packet, a.shouldDrop⟩).map
      fun x => (⟨s.buf.recvfrom a.datagram, x.1⟩, x.2) := by
  have hheader := s.buf.header_recvfrom h
  have hdata := receiveData_of_payload (s.buf.payload_recvfrom h) s.server.reassembly
  rw [hheader] at hdata
  unfold step
  by_cases htakes : s.TakesData a
  · obtain ⟨hphase, hdrop, hfin⟩ := htakes
    rw [hheader] at hfin
    rw [if_pos ⟨hphase, hdrop, by rwa [hheader]⟩, hdata]
    simp only [Server.step, hphase, hdrop, hfin]
    cases s.server.reassembly.receive a.datagram.packet.hdr.seqNum a.datagram.packet.data <;> rfl
  · rw [if_neg htakes]
    congr 1
    rw [hheader]
    unfold Server.step
    cases hphase : s.server.phase with
    | receiving =>
        cases hdrop : a.shouldDrop with
        | true => rfl
        | false =>
            have hfin : a.datagram.packet.hdr.has shamFin = true := by
              by_contra hno
              exact htakes ⟨hphase, hdrop, by rw [hheader]; simpa using hno⟩
            simp [hfin]
    | finalAck => rfl
    | closed => rfl

theorem receiveName_of_headerSize_lt {name : Datagram} (h : headerSize < name.bytes.length)
    (serverSeq : UInt32) (buf : RecvBuffer) :
    receiveName serverSeq buf name = (Server.receiveName serverSeq name.packet).map
      fun x => (x.1, ⟨buf.recvfrom name, x.2⟩) := by
  have hshort : ¬ name.bytes.length ≤ headerSize := by omega
  rw [receiveName, if_neg hshort]
  dsimp only
  rw [buf.payload_recvfrom h.le, buf.header_recvfrom h.le]
  rfl

theorem run_of_headerSize_le {arrivals : List RawArrival}
    (h : ∀ a ∈ arrivals, headerSize ≤ a.datagram.bytes.length) (s : ServerSocket) :
    (machine.run arrivals s).map (fun x => (x.1.server, x.2)) =
      Server.machine.run (arrivals.map fun a => ⟨a.datagram.packet, a.shouldDrop⟩) s.server := by
  refine machine.run_map Server.machine _ server ?_ h s
  intro a s ha
  change (s.step a).map _ = s.server.step _
  rw [step_of_headerSize_le ha, Option.map_map]
  exact Option.map_id'

end ServerSocket

namespace Reassembly

/-- Every slot's length is within its array, and their sum within the whole buffer. -/
def SlotsFit (r : Reassembly) : Prop :=
  (∀ b ∈ r.bufs, b.len ≤ shamMtu) ∧ r.bufferedBytes ≤ maxBufPkts * shamMtu

theorem slotsFit_of_len_le {r : Reassembly} (h : ∀ b ∈ r.bufs, b.len ≤ shamMtu) :
    r.SlotsFit := by
  refine ⟨h, ?_⟩
  have hsum : r.bufferedBytes ≤
      ((r.bufs.filter fun b => b.seq != 0).map Buffered.len).length • shamMtu := by
    apply List.sum_le_card_nsmul
    intro n hn
    obtain ⟨b, hb, rfl⟩ := List.mem_map.mp hn
    exact h b (List.mem_filter.mp hb).1
  have hcount : ((r.bufs.filter fun b => b.seq != 0).map Buffered.len).length ≤ maxBufPkts := by
    rw [List.length_map, ← r.bufs_length]
    exact List.length_filter_le _ _
  exact hsum.trans (Nat.mul_le_mul_right shamMtu hcount)

theorem slotsFit_start (expected : UInt32) : (start expected).SlotsFit := by
  apply slotsFit_of_len_le
  intro b hb
  simp only [start, List.mem_replicate] at hb
  simp [hb.2, Buffered.zeroed]

theorem SlotsFit.place {r : Reassembly} (h : r.SlotsFit) (seq : UInt32) {payload : List UInt8}
    (hlength : payload.length ≤ shamMtu) : (r.place seq payload).SlotsFit := by
  apply slotsFit_of_len_le
  intro b hb
  cases mem_place hb with
  | inl hold => exact h.1 b hold
  | inr hsaved =>
      obtain ⟨a, -, -, rfl⟩ := hsaved
      exact hlength

theorem SlotsFit.drain {r r' : Reassembly} (h : r.SlotsFit) (hdrain : r.drain = some r') :
    r'.SlotsFit := by
  refine drain_invariant ?_ h hdrain
  intro s s' hs hrel
  obtain ⟨before, after, b, hbufs, -, hbufs', -, -⟩ := hrel
  apply slotsFit_of_len_le
  intro c hc
  rw [hbufs'] at hc
  simp only [List.mem_append, List.mem_cons] at hc
  rcases hc with hc | hc | hc
  · exact hs.1 c (by simp [hbufs, hc])
  · rw [hc]
    exact hs.1 b (by simp [hbufs])
  · exact hs.1 c (by simp [hbufs, hc])

theorem SlotsFit.receive {r r' : Reassembly} (h : r.SlotsFit) {seq : UInt32}
    {payload : List UInt8} (hlength : payload.length ≤ shamMtu)
    (hreceive : r.receive seq payload = some r') : r'.SlotsFit := by
  unfold Reassembly.receive at hreceive
  split at hreceive
  · have hwrite : (r.write payload).SlotsFit := h
    exact hwrite.drain hreceive
  · split at hreceive
    · cases hreceive
      exact h.place seq hlength
    · cases hreceive
      exact h

end Reassembly

namespace ServerSocket

theorem slotsFit_receiveData {dlen : Nat} {buf : RecvBuffer} {r r' : Reassembly}
    (h : r.SlotsFit) (hreceive : receiveData dlen buf r = some r') : r'.SlotsFit := by
  cases hpayload : buf.payload dlen with
  | some payload =>
      obtain ⟨hlength, hle⟩ := RecvBuffer.payload_le hpayload
      rw [receiveData_of_payload hpayload] at hreceive
      exact h.receive (by omega) hreceive
  | none =>
      simp only [receiveData, hpayload, Option.bind_none, Option.map_none] at hreceive
      split at hreceive
      · simp at hreceive
      · split at hreceive
        · split at hreceive
          · simp at hreceive
          · cases hreceive
            exact h
        · cases hreceive
          exact h

theorem slotsFit_step {a : RawArrival} {s s' : ServerSocket} {out : List Packet}
    (h : s.server.reassembly.SlotsFit) (hstep : s.step a = some (s', out)) :
    s'.server.reassembly.SlotsFit := by
  unfold step at hstep
  dsimp only at hstep
  split at hstep
  · obtain ⟨r, hr, heq⟩ := Option.map_eq_some_iff.mp hstep
    cases heq
    exact slotsFit_receiveData h hr
  · obtain ⟨⟨server, sent⟩, hserver, heq⟩ := Option.map_eq_some_iff.mp hstep
    cases heq
    rcases Server.step_cases hserver with
      ⟨-, -, rfl, -⟩ | ⟨-, -, rfl, -⟩ | ⟨-, -, r, hr, rfl, -⟩ | ⟨-, rfl, -⟩
    · exact h
    · exact h
    · exact h.receive (Nat.zero_le _) hr
    · exact h

theorem slotsFit_receiveName {serverSeq : UInt32} {buf : RecvBuffer} {name : Datagram}
    {outname : List UInt8} {s : ServerSocket}
    (h : receiveName serverSeq buf name = some (outname, s)) :
    s.server.reassembly.SlotsFit := by
  unfold receiveName at h
  split at h
  · simp at h
  · obtain ⟨⟨outname', server⟩, hname, heq⟩ := Option.map_eq_some_iff.mp h
    cases heq
    obtain ⟨payload, -, hname⟩ := Option.bind_eq_some_iff.mp hname
    unfold Server.receiveName at hname
    split at hname
    · simp at hname
    · cases hname
      exact Reassembly.slotsFit_start _

end ServerSocket

end OxyC.Networking
