import OxyC.Networking.Delivery
import Mathlib.Data.List.Forall2

/-!
# Initial sequence numbers

Two transfers of the same file that differ in the client's initial sequence
number run in lockstep under every schedule, as long as at every boundary of a
segment their sequence numbers have wrapped equally often and are zero together.
-/

namespace OxyC.Networking

open OxyC.Foundation

namespace Session

def withIsn (q : Session) (isn : UInt32) : Session := { q with cliSeq := isn }

/-- The sequence number of the byte at offset `b` of the file. -/
def seqAt (q : Session) (b : Nat) : UInt32 := UInt32.ofNat (q.first + b)

/-- The offsets at which the client cuts the file. -/
def Boundary (q : Session) (b : Nat) : Prop := ∃ k, b = min (shamMtu * k) q.contents.length

/-- At every boundary both numbers have wrapped equally often and are zero together. -/
structure Aligned (q : Session) (isn : UInt32) : Prop where
  wraps : ∀ b, q.Boundary b →
    (q.first + b) / 2 ^ 32 = ((q.withIsn isn).first + b) / 2 ^ 32
  zero : ∀ b, q.Boundary b → (q.seqAt b = 0 ↔ (q.withIsn isn).seqAt b = 0)

theorem aligned_of_noWrap {q : Session} {isn : UInt32} (hq : q.NoWrap)
    (hisn : (q.withIsn isn).NoWrap) : q.Aligned isn := by
  unfold NoWrap at hq hisn
  have hlt : ∀ b, q.Boundary b →
      q.first + b < 2 ^ 32 ∧ (q.withIsn isn).first + b < 2 ^ 32 := by
    rintro b ⟨k, rfl⟩
    have hle := Nat.min_le_right (shamMtu * k) q.contents.length
    have hcontents : (q.withIsn isn).contents = q.contents := rfl
    rw [hcontents] at hisn
    omega
  have hne : ∀ (q' : Session) (b : Nat), q'.first + b < 2 ^ 32 → q'.seqAt b ≠ 0 := by
    intro q' b hb hzero
    have hnat := congrArg UInt32.toNat hzero
    rw [seqAt, UInt32.toNat_ofNat', UInt32.toNat_zero, Nat.mod_eq_of_lt hb] at hnat
    unfold first at hnat
    omega
  constructor
  · intro b hb
    obtain ⟨h, h'⟩ := hlt b hb
    rw [Nat.div_eq_of_lt h, Nat.div_eq_of_lt h']
  · intro b hb
    obtain ⟨h, h'⟩ := hlt b hb
    exact iff_of_false (hne q b h) (hne _ b h')

theorem forall₂_getElem? {α β : Type*} {R : α → β → Prop} {as : List α} {bs : List β}
    (h : List.Forall₂ R as bs) (i : Nat) : Option.Rel R as[i]? bs[i]? := by
  induction h generalizing i with
  | nil => exact .none
  | cons hab _ ih =>
      cases i with
      | zero => exact .some hab
      | succ i => simpa using ih i

/-! ## Sequence numbers of the two transfers -/

section Numbers

variable (q : Session) (isn : UInt32)

/-- `x` and `y` are as far from the two initial numbers, without a wrap between them. -/
def Twin (x y : UInt32) : Prop := x.toNat + isn.toNat = y.toNat + q.cliSeq.toNat

structure Live (x y : UInt32) : Prop where
  twin : q.Twin isn x y
  left_ne : x ≠ 0
  right_ne : y ≠ 0

/-- `x` and `y` are as far from the two initial numbers modulo `2 ^ 32`. -/
def Shift (x y : UInt32) : Prop := x + isn = y + q.cliSeq

/-- `len` bytes that start and end at twins. -/
structure Span (x y : UInt32) (len : Nat) : Prop where
  twin : q.Twin isn x y
  stop : x ≠ 0 → y ≠ 0 → q.Live isn (x + UInt32.ofNat len) (y + UInt32.ofNat len)

def Parallel : Prop := ∀ b, q.Boundary b → q.Live isn (q.seqAt b) ((q.withIsn isn).seqAt b)

variable {q isn} {x y x' y' : UInt32}

theorem Twin.eq_iff (h : q.Twin isn x y) (h' : q.Twin isn x' y') : x = x' ↔ y = y' := by
  unfold Twin at h h'
  rw [← UInt32.toNat_inj, ← UInt32.toNat_inj]
  omega

theorem Twin.lt_iff (h : q.Twin isn x y) (h' : q.Twin isn x' y') : x < x' ↔ y < y' := by
  unfold Twin at h h'
  rw [UInt32.lt_iff_toNat_lt, UInt32.lt_iff_toNat_lt]
  omega

theorem Twin.add_le_iff (h : q.Twin isn x y) (h' : q.Twin isn x' y') (len : Nat) :
    x.toNat + len ≤ x'.toNat ↔ y.toNat + len ≤ y'.toNat := by
  unfold Twin at h h'
  omega

theorem Twin.shift (h : q.Twin isn x y) : q.Shift isn x y := by
  unfold Twin at h
  unfold Shift
  rw [← UInt32.toNat_inj, UInt32.toNat_add, UInt32.toNat_add, h]

theorem Shift.add (h : q.Shift isn x y) (z : UInt32) : q.Shift isn (x + z) (y + z) := by
  unfold Shift at h ⊢
  grind

theorem Shift.eq_iff (h : q.Shift isn x y) (h' : q.Shift isn x' y') : x = x' ↔ y = y' := by
  unfold Shift at h h'
  grind

theorem Shift.sub_eq (h : q.Shift isn x y) : x - q.cliSeq = y - isn := by
  unfold Shift at h
  grind

theorem seqAt_add (b len : Nat) : q.seqAt b + UInt32.ofNat len = q.seqAt (b + len) := by
  rw [seqAt, seqAt, ← UInt32.ofNat_add, Nat.add_assoc]

theorem parallel_of_aligned (h : q.Aligned isn) (hne : q.cliSeq ≠ isn) : q.Parallel isn := by
  intro b hb
  have hwraps := h.wraps b hb
  have hzero := h.zero b hb
  have htwin : q.Twin isn (q.seqAt b) ((q.withIsn isn).seqAt b) := by
    simp only [Twin, seqAt, UInt32.toNat_ofNat']
    simp only [first, withIsn] at hwraps ⊢
    omega
  have hleft : q.seqAt b ≠ 0 := by
    intro hx
    have hy := hzero.mp hx
    rw [hx, hy, Twin] at htwin
    apply hne
    rw [← UInt32.toNat_inj]
    omega
  exact ⟨htwin, hleft, fun hy => hleft (hzero.mpr hy)⟩

/-- The file-name packet ends where the file starts. -/
theorem span_name (h : q.Parallel isn) (hq : q.cliSeq.toNat < 2 ^ 31) (hisn : isn.toNat < 2 ^ 31) :
    q.Span isn (q.cliSeq + 1) (isn + 1) q.outname.length := by
  have hstart : ∀ q' : Session, q'.cliSeq + 1 + UInt32.ofNat q'.outname.length = q'.seqAt 0 := by
    intro q'
    rw [seqAt, first, ← UInt32.toNat_inj]
    simp
  constructor
  · simp only [Twin, UInt32.toNat_add, UInt32.toNat_one]
    omega
  · intro _ _
    have hlive := h 0 ⟨0, by simp⟩
    rwa [← hstart, ← hstart (q.withIsn isn)] at hlive

end Numbers

/-! ## The two servers -/

section Servers

variable (q : Session) (isn : UInt32)

/-- Slots that hold the same segment, or are both empty. -/
structure SlotTwin (b b' : Buffered) : Prop where
  len : b'.len = b.len
  data : b'.data = b.data
  seq : (b.seq = 0 ∧ b'.seq = 0) ∨ (b.seq ≠ 0 ∧ b'.seq ≠ 0 ∧ q.Span isn b.seq b'.seq b.len)

structure WrittenTwin (w w' : Written) : Prop where
  expected : q.Live isn w.expected w'.expected
  out : w'.out = w.out

structure TableTwin (r r' : Reassembly) : Prop where
  expected : q.Live isn r.expected r'.expected
  out : r'.out = r.out
  bufs : List.Forall₂ (q.SlotTwin isn) r.bufs r'.bufs

structure ServerTwin (s s' : Server) : Prop where
  phase : s'.phase = s.phase
  table : q.TableTwin isn s.reassembly s'.reassembly

/-- Sequence numbers of data packets: twins, or those of an empty packet from after the FIN. -/
def DataTwin (seq seq' : UInt32) (data : List UInt8) : Prop :=
  q.Span isn seq seq' data.length ∨ (seq = 0 ∧ seq' = 0 ∧ data = [])

structure PacketTwin (p p' : Packet) : Prop where
  data : p'.data = p.data
  flags : p'.hdr.flags = p.hdr.flags
  fin : p.hdr.has shamFin = true → q.Shift isn p.hdr.seqNum p'.hdr.seqNum
  seqNum : p.hdr.has shamFin = false → q.DataTwin isn p.hdr.seqNum p'.hdr.seqNum p.data

/-- Headers on their way to the two clients; `sending` as long as they are in the send loop. -/
structure HeaderTwin (sending : Bool) (h h' : Header) : Prop where
  flags : h'.flags = h.flags
  windowSize : h'.windowSize = h.windowSize
  shift : h.has shamAck = true → q.Shift isn h.ackNum h'.ackNum
  twin : sending = true → h.has shamAck = true → q.Twin isn h.ackNum h'.ackNum

variable {q isn}

theorem SlotTwin.bytes_eq {b b' : Buffered} (h : q.SlotTwin isn b b') : b'.bytes = b.bytes := by
  rw [Buffered.bytes, Buffered.bytes, h.len, h.data]

theorem SlotTwin.isFree_eq {b b' : Buffered} (h : q.SlotTwin isn b b') :
    b'.isFree = b.isFree := by
  rcases h.seq with ⟨hzero, hzero'⟩ | ⟨hne, hne', -⟩
  · simp [Buffered.isFree, hzero, hzero']
  · simp [Buffered.isFree, hne, hne']

theorem release_lockstep (w w' : Written) (b b' : Buffered) (hw : q.WrittenTwin isn w w')
    (h : q.SlotTwin isn b b') :
    Option.Rel (fun x y => q.WrittenTwin isn x.1 y.1 ∧ q.SlotTwin isn x.2 y.2)
      (release w b) (release w' b') := by
  have hlive := hw.expected
  unfold release
  rcases h.seq with ⟨hzero, hzero'⟩ | ⟨hne, hne', hspan⟩
  · rw [if_neg (by rw [hzero]; exact hlive.left_ne.symm),
      if_neg (by rw [hzero']; exact hlive.right_ne.symm)]
    exact .none
  · have heq := hspan.twin.eq_iff hlive.twin
    by_cases hb : b.seq = w.expected
    · have hstop : q.Live isn (b.seq + UInt32.ofNat b.len) (b'.seq + UInt32.ofNat b'.len) := by
        rw [h.len]
        exact hspan.stop hne hne'
      rw [if_pos hb, if_pos (heq.mp hb), ← hb, ← heq.mp hb]
      exact .some ⟨⟨hstop, by rw [hw.out, h.bytes_eq]⟩, h.len, h.data, .inl ⟨rfl, rfl⟩⟩
    · rw [if_neg hb, if_neg fun hb' => hb (heq.mpr hb')]
      exact .none

theorem TableTwin.drain {r r' : Reassembly} (h : q.TableTwin isn r r') :
    Option.Rel (q.TableTwin isn) r.drain r'.drain := by
  have hsat := saturate_lockstep release_lockstep drainFuel h.bufs
    (s := ⟨r.expected, r.out⟩) (t := ⟨r'.expected, r'.out⟩) ⟨h.expected, h.out⟩
  cases hr : r.drain with
  | none =>
      cases hr' : r'.drain with
      | none => exact .none
      | some t' =>
          rw [Reassembly.drain_eq_none hr, Reassembly.drain_eq_some hr'] at hsat
          cases hsat
  | some t =>
      cases hr' : r'.drain with
      | none =>
          rw [Reassembly.drain_eq_some hr, Reassembly.drain_eq_none hr'] at hsat
          cases hsat
      | some t' =>
          rw [Reassembly.drain_eq_some hr, Reassembly.drain_eq_some hr'] at hsat
          cases hsat with
          | some hend => exact .some ⟨hend.2.expected, hend.2.out, hend.1⟩

theorem TableTwin.place {r r' : Reassembly} (h : q.TableTwin isn r r') {seq seq' : UInt32}
    {payload : List UInt8} (hne : seq ≠ 0) (hne' : seq' ≠ 0)
    (hspan : q.Span isn seq seq' payload.length) :
    q.TableTwin isn (r.place seq payload) (r'.place seq' payload) := by
  refine ⟨h.expected, h.out, ?_⟩
  apply firstFit_lockstep
  · intro b b' hb
    exact hb.isFree_eq.symm
  · intro b b' hb _
    refine ⟨rfl, ?_, .inr ⟨hne, hne', hspan⟩⟩
    simp only [Buffered.save, hb.data]
  · exact h.bufs

theorem TableTwin.receive {r r' : Reassembly} (h : q.TableTwin isn r r') {seq seq' : UInt32}
    {payload : List UInt8} (hdata : q.DataTwin isn seq seq' payload) :
    Option.Rel (q.TableTwin isn) (r.receive seq payload) (r'.receive seq' payload) := by
  have hlive := h.expected
  unfold Reassembly.receive
  rcases hdata with hspan | ⟨rfl, rfl, rfl⟩
  · have heq := hspan.twin.eq_iff hlive.twin
    have hlt := hlive.twin.lt_iff hspan.twin
    by_cases horder : seq = r.expected
    · rw [if_pos horder, if_pos (heq.mp horder)]
      have hwrite : q.TableTwin isn (r.write payload) (r'.write payload) := by
        refine ⟨?_, by simp [h.out], h.bufs⟩
        simp only [Reassembly.expected_write, ← horder, ← heq.mp horder]
        refine hspan.stop ?_ ?_
        · rw [horder]
          exact hlive.left_ne
        · rw [heq.mp horder]
          exact hlive.right_ne
      exact hwrite.drain
    · rw [if_neg horder, if_neg fun horder' => horder (heq.mpr horder')]
      by_cases hlater : r.expected < seq
      · have hlater' := hlt.mp hlater
        rw [if_pos hlater, if_pos hlater']
        refine .some (h.place ?_ ?_ hspan)
        · rintro rfl
          simp [UInt32.lt_iff_toNat_lt] at hlater
        · rintro rfl
          simp [UInt32.lt_iff_toNat_lt] at hlater'
      · rw [if_neg hlater, if_neg fun hlater' => hlater (hlt.mpr hlater')]
        exact .some h
  · have hnot : ∀ e : UInt32, ¬ e < 0 := by simp [UInt32.lt_iff_toNat_lt]
    rw [if_neg hlive.left_ne.symm, if_neg hlive.right_ne.symm, if_neg (hnot _), if_neg (hnot _)]
    exact .some h

theorem TableTwin.avail_eq {r r' : Reassembly} (h : q.TableTwin isn r r') :
    r'.avail = r.avail := by
  have hsum : ∀ bs bs' : List Buffered, List.Forall₂ (q.SlotTwin isn) bs bs' →
      (bs'.filter fun b => b.seq != 0).map Buffered.len =
        (bs.filter fun b => b.seq != 0).map Buffered.len := by
    intro bs bs' hbufs
    induction hbufs with
    | nil => rfl
    | @cons b b' bs bs' hb _ ih =>
        have hseq : (b'.seq != 0) = (b.seq != 0) := by
          simpa [Buffered.isFree, bne] using hb.isFree_eq
        simp only [List.filter_cons, hseq]
        split
        · rw [List.map_cons, List.map_cons, ih, hb.len]
        · exact ih
  have hbytes : r'.bufferedBytes = r.bufferedBytes := by
    rw [Reassembly.bufferedBytes, Reassembly.bufferedBytes, hsum _ _ h.bufs]
  rw [Reassembly.avail, Reassembly.avail, hbytes]

theorem has_congr {h h' : Header} (hflags : h'.flags = h.flags) (flag : UInt16) :
    h'.has flag = h.has flag := by
  rw [Header.has, Header.has, hflags]

theorem ServerTwin.step {s s' : Server} (h : q.ServerTwin isn s s') {p p' : Packet}
    (hp : q.PacketTwin isn p p') {sending : Bool}
    (hsending : p.hdr.has shamFin = true → sending = false) (drop : Bool) :
    Option.Rel (fun x y => q.ServerTwin isn x.1 y.1 ∧
        List.Forall₂ (fun a a' => q.HeaderTwin isn sending a.hdr a'.hdr) x.2 y.2)
      (s.step ⟨p, drop⟩) (s'.step ⟨p', drop⟩) := by
  have hfin := has_congr hp.flags shamFin
  unfold Server.step
  rw [h.phase]
  cases s.phase with
  | receiving =>
      cases drop with
      | true => exact .some ⟨⟨h.phase, h.table⟩, .nil⟩
      | false =>
          simp only [Bool.false_eq_true, if_false, hfin]
          cases hhas : p.hdr.has shamFin with
          | true =>
              refine .some ⟨⟨rfl, h.table⟩, .cons ?_ (.cons ?_ .nil)⟩
              · refine ⟨rfl, rfl, fun _ => (hp.fin hhas).add 1, ?_⟩
                simp [hsending hhas]
              · refine ⟨rfl, rfl, ?_, ?_⟩ <;> simp [Server.finOf, Header.has]
          | false =>
              have hreceive := h.table.receive (hp.seqNum hhas)
              simp only [hp.data, Bool.false_eq_true, if_false]
              generalize s.reassembly.receive p.hdr.seqNum p.data = r at hreceive ⊢
              generalize s'.reassembly.receive p'.hdr.seqNum p.data = r' at hreceive ⊢
              cases hreceive with
              | none => exact .none
              | some htable =>
                  refine .some ⟨⟨rfl, htable⟩, .cons ?_ .nil⟩
                  exact ⟨rfl, htable.avail_eq, fun _ => htable.expected.twin.shift,
                    fun _ _ => htable.expected.twin⟩
  | finalAck => exact .some ⟨⟨rfl, h.table⟩, .nil⟩
  | closed => exact .none

end Servers

/-! ## The two clients -/

section Clients

variable (q : Session) (isn : UInt32)

structure OutTwin (p p' : OutPkt) : Prop where
  len : p'.len = p.len
  data : p'.data = p.data
  acked : p'.acked = p.acked
  sent : p'.sent = p.sent

structure ClientTwin (c c' : Client) : Prop where
  pc : c'.pc = c.pc
  input : c'.input = c.input
  inUse : c'.inUse = c.inUse
  inFlightBytes : c'.inFlightBytes = c.inFlightBytes
  remoteWin : c'.remoteWin = c.remoteWin
  gotAck : c'.gotAck = c.gotAck
  gotFin : c'.gotFin = c.gotFin
  slot : ∀ i, OutTwin (c.inflight i) (c'.inflight i)
  held : ∀ i, c.inUse i = true →
    q.Span isn (c.inflight i).seq (c'.inflight i).seq (c.inflight i).len ∧
      (c.inflight i).bytes.length = (c.inflight i).len
  contents : c.input.contents = q.contents
  boundary : q.Boundary c.input.pos
  nextseq : c.nextseq = q.seqAt c.input.pos
  nextseq' : c'.nextseq = (q.withIsn isn).seqAt c.input.pos

structure ClientReply (x y : Client × List Packet) : Prop where
  client : q.ClientTwin isn x.1 y.1
  sent : List.Forall₂ (q.PacketTwin isn) x.2 y.2
  fin : x.1.sending = true → ∀ p ∈ x.2, p.hdr.has shamFin = false

variable {q isn}

theorem boundary_chunk {f : InputFile UInt8} (hcontents : f.contents = q.contents)
    (hb : q.Boundary f.pos) : q.Boundary (f.pos + (f.chunk shamMtu).length) := by
  obtain ⟨k, hk⟩ := hb
  refine ⟨k + 1, ?_⟩
  rw [InputFile.length_chunk, hcontents, Nat.mul_succ]
  omega

theorem ClientTwin.bytesInUse_eq {c c' : Client} (h : q.ClientTwin isn c c') :
    c'.bytesInUse = c.bytesInUse := by
  unfold Client.bytesInUse
  apply Finset.sum_congr rfl
  intro i _
  rw [h.inUse, (h.slot i).len]

theorem ClientTwin.live_nextseq (hpar : q.Parallel isn) {c c' : Client}
    (h : q.ClientTwin isn c c') : q.Live isn c.nextseq c'.nextseq := by
  rw [h.nextseq, h.nextseq']
  exact hpar _ h.boundary

theorem ClientTwin.span_chunk (hpar : q.Parallel isn) {c c' : Client}
    (h : q.ClientTwin isn c c') :
    q.Span isn c.nextseq c'.nextseq (c.input.chunk shamMtu).length := by
  refine ⟨(h.live_nextseq hpar).twin, fun _ _ => ?_⟩
  rw [h.nextseq, h.nextseq', seqAt_add, seqAt_add]
  exact hpar _ (boundary_chunk h.contents h.boundary)

theorem ClientTwin.leave (hpar : q.Parallel isn) {c c' : Client} (h : q.ClientTwin isn c c') :
    q.ClientReply isn c.leave c'.leave where
  client := { h with pc := rfl, gotAck := rfl, gotFin := rfl }
  sent := by
    refine .cons ⟨rfl, rfl, fun _ => (h.live_nextseq hpar).twin.shift, ?_⟩ .nil
    simp
  fin := by simp [Client.leave, Client.sending]

theorem OutTwin.read {p p' : OutPkt} (h : OutTwin p p') (chunk : List UInt8) :
    OutTwin { p with data := memcpy p.data chunk } { p' with data := memcpy p'.data chunk } :=
  ⟨h.len, by rw [h.data], h.acked, h.sent⟩

theorem ClientTwin.readInto {c c' : Client} (h : q.ClientTwin isn c c') {i : Fin maxInflight}
    (hfree : c.inUse i = false) {input : InputFile UInt8}
    (hcontents : input.contents = c.input.contents) (hpos : input.pos = c.input.pos)
    (pc : ClientPc) :
    q.ClientTwin isn { c.readInto i with pc := pc, input := input }
      { c'.readInto i with pc := pc, input := input } := by
  have hother : ∀ j, c.inUse j = true → j ≠ i := by
    intro j hj hji
    rw [hji, hfree] at hj
    simp at hj
  refine
    { h with
      pc := rfl
      input := rfl
      slot := ?_
      held := ?_
      contents := ?_
      boundary := ?_
      nextseq := ?_
      nextseq' := ?_ }
  · intro j
    by_cases hji : j = i
    · subst hji
      simpa [Client.readInto, h.input] using (h.slot j).read (c.input.chunk shamMtu)
    · simpa [Client.readInto, hji] using h.slot j
  · intro j hj
    have hji := hother j hj
    simpa [Client.readInto, hji] using h.held j hj
  · exact hcontents.trans h.contents
  · rw [hpos]
    exact h.boundary
  · rw [hpos]
    exact h.nextseq
  · rw [hpos]
    exact h.nextseq'

theorem packetTwin_sendPacket {seq seq' : UInt32} {payload : List UInt8}
    (hspan : q.Span isn seq seq' payload.length) (win : UInt16) :
    q.PacketTwin isn (Client.sendPacket seq payload win) (Client.sendPacket seq' payload win) where
  data := rfl
  flags := rfl
  fin := by simp
  seqNum _ := .inl hspan

theorem ClientTwin.fill (hpar : q.Parallel isn) {c c' : Client} (h : q.ClientTwin isn c c')
    (i : Fin maxInflight) (now : Timeval) :
    q.ClientReply isn (c.fill i now) (c'.fill i now) := by
  have hspan := h.span_chunk hpar
  constructor
  · refine
      { h with
        pc := rfl
        input := ?_
        inUse := ?_
        inFlightBytes := ?_
        slot := ?_
        held := ?_
        boundary := boundary_chunk h.contents h.boundary
        nextseq := ?_
        nextseq' := ?_ }
    · simp only [Client.fill, h.input]
    · simp only [Client.fill, h.inUse]
    · simp only [Client.fill, h.input, h.inFlightBytes]
    · intro j
      by_cases hji : j = i
      · subst hji
        simp only [Client.fill, Function.update_self, h.input, (h.slot j).data]
        exact ⟨rfl, rfl, rfl, rfl⟩
      · simpa [Client.fill, hji] using h.slot j
    · intro j hj
      by_cases hji : j = i
      · subst hji
        simp only [Client.fill, Function.update_self, OutPkt.bytes, take_memcpy, and_true]
        exact hspan
      · simp only [Client.fill, ne_eq, hji, not_false_eq_true, Function.update_of_ne] at hj ⊢
        exact h.held j hj
    · simp only [Client.fill, InputFile.pos_fread, ← seqAt_add, h.nextseq]
    · simp only [Client.fill, InputFile.pos_fread, ← seqAt_add, h.nextseq', h.input]
  · simp only [Client.fill, OutPkt.bytes, take_memcpy, h.remoteWin, h.input]
    exact .cons (packetTwin_sendPacket hspan _) .nil
  · intro _ p hp
    simp only [Client.fill, List.mem_singleton] at hp
    rw [hp]
    exact Client.has_sendPacket _ _ _ _

theorem ClientReply.silent {c c' : Client} (h : q.ClientTwin isn c c') :
    q.ClientReply isn (c, []) (c', []) :=
  ⟨h, .nil, by simp⟩

theorem ClientTwin.round (hpar : q.Parallel isn) {c c' : Client} (h : q.ClientTwin isn c c')
    (i : Fin maxInflight) (now : Timeval) :
    q.ClientReply isn (c.round i now) (c'.round i now) := by
  have huse : c'.inUse i = c.inUse i := by rw [h.inUse]
  have heof : c'.input.eof = c.input.eof := by rw [h.input]
  have hchunk : c'.input.chunk shamMtu = c.input.chunk shamMtu := by rw [h.input]
  have hfread : c'.input.fread shamMtu = c.input.fread shamMtu := by rw [h.input]
  have hwin : (c'.inFlightBytes ≥ c'.remoteWin.toNat) = (c.inFlightBytes ≥ c.remoteWin.toNat) := by
    rw [h.inFlightBytes, h.remoteWin]
  have hfit : (c'.inFlightBytes + (c.input.chunk shamMtu).length > c'.remoteWin.toNat) =
      (c.inFlightBytes + (c.input.chunk shamMtu).length > c.remoteWin.toNat) := by
    rw [h.inFlightBytes, h.remoteWin]
  have hpos : (c.input.chunk shamMtu).length = 0 →
      (c.input.fread shamMtu).pos = c.input.pos := by
    intro hzero
    rw [InputFile.pos_fread, hzero, Nat.add_zero]
  simp only [Client.round, huse, heof, hwin]
  cases hfree : c.inUse i with
  | true => exact .silent { h with pc := rfl }
  | false =>
      simp only [Bool.false_eq_true, if_false, hchunk, hfread, hfit]
      split
      · exact h.leave hpar
      · split
        · exact .silent { h with pc := rfl }
        · split
          · rename_i hzero
            have hread := h.readInto hfree (InputFile.contents_fread shamMtu c.input)
              (hpos hzero) c.pc
            have hself : c'.readInto i =
                { c'.readInto i with pc := c.pc, input := c.input.fread shamMtu } := by
              simp only [Client.readInto, h.pc, h.input]
            rw [hself]
            exact hread.leave hpar
          · split
            · exact .silent (h.readInto hfree (by simp) (by simp) .whileTest)
            · exact h.fill hpar i now

theorem ClientTwin.processAck {c c' : Client} (h : q.ClientTwin isn c c') {hdr hdr' : Header}
    (hhdr : q.HeaderTwin isn true hdr hdr') (hack : hdr.has shamAck = true) :
    q.ClientTwin isn (c.processAck hdr) (c'.processAck hdr') := by
  have hfreed : ∀ i,
      (c'.inUse i && decide ((c'.inflight i).seq.toNat + (c'.inflight i).len ≤
        hdr'.ackNum.toNat)) =
      (c.inUse i && decide ((c.inflight i).seq.toNat + (c.inflight i).len ≤
        hdr.ackNum.toNat)) := by
    intro i
    rw [h.inUse, (h.slot i).len]
    cases huse : c.inUse i with
    | false => rfl
    | true =>
        have htwin := (h.held i huse).1.twin
        simp only [Bool.true_and, htwin.add_le_iff (hhdr.twin rfl hack)]
  refine
    { h with
      inUse := ?_
      remoteWin := hhdr.windowSize
      slot := ?_
      held := ?_ }
  · funext i
    simp only [Client.processAck, hfreed]
    rw [h.inUse]
  · intro i
    have hslot := h.slot i
    simp only [Client.processAck, hfreed]
    split
    · exact ⟨hslot.len, hslot.data, rfl, hslot.sent⟩
    · exact hslot
  · intro i huse
    simp only [Client.processAck, hfreed] at huse ⊢
    split at huse
    · simp at huse
    · rename_i hnot
      rw [if_neg hnot, if_neg hnot]
      exact h.held i huse

theorem ClientTwin.recvAck {c c' : Client} (h : q.ClientTwin isn c c')
    {received received' : Option Header}
    (hreceived : Option.Rel (q.HeaderTwin isn true) received received') :
    q.ClientTwin isn (c.recvAck received) (c'.recvAck received') := by
  cases hreceived with
  | none => exact h
  | @some hdr hdr' hhdr =>
      have hbuf : q.ClientTwin isn { c with buf := hdr } { c' with buf := hdr' } :=
        { h with pc := h.pc }
      simp only [Client.recvAck, has_congr hhdr.flags]
      cases hack : hdr.has shamAck with
      | false => exact hbuf
      | true => exact hbuf.processAck hhdr hack

theorem ClientTwin.isDue_eq {c c' : Client} (h : q.ClientTwin isn c c') (now : Timeval) :
    c'.isDue now = c.isDue now := by
  funext i
  simp only [Client.isDue, h.inUse, (h.slot i).acked, (h.slot i).sent]

theorem ClientTwin.retransmitDue {c c' : Client} (h : q.ClientTwin isn c c') {env env' : ClientEnv}
    (hnow : env'.now = env.now) (hresent : env'.resentAt = env.resentAt) :
    q.ClientReply isn (c.retransmitDue env) (c'.retransmitDue env') := by
  have hdue := h.isDue_eq env.now
  constructor
  · refine
      { h with
        slot := ?_
        held := ?_ }
    · intro i
      have hslot := h.slot i
      simp only [Client.retransmitDue, hnow, hresent, hdue]
      split
      · exact ⟨hslot.len, hslot.data, hslot.acked, rfl⟩
      · exact hslot
    · intro i huse
      simp only [Client.retransmitDue, hnow, hdue]
      split
      · exact h.held i huse
      · exact h.held i huse
  · simp only [Client.retransmitDue, hnow, hdue, h.remoteWin]
    rw [List.forall₂_map_left_iff, List.forall₂_map_right_iff, List.forall₂_same]
    intro i hi
    have huse : c.inUse i = true := by
      have hdue := List.of_mem_filter hi
      simp only [Client.isDue, Bool.and_eq_true] at hdue
      exact hdue.1.1
    have hheld := h.held i huse
    have hbytes : (c'.inflight i).bytes = (c.inflight i).bytes := by
      rw [OutPkt.bytes, OutPkt.bytes, (h.slot i).data, (h.slot i).len]
    rw [hbytes]
    apply packetTwin_sendPacket
    rw [hheld.2]
    exact hheld.1
  · intro _ p hp
    simp only [Client.retransmitDue, List.mem_map] at hp
    obtain ⟨i, -, rfl⟩ := hp
    exact Client.has_sendPacket _ _ _ _

theorem ClientTwin.poll {c c' : Client} (h : q.ClientTwin isn c c') (i : Fin maxInflight)
    {env env' : ClientEnv} (hnow : env'.now = env.now) (hresent : env'.resentAt = env.resentAt)
    (hreceived : Option.Rel (q.HeaderTwin isn true) env.received env'.received) :
    q.ClientReply isn (c.poll i env) (c'.poll i env') := by
  have hack := h.recvAck hreceived
  have hpc : q.ClientTwin isn { c.recvAck env.received with pc := Client.nextRound i }
      { c'.recvAck env'.received with pc := Client.nextRound i } := { hack with pc := rfl }
  exact hpc.retransmitDue hnow hresent

theorem packetTwin_finPacket (hpar : q.Parallel isn) {c c' : Client} (h : q.ClientTwin isn c c') :
    q.PacketTwin isn c.finPacket c'.finPacket where
  data := rfl
  flags := rfl
  fin _ := (h.live_nextseq hpar).twin.shift
  seqNum := by simp

theorem packetTwin_ackOf (hdr hdr' : Header) :
    q.PacketTwin isn (Client.ackOf hdr) (Client.ackOf hdr') where
  data := rfl
  flags := rfl
  fin := by simp
  seqNum _ := .inr ⟨rfl, rfl, rfl⟩

theorem ClientTwin.recvFin (hpar : q.Parallel isn) {c c' : Client} (h : q.ClientTwin isn c c')
    {received received' : Option Header}
    (hreceived : Option.Rel (q.HeaderTwin isn false) received received') :
    q.ClientReply isn (c.recvFin received) (c'.recvFin received') := by
  have hpc : q.ClientTwin isn { c with pc := .finTest } { c' with pc := .finTest } :=
    { h with pc := rfl }
  cases hreceived with
  | none => exact .silent hpc
  | @some hdr hdr' hhdr =>
      have hbuf : q.ClientTwin isn { c with pc := .finTest, buf := hdr }
          { c' with pc := .finTest, buf := hdr' } := { h with pc := rfl }
      have hnext := (h.live_nextseq hpar).twin.shift.add 1
      have hacked : (hdr'.has shamAck && hdr'.ackNum == c'.nextseq + 1) =
          (hdr.has shamAck && hdr.ackNum == c.nextseq + 1) := by
        rw [has_congr hhdr.flags]
        cases hack : hdr.has shamAck with
        | false => rfl
        | true =>
            rw [Bool.true_and, Bool.true_and, Bool.eq_iff_iff, beq_iff_eq, beq_iff_eq]
            exact ((hhdr.shift hack).eq_iff hnext).symm
      have hfin := has_congr hhdr.flags shamFin
      simp only [Client.recvFin, hacked, hfin]
      split
      · exact .silent { hbuf with gotAck := rfl }
      · split
        · refine ⟨{ hbuf with gotFin := rfl }, .cons (packetTwin_ackOf hdr hdr') .nil, ?_⟩
          simp
        · exact .silent hbuf

theorem ClientTwin.step (hpar : q.Parallel isn) {c c' : Client} (h : q.ClientTwin isn c c')
    {env env' : ClientEnv} (hnow : env'.now = env.now) (hresent : env'.resentAt = env.resentAt)
    (hreceived : Option.Rel (q.HeaderTwin isn c.sending) env.received env'.received) :
    Option.Rel (q.ClientReply isn) (c.step env) (c'.step env') := by
  unfold Client.sending at hreceived
  unfold Client.step
  rw [h.pc]
  cases hpc : c.pc with
  | whileTest =>
      rw [h.bytesInUse_eq]
      exact .some (.silent { h with pc := rfl, inFlightBytes := rfl })
  | round i =>
      rw [hnow]
      exact .some (h.round hpar i env.now)
  | select i =>
      rw [hpc] at hreceived
      exact .some (h.poll i hnow hresent hreceived)
  | finTest =>
      have hboth : (c'.gotAck && c'.gotFin) = (c.gotAck && c.gotFin) := by
        rw [h.gotAck, h.gotFin]
      simp only [hboth]
      split
      · have hclosed : q.ClientTwin isn { c with pc := .closed } { c' with pc := .closed } :=
          { h with pc := rfl }
        exact .some ⟨hclosed, .cons (packetTwin_ackOf c.buf c'.buf) .nil, by simp⟩
      · have hrecv : q.ClientTwin isn { c with pc := .finRecv } { c' with pc := .finRecv } :=
          { h with pc := rfl }
        refine .some ⟨hrecv, ?_, by simp [Client.sending]⟩
        rw [h.gotAck]
        split
        · exact .nil
        · exact .cons (packetTwin_finPacket hpar h) .nil
  | finRecv =>
      rw [hpc] at hreceived
      exact .some (h.recvFin hpar hreceived)
  | closed => exact .none

end Clients

/-! ## The two transfers -/

section Transfers

variable (q : Session) (isn : UInt32)

structure TransferTwin (s s' : Transfer) : Prop where
  client : q.ClientTwin isn s.client s'.client
  server : q.ServerTwin isn s.server s'.server
  toServer : List.Forall₂ (q.PacketTwin isn) s.toServer s'.toServer
  toClient : List.Forall₂ (fun a a' => q.HeaderTwin isn s.client.sending a.hdr a'.hdr)
    s.toClient s'.toClient
  /-- The client sends its first FIN when it leaves the send loop. -/
  noFin : s.client.sending = true → ∀ p ∈ s.toServer, p.hdr.has shamFin = false

variable {q isn}

theorem HeaderTwin.mono {sending sending' : Bool} {h h' : Header}
    (hmono : sending' = true → sending = true) (hhdr : q.HeaderTwin isn sending h h') :
    q.HeaderTwin isn sending' h h' :=
  ⟨hhdr.flags, hhdr.windowSize, hhdr.shift, fun hsending => hhdr.twin (hmono hsending)⟩

theorem TransferTwin.deliver {s s' : Transfer} (h : q.TransferTwin isn s s') (d : Delivery) :
    Option.Rel (q.HeaderTwin isn s.client.sending) (s.deliver d) (s'.deliver d) := by
  apply rel_map (forall₂_getElem? h.toClient d.index)
  intro p p' hhdr
  cases d.window with
  | none => exact hhdr
  | some w => exact ⟨hhdr.flags, rfl, hhdr.shift, hhdr.twin⟩

theorem TransferTwin.received {s s' : Transfer} (h : q.TransferTwin isn s s')
    (delivery : Option Delivery) :
    Option.Rel (Option.Rel (q.HeaderTwin isn s.client.sending))
      (s.received delivery) (s'.received delivery) := by
  cases delivery with
  | none => exact .some .none
  | some d => exact rel_map (h.deliver d) fun _ _ hhdr => .some hhdr

theorem TransferTwin.step (hpar : q.Parallel isn) (a : Action) {s s' : Transfer}
    (h : q.TransferTwin isn s s') :
    Option.Rel (fun x y => q.TransferTwin isn x.1 y.1) (Transfer.step a s) (Transfer.step a s') := by
  cases a with
  | client delivery now resentAt =>
      apply rel_bind (h.received delivery)
      intro r r' _ hr
      have hclient : Option.Rel (q.ClientReply isn) (s.client.step ⟨r, now, resentAt⟩)
          (s'.client.step ⟨r', now, resentAt⟩) := h.client.step hpar rfl rfl hr
      apply rel_bind hclient
      intro x y hstep hxy
      have hmono := Client.sending_of_step hstep
      refine .some ⟨hxy.client, h.server, List.rel_append h.toServer hxy.sent, ?_, ?_⟩
      · exact h.toClient.imp fun a a' hhdr => hhdr.mono hmono
      · intro hsending p hp
        rcases List.mem_append.mp hp with hp | hp
        · exact h.noFin (hmono hsending) p hp
        · exact hxy.fin hsending p hp
  | server index shouldDrop =>
      apply rel_bind (forall₂_getElem? h.toServer index)
      intro p p' hp hpacket
      have hfin : p.hdr.has shamFin = true → s.client.sending = false := by
        intro hhas
        cases hsending : s.client.sending with
        | false => rfl
        | true =>
            rw [h.noFin hsending p (List.mem_of_getElem? hp)] at hhas
            simp at hhas
      apply rel_bind (h.server.step hpacket hfin shouldDrop)
      intro x y _ hxy
      exact .some ⟨h.client, hxy.1, h.toServer, List.rel_append h.toClient hxy.2, h.noFin⟩

theorem nextseq_start (q : Session) :
    (Transfer.start q).client.nextseq = q.seqAt 0 := by
  have hpos := q.outname_pos
  simp only [Transfer.start, Client.start, gt_iff_lt, hpos, if_true]
  rw [seqAt, first, ← UInt32.toNat_inj]
  simp

theorem expected_start (q : Session) :
    (Transfer.start q).server.reassembly.expected = q.seqAt 0 := by
  simp only [Transfer.start, Reassembly.start]
  rw [seqAt, first, ← UInt32.toNat_inj]
  simp

theorem clientTwin_start (q : Session) (isn : UInt32) :
    q.ClientTwin isn (Transfer.start q).client (Transfer.start (q.withIsn isn)).client where
  pc := rfl
  input := rfl
  inUse := rfl
  inFlightBytes := rfl
  remoteWin := rfl
  gotAck := rfl
  gotFin := rfl
  slot _ := ⟨rfl, rfl, rfl, rfl⟩
  held := by simp [Transfer.start, Client.start]
  contents := rfl
  boundary := ⟨0, by simp [Transfer.start, Client.start]⟩
  nextseq := nextseq_start q
  nextseq' := nextseq_start (q.withIsn isn)

theorem serverTwin_start (hpar : q.Parallel isn) :
    q.ServerTwin isn (Transfer.start q).server (Transfer.start (q.withIsn isn)).server := by
  refine ⟨rfl, ?_, rfl, ?_⟩
  · rw [expected_start, expected_start]
    exact hpar 0 ⟨0, by simp⟩
  · apply List.forall₂_same.mpr
    intro b hb
    obtain rfl : b = Buffered.zeroed := List.eq_of_mem_replicate hb
    exact ⟨rfl, rfl, .inl ⟨rfl, rfl⟩⟩

theorem Twin.span_zero {x y : UInt32} (h : q.Twin isn x y) : q.Span isn x y 0 :=
  ⟨h, fun hx hy => by simpa using ⟨h, hx, hy⟩⟩

theorem transferTwin_start (hpar : q.Parallel isn) (hq : q.cliSeq.toNat < 2 ^ 31)
    (hisn : isn.toNat < 2 ^ 31) :
    q.TransferTwin isn (Transfer.start q) (Transfer.start (q.withIsn isn)) := by
  have hsyn : q.Twin isn q.cliSeq isn := Nat.add_comm _ _
  have hnext : q.Twin isn (q.cliSeq + 1) (isn + 1) := by
    simp only [Twin, UInt32.toNat_add, UInt32.toNat_one]
    omega
  constructor
  · exact clientTwin_start q isn
  · exact serverTwin_start hpar
  · refine .cons ⟨rfl, rfl, ?_, ?_⟩ (.cons ⟨rfl, rfl, ?_, ?_⟩ (.cons ?_ .nil))
    · simp [Header.has]
    · exact fun _ => .inl hsyn.span_zero
    · simp [Header.has]
    · exact fun _ => .inl hnext.span_zero
    · exact packetTwin_sendPacket (span_name hpar hq hisn) q.window
  · simp only [Transfer.start]
    rw [List.forall₂_map_left_iff, List.forall₂_map_right_iff]
    apply List.forall₂_same.mpr
    intro srvSeq _
    exact ⟨rfl, rfl, fun _ => hnext.shift, fun _ _ => hnext⟩
  · intro _
    exact noFin_sentBefore

end Transfers

/-! ## Invariance -/

/-- What a transfer shows apart from its initial sequence number. -/
structure View where
  out : List UInt8
  /-- The slots of the server's table: distance from the initial number, and bytes. -/
  buffered : List (Option (UInt32 × List UInt8))
  inUse : Fin maxInflight → Bool

def view (isn : UInt32) (s : Transfer) : View where
  out := s.server.reassembly.out
  buffered := s.server.reassembly.bufs.map fun b =>
    if b.isFree then none else some (b.seq - isn, b.bytes)
  inUse := s.client.inUse

variable {q : Session} {isn : UInt32}

theorem TransferTwin.view_eq {s s' : Transfer} (h : q.TransferTwin isn s s') :
    view q.cliSeq s = view isn s' := by
  have hslot : ∀ b b', q.SlotTwin isn b b' →
      (if b.isFree then none else some (b.seq - q.cliSeq, b.bytes)) =
        (if b'.isFree then none else some (b'.seq - isn, b'.bytes)) := by
    intro b b' hb
    rw [hb.isFree_eq, hb.bytes_eq]
    cases hfree : b.isFree with
    | true => rfl
    | false =>
        rcases hb.seq with ⟨hzero, -⟩ | ⟨-, -, hspan⟩
        · exact absurd hzero (Buffered.isFree_eq_false.mp hfree)
        · rw [hspan.twin.shift.sub_eq]
  have hbufs : ∀ bs bs' : List Buffered, List.Forall₂ (q.SlotTwin isn) bs bs' →
      bs.map (fun b => if b.isFree then none else some (b.seq - q.cliSeq, b.bytes)) =
        bs'.map fun b => if b.isFree then none else some (b.seq - isn, b.bytes) := by
    intro bs bs' hbs
    induction hbs with
    | nil => rfl
    | cons hb _ ih => rw [List.map_cons, List.map_cons, hslot _ _ hb, ih]
  rw [view, view, h.server.table.out, h.client.inUse, hbufs _ _ h.server.table.bufs]

/-- The view after every schedule is the same for both initial sequence numbers. -/
theorem view_run_withIsn (hq : q.cliSeq.toNat < 2 ^ 31) (hisn : isn.toNat < 2 ^ 31)
    (haligned : q.Aligned isn) (schedule : List Action) :
    (Transfer.machine.run schedule (Transfer.start q)).map (fun x => view q.cliSeq x.1) =
      (Transfer.machine.run schedule (Transfer.start (q.withIsn isn))).map
        fun x => view isn x.1 := by
  by_cases hne : q.cliSeq = isn
  · subst hne
    rfl
  · have hpar := parallel_of_aligned haligned hne
    have hrun := Transfer.machine.run_lockstep Transfer.machine
      (fun a s s' h => TransferTwin.step hpar a h) schedule (transferTwin_start hpar hq hisn)
    generalize Transfer.machine.run schedule (Transfer.start q) = x at hrun ⊢
    generalize Transfer.machine.run schedule (Transfer.start (q.withIsn isn)) = y at hrun ⊢
    cases hrun with
    | none => rfl
    | some h => simp only [Option.map_some, h.view_eq]

theorem view_run_withIsn_oneByte :
    (Transfer.machine.run ackedFirst (Transfer.start oneByte)).map
        (fun x => view oneByte.cliSeq x.1) =
      (Transfer.machine.run ackedFirst (Transfer.start (oneByte.withIsn 5))).map
        fun x => view 5 x.1 :=
  view_run_withIsn (by decide) (by decide) (aligned_of_noWrap (by decide) (by decide)) ackedFirst

end Session

end OxyC.Networking
