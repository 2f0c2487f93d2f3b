import OxyC.Networking.ServerProgram

/-!
# Datagrams from other addresses

After the handshake the server never compares the source of a datagram with
anything: the source only says where the replies go.  What keeps a foreign
datagram out of a transfer is its content alone.
-/

namespace OxyC.Networking

open OxyC.Foundation

variable {κ : Type*}

/--
The receive loop takes nothing from what is read: it is empty or dropped, or it
is no FIN and its sequence number is below `expected`, or past it with no slot free.
-/
def ServerSocket.Ignores (s : ServerSocket) (r : ServerRead κ) : Prop :=
  s.server.phase = .receiving ∧ ∀ d, r.datagram = some d → r.shouldDrop = true ∨
    ((s.buf.recvfrom d).header.has shamFin = false ∧
      ((s.buf.recvfrom d).header.seqNum < s.server.reassembly.expected ∨
        (s.server.reassembly.expected < (s.buf.recvfrom d).header.seqNum ∧
          ¬ s.server.reassembly.HasFree)))

/-- Data that the table does not take leaves it as it is, whatever its length. -/
theorem ServerSocket.receiveData_of_ignored {dlen : Nat} {buf : RecvBuffer} {r : Reassembly}
    (h : buf.header.seqNum < r.expected ∨ (r.expected < buf.header.seqNum ∧ ¬ r.HasFree)) :
    receiveData dlen buf r = some r := by
  unfold receiveData
  rcases h with hold | ⟨hlater, hfull⟩
  · have hne : buf.header.seqNum ≠ r.expected := UInt32.ne_of_lt hold
    simp only [if_neg hne, if_neg (UInt32.lt_asymm hold)]
  · have hne : buf.header.seqNum ≠ r.expected := (UInt32.ne_of_lt hlater).symm
    have hnone : ¬ r.bufs.any Buffered.isFree = true := by
      intro hany
      exact hfull (List.any_eq_true.mp hany)
    simp only [if_neg hne, if_pos hlater, if_neg hnone]

namespace ServerProgram

/-- The file name and the state of the receive loop; the receive buffer is left out. -/
def observed (s : ServerProgram κ) : Option (List UInt8) × Option Server :=
  match s with
  | .transfer outname t => (some outname, some t.server)
  | s => (s.opened, none)

/-- The client sends whole headers; what others send is ignored. -/
def Isolated (client : κ) (s : ServerProgram κ) : ServerInput κ → Prop
  | .recvfrom r =>
      (r.source = client → ∀ d, r.datagram = some d → headerSize ≤ d.bytes.length) ∧
        (r.source ≠ client → ∃ outname t, s = .transfer outname t ∧ t.Ignores r)
  | .select _ _ => True

/-- States after the chat loop that differ in the receive buffer only. -/
inductive Agree : ServerProgram κ → ServerProgram κ → Prop
  | fileName (buf : RecvBuffer) (serverSeq : UInt32) :
      Agree (.fileName buf serverSeq) (.fileName buf serverSeq)
  | transfer (outname : List UInt8) {s t : ServerSocket} (h : s.server = t.server) :
      Agree (.transfer outname s) (.transfer outname t)
  | exited (outname : Option (List UInt8)) : Agree (.exited outname) (.exited outname)

theorem Agree.observed_eq {s t : ServerProgram κ} (h : Agree s t) :
    s.observed = t.observed := by
  cases h with
  | fileName buf serverSeq => rfl
  | transfer outname h => simp [observed, h]
  | exited outname => rfl

theorem Agree.refl_recvName (buf : RecvBuffer) (serverSeq : UInt32) (r : ServerRead κ) :
    Agree (recvName buf serverSeq r) (recvName buf serverSeq r) := by
  unfold recvName
  cases r.datagram with
  | none => exact .exited none
  | some d =>
      dsimp only
      split
      · exact .exited none
      · split
        · exact .transfer _ rfl
        · exact .exited _

theorem step_of_ignores (chatMode : Bool) (outname : List UInt8) {s : ServerSocket}
    {r : ServerRead κ} (h : s.Ignores r) :
    ∃ s' out, step chatMode (.recvfrom r) (.transfer outname s) =
      some (.transfer outname s', out) ∧ s'.server = s.server ∧ ∀ p ∈ out, p.1 = r.source := by
  obtain ⟨hphase, hignored⟩ := h
  simp only [step, recvTransfer]
  cases hread : r.datagram with
  | none =>
      simp only [ServerSocket.recvNothing, hphase]
      exact ⟨s, [], rfl, rfl, by simp⟩
  | some d =>
      cases hdrop : r.shouldDrop with
      | true =>
          have hskip : ¬ s.TakesData ⟨d, true⟩ := by simp [ServerSocket.TakesData]
          refine ⟨⟨s.buf.recvfrom d, s.server⟩, [], ?_, rfl, by simp⟩
          simp [ServerSocket.step, if_neg hskip, Server.step, hphase]
      | false =>
          obtain hdropped | ⟨hfin, hseq⟩ := hignored d hread
          · simp [hdrop] at hdropped
          · have htakes : s.TakesData ⟨d, false⟩ := ⟨hphase, rfl, hfin⟩
            refine ⟨⟨s.buf.recvfrom d, s.server⟩,
              [(r.source, Server.cumulativeAck s.server.reassembly)], ?_, rfl, by simp⟩
            simp [ServerSocket.step, if_pos htakes,
              ServerSocket.receiveData_of_ignored hseq]

theorem step_agree (chatMode : Bool) {s t : ServerProgram κ} (h : Agree s t)
    {r : ServerRead κ} (hwhole : ∀ d, r.datagram = some d → headerSize ≤ d.bytes.length) :
    Option.Rel (fun x y => Agree x.1 y.1 ∧ x.2 = y.2 ∧ ∀ p ∈ y.2, p.1 = r.source)
      (step chatMode (.recvfrom r) s) (step chatMode (.recvfrom r) t) := by
  cases h with
  | fileName buf serverSeq => exact .some ⟨.refl_recvName buf serverSeq r, rfl, by simp⟩
  | exited outname => exact .none
  | @transfer outname s t h =>
      simp only [step, recvTransfer]
      cases hread : r.datagram with
      | none =>
          simp only [ServerSocket.recvNothing, ← h]
          cases s.server.phase with
          | receiving => exact .some ⟨.transfer _ h, rfl, by simp⟩
          | finalAck => exact .some ⟨.transfer _ rfl, rfl, by simp⟩
          | closed => exact .none
      | some d =>
          have hlong := hwhole d hread
          simp only [ServerSocket.step_of_headerSize_le (a := ⟨d, r.shouldDrop⟩) hlong, ← h,
            Option.map_map]
          cases s.server.step ⟨d.packet, r.shouldDrop⟩ with
          | none => exact .none
          | some x => exact .some ⟨.transfer _ rfl, rfl, by simp⟩

theorem source_of_reply {chatMode : Bool} {r : ServerRead κ} {s s' : ServerProgram κ}
    {out : List (κ × Packet)} (h : step chatMode (.recvfrom r) s = some (s', out)) :
    ∀ p ∈ out, p.1 = r.source := by
  cases s with
  | handshake buf t =>
      have hreply : ∀ header t' out', t.step ⟨r.source, header, r.rand32⟩ = some (t', out') →
          ∀ p ∈ out', p.1 = r.source := by
        intro header t' out' hstep
        rcases Handshake.step_cases hstep with
          ⟨hdr, -, -, -, -, rfl⟩ | ⟨hdr, srvSeq, -, -, -, -, rfl⟩ | ⟨-, rfl, -⟩ <;> simp
      simp only [step, recvHandshake] at h
      split at h <;> obtain ⟨x, hx, heq⟩ := Option.map_eq_some_iff.mp h <;> cases heq
      · exact hreply _ _ _ hx
      · exact hreply _ _ _ hx
  | chat cliaddr c =>
      simp only [step, recvChat] at h
      split at h <;> obtain ⟨x, hx, heq⟩ := Option.map_eq_some_iff.mp h <;> cases heq <;> simp
  | fileName buf serverSeq =>
      cases h
      simp
  | transfer outname t =>
      simp only [step, recvTransfer] at h
      split at h <;> obtain ⟨x, hx, heq⟩ := Option.map_eq_some_iff.mp h <;> cases heq <;> simp
  | exited outname => simp [step] at h

/-! ## Sources replaced -/

def withSource (f : κ → κ) (r : ServerRead κ) : ServerRead κ := { r with source := f r.source }

/-- Only the address of the replies changes with the source. -/
theorem step_withSource (chatMode : Bool) (f : κ → κ) (r : ServerRead κ)
    {s : ServerProgram κ} (h : Agree s s) :
    step chatMode (.recvfrom (withSource f r)) s =
        (step chatMode (.recvfrom r) s).map (fun x => (x.1, x.2.map (Prod.map f id))) ∧
      ∀ s' out, step chatMode (.recvfrom r) s = some (s', out) → Agree s' s' := by
  cases h with
  | fileName buf serverSeq =>
      constructor
      · rfl
      · intro s' out hstep
        cases hstep
        exact .refl_recvName buf serverSeq r
  | exited outname => exact ⟨rfl, by simp [step]⟩
  | @transfer outname t _ h =>
      simp only [step, recvTransfer, withSource]
      cases r.datagram with
      | none =>
          constructor
          · simp only [Option.map_map]
            rfl
          · intro s' out hstep
            obtain ⟨x, -, heq⟩ := Option.map_eq_some_iff.mp hstep
            cases heq
            exact .transfer outname rfl
      | some d =>
          constructor
          · simp [Option.map_map, Function.comp_def]
          · intro s' out hstep
            obtain ⟨x, -, heq⟩ := Option.map_eq_some_iff.mp hstep
            cases heq
            exact .transfer outname rfl

theorem run_withSource (chatMode : Bool) (f : κ → κ) (reads : List (ServerRead κ))
    {s : ServerProgram κ} (h : Agree s s) :
    (machine chatMode).run ((reads.map (withSource f)).map .recvfrom) s =
      ((machine chatMode).run (reads.map .recvfrom) s).map
        fun x => (x.1, x.2.map (Prod.map f id)) := by
  induction reads generalizing s with
  | nil => rfl
  | cons r reads ih =>
      obtain ⟨hstep, hnext⟩ := step_withSource chatMode f r h
      simp only [List.map_cons, Mealy.run, machine, hstep]
      cases hone : step chatMode (.recvfrom r) s with
      | none => rfl
      | some x =>
          have hrest := ih (hnext x.1 x.2 hone)
          simp only [machine] at hrest
          simp only [Option.map_some, Option.bind_eq_bind, Option.bind_some, hrest]
          cases Mealy.run ⟨step chatMode⟩ (reads.map .recvfrom) x.1 <;> simp

/-! ## Foreign datagrams left out -/

variable [DecidableEq κ]

def isFrom (client : κ) : ServerInput κ → Bool
  | .recvfrom r => decide (r.source = client)
  | .select _ _ => true

theorem run_isFrom (chatMode : Bool) (client : κ) {inputs : List (ServerInput κ)}
    {s : ServerProgram κ} (h : Agree s s)
    (hguard : (machine chatMode).Guarded (Isolated client) inputs s) :
    Option.Rel (fun x y => Agree x.1 y.1 ∧
        (x.2.filter fun p => decide (p.1 = client)) = y.2)
      ((machine chatMode).run inputs s)
      ((machine chatMode).run (inputs.filter (isFrom client)) s) := by
  refine (machine chatMode).run_purge (isFrom client) _ ?_ ?_ h hguard
  · intro i s t hfrom hi hagree
    cases i with
    | select terminal socket => cases hagree <;> exact .none
    | recvfrom r =>
        have hsource : r.source = client := by simpa [isFrom] using hfrom
        have hrel := step_agree chatMode hagree (hi.1 hsource)
        simp only [machine]
        generalize step chatMode (.recvfrom r) s = x at hrel ⊢
        generalize step chatMode (.recvfrom r) t = y at hrel ⊢
        cases hrel with
        | none => exact .none
        | some hxy =>
            obtain ⟨hnext, hsame, hout⟩ := hxy
            refine .some ⟨hnext, ?_⟩
            rw [hsame, List.filter_eq_self]
            intro p hp
            simp [hout p hp, hsource]
  · intro i s t hfrom hi hagree
    cases i with
    | select terminal socket => simp [isFrom] at hfrom
    | recvfrom r =>
        have hsource : r.source ≠ client := by simpa [isFrom] using hfrom
        obtain ⟨outname, u, rfl, hignores⟩ := hi.2 hsource
        obtain ⟨u', out, hstep, hserver, hout⟩ := step_of_ignores chatMode outname hignores
        cases hagree with
        | transfer _ h =>
            refine ⟨_, out, hstep, .transfer outname (hserver.trans h), ?_⟩
            rw [List.filter_eq_nil_iff]
            intro p hp
            simp [hout p hp, hsource]

/--
From the file-name packet on, the run does not depend on the sources of what is
read, except that each reply goes to the source of what it answers.  Datagrams
of others that the receive loop ignores may be left out: the name, the bytes
written, `expected`, the phase and the replies to the client stay the same.
-/
theorem transfer_isolated (chatMode : Bool) (client : κ) (buf : RecvBuffer)
    (serverSeq : UInt32) {reads : List (ServerRead κ)}
    (h : (machine chatMode).Guarded (Isolated client) (reads.map .recvfrom)
      (.fileName buf serverSeq)) :
    ((machine chatMode).run (reads.map .recvfrom) (.fileName buf serverSeq)).map
        (fun x => (x.1.observed, x.2.filter fun p => decide (p.1 = client))) =
      ((machine chatMode).run
          ((reads.filter fun r => decide (r.source = client)).map .recvfrom)
          (.fileName buf serverSeq)).map (fun x => (x.1.observed, x.2)) ∧
    (∀ f : κ → κ,
      (machine chatMode).run ((reads.map (withSource f)).map .recvfrom)
          (.fileName buf serverSeq) =
        ((machine chatMode).run (reads.map .recvfrom) (.fileName buf serverSeq)).map
          fun x => (x.1, x.2.map (Prod.map f id))) ∧
    (∀ r (s s' : ServerProgram κ) out, step chatMode (.recvfrom r) s = some (s', out) →
      ∀ p ∈ out, p.1 = r.source) := by
  refine ⟨?_, fun f => run_withSource chatMode f reads (.fileName buf serverSeq),
    fun r s s' out => source_of_reply⟩
  have hrel := run_isFrom chatMode client (.fileName buf serverSeq) h
  have hfilter : (reads.map ServerInput.recvfrom).filter (isFrom client) =
      (reads.filter fun r => decide (r.source = client)).map .recvfrom := by
    rw [List.filter_map]
    rfl
  rw [hfilter] at hrel
  generalize (machine chatMode).run (reads.map .recvfrom) _ = x at hrel ⊢
  generalize (machine chatMode).run (List.map ServerInput.recvfrom _) _ = y at hrel ⊢
  cases hrel with
  | none => rfl
  | some hxy => simp [hxy.1.observed_eq, hxy.2]

/-- The client at address 1 names the file; what comes from address 2 is foreign. -/
def nameRead : ServerRead Nat := ⟨1, some nameDatagram, 0, false, true⟩

def foreignData : ServerRead Nat :=
  ⟨2, some ((⟨{ seqNum := 101 }, [66]⟩ : Packet).datagram (Nat.le_of_ble_eq_true rfl)), 0,
    false, true⟩

def foreignFin : ServerRead Nat :=
  ⟨2, some ((⟨{ seqNum := 0, flags := shamFin }, []⟩ : Packet).datagram (Nat.zero_le _)), 0,
    false, true⟩

def foreignOld : ServerRead Nat :=
  ⟨2, some ((⟨{ seqNum := 7 }, []⟩ : Packet).datagram (Nat.zero_le _)), 0, false, true⟩

theorem transfer_isolated_foreignOld :
    ((machine false).run ([nameRead, foreignOld].map .recvfrom)
        (.fileName zeroBuffer 900)).map
        (fun x => (x.1.observed, x.2.filter fun p => decide (p.1 = 1))) =
      ((machine false).run
          (([nameRead, foreignOld].filter fun r => decide (r.source = 1)).map .recvfrom)
          (.fileName zeroBuffer 900)).map (fun x => (x.1.observed, x.2)) := by
  have hignores : afterName.Ignores foreignOld := by
    refine ⟨rfl, ?_⟩
    intro d hd
    cases hd
    exact .inr ⟨by decide +kernel, .inl (by decide +kernel)⟩
  refine (transfer_isolated false 1 zeroBuffer 900 ?_).1
  refine ⟨⟨?_, fun hne => absurd rfl hne⟩, ?_⟩
  · intro _ d hd
    cases hd
    decide
  · intro s' out hstep
    simp only [machine, step, recvName, nameRead, receiveName_nameDatagram, Option.some.injEq,
      Prod.mk.injEq] at hstep
    obtain ⟨rfl, -⟩ := hstep
    refine ⟨⟨fun hone => absurd hone (by decide), ?_⟩, fun _ _ _ => trivial⟩
    exact fun _ => ⟨[111], afterName, rfl, hignores⟩

theorem foreignData_written :
    ((machine false).run ([nameRead, foreignData, foreignFin].map .recvfrom)
        (.fileName zeroBuffer 900)).map (fun x => (x.1.observed.2.map fun s =>
          (s.phase, s.reassembly.expected, s.reassembly.out))) =
      some (some (.finalAck, 102, [66])) ∧
    ((machine false).run
        (([nameRead, foreignData, foreignFin].filter fun r => decide (r.source = 1)).map
          .recvfrom)
        (.fileName zeroBuffer 900)).map (fun x => (x.1.observed.2.map fun s =>
          (s.phase, s.reassembly.expected, s.reassembly.out))) =
      some (some (.receiving, 101, [])) := by
  constructor <;> decide +kernel

end ServerProgram

end OxyC.Networking
