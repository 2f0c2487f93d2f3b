import OxyC.Cshark.FieldRanges
import OxyC.Cshark.HexColumns

/-!
# Reading the detailed view back

The hexadecimal digits that `layer_by_layer` prints, read back as bytes.  Under
each label stand the bytes of its range, and where the labels leave nothing out
the view shows the frame from its first byte on.
-/

namespace OxyC.Cshark

open OxyC.Foundation

/-! ## A reader for the view -/

def Blank (c : Char) : Prop := c = ' ' ∨ c = '\n'

instance (c : Char) : Decidable (Blank c) := inferInstanceAs (Decidable (_ ∨ _))

/-- The pairs of digits up to the first other text, whatever blanks stand between them. -/
def hexPairs : Text → List UInt8
  | high :: low :: rest =>
      if Blank high then hexPairs (low :: rest)
      else match columnByte [high, low, ' '] with
        | some b => b :: hexPairs rest
        | none => []
  | _ => []

/-- A dump, with or without the title and the offsets of `print_full_hexdump`. -/
def dumpBytes : List Text → List UInt8
  | [] :: _ :: lines => lines.flatMap fun line => hexColumns (dropOffset line)
  | lines => lines.flatMap hexColumns

/-- The bytes that a part of the view shows. -/
def Item.shown : Item → List UInt8
  | .fieldBytes _ _ _ _ slice => hexPairs slice
  | .dump _ _ lines => dumpBytes lines
  | _ => []

section Pairs

variable {bytes : List UInt8} {b : UInt8} {text tail : Text} {sep brk : Nat → Text}

theorem hexPairs_blank {c : Char} (h : Blank c) : hexPairs (c :: text) = hexPairs text := by
  cases text with
  | nil => rfl
  | cons d text => rw [hexPairs, if_pos h]

theorem hexPairs_append {blanks : Text} (h : ∀ c ∈ blanks, Blank c) :
    hexPairs (blanks ++ text) = hexPairs text := by
  induction blanks with
  | nil => rfl
  | cons c blanks ih =>
      obtain ⟨hc, hrest⟩ := List.forall_mem_cons.mp h
      rw [List.cons_append, hexPairs_blank hc, ih hrest]

theorem not_blank_hexDigit {n : Nat} (h : n < 16) : ¬ Blank (hexDigit n) := by
  have hall : (List.range 16).all (fun n => decide (¬ Blank (hexDigit n))) = true := by decide
  rw [List.all_eq_true] at hall
  exact of_decide_eq_true (hall n (List.mem_range.mpr h))

theorem hexPairs_hexByte : hexPairs (hexByte b ++ text) = b :: hexPairs text := by
  have hlt := b.toNat_lt
  have hpair : columnByte [hexDigit (b.toNat / 16), hexDigit (b.toNat % 16), ' '] = some b :=
    columnByte_hexByte b
  have hhigh : ¬ Blank (hexDigit (b.toNat / 16)) := not_blank_hexDigit (by omega)
  simp only [hexByte, List.cons_append, List.nil_append, hexPairs, hhigh, if_false, hpair]

/-- The text is empty or starts with a blank. -/
def StartsBlank (text : Text) : Prop := ∀ c ∈ text.head?, Blank c

theorem startsBlank_append {blanks : Text} (h : ∀ c ∈ blanks, Blank c) (htext : StartsBlank text) :
    StartsBlank (blanks ++ text) := by
  cases blanks with
  | nil => exact htext
  | cons d blanks =>
      intro c hc
      cases hc
      exact h d List.mem_cons_self

theorem hexPairs_stop {c : Char} (hc : ¬ Blank c)
    (hnone : ∀ d ∈ text.head?, columnByte [c, d, ' '] = none) : hexPairs (c :: text) = [] := by
  cases text with
  | nil => rfl
  | cons d text => rw [hexPairs, if_neg hc, hnone d rfl]

theorem hexPairs_other {c : Char} (hc : ¬ Blank c) (hdigit : digitValue c = none) :
    hexPairs (c :: text) = [] := by
  refine hexPairs_stop hc fun d _ => ?_
  rw [columnByte, hdigit]
  rfl

/-- One character on its own ends the reading. -/
theorem hexPairs_single {c : Char} (hc : ¬ Blank c) (htext : StartsBlank text) :
    hexPairs (c :: text) = [] := by
  refine hexPairs_stop hc fun d hd => ?_
  have hdigit : digitValue d = none := by
    rcases htext d hd with rfl | rfl <;> rfl
  rw [columnByte, hdigit]
  cases digitValue c <;> rfl

/-- The digits of a field, with blanks behind each byte. -/
theorem hexPairs_digits (hsep : ∀ i, ∀ c ∈ sep i, Blank c) :
    hexPairs ((bytes.mapIdx fun i b => hexByte b ++ sep i).flatten ++ tail) =
      bytes ++ hexPairs tail := by
  induction bytes generalizing sep with
  | nil => rfl
  | cons b bytes ih =>
      have hrest := @ih (fun i => sep (i + 1)) fun i => hsep (i + 1)
      rw [List.mapIdx_cons, List.flatten_cons, List.append_assoc, List.append_assoc,
        hexPairs_hexByte, hexPairs_append (hsep 0), hrest]
      rfl

theorem startsBlank_ascii :
    StartsBlank ((bytes.mapIdx fun i b => [' ', printable b] ++ brk i).flatten ++ ['\n']) := by
  cases bytes with
  | nil =>
      intro c hc
      cases hc
      exact .inr rfl
  | cons b bytes =>
      intro c hc
      rw [List.mapIdx_cons] at hc
      cases hc
      exact .inl rfl

/-- The printable characters of a field stand apart, so that no two of them are a byte. -/
theorem hexPairs_ascii (hbrk : ∀ i, ∀ c ∈ brk i, Blank c) :
    hexPairs ((bytes.mapIdx fun i b => [' ', printable b] ++ brk i).flatten ++ ['\n']) = [] := by
  induction bytes generalizing brk with
  | nil => rfl
  | cons b bytes ih =>
      have hrest := @ih (fun i => brk (i + 1)) fun i => hbrk (i + 1)
      rw [List.mapIdx_cons, List.flatten_cons, List.append_assoc, List.append_assoc,
        List.cons_append, hexPairs_blank (.inl rfl), List.cons_append, List.nil_append]
      by_cases hblank : Blank (printable b)
      · rw [hexPairs_blank hblank, hexPairs_append (hbrk 0), hrest]
      · exact hexPairs_single hblank (startsBlank_append (hbrk 0) startsBlank_ascii)

end Pairs

/-! ## What a field shows -/

section Fields

variable {b : List UInt8} {first last : Int} {text : Text}

theorem blank_fieldIndent : ∀ c ∈ fieldIndent, Blank c := fun _ hc =>
  .inl (List.eq_of_mem_replicate hc)

theorem blank_groupBreak {i : Nat} {toPrint : Int} : ∀ c ∈ groupBreak i toPrint, Blank c := by
  unfold groupBreak
  split
  · exact List.forall_mem_cons.mpr ⟨.inr rfl, blank_fieldIndent⟩
  · simp

theorem blank_separator {i : Nat} {toPrint : Int} :
    ∀ c ∈ (if (i + 1 : Int) < toPrint then [' '] else []) ++ groupBreak i toPrint, Blank c := by
  rw [List.forall_mem_append]
  refine ⟨?_, blank_groupBreak⟩
  split
  · exact List.forall_mem_singleton.mpr (.inl rfl)
  · simp

theorem readRow_packet {n : Nat} (hfirst : 0 ≤ first) (hn : first + n ≤ b.length) :
    readRow (packet b) first (List.range n) = some ((b.drop first.toNat).take n) := by
  have hbytes := Pointer.bytes_of_inside (inside_packet rfl hfirst hn)
  rw [Int.zero_add] at hbytes
  exact hbytes

/-- At most `maxFieldDisplay` bytes of a field are shown. -/
theorem hexPairs_slice (hfirst : 0 ≤ first) (hstart : first < b.length) (hlast : last < b.length)
    (h : printHexAsciiSlice (packet b) b.length first last = some text) :
    hexPairs text = (part b (first, last)).take maxFieldDisplay.toNat := by
  unfold printHexAsciiSlice at h
  rw [if_neg (by omega), if_neg (by omega)] at h
  extract_lets stop total toPrint more at h
  have hrow : readRow (packet b) first (List.range toPrint.toNat) =
      some ((part b (first, last)).take maxFieldDisplay.toNat) := by
    have hcount : toPrint.toNat = min maxFieldDisplay.toNat (last + 1 - first).toNat := by
      unfold toPrint total stop maxFieldDisplay
      split <;> omega
    have hn : first + toPrint.toNat ≤ b.length := by
      omega
    rw [readRow_packet hfirst hn, part, List.take_take, hcount]
  generalize hbytes : (part b (first, last)).take maxFieldDisplay.toNat = bytes at hrow ⊢
  simp only [hrow, Option.bind_eq_bind, Option.bind_some, Option.pure_def, List.append_assoc] at h
  -- Neither the dots of a field that is cut short nor the bracket of a short one starts a byte.
  have hdots : ∀ rest, hexPairs (" ...".toList ++ rest) = [] := fun rest => by
    rw [show " ...".toList = ' ' :: '.' :: ['.', '.'] from rfl, List.cons_append,
      hexPairs_blank (.inl rfl)]
    exact hexPairs_other (by decide) rfl
  have hbehind : ∀ rest, hexPairs rest = [] → hexPairs (more ++ rest) = [] := by
    intro rest hrest
    unfold more
    split
    · exact hdots rest
    · exact hrest
  split at h
  case isTrue hshort =>
    cases h
    rw [hexPairs_append blank_fieldIndent, hexPairs_digits fun _ => blank_separator,
      hbehind, List.append_nil]
    rw [show "  (".toList = ' ' :: ' ' :: ['('] from rfl, List.cons_append,
      hexPairs_blank (.inl rfl), List.cons_append, hexPairs_blank (.inl rfl)]
    exact hexPairs_other (by decide) rfl
  case isFalse hlong =>
    cases h
    rw [hexPairs_append blank_fieldIndent, hexPairs_digits fun _ => blank_separator]
    unfold more
    split
    · rw [hdots, List.append_nil]
    · rw [List.nil_append, List.nil_append, List.cons_append, hexPairs_blank (.inr rfl),
        List.nil_append, hexPairs_append blank_fieldIndent,
        hexPairs_ascii fun _ => blank_groupBreak, List.append_nil]

end Fields

/-! ## What a dump shows -/

section Dumps

variable {data : Pointer} {bytes : List UInt8} {lines : List Text}

theorem flatMap_dataLine :
    (List.range (rows bytes.length)).flatMap (fun k => hexColumns (dataLine (rowOf bytes k))) =
      bytes := by
  have hcolumns : ∀ k, hexColumns (dataLine (rowOf bytes k)) = rowOf bytes k := fun k =>
    hexColumns_dataLine (List.length_take_le _ _)
  simp only [hcolumns, flatMap_rowOf]
  apply List.take_of_length_le
  unfold rows
  omega

theorem dumpBytes_titled {title : Text} :
    dumpBytes ([[], title] ++ lines ++ [[]]) =
      lines.flatMap fun line => hexColumns (dropOffset line) := by
  have hlast : dumpBytes ([[], title] ++ lines ++ [[]]) =
      (lines ++ [[]]).flatMap fun line => hexColumns (dropOffset line) := rfl
  rw [hlast, List.flatMap_append]
  exact List.append_nil _

/-- Whenever `print_full_hexdump` returns, what it printed shows its bytes. -/
theorem dumpBytes_printFullHexdump (hbytes : data.bytes 0 bytes.length = some bytes)
    (hoffset : data.offset < 2147483648)
    (h : printFullHexdump data bytes.length = some lines) : dumpBytes lines = bytes := by
  -- With more bytes the index wraps around and the dump reads in front of its data.
  have hlen : (bytes.length : Int) ≤ 2147483632 := by
    by_contra hlong
    rw [printFullHexdump_eq_none (by omega) hoffset] at h
    cases h
  have hlines : countedLoop (fullHexdumpLine data bytes.length) bytes.length 16 maxPasses 0 =
      some ((List.range (rows bytes.length)).map fun k : Nat =>
        hexInt (16 * k) ++ [' ', ' '] ++ dataLine (rowOf bytes k)) := by
    rw [countedLoop_eq (passes_rows hlen) (by decide) (rows_lt_maxPasses hlen)]
    refine mapM_of_forall fun k hk => ?_
    have hrow := List.mem_range.mp hk
    unfold rows at hrow
    rw [Int.zero_add]
    exact fullHexdumpLine_eq hbytes (by omega)
  rw [printFullHexdump, hlines] at h
  cases h
  have hcolumns : ∀ k : Nat, hexColumns (dropOffset (hexInt (16 * k) ++ [' ', ' '] ++
      dataLine (rowOf bytes k))) = hexColumns (dataLine (rowOf bytes k)) := fun k => by
    rw [dropOffset_append]
  rw [dumpBytes_titled, List.flatMap_map]
  simp only [hcolumns, flatMap_dataLine]

theorem dumpBytes_of_ne_nil (h : ∀ line ∈ lines, line ≠ []) :
    dumpBytes lines = lines.flatMap hexColumns := by
  cases lines with
  | nil => rfl
  | cons line lines =>
      cases line with
      | nil => exact absurd rfl (h [] List.mem_cons_self)
      | cons c line => rfl

theorem dumpBytes_printHexAscii (hbytes : data.bytes 0 bytes.length = some bytes)
    (hlen : (bytes.length : Int) < intMax - 16)
    (h : printHexAscii data bytes.length intMax = some lines) : dumpBytes lines = bytes := by
  have hmin : (if (bytes.length : Int) < intMax then (bytes.length : Int) else intMax) =
      bytes.length := if_pos (by omega)
  rw [printHexAscii] at h
  simp only [hmin, mapM_rows hlen fun k hk => hexAsciiLine_eq hbytes hk, Option.some.injEq] at h
  subst h
  have hline : ∀ line ∈ (List.range (rows bytes.length)).map fun k => dataLine (rowOf bytes k),
      line ≠ [] := by
    intro line hmem
    obtain ⟨k, -, rfl⟩ := List.mem_map.mp hmem
    simp [dataLine]
  rw [dumpBytes_of_ne_nil hline, List.flatMap_map, flatMap_dataLine]

end Dumps

/-! ## What stands under a label -/

section Labels

variable (b : List UInt8)

/-- The network layers that `layer_by_layer` takes apart. -/
def Known : Prop :=
  etherType b = ethertypeIp ∨ etherType b = ethertypeIpv6 ∨ etherType b = ethertypeArp

instance : Decidable (Known b) := inferInstanceAs (Decidable (_ ∨ _))

/-- What a label shows of its range: everything, but of an unknown protocol the first bytes only. -/
def labelled (r : Int × Int) : List UInt8 :=
  if Known b then part b r else (part b r).take maxFieldDisplay.toNat

/-- The bytes that are printed under a label are those that the label names. -/
def Faithful (item : Item) : Prop := item.shown = item.range.toList.flatMap (labelled b)

end Labels

/-- What is printed by a computation that returns. -/
def Prints (P : Item → Prop) (x : Option (List Item)) : Prop :=
  ∀ items, x = some items → ∀ item ∈ items, P item

section Prints

variable {α : Type} {P : Item → Prop} {items : List Item} {x : Option α}
  {f : α → Option (List Item)}

theorem Prints.pure (h : ∀ item ∈ items, P item) : Prints P (some items) := by
  intro _ hsome
  cases hsome
  exact h

theorem Prints.bind (h : ∀ a, x = some a → Prints P (f a)) : Prints P (x >>= f) := by
  intro items hitems
  obtain ⟨a, ha, hf⟩ := Option.bind_eq_some_iff.mp hitems
  exact h a ha items hf

theorem Prints.fieldIf {c : Bool} {field : Option Item} (h : c = true → ∀ item, field = some item →
    P item) : Prints P (fieldIf c field) := by
  intro items hitems
  unfold Cshark.fieldIf at hitems
  split at hitems
  case isTrue hc =>
    obtain ⟨item, hitem, rfl⟩ := Option.map_eq_some_iff.mp hitems
    simpa using h hc item hitem
  case isFalse =>
    cases hitems
    simp

end Prints

section Faithful

variable {b : List UInt8} {items : List Item} {item : Item}

theorem labelled_of_known (h : Known b) (r : Int × Int) : labelled b r = part b r := if_pos h

theorem take_part {first last : Int} (h : last < first + 256) :
    (part b (first, last)).take maxFieldDisplay.toNat = part b (first, last) := by
  apply List.take_of_length_le
  rw [part, List.length_take, maxFieldDisplay]
  omega

theorem labelled_of_short {first last : Int} (h : last < first + 256) :
    labelled b (first, last) = part b (first, last) := by
  rw [labelled, take_part h, ite_self]

theorem flatMap_shown (h : ∀ item ∈ items, Faithful b item) :
    items.flatMap Item.shown = (ranges items).flatMap (labelled b) := by
  induction items with
  | nil => rfl
  | cons item items ih =>
      obtain ⟨hitem, hrest⟩ := List.forall_mem_cons.mp h
      rw [List.flatMap_cons, ih hrest, ranges_cons, List.flatMap_append, ← hitem]

theorem faithful_layer {name description : String} : Faithful b (.layer name description) := rfl

theorem faithful_printf {format : String} {args : List Arg} : Faithful b (printf format args) := rfl

theorem faithful_banner {plen : Int} : ∀ item ∈ banner plen, Faithful b item := by
  simp only [banner, List.forall_mem_cons, List.not_mem_nil, false_implies, implies_true, and_true]
  exact ⟨rfl, rfl, rfl, rfl, rfl⟩

theorem faithful_endOfAnalysis : ∀ item ∈ endOfAnalysis, Faithful b item := by
  simp only [endOfAnalysis, List.forall_mem_cons, List.not_mem_nil, false_implies, implies_true,
    and_true]
  exact ⟨rfl, rfl, rfl, rfl, rfl⟩

theorem faithful_field {name : String} {first last : Int} {extra : Formatted} (hfirst : 0 ≤ first)
    (hshort : Known b → last < first + 256)
    (h : printFieldBytes name (packet b) b.length first last extra = some item) :
    Faithful b item := by
  unfold printFieldBytes at h
  split at h
  case isTrue hbound =>
    cases h
    rfl
  case isFalse hbound =>
    obtain ⟨slice, hslice, hitem⟩ := Option.bind_eq_some_iff.mp h
    cases hitem
    generalize hstop : (if last ≥ b.length then (b.length : Int) - 1 else last) = stop at hslice ⊢
    have hshown := hexPairs_slice hfirst (by omega) (by split at hstop <;> omega) hslice
    refine hshown.trans ?_
    rw [Item.range, Option.toList_some, List.flatMap_singleton, labelled]
    split
    case isTrue hknown =>
      have hfits := hshort hknown
      exact take_part (by split at hstop <;> omega)
    case isFalse => rfl

/-- A payload is dumped from its first byte to the end of the frame. -/
theorem faithful_payload {title : String} {dump : Pointer → Int → Option (List Text)}
    {payloadOff : Int} (hknown : Known b) (hoff : 0 ≤ payloadOff)
    (hdump : payloadOff < b.length → ∀ lines, dump ((packet b).add payloadOff)
      (b.length - payloadOff) = some lines → dumpBytes lines = b.drop payloadOff.toNat) :
    Prints (Faithful b) (payloadLayer title dump (packet b) b.length payloadOff) := by
  unfold payloadLayer
  split
  case isTrue hmore =>
    have hpos : (b.length : Int) - payloadOff > 0 := by omega
    simp only [hpos, if_true]
    refine .bind fun lines hlines => .pure ?_
    simp only [List.forall_mem_cons, List.not_mem_nil, false_implies, implies_true, and_true]
    refine ⟨faithful_layer, faithful_printf, ?_, faithful_printf⟩
    refine (hdump hmore lines hlines).trans ?_
    rw [Item.range, Option.toList_some, List.flatMap_singleton, labelled_of_known hknown, part,
      List.take_of_length_le]
    rw [List.length_drop]
    simp only
    omega
  case isFalse => exact .pure (by simp)

theorem bytes_packet_add {off : Int} (hoff : 0 ≤ off) (hlt : off < b.length) :
    ((packet b).add off).bytes 0 (b.drop off.toNat).length = some (b.drop off.toNat) ∧
      (b.length : Int) - off = (b.drop off.toNat).length := by
  have hlength : (b.length : Int) - off = (b.drop off.toNat).length := by
    rw [List.length_drop]
    omega
  have hinside : ((packet b).add off).Inside 0 (b.drop off.toNat).length := by
    rw [Pointer.inside_add]
    exact inside_packet rfl (by omega) (by omega)
  refine ⟨(Pointer.bytes_of_inside hinside).trans ?_, hlength⟩
  have hstart : (((packet b).add off).offset + 0).toNat = off.toNat := by
    simp only [Pointer.add]
    omega
  rw [hstart]
  exact congrArg some (List.take_length ..)

theorem dumpBytes_full {off : Int} {lines : List Text} (hfits : (b.length : Int) ≤ intMax)
    (hoff : 0 ≤ off) (hlt : off < b.length)
    (h : printFullHexdump ((packet b).add off) (b.length - off) = some lines) :
    dumpBytes lines = b.drop off.toNat := by
  obtain ⟨hbytes, hlength⟩ := bytes_packet_add hoff hlt
  rw [hlength] at h
  refine dumpBytes_printFullHexdump hbytes ?_ h
  simp only [Pointer.add]
  unfold intMax at hfits
  omega

theorem dumpBytes_ascii {off : Int} {lines : List Text} (hfits : (b.length : Int) ≤ intMax)
    (hoff : 16 < off) (hlt : off < b.length)
    (h : printHexAscii ((packet b).add off) (b.length - off) intMax = some lines) :
    dumpBytes lines = b.drop off.toNat := by
  obtain ⟨hbytes, hlength⟩ := bytes_packet_add (by omega) hlt
  rw [hlength] at h
  exact dumpBytes_printHexAscii hbytes (by omega) h

end Faithful

section Layers

variable {b : List UInt8} {start proto : Nat}

theorem faithful_tcpLayer {title control payloadTitle : String} (hknown : Known b)
    (hfits : (b.length : Int) ≤ intMax) (hend : start + 20 ≤ b.length) :
    Prints (Faithful b) (tcpLayer title control payloadTitle (packet b) b.length start) := by
  intro items h
  obtain ⟨ports, seqField, ackField, controlField, checksumField, options, payload, rfl, hports,
    ⟨_, hseq⟩, ⟨_, hack⟩, ⟨_, hcontrol⟩, ⟨_, hchecksum⟩, hoptions, hpayload⟩ :=
    tcpLayer_eq_some hend h
  have hhdr : transportHeaderLen b start ipprotoTcp ≤ 60 := by
    have hlt := (b.getD (start + 12) 0).toNat_lt
    rw [transportHeaderLen, if_pos rfl]
    omega
  have hfields : ∀ item ∈ [.layer "LAYER 4" title, ports, seqField, ackField, controlField,
      checksumField], Faithful b item := by
    simp only [List.forall_mem_cons, List.not_mem_nil, false_implies, implies_true, and_true]
    exact ⟨faithful_layer, faithful_field (by omega) (by omega) hports,
      faithful_field (by omega) (by omega) hseq, faithful_field (by omega) (by omega) hack,
      faithful_field (by omega) (by omega) hcontrol, faithful_field (by omega) (by omega) hchecksum⟩
  rw [List.forall_mem_append, List.forall_mem_append]
  refine ⟨⟨hfields, ?_⟩, ?_⟩
  · exact Prints.fieldIf (fun _ item hitem => faithful_field (by omega) (by omega) hitem) _ hoptions
  · exact faithful_payload hknown (by omega)
      (fun hlt lines hlines => dumpBytes_full hfits (by omega) hlt hlines) _ hpayload

theorem faithful_udpLayer {title payloadTitle : String}
    {dump : Pointer → Int → Option (List Text)} (hknown : Known b) (hend : start + 8 ≤ b.length)
    (hdump : (start + 8 : Int) < b.length → ∀ lines, dump ((packet b).add (start + 8))
      (b.length - (start + 8)) = some lines → dumpBytes lines = b.drop (start + 8 : Int).toNat) :
    Prints (Faithful b) (udpLayer title payloadTitle dump (packet b) b.length start) := by
  intro items h
  obtain ⟨ulen, chksum, header, payload, rfl, hheader, hpayload⟩ := udpLayer_eq_some hend h
  rw [List.forall_mem_append]
  refine ⟨?_, faithful_payload hknown (by omega) hdump _ hpayload⟩
  simp only [List.forall_mem_cons, List.not_mem_nil, false_implies, implies_true, and_true]
  exact ⟨faithful_layer, faithful_field (by omega) (by omega) hheader⟩

/-- Both network layers choose the transport layer in this way. -/
theorem faithful_transport {tcp udp : Option (List Item)}
    (htcp : start + 20 ≤ b.length → Prints (Faithful b) tcp)
    (hudp : start + 8 ≤ b.length → Prints (Faithful b) udp) :
    Prints (Faithful b) (if proto = ipprotoTcp ∧ (start : Int) + 20 ≤ b.length then tcp
      else if proto = ipprotoUdp ∧ (start : Int) + 8 ≤ b.length then udp
      else some []) := by
  split
  case isTrue => exact htcp (by omega)
  case isFalse =>
    split
    case isTrue => exact hudp (by omega)
    case isFalse => exact .pure (by simp)

theorem faithful_transportIpv4 (hknown : Known b) (hfits : (b.length : Int) ≤ intMax)
    (hstart : 14 ≤ start) :
    Prints (Faithful b) (transportIpv4 proto (packet b) b.length start) :=
  faithful_transport (faithful_tcpLayer hknown hfits) fun hend =>
    faithful_udpLayer hknown hend fun hlt _ hlines => dumpBytes_ascii hfits (by omega) hlt hlines

theorem faithful_transportIpv6 (hknown : Known b) (hfits : (b.length : Int) ≤ intMax) :
    Prints (Faithful b) (transportIpv6 proto (packet b) b.length start) :=
  faithful_transport (faithful_tcpLayer hknown hfits) fun hend =>
    faithful_udpLayer hknown hend fun hlt _ hlines => dumpBytes_full hfits (by omega) hlt hlines

theorem faithful_truncated {name description text : String} :
    Prints (Faithful b) (some [.layer name description, printf text []]) := by
  refine .pure ?_
  simp only [List.forall_mem_cons, List.not_mem_nil, false_implies, implies_true, and_true]
  exact ⟨faithful_layer, faithful_printf⟩

theorem faithful_ipv4Layer (hknown : Known b) (hfits : (b.length : Int) ≤ intMax) :
    Prints (Faithful b) (ipv4Layer (packet b) b.length) := by
  unfold ipv4Layer
  extract_lets title ipOff
  have hoff : ipOff = 14 := rfl
  clear_value ipOff
  subst hoff
  split
  case isTrue => exact faithful_truncated
  case isFalse =>
    refine .bind fun verIhl _ => .bind fun tos _ => .bind fun totlen _ => .bind fun id _ =>
      .bind fun frag _ => .bind fun ttl _ => .bind fun proto _ => .bind fun checksum _ =>
      .bind fun srcip _ => .bind fun dstip _ => .bind fun versionField hversion =>
      .bind fun idField hid => .bind fun ttlField httl => .bind fun src hsrc =>
      .bind fun dst hdst => .bind fun options hoptions => .bind fun transport htransport => .pure ?_
    have hoptional : ∀ item ∈ options, Faithful b item :=
      Prints.fieldIf (fun _ item hitem => faithful_field (by omega) (by omega) hitem) _ hoptions
    have hstart : 14 ≤ 14 + verIhl % 16 * 4 := by omega
    have hl4 : ∀ item ∈ transport, Faithful b item :=
      faithful_transportIpv4 hknown hfits hstart _ htransport
    simp only [List.forall_mem_append, List.forall_mem_cons, List.not_mem_nil, false_implies,
      implies_true, and_true]
    exact ⟨⟨⟨⟨faithful_layer, faithful_field (by decide) (by omega) hversion,
      faithful_field (by decide) (by omega) hid, faithful_field (by decide) (by omega) httl,
      faithful_field (by decide) (by omega) hsrc, faithful_field (by decide) (by omega) hdst⟩,
      hoptional⟩, hl4⟩, faithful_endOfAnalysis⟩

theorem faithful_ipv6Layer (hknown : Known b) (hfits : (b.length : Int) ≤ intMax) :
    Prints (Faithful b) (ipv6Layer (packet b) b.length) := by
  unfold ipv6Layer
  extract_lets title ip6Off
  have hoff : ip6Off = 14 := rfl
  clear_value ip6Off
  subst hoff
  split
  case isTrue => exact faithful_truncated
  case isFalse =>
    refine .bind fun vtf _ => .bind fun versionField hversion => .bind fun payloadLen _ =>
      .bind fun nextHdr _ => .bind fun hop _ => .bind fun nextField hnext => .bind fun srcbuf _ =>
      .bind fun dstbuf _ => .bind fun src hsrc => .bind fun dst hdst =>
      .bind fun transport htransport => .pure ?_
    have hl4 : ∀ item ∈ transport, Faithful b item :=
      @faithful_transportIpv6 b 54 nextHdr hknown hfits _ htransport
    simp only [List.forall_mem_append, List.forall_mem_cons, List.not_mem_nil, false_implies,
      implies_true, and_true]
    exact ⟨⟨⟨faithful_layer, faithful_field (by decide) (by omega) hversion,
      faithful_field (by decide) (by omega) hnext, faithful_field (by decide) (by omega) hsrc,
      faithful_field (by decide) (by omega) hdst⟩, hl4⟩, faithful_endOfAnalysis⟩

theorem faithful_arpLayer : Prints (Faithful b) (arpLayer (packet b) b.length) := by
  unfold arpLayer
  extract_lets title arpOff
  have hoff : arpOff = 14 := rfl
  clear_value arpOff
  subst hoff
  split
  case isTrue => exact faithful_truncated
  case isFalse =>
    refine .bind fun htype _ => .bind fun ptype _ => .bind fun op _ =>
      .bind fun header hheader => .pure ?_
    simp only [List.forall_mem_append, List.forall_mem_cons, List.not_mem_nil, false_implies,
      implies_true, and_true]
    exact ⟨⟨faithful_layer, faithful_field (by decide) (by omega) hheader⟩,
      faithful_endOfAnalysis⟩

theorem faithful_unknownLayer {ethertype : Nat} (hunknown : ¬ Known b) :
    Prints (Faithful b) (unknownLayer ethertype (packet b) b.length) := by
  unfold unknownLayer
  refine .bind fun data hdata => .pure ?_
  simp only [List.forall_mem_append, List.forall_mem_cons, List.not_mem_nil, false_implies,
    implies_true, and_true]
  exact ⟨⟨faithful_layer, faithful_field (by decide) (fun hknown => absurd hknown hunknown) hdata⟩,
    faithful_endOfAnalysis⟩

theorem faithful_networkLayer (hfits : (b.length : Int) ≤ intMax) :
    Prints (Faithful b) (networkLayer (etherType b) (packet b) b.length) := by
  unfold networkLayer
  split
  case isTrue hip => exact faithful_ipv4Layer (.inl hip) hfits
  case isFalse hip =>
    split
    case isTrue hip6 => exact faithful_ipv6Layer (.inr (.inl hip6)) hfits
    case isFalse hip6 =>
      split
      case isTrue => exact faithful_arpLayer
      case isFalse harp =>
        refine faithful_unknownLayer ?_
        rintro (hyes | hyes | hyes)
        · exact hip hyes
        · exact hip6 hyes
        · exact harp hyes

theorem faithful_ethernetLayer (hfits : (b.length : Int) ≤ intMax) (hlong : 14 ≤ b.length) :
    Prints (Faithful b) (ethernetLayer (packet b) b.length) := by
  have htype : getU16Be (packet b) 12 b.length = some (etherType b) :=
    @getU16Be_packet b 12 (by omega)
  unfold ethernetLayer
  refine .bind fun dhost _ => .bind fun dst hdst => .bind fun shost _ => .bind fun src hsrc =>
    .bind fun ethertype hvalue => .bind fun typeField htypeField =>
    .bind fun network hnetwork => .pure ?_
  obtain rfl := Option.some.inj (htype.symm.trans hvalue)
  simp only [List.forall_mem_append, List.forall_mem_cons, List.not_mem_nil, false_implies,
    implies_true, and_true]
  exact ⟨⟨faithful_layer, faithful_field (by decide) (by omega) hdst,
    faithful_field (by decide) (by omega) hsrc, faithful_field (by decide) (by omega) htypeField⟩,
    faithful_networkLayer hfits _ hnetwork⟩

/-- Whatever the headers say, each label tells the truth. -/
theorem faithful_layerByLayer (hfits : (b.length : Int) ≤ intMax) :
    Prints (Faithful b) (layerByLayer (some b) b.length) := by
  unfold layerByLayer
  simp only
  split
  case isTrue =>
    refine .pure ?_
    simp [faithful_printf]
  case isFalse =>
    split
    case isTrue hshort =>
      unfold ethHdrLen at hshort
      refine .bind fun raw hraw => .pure ?_
      simp only [List.forall_mem_append, List.forall_mem_cons, List.not_mem_nil, false_implies,
        implies_true, and_true]
      exact ⟨faithful_banner, faithful_printf, faithful_field (by omega) (by omega) hraw⟩
    case isFalse hlong =>
      unfold ethHdrLen at hlong
      refine .bind fun layers hlayers => .pure ?_
      rw [List.forall_mem_append]
      exact ⟨faithful_banner, faithful_ethernetLayer hfits (by omega) _ hlayers⟩

end Layers

/-! ## Where the labels stop -/

instance (b : List UInt8) : Decidable (TransportPrinted b) :=
  inferInstanceAs (Decidable (_ ∨ _))

/-- The number of bytes that stand under labels if no header is shorter than its fields. -/
def shownEnd (b : List UInt8) : Nat :=
  if b.length < 14 then b.length
  else if etherType b = ethertypeIp then
    if b.length < 34 then 14
    else if TransportPrinted b then b.length
    else min (max 34 (transportStart b)) b.length
  else if etherType b = ethertypeIpv6 then
    if b.length < 54 then 14
    else if TransportPrinted b then b.length
    else 54
  else if etherType b = ethertypeArp then if b.length < 42 then 14 else 22
  else min (14 + maxFieldDisplay.toNat) b.length

section Tilings

variable {b : List UInt8} {start proto : Nat}

theorem tiles_fieldRange {first last : Int} (hle : first ≤ last) (hfirst : first ≤ b.length) :
    Tiles first (fieldRange b first last) (min (last + 1) b.length) := by
  unfold fieldRange
  split
  · simp only [Tiles]
    omega
  · simp only [Tiles, true_and]
    omega

theorem tiles_restRange {first : Int} (hfirst : first ≤ b.length) :
    Tiles first (restRange b first) b.length := by
  unfold restRange
  split
  · simp only [Tiles, true_and]
    omega
  · simp only [Tiles]
    omega

theorem tiles_tcpRanges (hleast : 20 ≤ transportHeaderLen b start ipprotoTcp)
    (hend : start + 20 ≤ b.length) : Tiles start (tcpRanges b start) b.length := by
  have hfields : Tiles start (tcpFields start) (start + 20) := by
    simp only [tcpFields, Tiles, true_and]
    omega
  have hoptions : Tiles (start + 20) (if 20 < transportHeaderLen b start ipprotoTcp then
      fieldRange b (start + 20) (start + transportHeaderLen b start ipprotoTcp - 1) else [])
      (min (start + transportHeaderLen b start ipprotoTcp) b.length) := by
    split
    next hmore =>
        have htiles := @tiles_fieldRange b (start + 20)
          (start + transportHeaderLen b start ipprotoTcp - 1) (by omega) (by omega)
        rwa [Int.sub_add_cancel] at htiles
    next =>
        simp only [Tiles]
        omega
  refine (hfields.append hoptions).append ?_
  by_cases hinside : start + transportHeaderLen b start ipprotoTcp ≤ b.length
  · rw [Int.min_eq_left (by omega)]
    exact tiles_restRange (by omega)
  · rw [Int.min_eq_right (by omega), restRange, if_neg (by omega)]
    rfl

theorem tiles_transportRanges
    (hleast : proto = ipprotoTcp → start + 20 ≤ b.length →
      20 ≤ transportHeaderLen b start ipprotoTcp)
    (hprinted : proto = ipprotoTcp ∧ start + 20 ≤ b.length ∨
      proto = ipprotoUdp ∧ start + 8 ≤ b.length) :
    Tiles start (transportRanges b start proto) b.length := by
  unfold transportRanges
  split
  next htcp => exact tiles_tcpRanges (hleast htcp.1 htcp.2) htcp.2
  next htcp =>
      have hudp := hprinted.resolve_left htcp
      rw [if_pos hudp]
      have hrest : Tiles (start + 8) (restRange b (start + 8)) b.length :=
        tiles_restRange (by omega)
      refine ⟨rfl, by simp only; omega, ?_⟩
      rwa [show (start : Int) + 7 + 1 = start + 8 by omega]

theorem tiles_ipv4Ranges (h : HonestHeaders b) (hip : etherType b = ethertypeIp)
    (hlong : 34 ≤ b.length) :
    Tiles 14 (ipv4Ranges b) (if TransportPrinted b then b.length
      else min (max 34 (transportStart b)) b.length : Nat) := by
  have hfields : Tiles 14 ipv4Fields 34 := by
    simp only [ipv4Fields, Tiles]
    decide
  obtain ⟨hstart, hproto, -⟩ := ipv4_fields hip
  have hoptions : Tiles 34
      (if 20 < ipHeaderLen b then fieldRange b 34 (14 + ipHeaderLen b - 1) else [])
      (min (max 34 (transportStart b : Int)) b.length) := by
    split
    next hmore =>
        have htiles := @tiles_fieldRange b 34 (14 + ipHeaderLen b - 1) (by omega) (by omega)
        have hstop : min (14 + (ipHeaderLen b : Int) - 1 + 1) b.length =
            min (max 34 (transportStart b : Int)) b.length := by omega
        rwa [hstop] at htiles
    next =>
        simp only [Tiles]
        omega
  rw [ipv4Ranges_eq hip hlong]
  by_cases hprinted : TransportPrinted b
  · have hleast := h.network hip hlong hprinted
    have hinside : transportStart b ≤ b.length := by
      rcases hprinted with ⟨-, hend⟩ | ⟨-, hend⟩ <;> exact Nat.le_of_add_right_le hend
    have hstop : min (max 34 (transportStart b : Int)) b.length = transportStart b := by omega
    rw [hstop] at hoptions
    rw [if_pos hprinted]
    exact (hfields.append hoptions).append
      (tiles_transportRanges (h.transport (.inl hip)) hprinted)
  · have hstop : ((min (max 34 (transportStart b)) b.length : Nat) : Int) =
        min (max 34 (transportStart b : Int)) b.length := by omega
    rw [if_neg hprinted, transportRanges_eq_nil hprinted, List.append_nil, hstop]
    exact hfields.append hoptions

theorem tiles_ipv6Ranges (h : HonestHeaders b) (hip6 : etherType b = ethertypeIpv6)
    (hlong : 54 ≤ b.length) :
    Tiles 14 (ipv6Ranges b) (if TransportPrinted b then b.length else 54 : Nat) := by
  obtain ⟨hstart, hproto, -⟩ := ipv6_fields hip6
  have hfields : Tiles 14 [(14, 17), (18, 21), (22, 37), (38, 53)] 54 := by
    simp only [Tiles]
    decide
  rw [ipv6Ranges_eq hip6 hlong]
  by_cases hprinted : TransportPrinted b
  · have htransport := tiles_transportRanges (h.transport (.inr hip6)) hprinted
    rw [hstart] at htransport ⊢
    rw [if_pos hprinted]
    exact hfields.append htransport
  · rw [if_neg hprinted, transportRanges_eq_nil hprinted, List.append_nil]
    exact hfields

/-- Of a frame whose layers are known the labels leave nothing out up to where they stop. -/
theorem HonestHeaders.tiles (h : HonestHeaders b) (hknown : Known b) (hlong : 14 ≤ b.length) :
    Tiles 0 (frameRanges b) (shownEnd b) := by
  have hethernet : Tiles 0 [(0, 5), (6, 11), (12, 13)] 14 := by
    simp only [Tiles]
    decide
  rw [frameRanges, if_neg (by omega), shownEnd, if_neg (by omega)]
  refine hethernet.append ?_
  unfold networkRanges
  by_cases hip : etherType b = ethertypeIp
  · rw [if_pos hip, if_pos hip]
    split
    next hshort =>
        rw [ipv4Ranges, if_pos hshort]
        rfl
    next hshort => exact tiles_ipv4Ranges h hip (by omega)
  · rw [if_neg hip, if_neg hip]
    by_cases hip6 : etherType b = ethertypeIpv6
    · rw [if_pos hip6, if_pos hip6]
      split
      next hshort =>
          rw [ipv6Ranges, if_pos hshort]
          rfl
      next hshort => exact tiles_ipv6Ranges h hip6 (by omega)
    · have harp := (hknown.resolve_left hip).resolve_left hip6
      rw [if_neg hip6, if_pos harp, if_neg hip6, if_pos harp, arpRanges]
      split
      next => rfl
      next =>
          simp only [Tiles]
          decide

end Tilings

/-! ## The frame read back -/

section Frame

variable {b : List UInt8}

theorem part_prefix (n : Nat) : part b (0, (n : Int) - 1) = b.take n := by
  have hcount : ((n : Int) - 1 + 1 - 0).toNat = n := by omega
  simp only [part, hcount]
  rfl

theorem labelled_unknown (hunknown : ¬ Known b) (hlong : 14 ≤ b.length) :
    (frameRanges b).flatMap (labelled b) = b.take (shownEnd b) := by
  obtain ⟨hip, hip6, harp⟩ : etherType b ≠ ethertypeIp ∧ etherType b ≠ ethertypeIpv6 ∧
      etherType b ≠ ethertypeArp := by
    simpa [Known] using hunknown
  have htiles : Tiles 0 [(0, 5), (6, 11), (12, 13)] 14 := by
    simp only [Tiles]
    decide
  have hethernet : [(0, 5), (6, 11), (12, 13)].flatMap (labelled b) = b.take 14 :=
    calc [(0, 5), (6, 11), (12, 13)].flatMap (labelled b)
        = [(0, 5), (6, 11), (12, 13)].flatMap (part b) := by
          simp (disch := decide) only [List.flatMap_cons, List.flatMap_nil, labelled_of_short]
      _ = part b (0, ((14 : Nat) : Int) - 1) := htiles.flatMap_part (Int.le_refl 0)
      _ = b.take 14 := part_prefix 14
  have hdata : (fieldRange b 14 (b.length - 1)).flatMap (labelled b) =
      (b.drop 14).take maxFieldDisplay.toNat := by
    unfold fieldRange
    split
    case isTrue hnone =>
      rw [List.drop_of_length_le (by omega)]
      rfl
    case isFalse hmore =>
      have hall : part b (14, (b.length : Int) - 1) = b.drop 14 := by
        apply List.take_of_length_le
        rw [List.length_drop]
        simp only
        omega
      rw [List.flatMap_singleton, labelled, if_neg hunknown, Int.min_self, hall]
  rw [frameRanges, if_neg (by omega), networkRanges, if_neg hip, if_neg hip6, if_neg harp,
    List.flatMap_append, hethernet, hdata, ← List.take_add, shownEnd, if_neg (by omega),
    if_neg hip, if_neg hip6, if_neg harp]
  exact List.take_eq_take_min

theorem labelled_frameRanges (h : HonestHeaders b) (hne : 0 < b.length) :
    (frameRanges b).flatMap (labelled b) = b.take (shownEnd b) := by
  by_cases hlong : 14 ≤ b.length
  · by_cases hknown : Known b
    · have hpart : labelled b = part b := funext fun r => labelled_of_known hknown r
      rw [hpart, (h.tiles hknown hlong).flatMap_part (Int.le_refl 0), part_prefix]
    · exact labelled_unknown hknown hlong
  · rw [frameRanges, if_pos (by omega), fieldRange, if_neg (by omega), Int.min_self,
      List.flatMap_singleton, labelled_of_short (by omega), part_prefix, shownEnd,
      if_pos (by omega)]

end Frame

/--
Under each label stand the bytes that it names.  If no header announces less than the fields that
are printed of it, the view read from the top shows the frame from its first byte on, each byte
once and none left out.
-/
theorem layer_by_layer_reads_back (p : Packet) :
    Prints (Faithful p.bytes) (layerByLayer (some p.bytes) p.plen) ∧
      (HonestHeaders p.bytes → ∃ items, layerByLayer (some p.bytes) p.plen = some items ∧
        items.flatMap Item.shown = p.bytes.take (shownEnd p.bytes)) := by
  have hcomplete := p.complete
  have hfits := p.fits
  by_cases hpos : 0 < p.plen
  · have hlen : p.plen = p.bytes.length := by omega
    rw [hlen] at hfits ⊢
    have hfaithful := faithful_layerByLayer hfits
    refine ⟨hfaithful, fun h => ?_⟩
    obtain ⟨items, hitems⟩ := Option.isSome_iff_exists.mp (layerByLayer_isSome hfits h)
    refine ⟨items, hitems, ?_⟩
    rw [flatMap_shown (hfaithful items hitems), ranges_layerByLayer (by omega) hitems,
      labelled_frameRanges h (by omega)]
  · have hempty : p.bytes = [] := List.length_eq_zero_iff.mp (by omega)
    have hview : layerByLayer (some p.bytes) p.plen =
        some [printf "[layer_by_layer] empty packet\n" []] := if_pos (by omega)
    rw [hview, hempty]
    refine ⟨.pure ?_, fun _ => ⟨_, rfl, rfl⟩⟩
    simp [faithful_printf]

/-- A frame with UDP over IPv4 and three bytes of payload. -/
def shortMessage : Packet where
  bytes := List.replicate 12 0 ++ [0x08, 0x00, 0x45, 0, 0, 31, 0, 0, 0, 0, 64, 17] ++
    List.replicate 14 0 ++ [0, 11, 0, 0, 104, 105, 33]
  plen := 45
  fits := by decide
  complete := rfl

theorem layer_by_layer_reads_back_shortMessage :
    ∃ items, layerByLayer (some shortMessage.bytes) shortMessage.plen = some items ∧
      items.flatMap Item.shown = shortMessage.bytes := by
  have honest : HonestHeaders shortMessage.bytes :=
    ⟨fun _ _ _ => by decide, fun _ htcp => absurd htcp (by decide)⟩
  obtain ⟨items, hitems, hshown⟩ := (layer_by_layer_reads_back shortMessage).2 honest
  exact ⟨items, hitems, hshown.trans (List.take_of_length_le (by decide))⟩

end OxyC.Cshark
