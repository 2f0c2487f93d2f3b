import OxyC.Cshark.Print

/-!
# The columns of a dump

The two dumps of `print.c` arrange the same columns: sixteen for the digits of
a byte, a blank, and the printable bytes.  Only one of them puts an offset in front.
-/

namespace OxyC.Cshark

open OxyC.Foundation

/-! ## Reading a line back -/

def digitValue (c : Char) : Option Nat :=
  if '0' ≤ c ∧ c ≤ '9' then some (c.toNat - 48)
  else if 'A' ≤ c ∧ c ≤ 'F' then some (c.toNat - 55)
  else none

/-- The byte in a column of two digits and a blank. -/
def columnByte : Text → Option UInt8
  | [high, low, ' '] => do
      let high ← digitValue high
      let low ← digitValue low
      pure (UInt8.ofNat (16 * high + low))
  | _ => none

/-- The first `n` columns of a line. -/
def columns : Nat → Text → List Text
  | 0, _ => []
  | n + 1, line => line.take 3 :: columns n (line.drop 3)

/-- The bytes that the columns of a line show; a column may be blank. -/
def hexColumns (line : Text) : List UInt8 := (columns 16 line).filterMap columnByte

/-- Where the printable bytes start in a line without an offset. -/
def asciiColumn : Nat := 49

/-- A line of `print_full_hexdump` behind its offset and two blanks. -/
def dropOffset (line : Text) : Text := (line.dropWhile (· ≠ ' ')).drop 2

/-- The bytes of a line. -/
def rowOf (bytes : List UInt8) (k : Nat) : List UInt8 := (bytes.drop (16 * k)).take 16

/-- A line of `print_hex_ascii`. -/
def dataLine (row : List UInt8) : Text :=
  row.flatMap (fun b => hexByte b ++ [' ']) ++ padding (16 - row.length) ++ [' '] ++
    row.map printable

/-! ## Digits -/

theorem digitValue_hexDigit {n : Nat} (h : n < 16) : digitValue (hexDigit n) = some n := by
  have hall : (List.range 16).all (fun n => digitValue (hexDigit n) == some n) = true := by decide
  rw [List.all_eq_true] at hall
  exact beq_iff_eq.mp (hall n (List.mem_range.mpr h))

theorem columnByte_hexByte (b : UInt8) : columnByte (hexByte b ++ [' ']) = some b := by
  have hlt := b.toNat_lt
  simp only [hexByte, List.cons_append, List.nil_append, columnByte,
    digitValue_hexDigit (show b.toNat / 16 < 16 by omega),
    digitValue_hexDigit (show b.toNat % 16 < 16 by omega), Option.bind_eq_bind, Option.bind_some,
    Option.pure_def, Nat.div_add_mod, UInt8.ofNat_toNat]

theorem columnByte_blank : columnByte [' ', ' ', ' '] = none := by decide

/-! ## Lines -/

theorem columns_flatten {cols : List Text} (hcols : ∀ col ∈ cols, col.length = 3) (rest : Text) :
    columns cols.length (cols.flatten ++ rest) = cols := by
  induction cols with
  | nil => rfl
  | cons col cols ih =>
      obtain ⟨hcol, hrest⟩ := List.forall_mem_cons.mp hcols
      rw [List.length_cons, columns, List.flatten_cons, List.append_assoc, ← hcol, List.take_left,
        List.drop_left, ih hrest]

/-- The columns of a line, blank ones included. -/
def lineColumns (row : List UInt8) : List Text :=
  row.map (fun b => hexByte b ++ [' ']) ++ List.replicate (16 - row.length) [' ', ' ', ' ']

section Lines

variable {row : List UInt8}

theorem length_of_mem_lineColumns {col : Text} (h : col ∈ lineColumns row) : col.length = 3 := by
  cases List.mem_append.mp h with
  | inl hbyte =>
      obtain ⟨b, -, rfl⟩ := List.mem_map.mp hbyte
      rfl
  | inr hblank => rw [List.eq_of_mem_replicate hblank]; rfl

theorem length_lineColumns (h : row.length ≤ 16) : (lineColumns row).length = 16 := by
  rw [lineColumns, List.length_append, List.length_map, List.length_replicate]
  omega

theorem dataLine_eq : dataLine row = (lineColumns row).flatten ++ ([' '] ++ row.map printable) := by
  have hblanks : padding (16 - row.length) =
      (List.replicate (16 - row.length) [' ', ' ', ' ']).flatten := by
    rw [padding, ← Int.toNat_sub]
    rfl
  rw [dataLine, lineColumns, List.flatten_append, ← List.flatMap_def, hblanks]
  simp only [List.append_assoc]

theorem hexColumns_dataLine (h : row.length ≤ 16) : hexColumns (dataLine row) = row := by
  have hblanks : (List.replicate (16 - row.length) [' ', ' ', ' ']).filterMap columnByte = [] := by
    rw [List.filterMap_replicate_of_none columnByte_blank]
  have hbytes : (row.map fun b => hexByte b ++ [' ']).filterMap columnByte = row := by
    rw [List.filterMap_map]
    refine (List.filterMap_congr fun b _ => columnByte_hexByte b).trans ?_
    exact List.filterMap_some
  rw [hexColumns, dataLine_eq, ← length_lineColumns h,
    columns_flatten fun _ => length_of_mem_lineColumns, lineColumns, List.filterMap_append,
    hbytes, hblanks, List.append_nil]

/-- The printable bytes start in the same column whatever the number of bytes. -/
theorem drop_dataLine (h : row.length ≤ 16) :
    (dataLine row).drop asciiColumn = row.map printable := by
  have hlength : ((lineColumns row).flatten ++ [' ']).length = asciiColumn := by
    have hmap : (lineColumns row).map List.length = List.replicate 16 3 := by
      rw [List.eq_replicate_iff, List.length_map, length_lineColumns h]
      refine ⟨rfl, fun n hn => ?_⟩
      obtain ⟨col, hcol, rfl⟩ := List.mem_map.mp hn
      exact length_of_mem_lineColumns hcol
    rw [List.length_append, List.length_flatten, hmap]
    rfl
  rw [dataLine_eq, ← List.append_assoc, ← hlength, List.drop_left]

end Lines

/-! ## Offsets -/

theorem exists_digit_of_mem_toDigits {n : Nat} {c : Char} (h : c ∈ Nat.toDigits 16 n) :
    ∃ d < 16, c = d.digitChar := by
  induction n using Nat.strongRecOn with
  | ind n ih =>
      rcases Nat.lt_or_ge n 16 with hlt | hge
      · rw [Nat.toDigits_of_lt_base hlt, List.mem_singleton] at h
        exact ⟨n, hlt, h⟩
      · rw [Nat.toDigits_of_base_le (by decide) hge, List.mem_append, List.mem_singleton] at h
        cases h with
        | inl hinit => exact ih (n / 16) (by omega) hinit
        | inr hlast => exact ⟨n % 16, by omega, hlast⟩

theorem ne_blank_of_mem_hexInt {i : Int} {c : Char} (h : c ∈ hexInt i) : c ≠ ' ' := by
  have hdigits : (List.range 16).all (fun d => d.digitChar.toUpper ≠ ' ') = true := by decide
  cases List.mem_append.mp h with
  | inl hpad =>
      rw [List.eq_of_mem_replicate hpad]
      decide
  | inr hdigit =>
      obtain ⟨c', hc', rfl⟩ := List.mem_map.mp hdigit
      obtain ⟨d, hd, rfl⟩ := exists_digit_of_mem_toDigits hc'
      rw [List.all_eq_true] at hdigits
      exact of_decide_eq_true (hdigits d (List.mem_range.mpr hd))

theorem dropOffset_append (i : Int) (line : Text) :
    dropOffset (hexInt i ++ [' ', ' '] ++ line) = line := by
  have hoffset : ∀ c ∈ hexInt i, decide (c ≠ ' ') = true := fun c hc =>
    decide_eq_true (ne_blank_of_mem_hexInt hc)
  rw [dropOffset, List.append_assoc, List.dropWhile_append_of_pos hoffset]
  rfl

/-! ## Dumps -/

theorem takeWhile_range (n m : Nat) :
    (List.range n).takeWhile (fun j => j < m) = List.range (min n m) := by
  rcases Nat.le_total n m with hle | hle
  · rw [Nat.min_eq_left hle, List.takeWhile_eq_self_iff]
    intro j hj
    have := List.mem_range.mp hj
    exact decide_eq_true (by omega)
  · obtain ⟨k, rfl⟩ := Nat.exists_eq_add_of_le hle
    rw [Nat.min_eq_right hle, List.range_add, List.takeWhile_append_of_pos]
    · cases k with
      | zero => simp
      | succ k => simp [List.range_succ_eq_map]
    · intro j hj
      exact decide_eq_true (List.mem_range.mp hj)

section Dumps

variable {data : Pointer} {bytes : List UInt8} {k : Nat}

theorem length_rowOf (bytes : List UInt8) (k : Nat) :
    (rowOf bytes k).length = min 16 (bytes.length - 16 * k) := by
  rw [rowOf, List.length_take, List.length_drop]

theorem flatMap_rowOf (n : Nat) :
    (List.range n).flatMap (rowOf bytes) = bytes.take (16 * n) := by
  induction n with
  | zero => rfl
  | succ n ih =>
      rw [List.range_succ, List.flatMap_append, ih, List.flatMap_singleton, rowOf,
        Nat.mul_succ, List.take_add]

theorem readRow_eq (hbytes : data.bytes 0 bytes.length = some bytes) :
    readRow data (16 * k) (List.range (rowOf bytes k).length) = some (rowOf bytes k) := by
  have hinside := Pointer.inside_of_bytes hbytes
  have hall := Pointer.bytes_of_inside hinside
  rw [hbytes, Option.some.injEq, Int.add_zero] at hall
  have hlength := length_rowOf bytes k
  have hrow : data.Inside (16 * k) (rowOf bytes k).length := by
    intro hpos
    have := hinside (by omega)
    omega
  refine (Pointer.bytes_of_inside hrow).trans (congrArg some ?_)
  rw [hlength]
  cases hcount : min 16 (bytes.length - 16 * k) with
  | zero =>
      rw [List.take_zero, eq_comm, ← List.length_eq_zero_iff]
      omega
  | succ n =>
      have hstart : (data.offset + 16 * k).toNat = data.offset.toNat + 16 * k := by
        have := hinside (by omega)
        omega
      conv_rhs => rw [rowOf, hall]
      rw [List.drop_take, List.take_take, hcount, List.drop_drop, hstart]

theorem hexAsciiLine_eq (hbytes : data.bytes 0 bytes.length = some bytes)
    (hk : 16 * k < bytes.length) :
    hexAsciiLine data bytes.length (16 * k) = some (dataLine (rowOf bytes k)) := by
  have hlength := length_rowOf bytes k
  have hlineLen : (if (bytes.length : Int) - 16 * k > 16 then 16
      else (bytes.length : Int) - 16 * k) = (rowOf bytes k).length := by
    split <;> omega
  simp only [hexAsciiLine, hlineLen, Int.toNat_natCast, readRow_eq hbytes, Option.bind_eq_bind,
    Option.bind_some, Option.pure_def]
  rfl

/-- The bounds of the two loops over the bytes of a line agree. -/
theorem fullHexdumpLine_eq (hbytes : data.bytes 0 bytes.length = some bytes)
    (hk : 16 * k < bytes.length) :
    fullHexdumpLine data bytes.length (16 * k) =
      some (hexInt (16 * k) ++ [' ', ' '] ++ dataLine (rowOf bytes k)) := by
  have hlength := length_rowOf bytes k
  have hcolumns : (List.range 16).takeWhile (fun j : Nat => (16 * k + j : Int) < bytes.length) =
      List.range (rowOf bytes k).length := by
    rw [hlength, ← takeWhile_range]
    congr 1
    funext j
    exact decide_eq_decide.mpr (by omega)
  have hpadding : (if (bytes.length : Int) - 16 * k < 16 then
      (bytes.length : Int) - 16 * k else 16) = (rowOf bytes k).length := by
    split <;> omega
  simp only [fullHexdumpLine, hcolumns, hpadding, readRow_eq hbytes, Option.bind_eq_bind,
    Option.bind_some, Option.pure_def, dataLine, List.append_assoc]

theorem mapM_rows {line : Int → Option Text} {text : Nat → Text}
    (hlen : (bytes.length : Int) < intMax - 16)
    (hline : ∀ k : Nat, 16 * k < bytes.length → line (16 * k) = some (text k)) :
    countedLoop line bytes.length 16 maxPasses 0 =
      some ((List.range (rows bytes.length)).map text) := by
  have hshort : (bytes.length : Int) ≤ 2147483632 := by
    rw [intMax] at hlen
    omega
  rw [countedLoop_eq (passes_rows hshort) (by decide) (rows_lt_maxPasses hshort)]
  apply mapM_of_forall
  intro k hk
  rw [Int.zero_add]
  apply hline
  have := List.mem_range.mp hk
  unfold rows at this
  omega

end Dumps

/-- Both dumps show the same columns, and the columns show the bytes. -/
theorem hexdumps_agree {data : Pointer} {bytes : List UInt8}
    (hbytes : data.bytes 0 bytes.length = some bytes)
    (hlen : (bytes.length : Int) < intMax - 16) :
    ∃ lines, printFullHexdump data bytes.length =
        some ([[], "[Full Hex Dump of Packet]".toList] ++ lines ++ [[]]) ∧
      printHexAscii data bytes.length intMax = some (lines.map dropOffset) ∧
      (lines.map dropOffset).flatMap hexColumns = bytes ∧
      ∀ (k : Nat) (line : Text), (lines.map dropOffset)[k]? = some line →
        line.drop asciiColumn = (rowOf bytes k).map printable := by
  have hfull := mapM_rows hlen fun k hk => fullHexdumpLine_eq hbytes hk
  have hascii := mapM_rows hlen fun k hk => hexAsciiLine_eq hbytes hk
  have hrow : ∀ k, (rowOf bytes k).length ≤ 16 := fun k => List.length_take_le _ _
  have hbehind : ((List.range (rows bytes.length)).map fun k : Nat =>
      hexInt (16 * k) ++ [' ', ' '] ++ dataLine (rowOf bytes k)).map dropOffset =
        (List.range (rows bytes.length)).map fun k => dataLine (rowOf bytes k) := by
    rw [List.map_map]
    exact List.map_congr_left fun k _ => dropOffset_append _ _
  refine ⟨_, by rw [printFullHexdump, hfull]; rfl, ?_, ?_, ?_⟩
  · have hmin : (if (bytes.length : Int) < intMax then (bytes.length : Int) else intMax) =
        bytes.length := if_pos (by omega)
    rw [hbehind, printHexAscii]
    simp only [hmin]
    exact hascii
  · have hcolumns : ∀ k, hexColumns (dataLine (rowOf bytes k)) = rowOf bytes k := fun k =>
      hexColumns_dataLine (hrow k)
    rw [hbehind, List.flatMap_map]
    simp only [hcolumns, flatMap_rowOf]
    apply List.take_of_length_le
    unfold rows
    omega
  · intro k line hline
    rw [hbehind, List.getElem?_map] at hline
    obtain ⟨j, hj, rfl⟩ := Option.map_eq_some_iff.mp hline
    obtain ⟨hlt, hsame⟩ := List.getElem?_eq_some_iff.mp hj
    rw [List.getElem_range] at hsame
    rw [← hsame]
    exact drop_dataLine (hrow k)

/-- A full line of letters and a line with one line break. -/
def seventeen : List UInt8 := List.replicate 16 65 ++ [10]

theorem hexdumps_agree_seventeen :
    ∃ lines, printFullHexdump ⟨seventeen, 0⟩ 17 =
        some ([[], "[Full Hex Dump of Packet]".toList] ++ lines ++ [[]]) ∧
      printHexAscii ⟨seventeen, 0⟩ 17 intMax = some (lines.map dropOffset) ∧
      (lines.map dropOffset).flatMap hexColumns = seventeen ∧
      ∀ (k : Nat) (line : Text), (lines.map dropOffset)[k]? = some line →
        line.drop asciiColumn = (rowOf seventeen k).map printable :=
  have hbytes : Pointer.bytes ⟨seventeen, 0⟩ 0 seventeen.length = some seventeen := rfl
  hexdumps_agree hbytes (by decide)

end OxyC.Cshark
