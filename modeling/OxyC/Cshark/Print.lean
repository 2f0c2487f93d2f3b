import OxyC.Foundation.CountedLoop
import OxyC.Foundation.Memory
import Mathlib.Data.List.TakeWhile

/-!
# Printed reports

The helpers of `print.c`.  Bytes are fetched by checked reads; a helper without
a result reads outside of its buffer or does not return.
-/

namespace OxyC.Cshark

open OxyC.Foundation

abbrev Text := List Char

/-- An argument of a format; addresses are printed by `inet_ntop`. -/
inductive Arg where
  | num (n : Nat)
  | int (n : Int)
  | str (s : String)
  | addr (bytes : List UInt8)
  deriving DecidableEq, Repr

structure Formatted where
  format : String
  args : List Arg := []
  deriving DecidableEq, Repr

inductive Item where
  | printf (f : Formatted)
  /-- Printed by `print_layer_header`. -/
  | layer (name description : String)
  /-- Printed by `print_field_bytes`. -/
  | fieldBytes (name : String) (extra : Formatted) (first last : Int) (slice : Text)
  | outOfBounds (name : String)
  /-- A dump of `len` bytes from `first` on. -/
  | dump (first len : Int) (lines : List Text)
  /-- Not printed: a decoder passes on a payload of `len` bytes from `first` on. -/
  | payload (first len : Int)
  deriving DecidableEq, Repr

def maxFieldDisplay : Int := 256

def intMax : Int := 2147483647

/-- After so many passes a counter that grows by 16 is back at its start. -/
def maxPasses : Nat := 268435457

/-! ## Columns -/

def hexDigit (n : Nat) : Char := if n < 10 then Char.ofNat (48 + n) else Char.ofNat (55 + n)

/-- `%02X`. -/
def hexByte (b : UInt8) : Text := [hexDigit (b.toNat / 16), hexDigit (b.toNat % 16)]

/-- `%04X` of an `int`. -/
def hexInt (i : Int) : Text :=
  ((Nat.toDigits 16 (i % 4294967296).toNat).map Char.toUpper).leftpad 4 '0'

def printable (b : UInt8) : Char :=
  if 32 ≤ b.toNat ∧ b.toNat ≤ 126 then Char.ofNat b.toNat else '.'

def padding (n : Int) : Text := (List.replicate n.toNat [' ', ' ', ' ']).flatten

def readRow (data : Pointer) (i : Int) (js : List Nat) : Option (List UInt8) :=
  js.mapM fun j : Nat => data.read (i + j)

/-! ## Dumps -/

def fullHexdumpLine (data : Pointer) (len i : Int) : Option Text := do
  let columns := (List.range 16).takeWhile fun j : Nat => i + j < len
  let hex ← readRow data i columns
  let ascii ← readRow data i columns
  pure (hexInt i ++ [' ', ' '] ++ hex.flatMap (fun b => hexByte b ++ [' ']) ++
    padding (16 - if len - i < 16 then len - i else 16) ++ [' '] ++ ascii.map printable)

def printFullHexdump (data : Pointer) (len : Int) : Option (List Text) := do
  let lines ← countedLoop (fullHexdumpLine data len) len 16 maxPasses 0
  pure ([[], "[Full Hex Dump of Packet]".toList] ++ lines ++ [[]])

def hexAsciiLine (data : Pointer) (toPrint i : Int) : Option Text := do
  let lineLen := if toPrint - i > 16 then 16 else toPrint - i
  let hex ← readRow data i (List.range lineLen.toNat)
  let ascii ← readRow data i (List.range lineLen.toNat)
  pure (hex.flatMap (fun b => hexByte b ++ [' ']) ++ padding (16 - lineLen) ++ [' '] ++
    ascii.map printable)

def printHexAscii (data : Pointer) (len maxBytes : Int) : Option (List Text) :=
  let toPrint := if len < maxBytes then len else maxBytes
  countedLoop (hexAsciiLine data toPrint) toPrint 16 maxPasses 0

/-! ## Fields -/

def fieldIndent : Text := List.replicate 9 ' '

/-- The line break after each group of 16, except at the end. -/
def groupBreak (i : Nat) (toPrint : Int) : Text :=
  if (i + 1) % 16 = 0 ∧ (i + 1 : Int) < toPrint then '\n' :: fieldIndent else []

def printHexAsciiSlice (pkt : Pointer) (plen start stop : Int) : Option Text :=
  if start ≥ plen then some (fieldIndent ++ "[out of packet bounds]\n".toList)
  else do
    let stop := if stop ≥ plen then plen - 1 else stop
    let total := stop - start + 1
    let toPrint := if total > maxFieldDisplay then maxFieldDisplay else total
    let more := if toPrint < total then " ...".toList else []
    let hex ← readRow pkt start (List.range toPrint.toNat)
    let hexPart := hex.mapIdx fun i b =>
      hexByte b ++ (if (i + 1 : Int) < toPrint then [' '] else []) ++ groupBreak i toPrint
    let ascii ← readRow pkt start (List.range toPrint.toNat)
    if toPrint ≤ 8 then
      pure (fieldIndent ++ hexPart.flatten ++ more ++ "  (".toList ++ ascii.map printable ++
        ")\n".toList)
    else
      let asciiPart := ascii.mapIdx fun i b => [' ', printable b] ++ groupBreak i toPrint
      pure (fieldIndent ++ hexPart.flatten ++ more ++ ['\n'] ++ fieldIndent ++
        asciiPart.flatten ++ more ++ ['\n'])

def printFieldBytes (name : String) (pkt : Pointer) (plen start stop : Int) (extra : Formatted) :
    Option Item :=
  if start ≥ plen then some (.outOfBounds name)
  else do
    let stop := if stop ≥ plen then plen - 1 else stop
    let slice ← printHexAsciiSlice pkt plen start stop
    pure (.fieldBytes name extra start stop slice)

/-! ## What the helpers read -/

section Reads

variable {data : Pointer} {len i : Int}

theorem readRow_isSome_iff {js : List Nat} :
    (readRow data i js).isSome ↔ ∀ j ∈ js, data.Inside (i + j) 1 := by
  simp only [readRow, mapM_isSome_iff, Pointer.read_isSome_iff]

theorem isSome_bind_bind_pure {α β γ : Type*} {x : Option α} {y : Option β} {f : α → β → γ} :
    (x.bind fun a => y.bind fun b => some (f a b)).isSome ↔ x.isSome ∧ y.isSome := by
  cases x <;> cases y <;> simp

theorem fullHexdumpLine_isSome_iff :
    (fullHexdumpLine data len i).isSome ↔
      ∀ j ∈ (List.range 16).takeWhile (fun j : Nat => i + j < len), data.Inside (i + j) 1 := by
  simp only [fullHexdumpLine, Option.bind_eq_bind, Option.pure_def, isSome_bind_bind_pure,
    readRow_isSome_iff, and_self]

theorem hexAsciiLine_isSome_iff :
    (hexAsciiLine data len i).isSome ↔
      ∀ j ∈ List.range (if len - i > 16 then 16 else len - i).toNat, data.Inside (i + j) 1 := by
  simp only [hexAsciiLine, Option.bind_eq_bind, Option.pure_def, isSome_bind_bind_pure,
    readRow_isSome_iff, and_self]

def rows (len : Int) : Nat := ((len + 15) / 16).toNat

theorem passes_rows (hlen : len ≤ 2147483632) : Passes len 16 0 (rows len) where
  start := by decide
  inside k hk := by
    unfold rows at hk
    omega
  past := by
    unfold rows
    omega
  fits := by
    unfold rows
    omega

theorem rows_lt_maxPasses (hlen : len ≤ 2147483632) : rows len < maxPasses := by
  unfold rows maxPasses
  omega

theorem dump_isSome_iff {line : Int → Option Text} (hlen : len ≤ 2147483632) :
    (countedLoop line len 16 maxPasses 0).isSome ↔
      ∀ k : Nat, k < rows len → (line (16 * k)).isSome := by
  rw [countedLoop_eq (passes_rows hlen) (by decide) (rows_lt_maxPasses hlen), mapM_isSome_iff]
  simp only [List.mem_range, Int.zero_add]

theorem printFullHexdump_isSome (hinside : data.Inside 0 len) (hlen : len ≤ 2147483632) :
    (printFullHexdump data len).isSome := by
  have hlines : (countedLoop (fullHexdumpLine data len) len 16 maxPasses 0).isSome := by
    rw [dump_isSome_iff hlen]
    intro k _
    rw [fullHexdumpLine_isSome_iff]
    intro j hj
    have hlast := List.mem_takeWhile_imp hj
    simp only [decide_eq_true_eq] at hlast
    exact hinside.mono (by omega) (by omega)
  obtain ⟨lines, hlines⟩ := Option.isSome_iff_exists.mp hlines
  simp [printFullHexdump, hlines]

/-- The index wraps around before a dump of that length ends. -/
theorem printFullHexdump_eq_none (hlong : 2147483632 < len)
    (hoffset : data.offset < 2147483648) : printFullHexdump data len = none := by
  cases hdump : printFullHexdump data len with
  | none => rfl
  | some ls =>
      exfalso
      simp only [printFullHexdump, Option.bind_eq_bind, Option.bind_eq_some_iff] at hdump
      obtain ⟨lines, hlines, -⟩ := hdump
      have hwrap : ((0 : Int) + 16 * (134217727 + 1 : Nat)).bmod 0x100000000 = -2147483648 := by
        decide
      have hwrapped := isSome_of_countedLoop (n := 134217727) hlines (by decide) (by decide)
        (fun k hk => by omega) (by rw [hwrap]; omega)
      rw [hwrap, fullHexdumpLine_isSome_iff] at hwrapped
      have hfirst : 0 ∈ (List.range 16).takeWhile
          (fun j : Nat => (-2147483648 + j : Int) < len) := by
        rw [List.range_succ_eq_map, List.takeWhile_cons_of_pos (by simp; omega)]
        exact List.mem_cons_self
      obtain ⟨hread, -⟩ := hwrapped 0 hfirst (by decide)
      omega

theorem printHexAscii_isSome_iff {maxBytes : Int} (hlen : min len maxBytes ≤ 2147483632) :
    (printHexAscii data len maxBytes).isSome ↔ data.Inside 0 (min len maxBytes) := by
  have hmin : (if len < maxBytes then len else maxBytes) = min len maxBytes := by
    split <;> omega
  simp only [printHexAscii, hmin]
  generalize min len maxBytes = toPrint at hlen ⊢
  rw [dump_isSome_iff hlen]
  simp only [hexAsciiLine_isSome_iff, List.mem_range]
  constructor
  · intro h hpos
    have hfirst := h 0 (by unfold rows; omega) 0 (by split <;> omega) (by decide)
    have hlast := h ((toPrint - 1) / 16).toNat (by unfold rows; omega) ((toPrint - 1) % 16).toNat
      (by split <;> omega) (by decide)
    omega
  · intro h k hk j hj
    refine h.mono (by omega) ?_
    split at hj <;> omega

theorem printHexAsciiSlice_isSome {plen start stop : Int} (hinside : data.Inside 0 plen)
    (hstart : 0 ≤ start) : (printHexAsciiSlice data plen start stop).isSome := by
  unfold printHexAsciiSlice
  split
  case isTrue => rfl
  case isFalse hbound =>
    have hrow : ∀ n : Int, n ≤ plen - start →
        ∃ bytes, readRow data start (List.range n.toNat) = some bytes := by
      intro n hn
      rw [← Option.isSome_iff_exists, readRow_isSome_iff]
      intro j hj
      rw [List.mem_range] at hj
      exact hinside.mono (by omega) (by omega)
    extract_lets last total toPrint more
    have hlast : last < plen := by
      unfold last
      split <;> omega
    have hcount : toPrint ≤ total := by
      unfold toPrint
      split <;> omega
    obtain ⟨bytes, hbytes⟩ := hrow toPrint (by omega)
    simp only [hbytes, Option.bind_eq_bind, Option.bind_some]
    split <;> rfl

theorem printFieldBytes_isSome {name : String} {extra : Formatted} {plen start stop : Int}
    (hinside : data.Inside 0 plen) (hstart : 0 ≤ start) :
    (printFieldBytes name data plen start stop extra).isSome := by
  unfold printFieldBytes
  split
  case isTrue => rfl
  case isFalse hbound =>
    extract_lets last
    have hslice : (printHexAsciiSlice data plen start last).isSome :=
      printHexAsciiSlice_isSome hinside hstart
    obtain ⟨slice, hslice⟩ := Option.isSome_iff_exists.mp hslice
    simp [hslice]

end Reads

end OxyC.Cshark
