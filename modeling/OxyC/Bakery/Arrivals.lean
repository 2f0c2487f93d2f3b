import OxyC.Bakery.Shop
import OxyC.Foundation.Scanf
import OxyC.Foundation.Stdio

/-!
# The arrivals

The loop of `main` that reads the arrivals from the standard input, up to the line
`<EOF>`.  A line is scanned by `"%d %63s %d"`, and one that is not an arrival is
reported and skipped.
-/

namespace OxyC.Bakery

open OxyC.Foundation

def lineSize : Nat := 256

def eofMark : List Char := "<EOF>".toList

structure Reading where
  arrivals : List Arrival
  /-- What has been written to `stderr`. -/
  messages : List (List Char)
  deriving DecidableEq, Repr

def Reading.add (a : Arrival) (r : Reading) : Reading :=
  { r with arrivals := r.arrivals ++ [a] }

def Reading.skip (line : List Char) (r : Reading) : Reading :=
  { r with messages := r.messages ++ ["Skipping invalid line: ".toList ++ line] }

/-- `sscanf(line, "%d %63s %d", &ts, word, &id)`, where all three are assigned. -/
def scanArrival (line : List Char) : Option (Int × List Char × Int) := do
  let (ts, rest) ← scanInt line
  let (word, rest) ← scanWord 63 rest
  let (id, _) ← scanInt rest
  pure (ts, word, id)

/-- The body of the loop; `none` stands for the `break`. -/
def readLine (line : List Char) (r : Reading) : Option Reading :=
  if line.take 5 = eofMark then none
  else if line = [] then some r
  else
    match scanArrival line with
    | some (ts, word, id) =>
        if word ≠ "Customer".toList then some (r.skip line) else some (r.add ⟨ts, id⟩)
    | none => some (r.skip line)

def readLoop : Nat → List Char → Reading → Reading
  | 0, _, r => r
  | fuel + 1, input, r =>
      match fgets '\n' lineSize input with
      | none => r
      | some (buffer, rest) =>
          match readLine (upToNul buffer) r with
          | none => r
          | some r' => readLoop fuel rest r'

def readArrivals (input : List Char) : Reading := readLoop input.length input ⟨[], []⟩

/-! ## The lines that are accepted -/

/-- A number, the word and another number, the last two apart; whatever is behind them. -/
def ArrivalLine (line : List Char) (a : Arrival) : Prop :=
  ∃ blanks sign digits gap gap' sign' digits' rest,
    line = blanks ++ (sign ++ (digits ++ (gap ++ ("Customer".toList ++
      (gap' ++ (sign' ++ (digits' ++ rest))))))) ∧
    IsNumeral blanks sign digits ∧ (∀ c ∈ gap, isBlank c = true) ∧
    IsNumeral gap' sign' digits' ∧ gap' ≠ [] ∧ Stops Char.isDigit rest ∧
    a = ⟨toInt sign (Nat.ofDigitChars 10 digits 0), toInt sign' (Nat.ofDigitChars 10 digits' 0)⟩

theorem stops_gap {gap rest : List Char} (hgap : ∀ c ∈ gap, isBlank c = true) :
    Stops Char.isDigit (gap ++ ("Customer".toList ++ rest)) := by
  intro c hc
  cases gap with
  | nil =>
      cases hc
      rfl
  | cons d gap =>
      cases hc
      have hblank := hgap c (by simp)
      by_contra hdigit
      rw [isBlank_of_isDigit (by simpa using hdigit)] at hblank
      cases hblank

theorem isWord_customer {gap gap' rest : List Char} (hgap : ∀ c ∈ gap, isBlank c = true)
    (hgap' : ∀ c ∈ gap', isBlank c = true) (hne : gap' ≠ []) :
    IsWord 63 gap "Customer".toList (gap' ++ rest) where
  blanks := hgap
  nonempty := by decide
  chars := by simp [isBlank]
  length_le := by decide
  rest := by
    obtain ⟨c, gap', rfl⟩ := List.exists_cons_of_ne_nil hne
    refine .inr fun d hd => ?_
    cases hd
    simpa using hgap' c (by simp)

theorem scanArrival_eq_some_iff {line word : List Char} {ts id : Int} :
    scanArrival line = some (ts, word, id) ↔
      ∃ rest rest' rest'', scanInt line = some (ts, rest) ∧ scanWord 63 rest = some (word, rest') ∧
        scanInt rest' = some (id, rest'') := by
  simp only [scanArrival, Option.bind_eq_bind, Option.bind_eq_some_iff, Option.pure_def,
    Option.some.injEq, Prod.mk.injEq, Prod.exists]
  constructor
  · rintro ⟨ts, rest, hts, word, rest', hword, id, rest'', hid, rfl, rfl, rfl⟩
    exact ⟨rest, rest', rest'', hts, hword, hid⟩
  · rintro ⟨rest, rest', rest'', hts, hword, hid⟩
    exact ⟨ts, rest, hts, word, rest', hword, id, rest'', hid, rfl, rfl, rfl⟩

theorem scanArrival_customer_iff {line : List Char} {ts id : Int} :
    scanArrival line = some (ts, "Customer".toList, id) ↔ ArrivalLine line ⟨ts, id⟩ := by
  rw [scanArrival_eq_some_iff]
  constructor
  · rintro ⟨rest, rest', rest'', hts, hword, hid⟩
    obtain ⟨blanks, sign, digits, rfl, hnumeral, -, rfl⟩ := scanInt_eq_some_iff.mp hts
    obtain ⟨gap, rfl, hisword⟩ := scanWord_eq_some_iff.mp hword
    obtain ⟨gap', sign', digits', rfl, hnumeral', hrest, rfl⟩ := scanInt_eq_some_iff.mp hid
    refine ⟨blanks, sign, digits, gap, gap', sign', digits', rest'', rfl, hnumeral,
      hisword.blanks,
      hnumeral', ?_, hrest, rfl⟩
    -- without a blank the word would not have ended there
    rintro rfl
    obtain ⟨c, s, heq, hblank⟩ := hnumeral'.exists_head rest''
    have hends := hisword.rest.resolve_left (by decide)
    rw [List.nil_append, heq] at hends
    have hc := hends c rfl
    simp [hblank] at hc
  · rintro ⟨blanks, sign, digits, gap, gap', sign', digits', rest, rfl, hnumeral, hgap, hnumeral',
      hne, hrest, heq⟩
    cases heq
    exact ⟨_, _, _, hnumeral.scanInt_eq (stops_gap hgap),
      (isWord_customer hgap hnumeral'.blanks hne).scanWord_eq, hnumeral'.scanInt_eq hrest⟩

theorem arrivalLine_unique {line : List Char} {a b : Arrival} (ha : ArrivalLine line a)
    (hb : ArrivalLine line b) : a = b := by
  obtain ⟨ts, id⟩ := a
  obtain ⟨ts', id'⟩ := b
  have hscan := scanArrival_customer_iff.mpr ha
  rw [scanArrival_customer_iff.mpr hb] at hscan
  cases hscan
  rfl

theorem not_arrivalLine_nil (a : Arrival) : ¬ ArrivalLine [] a := by
  intro h
  cases scanArrival_customer_iff.mpr h

theorem not_arrivalLine_of_eof {line : List Char} (h : eofMark <+: line) (a : Arrival) :
    ¬ ArrivalLine line a := by
  obtain ⟨rest, rfl⟩ := h
  intro hline
  cases scanArrival_customer_iff.mpr hline

theorem take_eq_eof_iff (line : List Char) :
    line.take 5 = eofMark ↔ eofMark <+: line :=
  ⟨fun h => h ▸ List.take_prefix _ line, fun h => (List.prefix_iff_eq_take.mp h).symm⟩

/-- The four things that the body of the loop does with a line. -/
inductive ReadsLine (line : List Char) (r : Reading) : Option Reading → Prop
  | eof (eof : eofMark <+: line) : ReadsLine line r none
  | empty (empty : line = []) : ReadsLine line r (some r)
  | arrival (a : Arrival) (accepted : ArrivalLine line a) : ReadsLine line r (some (r.add a))
  | invalid (more : ¬ eofMark <+: line) (nonempty : line ≠ [])
      (rejected : ∀ a, ¬ ArrivalLine line a) : ReadsLine line r (some (r.skip line))

theorem readsLine (line : List Char) (r : Reading) : ReadsLine line r (readLine line r) := by
  have heof := take_eq_eof_iff line
  unfold readLine
  split
  case isTrue h => exact .eof (heof.mp h)
  case isFalse h =>
    split
    case isTrue hempty => exact .empty hempty
    case isFalse hnonempty =>
      have hreject : (∀ a : Arrival, scanArrival line ≠ some (a.ts, "Customer".toList, a.id)) →
          ReadsLine line r (some (r.skip line)) := by
        intro hnone
        refine .invalid (mt heof.mpr h) hnonempty fun a hline => ?_
        exact hnone a (scanArrival_customer_iff.mpr hline)
      split
      case h_1 ts word id hscan =>
        split
        case isTrue hword =>
          refine hreject fun a ha => hword ?_
          rw [hscan] at ha
          cases ha
          rfl
        case isFalse hword =>
          rw [not_not.mp hword] at hscan
          exact .arrival _ (scanArrival_customer_iff.mp hscan)
      case h_2 hscan => exact hreject fun a ha => by simp [hscan] at ha

theorem Reading.add_ne_self (a : Arrival) (r : Reading) : r.add a ≠ r := by
  intro h
  have hlength := congrArg (fun r => r.arrivals.length) h
  simp [Reading.add] at hlength

theorem Reading.skip_ne_self (line : List Char) (r : Reading) : r.skip line ≠ r := by
  intro h
  have hlength := congrArg (fun r => r.messages.length) h
  simp [Reading.skip] at hlength

theorem Reading.skip_ne_add (line : List Char) (a : Arrival) (r : Reading) :
    r.skip line ≠ r.add a := by
  intro h
  have hlength := congrArg (fun r => r.arrivals.length) h
  simp [Reading.add, Reading.skip] at hlength

theorem Reading.add_injective {a b : Arrival} {r : Reading} (h : r.add a = r.add b) : a = b := by
  simpa [Reading.add] using h

theorem not_eof_of_nil : ¬ eofMark <+: [] := by decide

theorem readLine_eq_none_iff {line : List Char} {r : Reading} :
    readLine line r = none ↔ eofMark <+: line := by
  have hreads := readsLine line r
  generalize readLine line r = result at hreads
  cases hreads with
  | eof heof => exact iff_of_true rfl heof
  | empty hempty => exact iff_of_false nofun (hempty ▸ not_eof_of_nil)
  | arrival a haccepted =>
      exact iff_of_false nofun fun heof => not_arrivalLine_of_eof heof a haccepted
  | invalid hmore _ _ => exact iff_of_false nofun hmore

theorem readLine_eq_add_iff {line : List Char} {r : Reading} {a : Arrival} :
    readLine line r = some (r.add a) ↔ ArrivalLine line a := by
  have hreads := readsLine line r
  generalize readLine line r = result at hreads
  cases hreads with
  | eof heof => exact iff_of_false nofun (not_arrivalLine_of_eof heof a)
  | empty hempty =>
      refine iff_of_false ?_ (hempty ▸ not_arrivalLine_nil a)
      exact fun h => Reading.add_ne_self a r (Option.some.inj h).symm
  | arrival b haccepted =>
      constructor
      · intro h
        exact Reading.add_injective (Option.some.inj h) ▸ haccepted
      · intro h
        rw [arrivalLine_unique haccepted h]
  | invalid _ _ hrejected =>
      refine iff_of_false ?_ (hrejected a)
      exact fun h => Reading.skip_ne_add line a r (Option.some.inj h)

theorem readLine_eq_self_iff {line : List Char} {r : Reading} :
    readLine line r = some r ↔ line = [] := by
  have hreads := readsLine line r
  generalize readLine line r = result at hreads
  cases hreads with
  | eof heof =>
      refine iff_of_false nofun ?_
      rintro rfl
      exact not_eof_of_nil heof
  | empty hempty => exact iff_of_true rfl hempty
  | arrival a haccepted =>
      refine iff_of_false (fun h => Reading.add_ne_self a r (Option.some.inj h)) ?_
      rintro rfl
      exact not_arrivalLine_nil a haccepted
  | invalid _ hnonempty _ =>
      exact iff_of_false (fun h => Reading.skip_ne_self line r (Option.some.inj h)) hnonempty

theorem readLine_eq_skip_iff {line : List Char} {r : Reading} :
    readLine line r = some (r.skip line) ↔
      ¬ eofMark <+: line ∧ line ≠ [] ∧ ∀ a, ¬ ArrivalLine line a := by
  have hreads := readsLine line r
  generalize readLine line r = result at hreads
  cases hreads with
  | eof heof => exact iff_of_false nofun fun h => h.1 heof
  | empty hempty =>
      refine iff_of_false ?_ fun h => h.2.1 hempty
      exact fun h => Reading.skip_ne_self line r (Option.some.inj h).symm
  | arrival a haccepted =>
      refine iff_of_false ?_ fun h => h.2.2 a haccepted
      exact fun h => Reading.skip_ne_add line a r (Option.some.inj h).symm
  | invalid hmore hnonempty hrejected => exact iff_of_true rfl ⟨hmore, hnonempty, hrejected⟩

/--
A line is read as an arrival exactly if it consists of a number, `Customer` and a number that is
set off by blanks.  The loop ends at a line that begins with `<EOF>`, it passes over an empty one,
and it reports any other line and nothing else.
-/
theorem readLine_iff (line : List Char) (r : Reading) :
    (∀ a, readLine line r = some (r.add a) ↔ ArrivalLine line a) ∧
    (readLine line r = none ↔ eofMark <+: line) ∧
    (readLine line r = some r ↔ line = []) ∧
    (readLine line r = some (r.skip line) ↔
      ¬ eofMark <+: line ∧ line ≠ [] ∧ ∀ a, ¬ ArrivalLine line a) :=
  ⟨fun _ => readLine_eq_add_iff, readLine_eq_none_iff, readLine_eq_self_iff, readLine_eq_skip_iff⟩

/-- The second number needs a blank before it, the first one none behind it. -/
example : (readLine "5Customer 3".toList ⟨[], []⟩).map (·.arrivals) = some [⟨5, 3⟩] ∧
    (readLine "5 Customer3".toList ⟨[], []⟩).map (·.arrivals) = some [] := by decide

/-! ## The whole input -/

inductive Entry where
  | arrival (a : Arrival)
  /-- Anything else up to the end of the line. -/
  | other (text : List Char)
  deriving DecidableEq, Repr

namespace Entry

/-- An arrival as the README has it. -/
def text : Entry → List Char
  | arrival a => decimal a.ts ++ ([' '] ++ ("Customer".toList ++ ([' '] ++ decimal a.id)))
  | other text => text

/-- What is scanned: the line with its end, up to a NUL. -/
def line (e : Entry) : List Char := upToNul (e.text ++ ['\n'])

def arrival? : Entry → Option Arrival
  | arrival a => some a
  | other _ => none

def message? : Entry → Option (List Char)
  | arrival _ => none
  | other text =>
      let line := (other text).line
      if line = [] then none else some ("Skipping invalid line: ".toList ++ line)

/-- The numbers are of type `int`; any other line fits the buffer and is neither an arrival nor the
end. -/
def Fits : Entry → Prop
  | arrival a => (-2147483648 ≤ a.ts ∧ a.ts ≤ 2147483647) ∧ -2147483648 ≤ a.id ∧ a.id ≤ 2147483647
  | other text => '\n' ∉ text ∧ text.length + 2 ≤ lineSize ∧
      ¬ eofMark <+: (other text).line ∧ ∀ a, ¬ ArrivalLine (other text).line a

def applied (r : Reading) (e : Entry) : Reading :=
  ⟨r.arrivals ++ e.arrival?.toList, r.messages ++ e.message?.toList⟩

theorem mem_text_arrival {a : Arrival} {c : Char} (h : c ∈ (arrival a).text) :
    c ≠ '\n' ∧ c ≠ '\x00' := by
  have hnumber : ∀ n, c ∈ decimal n → c ≠ '\n' ∧ c ≠ '\x00' := by
    intro n hc
    constructor <;> (rintro rfl; cases mem_decimal hc <;> contradiction)
  have hblank : ∀ d ∈ [' '], d ≠ '\n' ∧ d ≠ '\x00' := by simp
  have hword : ∀ d ∈ "Customer".toList, d ≠ '\n' ∧ d ≠ '\x00' := by simp
  simp only [text, List.mem_append] at h
  obtain hts | hgap | hcustomer | hgap | hid := h
  · exact hnumber _ hts
  · exact hblank c hgap
  · exact hword c hcustomer
  · exact hblank c hgap
  · exact hnumber _ hid

theorem line_arrival (a : Arrival) :
    (arrival a).line =
      decimal a.ts ++ ([' '] ++ ("Customer".toList ++ ([' '] ++ (decimal a.id ++ ['\n'])))) := by
  have hnul : ∀ c ∈ (arrival a).text ++ ['\n'], (c != '\x00') = true := by
    intro c hc
    cases List.mem_append.mp hc with
    | inl htext => simpa using (mem_text_arrival htext).2
    | inr hend => rw [List.mem_singleton.mp hend]; rfl
  rw [line, upToNul, List.takeWhile_eq_self_iff.mpr hnul]
  simp only [text, List.append_assoc]

theorem arrivalLine_line {a : Arrival} (h : (arrival a).Fits) :
    ArrivalLine (arrival a).line a := by
  obtain ⟨⟨hts, hts'⟩, hid, hid'⟩ := h
  have hblank : ∀ c ∈ [' '], isBlank c = true := by simp [isBlank]
  have hend : Stops Char.isDigit ['\n'] := by
    intro c hc
    cases hc
    rfl
  have hgap : Stops Char.isDigit
      ([' '] ++ ("Customer".toList ++ ([' '] ++ (decimal a.id ++ ['\n'])))) := stops_gap hblank
  have hword : IsWord 63 [' '] "Customer".toList ([' '] ++ (decimal a.id ++ ['\n'])) :=
    isWord_customer hblank hblank (by simp)
  have hnone : ∀ c ∈ [], isBlank c = true := by simp
  have hscan := scanInt_decimal hts hts' hnone hgap
  have hscan' := scanInt_decimal hid hid' hblank hend
  rw [line_arrival]
  exact scanArrival_customer_iff.mp
    (scanArrival_eq_some_iff.mpr ⟨_, _, _, hscan, hword.scanWord_eq, hscan'⟩)

theorem notMem_text {e : Entry} (h : e.Fits) : '\n' ∉ e.text := by
  cases e with
  | arrival a => exact fun hmem => (mem_text_arrival hmem).1 rfl
  | other text => exact h.1

theorem length_text_le {e : Entry} (h : e.Fits) : e.text.length + 2 ≤ lineSize := by
  cases e with
  | arrival a =>
      obtain ⟨⟨hts, hts'⟩, hid, hid'⟩ := h
      have hlength := length_decimal hts hts'
      have hlength' := length_decimal hid hid'
      have hword : "Customer".toList.length = 8 := rfl
      simp only [text, List.length_append, List.length_singleton, hword, lineSize]
      omega
  | other text => exact h.2.1

theorem readLine_line {e : Entry} (h : e.Fits) (r : Reading) :
    readLine e.line r = some (applied r e) := by
  cases e with
  | arrival a =>
      rw [readLine_eq_add_iff.mpr (arrivalLine_line h)]
      simp [applied, Reading.add, arrival?, message?]
  | other text =>
      obtain ⟨-, -, hmore, hrejected⟩ := h
      by_cases hempty : (other text).line = []
      · rw [readLine_eq_self_iff.mpr hempty]
        simp [applied, arrival?, message?, hempty]
      · rw [readLine_eq_skip_iff.mpr ⟨hmore, hempty, hrejected⟩]
        simp [applied, Reading.skip, arrival?, message?, hempty]

end Entry

/-- The entries, each on a line of its own. -/
def entriesText (entries : List Entry) : List Char := entries.flatMap fun e => e.text ++ ['\n']

theorem eofMark_prefix_buffer (junk : List Char) :
    eofMark <+: upToNul (takeThrough '\n' ((eofMark ++ junk).take (lineSize - 1))) :=
  ⟨upToNul (takeThrough '\n' (junk.take 250)), rfl⟩

theorem readLoop_tail {tail : List Char} (htail : tail = [] ∨ eofMark <+: tail) (fuel : Nat)
    (r : Reading) : readLoop fuel tail r = r := by
  cases fuel with
  | zero => rfl
  | succ fuel =>
      obtain rfl | ⟨junk, rfl⟩ := htail
      · rfl
      · have hread : fgets '\n' lineSize (eofMark ++ junk) = some _ := if_neg (by simp [eofMark])
        rw [readLoop, hread]
        dsimp only
        rw [readLine_eq_none_iff.mpr (eofMark_prefix_buffer junk)]

theorem readLoop_entries {entries : List Entry} (hfits : ∀ e ∈ entries, e.Fits)
    {tail : List Char} (htail : tail = [] ∨ eofMark <+: tail) {fuel : Nat}
    (hfuel : (entriesText entries ++ tail).length ≤ fuel) (r : Reading) :
    readLoop fuel (entriesText entries ++ tail) r = entries.foldl Entry.applied r := by
  induction entries generalizing fuel r with
  | nil => exact readLoop_tail htail fuel r
  | cons e entries ih =>
      have he := hfits e (by simp)
      have hinput : entriesText (e :: entries) ++ tail =
          e.text ++ '\n' :: (entriesText entries ++ tail) := by
        simp [entriesText]
      have hread := fgets_line (Entry.notMem_text he) (Entry.length_text_le he)
        (entriesText entries ++ tail)
      have hline := Entry.readLine_line he r
      rw [hinput] at hfuel ⊢
      cases fuel with
      | zero => simp at hfuel
      | succ fuel =>
          rw [readLoop, hread]
          dsimp only
          rw [← Entry.line, hline]
          refine ih (fun e' he' => hfits e' (List.mem_cons_of_mem _ he')) ?_ _
          simp only [List.length_append, List.length_cons] at hfuel ⊢
          omega

theorem foldl_applied (entries : List Entry) (r : Reading) :
    entries.foldl Entry.applied r =
      ⟨r.arrivals ++ entries.filterMap Entry.arrival?,
        r.messages ++ entries.filterMap Entry.message?⟩ := by
  induction entries generalizing r with
  | nil => simp
  | cons e entries ih =>
      rw [List.foldl_cons, ih]
      cases harrival : e.arrival? <;> cases hmessage : e.message? <;>
        simp [Entry.applied, harrival, hmessage]

/-- The arrivals of the input are read in their order, and every other line is reported, up to the
line `<EOF>` or the end of the input. -/
theorem readArrivals_entries {entries : List Entry} (hfits : ∀ e ∈ entries, e.Fits)
    {tail : List Char} (htail : tail = [] ∨ eofMark <+: tail) :
    readArrivals (entriesText entries ++ tail) =
      ⟨entries.filterMap Entry.arrival?, entries.filterMap Entry.message?⟩ := by
  rw [readArrivals, readLoop_entries hfits htail (Nat.le_refl _), foldl_applied]
  simp

theorem readArrivals_entries_two :
    readArrivals "0 Customer 1\nno customer\n2 Customer 5\n<EOF>\n3 Customer 6\n".toList =
      ⟨[⟨0, 1⟩, ⟨2, 5⟩], ["Skipping invalid line: no customer\n".toList]⟩ := by
  have hother : (Entry.other "no customer".toList).Fits := by
    refine ⟨by decide, by decide, by decide, fun a ha => ?_⟩
    cases scanArrival_customer_iff.mpr ha
  have hfits : ∀ e ∈ [Entry.arrival ⟨0, 1⟩, .other "no customer".toList, .arrival ⟨2, 5⟩],
      e.Fits := by
    simp only [List.mem_cons, List.not_mem_nil, or_false, forall_eq_or_imp, forall_eq]
    exact ⟨⟨by decide, by decide⟩, hother, by decide, by decide⟩
  have htail : eofMark <+: "<EOF>\n3 Customer 6\n".toList := ⟨_, rfl⟩
  exact readArrivals_entries hfits (.inr htail)

end OxyC.Bakery
