import Mathlib.Algebra.Order.Ring.Int
import Mathlib.Data.List.TakeWhile
import Mathlib.Data.Option.Basic

/-!
# Conversions of `sscanf` and `printf`

`%d` and `%<width>s` on a string, and what `%d` prints.  A number that does not
fit is read as a `long`, at the end of its range, and cut down to an `int`.
-/

namespace OxyC.Foundation

/-! ## The longest match -/

section Span

variable {α : Type*} {q : α → Bool} {a b s : List α}

/-- A scan over the elements of `q` does not go into the list. -/
def Stops (q : α → Bool) (s : List α) : Prop := ∀ x ∈ s.head?, q x = false

theorem stops_dropWhile (q : α → Bool) (s : List α) : Stops q (s.dropWhile q) := by
  intro x hx
  have hhead := List.head?_dropWhile_not q s
  rw [Option.mem_def.mp hx] at hhead
  exact hhead

theorem takeWhile_append_of_stops (ha : ∀ x ∈ a, q x = true) (hb : Stops q b) :
    (a ++ b).takeWhile q = a ∧ (a ++ b).dropWhile q = b := by
  rw [List.takeWhile_append_of_pos ha, List.dropWhile_append_of_pos ha]
  cases b with
  | nil => simp
  | cons x b =>
      have hx := hb x rfl
      simp [hx]

end Span

/-! ## Numbers -/

/-- The string that a buffer holds. -/
def upToNul (buffer : List Char) : List Char := buffer.takeWhile (· != '\x00')

/-- `isspace` in the C locale. -/
def isBlank (c : Char) : Bool := c ∈ [' ', '\t', '\n', '\x0b', '\x0c', '\r']

def splitSign : List Char → List Char × List Char
  | '-' :: s => (['-'], s)
  | '+' :: s => (['+'], s)
  | s => ([], s)

/-- `strtol`, and the conversion of its result to `int`. -/
def toInt (sign : List Char) (n : Nat) : Int :=
  let long : Int := if sign = ['-'] then max (-n) (-2 ^ 63) else min n (2 ^ 63 - 1)
  long.bmod (2 ^ 32)

/-- `%d`: the number and what is behind it. -/
def scanInt (s : List Char) : Option (Int × List Char) :=
  let (sign, rest) := splitSign (s.dropWhile isBlank)
  let digits := rest.takeWhile Char.isDigit
  if digits = [] then none
  else some (toInt sign (Nat.ofDigitChars 10 digits 0), rest.dropWhile Char.isDigit)

/-- `%<width>s` -/
def scanWord (width : Nat) (s : List Char) : Option (List Char × List Char) :=
  let rest := s.dropWhile isBlank
  let word := (rest.take width).takeWhile (!isBlank ·)
  if word = [] then none else some (word, rest.drop word.length)

/-- The parts of what `%d` reads. -/
structure IsNumeral (blanks sign digits : List Char) : Prop where
  blanks : ∀ c ∈ blanks, isBlank c = true
  sign : sign ∈ [[], ['-'], ['+']]
  nonempty : digits ≠ []
  digits : ∀ c ∈ digits, c.isDigit = true

theorem isBlank_of_isDigit {c : Char} (h : c.isDigit = true) : isBlank c = false := by
  by_contra hblank
  simp only [isBlank, Bool.not_eq_false, decide_eq_true_eq, List.mem_cons, List.not_mem_nil,
    or_false] at hblank
  obtain rfl | rfl | rfl | rfl | rfl | rfl := hblank <;> cases h

theorem splitSign_spec (s : List Char) :
    s = (splitSign s).1 ++ (splitSign s).2 ∧ (splitSign s).1 ∈ [[], ['-'], ['+']] := by
  unfold splitSign
  split <;> simp

namespace IsNumeral

variable {blanks sign digits rest : List Char}

theorem exists_cons (h : IsNumeral blanks sign digits) :
    ∃ c digits', digits = c :: digits' ∧ c.isDigit = true := by
  obtain ⟨c, digits', rfl⟩ := List.exists_cons_of_ne_nil h.nonempty
  exact ⟨c, digits', rfl, h.digits c (by simp)⟩

theorem splitSign_eq (h : IsNumeral blanks sign digits) :
    splitSign (sign ++ (digits ++ rest)) = (sign, digits ++ rest) := by
  obtain ⟨c, digits', rfl, hdigit⟩ := h.exists_cons
  have hsign := h.sign
  simp only [List.mem_cons, List.not_mem_nil, or_false] at hsign
  obtain rfl | rfl | rfl := hsign
  · have hminus : c ≠ '-' := by
      rintro rfl
      cases hdigit
    have hplus : c ≠ '+' := by
      rintro rfl
      cases hdigit
    simp [splitSign, hminus, hplus]
  · rfl
  · rfl

theorem exists_head (h : IsNumeral blanks sign digits) (rest : List Char) :
    ∃ c s, sign ++ (digits ++ rest) = c :: s ∧ isBlank c = false := by
  obtain ⟨c, digits', rfl, hdigit⟩ := h.exists_cons
  have hsign := h.sign
  simp only [List.mem_cons, List.not_mem_nil, or_false] at hsign
  obtain rfl | rfl | rfl := hsign
  · exact ⟨c, _, rfl, isBlank_of_isDigit hdigit⟩
  · exact ⟨'-', _, rfl, rfl⟩
  · exact ⟨'+', _, rfl, rfl⟩

theorem dropBlanks_eq (h : IsNumeral blanks sign digits) :
    (blanks ++ (sign ++ (digits ++ rest))).dropWhile isBlank = sign ++ (digits ++ rest) := by
  refine (takeWhile_append_of_stops h.blanks ?_).2
  obtain ⟨c, s, heq, hblank⟩ := h.exists_head rest
  rw [heq]
  intro x hx
  cases hx
  exact hblank

theorem scanInt_eq (h : IsNumeral blanks sign digits) (hrest : Stops Char.isDigit rest) :
    scanInt (blanks ++ (sign ++ (digits ++ rest))) =
      some (toInt sign (Nat.ofDigitChars 10 digits 0), rest) := by
  obtain ⟨htake, hdrop⟩ := takeWhile_append_of_stops h.digits hrest
  simp only [scanInt, h.dropBlanks_eq, h.splitSign_eq, htake, hdrop]
  exact if_neg h.nonempty

end IsNumeral

theorem scanInt_eq_some_iff {s rest : List Char} {v : Int} :
    scanInt s = some (v, rest) ↔
      ∃ blanks sign digits, s = blanks ++ (sign ++ (digits ++ rest)) ∧
        IsNumeral blanks sign digits ∧ Stops Char.isDigit rest ∧
          v = toInt sign (Nat.ofDigitChars 10 digits 0) := by
  constructor
  · intro h
    obtain ⟨hsplit, hsign⟩ := splitSign_spec (s.dropWhile isBlank)
    simp only [scanInt] at h
    split at h
    case isTrue => cases h
    case isFalse hnonempty =>
      cases h
      refine ⟨s.takeWhile isBlank, (splitSign (s.dropWhile isBlank)).1,
        (splitSign (s.dropWhile isBlank)).2.takeWhile Char.isDigit, ?_, ?_,
        stops_dropWhile _ _, rfl⟩
      · rw [List.takeWhile_append_dropWhile, ← hsplit, List.takeWhile_append_dropWhile]
      · exact ⟨fun c hc => List.mem_takeWhile_imp hc, hsign, hnonempty,
          fun c hc => List.mem_takeWhile_imp hc⟩
  · rintro ⟨blanks, sign, digits, rfl, h, hrest, rfl⟩
    exact h.scanInt_eq hrest

/-! ## Words -/

/-- A word of which `%<width>s` reads exactly the part before `rest`. -/
structure IsWord (width : Nat) (blanks word rest : List Char) : Prop where
  blanks : ∀ c ∈ blanks, isBlank c = true
  nonempty : word ≠ []
  chars : ∀ c ∈ word, isBlank c = false
  length_le : word.length ≤ width
  rest : word.length = width ∨ Stops (!isBlank ·) rest

theorem Stops.take {α : Type*} {q : α → Bool} {s : List α} (h : Stops q s) (n : Nat) :
    Stops q (s.take n) := by
  intro x hx
  rw [List.head?_take] at hx
  split at hx
  · cases hx
  · exact h x hx

/-- A scan of at most `n` elements ends there or at an element that is not of `q`. -/
theorem stops_drop_takeWhile {α : Type*} (q : α → Bool) (n : Nat) (s : List α) :
    ((s.take n).takeWhile q).length = n ∨ Stops q (s.drop ((s.take n).takeWhile q).length) := by
  induction s generalizing n with
  | nil =>
      right
      rw [List.drop_nil]
      nofun
  | cons x s ih =>
      cases n with
      | zero => exact .inl rfl
      | succ n =>
          rw [List.take_succ_cons]
          cases hx : q x with
          | false =>
              right
              rw [List.takeWhile_cons_of_neg (by simp [hx])]
              rintro y hy
              cases hy
              exact hx
          | true =>
              rw [List.takeWhile_cons_of_pos hx, List.length_cons, List.drop_succ_cons]
              exact (ih n).imp_left fun h => congrArg (· + 1) h

theorem IsWord.dropBlanks_eq {width : Nat} {blanks word rest : List Char}
    (h : IsWord width blanks word rest) :
    (blanks ++ (word ++ rest)).dropWhile isBlank = word ++ rest := by
  refine (takeWhile_append_of_stops h.blanks ?_).2
  obtain ⟨c, word', rfl⟩ := List.exists_cons_of_ne_nil h.nonempty
  intro x hx
  cases hx
  exact h.chars c (by simp)

theorem IsWord.scanWord_eq {width : Nat} {blanks word rest : List Char}
    (h : IsWord width blanks word rest) :
    scanWord width (blanks ++ (word ++ rest)) = some (word, rest) := by
  have hword : ((word ++ rest).take width).takeWhile (!isBlank ·) = word := by
    rw [List.take_append, List.take_of_length_le h.length_le]
    refine (takeWhile_append_of_stops (fun c hc => by simp [h.chars c hc]) ?_).1
    obtain hfull | hstops := h.rest
    · rw [hfull, Nat.sub_self, List.take_zero]
      nofun
    · exact hstops.take _
  simp only [scanWord, h.dropBlanks_eq, hword]
  rw [if_neg h.nonempty, List.drop_left]

theorem scanWord_eq_some_iff {width : Nat} {s word rest : List Char} :
    scanWord width s = some (word, rest) ↔
      ∃ blanks, s = blanks ++ (word ++ rest) ∧ IsWord width blanks word rest := by
  constructor
  · intro h
    simp only [scanWord] at h
    split at h
    case isTrue => cases h
    case isFalse hnonempty =>
      cases h
      have hprefix := (List.takeWhile_prefix (!isBlank ·)).trans
        (List.take_prefix width (s.dropWhile isBlank))
      refine ⟨s.takeWhile isBlank, ?_, fun c hc => List.mem_takeWhile_imp hc, hnonempty,
        fun c hc => ?_, ?_, stops_drop_takeWhile _ _ _⟩
      · rw [List.prefix_iff_eq_append.mp hprefix, List.takeWhile_append_dropWhile]
      · simpa using List.mem_takeWhile_imp hc
      · exact (List.takeWhile_prefix _).length_le.trans (List.length_take_le ..)
  · rintro ⟨blanks, rfl, h⟩
    exact h.scanWord_eq

/-! ## Numbers as they are printed -/

/-- What `%d` prints. -/
def decimal (n : Int) : List Char :=
  (if n < 0 then ['-'] else []) ++ Nat.toDigits 10 n.natAbs

theorem toInt_of_int {n : Int} (hlow : -2147483648 ≤ n) (hhigh : n ≤ 2147483647) :
    toInt (if n < 0 then ['-'] else []) n.natAbs = n := by
  unfold toInt
  by_cases hn : n < 0
  · simp only [hn, if_true]
    rw [Int.max_eq_left (by omega), Int.bmod_eq_of_le (by omega) (by omega)]
    omega
  · simp only [hn, if_false, reduceCtorEq]
    rw [Int.min_eq_left (by omega), Int.bmod_eq_of_le (by omega) (by omega)]
    omega

theorem isNumeral_decimal {blanks : List Char} (hblanks : ∀ c ∈ blanks, isBlank c = true)
    (n : Int) : IsNumeral blanks (if n < 0 then ['-'] else []) (Nat.toDigits 10 n.natAbs) where
  blanks := hblanks
  sign := by split <;> simp
  nonempty := Nat.toDigits_ne_nil
  digits := fun _ hc => Nat.isDigit_of_mem_toDigits (by decide) (by decide) hc

theorem length_decimal {n : Int} (hlow : -2147483648 ≤ n) (hhigh : n ≤ 2147483647) :
    (decimal n).length ≤ 11 := by
  have hdigits : (Nat.toDigits 10 n.natAbs).length ≤ 10 := by
    rw [Nat.length_toDigits_le_iff (by decide) (by decide)]
    omega
  rw [decimal, List.length_append]
  split <;> simp <;> omega

theorem mem_decimal {n : Int} {c : Char} (h : c ∈ decimal n) : c = '-' ∨ c.isDigit = true := by
  rw [decimal, List.mem_append] at h
  refine h.imp (fun hsign => ?_) fun hdigit => ?_
  · split at hsign
    · exact List.mem_singleton.mp hsign
    · cases hsign
  · exact Nat.isDigit_of_mem_toDigits (by decide) (by decide) hdigit

/-- A number of type `int` is read back. -/
theorem scanInt_decimal {n : Int} (hlow : -2147483648 ≤ n) (hhigh : n ≤ 2147483647)
    {blanks rest : List Char} (hblanks : ∀ c ∈ blanks, isBlank c = true)
    (hrest : Stops Char.isDigit rest) :
    scanInt (blanks ++ (decimal n ++ rest)) = some (n, rest) := by
  have h := (isNumeral_decimal hblanks n).scanInt_eq hrest
  rw [← List.append_assoc (if n < 0 then _ else _), Nat.ofDigitChars_ten_toDigits,
    toInt_of_int hlow hhigh] at h
  exact h

end OxyC.Foundation
