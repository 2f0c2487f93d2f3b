import OxyC.Shell.Token
import Mathlib.Data.List.Forall2

/-!
# Tokens written out and read back

A list of tokens may be written with each name between quotes, the operators as
they stand, and one blank between two tokens.  `tokenize` reads the list back,
whichever of the two quotes is taken for a name that contains neither.
-/

namespace OxyC.Shell

open OxyC.Foundation

/-- The characters up to the NUL that ends a C string. -/
def cString (buffer : List Char) : List Char := buffer.takeWhile (· != '\x00')

theorem cString_append {s : List Char} (h : '\x00' ∉ s) (rest : List Char) :
    cString (s ++ '\x00' :: rest) = s := by
  have hmem : '\x00' ∈ s ++ ['\x00'] := by simp
  rw [cString, List.append_cons, takeWhile_bne_append hmem, takeWhile_concat (by simp),
    takeWhile_bne_of_not_mem h]

inductive Writes : Token (List Char) → List Char → Prop
  | name {quote : Char} {text : List Char} (isQuote : isQuote quote = true)
      (absent : quote ∉ text) : Writes (.name text) (quote :: text ++ [quote])
  | pipe : Writes .pipe ['|']
  | amp : Writes .amp ['&']
  | lt : Writes .lt ['<']
  | gt : Writes .gt ['>']
  | gtGt : Writes .gtGt ['>', '>']
  | semi : Writes .semi [';']

def WritesLine (ts : List (Token (List Char))) (s : List Char) : Prop :=
  ∃ texts, List.Forall₂ Writes ts texts ∧ s = [' '].intercalate texts

/-- What a writer can put down: a name has to leave out one of the quotes. -/
def Writable : Token (List Char) → Prop
  | .name text => '"' ∉ text ∨ '\'' ∉ text
  | .eof => False
  | .andAnd => False
  | _ => True

/-- The text of a name never shows the NUL that would end the line. -/
def NoNul : Token (List Char) → Prop
  | .name text => '\x00' ∉ text
  | _ => True

theorem writable_iff (t : Token (List Char)) : Writable t ↔ ∃ text, Writes t text := by
  constructor
  · intro h
    cases t with
    | eof => exact h.elim
    | andAnd => exact h.elim
    | name text =>
        cases h with
        | inl hdouble => exact ⟨'"' :: text ++ ['"'], .name rfl hdouble⟩
        | inr hsingle => exact ⟨'\'' :: text ++ ['\''], .name rfl hsingle⟩
    | pipe => exact ⟨_, .pipe⟩
    | amp => exact ⟨_, .amp⟩
    | lt => exact ⟨_, .lt⟩
    | gt => exact ⟨_, .gt⟩
    | gtGt => exact ⟨_, .gtGt⟩
    | semi => exact ⟨_, .semi⟩
  · rintro ⟨text, h⟩
    cases h with
    | @name quote text hquote habsent =>
        have hq : quote = '"' ∨ quote = '\'' := by simpa [isQuote] using hquote
        cases hq with
        | inl hq => exact .inl (hq ▸ habsent)
        | inr hq => exact .inr (hq ▸ habsent)
    | pipe => trivial
    | amp => trivial
    | lt => trivial
    | gt => trivial
    | gtGt => trivial
    | semi => trivial

/-! ## One token at the head of a line -/

/-- A text stops where a blank or the end of the line follows it. -/
def Separated (rest : List Char) : Prop := rest = [] ∨ ∃ behind, rest = ' ' :: behind

theorem scan_quoted {quote : Char} {text : List Char} (hquote : isQuote quote = true)
    (habsent : quote ∉ text) (rest : List Char) :
    scan quote (text ++ quote :: rest) = (.name text, rest) := by
  have hmem : quote ∈ text ++ [quote] := by simp
  rw [scan_quote hquote, List.append_cons, takeWhile_bne_append hmem, dropWhile_bne_append hmem,
    takeWhile_concat (by simp), dropWhile_concat (by simp), takeWhile_bne_of_not_mem habsent,
    dropWhile_bne_of_not_mem habsent]
  rfl

theorem isSpace_of_isQuote {c : Char} (h : isQuote c = true) : isSpace c = false := by
  have hc : c = '"' ∨ c = '\'' := by simpa [isQuote] using h
  cases hc <;> subst c <;> rfl

/-- A `>` alone is not taken for the first half of `>>`, as a blank follows it. -/
theorem scan_gt {rest : List Char} (h : Separated rest) : scan '>' rest = (.gt, rest) := by
  cases h with
  | inl hnil => rw [hnil]; rfl
  | inr hblank =>
      obtain ⟨behind, rfl⟩ := hblank
      rfl

theorem tokenize_writes {t : Token (List Char)} {text rest : List Char} (h : Writes t text)
    (hrest : Separated rest) : tokenize (text ++ rest) = t :: tokenize rest := by
  cases h with
  | @name quote text hquote habsent =>
      have hline : quote :: text ++ [quote] ++ rest = quote :: (text ++ quote :: rest) := by simp
      rw [hline, tokenize_token (isSpace_of_isQuote hquote), scan_quoted hquote habsent]
  | pipe => exact tokenize_token rfl rest
  | amp => exact tokenize_token rfl rest
  | lt => exact tokenize_token rfl rest
  | gt =>
      rw [List.singleton_append, tokenize_token rfl, scan_gt hrest]
  | gtGt => exact tokenize_token rfl ('>' :: rest)
  | semi => exact tokenize_token rfl rest

/-! ## The whole line -/

theorem tokenize_intercalate {ts : List (Token (List Char))} {texts : List (List Char)}
    (h : List.Forall₂ Writes ts texts) :
    tokenize ([' '].intercalate texts) = ts ++ [.eof] := by
  induction h with
  | nil => rfl
  | @cons t text ts texts hhead hrest ih =>
      cases hrest with
      | nil =>
          rw [List.intercalate_singleton, ← List.append_nil text, tokenize_writes hhead (.inl rfl)]
          rfl
      | @cons t' text' ts texts hnext hrest =>
          rw [List.intercalate_cons_cons, List.append_assoc, List.singleton_append,
            tokenize_writes hhead (.inr ⟨_, rfl⟩), tokenize_space rfl, ih]
          rfl

theorem nul_not_mem_writes {t : Token (List Char)} {text : List Char} (h : Writes t text)
    (hnul : NoNul t) : '\x00' ∉ text := by
  cases h with
  | @name quote text hquote habsent =>
      have hq : '\x00' ≠ quote := by
        rintro rfl
        simp [isQuote] at hquote
      simpa [hq] using show '\x00' ∉ text from hnul
  | pipe => simp
  | amp => simp
  | lt => simp
  | gt => simp
  | gtGt => simp
  | semi => simp

theorem nul_not_mem_writesLine {ts : List (Token (List Char))} {s : List Char}
    (h : WritesLine ts s) (hnul : ∀ t ∈ ts, NoNul t) : '\x00' ∉ s := by
  obtain ⟨texts, htexts, rfl⟩ := h
  induction htexts with
  | nil => simp
  | @cons t text ts texts hhead hrest ih =>
      have hfirst := nul_not_mem_writes hhead (hnul t (by simp))
      have hothers := ih fun t' ht' => hnul t' (List.mem_cons_of_mem t ht')
      cases texts with
      | nil => rwa [List.intercalate_singleton]
      | cons text' texts =>
          rw [List.intercalate_cons_cons]
          simp only [List.mem_append, not_or]
          exact ⟨⟨hfirst, by simp⟩, hothers⟩

theorem writesLine_exists {ts : List (Token (List Char))} (h : ∀ t ∈ ts, Writable t) :
    ∃ s, WritesLine ts s := by
  induction ts with
  | nil => exact ⟨_, [], .nil, rfl⟩
  | cons t ts ih =>
      obtain ⟨text, htext⟩ := (writable_iff t).mp (h t (by simp))
      obtain ⟨s, texts, htexts, -⟩ := ih fun t' ht' => h t' (List.mem_cons_of_mem t ht')
      exact ⟨_, text :: texts, .cons htext htexts, rfl⟩

/-- Token round trip, in a buffer that may hold anything behind the end of the line. -/
theorem tokenize_round_trip (ts : List (Token (List Char))) (hwritable : ∀ t ∈ ts, Writable t)
    (hnul : ∀ t ∈ ts, NoNul t) :
    (∃ s, WritesLine ts s) ∧
      ∀ s rest, WritesLine ts s → tokenize (cString (s ++ '\x00' :: rest)) = ts ++ [.eof] := by
  refine ⟨writesLine_exists hwritable, ?_⟩
  intro s rest hline
  have hmem : '\x00' ∉ s := nul_not_mem_writesLine hline hnul
  obtain ⟨texts, htexts, rfl⟩ := hline
  rw [cString_append hmem, tokenize_intercalate htexts]

theorem tokenize_round_trip_blanks :
    tokenize (cString ("\"a >> b'\" >> '' ;".toList ++ ['\x00', 'x'])) =
      [.name "a >> b'".toList, .gtGt, .name [], .semi, .eof] := by
  have h := tokenize_round_trip [.name "a >> b'".toList, .gtGt, .name [], .semi]
    (by simp [Writable]) (by simp [NoNul])
  exact h.2 _ ['x'] ⟨["\"a >> b'\"".toList, ">>".toList, "''".toList, ";".toList],
    .cons (.name (by decide) (by decide)) (.cons .gtGt (.cons (.name (by decide) (by decide))
      (.cons .semi .nil))), by decide⟩

end OxyC.Shell
