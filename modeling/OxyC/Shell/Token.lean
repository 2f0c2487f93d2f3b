import OxyC.Foundation.Scan
import Mathlib.Data.List.Infix

/-!
# The tokenizer of the shell

`tokenize` in `token.c` on the characters of a C string.  A token has a text
exactly when it is a name; the parser never looks at that text, so tokens are
stated over any type of texts.
-/

namespace OxyC.Shell

open OxyC.Foundation

inductive TokenType where
  | eof
  | name
  | pipe
  | amp
  | lt
  | gt
  | gtGt
  | semi
  | andAnd
  deriving DecidableEq, Repr

inductive Token (τ : Type*) where
  | eof
  | name (text : τ)
  | pipe
  | amp
  | lt
  | gt
  | gtGt
  | semi
  | andAnd
  deriving DecidableEq, Repr

namespace Token

variable {τ τ' : Type*}

def type : Token τ → TokenType
  | .eof => .eof
  | .name _ => .name
  | .pipe => .pipe
  | .amp => .amp
  | .lt => .lt
  | .gt => .gt
  | .gtGt => .gtGt
  | .semi => .semi
  | .andAnd => .andAnd

def map (f : τ → τ') : Token τ → Token τ'
  | .eof => .eof
  | .name text => .name (f text)
  | .pipe => .pipe
  | .amp => .amp
  | .lt => .lt
  | .gt => .gt
  | .gtGt => .gtGt
  | .semi => .semi
  | .andAnd => .andAnd

@[simp] theorem type_map (f : τ → τ') (t : Token τ) : (t.map f).type = t.type := by
  cases t <;> rfl

end Token

/-- `isspace` in the C locale. -/
def isSpace (c : Char) : Bool :=
  c == ' ' || c == '\t' || c == '\n' || c == '\x0b' || c == '\x0c' || c == '\r'

def isQuote (c : Char) : Bool := c == '"' || c == '\''

/-- The condition of the loop over a word: quotes do not end it. -/
def inWord (c : Char) : Bool := !isSpace c && !(['|', '&', '>', '<', ';'].contains c)

/-- One token, at the character `c` which is no white space, with `p` behind it. -/
def scan (c : Char) (p : List Char) : Token (List Char) × List Char :=
  if c = '&' then (.amp, p)
  else if c = '|' then (.pipe, p)
  else if c = '<' then (.lt, p)
  else if c = '>' then
    match p with
    | '>' :: p => (.gtGt, p)
    | p => (.gt, p)
  else if c = ';' then (.semi, p)
  else if isQuote c then (.name (p.takeWhile (· != c)), (p.dropWhile (· != c)).drop 1)
  else (.name ((c :: p).takeWhile inWord), (c :: p).dropWhile inWord)

/-- The loop of `tokenize`; each round advances, so `s.length` rounds are enough. -/
def tokenizeFuel : Nat → List Char → List (Token (List Char))
  | 0, _ => [.eof]
  | _ + 1, [] => [.eof]
  | fuel + 1, c :: p =>
      if isSpace c then tokenizeFuel fuel p
      else (scan c p).1 :: tokenizeFuel fuel (scan c p).2

def tokenize (s : List Char) : List (Token (List Char)) := tokenizeFuel s.length s

theorem dropWhile_inWord_suffix {c : Char} {p : List Char} (h : inWord c = true) :
    (c :: p).dropWhile inWord <:+ p := by
  rw [List.dropWhile_cons_of_pos h]
  exact List.dropWhile_suffix _

theorem scan_suffix {c : Char} {p : List Char} (h : isSpace c = false) :
    (scan c p).2 <:+ p := by
  unfold scan
  split
  · exact List.suffix_rfl
  split
  · exact List.suffix_rfl
  split
  · exact List.suffix_rfl
  split
  · split
    · exact List.suffix_cons _ _
    · exact List.suffix_rfl
  split
  · exact List.suffix_rfl
  split
  · exact (List.drop_suffix _ _).trans (List.dropWhile_suffix _)
  · apply dropWhile_inWord_suffix
    simp_all [inWord]

theorem scan_length_le {c : Char} {p : List Char} (h : isSpace c = false) :
    (scan c p).2.length ≤ p.length := (scan_suffix h).length_le

/-- A recursion along the tokens does not depend on its fuel once there is enough. -/
theorem fuel_irrelevant {β : Type*} {f : Nat → List Char → β} (nil : ∀ fuel, f fuel [] = f 0 [])
    (space : ∀ fuel c p, isSpace c = true → f (fuel + 1) (c :: p) = f fuel p)
    (token : ∀ fuel fuel' c p, isSpace c = false → f fuel (scan c p).2 = f fuel' (scan c p).2 →
      f (fuel + 1) (c :: p) = f (fuel' + 1) (c :: p))
    {fuel fuel' : Nat} {s : List Char} (h : s.length ≤ fuel) (h' : s.length ≤ fuel') :
    f fuel s = f fuel' s := by
  induction fuel generalizing fuel' s with
  | zero =>
      have hnil : s = [] := List.eq_nil_of_length_eq_zero (by omega)
      rw [hnil, nil fuel']
  | succ fuel ih =>
      cases s with
      | nil => rw [nil (fuel + 1), nil fuel']
      | cons c p =>
          rw [List.length_cons] at h h'
          cases fuel' with
          | zero => omega
          | succ fuel' =>
              cases hspace : isSpace c with
              | true =>
                  rw [space fuel c p hspace, space fuel' c p hspace]
                  exact ih (by omega) (by omega)
              | false =>
                  have hle : (scan c p).2.length ≤ p.length := scan_length_le hspace
                  exact token fuel fuel' c p hspace (ih (by omega) (by omega))

theorem tokenizeFuel_eq {fuel fuel' : Nat} {s : List Char} (h : s.length ≤ fuel)
    (h' : s.length ≤ fuel') : tokenizeFuel fuel s = tokenizeFuel fuel' s := by
  refine fuel_irrelevant ?_ ?_ ?_ h h'
  · intro fuel
    cases fuel <;> rfl
  · intro fuel c p hspace
    simp [tokenizeFuel, hspace]
  · intro fuel fuel' c p hspace heq
    simp [tokenizeFuel, hspace, heq]

@[simp] theorem tokenize_nil : tokenize [] = [.eof] := rfl

theorem tokenize_space {c : Char} (h : isSpace c = true) (p : List Char) :
    tokenize (c :: p) = tokenize p := by
  simp [tokenize, tokenizeFuel, h]

theorem tokenize_token {c : Char} (h : isSpace c = false) (p : List Char) :
    tokenize (c :: p) = (scan c p).1 :: tokenize (scan c p).2 := by
  simp only [tokenize, List.length_cons, tokenizeFuel, h]
  rw [tokenizeFuel_eq (scan_length_le h) le_rfl]
  rfl

theorem tokenize_induction {P : List Char → Prop} (nil : P [])
    (space : ∀ c p, isSpace c = true → P p → P (c :: p))
    (token : ∀ c p, isSpace c = false → P (scan c p).2 → P (c :: p)) (s : List Char) : P s := by
  induction hn : s.length using Nat.strong_induction_on generalizing s with
  | _ n ih =>
      cases s with
      | nil => exact nil
      | cons c p =>
          rw [List.length_cons] at hn
          cases hspace : isSpace c with
          | true => exact space c p hspace (ih p.length (by omega) p rfl)
          | false =>
              have hle := scan_length_le (p := p) hspace
              exact token c p hspace (ih _ (by omega) _ rfl)

theorem text_infix_of_scan {c : Char} {p text : List Char}
    (h : (scan c p).1 = .name text) : text <:+: c :: p := by
  unfold scan at h
  split at h
  · simp at h
  split at h
  · simp at h
  split at h
  · simp at h
  split at h
  · split at h <;> simp at h
  split at h
  · simp at h
  split at h
  · cases h
    exact (List.takeWhile_prefix _).isInfix.trans (List.suffix_cons c p).isInfix
  · cases h
    exact (List.takeWhile_prefix _).isInfix

/-- The text of every name stands in the line. -/
theorem infix_of_mem_tokenize {s text : List Char} (h : .name text ∈ tokenize s) : text <:+: s := by
  induction s using tokenize_induction with
  | nil => simp at h
  | space c p hspace ih =>
      rw [tokenize_space hspace] at h
      exact (ih h).trans (List.suffix_cons c p).isInfix
  | token c p hspace ih =>
      rw [tokenize_token hspace] at h
      cases List.mem_cons.mp h with
      | inl hhead => exact text_infix_of_scan hhead.symm
      | inr hrest =>
          exact (ih hrest).trans (((scan_suffix hspace).trans (List.suffix_cons c p)).isInfix)

theorem scan_ne_eof (c : Char) (p : List Char) : (scan c p).1 ≠ .eof := by
  unfold scan
  split
  · simp
  split
  · simp
  split
  · simp
  split
  · split <;> simp
  split
  · simp
  split <;> simp

theorem tokenize_eof (s : List Char) :
    ∃ before, .eof ∉ before ∧ tokenize s = before ++ [.eof] := by
  induction s using tokenize_induction with
  | nil => exact ⟨[], by simp, rfl⟩
  | space c p hspace ih =>
      rw [tokenize_space hspace]
      exact ih
  | token c p hspace ih =>
      obtain ⟨before, hnone, hbefore⟩ := ih
      have hnone' : .eof ∉ (scan c p).1 :: before := by
        simp [hnone, (scan_ne_eof c p).symm]
      exact ⟨_, hnone', by rw [tokenize_token hspace, hbefore]; rfl⟩

/-! ## A newline at the end of the line -/

/-- The line ends inside a quote that is not closed. -/
def openQuoteFuel : Nat → List Char → Bool
  | 0, _ => false
  | _ + 1, [] => false
  | fuel + 1, c :: p =>
      if isSpace c then openQuoteFuel fuel p
      else (isQuote c && !p.contains c) || openQuoteFuel fuel (scan c p).2

def openQuote (s : List Char) : Bool := openQuoteFuel s.length s

theorem openQuoteFuel_eq {fuel fuel' : Nat} {s : List Char} (h : s.length ≤ fuel)
    (h' : s.length ≤ fuel') : openQuoteFuel fuel s = openQuoteFuel fuel' s := by
  refine fuel_irrelevant ?_ ?_ ?_ h h'
  · intro fuel
    cases fuel <;> rfl
  · intro fuel c p hspace
    simp [openQuoteFuel, hspace]
  · intro fuel fuel' c p hspace heq
    simp [openQuoteFuel, hspace, heq]

theorem openQuote_space {c : Char} (h : isSpace c = true) (p : List Char) :
    openQuote (c :: p) = openQuote p := by
  simp [openQuote, openQuoteFuel, h]

theorem openQuote_token {c : Char} (h : isSpace c = false) (p : List Char) :
    openQuote (c :: p) = ((isQuote c && !p.contains c) || openQuote (scan c p).2) := by
  simp only [openQuote, List.length_cons, openQuoteFuel, h]
  rw [openQuoteFuel_eq (scan_length_le h) le_rfl]
  rfl

theorem scan_quote {c : Char} (h : isQuote c = true) (p : List Char) :
    scan c p = (.name (p.takeWhile (· != c)), (p.dropWhile (· != c)).drop 1) := by
  have hc : c = '"' ∨ c = '\'' := by simpa [isQuote] using h
  cases hc <;> subst c <;> simp [scan, isQuote]

/-- A newline behind the line stays behind the token, unless the token is an open quote. -/
theorem scan_newline {c : Char} {p : List Char} (h : isQuote c = true → c ∈ p) :
    scan c (p ++ ['\n']) = ((scan c p).1, (scan c p).2 ++ ['\n']) := by
  have hend : inWord '\n' = false := by decide
  cases hquote : isQuote c with
  | true =>
      rw [scan_quote hquote, scan_quote hquote, takeWhile_bne_append (h hquote),
        dropWhile_bne_append (h hquote)]
  | false =>
      unfold scan
      split
      · rfl
      split
      · rfl
      split
      · rfl
      split
      · cases p with
        | nil => rfl
        | cons d p => by_cases hd : d = '>' <;> simp [hd]
      split
      · rfl
      · rw [if_neg (by simp [hquote]), if_neg (by simp [hquote]), ← List.cons_append,
          takeWhile_concat hend, dropWhile_concat hend]

theorem scan_of_open {c : Char} (hquote : isQuote c = true) {p : List Char} (h : c ∉ p) :
    scan c p = (.name p, []) := by
  rw [scan_quote hquote, takeWhile_bne_of_not_mem h, dropWhile_bne_of_not_mem h]
  rfl

theorem tokenize_newline {s : List Char} (h : openQuote s = false) :
    tokenize (s ++ ['\n']) = tokenize s := by
  induction s using tokenize_induction with
  | nil => rfl
  | space c p hspace ih =>
      rw [openQuote_space hspace] at h
      rw [List.cons_append, tokenize_space hspace, tokenize_space hspace, ih h]
  | token c p hspace ih =>
      rw [openQuote_token hspace, Bool.or_eq_false_iff] at h
      have hclosed : isQuote c = true → c ∈ p := by
        intro hquote
        simpa [hquote] using h.1
      rw [List.cons_append, tokenize_token hspace, tokenize_token hspace,
        scan_newline hclosed, ih h.2]

/-- In an open quote the newline becomes part of the last name. -/
theorem tokenize_newline_of_open {s : List Char} (h : openQuote s = true) :
    ∃ before text, tokenize s = before ++ [.name text, .eof] ∧
      tokenize (s ++ ['\n']) = before ++ [.name (text ++ ['\n']), .eof] := by
  induction s using tokenize_induction with
  | nil => simp [openQuote, openQuoteFuel] at h
  | space c p hspace ih =>
      rw [openQuote_space hspace] at h
      rw [List.cons_append, tokenize_space hspace, tokenize_space hspace]
      exact ih h
  | token c p hspace ih =>
      rw [openQuote_token hspace] at h
      rw [List.cons_append, tokenize_token hspace, tokenize_token hspace]
      by_cases hopen : isQuote c = true ∧ c ∉ p
      · have hend : c ∉ p ++ ['\n'] := by
          have hc : c ≠ '\n' := by
            rintro rfl
            simp [isSpace] at hspace
          simp [hopen.2, hc]
        rw [scan_of_open hopen.1 hopen.2, scan_of_open hopen.1 hend]
        exact ⟨[], p, rfl, rfl⟩
      · have hclosed : isQuote c = true → c ∈ p := by
          intro hquote
          by_contra hmem
          exact hopen ⟨hquote, hmem⟩
        have hrest : openQuote (scan c p).2 = true := by
          cases hquote : isQuote c with
          | true => simpa [hquote, hclosed hquote] using h
          | false => simpa [hquote] using h
        obtain ⟨before, text, hline, hlonger⟩ := ih hrest
        rw [scan_newline hclosed, hline, hlonger]
        exact ⟨(scan c p).1 :: before, text, rfl, rfl⟩

end OxyC.Shell
