import OxyC.Shell.Parse

/-!
# The grammar of a command line

Derivation trees of

    line   ::= empty | group (sep group)* [sep]
    group  ::= atomic ('|' atomic)*
    atomic ::= NAME (NAME | redir)*
    redir  ::= ('<' | '>' | '>>') NAME
    sep    ::= ';' | '&' | '&&'

and the parser on the tokens of a tree.
-/

namespace OxyC.Shell

section Trees

variable {τ : Type*}

inductive Item (τ : Type*) where
  | word (text : τ)
  | input (file : τ)
  | output (append : Bool) (file : τ)
  deriving DecidableEq, Repr

def Item.tokens : Item τ → List (Token τ)
  | .word text => [.name text]
  | .input file => [.lt, .name file]
  | .output false file => [.gt, .name file]
  | .output true file => [.gtGt, .name file]

structure AtomicTree (τ : Type*) where
  name : τ
  items : List (Item τ) := []
  deriving DecidableEq, Repr

def AtomicTree.tokens (a : AtomicTree τ) : List (Token τ) :=
  .name a.name :: a.items.flatMap Item.tokens

structure GroupTree (τ : Type*) where
  first : AtomicTree τ
  others : List (AtomicTree τ) := []
  deriving DecidableEq, Repr

def GroupTree.atomics (g : GroupTree τ) : List (AtomicTree τ) := g.first :: g.others

def GroupTree.tokens (g : GroupTree τ) : List (Token τ) :=
  g.first.tokens ++ g.others.flatMap fun a => .pipe :: a.tokens

inductive Separator where
  | semi
  | amp
  | andAnd
  deriving DecidableEq, Repr

def Separator.token : Separator → Token τ
  | .semi => .semi
  | .amp => .amp
  | .andAnd => .andAnd

def Separator.type : Separator → TokenType
  | .semi => .semi
  | .amp => .amp
  | .andAnd => .andAnd

inductive LineTree (τ : Type*) where
  | empty
  | groups (first : GroupTree τ) (others : List (Separator × GroupTree τ)) (last : Option Separator)
  deriving DecidableEq, Repr

def LineTree.tokens : LineTree τ → List (Token τ)
  | .empty => []
  | .groups first others last =>
      first.tokens ++ (others.flatMap fun g => g.1.token :: g.2.tokens) ++
        last.toList.map Separator.token

/-- A line as the loop of `parse_shell_cmd` goes through it, a group with its separator a round. -/
structure Rounds (τ : Type*) where
  ended : List (GroupTree τ × Separator) := []
  last : Option (GroupTree τ) := none
  deriving DecidableEq, Repr

namespace Rounds

def tokens (r : Rounds τ) : List (Token τ) :=
  (r.ended.flatMap fun g => g.1.tokens ++ [g.2.token]) ++ r.last.toList.flatMap GroupTree.tokens

def cons (g : GroupTree τ) (s : Separator) (r : Rounds τ) : Rounds τ :=
  { r with ended := (g, s) :: r.ended }

theorem tokens_cons (g : GroupTree τ) (s : Separator) (r : Rounds τ) :
    (r.cons g s).tokens = g.tokens ++ s.token :: r.tokens := by
  simp [tokens, cons]

/-- The groups of a line, from `first` on. -/
def ofGroups (first : GroupTree τ) (last : Option Separator) :
    List (Separator × GroupTree τ) → Rounds τ
  | [] =>
      match last with
      | none => ⟨[], some first⟩
      | some s => ⟨[(first, s)], none⟩
  | (s, g) :: others => (ofGroups g last others).cons first s

theorem tokens_ofGroups (first : GroupTree τ) (last : Option Separator)
    (others : List (Separator × GroupTree τ)) :
    (ofGroups first last others).tokens = (LineTree.groups first others last).tokens := by
  induction others generalizing first with
  | nil => cases last <;> simp [ofGroups, tokens, LineTree.tokens]
  | cons g others ih => simp [ofGroups, tokens_cons, ih, LineTree.tokens]

def line (r : Rounds τ) : LineTree τ :=
  r.ended.foldr
    (fun g rest =>
      match rest with
      | .empty => .groups g.1 [] (some g.2)
      | .groups first others last => .groups g.1 ((g.2, first) :: others) last)
    (match r.last with
      | none => .empty
      | some g => .groups g [] none)

theorem line_cons (g : GroupTree τ) (s : Separator) (r : Rounds τ) :
    (r.cons g s).line =
      match r.line with
      | .empty => .groups g [] (some s)
      | .groups first others last => .groups g ((s, first) :: others) last := rfl

theorem tokens_line (r : Rounds τ) : r.line.tokens = r.tokens := by
  obtain ⟨ended, last⟩ := r
  induction ended with
  | nil => cases last <;> simp [line, tokens, LineTree.tokens]
  | cons g ended ih =>
      have hline := line_cons g.1 g.2 (⟨ended, last⟩ : Rounds τ)
      have htokens := tokens_cons g.1 g.2 (⟨ended, last⟩ : Rounds τ)
      rw [← ih] at htokens
      change (cons g.1 g.2 ⟨ended, last⟩).line.tokens = (cons g.1 g.2 ⟨ended, last⟩).tokens
      rw [hline, htokens]
      cases (⟨ended, last⟩ : Rounds τ).line <;> simp [LineTree.tokens]

end Rounds

def LineTree.rounds : LineTree τ → Rounds τ
  | .empty => {}
  | .groups first others last => .ofGroups first last others

theorem LineTree.tokens_rounds (line : LineTree τ) : line.rounds.tokens = line.tokens := by
  cases line with
  | empty => rfl
  | groups first others last => exact Rounds.tokens_ofGroups first last others

end Trees

/-! ## The command of a tree -/

section Build

variable {τ : Type*}

/-- What one round of the loop of `parse_atomic` does with an item. -/
def Item.add (a : Atomic τ) : Item τ → Atomic τ
  | .word text => a.addArg text
  | .input file => a.addInfile file
  | .output append file => a.addOutfile append file

def AtomicTree.build (a : AtomicTree τ) : Atomic τ := a.items.foldl Item.add { argv := [a.name] }

def GroupTree.build (g : GroupTree τ) : CmdGroup τ := ⟨g.atomics.map AtomicTree.build⟩

def Separator.push (g : CmdGroup τ) (sc : ShellCmd τ) : Separator → ShellCmd τ
  | .semi => sc.push g .semi
  | .amp => sc.pushAmp g
  | .andAnd => sc.push g .andAnd

def Rounds.build (sc : ShellCmd τ) (r : Rounds τ) : ShellCmd τ :=
  r.last.toList.foldl (fun sc g => sc.push g.build .eof)
    (r.ended.foldl (fun sc g => g.2.push g.1.build sc) sc)

/-- The loop of `parse_atomic` is left here by `break`. -/
def AtomicStops (ts : List (Token τ)) : Prop :=
  peek ts ≠ .name ∧ peek ts ≠ .lt ∧ peek ts ≠ .gt ∧ peek ts ≠ .gtGt

def GroupStops (ts : List (Token τ)) : Prop := AtomicStops ts ∧ peek ts ≠ .pipe

theorem Separator.groupStops (s : Separator) (ts : List (Token τ)) :
    GroupStops (s.token :: ts) := by
  cases s <;> simp [GroupStops, AtomicStops, peek, Separator.token, Token.type]

theorem groupStops_of_eof {ts : List (Token τ)} (h : peek ts = .eof) : GroupStops ts := by
  simp [GroupStops, AtomicStops, h]

theorem atomicStops_pipe (ts : List (Token τ)) : AtomicStops (.pipe :: ts) := by
  simp [AtomicStops, peek, Token.type]

/-! ## The tokens of a tree are parsed -/

section Complete

variable {rest : List (Token τ)}

theorem atomicLoop_stops (a : Atomic τ) (h : AtomicStops rest) :
    atomicLoop a rest = ⟨a, rest, false⟩ := by
  cases rest with
  | nil => rfl
  | cons t rest => cases t <;> first | rfl | simp [AtomicStops, peek, Token.type] at h

theorem atomicLoop_items (a : Atomic τ) (items : List (Item τ)) (h : AtomicStops rest) :
    atomicLoop a (items.flatMap Item.tokens ++ rest) =
      ⟨items.foldl Item.add a, rest, false⟩ := by
  induction items generalizing a with
  | nil => exact atomicLoop_stops a h
  | cons item items ih =>
      rw [List.flatMap_cons, List.append_assoc, List.foldl_cons, ← ih]
      cases item with
      | word text => rfl
      | input file => rfl
      | output append file => cases append <;> rfl

theorem parseAtomic_tokens (a : AtomicTree τ) (h : AtomicStops rest) :
    parseAtomic (a.tokens ++ rest) = ⟨a.build, rest, false⟩ :=
  atomicLoop_items { argv := [a.name] } a.items h

theorem atomicStops_pipes (others : List (AtomicTree τ)) (h : GroupStops rest) :
    AtomicStops ((others.flatMap fun a => .pipe :: a.tokens) ++ rest) := by
  cases others with
  | nil => exact h.1
  | cons a others => exact atomicStops_pipe _

theorem groupLoop_stops (fuel : Nat) (g : CmdGroup τ) (h : GroupStops rest) :
    groupLoop fuel g rest = ⟨g, rest, false⟩ := by
  cases fuel with
  | zero => cases rest <;> rfl
  | succ fuel =>
      cases rest with
      | nil => rfl
      | cons t rest => cases t <;> first | rfl | simp [GroupStops, peek, Token.type] at h

theorem groupLoop_pipes {fuel : Nat} (g : CmdGroup τ) {others : List (AtomicTree τ)}
    (hfuel : others.length ≤ fuel) (h : GroupStops rest) :
    groupLoop fuel g ((others.flatMap fun a => .pipe :: a.tokens) ++ rest) =
      ⟨⟨g.atoms ++ others.map AtomicTree.build⟩, rest, false⟩ := by
  induction others generalizing fuel g with
  | nil => simpa using groupLoop_stops fuel g h
  | cons a others ih =>
      obtain ⟨fuel, rfl⟩ : ∃ m, fuel = m + 1 :=
        Nat.exists_eq_add_one.mpr (Nat.lt_of_lt_of_le (by simp) hfuel)
      have hname : peek (a.tokens ++ ((others.flatMap fun a => .pipe :: a.tokens) ++ rest)) =
          .name := rfl
      rw [List.flatMap_cons, List.cons_append, List.cons_append, List.append_assoc, groupLoop,
        if_pos hname, parseAtomic_tokens a (atomicStops_pipes others h)]
      simp only [Bool.false_eq_true, if_false]
      rw [ih (g.push a.build) (by simpa using hfuel)]
      simp [CmdGroup.push]

theorem length_le_pipes (others : List (AtomicTree τ)) (rest : List (Token τ)) :
    others.length ≤ ((others.flatMap fun a => Token.pipe :: a.tokens) ++ rest).length := by
  induction others with
  | nil => simp
  | cons a others ih =>
      simp only [List.flatMap_cons, List.length_append, List.length_cons] at ih ⊢
      omega

theorem parseCmdGroup_tokens (g : GroupTree τ) (h : GroupStops rest) :
    parseCmdGroup (g.tokens ++ rest) = ⟨g.build, rest, false⟩ := by
  rw [parseCmdGroup, GroupTree.tokens, List.append_assoc,
    parseAtomic_tokens g.first (atomicStops_pipes g.others h)]
  simp only [Bool.false_eq_true, if_false]
  rw [groupLoop_pipes _ (length_le_pipes g.others rest) h]
  rfl

theorem peek_tokens (g : GroupTree τ) (rest : List (Token τ)) :
    peek (g.tokens ++ rest) = .name := rfl

theorem shellRound_ended (sc : ShellCmd τ) (g : GroupTree τ) (s : Separator)
    (ts : List (Token τ)) :
    shellRound sc (g.tokens ++ s.token :: ts) =
      (⟨s.push g.build sc, ts, false⟩, decide (s = .amp ∧ peek ts = .eof)) := by
  rw [shellRound, parseCmdGroup_tokens g (s.groupStops ts)]
  cases s <;> simp [Separator.token, Separator.push]

theorem shellRound_last (sc : ShellCmd τ) (g : GroupTree τ) (h : peek rest = .eof) :
    shellRound sc (g.tokens ++ rest) = (⟨sc.push g.build .eof, rest, false⟩, true) := by
  rw [shellRound, parseCmdGroup_tokens g (groupStops_of_eof h)]
  cases rest with
  | nil => rfl
  | cons t rest => cases t <;> first | rfl | simp [peek, Token.type] at h

theorem shellLoop_eof (fuel : Nat) (sc : ShellCmd τ) (h : peek rest = .eof) :
    shellLoop fuel sc rest = ⟨sc, rest, false⟩ := by
  cases fuel with
  | zero => rfl
  | succ fuel => rw [shellLoop, if_pos h]

/-- Leaving the loop before `T_EOF` makes no difference. -/
theorem shellLoop_ended (fuel : Nat) (sc : ShellCmd τ) (g : GroupTree τ) (s : Separator)
    (ts : List (Token τ)) :
    shellLoop (fuel + 1) sc (g.tokens ++ s.token :: ts) =
      shellLoop fuel (s.push g.build sc) ts := by
  rw [shellLoop, peek_tokens, if_neg (by decide), shellRound_ended]
  by_cases hlast : s = .amp ∧ peek ts = .eof
  · simp [hlast, shellLoop_eof fuel _ hlast.2]
  · simp only [hlast, decide_false, Bool.or_self, Bool.false_eq_true, if_false]

theorem shellLoop_rounds {fuel : Nat} (sc : ShellCmd τ) {r : Rounds τ}
    (hfuel : r.ended.length + r.last.toList.length ≤ fuel) (h : peek rest = .eof) :
    shellLoop fuel sc (r.tokens ++ rest) = ⟨r.build sc, rest, false⟩ := by
  obtain ⟨ended, last⟩ := r
  induction ended generalizing fuel sc with
  | nil =>
      cases last with
      | none => exact shellLoop_eof fuel sc h
      | some g =>
          obtain ⟨fuel, rfl⟩ : ∃ m, fuel = m + 1 :=
            Nat.exists_eq_add_one.mpr (Nat.lt_of_lt_of_le (by simp) hfuel)
          have htokens : (⟨[], some g⟩ : Rounds τ).tokens = g.tokens := by simp [Rounds.tokens]
          rw [htokens, shellLoop, peek_tokens, if_neg (by decide), shellRound_last sc g h]
          rfl
  | cons g ended ih =>
      have hpos : 0 < (g :: ended).length + last.toList.length := by
        rw [List.length_cons]
        omega
      obtain ⟨fuel, rfl⟩ : ∃ m, fuel = m + 1 :=
        Nat.exists_eq_add_one.mpr (Nat.lt_of_lt_of_le hpos hfuel)
      change shellLoop (fuel + 1) sc ((Rounds.cons g.1 g.2 ⟨ended, last⟩).tokens ++ rest) = _
      have hrest : ended.length + last.toList.length ≤ fuel := by
        simp only [List.length_cons] at hfuel
        omega
      rw [Rounds.tokens_cons, List.append_assoc, List.cons_append, shellLoop_ended, ih _ hrest]
      rfl

theorem length_rounds_le (r : Rounds τ) :
    r.ended.length + r.last.toList.length ≤ r.tokens.length := by
  obtain ⟨ended, last⟩ := r
  induction ended with
  | nil =>
      cases last with
      | none => simp
      | some g => simp [Rounds.tokens, GroupTree.tokens, AtomicTree.tokens]
  | cons g ended ih =>
      change _ ≤ (Rounds.cons g.1 g.2 ⟨ended, last⟩).tokens.length
      rw [Rounds.tokens_cons]
      simp only [List.length_append, List.length_cons] at ih ⊢
      omega

theorem parseShellCmd_tokens (line : LineTree τ) (h : peek rest = .eof) :
    parseShellCmd (line.tokens ++ rest) = ⟨line.rounds.build {}, rest, false⟩ := by
  rw [parseShellCmd, ← line.tokens_rounds]
  apply shellLoop_rounds _ _ h
  have hlength := length_rounds_le line.rounds
  rw [List.length_append]
  omega

end Complete

/-! ## What is parsed without an error is a tree -/

section Sound

theorem atomicLoop_sound (a : Atomic τ) (ts : List (Token τ))
    (h : (atomicLoop a ts).parseError = false) :
    AtomicStops (atomicLoop a ts).rest ∧
      ∃ items : List (Item τ), ts = items.flatMap Item.tokens ++ (atomicLoop a ts).rest := by
  fun_induction atomicLoop a ts with
  | case1 a text ts ih =>
      obtain ⟨hstops, items, hts⟩ := ih h
      exact ⟨hstops, .word text :: items, congrArg (Token.name text :: ·) hts⟩
  | case2 a text ts ih =>
      obtain ⟨hstops, items, hts⟩ := ih h
      exact ⟨hstops, .input text :: items, congrArg (Token.lt :: Token.name text :: ·) hts⟩
  | case4 a text ts ih =>
      obtain ⟨hstops, items, hts⟩ := ih h
      exact ⟨hstops, .output false text :: items, congrArg (Token.gt :: Token.name text :: ·) hts⟩
  | case6 a text ts ih =>
      obtain ⟨hstops, items, hts⟩ := ih h
      exact ⟨hstops, .output true text :: items, congrArg (Token.gtGt :: Token.name text :: ·) hts⟩
  | case3 | case5 | case7 => cases h
  | case8 a ts hname hltName hlt hgtName hgt hgtGtName hgtGt =>
      refine ⟨?_, [], rfl⟩
      cases ts with
      | nil => simp [AtomicStops, peek]
      | cons t ts => cases t <;> simp_all [AtomicStops, peek, Token.type]

theorem parseAtomic_sound (ts : List (Token τ)) (h : (parseAtomic ts).parseError = false) :
    AtomicStops (parseAtomic ts).rest ∧
      ∃ a : AtomicTree τ, ts = a.tokens ++ (parseAtomic ts).rest := by
  unfold parseAtomic at h ⊢
  split at h
  · rename_i text ts
    obtain ⟨hstops, items, hts⟩ := atomicLoop_sound _ ts h
    exact ⟨hstops, ⟨text, items⟩, congrArg (Token.name text :: ·) hts⟩
  · cases h

theorem groupLoop_sound {fuel : Nat} (g : CmdGroup τ) {ts : List (Token τ)}
    (hfuel : ts.length ≤ fuel) (hts : AtomicStops ts)
    (h : (groupLoop fuel g ts).parseError = false) :
    GroupStops (groupLoop fuel g ts).rest ∧
      ∃ others : List (AtomicTree τ),
        ts = (others.flatMap fun a => .pipe :: a.tokens) ++ (groupLoop fuel g ts).rest := by
  fun_induction groupLoop fuel g ts with
  | case1 fuel g ts hname p herror => cases h
  | case2 fuel g ts hname p herror ih =>
      obtain ⟨hstops, a, ha⟩ := parseAtomic_sound ts (by simpa [p] using herror)
      have hrest : p.rest.length ≤ fuel := by
        have hsuffix := (reads_parseAtomic ts).suffix.length_le
        simp only [List.length_cons] at hfuel
        exact hsuffix.trans (by omega)
      obtain ⟨hend, others, hothers⟩ := ih hrest hstops h
      refine ⟨hend, a :: others, ?_⟩
      rw [List.flatMap_cons, List.cons_append, List.cons_append, List.append_assoc, ← hothers]
      exact congrArg (Token.pipe :: ·) ha
  | case3 fuel g ts hname => cases h
  | case4 fuel g ts hpipe =>
      refine ⟨⟨hts, ?_⟩, [], rfl⟩
      cases ts with
      | nil => simp [peek]
      | cons t ts =>
          cases fuel with
          | zero => simp at hfuel
          | succ fuel => cases t <;> simp_all [peek, Token.type]

theorem parseCmdGroup_sound (ts : List (Token τ)) (h : (parseCmdGroup ts).parseError = false) :
    GroupStops (parseCmdGroup ts).rest ∧
      ∃ g : GroupTree τ, ts = g.tokens ++ (parseCmdGroup ts).rest := by
  unfold parseCmdGroup at h ⊢
  dsimp only at h ⊢
  split at h
  · cases h
  · rename_i hfirst
    obtain ⟨hstops, a, ha⟩ := parseAtomic_sound ts (by simpa using hfirst)
    obtain ⟨hend, others, hothers⟩ := groupLoop_sound _ le_rfl hstops h
    refine ⟨by simpa [hfirst] using hend, ⟨a, others⟩, ?_⟩
    rw [if_neg hfirst, GroupTree.tokens, List.append_assoc, ← hothers]
    exact ha

theorem GroupStops.peek_eq_eof {ts : List (Token τ)} (h : GroupStops ts)
    (hsemi : ∀ us, ts = .semi :: us → False) (handAnd : ∀ us, ts = .andAnd :: us → False)
    (hamp : ∀ us, ts = .amp :: us → False) : peek ts = .eof := by
  obtain ⟨⟨hname, hlt, hgt, hgtGt⟩, hpipe⟩ := h
  cases ts with
  | nil => rfl
  | cons t ts =>
      cases t with
      | eof => rfl
      | semi => exact (hsemi ts rfl).elim
      | andAnd => exact (handAnd ts rfl).elim
      | amp => exact (hamp ts rfl).elim
      | _ => simp_all [peek, Token.type]

theorem parseError_shellRound (sc : ShellCmd τ) (ts : List (Token τ)) :
    (shellRound sc ts).1.parseError = (parseCmdGroup ts).parseError := by
  unfold shellRound
  dsimp only
  split <;> rfl

/-- A round without an error reads a group, with a separator unless it is the last. -/
theorem shellRound_sound (sc : ShellCmd τ) (ts : List (Token τ))
    (h : (shellRound sc ts).1.parseError = false) :
    ∃ g : GroupTree τ,
      (∃ s : Separator, ts = g.tokens ++ s.token :: (shellRound sc ts).1.rest ∧
        ((shellRound sc ts).2 = true → peek (shellRound sc ts).1.rest = .eof)) ∨
      (ts = g.tokens ++ (shellRound sc ts).1.rest ∧ (shellRound sc ts).2 = true ∧
        peek (shellRound sc ts).1.rest = .eof) := by
  rw [parseError_shellRound] at h
  obtain ⟨hstops, g, hg⟩ := parseCmdGroup_sound ts h
  refine ⟨g, ?_⟩
  unfold shellRound
  dsimp only
  split
  · rename_i rest hrest
    rw [hrest] at hg
    exact .inl ⟨.semi, hg, by simp⟩
  · rename_i rest hrest
    rw [hrest] at hg
    exact .inl ⟨.andAnd, hg, by simp⟩
  · rename_i rest hrest
    rw [hrest] at hg
    exact .inl ⟨.amp, hg, by simp⟩
  · rename_i hsemi handAnd hamp
    exact .inr ⟨hg, rfl, hstops.peek_eq_eof hsemi handAnd hamp⟩

theorem length_shellRound_lt (sc : ShellCmd τ) (ts : List (Token τ))
    (h : (shellRound sc ts).1.parseError = false) :
    (shellRound sc ts).1.rest.length < ts.length := by
  obtain ⟨g, hround⟩ := shellRound_sound sc ts h
  have hgroup : 0 < g.tokens.length := by simp [GroupTree.tokens, AtomicTree.tokens]
  cases hround with
  | inl hended =>
      obtain ⟨s, hts, -⟩ := hended
      have hcount := congrArg List.length hts
      rw [List.length_append, List.length_cons] at hcount
      omega
  | inr hlast =>
      have hcount := congrArg List.length hlast.1
      rw [List.length_append] at hcount
      omega

theorem shellLoop_sound {fuel : Nat} (sc : ShellCmd τ) {ts : List (Token τ)}
    (hfuel : ts.length ≤ fuel) (h : (shellLoop fuel sc ts).parseError = false) :
    peek (shellLoop fuel sc ts).rest = .eof ∧
      ∃ r : Rounds τ, ts = r.tokens ++ (shellLoop fuel sc ts).rest := by
  induction fuel generalizing sc ts with
  | zero =>
      obtain rfl := List.eq_nil_of_length_eq_zero (Nat.le_zero.mp hfuel)
      exact ⟨rfl, {}, rfl⟩
  | succ fuel ih =>
      unfold shellLoop at h ⊢
      split
      · rename_i heof
        exact ⟨heof, {}, rfl⟩
      · rename_i hmore
        rw [if_neg hmore] at h
        dsimp only at h ⊢
        have herror : (shellRound sc ts).1.parseError = false := by
          cases hround : (shellRound sc ts).1.parseError with
          | false => rfl
          | true => simp [hround] at h
        obtain ⟨g, hround⟩ := shellRound_sound sc ts herror
        cases hround with
        | inl hended =>
            obtain ⟨s, hts, hleaves⟩ := hended
            cases hleave : (shellRound sc ts).2 with
            | true =>
                have hcons : ((⟨[(g, s)], none⟩ : Rounds τ)).tokens = g.tokens ++ [s.token] := by
                  simp [Rounds.tokens]
                simp only [Bool.or_true, if_true]
                refine ⟨hleaves hleave, ⟨[(g, s)], none⟩, ?_⟩
                rw [hcons, List.append_assoc]
                exact hts
            | false =>
                simp only [herror, hleave, Bool.or_self, Bool.false_eq_true, if_false] at h ⊢
                have hlength := length_shellRound_lt sc ts herror
                obtain ⟨hend, r, hr⟩ := ih _ (by omega) h
                refine ⟨hend, r.cons g s, ?_⟩
                rw [Rounds.tokens_cons, List.append_assoc, List.cons_append, ← hr]
                exact hts
        | inr hlast =>
            obtain ⟨hts, hleave, hend⟩ := hlast
            have hone : ((⟨[], some g⟩ : Rounds τ)).tokens = g.tokens := by simp [Rounds.tokens]
            rw [hleave, Bool.or_true, if_pos rfl]
            refine ⟨hend, ⟨[], some g⟩, ?_⟩
            rw [hone]
            exact hts

theorem parseShellCmd_sound (ts : List (Token τ)) (h : (parseShellCmd ts).parseError = false) :
    peek (parseShellCmd ts).rest = .eof ∧
      ∃ line : LineTree τ, ts = line.tokens ++ (parseShellCmd ts).rest := by
  obtain ⟨hend, r, hr⟩ := shellLoop_sound {} le_rfl h
  refine ⟨hend, r.line, ?_⟩
  rw [r.tokens_line]
  exact hr

end Sound

end Build

end OxyC.Shell
