import OxyC.Shell.Token
import Mathlib.Data.List.Basic
import Mathlib.Data.List.Perm.Basic

/-!
# The parser of the shell

`parse.c` on the tokens not yet consumed.  A result holds the value built so
far, the tokens behind it and the error flag.
-/

namespace OxyC.Shell

/-- `infile` and `outfile` of the source are the last of the lists, if there is one. -/
structure Atomic (τ : Type*) where
  argv : List τ := []
  infiles : List τ := []
  outfiles : List τ := []
  append : Bool := false
  deriving DecidableEq, Repr

structure CmdGroup (τ : Type*) where
  atoms : List (Atomic τ) := []
  deriving DecidableEq, Repr

structure ShellCmd (τ : Type*) where
  groups : List (CmdGroup τ) := []
  /-- The separator behind each group. -/
  types : List TokenType := []
  bgUntil : Int := -1
  trailingAmp : Bool := false
  deriving DecidableEq, Repr

structure Parsed (α τ : Type*) where
  value : α
  rest : List (Token τ)
  parseError : Bool
  deriving DecidableEq, Repr

section Parser

variable {τ : Type*}

def peek : List (Token τ) → TokenType
  | [] => .eof
  | t :: _ => t.type

def maxFiles : Nat := 8

namespace Atomic

def addArg (text : τ) (a : Atomic τ) : Atomic τ := { a with argv := a.argv ++ [text] }

/-- A name too many is not consumed: the next round of the loop reads it as an argument. -/
def addInfile (text : τ) (a : Atomic τ) : Atomic τ :=
  if a.infiles.length < maxFiles then { a with infiles := a.infiles ++ [text] }
  else a.addArg text

def addOutfile (append : Bool) (text : τ) (a : Atomic τ) : Atomic τ :=
  if a.outfiles.length < maxFiles then { a with outfiles := a.outfiles ++ [text], append }
  else a.addArg text

end Atomic

def atomicLoop (a : Atomic τ) : List (Token τ) → Parsed (Atomic τ) τ
  | .name text :: ts => atomicLoop (a.addArg text) ts
  | .lt :: .name text :: ts => atomicLoop (a.addInfile text) ts
  | .lt :: ts => ⟨a, ts, true⟩
  | .gt :: .name text :: ts => atomicLoop (a.addOutfile false text) ts
  | .gt :: ts => ⟨a, ts, true⟩
  | .gtGt :: .name text :: ts => atomicLoop (a.addOutfile true text) ts
  | .gtGt :: ts => ⟨a, ts, true⟩
  | ts => ⟨a, ts, false⟩

def parseAtomic : List (Token τ) → Parsed (Atomic τ) τ
  | .name text :: ts => atomicLoop { argv := [text] } ts
  | ts => ⟨{}, ts, true⟩

def CmdGroup.push (a : Atomic τ) (g : CmdGroup τ) : CmdGroup τ := ⟨g.atoms ++ [a]⟩

/-- The loop of `parse_cmd_group`; each round consumes a token. -/
def groupLoop : Nat → CmdGroup τ → List (Token τ) → Parsed (CmdGroup τ) τ
  | fuel + 1, g, .pipe :: ts =>
      if peek ts = .name then
        let p := parseAtomic ts
        if p.parseError then ⟨g.push p.value, p.rest, true⟩
        else groupLoop fuel (g.push p.value) p.rest
      else ⟨g, ts, true⟩
  | _, g, ts => ⟨g, ts, false⟩

def parseCmdGroup (ts : List (Token τ)) : Parsed (CmdGroup τ) τ :=
  let p := parseAtomic ts
  if p.parseError then ⟨⟨[p.value]⟩, p.rest, true⟩
  else groupLoop p.rest.length ⟨[p.value]⟩ p.rest

namespace ShellCmd

def push (g : CmdGroup τ) (type : TokenType) (sc : ShellCmd τ) : ShellCmd τ :=
  { sc with groups := sc.groups ++ [g], types := sc.types ++ [type] }

/-- A group behind which `&` stands; the first one sets the background prefix. -/
def pushAmp (g : CmdGroup τ) (sc : ShellCmd τ) : ShellCmd τ :=
  { sc.push g .amp with
    bgUntil := if sc.bgUntil = -1 then sc.groups.length + 1 else sc.bgUntil
    trailingAmp := true }

end ShellCmd

/-- One round of the loop of `parse_shell_cmd`, and whether the loop is left by `break`. -/
def shellRound (sc : ShellCmd τ) (ts : List (Token τ)) : Parsed (ShellCmd τ) τ × Bool :=
  let p := parseCmdGroup ts
  match p.rest with
  | .semi :: ts => (⟨sc.push p.value .semi, ts, p.parseError⟩, false)
  | .andAnd :: ts => (⟨sc.push p.value .andAnd, ts, p.parseError⟩, false)
  | .amp :: ts => (⟨sc.pushAmp p.value, ts, p.parseError⟩, peek ts = .eof)
  | ts => (⟨sc.push p.value .eof, ts, p.parseError⟩, true)

/-- The loop of `parse_shell_cmd`; each round without an error consumes a token. -/
def shellLoop : Nat → ShellCmd τ → List (Token τ) → Parsed (ShellCmd τ) τ
  | 0, sc, ts => ⟨sc, ts, false⟩
  | fuel + 1, sc, ts =>
      if peek ts = .eof then ⟨sc, ts, false⟩
      else
        let (p, leaves) := shellRound sc ts
        if p.parseError || leaves then p else shellLoop fuel p.value p.rest

def parseShellCmd (ts : List (Token τ)) : Parsed (ShellCmd τ) τ := shellLoop ts.length {} ts

/-- The callers' test: no error, and nothing left before `T_EOF`. -/
def Parsed.accepted {α : Type*} (p : Parsed α τ) : Bool := !p.parseError && peek p.rest = .eof

end Parser

/-- The command that is dispatched for a line, if the line is accepted. -/
def parseLine (line : List Char) : Option (ShellCmd (List Char)) :=
  let p := parseShellCmd (tokenize line)
  if p.accepted then some p.value else none

example : (parseLine "a b < f | c & d".toList).map (fun cmd => (cmd.types, cmd.bgUntil)) =
    some ([.amp, .eof], 1) := by decide

/-! ## What the parser consumes -/

section Consumption

variable {τ : Type*}

def Token.text? : Token τ → Option τ
  | .name text => some text
  | _ => none

def names (ts : List (Token τ)) : List τ := ts.filterMap Token.text?

def Atomic.texts (a : Atomic τ) : List τ := a.argv ++ (a.infiles ++ a.outfiles)

def CmdGroup.texts (g : CmdGroup τ) : List τ := g.atoms.flatMap Atomic.texts

def ShellCmd.texts (sc : ShellCmd τ) : List τ := sc.groups.flatMap CmdGroup.texts

/-- From `ts` to `rest` the texts `before` have become `after`. -/
structure Reads (before : List τ) (ts : List (Token τ)) (after : List τ)
    (rest : List (Token τ)) : Prop where
  suffix : rest <:+ ts
  perm : (after ++ names rest).Perm (before ++ names ts)

namespace Reads

variable {before mid after : List τ} {ts rest rest' : List (Token τ)} {text : τ}

theorem refl (before : List τ) (ts : List (Token τ)) : Reads before ts before ts :=
  ⟨List.suffix_rfl, .rfl⟩

theorem trans (h : Reads before ts mid rest) (h' : Reads mid rest after rest') :
    Reads before ts after rest' := ⟨h'.suffix.trans h.suffix, h'.perm.trans h.perm⟩

theorem name (h : mid.Perm (text :: before)) :
    Reads before (.name text :: ts) mid ts := by
  refine ⟨List.suffix_cons _ _, ?_⟩
  have hnames : names (.name text :: ts) = text :: names ts := rfl
  rw [hnames]
  exact (h.append_right _).trans List.perm_middle.symm

theorem skip {t : Token τ} (h : t.text? = none) : Reads before (t :: ts) before ts := by
  refine ⟨List.suffix_cons _ _, ?_⟩
  have hnames : names (t :: ts) = names ts := by simp [names, h]
  rw [hnames]

theorem append (h : Reads [] ts mid rest) : Reads before ts (before ++ mid) rest := by
  refine ⟨h.suffix, ?_⟩
  rw [List.append_assoc]
  exact h.perm.append_left before

end Reads

theorem Atomic.texts_addArg (text : τ) (a : Atomic τ) :
    (a.addArg text).texts.Perm (text :: a.texts) := by
  simp only [texts, addArg, List.append_assoc]
  exact List.perm_middle

theorem Atomic.texts_addInfile (text : τ) (a : Atomic τ) :
    (a.addInfile text).texts.Perm (text :: a.texts) := by
  unfold addInfile
  split
  · simp only [texts]
    rw [List.append_assoc, List.singleton_append, ← List.append_assoc, ← List.append_assoc]
    exact List.perm_middle
  · exact a.texts_addArg text

theorem Atomic.texts_addOutfile (append : Bool) (text : τ) (a : Atomic τ) :
    (a.addOutfile append text).texts.Perm (text :: a.texts) := by
  unfold addOutfile
  split
  · simp only [texts, ← List.append_assoc]
    exact List.perm_append_singleton _ _
  · exact a.texts_addArg text

theorem reads_atomicLoop (a : Atomic τ) (ts : List (Token τ)) :
    Reads a.texts ts (atomicLoop a ts).value.texts (atomicLoop a ts).rest := by
  fun_induction atomicLoop a ts with
  | case1 a text ts ih => exact (Reads.name (a.texts_addArg text)).trans ih
  | case2 a text ts ih => exact (Reads.skip rfl).trans ((Reads.name (a.texts_addInfile text)).trans ih)
  | case4 a text ts ih =>
      exact (Reads.skip rfl).trans ((Reads.name (a.texts_addOutfile false text)).trans ih)
  | case6 a text ts ih =>
      exact (Reads.skip rfl).trans ((Reads.name (a.texts_addOutfile true text)).trans ih)
  | case3 a ts | case5 a ts | case7 a ts => exact Reads.skip rfl
  | case8 a ts => exact Reads.refl _ _

theorem reads_parseAtomic (ts : List (Token τ)) :
    Reads [] ts (parseAtomic ts).value.texts (parseAtomic ts).rest := by
  unfold parseAtomic
  split
  · rename_i text ts
    have hloop := reads_atomicLoop ({ argv := [text] } : Atomic τ) ts
    exact (Reads.name .rfl).trans hloop
  · exact Reads.refl _ _

theorem CmdGroup.texts_push (a : Atomic τ) (g : CmdGroup τ) :
    (g.push a).texts = g.texts ++ a.texts := by
  simp [texts, push]

theorem reads_groupLoop (fuel : Nat) (g : CmdGroup τ) (ts : List (Token τ)) :
    Reads g.texts ts (groupLoop fuel g ts).value.texts (groupLoop fuel g ts).rest := by
  fun_induction groupLoop fuel g ts with
  | case1 fuel g ts hname p herror =>
      refine (Reads.skip rfl).trans ?_
      rw [CmdGroup.texts_push]
      exact (reads_parseAtomic ts).append
  | case2 fuel g ts hname p herror ih =>
      refine (Reads.skip rfl).trans (.trans ?_ ih)
      rw [CmdGroup.texts_push]
      exact (reads_parseAtomic ts).append
  | case3 fuel g ts hname => exact Reads.skip rfl
  | case4 fuel g ts => exact Reads.refl _ _

theorem reads_parseCmdGroup (ts : List (Token τ)) :
    Reads [] ts (parseCmdGroup ts).value.texts (parseCmdGroup ts).rest := by
  have hone : ∀ a : Atomic τ, (⟨[a]⟩ : CmdGroup τ).texts = a.texts := by
    intro a
    simp [CmdGroup.texts]
  have hfirst := reads_parseAtomic ts
  unfold parseCmdGroup
  dsimp only
  split
  · rwa [hone]
  · rw [← hone] at hfirst
    exact hfirst.trans (reads_groupLoop _ _ _)

theorem ShellCmd.texts_push (g : CmdGroup τ) (type : TokenType) (sc : ShellCmd τ) :
    (sc.push g type).texts = sc.texts ++ g.texts := by
  simp [texts, push]

theorem reads_shellRound (sc : ShellCmd τ) (ts : List (Token τ)) :
    Reads sc.texts ts (shellRound sc ts).1.value.texts (shellRound sc ts).1.rest := by
  have hgroup : Reads sc.texts ts _ _ := (reads_parseCmdGroup ts).append
  rw [← ShellCmd.texts_push _ .eof] at hgroup
  have hseparator : ∀ {t : Token τ} {rest : List (Token τ)}, t.text? = none →
      (parseCmdGroup ts).rest = t :: rest →
      Reads sc.texts ts (sc.push (parseCmdGroup ts).value .eof).texts rest := by
    intro t rest htext hrest
    rw [hrest] at hgroup
    exact hgroup.trans (Reads.skip htext)
  -- the type and the background prefix are no part of the texts
  unfold shellRound
  dsimp only
  split
  · exact hseparator rfl (by assumption)
  · exact hseparator rfl (by assumption)
  · exact hseparator rfl (by assumption)
  · exact hgroup

theorem reads_shellLoop (fuel : Nat) (sc : ShellCmd τ) (ts : List (Token τ)) :
    Reads sc.texts ts (shellLoop fuel sc ts).value.texts (shellLoop fuel sc ts).rest := by
  induction fuel generalizing sc ts with
  | zero => exact Reads.refl _ _
  | succ fuel ih =>
      unfold shellLoop
      split
      · exact Reads.refl _ _
      · have hround := reads_shellRound sc ts
        dsimp only
        split
        · exact hround
        · exact hround.trans (ih _ _)

end Consumption

/-! ## The parser does not look at the texts -/

section Naturality

variable {τ τ' : Type*} (f : τ → τ')

def Atomic.map (a : Atomic τ) : Atomic τ' :=
  ⟨a.argv.map f, a.infiles.map f, a.outfiles.map f, a.append⟩

def CmdGroup.map (g : CmdGroup τ) : CmdGroup τ' := ⟨g.atoms.map (Atomic.map f)⟩

def ShellCmd.map (sc : ShellCmd τ) : ShellCmd τ' :=
  ⟨sc.groups.map (CmdGroup.map f), sc.types, sc.bgUntil, sc.trailingAmp⟩

def Parsed.map {α β : Type*} (g : α → β) (p : Parsed α τ) : Parsed β τ' :=
  ⟨g p.value, p.rest.map (Token.map f), p.parseError⟩

theorem peek_map (ts : List (Token τ)) : peek (ts.map (Token.map f)) = peek ts := by
  cases ts with
  | nil => rfl
  | cons t ts => exact t.type_map f

theorem Atomic.map_addArg (text : τ) (a : Atomic τ) :
    (a.map f).addArg (f text) = (a.addArg text).map f := by
  simp [map, addArg]

theorem Atomic.map_addInfile (text : τ) (a : Atomic τ) :
    (a.map f).addInfile (f text) = (a.addInfile text).map f := by
  by_cases h : a.infiles.length < maxFiles <;> simp [map, addInfile, addArg, h]

theorem Atomic.map_addOutfile (append : Bool) (text : τ) (a : Atomic τ) :
    (a.map f).addOutfile append (f text) = (a.addOutfile append text).map f := by
  by_cases h : a.outfiles.length < maxFiles <;> simp [map, addOutfile, addArg, h]

theorem atomicLoop_map (a : Atomic τ) (ts : List (Token τ)) :
    atomicLoop (a.map f) (ts.map (Token.map f)) = (atomicLoop a ts).map f (Atomic.map f) := by
  fun_induction atomicLoop a ts with
  | case1 a text ts ih =>
      rw [← Atomic.map_addArg] at ih
      exact ih
  | case2 a text ts ih =>
      rw [← Atomic.map_addInfile] at ih
      exact ih
  | case4 a text ts ih | case6 a text ts ih =>
      rw [← Atomic.map_addOutfile] at ih
      exact ih
  | case3 a ts hname | case5 a ts hname | case7 a ts hname =>
      cases ts with
      | nil => rfl
      | cons t ts => cases t <;> first | rfl | exact absurd rfl (hname _ _)
  | case8 a ts =>
      cases ts with
      | nil => rfl
      | cons t ts => cases t <;> first | rfl | simp_all

theorem parseAtomic_map (ts : List (Token τ)) :
    parseAtomic (ts.map (Token.map f)) = (parseAtomic ts).map f (Atomic.map f) := by
  cases ts with
  | nil => rfl
  | cons t ts =>
      cases t with
      | name text => exact atomicLoop_map f ({ argv := [text] } : Atomic τ) ts
      | _ => rfl

theorem groupLoop_map (fuel : Nat) (g : CmdGroup τ) (ts : List (Token τ)) :
    groupLoop fuel (g.map f) (ts.map (Token.map f)) =
      (groupLoop fuel g ts).map f (CmdGroup.map f) := by
  have hpush : ∀ (a : Atomic τ) (g : CmdGroup τ),
      (g.map f).push (a.map f) = (g.push a).map f := by
    intro a g
    simp [CmdGroup.map, CmdGroup.push]
  induction fuel generalizing g ts with
  | zero => cases ts <;> rfl
  | succ fuel ih =>
      cases ts with
      | nil => rfl
      | cons t ts =>
          cases t with
          | pipe =>
              simp only [List.map_cons, Token.map, groupLoop, peek_map, parseAtomic_map]
              split
              · simp only [Parsed.map, hpush]
                split
                · rfl
                · exact ih _ _
              · rfl
          | _ => rfl

theorem parseCmdGroup_map (ts : List (Token τ)) :
    parseCmdGroup (ts.map (Token.map f)) = (parseCmdGroup ts).map f (CmdGroup.map f) := by
  simp only [parseCmdGroup, parseAtomic_map, Parsed.map, List.length_map]
  split
  · rfl
  · exact groupLoop_map f _ ⟨[(parseAtomic ts).value]⟩ (parseAtomic ts).rest

theorem shellRound_map (sc : ShellCmd τ) (ts : List (Token τ)) :
    shellRound (sc.map f) (ts.map (Token.map f)) =
      ((shellRound sc ts).1.map f (ShellCmd.map f), (shellRound sc ts).2) := by
  have hpush : ∀ g type, (sc.map f).push (CmdGroup.map f g) type = (sc.push g type).map f := by
    intro g type
    simp [ShellCmd.map, ShellCmd.push]
  have hpushAmp : ∀ g, (sc.map f).pushAmp (CmdGroup.map f g) = (sc.pushAmp g).map f := by
    intro g
    simp [ShellCmd.pushAmp, ShellCmd.map, ShellCmd.push]
  simp only [shellRound, parseCmdGroup_map, Parsed.map]
  cases (parseCmdGroup ts).rest with
  | nil => simp [hpush]
  | cons t rest =>
      cases t with
      | semi => simp [Token.map, hpush]
      | andAnd => simp [Token.map, hpush]
      | amp => simp [Token.map, hpushAmp, peek_map]
      | _ => simp [Token.map, hpush]

theorem shellLoop_map (fuel : Nat) (sc : ShellCmd τ) (ts : List (Token τ)) :
    shellLoop fuel (sc.map f) (ts.map (Token.map f)) =
      (shellLoop fuel sc ts).map f (ShellCmd.map f) := by
  induction fuel generalizing sc ts with
  | zero => rfl
  | succ fuel ih =>
      simp only [shellLoop, peek_map, shellRound_map]
      by_cases hpeek : peek ts = .eof
      · simp [hpeek, Parsed.map]
      · cases hstop : (shellRound sc ts).1.parseError || (shellRound sc ts).2 with
        | true => simp [hpeek, hstop, Parsed.map]
        | false => simpa [hpeek, hstop, Parsed.map] using ih _ _

theorem parseShellCmd_map (ts : List (Token τ)) :
    parseShellCmd (ts.map (Token.map f)) = (parseShellCmd ts).map f (ShellCmd.map f) := by
  have hloop := shellLoop_map f ts.length {} ts
  simpa [parseShellCmd, ShellCmd.map] using hloop

def shape (ts : List (Token τ)) : Parsed (ShellCmd Unit) Unit :=
  (parseShellCmd ts).map (fun _ => ()) (ShellCmd.map fun _ => ())

/-- The shape of the result depends on the types of the tokens only. -/
theorem shape_congr {ts ts' : List (Token τ)} (h : ts.map Token.type = ts'.map Token.type) :
    shape ts = shape ts' := by
  have herase : ∀ us us' : List (Token τ), us.map Token.type = us'.map Token.type →
      us.map (Token.map fun _ => ()) = us'.map (Token.map fun _ => ()) := by
    intro us us' hus
    induction us generalizing us' with
    | nil => simpa using hus.symm
    | cons t us ih =>
        cases us' with
        | nil => simp at hus
        | cons t' us' =>
            simp only [List.map_cons, List.cons.injEq] at hus ⊢
            exact ⟨by cases t <;> cases t' <;> simp_all [Token.type, Token.map], ih _ hus.2⟩
  rw [shape, shape, ← parseShellCmd_map, ← parseShellCmd_map, herase ts ts' h]

theorem accepted_shape (ts : List (Token τ)) :
    (shape ts).accepted = (parseShellCmd ts).accepted := by
  simp [shape, Parsed.accepted, Parsed.map, peek_map]

end Naturality

/-! ## The separators -/

section Separators

variable {τ : Type*}

def isSeparator : TokenType → Bool
  | .semi | .amp | .andAnd => true
  | _ => false

def separators (ts : List (Token τ)) : List TokenType :=
  (ts.map Token.type).filter isSeparator

end Separators

/-! ## The background prefix -/

section Prefix

variable {τ : Type*}

/-- What the loop of `parse_shell_cmd` keeps of the command. -/
structure ShellCmd.WellFormed (sc : ShellCmd τ) : Prop where
  length : sc.types.length = sc.groups.length
  bgUntil : sc.bgUntil = if .amp ∈ sc.types then (sc.types.idxOf .amp + 1 : Int) else -1
  trailingAmp : sc.trailingAmp = decide (.amp ∈ sc.types)

namespace ShellCmd.WellFormed

variable {sc : ShellCmd τ}

theorem empty : ({} : ShellCmd τ).WellFormed := ⟨rfl, rfl, rfl⟩

theorem push {type : TokenType} (h : sc.WellFormed) (htype : type ≠ .amp) (g : CmdGroup τ) :
    (sc.push g type).WellFormed where
  length := by simp [ShellCmd.push, h.length]
  bgUntil := by
    by_cases hamp : .amp ∈ sc.types
    · simp [ShellCmd.push, h.bgUntil, hamp, List.idxOf_append_of_mem hamp]
    · simp [ShellCmd.push, h.bgUntil, hamp, htype.symm]
  trailingAmp := by simp [ShellCmd.push, h.trailingAmp, htype.symm]

theorem pushAmp (h : sc.WellFormed) (g : CmdGroup τ) : (sc.pushAmp g).WellFormed where
  length := by simp [ShellCmd.pushAmp, ShellCmd.push, h.length]
  bgUntil := by
    by_cases hamp : .amp ∈ sc.types
    · have hset : (sc.types.idxOf .amp + 1 : Int) ≠ -1 := by omega
      simp [ShellCmd.pushAmp, ShellCmd.push, h.bgUntil, hamp, hset, List.idxOf_append_of_mem hamp]
    · simp [ShellCmd.pushAmp, ShellCmd.push, h.bgUntil, hamp, h.length,
        List.idxOf_append_of_notMem hamp]
  trailingAmp := by simp [ShellCmd.pushAmp, ShellCmd.push]

theorem shellRound (h : sc.WellFormed) (ts : List (Token τ)) :
    (OxyC.Shell.shellRound sc ts).1.value.WellFormed := by
  unfold OxyC.Shell.shellRound
  dsimp only
  split
  · exact h.push (by decide) _
  · exact h.push (by decide) _
  · exact h.pushAmp _
  · exact h.push (by decide) _

theorem shellLoop (h : sc.WellFormed) (fuel : Nat) (ts : List (Token τ)) :
    (OxyC.Shell.shellLoop fuel sc ts).value.WellFormed := by
  induction fuel generalizing sc ts with
  | zero => exact h
  | succ fuel ih =>
      unfold OxyC.Shell.shellLoop
      split
      · exact h
      · dsimp only
        split
        · exact h.shellRound ts
        · exact ih (h.shellRound ts) _

theorem bgUntil_of_notMem (h : sc.WellFormed) (hamp : .amp ∉ sc.types) : sc.bgUntil = -1 := by
  rw [h.bgUntil, if_neg hamp]

theorem hasPrefix (h : sc.WellFormed) :
    (sc.trailingAmp && sc.bgUntil != -1) = decide (.amp ∈ sc.types) := by
  by_cases hamp : .amp ∈ sc.types
  · have hset : (sc.types.idxOf .amp + 1 : Int) ≠ -1 := by omega
    simp [h.trailingAmp, h.bgUntil, hamp, hset]
  · simp [h.trailingAmp, hamp]

theorem bgUntil_ge (h : sc.WellFormed) : -1 ≤ sc.bgUntil := by
  rw [h.bgUntil]
  split <;> omega

theorem bgUntil_le (h : sc.WellFormed) : sc.bgUntil ≤ sc.groups.length := by
  rw [h.bgUntil]
  split
  · rename_i hamp
    have hlt := List.idxOf_lt_length_of_mem hamp
    have hlength := h.length
    omega
  · omega

end ShellCmd.WellFormed

theorem parseShellCmd_wellFormed (ts : List (Token τ)) : (parseShellCmd ts).value.WellFormed :=
  ShellCmd.WellFormed.empty.shellLoop _ _

end Prefix

/-! ## Accepted lines -/

section Accepted

variable {line : List Char} {cmd : ShellCmd (List Char)}

theorem parseLine_eq_some (h : parseLine line = some cmd) :
    (parseShellCmd (tokenize line)).accepted = true ∧
      cmd = (parseShellCmd (tokenize line)).value := by
  unfold parseLine at h
  dsimp only at h
  split at h
  · rename_i haccepted
    exact ⟨haccepted, by simpa using h.symm⟩
  · simp at h

theorem parseLine_wellFormed (h : parseLine line = some cmd) : cmd.WellFormed := by
  rw [(parseLine_eq_some h).2]
  exact parseShellCmd_wellFormed _

theorem rest_of_accepted (h : (parseShellCmd (tokenize line)).accepted = true) :
    (parseShellCmd (tokenize line)).rest = [] ∨ (parseShellCmd (tokenize line)).rest = [.eof] := by
  have hsuffix := (reads_shellLoop (tokenize line).length {} (tokenize line)).suffix
  obtain ⟨before, hnone, htokens⟩ := tokenize_eof line
  rw [← parseShellCmd] at hsuffix
  simp only [Parsed.accepted, Bool.and_eq_true, decide_eq_true_eq] at h
  cases hrest : (parseShellCmd (tokenize line)).rest with
  | nil => simp
  | cons t rest =>
      rw [hrest] at h hsuffix
      have ht : t = .eof := by
        have htype := h.2
        cases t <;> simp_all [peek, Token.type]
      subst ht
      rw [htokens] at hsuffix
      obtain ⟨read, hread⟩ := hsuffix
      cases rest with
      | nil => simp
      | cons u rest =>
          -- an end before the last token would be among `before`
          have hbefore : read ++ (.eof :: u :: rest).dropLast = before := by
            rw [← List.dropLast_append_of_ne_nil (by simp), hread, List.dropLast_concat]
          exact absurd (by simp [← hbefore]) hnone

theorem parseLine_texts (h : parseLine line = some cmd) :
    cmd.texts.Perm (names (tokenize line)) := by
  have hloop := (reads_shellLoop (tokenize line).length {} (tokenize line)).perm
  rw [← parseShellCmd, ← (parseLine_eq_some h).2] at hloop
  cases rest_of_accepted (parseLine_eq_some h).1 with
  | inl hrest => simpa [hrest, names, ShellCmd.texts] using hloop
  | inr hrest =>
      have hnone : names [(.eof : Token (List Char))] = [] := rfl
      simpa [hrest, hnone, ShellCmd.texts] using hloop

end Accepted

end OxyC.Shell
