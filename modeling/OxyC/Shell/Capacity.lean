import OxyC.Shell.Faithful
import OxyC.Shell.History

/-!
# The arrays of the tokenizer and the parser

The writes that `tokenize` and the parse functions make to their arrays, in the
order of `atomicLoop`, `groupLoop` and `shellLoop`.  Only the writes to
`infiles` and `outfiles` are guarded.
-/

namespace OxyC.Shell

inductive Table where
  | tokens
  | argv
  | infiles
  | outfiles
  | atoms
  | groups
  | types
  deriving DecidableEq, Repr

def Table.size : Table → Nat
  | .tokens => 1024
  | .argv => 32
  | .infiles => 8
  | .outfiles => 8
  | .atoms => 32
  | .groups => 32
  | .types => 32

structure Write where
  table : Table
  index : Nat
  deriving DecidableEq, Repr

def Write.Inside (w : Write) : Prop := w.index < w.table.size

instance (w : Write) : Decidable w.Inside := inferInstanceAs (Decidable (_ < _))

/-- `add_token` for each token. -/
def tokenizeWrites (line : List Char) : List Write :=
  (List.range (tokenize line).length).map fun ntok => ⟨.tokens, ntok⟩

section Writes

variable {τ : Type*}

/-- The name behind `<`; a ninth one is read as an argument. -/
def Atomic.infileWrite (a : Atomic τ) : Write :=
  if a.infiles.length < maxFiles then ⟨.infiles, a.infiles.length⟩ else ⟨.argv, a.argv.length⟩

def Atomic.outfileWrite (a : Atomic τ) : Write :=
  if a.outfiles.length < maxFiles then ⟨.outfiles, a.outfiles.length⟩ else ⟨.argv, a.argv.length⟩

/-- `argv[argc] = NULL` is left out when a file name is missing. -/
def atomicLoopWrites (a : Atomic τ) : List (Token τ) → List Write
  | .name text :: ts => ⟨.argv, a.argv.length⟩ :: atomicLoopWrites (a.addArg text) ts
  | .lt :: .name text :: ts => a.infileWrite :: atomicLoopWrites (a.addInfile text) ts
  | .lt :: _ => []
  | .gt :: .name text :: ts => a.outfileWrite :: atomicLoopWrites (a.addOutfile false text) ts
  | .gt :: _ => []
  | .gtGt :: .name text :: ts => a.outfileWrite :: atomicLoopWrites (a.addOutfile true text) ts
  | .gtGt :: _ => []
  | _ => [⟨.argv, a.argv.length⟩]

def parseAtomicWrites : List (Token τ) → List Write
  | .name text :: ts => ⟨.argv, 0⟩ :: atomicLoopWrites { argv := [text] } ts
  | _ => []

def groupLoopWrites : Nat → CmdGroup τ → List (Token τ) → List Write
  | fuel + 1, g, .pipe :: ts =>
      if peek ts = .name then
        let p := parseAtomic ts
        parseAtomicWrites ts ++ ⟨.atoms, g.atoms.length⟩ ::
          if p.parseError then [] else groupLoopWrites fuel (g.push p.value) p.rest
      else []
  | _, _, _ => []

def parseCmdGroupWrites (ts : List (Token τ)) : List Write :=
  let p := parseAtomic ts
  parseAtomicWrites ts ++ ⟨.atoms, 0⟩ ::
    if p.parseError then [] else groupLoopWrites p.rest.length ⟨[p.value]⟩ p.rest

def shellRoundWrites (sc : ShellCmd τ) (ts : List (Token τ)) : List Write :=
  parseCmdGroupWrites ts ++ [⟨.groups, sc.groups.length⟩, ⟨.types, sc.groups.length⟩]

def shellLoopWrites : Nat → ShellCmd τ → List (Token τ) → List Write
  | 0, _, _ => []
  | fuel + 1, sc, ts =>
      if peek ts = .eof then []
      else
        let (p, leaves) := shellRound sc ts
        shellRoundWrites sc ts ++
          if p.parseError || leaves then [] else shellLoopWrites fuel p.value p.rest

/-- The last assignment marks a group that has the type `T_EOF` already. -/
def parseShellCmdWrites (ts : List (Token τ)) : List Write :=
  shellLoopWrites ts.length {} ts ++
    if (parseShellCmd ts).value.types.getLast? = some .eof then
      [⟨.types, (parseShellCmd ts).value.groups.length - 1⟩]
    else []

end Writes

def lineWrites (line : List Char) : List Write :=
  tokenizeWrites line ++ parseShellCmdWrites (tokenize line)

/-! ## What the tokens ask for -/

/-- `y` may stand behind `x` in a line; at the start of the line `x` is a separator. -/
def Follows (x y : TokenType) : Prop := y = .name ∨ x = .name ∨ (isSeparator x = true ∧ y = .eof)

instance (x y : TokenType) : Decidable (Follows x y) := inferInstanceAs (Decidable (_ ∨ _ ∨ _ ∧ _))

/-- Up to a token: its type, the groups that are closed, the pipes of the group, and what its
atomic command has put into the arrays. -/
structure Counts where
  last : TokenType
  groups : Nat
  atoms : Nat
  argv : Nat
  infiles : Nat
  outfiles : Nat
  deriving DecidableEq, Repr

/-- There is room for what is written at a token of the type `t`: a group is begun, an atomic
command is begun behind `|`, an argument is added or the argument list is closed. -/
structure Counts.Room (c : Counts) (t : TokenType) : Prop where
  groups : isSeparator c.last = true → t ≠ .eof → c.groups < Table.groups.size
  atoms : c.last = .pipe → t = .name → c.atoms < Table.atoms.size
  argv : c.last = .name → isRedirection t = false → c.argv < Table.argv.size
  infiles : c.last = .lt → t = .name → maxFiles ≤ c.infiles → c.argv < Table.argv.size
  outfiles : c.last = .gt ∨ c.last = .gtGt → t = .name → maxFiles ≤ c.outfiles →
    c.argv < Table.argv.size

section Counting

variable {τ : Type*}

def lastType (ts : List (Token τ)) : TokenType := (ts.getLast?.map Token.type).getD .semi

def lastGroup (ts : List (Token τ)) : List (Token τ) := ts.rtakeWhile (!isSeparator ·.type)

def lastAtomic (ts : List (Token τ)) : List (Token τ) := ts.rtakeWhile (!isControl ·.type)

def counts (ts : List (Token τ)) : Counts where
  last := lastType ts
  groups := (separators ts).length
  atoms := ((lastGroup ts).map Token.type).count .pipe
  argv := (words (lastAtomic ts)).length + ((inputs (lastAtomic ts)).length - maxFiles) +
    ((outputs (lastAtomic ts)).length - maxFiles)
  infiles := min maxFiles (inputs (lastAtomic ts)).length
  outfiles := min maxFiles (outputs (lastAtomic ts)).length

/-- No syntax error has been found in the tokens `ts` at the start of a line. -/
def Viable (ts : List (Token τ)) : Prop := (.semi :: ts.map Token.type).IsChain Follows

end Counting

/-! ## Counting one token more -/

namespace Counts

/-- A name is an argument unless it is a file for which there is room. -/
def name (c : Counts) : Counts :=
  match c.last with
  | .lt =>
      if c.infiles < maxFiles then { c with last := .name, infiles := c.infiles + 1 }
      else { c with last := .name, argv := c.argv + 1 }
  | .gt | .gtGt =>
      if c.outfiles < maxFiles then { c with last := .name, outfiles := c.outfiles + 1 }
      else { c with last := .name, argv := c.argv + 1 }
  | _ => { c with last := .name, argv := c.argv + 1 }

def next (c : Counts) (t : TokenType) : Counts :=
  if isSeparator t then ⟨t, c.groups + 1, 0, 0, 0, 0⟩
  else if t = .pipe then ⟨t, c.groups, c.atoms + 1, 0, 0, 0⟩
  else if t = .name then c.name
  else { c with last := t }

end Counts

section Next

variable {τ : Type*}

theorem namesBehind_concat (p : TokenType → Bool) (prev : TokenType) (ts : List (Token τ))
    (t : Token τ) :
    namesBehind p prev (ts ++ [t]) =
      namesBehind p prev ts ++
        if p ((ts.getLast?.map Token.type).getD prev) then t.text?.toList else [] := by
  induction ts generalizing prev with
  | nil =>
      simp [namesBehind]
      rfl
  | cons u ts ih =>
      rw [List.cons_append, namesBehind, ih, namesBehind, List.append_assoc]
      cases ts with
      | nil => rfl
      | cons v ts =>
          have hlast := List.getLast?_eq_some_getLast (List.cons_ne_nil v ts)
          rw [List.getLast?_cons_cons, hlast]
          rfl

theorem lastType_concat (ts : List (Token τ)) (t : Token τ) : lastType (ts ++ [t]) = t.type := by
  simp [lastType]

/-- Before an atomic command stands nothing that a name could belong to. -/
theorem getLast?_lastAtomic (p : TokenType → Bool)
    (hp : ∀ t, isControl t = true → p t = p .eof) (ts : List (Token τ)) :
    p (((lastAtomic ts).getLast?.map Token.type).getD .eof) = p (lastType ts) := by
  cases ts using List.reverseRecOn with
  | nil => simp [lastAtomic, lastType, hp .semi rfl]
  | append_singleton ts t =>
      rw [lastType_concat, lastAtomic]
      by_cases hcontrol : isControl t.type = true
      · rw [List.rtakeWhile_concat_neg _ _ _ (by simp [hcontrol]), hp _ hcontrol]
        rfl
      · rw [List.rtakeWhile_concat_pos _ _ _ (by simp [hcontrol])]
        simp

theorem namesBehind_lastAtomic (p : TokenType → Bool)
    (hp : ∀ t, isControl t = true → p t = p .eof) (ts : List (Token τ)) (t : Token τ) :
    namesBehind p .eof (lastAtomic (ts ++ [t])) =
      if isControl t.type then []
      else namesBehind p .eof (lastAtomic ts) ++
        if p (lastType ts) then t.text?.toList else [] := by
  by_cases hcontrol : isControl t.type = true
  · rw [lastAtomic, List.rtakeWhile_concat_neg _ _ _ (by simp [hcontrol]), if_pos hcontrol]
    rfl
  · rw [lastAtomic, List.rtakeWhile_concat_pos _ _ _ (by simp [hcontrol]), if_neg hcontrol,
      ← lastAtomic, namesBehind_concat, getLast?_lastAtomic p hp]

theorem counts_nil : counts ([] : List (Token τ)) = ⟨.semi, 0, 0, 0, 0, 0⟩ := rfl

theorem separators_concat (ts : List (Token τ)) (t : Token τ) :
    (separators (ts ++ [t])).length =
      (separators ts).length + if isSeparator t.type then 1 else 0 := by
  cases hsep : isSeparator t.type <;> simp [separators, hsep]

theorem pipes_concat (ts : List (Token τ)) (t : Token τ) :
    ((lastGroup (ts ++ [t])).map Token.type).count .pipe =
      if isSeparator t.type then 0
      else ((lastGroup ts).map Token.type).count .pipe + if t.type = .pipe then 1 else 0 := by
  by_cases hsep : isSeparator t.type = true
  · rw [lastGroup, List.rtakeWhile_concat_neg _ _ _ (by simp [hsep]), if_pos hsep]
    rfl
  · rw [lastGroup, List.rtakeWhile_concat_pos _ _ _ (by simp [hsep]), if_neg hsep, ← lastGroup,
      List.map_append, List.count_append]
    simp [List.count_singleton]

theorem counts_concat (ts : List (Token τ)) (t : Token τ) :
    counts (ts ++ [t]) = (counts ts).next t.type := by
  have hwords := namesBehind_lastAtomic (τ := τ) (!isRedirection ·)
    (by intro u; cases u <;> decide) ts t
  have hinputs := namesBehind_lastAtomic (τ := τ) (· = .lt) (by intro u; cases u <;> decide) ts t
  have houtputs := namesBehind_lastAtomic (τ := τ) (fun u => u = .gt || u = .gtGt)
    (by intro u; cases u <;> decide) ts t
  simp only [counts, lastType_concat, separators_concat, pipes_concat, words, inputs, outputs,
    hwords, hinputs, houtputs]
  clear hwords hinputs houtputs
  generalize lastType ts = last
  cases t with
  | name text =>
      cases last with
      | lt | gt | gtGt =>
          simp [Counts.next, Counts.name, Token.type, isControl, isSeparator, isRedirection,
            Token.text?]
          split <;> simp <;> omega
      | _ =>
          simp [Counts.next, Counts.name, Token.type, isControl, isSeparator, isRedirection,
            Token.text?]
          omega
  | _ => simp [Counts.next, Token.type, isControl, isSeparator, Token.text?]

end Next

/-! ## Room token by token -/

section RoomFrom

variable {τ : Type*}

/-- There is room at every token of `ts` that is read, with `c` before the first one. -/
def RoomFrom (c : Counts) : List (Token τ) → Prop
  | [] => c.Room .eof
  | t :: ts =>
      c.Room t.type ∧ (Follows c.last t.type → t.type ≠ .eof → RoomFrom (c.next t.type) ts)

theorem viable_cons {last : TokenType} {t : Token τ} {ts : List (Token τ)} :
    (last :: (t :: ts).map Token.type).IsChain Follows ↔
      Follows last t.type ∧ (t.type :: ts.map Token.type).IsChain Follows := by
  simp

theorem roomFrom_iff {before : List (Token τ)} (heof : .eof ∉ before) (front : List (Token τ)) :
    RoomFrom (counts front) (before ++ [.eof]) ↔
      ∀ pre t behind, before ++ [.eof] = pre ++ t :: behind →
        (lastType front :: pre.map Token.type).IsChain Follows →
          (counts (front ++ pre)).Room t.type := by
  induction before generalizing front with
  | nil =>
      constructor
      · rintro ⟨hroom, -⟩ pre t behind heq -
        cases pre with
        | nil =>
            rw [List.nil_append, List.nil_append, List.cons.injEq] at heq
            rw [List.append_nil, ← heq.1]
            exact hroom
        | cons u pre => simp at heq
      · intro hall
        have hroom := hall [] .eof [] rfl (by simp)
        rw [List.append_nil] at hroom
        exact ⟨hroom, fun _ hne => absurd rfl hne⟩
  | cons u before ih =>
      have hu : u.type ≠ .eof := by
        cases u <;> first | exact absurd List.mem_cons_self heof | simp [Token.type]
      have hrest := ih (fun hmem => heof (List.mem_cons_of_mem u hmem)) (front ++ [u])
      rw [counts_concat, lastType_concat] at hrest
      rw [List.cons_append, RoomFrom, hrest]
      constructor
      · rintro ⟨hroom, hall⟩ pre t behind heq hchain
        cases pre with
        | nil =>
            rw [List.nil_append, List.cons.injEq] at heq
            rw [List.append_nil, ← heq.1]
            exact hroom
        | cons v pre =>
            rw [List.cons_append, List.cons.injEq] at heq
            obtain ⟨rfl, heq⟩ := heq
            rw [viable_cons] at hchain
            have hlater := hall hchain.1 hu pre t behind heq hchain.2
            rwa [List.append_assoc] at hlater
      · intro hall
        constructor
        · have hroom := hall [] u (before ++ [.eof]) rfl (by simp)
          rwa [List.append_nil] at hroom
        · intro hfollows _ pre t behind heq hchain
          have hlater := hall (u :: pre) t behind (by rw [heq]; rfl)
            (viable_cons.mpr ⟨hfollows, hchain⟩)
          rwa [List.append_assoc]

/-- What the parser knows behind a name. -/
def Counts.inAtomic (groups atoms : Nat) (a : Atomic τ) : Counts :=
  ⟨.name, groups, atoms, a.argv.length, a.infiles.length, a.outfiles.length⟩

variable {groups atoms : Nat} {a : Atomic τ}

theorem room_inAtomic (t : TokenType) :
    (Counts.inAtomic groups atoms a).Room t ↔
      (isRedirection t = false → a.argv.length < Table.argv.size) := by
  constructor
  · exact fun h => h.argv rfl
  · exact fun h => ⟨by simp [Counts.inAtomic, isSeparator], by simp [Counts.inAtomic],
      fun _ => h, by simp [Counts.inAtomic], by simp [Counts.inAtomic]⟩

theorem next_addArg (text : τ) :
    (Counts.inAtomic groups atoms a).next .name = .inAtomic groups atoms (a.addArg text) := by
  simp [Counts.inAtomic, Counts.next, Counts.name, isSeparator, Atomic.addArg]

theorem next_addInfile (text : τ) :
    ((Counts.inAtomic groups atoms a).next .lt).next .name =
      .inAtomic groups atoms (a.addInfile text) := by
  simp only [Counts.inAtomic, Counts.next, Counts.name, isSeparator, Atomic.addInfile]
  by_cases hroom : a.infiles.length < maxFiles <;> simp [hroom, Atomic.addArg]

theorem next_addOutfile {t : TokenType} (ht : t = .gt ∨ t = .gtGt) (append : Bool) (text : τ) :
    ((Counts.inAtomic groups atoms a).next t).next .name =
      .inAtomic groups atoms (a.addOutfile append text) := by
  rcases ht with rfl | rfl <;>
    simp only [Counts.inAtomic, Counts.next, Counts.name, isSeparator, Atomic.addOutfile] <;>
    by_cases hroom : a.outfiles.length < maxFiles <;> simp [hroom, Atomic.addArg]

theorem follows_name (t : TokenType) : Follows .name t := .inr (.inl rfl)

theorem name_follows (t : TokenType) : Follows t .name := .inl rfl

theorem roomFrom_name (text : τ) (ts : List (Token τ)) :
    RoomFrom (.inAtomic groups atoms a) (.name text :: ts) ↔
      (Write.mk .argv a.argv.length).Inside ∧
        RoomFrom (.inAtomic groups atoms (a.addArg text)) ts := by
  rw [RoomFrom, room_inAtomic, ← next_addArg text]
  simp [Token.type, isRedirection, follows_name, Counts.inAtomic, Write.Inside]

theorem next_redirection {t : TokenType} (ht : isRedirection t = true) :
    (Counts.inAtomic groups atoms a).next t =
      ⟨t, groups, atoms, a.argv.length, a.infiles.length, a.outfiles.length⟩ := by
  cases t <;> first | rfl | cases ht

/-- Behind a redirection only a file name is written. -/
theorem room_redirection {c : Counts} (hc : isRedirection c.last = true) (t : TokenType) :
    c.Room t ↔
      (c.last = .lt → t = .name → maxFiles ≤ c.infiles → c.argv < Table.argv.size) ∧
        (c.last = .gt ∨ c.last = .gtGt → t = .name → maxFiles ≤ c.outfiles →
          c.argv < Table.argv.size) := by
  constructor
  · exact fun h => ⟨h.infiles, h.outfiles⟩
  · intro h
    have hne : isSeparator c.last ≠ true ∧ c.last ≠ .pipe ∧ c.last ≠ .name := by
      cases hlast : c.last <;> simp_all [isRedirection, isSeparator]
    exact ⟨fun hsep => absurd hsep hne.1, fun hpipe => absurd hpipe hne.2.1,
      fun hname => absurd hname hne.2.2, h.1, h.2⟩

/-- A file name for which there is no room becomes an argument. -/
theorem inside_fileWrite {table : Table} (hsize : table.size = maxFiles) (n argc : Nat) :
    (if n < maxFiles then (⟨table, n⟩ : Write) else ⟨.argv, argc⟩).Inside ↔
      (maxFiles ≤ n → argc < Table.argv.size) := by
  split
  next hroom =>
      rw [Write.Inside, hsize]
      exact ⟨fun _ hfull => absurd hroom (not_lt.mpr hfull), fun _ => hroom⟩
  next hfull => exact ⟨fun h _ => h, fun h => h (not_lt.mp hfull)⟩

theorem inside_infileWrite :
    a.infileWrite.Inside ↔ (maxFiles ≤ a.infiles.length → a.argv.length < Table.argv.size) :=
  inside_fileWrite rfl _ _

theorem inside_outfileWrite :
    a.outfileWrite.Inside ↔ (maxFiles ≤ a.outfiles.length → a.argv.length < Table.argv.size) :=
  inside_fileWrite rfl _ _

theorem room_infile :
    ((Counts.inAtomic groups atoms a).next .lt).Room .name ↔ a.infileWrite.Inside := by
  rw [next_redirection rfl, room_redirection rfl, inside_infileWrite]
  simp

theorem room_outfile {t : TokenType} (ht : t = .gt ∨ t = .gtGt) :
    ((Counts.inAtomic groups atoms a).next t).Room .name ↔ a.outfileWrite.Inside := by
  have hredirection : isRedirection t = true := by rcases ht with rfl | rfl <;> rfl
  have hne : t ≠ .lt := by rcases ht with rfl | rfl <;> decide
  rw [next_redirection hredirection, room_redirection hredirection, inside_outfileWrite]
  simp [hne, ht]

theorem roomFrom_redirection {t : Token τ} (ht : isRedirection t.type = true)
    (ts : List (Token τ)) :
    RoomFrom (.inAtomic groups atoms a) (t :: ts) ↔
      RoomFrom ((Counts.inAtomic groups atoms a).next t.type) ts := by
  rw [RoomFrom, room_inAtomic]
  have hne : t.type ≠ .eof := by
    intro heof
    rw [heof] at ht
    cases ht
  simp [ht, hne, Counts.inAtomic, follows_name]

theorem roomFrom_file {c : Counts} (text : τ) (ts : List (Token τ)) :
    RoomFrom c (.name text :: ts) ↔ c.Room .name ∧ RoomFrom (c.next .name) ts := by
  simp [RoomFrom, Token.type, name_follows]

theorem roomFrom_missing {c : Counts} (hlast : isRedirection c.last = true ∨ c.last = .pipe)
    {ts : List (Token τ)} (hts : peek ts ≠ .name) : RoomFrom c ts := by
  have hroom : ∀ t : TokenType, t ≠ .name → c.Room t := by
    intro t ht
    cases hlast with
    | inl hredirection =>
        rw [room_redirection hredirection]
        exact ⟨fun _ heq => absurd heq ht, fun _ heq => absurd heq ht⟩
    | inr hpipe =>
        exact ⟨by simp [hpipe, isSeparator], fun _ heq => absurd heq ht, by simp [hpipe],
          fun _ heq => absurd heq ht, fun _ heq => absurd heq ht⟩
  have hnot : ∀ t : TokenType, t ≠ .name → ¬ Follows c.last t := by
    intro t ht hfollows
    rw [Follows] at hfollows
    cases hc : c.last <;> simp_all [isRedirection, isSeparator]
  cases ts with
  | nil => exact hroom .eof (by decide)
  | cons t ts => exact ⟨hroom _ hts, fun hfollows => absurd hfollows (hnot _ hts)⟩

end RoomFrom

/-! ## The writes of the parser -/

section Parser

variable {τ : Type*} {groups atoms : Nat}

theorem roomFrom_infile (a : Atomic τ) (text : τ) (ts : List (Token τ)) :
    RoomFrom (.inAtomic groups atoms a) (.lt :: .name text :: ts) ↔
      a.infileWrite.Inside ∧ RoomFrom (.inAtomic groups atoms (a.addInfile text)) ts := by
  rw [roomFrom_redirection rfl, roomFrom_file, ← next_addInfile text]
  exact and_congr_left' room_infile

theorem roomFrom_outfile (a : Atomic τ) {t : Token τ} (ht : t.type = .gt ∨ t.type = .gtGt)
    (append : Bool) (text : τ) (ts : List (Token τ)) :
    RoomFrom (.inAtomic groups atoms a) (t :: .name text :: ts) ↔
      a.outfileWrite.Inside ∧
        RoomFrom (.inAtomic groups atoms (a.addOutfile append text)) ts := by
  have hredirection : isRedirection t.type = true := by rcases ht with h | h <;> rw [h] <;> rfl
  rw [roomFrom_redirection hredirection, roomFrom_file, ← next_addOutfile ht append text]
  exact and_congr_left' (room_outfile ht)

theorem roomFrom_noName (a : Atomic τ) {t : Token τ} (ht : isRedirection t.type = true)
    {ts : List (Token τ)} (hname : ∀ text us, ts = .name text :: us → False) :
    RoomFrom (.inAtomic groups atoms a) (t :: ts) := by
  rw [roomFrom_redirection ht, next_redirection ht]
  refine roomFrom_missing (.inl ht) ?_
  cases ts with
  | nil => simp [peek]
  | cons u ts => cases u <;> first | exact (hname _ _ rfl).elim | simp [peek, Token.type]

theorem argv_of_roomFrom {a : Atomic τ} {ts : List (Token τ)} (hts : AtomicStops ts)
    (h : RoomFrom (.inAtomic groups atoms a) ts) : a.argv.length < Table.argv.size := by
  obtain ⟨-, hlt, hgt, hgtGt⟩ := hts
  cases ts with
  | nil => exact (room_inAtomic _).mp h rfl
  | cons t ts =>
      refine (room_inAtomic _).mp h.1 ?_
      cases t <;> first | rfl | simp_all [peek, Token.type]

theorem roomFrom_atomicLoop (a : Atomic τ) (ts : List (Token τ)) :
    RoomFrom (.inAtomic groups atoms a) ts ↔
      (∀ w ∈ atomicLoopWrites a ts, w.Inside) ∧
        ((atomicLoop a ts).parseError = false →
          RoomFrom (.inAtomic groups atoms (atomicLoop a ts).value) (atomicLoop a ts).rest) := by
  fun_induction atomicLoop a ts with
  | case1 a text ts ih =>
      rw [roomFrom_name, ih, atomicLoopWrites, List.forall_mem_cons, and_assoc]
  | case2 a text ts ih =>
      rw [roomFrom_infile, ih, atomicLoopWrites, List.forall_mem_cons, and_assoc]
  | case4 a text ts ih =>
      rw [roomFrom_outfile a (.inl rfl) false, ih, atomicLoopWrites, List.forall_mem_cons, and_assoc]
  | case6 a text ts ih =>
      rw [roomFrom_outfile a (.inr rfl) true, ih, atomicLoopWrites, List.forall_mem_cons, and_assoc]
  | case3 a ts hname | case5 a ts hname | case7 a ts hname =>
      rw [iff_true_left (roomFrom_noName a rfl hname)]
      simp [atomicLoopWrites]
  | case8 a ts hname hltName hlt hgtName hgt hgtGtName hgtGt =>
      have hstops : AtomicStops ts := by
        cases ts with
        | nil => simp [AtomicStops, peek]
        | cons t ts => cases t <;> simp_all [AtomicStops, peek, Token.type]
      have hwrites : atomicLoopWrites a ts = [⟨.argv, a.argv.length⟩] := by
        simp [atomicLoopWrites]
      rw [hwrites]
      simp only [List.mem_singleton, forall_eq, forall_const]
      exact ⟨fun h => ⟨argv_of_roomFrom hstops h, h⟩, fun h => h.2⟩

theorem close_mem_writes (a : Atomic τ) (ts : List (Token τ))
    (h : (atomicLoop a ts).parseError = false) :
    ⟨.argv, (atomicLoop a ts).value.argv.length⟩ ∈ atomicLoopWrites a ts := by
  fun_induction atomicLoop a ts with
  | case1 a text ts ih | case2 a text ts ih | case4 a text ts ih | case6 a text ts ih =>
      exact List.mem_cons_of_mem _ (ih h)
  | case3 | case5 | case7 => cases h
  | case8 a ts => simp [atomicLoopWrites]

/-- The tokens behind a group, with `groups` groups before it. -/
def RoomAfter (groups : Nat) : List (Token τ) → Prop
  | [] => True
  | t :: ts => t.type ≠ .eof → RoomFrom ⟨t.type, groups + 1, 0, 0, 0, 0⟩ ts

theorem roomFrom_groupStops (a : Atomic τ) {ts : List (Token τ)} (hts : GroupStops ts) :
    RoomFrom (.inAtomic groups atoms a) ts ↔
      a.argv.length < Table.argv.size ∧ RoomAfter groups ts := by
  cases ts with
  | nil =>
      rw [RoomFrom, room_inAtomic]
      simp [isRedirection, RoomAfter]
  | cons t ts =>
      obtain ⟨⟨hname, hlt, hgt, hgtGt⟩, hpipe⟩ := hts
      rw [RoomFrom, room_inAtomic, RoomAfter]
      have hfollows : Follows (Counts.inAtomic groups atoms a).last t.type := follows_name _
      cases t with
      | eof => simp [Token.type, isRedirection]
      | semi | amp | andAnd =>
          simp [Token.type, isRedirection, Counts.next, isSeparator, Counts.inAtomic, Follows]
      | _ => simp_all [peek, Token.type]

structure Counts.Begins (c : Counts) : Prop where
  last : c.last = .pipe ∨ isSeparator c.last = true
  argv : c.argv = 0
  infiles : c.infiles = 0
  outfiles : c.outfiles = 0

theorem Counts.Begins.next_name {c : Counts} (hc : c.Begins) (text : τ) :
    c.next .name = .inAtomic c.groups c.atoms ({ argv := [text] } : Atomic τ) := by
  obtain ⟨last, groups, atoms, argv, infiles, outfiles⟩ := c
  obtain ⟨hlast, rfl, rfl, rfl⟩ := hc
  cases last <;> simp_all [Counts.next, Counts.name, Counts.inAtomic, isSeparator]

theorem roomFrom_parseAtomic {c : Counts} (hc : c.Begins) {ts : List (Token τ)}
    (hname : peek ts = .name) :
    RoomFrom c ts ↔
      c.Room .name ∧ (∀ w ∈ parseAtomicWrites ts, w.Inside) ∧
        ((parseAtomic ts).parseError = false →
          RoomFrom (.inAtomic c.groups c.atoms (parseAtomic ts).value) (parseAtomic ts).rest) := by
  cases ts with
  | nil => cases hname
  | cons t ts =>
      cases t with
      | name text =>
          rw [roomFrom_file, hc.next_name text, roomFrom_atomicLoop, parseAtomicWrites,
            List.forall_mem_cons]
          have hfirst : (Write.mk .argv 0).Inside := by decide
          simp only [hfirst, true_and]
          rfl
      | _ => cases hname

theorem argv_of_parseAtomic {ts : List (Token τ)} (hwrites : ∀ w ∈ parseAtomicWrites ts, w.Inside)
    (h : (parseAtomic ts).parseError = false) :
    (parseAtomic ts).value.argv.length < Table.argv.size := by
  unfold parseAtomic at h ⊢
  split at h
  · rename_i text ts
    exact hwrites _ (List.mem_cons_of_mem _ (close_mem_writes _ ts h))
  · cases h

theorem groupLoopWrites_of_stops {fuel : Nat} (g : CmdGroup τ) {ts : List (Token τ)}
    (hts : peek ts ≠ .pipe) : groupLoopWrites fuel g ts = [] := by
  cases fuel with
  | zero => rfl
  | succ fuel =>
      cases ts with
      | nil => rfl
      | cons t ts => cases t <;> first | rfl | exact absurd rfl hts

theorem room_pipe {c : Counts} (hc : c.last = .pipe) :
    c.Room .name ↔ c.atoms < Table.atoms.size := by
  constructor
  · exact fun h => h.atoms hc rfl
  · exact fun h => ⟨by simp [hc, isSeparator], fun _ _ => h, by simp [hc], by simp [hc],
      by simp [hc]⟩

theorem roomFrom_groupLoop {fuel : Nat} (g : CmdGroup τ) (a : Atomic τ) {ts : List (Token τ)}
    (hfuel : ts.length ≤ fuel) (hg : g.atoms.length = atoms + 1) (hts : AtomicStops ts) :
    RoomFrom (.inAtomic groups atoms a) ts ↔
      a.argv.length < Table.argv.size ∧ (∀ w ∈ groupLoopWrites fuel g ts, w.Inside) ∧
        ((groupLoop fuel g ts).parseError = false →
          RoomAfter groups (groupLoop fuel g ts).rest) := by
  induction fuel generalizing g a ts atoms with
  | zero =>
      obtain rfl := List.eq_nil_of_length_eq_zero (Nat.le_zero.mp hfuel)
      rw [roomFrom_groupStops a ⟨hts, by simp [peek]⟩]
      simp [groupLoopWrites, groupLoop]
  | succ fuel ih =>
      by_cases hpipe : peek ts = .pipe
      · cases ts with
        | nil => cases hpipe
        | cons t ts =>
            cases t with
            | pipe =>
                have hnext : (Counts.inAtomic groups atoms a).next (Token.pipe : Token τ).type =
                    ⟨.pipe, groups, atoms + 1, 0, 0, 0⟩ := rfl
                rw [RoomFrom, room_inAtomic, hnext]
                simp only [Token.type, Counts.inAtomic, follows_name, forall_const,
                  ne_eq, reduceCtorEq, not_false_eq_true, isRedirection]
                refine and_congr_right' ?_
                by_cases hname : peek ts = .name
                · rw [roomFrom_parseAtomic ⟨.inl rfl, rfl, rfl, rfl⟩ hname, room_pipe rfl]
                  have hatom : (Write.mk .atoms g.atoms.length).Inside ↔
                      atoms + 1 < Table.atoms.size := by rw [hg]; rfl
                  simp only [groupLoopWrites, groupLoop, hname, if_true, List.forall_mem_append,
                    List.forall_mem_cons, hatom]
                  cases herror : (parseAtomic ts).parseError with
                  | true => simp [and_comm]
                  | false =>
                      have hstops := (parseAtomic_sound ts herror).1
                      have hlength : (parseAtomic ts).rest.length ≤ fuel :=
                        (reads_parseAtomic ts).suffix.length_le.trans (by simpa using hfuel)
                      have hpush : (g.push (parseAtomic ts).value).atoms.length =
                          atoms + 1 + 1 := by simp [CmdGroup.push, hg]
                      have hrest := ih (g.push (parseAtomic ts).value) (parseAtomic ts).value
                        hlength hpush hstops
                      simp only [hrest, Bool.false_eq_true, if_false, forall_const]
                      constructor
                      · rintro ⟨hroom, hwrites, -, hloop, hafter⟩
                        exact ⟨⟨hwrites, hroom, hloop⟩, hafter⟩
                      · rintro ⟨⟨hwrites, hroom, hloop⟩, hafter⟩
                        exact ⟨hroom, hwrites, argv_of_parseAtomic hwrites herror, hloop, hafter⟩
                · rw [iff_true_left (roomFrom_missing (.inr rfl) hname)]
                  simp [groupLoopWrites, groupLoop, hname]
            | _ => cases hpipe
      · rw [roomFrom_groupStops a ⟨hts, hpipe⟩, groupLoopWrites_of_stops g hpipe,
          groupLoop_stops _ g ⟨hts, hpipe⟩]
        simp

theorem room_separator {c : Counts} (hc : isSeparator c.last = true) (t : TokenType) :
    c.Room t ↔ (t ≠ .eof → c.groups < Table.groups.size) := by
  constructor
  · exact fun h => h.groups hc
  · intro h
    have hne : c.last ≠ .pipe ∧ c.last ≠ .name ∧ isRedirection c.last = false := by
      cases hlast : c.last <;> simp_all [isSeparator, isRedirection]
    refine ⟨fun _ => h, fun heq => absurd heq hne.1, fun heq => absurd heq hne.2.1,
      fun heq => ?_, fun heq => ?_⟩
    · simp [heq, isRedirection] at hne
    · rcases heq with heq | heq <;> simp [heq, isRedirection] at hne

/-- The place before the first token of a group. -/
def Counts.atGroup (last : TokenType) (groups : Nat) : Counts := ⟨last, groups, 0, 0, 0, 0⟩

variable {last : TokenType}

theorem roomFrom_eof (hlast : isSeparator last = true) {ts : List (Token τ)}
    (hts : peek ts = .eof) : RoomFrom (.atGroup last groups) ts := by
  cases ts with
  | nil => exact (room_separator hlast _).mpr fun hne => absurd rfl hne
  | cons t ts =>
      exact ⟨(room_separator hlast _).mpr fun hne => absurd hts hne, fun _ hne => absurd hts hne⟩

theorem roomFrom_parseCmdGroup (hlast : isSeparator last = true) {ts : List (Token τ)}
    (hts : peek ts ≠ .eof) :
    RoomFrom (.atGroup last groups) ts ↔
      groups < Table.groups.size ∧ (∀ w ∈ parseCmdGroupWrites ts, w.Inside) ∧
        ((parseCmdGroup ts).parseError = false → RoomAfter groups (parseCmdGroup ts).rest) := by
  have hatom : (Write.mk .atoms 0).Inside := by decide
  by_cases hname : peek ts = .name
  · rw [roomFrom_parseAtomic ⟨.inr hlast, rfl, rfl, rfl⟩ hname, room_separator hlast]
    simp only [parseCmdGroupWrites, parseCmdGroup, List.forall_mem_append, List.forall_mem_cons,
      hatom, true_and, ne_eq, reduceCtorEq, not_false_eq_true, forall_const]
    refine and_congr_right' ?_
    cases herror : (parseAtomic ts).parseError with
    | true => simp
    | false =>
        have hstops := (parseAtomic_sound ts herror).1
        have hrest : RoomFrom (.inAtomic groups 0 (parseAtomic ts).value) (parseAtomic ts).rest ↔ _ :=
          roomFrom_groupLoop ⟨[(parseAtomic ts).value]⟩ _ le_rfl rfl hstops
        simp only [Counts.atGroup, hrest, Bool.false_eq_true, if_false, forall_const]
        constructor
        · rintro ⟨hwrites, -, hloop, hafter⟩
          exact ⟨⟨hwrites, hloop⟩, hafter⟩
        · rintro ⟨⟨hwrites, hloop⟩, hafter⟩
          exact ⟨hwrites, argv_of_parseAtomic hwrites herror, hloop, hafter⟩
  · cases ts with
    | nil => exact absurd rfl hts
    | cons t ts =>
        have hnot : ¬ Follows last t.type := by
          rintro (hn | hn | ⟨-, hn⟩)
          · exact hname hn
          · simp [hn, isSeparator] at hlast
          · exact hts hn
        have herror : parseAtomic (t :: ts) = ⟨{}, t :: ts, true⟩ := by
          cases t <;> first | rfl | exact absurd rfl hname
        have hwrites : parseAtomicWrites (t :: ts) = [] := by
          cases t <;> first | rfl | exact absurd rfl hname
        rw [RoomFrom, room_separator hlast]
        have hne : t.type ≠ .eof := hts
        simp [parseCmdGroupWrites, parseCmdGroup, herror, hwrites, hatom, hne, Counts.atGroup, hnot]

theorem roomFrom_atGroup_iff (hlast : isSeparator last = true) (ts : List (Token τ)) :
    RoomFrom (.atGroup last groups) ts ↔ RoomFrom (.atGroup .semi groups) ts := by
  by_cases hts : peek ts = .eof
  · exact iff_of_true (roomFrom_eof hlast hts) (roomFrom_eof rfl hts)
  · rw [roomFrom_parseCmdGroup hlast hts, roomFrom_parseCmdGroup rfl hts]

theorem roomAfter_shellRound (sc : ShellCmd τ) (ts : List (Token τ))
    (h : GroupStops (parseCmdGroup ts).rest) :
    RoomAfter groups (parseCmdGroup ts).rest ↔
      ((shellRound sc ts).2 = false →
        RoomFrom (.atGroup .semi (groups + 1)) (shellRound sc ts).1.rest) := by
  unfold shellRound
  dsimp only
  split
  · rename_i rest hrest
    simp [hrest, RoomAfter, Token.type, Counts.atGroup]
  · rename_i rest hrest
    have hlast : RoomFrom (.atGroup .andAnd (groups + 1)) rest ↔ _ := roomFrom_atGroup_iff rfl rest
    rw [hrest, ← hlast]
    simp [RoomAfter, Token.type, Counts.atGroup]
  · rename_i rest hrest
    have hlast : RoomFrom (.atGroup .amp (groups + 1)) rest ↔ _ := roomFrom_atGroup_iff rfl rest
    have heof : peek rest = .eof → RoomFrom (.atGroup .semi (groups + 1)) rest :=
      roomFrom_eof rfl
    rw [hrest, RoomAfter]
    simp only [Token.type, ne_eq, reduceCtorEq, not_false_eq_true, forall_const,
      decide_eq_false_iff_not]
    by_cases hend : peek rest = .eof
    · simp only [hend, not_true_eq_false, false_imp_iff, iff_true]
      exact hlast.mpr (heof hend)
    · simp only [hend, not_false_eq_true, forall_const]
      exact hlast
  · rename_i hsemi handAnd hamp
    have heof := h.peek_eq_eof hsemi handAnd hamp
    cases hrest : (parseCmdGroup ts).rest with
    | nil => simp [RoomAfter]
    | cons t rest =>
        rw [hrest] at heof
        have ht : t.type = .eof := heof
        simp [RoomAfter, ht]

theorem length_groups_shellRound (sc : ShellCmd τ) (ts : List (Token τ)) :
    (shellRound sc ts).1.value.groups.length = sc.groups.length + 1 := by
  unfold shellRound
  dsimp only
  split <;> simp [ShellCmd.push, ShellCmd.pushAmp]

theorem roomFrom_shellLoop {fuel : Nat} (sc : ShellCmd τ) {ts : List (Token τ)}
    (hfuel : ts.length ≤ fuel) :
    RoomFrom (.atGroup .semi sc.groups.length) ts ↔
      ∀ w ∈ shellLoopWrites fuel sc ts, w.Inside := by
  induction fuel generalizing sc ts with
  | zero =>
      obtain rfl := List.eq_nil_of_length_eq_zero (Nat.le_zero.mp hfuel)
      have heof : RoomFrom (.atGroup .semi sc.groups.length) ([] : List (Token τ)) :=
        roomFrom_eof rfl rfl
      simpa [shellLoopWrites] using heof
  | succ fuel ih =>
      by_cases hts : peek ts = .eof
      · simpa [shellLoopWrites, hts] using roomFrom_eof rfl hts
      · have hround : (∀ w ∈ shellRoundWrites sc ts, w.Inside) ↔
            sc.groups.length < Table.groups.size ∧ ∀ w ∈ parseCmdGroupWrites ts, w.Inside := by
          simp [shellRoundWrites, Write.Inside, Table.size, or_imp, forall_and, and_comm]
        rw [roomFrom_parseCmdGroup rfl hts]
        simp only [shellLoopWrites, hts, if_false, List.forall_mem_append, hround,
          and_assoc, parseError_shellRound]
        refine and_congr_right' (and_congr_right' ?_)
        cases herror : (parseCmdGroup ts).parseError with
        | true => simp
        | false =>
            have hstops := (parseCmdGroup_sound ts herror).1
            have hlength := length_shellRound_lt sc ts (by rw [parseError_shellRound, herror])
            have hfuel' : (shellRound sc ts).1.rest.length ≤ fuel := by omega
            have hrest := ih (shellRound sc ts).1.value hfuel'
            rw [length_groups_shellRound] at hrest
            rw [roomAfter_shellRound sc ts hstops, hrest]
            cases (shellRound sc ts).2 <;> simp

theorem length_groups_shellLoop {fuel : Nat} {sc : ShellCmd τ} {ts : List (Token τ)}
    (hsc : sc.groups.length ≤ Table.types.size)
    (h : ∀ w ∈ shellLoopWrites fuel sc ts, w.Inside) :
    (shellLoop fuel sc ts).value.groups.length ≤ Table.types.size := by
  induction fuel generalizing sc ts with
  | zero => exact hsc
  | succ fuel ih =>
      unfold shellLoop
      split
      · exact hsc
      · rename_i hts
        rw [shellLoopWrites, if_neg hts, List.forall_mem_append] at h
        have hwrite : (Write.mk .types sc.groups.length).Inside :=
          h.1 _ (List.mem_append_right _ (by simp))
        have hnext : (shellRound sc ts).1.value.groups.length ≤ Table.types.size := by
          rw [length_groups_shellRound]
          exact hwrite
        dsimp only at h ⊢
        split
        · exact hnext
        · rename_i hmore
          rw [if_neg hmore] at h
          exact ih hnext h.2

theorem parseShellCmdWrites_inside_iff (ts : List (Token τ)) :
    (∀ w ∈ parseShellCmdWrites ts, w.Inside) ↔ RoomFrom (.atGroup .semi 0) ts := by
  have hloop := roomFrom_shellLoop ({} : ShellCmd τ) (le_refl ts.length)
  rw [List.length_nil] at hloop
  rw [hloop, parseShellCmdWrites, List.forall_mem_append]
  refine ⟨And.left, fun h => ⟨h, ?_⟩⟩
  have hgroups := length_groups_shellLoop (Nat.zero_le _) h
  rw [← parseShellCmd] at hgroups
  split
  · simp only [List.mem_singleton, forall_eq, Write.Inside]
    have hsize : Table.types.size = 32 := rfl
    omega
  · simp

end Parser

theorem tokenizeWrites_inside_iff (line : List Char) :
    (∀ w ∈ tokenizeWrites line, w.Inside) ↔ (tokenize line).length ≤ Table.tokens.size := by
  simp only [tokenizeWrites, List.forall_mem_map, List.mem_range, Write.Inside]
  constructor
  · intro h
    by_contra hmore
    exact absurd (h _ (not_le.mp hmore)) (lt_irrefl _)
  · exact fun h i hi => lt_of_lt_of_le hi h

theorem length_tokenize_le (line : List Char) : (tokenize line).length ≤ line.length + 1 := by
  induction line using tokenize_induction with
  | nil => simp
  | space c p hspace ih =>
      rw [tokenize_space hspace, List.length_cons]
      omega
  | token c p hspace ih =>
      have hle := scan_length_le (p := p) hspace
      rw [tokenize_token hspace, List.length_cons, List.length_cons]
      omega

/-- A typed line never fills more than `tokens`. -/
theorem tokenizeWrites_typed (line : TypedLine) : ∀ w ∈ tokenizeWrites line.text, w.Inside := by
  rw [tokenizeWrites_inside_iff]
  have hlength := line.length_lt
  rw [inputSize] at hlength
  exact (length_tokenize_le line.text).trans hlength

/-- Every write for a line is inside its array exactly if the tokens fit and there is room at
each token up to which no syntax error has been found. -/
theorem lineWrites_inside_iff (line : List Char) :
    (∀ w ∈ lineWrites line, w.Inside) ↔
      (tokenize line).length ≤ Table.tokens.size ∧
        ∀ pre t behind, tokenize line = pre ++ t :: behind → Viable pre →
          (counts pre).Room t.type := by
  rw [lineWrites, List.forall_mem_append, tokenizeWrites_inside_iff,
    parseShellCmdWrites_inside_iff]
  obtain ⟨before, heof, htokens⟩ := tokenize_eof line
  rw [htokens]
  refine and_congr_right' ?_
  have hiff := roomFrom_iff heof []
  rwa [counts_nil] at hiff

/-- With 32 words the closing null pointer is the thirty-third entry of `argv`. -/
theorem lineWrites_words :
    ∃ line : TypedLine, ⟨.argv, 32⟩ ∈ lineWrites line.text ∧
      ¬ ∀ w ∈ lineWrites line.text, w.Inside :=
  ⟨⟨(List.replicate 32 ['a', ' ']).flatten, by decide, by decide⟩, by decide, by decide⟩

end OxyC.Shell
