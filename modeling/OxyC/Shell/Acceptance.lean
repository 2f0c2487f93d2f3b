import OxyC.Shell.Grammar

/-!
# The lines that are accepted

The parser accepts exactly the lines of the grammar, and the variant below, for
which every `peek` and `get` needs a token, never runs out of them.
-/

namespace OxyC.Shell

/-! ## No token behind `T_EOF` is read -/

section Checked

variable {τ : Type*}

/-- `peek`, which needs a token to read. -/
def peek? (ts : List (Token τ)) : Option (Token τ) := ts.head?

def atomicLoop? (a : Atomic τ) : List (Token τ) → Option (Parsed (Atomic τ) τ)
  | .name text :: ts => atomicLoop? (a.addArg text) ts
  | .lt :: .name text :: ts => atomicLoop? (a.addInfile text) ts
  | .gt :: .name text :: ts => atomicLoop? (a.addOutfile false text) ts
  | .gtGt :: .name text :: ts => atomicLoop? (a.addOutfile true text) ts
  | .lt :: ts => (peek? ts).map fun _ => ⟨a, ts, true⟩
  | .gt :: ts => (peek? ts).map fun _ => ⟨a, ts, true⟩
  | .gtGt :: ts => (peek? ts).map fun _ => ⟨a, ts, true⟩
  | ts => (peek? ts).map fun _ => ⟨a, ts, false⟩

def parseAtomic? : List (Token τ) → Option (Parsed (Atomic τ) τ)
  | .name text :: ts => atomicLoop? { argv := [text] } ts
  | ts => (peek? ts).map fun _ => ⟨{}, ts, true⟩

def groupLoop? : Nat → CmdGroup τ → List (Token τ) → Option (Parsed (CmdGroup τ) τ)
  | _, _, [] => none
  | 0, _, .pipe :: _ => none
  | fuel + 1, g, .pipe :: ts => do
      let t ← peek? ts
      if t.type = .name then
        let p ← parseAtomic? ts
        if p.parseError then pure ⟨g.push p.value, p.rest, true⟩
        else groupLoop? fuel (g.push p.value) p.rest
      else pure ⟨g, ts, true⟩
  | _, g, ts => some ⟨g, ts, false⟩

def parseCmdGroup? (ts : List (Token τ)) : Option (Parsed (CmdGroup τ) τ) := do
  let p ← parseAtomic? ts
  if p.parseError then pure ⟨⟨[p.value]⟩, p.rest, true⟩
  else groupLoop? p.rest.length ⟨[p.value]⟩ p.rest

def shellRound? (sc : ShellCmd τ) (ts : List (Token τ)) :
    Option (Parsed (ShellCmd τ) τ × Bool) := do
  let p ← parseCmdGroup? ts
  match p.rest with
  | [] => none
  | .semi :: ts => pure (⟨sc.push p.value .semi, ts, p.parseError⟩, false)
  | .andAnd :: ts => pure (⟨sc.push p.value .andAnd, ts, p.parseError⟩, false)
  | .amp :: ts => do
      let t ← peek? ts
      pure (⟨sc.pushAmp p.value, ts, p.parseError⟩, t.type = .eof)
  | ts => pure (⟨sc.push p.value .eof, ts, p.parseError⟩, true)

def shellLoop? : Nat → ShellCmd τ → List (Token τ) → Option (Parsed (ShellCmd τ) τ)
  | 0, _, _ => none
  | fuel + 1, sc, ts => do
      let t ← peek? ts
      if t.type = .eof then pure ⟨sc, ts, false⟩
      else
        let (p, leaves) ← shellRound? sc ts
        if p.parseError || leaves then pure p else shellLoop? fuel p.value p.rest

/-- `parse_shell_cmd` on an array that ends with `ts`. -/
def parseShellCmd? (ts : List (Token τ)) : Option (Parsed (ShellCmd τ) τ) :=
  shellLoop? ts.length {} ts

/-- The same result, and `junk` behind what is left. -/
def Parsed.behind {α : Type*} (p : Parsed α τ) (junk : List (Token τ)) : Parsed α τ :=
  { p with rest := p.rest ++ junk }

theorem exists_peek? {ts : List (Token τ)} (h : .eof ∈ ts) : ∃ t, peek? ts = some t := by
  cases ts with
  | nil => cases h
  | cons t ts => exact ⟨t, rfl⟩

theorem atomicLoop?_eq (a : Atomic τ) (ts : List (Token τ)) (h : .eof ∈ ts) :
    atomicLoop? a ts = some (atomicLoop a ts) ∧ .eof ∈ (atomicLoop a ts).rest := by
  fun_induction atomicLoop a ts with
  | case1 a text ts ih | case2 a text ts ih | case4 a text ts ih | case6 a text ts ih =>
      exact ih (by simpa using h)
  | case3 a ts hname | case5 a ts hname | case7 a ts hname =>
      have hts : .eof ∈ ts := by simpa using h
      obtain ⟨t, ht⟩ := exists_peek? hts
      exact ⟨by simp [atomicLoop?, ht], hts⟩
  | case8 a ts hname hltName hlt hgtName hgt hgtGtName hgtGt =>
      obtain ⟨t, ht⟩ := exists_peek? h
      exact ⟨by simp [atomicLoop?, ht], h⟩

theorem parseAtomic?_eq (ts : List (Token τ)) (h : .eof ∈ ts) :
    parseAtomic? ts = some (parseAtomic ts) ∧ .eof ∈ (parseAtomic ts).rest := by
  obtain ⟨t, ht⟩ := exists_peek? h
  unfold parseAtomic
  split
  · rename_i text ts
    exact atomicLoop?_eq _ ts (by simpa using h)
  · exact ⟨by simp [parseAtomic?, ht], h⟩

theorem groupLoop?_eq {fuel : Nat} (g : CmdGroup τ) {ts : List (Token τ)}
    (hfuel : ts.length ≤ fuel) (h : .eof ∈ ts) :
    groupLoop? fuel g ts = some (groupLoop fuel g ts) ∧ .eof ∈ (groupLoop fuel g ts).rest := by
  induction fuel generalizing g ts with
  | zero =>
      obtain rfl := List.eq_nil_of_length_eq_zero (Nat.le_zero.mp hfuel)
      cases h
  | succ fuel ih =>
      cases ts with
      | nil => cases h
      | cons t ts =>
          cases t with
          | pipe =>
              have hts : .eof ∈ ts := by simpa using h
              obtain ⟨heq, hrest⟩ := parseAtomic?_eq ts hts
              have hlength : (parseAtomic ts).rest.length ≤ fuel :=
                (reads_parseAtomic ts).suffix.length_le.trans (by simpa using hfuel)
              obtain ⟨t, behind, rfl⟩ := List.exists_cons_of_ne_nil (List.ne_nil_of_mem hts)
              by_cases hname : t.type = .name
              · simp only [groupLoop?, groupLoop, peek?, List.head?_cons, peek, hname, if_true, heq,
                  Option.bind_eq_bind, Option.bind_some]
                split
                · exact ⟨rfl, hrest⟩
                · exact ih _ hlength hrest
              · simp only [groupLoop?, groupLoop, peek?, List.head?_cons, peek, hname, if_false,
                  Option.bind_eq_bind, Option.bind_some]
                exact ⟨rfl, hts⟩
          | _ => exact ⟨rfl, h⟩

theorem parseCmdGroup?_eq (ts : List (Token τ)) (h : .eof ∈ ts) :
    parseCmdGroup? ts = some (parseCmdGroup ts) ∧ .eof ∈ (parseCmdGroup ts).rest := by
  obtain ⟨heq, hrest⟩ := parseAtomic?_eq ts h
  simp only [parseCmdGroup?, parseCmdGroup, heq, Option.bind_eq_bind, Option.bind_some]
  split
  · exact ⟨rfl, hrest⟩
  · exact groupLoop?_eq _ le_rfl hrest

theorem shellRound?_eq (sc : ShellCmd τ) (ts : List (Token τ)) (h : .eof ∈ ts) :
    shellRound? sc ts = some (shellRound sc ts) ∧ .eof ∈ (shellRound sc ts).1.rest := by
  obtain ⟨heq, hrest⟩ := parseCmdGroup?_eq ts h
  simp only [shellRound?, shellRound, heq, Option.bind_eq_bind, Option.bind_some]
  generalize (parseCmdGroup ts).rest = rest at hrest
  cases rest with
  | nil => cases hrest
  | cons t rest =>
      cases t with
      | amp =>
          have hbehind : .eof ∈ rest := by simpa using hrest
          obtain ⟨t, behind, rfl⟩ := List.exists_cons_of_ne_nil (List.ne_nil_of_mem hbehind)
          exact ⟨rfl, hbehind⟩
      | semi => exact ⟨rfl, by simpa using hrest⟩
      | andAnd => exact ⟨rfl, by simpa using hrest⟩
      | _ => exact ⟨rfl, hrest⟩

theorem shellLoop?_eq {fuel : Nat} (sc : ShellCmd τ) {ts : List (Token τ)}
    (hfuel : ts.length ≤ fuel) (h : .eof ∈ ts) :
    shellLoop? fuel sc ts = some (shellLoop fuel sc ts) ∧ .eof ∈ (shellLoop fuel sc ts).rest := by
  induction fuel generalizing sc ts with
  | zero =>
      obtain rfl := List.eq_nil_of_length_eq_zero (Nat.le_zero.mp hfuel)
      cases h
  | succ fuel ih =>
      obtain ⟨heq, hrest⟩ := shellRound?_eq sc ts h
      obtain ⟨t, behind, rfl⟩ := List.exists_cons_of_ne_nil (List.ne_nil_of_mem h)
      by_cases heof : t.type = .eof
      · simp only [shellLoop?, shellLoop, peek?, List.head?_cons, peek, heof, if_true,
          Option.bind_eq_bind, Option.bind_some]
        exact ⟨rfl, h⟩
      · simp only [shellLoop?, shellLoop, peek?, List.head?_cons, peek, heof, if_false, heq,
          Option.bind_eq_bind, Option.bind_some]
        split
        · exact ⟨rfl, hrest⟩
        · rename_i hmore
          simp only [Bool.or_eq_true, not_or, Bool.not_eq_true] at hmore
          have hlength := length_shellRound_lt sc _ hmore.1
          exact ih _ (by omega) hrest

section Behind

variable {ts junk : List (Token τ)}

theorem atomicLoop?_behind (a : Atomic τ) {p : Parsed (Atomic τ) τ}
    (h : atomicLoop? a ts = some p) : atomicLoop? a (ts ++ junk) = some (p.behind junk) := by
  fun_induction atomicLoop? a ts with
  | case1 a text ts ih | case2 a text ts ih | case3 a text ts ih | case4 a text ts ih => exact ih h
  | case5 a ts hname | case6 a ts hname | case7 a ts hname =>
      cases ts with
      | nil => cases h
      | cons t ts =>
          cases h
          cases t <;> first | rfl | exact absurd rfl (hname _ _)
  | case8 a ts hname hltName hgtName hgtGtName hlt hgt hgtGt =>
      cases ts with
      | nil => cases h
      | cons t ts =>
          cases h
          cases t <;> first | rfl | simp_all

theorem parseAtomic?_behind {p : Parsed (Atomic τ) τ} (h : parseAtomic? ts = some p) :
    parseAtomic? (ts ++ junk) = some (p.behind junk) := by
  cases ts with
  | nil => cases h
  | cons t ts =>
      cases t with
      | name text => exact atomicLoop?_behind _ h
      | _ =>
          cases h
          rfl

/-- The fuel left over does not matter. -/
theorem groupLoop?_behind {fuel fuel' : Nat} (hfuel : fuel ≤ fuel') (g : CmdGroup τ)
    {p : Parsed (CmdGroup τ) τ} (h : groupLoop? fuel g ts = some p) :
    groupLoop? fuel' g (ts ++ junk) = some (p.behind junk) := by
  induction fuel generalizing fuel' g ts with
  | zero =>
      cases ts with
      | nil => cases h
      | cons t ts =>
          cases t with
          | pipe => cases h
          | _ =>
              cases h
              cases fuel' <;> rfl
  | succ fuel ih =>
      obtain ⟨fuel', rfl⟩ : ∃ m, fuel' = m + 1 :=
        Nat.exists_eq_add_one.mpr (Nat.lt_of_lt_of_le fuel.succ_pos hfuel)
      cases ts with
      | nil => cases h
      | cons t ts =>
          cases t with
          | pipe =>
              cases ts with
              | nil => cases h
              | cons t ts =>
                  by_cases hname : t.type = .name
                  · simp only [groupLoop?, peek?, List.head?_cons, hname, if_true,
                      Option.bind_eq_bind, Option.bind_some, Option.bind_eq_some_iff] at h
                    obtain ⟨q, hq, h⟩ := h
                    have hlonger : parseAtomic? (t :: (ts ++ junk)) = some (q.behind junk) :=
                      parseAtomic?_behind hq
                    simp only [List.cons_append, groupLoop?, peek?, List.head?_cons, hname, if_true,
                      Option.bind_eq_bind, Option.bind_some, hlonger]
                    cases herror : q.parseError with
                    | true =>
                        simp only [herror, if_true] at h
                        cases h
                        simp only [Parsed.behind, herror, if_true]
                        rfl
                    | false =>
                        simp only [herror, Bool.false_eq_true, if_false] at h
                        have hrest := ih (Nat.le_of_succ_le_succ hfuel) (g.push q.value) h
                        simpa only [Parsed.behind, herror, Bool.false_eq_true, if_false] using hrest
                  · simp only [groupLoop?, peek?, List.head?_cons, hname, if_false,
                      Option.bind_eq_bind, Option.bind_some] at h
                    cases h
                    simp only [List.cons_append, groupLoop?, peek?, List.head?_cons, hname, if_false,
                      Option.bind_eq_bind, Option.bind_some]
                    rfl
          | _ =>
              cases h
              rfl

theorem parseCmdGroup?_behind {p : Parsed (CmdGroup τ) τ} (h : parseCmdGroup? ts = some p) :
    parseCmdGroup? (ts ++ junk) = some (p.behind junk) := by
  simp only [parseCmdGroup?, Option.bind_eq_bind, Option.bind_eq_some_iff] at h
  obtain ⟨q, hq, h⟩ := h
  simp only [parseCmdGroup?, parseAtomic?_behind hq, Option.bind_eq_bind, Option.bind_some]
  cases herror : q.parseError with
  | true =>
      simp only [herror, if_true] at h
      cases h
      simp only [Parsed.behind, herror, if_true]
      rfl
  | false =>
      simp only [herror, Bool.false_eq_true, if_false] at h
      have hfuel : q.rest.length ≤ (q.rest ++ junk).length := by simp
      simpa only [Parsed.behind, herror, Bool.false_eq_true, if_false]
        using groupLoop?_behind hfuel _ h

theorem shellRound?_behind (sc : ShellCmd τ) {p : Parsed (ShellCmd τ) τ × Bool}
    (h : shellRound? sc ts = some p) :
    shellRound? sc (ts ++ junk) = some (p.1.behind junk, p.2) := by
  simp only [shellRound?, Option.bind_eq_bind, Option.bind_eq_some_iff] at h
  obtain ⟨q, hq, h⟩ := h
  simp only [shellRound?, parseCmdGroup?_behind hq, Option.bind_eq_bind, Option.bind_some]
  obtain ⟨value, rest, parseError⟩ := q
  cases rest with
  | nil => cases h
  | cons t rest =>
      cases t with
      | amp =>
          cases rest with
          | nil => cases h
          | cons u rest =>
              cases h
              rfl
      | _ =>
          cases h
          rfl

theorem shellLoop?_behind {fuel fuel' : Nat} (hfuel : fuel ≤ fuel') (sc : ShellCmd τ)
    {p : Parsed (ShellCmd τ) τ} (h : shellLoop? fuel sc ts = some p) :
    shellLoop? fuel' sc (ts ++ junk) = some (p.behind junk) := by
  induction fuel generalizing fuel' sc ts with
  | zero => cases h
  | succ fuel ih =>
      obtain ⟨fuel', rfl⟩ : ∃ m, fuel' = m + 1 :=
        Nat.exists_eq_add_one.mpr (Nat.lt_of_lt_of_le fuel.succ_pos hfuel)
      cases ts with
      | nil => cases h
      | cons t ts =>
          by_cases heof : t.type = .eof
          · simp only [shellLoop?, peek?, List.head?_cons, heof, if_true,
              Option.bind_eq_bind, Option.bind_some] at h
            cases h
            simp only [List.cons_append, shellLoop?, peek?, List.head?_cons, heof, if_true,
              Option.bind_eq_bind, Option.bind_some]
            rfl
          · simp only [shellLoop?, peek?, List.head?_cons, heof, if_false,
              Option.bind_eq_bind, Option.bind_some, Option.bind_eq_some_iff] at h
            obtain ⟨q, hq, h⟩ := h
            have hlonger : shellRound? sc (t :: (ts ++ junk)) = some (q.1.behind junk, q.2) :=
              shellRound?_behind sc hq
            simp only [List.cons_append, shellLoop?, peek?, List.head?_cons, heof, if_false,
              Option.bind_eq_bind, Option.bind_some, hlonger]
            cases hstop : q.1.parseError || q.2 with
            | true =>
                simp only [hstop, if_true] at h
                cases h
                simp only [Parsed.behind, hstop, if_true]
                rfl
            | false =>
                simp only [hstop, Bool.false_eq_true, if_false] at h
                have hrest := ih (Nat.le_of_succ_le_succ hfuel) q.1.value h
                simpa only [Parsed.behind, hstop, Bool.false_eq_true, if_false] using hrest

/-- The array behind `T_EOF` has no part in the result. -/
theorem parseShellCmd?_behind {p : Parsed (ShellCmd τ) τ} (h : parseShellCmd? ts = some p) :
    parseShellCmd? (ts ++ junk) = some (p.behind junk) :=
  shellLoop?_behind (by simp) {} h

end Behind

theorem parseShellCmd?_eq (ts : List (Token τ)) (h : .eof ∈ ts) :
    parseShellCmd? ts = some (parseShellCmd ts) ∧ .eof ∈ (parseShellCmd ts).rest :=
  shellLoop?_eq {} le_rfl h

end Checked

/-! ## Acceptance -/

section Accepts

variable {τ : Type*}

theorem AtomicTree.eof_not_mem (a : AtomicTree τ) : .eof ∉ a.tokens := by
  simp only [AtomicTree.tokens, List.mem_cons, List.mem_flatMap, not_or, not_exists, not_and]
  refine ⟨by simp, fun item _ => ?_⟩
  cases item with
  | word text => simp [Item.tokens]
  | input file => simp [Item.tokens]
  | output append file => cases append <;> simp [Item.tokens]

theorem GroupTree.eof_not_mem (g : GroupTree τ) : .eof ∉ g.tokens := by
  simp only [GroupTree.tokens, List.mem_append, List.mem_flatMap, List.mem_cons, not_or,
    not_exists, not_and]
  exact ⟨g.first.eof_not_mem, fun a _ => ⟨by simp, a.eof_not_mem⟩⟩

theorem Separator.token_ne_eof (s : Separator) : (.eof : Token τ) ≠ s.token := by
  cases s <;> simp [Separator.token]

theorem LineTree.eof_not_mem (line : LineTree τ) : .eof ∉ line.tokens := by
  cases line with
  | empty => simp [LineTree.tokens]
  | groups first others last =>
      simp only [LineTree.tokens, List.mem_append, List.mem_flatMap, List.mem_cons, List.mem_map,
        not_or, not_exists, not_and]
      exact ⟨⟨first.eof_not_mem, fun g _ => ⟨g.1.token_ne_eof, g.2.eof_not_mem⟩⟩,
        fun s _ heq => s.token_ne_eof heq.symm⟩

theorem eq_of_append_eof {ts us junk rest : List (Token τ)} (hts : .eof ∉ ts) (hus : .eof ∉ us)
    (h : ts ++ .eof :: junk = us ++ .eof :: rest) : ts = us := by
  cases List.append_eq_append_iff.mp h with
  | inl hlonger =>
      obtain ⟨as, rfl, has⟩ := hlonger
      cases as with
      | nil => simp
      | cons a as =>
          rw [List.cons_append, List.cons.injEq] at has
          exact absurd (by simp [← has.1]) hus
  | inr hshorter =>
      obtain ⟨bs, rfl, hbs⟩ := hshorter
      cases bs with
      | nil => simp
      | cons b bs =>
          rw [List.cons_append, List.cons.injEq] at hbs
          exact absurd (by simp [← hbs.1]) hts

theorem eof_of_peek {rest : List (Token τ)} (h : peek rest = .eof) (hne : rest ≠ []) :
    ∃ behind, rest = .eof :: behind := by
  cases rest with
  | nil => exact absurd rfl hne
  | cons t rest => cases t <;> first | exact ⟨rest, rfl⟩ | simp [peek, Token.type] at h

theorem accepted_iff_derives {ts : List (Token τ)} (junk : List (Token τ)) (h : .eof ∉ ts) :
    (parseShellCmd (ts ++ .eof :: junk)).accepted = true ↔
      ∃ line : LineTree τ, line.tokens = ts := by
  constructor
  · intro haccepted
    simp only [Parsed.accepted, Bool.and_eq_true, Bool.not_eq_true', decide_eq_true_eq]
      at haccepted
    obtain ⟨hend, line, hline⟩ := parseShellCmd_sound _ haccepted.1
    have hrest := (parseShellCmd?_eq (ts ++ .eof :: junk) (by simp)).2
    obtain ⟨behind, hbehind⟩ := eof_of_peek hend (List.ne_nil_of_mem hrest)
    rw [hbehind] at hline
    exact ⟨line, (eq_of_append_eof h line.eof_not_mem hline).symm⟩
  · rintro ⟨line, rfl⟩
    rw [parseShellCmd_tokens line rfl]
    rfl

theorem reads_up_to_eof (ts junk : List (Token τ)) :
    ∃ p, parseShellCmd? (ts ++ [.eof]) = some p ∧ p.rest ≠ [] ∧
      parseShellCmd (ts ++ .eof :: junk) = p.behind junk := by
  obtain ⟨hshort, hrest⟩ := parseShellCmd?_eq (ts ++ [.eof]) (by simp)
  have hlong : parseShellCmd? (ts ++ [.eof] ++ junk) = _ := parseShellCmd?_behind hshort
  rw [List.append_assoc, List.singleton_append] at hlong
  rw [(parseShellCmd?_eq (ts ++ .eof :: junk) (by simp)).1] at hlong
  exact ⟨_, hshort, List.ne_nil_of_mem hrest, Option.some.inj hlong⟩

end Accepts

/-- The parser accepts the lines of the grammar, and reads no token behind `T_EOF` for any line. -/
theorem parseShellCmd_accepts_iff {τ : Type*} {ts : List (Token τ)} (junk : List (Token τ))
    (h : .eof ∉ ts) :
    ((parseShellCmd (ts ++ .eof :: junk)).accepted = true ↔
        ∃ line : LineTree τ, line.tokens = ts) ∧
      ∃ p, parseShellCmd? (ts ++ [.eof]) = some p ∧ p.rest ≠ [] ∧
        parseShellCmd (ts ++ .eof :: junk) = p.behind junk :=
  ⟨accepted_iff_derives junk h, reads_up_to_eof ts junk⟩

/-- The array still holds the tokens of a longer line. -/
theorem parseShellCmd_accepts_pipeline :
    (parseShellCmd [.name 0, .pipe, .name 1, .gt, .name 2, .eof, .name 3, .pipe]).accepted =
      true := by
  have heof : (.eof : Token Nat) ∉ [.name 0, .pipe, .name 1, .gt, .name 2] := by decide
  exact (parseShellCmd_accepts_iff [.name 3, .pipe] heof).1.mpr
    ⟨.groups ⟨⟨0, []⟩, [⟨1, [.output false 2]⟩]⟩ [] none, rfl⟩

end OxyC.Shell
