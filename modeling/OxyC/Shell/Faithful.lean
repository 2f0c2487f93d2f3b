import OxyC.Shell.Acceptance

/-!
# The command against the tokens

What an accepted line says, read off its tokens: they are cut at `|` and the
separators, and a name belongs to the operator directly before it.
-/

namespace OxyC.Shell

section Reading

variable {τ : Type*}

def isRedirection : TokenType → Bool
  | .lt | .gt | .gtGt => true
  | _ => false

/-- The names directly behind a token with a type in `p`; `prev` stands before the first one. -/
def namesBehind (p : TokenType → Bool) : TokenType → List (Token τ) → List τ
  | _, [] => []
  | prev, t :: ts => (if p prev then t.text?.toList else []) ++ namesBehind p t.type ts

def words (ts : List (Token τ)) : List τ := namesBehind (!isRedirection ·) .eof ts

def inputs (ts : List (Token τ)) : List τ := namesBehind (· = .lt) .eof ts

def outputs (ts : List (Token τ)) : List τ := namesBehind (fun t => t = .gt || t = .gtGt) .eof ts

def isControl (t : TokenType) : Bool := t = .pipe || isSeparator t

def atomicTokens (ts : List (Token τ)) : List (List (Token τ)) :=
  (ts.splitOnP fun t => isControl t.type).filter (!·.isEmpty)

def controls (ts : List (Token τ)) : List TokenType := (ts.map Token.type).filter isControl

def ShellCmd.atomics (sc : ShellCmd τ) : List (Atomic τ) := sc.groups.flatMap CmdGroup.atoms

def ShellCmd.controls (sc : ShellCmd τ) : List TokenType :=
  (sc.groups.zip sc.types).flatMap fun g =>
    List.replicate (g.1.atoms.length - 1) .pipe ++ [g.2].filter isSeparator

structure Faithful (ts : List (Token τ)) (sc : ShellCmd τ) : Prop where
  argv : sc.atomics.map Atomic.argv = (atomicTokens ts).map words
  infiles : sc.atomics.map Atomic.infiles = (atomicTokens ts).map inputs
  outfiles : sc.atomics.map Atomic.outfiles = (atomicTokens ts).map outputs
  controls : sc.controls = OxyC.Shell.controls ts

end Reading

/-! ## An atomic command -/

section Atomics

variable {τ : Type*}

def itemNames (p : TokenType → Bool) (items : List (Item τ)) : List τ :=
  namesBehind p .name (items.flatMap Item.tokens)

theorem namesBehind_item (p : TokenType → Bool) (item : Item τ) (ts : List (Token τ)) :
    namesBehind p .name (item.tokens ++ ts) =
      namesBehind p .name item.tokens ++ namesBehind p .name ts := by
  cases item with
  | word text => simp [Item.tokens, namesBehind, Token.type]
  | input file => simp [Item.tokens, namesBehind, Token.type]
  | output append file => cases append <;> simp [Item.tokens, namesBehind, Token.type]

theorem itemNames_cons (p : TokenType → Bool) (item : Item τ) (items : List (Item τ)) :
    itemNames p (item :: items) = itemNames p [item] ++ itemNames p items := by
  simp only [itemNames, List.flatMap_cons, List.flatMap_nil, List.append_nil, namesBehind_item]

theorem words_tokens (a : AtomicTree τ) :
    words a.tokens = a.name :: itemNames (!isRedirection ·) a.items := rfl

theorem inputs_tokens (a : AtomicTree τ) : inputs a.tokens = itemNames (· = .lt) a.items := rfl

theorem outputs_tokens (a : AtomicTree τ) :
    outputs a.tokens = itemNames (fun t => t = .gt || t = .gtGt) a.items := rfl

theorem length_files_add (a : Atomic τ) (item : Item τ) (hin : a.infiles.length ≤ maxFiles)
    (hout : a.outfiles.length ≤ maxFiles) :
    (item.add a).infiles.length ≤ maxFiles ∧ (item.add a).outfiles.length ≤ maxFiles := by
  cases item with
  | word text => exact ⟨hin, hout⟩
  | input file =>
      simp only [Item.add, Atomic.addInfile]
      split
      · rename_i hroom
        exact ⟨by simpa using Nat.succ_le_of_lt hroom, hout⟩
      · exact ⟨hin, hout⟩
  | output append file =>
      simp only [Item.add, Atomic.addOutfile]
      split
      · rename_i hroom
        exact ⟨hin, by simpa using Nat.succ_le_of_lt hroom⟩
      · exact ⟨hin, hout⟩

theorem length_files_foldl (a : Atomic τ) (items : List (Item τ))
    (hin : a.infiles.length ≤ maxFiles) (hout : a.outfiles.length ≤ maxFiles) :
    (items.foldl Item.add a).infiles.length ≤ maxFiles ∧
      (items.foldl Item.add a).outfiles.length ≤ maxFiles := by
  induction items generalizing a with
  | nil => exact ⟨hin, hout⟩
  | cons item items ih =>
      obtain ⟨hin', hout'⟩ := length_files_add a item hin hout
      exact ih _ hin' hout'

theorem add_of_room (a : Atomic τ) (item : Item τ)
    (hin : a.infiles.length + (itemNames (· = .lt) [item]).length ≤ maxFiles)
    (hout : a.outfiles.length + (itemNames (fun t => t = .gt || t = .gtGt) [item]).length ≤
      maxFiles) :
    (item.add a).argv = a.argv ++ itemNames (!isRedirection ·) [item] ∧
      (item.add a).infiles = a.infiles ++ itemNames (· = .lt) [item] ∧
      (item.add a).outfiles =
        a.outfiles ++ itemNames (fun t => t = .gt || t = .gtGt) [item] := by
  cases item with
  | word text =>
      simp [Item.add, Atomic.addArg, itemNames, Item.tokens, namesBehind, isRedirection, Token.text?]
  | input file =>
      have hroom : a.infiles.length < maxFiles := hin
      simp [Item.add, Atomic.addInfile, hroom, itemNames, Item.tokens, namesBehind, isRedirection,
        Token.text?, Token.type]
  | output append file =>
      have hroom : a.outfiles.length < maxFiles := by cases append <;> exact hout
      cases append <;>
        simp [Item.add, Atomic.addOutfile, hroom, itemNames, Item.tokens, namesBehind,
          isRedirection, Token.text?, Token.type]

/-- As long as there is room every name goes where its operator says. -/
theorem foldl_add_of_room (a : Atomic τ) (items : List (Item τ))
    (hin : a.infiles.length + (itemNames (· = .lt) items).length ≤ maxFiles)
    (hout : a.outfiles.length + (itemNames (fun t => t = .gt || t = .gtGt) items).length ≤
      maxFiles) :
    (items.foldl Item.add a).argv = a.argv ++ itemNames (!isRedirection ·) items ∧
      (items.foldl Item.add a).infiles = a.infiles ++ itemNames (· = .lt) items ∧
      (items.foldl Item.add a).outfiles =
        a.outfiles ++ itemNames (fun t => t = .gt || t = .gtGt) items := by
  induction items generalizing a with
  | nil => simp [itemNames, namesBehind]
  | cons item items ih =>
      rw [itemNames_cons, List.length_append] at hin hout
      obtain ⟨hargv, hinfiles, houtfiles⟩ := add_of_room a item (by omega) (by omega)
      have hrest := ih (item.add a)
        (by rw [hinfiles, List.length_append]; omega)
        (by rw [houtfiles, List.length_append]; omega)
      rw [hargv, hinfiles, houtfiles] at hrest
      simpa only [List.foldl_cons, itemNames_cons _ item items, ← List.append_assoc] using hrest

theorem build_faithful_iff (a : AtomicTree τ) :
    (a.build.argv = words a.tokens ∧ a.build.infiles = inputs a.tokens ∧
        a.build.outfiles = outputs a.tokens) ↔
      (inputs a.tokens).length ≤ maxFiles ∧ (outputs a.tokens).length ≤ maxFiles := by
  constructor
  · rintro ⟨-, hinfiles, houtfiles⟩
    rw [← hinfiles, ← houtfiles]
    exact length_files_foldl _ a.items (by simp) (by simp)
  · rintro ⟨hin, hout⟩
    rw [inputs_tokens] at hin
    rw [outputs_tokens] at hout
    simpa [AtomicTree.build, words_tokens, inputs_tokens, outputs_tokens] using
      foldl_add_of_room { argv := [a.name] } a.items (by simpa using hin) (by simpa using hout)

end Atomics

/-! ## Groups and separators -/

section Groups

variable {τ : Type*}

theorem atomicTokens_append {t : Token τ} (h : isControl t.type = true) (xs ys : List (Token τ)) :
    atomicTokens (xs ++ t :: ys) = atomicTokens xs ++ atomicTokens ys := by
  have hsplit := List.splitOnP_append_cons (p := fun t => isControl t.type) xs ys h
  rw [atomicTokens, hsplit, List.filter_append]
  rfl

theorem controls_append {t : Token τ} (h : isControl t.type = true) (xs ys : List (Token τ)) :
    controls (xs ++ t :: ys) = controls xs ++ t.type :: controls ys := by
  simp [controls, h]

theorem AtomicTree.not_control (a : AtomicTree τ) : ∀ t ∈ a.tokens, isControl t.type = false := by
  intro t ht
  simp only [AtomicTree.tokens, List.mem_cons, List.mem_flatMap] at ht
  rcases ht with rfl | ⟨item, -, ht⟩
  · rfl
  · cases item with
    | word text =>
        rw [Item.tokens, List.mem_singleton] at ht
        subst ht
        rfl
    | input file =>
        simp only [Item.tokens, List.mem_cons, List.not_mem_nil, or_false] at ht
        rcases ht with rfl | rfl <;> rfl
    | output append file =>
        cases append <;> simp only [Item.tokens, List.mem_cons, List.not_mem_nil, or_false] at ht <;>
          rcases ht with rfl | rfl <;> rfl

theorem atomicTokens_tokens (a : AtomicTree τ) : atomicTokens a.tokens = [a.tokens] := by
  rw [atomicTokens, List.splitOnP_eq_singleton a.not_control]
  rfl

theorem controls_tokens (a : AtomicTree τ) : controls a.tokens = [] := by
  rw [controls, List.filter_eq_nil_iff]
  intro t ht
  obtain ⟨u, hu, rfl⟩ := List.mem_map.mp ht
  simp [a.not_control u hu]

theorem pipes_cons (a : AtomicTree τ) (others : List (AtomicTree τ)) (ts : List (Token τ)) :
    ts ++ (a :: others).flatMap (fun a => Token.pipe :: a.tokens) =
      ts ++ Token.pipe :: (GroupTree.mk a others).tokens := by
  simp [GroupTree.tokens]

theorem GroupTree.atomicTokens_eq (g : GroupTree τ) :
    atomicTokens g.tokens = g.atomics.map AtomicTree.tokens := by
  obtain ⟨first, others⟩ := g
  induction others generalizing first with
  | nil => simp [GroupTree.tokens, atomics, atomicTokens_tokens]
  | cons a others ih =>
      rw [GroupTree.tokens, pipes_cons, atomicTokens_append rfl, atomicTokens_tokens, ih]
      rfl

theorem GroupTree.controls_eq (g : GroupTree τ) :
    controls g.tokens = List.replicate g.others.length .pipe := by
  obtain ⟨first, others⟩ := g
  induction others generalizing first with
  | nil => simp [GroupTree.tokens, controls_tokens]
  | cons a others ih =>
      rw [GroupTree.tokens, pipes_cons, controls_append rfl, controls_tokens, ih]
      rfl

theorem Separator.isControl_token (s : Separator) : isControl (s.token : Token τ).type = true := by
  cases s <;> rfl

def Rounds.atomics (r : Rounds τ) : List (AtomicTree τ) :=
  (r.ended.map Prod.fst ++ r.last.toList).flatMap GroupTree.atomics

theorem Rounds.atomicTokens_eq (r : Rounds τ) :
    atomicTokens r.tokens = r.atomics.map AtomicTree.tokens := by
  obtain ⟨ended, last⟩ := r
  induction ended with
  | nil =>
      cases last with
      | none => rfl
      | some g => simp [tokens, atomics, g.atomicTokens_eq]
  | cons g ended ih =>
      change atomicTokens (cons g.1 g.2 ⟨ended, last⟩).tokens = _
      rw [tokens_cons, atomicTokens_append g.2.isControl_token, g.1.atomicTokens_eq, ih]
      simp [atomics]

theorem Rounds.controls_cons (g : GroupTree τ) (s : Separator) (r : Rounds τ) :
    controls (r.cons g s).tokens =
      List.replicate g.others.length .pipe ++ s.type :: controls r.tokens := by
  rw [tokens_cons, controls_append s.isControl_token, g.controls_eq]
  cases s <;> rfl

end Groups

/-! ## The command of an accepted line -/

section Command

variable {τ : Type*}

theorem Separator.groups_push (s : Separator) (g : CmdGroup τ) (sc : ShellCmd τ) :
    (s.push g sc).groups = sc.groups ++ [g] := by
  cases s <;> rfl

theorem Separator.types_push (s : Separator) (g : CmdGroup τ) (sc : ShellCmd τ) :
    (s.push g sc).types = sc.types ++ [s.type] := by
  cases s <;> rfl

theorem atomics_build_group (g : GroupTree τ) : g.build.atoms = g.atomics.map AtomicTree.build := rfl

theorem ShellCmd.atomics_append {sc sc' : ShellCmd τ} {g : GroupTree τ}
    (h : sc'.groups = sc.groups ++ [g.build]) :
    sc'.atomics = sc.atomics ++ g.atomics.map AtomicTree.build := by
  simp [atomics, h, atomics_build_group]

theorem ShellCmd.controls_append {sc sc' : ShellCmd τ} {g : GroupTree τ} {type : TokenType}
    (hlength : sc.types.length = sc.groups.length) (hgroups : sc'.groups = sc.groups ++ [g.build])
    (htypes : sc'.types = sc.types ++ [type]) :
    sc'.controls =
      sc.controls ++ (List.replicate g.others.length .pipe ++ [type].filter isSeparator) := by
  rw [controls, hgroups, htypes, List.zip_append hlength.symm, List.flatMap_append]
  simp [controls, atomics_build_group, GroupTree.atomics]

theorem Rounds.build_cons (g : GroupTree τ) (s : Separator) (r : Rounds τ) (sc : ShellCmd τ) :
    (r.cons g s).build sc = r.build (s.push g.build sc) := rfl

theorem Rounds.atomics_cons (g : GroupTree τ) (s : Separator) (r : Rounds τ) :
    (r.cons g s).atomics = g.atomics ++ r.atomics := by
  simp [atomics, cons]

theorem Rounds.atomics_build (r : Rounds τ) (sc : ShellCmd τ) :
    (r.build sc).atomics = sc.atomics ++ r.atomics.map AtomicTree.build := by
  obtain ⟨ended, last⟩ := r
  induction ended generalizing sc with
  | nil =>
      cases last with
      | none => simp [build, atomics]
      | some g =>
          change (sc.push g.build .eof).atomics = _
          rw [ShellCmd.atomics_append rfl]
          simp [atomics]
  | cons g ended ih =>
      change ((cons g.1 g.2 ⟨ended, last⟩).build sc).atomics =
        sc.atomics ++ (cons g.1 g.2 ⟨ended, last⟩).atomics.map AtomicTree.build
      rw [build_cons, ih, ShellCmd.atomics_append (g.2.groups_push g.1.build sc), atomics_cons,
        List.map_append, List.append_assoc]

theorem Rounds.controls_build (r : Rounds τ) {sc : ShellCmd τ}
    (h : sc.types.length = sc.groups.length) :
    (r.build sc).controls = sc.controls ++ OxyC.Shell.controls r.tokens := by
  obtain ⟨ended, last⟩ := r
  induction ended generalizing sc with
  | nil =>
      cases last with
      | none => simp [build, tokens, OxyC.Shell.controls]
      | some g =>
          have htokens : (⟨[], some g⟩ : Rounds τ).tokens = g.tokens := by simp [tokens]
          change (sc.push g.build .eof).controls = _
          rw [ShellCmd.controls_append h rfl rfl, htokens, g.controls_eq]
          simp [isSeparator]
  | cons g ended ih =>
      have hgroups := g.2.groups_push g.1.build sc
      have htypes := g.2.types_push g.1.build sc
      have hseparator : [g.2.type].filter isSeparator = [g.2.type] := by cases g.2 <;> rfl
      change ((cons g.1 g.2 ⟨ended, last⟩).build sc).controls =
        sc.controls ++ OxyC.Shell.controls (cons g.1 g.2 ⟨ended, last⟩).tokens
      rw [build_cons, ih (by simp [hgroups, htypes, h]), ShellCmd.controls_append h hgroups htypes,
        controls_cons, hseparator]
      simp

theorem faithful_tokens_iff (r : Rounds τ) :
    Faithful r.tokens (r.build {}) ↔
      ∀ ts ∈ atomicTokens r.tokens,
        (inputs ts).length ≤ maxFiles ∧ (outputs ts).length ≤ maxFiles := by
  have hatomics : (r.build {}).atomics = r.atomics.map AtomicTree.build := r.atomics_build {}
  have hcontrols : (r.build {}).controls = controls r.tokens := r.controls_build rfl
  rw [r.atomicTokens_eq, List.forall_mem_map]
  simp only [← build_faithful_iff]
  constructor
  · rintro ⟨hargv, hinfiles, houtfiles, -⟩ a ha
    rw [hatomics, r.atomicTokens_eq, List.map_map, List.map_map] at hargv hinfiles houtfiles
    exact ⟨List.map_inj_left.mp hargv a ha, List.map_inj_left.mp hinfiles a ha,
      List.map_inj_left.mp houtfiles a ha⟩
  · intro hall
    refine ⟨?_, ?_, ?_, hcontrols⟩ <;>
      rw [hatomics, r.atomicTokens_eq, List.map_map, List.map_map, List.map_inj_left]
    · exact fun a ha => (hall a ha).1
    · exact fun a ha => (hall a ha).2.1
    · exact fun a ha => (hall a ha).2.2

end Command

/-- An accepted line keeps its meaning exactly if no atomic command has a ninth file of a kind. -/
theorem parseShellCmd_faithful_iff {τ : Type*} {ts junk : List (Token τ)} (heof : .eof ∉ ts)
    (h : (parseShellCmd (ts ++ .eof :: junk)).accepted = true) :
    Faithful ts (parseShellCmd (ts ++ .eof :: junk)).value ↔
      ∀ seg ∈ atomicTokens ts,
        (inputs seg).length ≤ maxFiles ∧ (outputs seg).length ≤ maxFiles := by
  obtain ⟨line, rfl⟩ := (accepted_iff_derives junk heof).mp h
  rw [parseShellCmd_tokens line rfl, ← line.tokens_rounds]
  exact faithful_tokens_iff line.rounds

theorem parseShellCmd_faithful_pipeline :
    Faithful [.name 0, .lt, .name 1, .name 2, .pipe, .name 3, .semi]
      (parseShellCmd [.name 0, .lt, .name 1, .name 2, .pipe, .name 3, .semi, .eof]).value := by
  have heof : (.eof : Token Nat) ∉ [.name 0, .lt, .name 1, .name 2, .pipe, .name 3, .semi] := by
    decide
  exact (parseShellCmd_faithful_iff heof (by decide)).mpr (by decide)

/-- The ninth input file is an argument of the command. -/
theorem parseShellCmd_ninth_input :
    ∃ ts : List (Token Nat), .eof ∉ ts ∧ (parseShellCmd (ts ++ [.eof])).accepted = true ∧
      (∀ seg ∈ atomicTokens ts, (words seg).length ≤ 31) ∧ (atomicTokens ts).length ≤ 32 ∧
        ¬ Faithful ts (parseShellCmd (ts ++ [.eof])).value := by
  refine ⟨.name 0 :: (List.range 9).flatMap fun i => [.lt, .name (i + 1)], by decide, by decide,
    by decide, by decide, ?_⟩
  intro hfaithful
  exact absurd hfaithful.argv (by decide)

end OxyC.Shell
