import OxyC.Foundation.Scanf
import OxyC.Shell.Faithful
import OxyC.Shell.TokenRoundTrip

/-!
# Commands written out and read back

The commands that lines can be parsed into, and one line for each of them: argument
words, then input files, then output files, with one blank between two tokens.
-/

namespace OxyC.Shell

open OxyC.Foundation

/-! ## The commands of the parser -/

section Formed

variable {τ : Type*}

structure Atomic.Formed (a : Atomic τ) : Prop where
  argv_ne : a.argv ≠ []
  infiles_le : a.infiles.length ≤ maxFiles
  outfiles_le : a.outfiles.length ≤ maxFiles
  append_of_nil : a.outfiles = [] → a.append = false

structure CmdGroup.Formed (g : CmdGroup τ) : Prop where
  atoms_ne : g.atoms ≠ []
  atoms_formed : ∀ a ∈ g.atoms, a.Formed

/-- One behind the first group with `&`. -/
def firstAmp (types : List TokenType) : Int :=
  match types.findIdx? (· = .amp) with
  | none => -1
  | some k => k + 1

/-- What the other fields say about the separators. -/
structure ShellCmd.Marked (sc : ShellCmd τ) : Prop where
  length_types : sc.types.length = sc.groups.length
  bgUntil_eq : sc.bgUntil = firstAmp sc.types
  trailingAmp_eq : sc.trailingAmp = decide (.amp ∈ sc.types)

structure ShellCmd.Formed (sc : ShellCmd τ) : Prop where
  groups_formed : ∀ g ∈ sc.groups, g.Formed
  /-- Separators, and `T_EOF` at most behind the last group. -/
  types_eq : ∃ seps : List Separator,
    sc.types = seps.map Separator.type ∨ sc.types = seps.map Separator.type ++ [.eof]
  marked : sc.Marked

theorem ShellCmd.Marked.eq {sc sc' : ShellCmd τ} (h : sc.Marked) (h' : sc'.Marked)
    (hgroups : sc.groups = sc'.groups) (htypes : sc.types = sc'.types) : sc = sc' := by
  have hbgUntil : sc.bgUntil = sc'.bgUntil := by
    rw [h.bgUntil_eq, h'.bgUntil_eq, htypes]
  have htrailingAmp : sc.trailingAmp = sc'.trailingAmp := by
    rw [h.trailingAmp_eq, h'.trailingAmp_eq, htypes]
  cases sc
  cases sc'
  dsimp only at hgroups htypes hbgUntil htrailingAmp
  rw [hgroups, htypes, hbgUntil, htrailingAmp]

/-! ### What the parser keeps -/

theorem firstAmp_concat (types : List TokenType) (t : TokenType) :
    firstAmp (types ++ [t]) =
      if firstAmp types = -1 then if t = .amp then (types.length : Int) + 1 else -1
      else firstAmp types := by
  unfold firstAmp
  rw [List.findIdx?_append]
  cases h : types.findIdx? (· = .amp) with
  | none =>
      by_cases ht : t = .amp
      · simp [ht]
      · simp [ht]
  | some k =>
      have hne : (k : Int) + 1 ≠ -1 := by omega
      simp [hne]

theorem ShellCmd.Marked.push {sc : ShellCmd τ} (h : sc.Marked) (g : CmdGroup τ) {t : TokenType}
    (ht : t ≠ .amp) : (sc.push g t).Marked where
  length_types := by simp [ShellCmd.push, h.length_types]
  bgUntil_eq := by
    simp only [ShellCmd.push, firstAmp_concat, h.bgUntil_eq, if_neg ht]
    split
    · assumption
    · rfl
  trailingAmp_eq := by
    simp [ShellCmd.push, h.trailingAmp_eq, Ne.symm ht]

theorem ShellCmd.Marked.pushAmp {sc : ShellCmd τ} (h : sc.Marked) (g : CmdGroup τ) :
    (sc.pushAmp g).Marked where
  length_types := by simp [ShellCmd.pushAmp, ShellCmd.push, h.length_types]
  bgUntil_eq := by
    simp only [ShellCmd.pushAmp, ShellCmd.push, firstAmp_concat, h.bgUntil_eq, if_true,
      h.length_types]
  trailingAmp_eq := by simp [ShellCmd.pushAmp, ShellCmd.push]

theorem Separator.marked_push {sc : ShellCmd τ} (h : sc.Marked) (g : CmdGroup τ) (s : Separator) :
    (s.push g sc).Marked := by
  cases s with
  | semi => exact h.push g (by decide)
  | amp => exact h.pushAmp g
  | andAnd => exact h.push g (by decide)

/-- What the loop of `parse_shell_cmd` has gathered behind the rounds `ended`. -/
theorem foldl_push (ended : List (GroupTree τ × Separator)) {sc : ShellCmd τ} (h : sc.Marked) :
    (ended.foldl (fun sc g => g.2.push g.1.build sc) sc).Marked ∧
      (ended.foldl (fun sc g => g.2.push g.1.build sc) sc).groups =
        sc.groups ++ ended.map (·.1.build) ∧
      (ended.foldl (fun sc g => g.2.push g.1.build sc) sc).types =
        sc.types ++ ended.map (·.2.type) := by
  induction ended generalizing sc with
  | nil => exact ⟨h, by simp, by simp⟩
  | cons g ended ih =>
      have hgroups := g.2.groups_push g.1.build sc
      have htypes := g.2.types_push g.1.build sc
      obtain ⟨hmarked, hgroups', htypes'⟩ := ih (Separator.marked_push h g.1.build g.2)
      refine ⟨hmarked, ?_, ?_⟩
      · rw [List.foldl_cons, hgroups', hgroups, List.append_assoc]
        rfl
      · rw [List.foldl_cons, htypes', htypes, List.append_assoc]
        rfl

theorem marked_empty : ({} : ShellCmd τ).Marked := ⟨rfl, rfl, rfl⟩

/-- The command of a line, field by field. -/
theorem Rounds.build_eq (r : Rounds τ) :
    (r.build {}).Marked ∧
      (r.build {}).groups = r.ended.map (·.1.build) ++ r.last.toList.map GroupTree.build ∧
      (r.build {}).types = r.ended.map (·.2.type) ++ r.last.toList.map fun _ => .eof := by
  obtain ⟨ended, last⟩ := r
  obtain ⟨hmarked, hgroups, htypes⟩ := foldl_push ended marked_empty
  cases last with
  | none =>
      refine ⟨hmarked, ?_, ?_⟩
      · simpa [Rounds.build] using hgroups
      · simpa [Rounds.build] using htypes
  | some g =>
      refine ⟨hmarked.push g.build (by decide), ?_, ?_⟩
      · simpa [Rounds.build, ShellCmd.push] using hgroups
      · simpa [Rounds.build, ShellCmd.push] using htypes

theorem Atomic.Formed.add {a : Atomic τ} (h : a.Formed) (item : Item τ) : (item.add a).Formed := by
  have hword : ∀ text, (a.addArg text).Formed := fun text =>
    ⟨by simp [Atomic.addArg], h.infiles_le, h.outfiles_le, h.append_of_nil⟩
  cases item with
  | word text => exact hword text
  | input file =>
      change (a.addInfile file).Formed
      unfold Atomic.addInfile
      split
      next hroom =>
          have hle : (a.infiles ++ [file]).length ≤ maxFiles := by
            rw [List.length_append]
            exact hroom
          exact ⟨h.argv_ne, hle, h.outfiles_le, h.append_of_nil⟩
      next => exact hword file
  | output append file =>
      change (a.addOutfile append file).Formed
      unfold Atomic.addOutfile
      split
      next hroom =>
          have hle : (a.outfiles ++ [file]).length ≤ maxFiles := by
            rw [List.length_append]
            exact hroom
          exact ⟨h.argv_ne, h.infiles_le, hle, by simp⟩
      next => exact hword file

theorem Atomic.Formed.foldl {a : Atomic τ} (h : a.Formed) (items : List (Item τ)) :
    (items.foldl Item.add a).Formed := by
  induction items generalizing a with
  | nil => exact h
  | cons item items ih => exact ih (h.add item)

theorem AtomicTree.formed_build (a : AtomicTree τ) : a.build.Formed := by
  refine Atomic.Formed.foldl ⟨?_, ?_, ?_, ?_⟩ a.items <;> simp

theorem GroupTree.formed_build (g : GroupTree τ) : g.build.Formed where
  atoms_ne := by simp [GroupTree.build, GroupTree.atomics]
  atoms_formed := by
    intro a ha
    obtain ⟨tree, -, rfl⟩ := List.mem_map.mp ha
    exact tree.formed_build

theorem Rounds.formed_build (r : Rounds τ) : (r.build {}).Formed := by
  obtain ⟨hmarked, hgroups, htypes⟩ := r.build_eq
  refine ⟨?_, ⟨r.ended.map (·.2), ?_⟩, hmarked⟩
  · intro g hg
    rw [hgroups, List.mem_append] at hg
    obtain hg | hg := hg
    · obtain ⟨x, -, rfl⟩ := List.mem_map.mp hg
      exact x.1.formed_build
    · obtain ⟨tree, -, rfl⟩ := List.mem_map.mp hg
      exact tree.formed_build
  · rw [htypes, List.map_map]
    cases r.last with
    | none => exact .inl (by simp)
    | some g => exact .inr rfl

end Formed

/-! ## The tokens of a command -/

section Tokens

variable {τ : Type*}

/-- The redirections; the operator is kept for the last output file only. -/
def Atomic.redirections (a : Atomic τ) : List (Item τ) :=
  a.infiles.map .input ++ (a.outfiles.dropLast.map (.output false) ++
    a.outfiles.getLast?.toList.map (.output a.append))

def Atomic.tokens (a : Atomic τ) : List (Token τ) :=
  a.argv.map .name ++ a.redirections.flatMap Item.tokens

def CmdGroup.tokens (g : CmdGroup τ) : List (Token τ) :=
  [.pipe].intercalate (g.atoms.map Atomic.tokens)

def TokenType.separator : TokenType → List (Token τ)
  | .semi => [.semi]
  | .amp => [.amp]
  | .andAnd => [.andAnd]
  | _ => []

def ShellCmd.tokens (sc : ShellCmd τ) : List (Token τ) :=
  (sc.groups.zip sc.types).flatMap fun x => x.1.tokens ++ x.2.separator

theorem Separator.separator_type (s : Separator) :
    (s.type.separator : List (Token τ)) = [s.token] := by
  cases s <;> rfl

theorem foldl_words (a : Atomic τ) (args : List τ) :
    (args.map .word).foldl Item.add a = { a with argv := a.argv ++ args } := by
  induction args generalizing a with
  | nil => simp
  | cons arg args ih =>
      rw [List.map_cons, List.foldl_cons, ih]
      simp [Item.add, Atomic.addArg]

theorem foldl_inputs (a : Atomic τ) (files : List τ)
    (h : a.infiles.length + files.length ≤ maxFiles) :
    (files.map .input).foldl Item.add a = { a with infiles := a.infiles ++ files } := by
  induction files generalizing a with
  | nil => simp
  | cons file files ih =>
      rw [List.length_cons] at h
      have hadd : Item.add a (.input file) = { a with infiles := a.infiles ++ [file] } :=
        if_pos (by omega)
      rw [List.map_cons, List.foldl_cons, hadd, ih]
      · simp
      · simp only [List.length_append, List.length_singleton]
        omega

theorem foldl_outputs (a : Atomic τ) (files : List τ) (happend : a.append = false)
    (h : a.outfiles.length + files.length ≤ maxFiles) :
    (files.map (.output false)).foldl Item.add a =
      { a with outfiles := a.outfiles ++ files } := by
  induction files generalizing a with
  | nil => simp
  | cons file files ih =>
      rw [List.length_cons] at h
      have hadd : Item.add a (.output false file) =
          { a with outfiles := a.outfiles ++ [file] } := by
        refine (if_pos (by omega)).trans ?_
        rw [happend]
      rw [List.map_cons, List.foldl_cons, hadd, ih]
      · simp
      · exact happend
      · simp only [List.length_append, List.length_singleton]
        omega

/-- The redirections of `a` behind its words give `a` back. -/
theorem Atomic.Formed.foldl_redirections {a : Atomic τ} (h : a.Formed) :
    a.redirections.foldl Item.add { argv := a.argv } = a := by
  obtain ⟨argv, infiles, outfiles, append⟩ := a
  have hin : ([] : List τ).length + infiles.length ≤ maxFiles := by
    simpa using h.infiles_le
  rw [Atomic.redirections, List.foldl_append, List.foldl_append,
    foldl_inputs { argv := argv } infiles hin]
  obtain rfl | ⟨files, last, rfl⟩ := List.eq_nil_or_concat' outfiles
  · obtain rfl : append = false := h.append_of_nil rfl
    rfl
  · have hle := h.outfiles_le
    simp only [List.length_append, List.length_singleton] at hle
    dsimp only
    rw [List.dropLast_concat, foldl_outputs _ files rfl (by simp; omega)]
    simp only [List.getLast?_concat, Option.toList_some, List.map_singleton, List.foldl_cons,
      List.foldl_nil, Item.add]
    refine (if_pos ?_).trans ?_
    · simp
      omega
    · simp

theorem flatMap_words (args : List τ) :
    (args.map Item.word).flatMap Item.tokens = args.map Token.name := by
  induction args with
  | nil => rfl
  | cons arg args ih => exact congrArg (Token.name arg :: ·) ih

theorem Atomic.Formed.exists_tree {a : Atomic τ} (h : a.Formed) :
    ∃ tree : AtomicTree τ, tree.tokens = a.tokens ∧ tree.build = a := by
  have hbuild := h.foldl_redirections
  obtain ⟨name, args, hargv⟩ := List.exists_cons_of_ne_nil h.argv_ne
  refine ⟨⟨name, args.map .word ++ a.redirections⟩, ?_, ?_⟩
  · rw [AtomicTree.tokens, Atomic.tokens, hargv, List.flatMap_append, flatMap_words]
    rfl
  · rw [AtomicTree.build, List.foldl_append, foldl_words]
    rw [hargv] at hbuild
    exact hbuild

theorem intercalate_pipe (tokens : List (Token τ)) (others : List (List (Token τ))) :
    [.pipe].intercalate (tokens :: others) = tokens ++ others.flatMap (.pipe :: ·) := by
  induction others generalizing tokens with
  | nil => simp
  | cons other others ih =>
      rw [List.intercalate_cons_cons, ih, List.flatMap_cons, List.append_assoc]
      rfl

theorem exists_atomics {atoms : List (Atomic τ)} (h : ∀ a ∈ atoms, a.Formed) :
    ∃ trees : List (AtomicTree τ),
      (trees.flatMap fun a => .pipe :: a.tokens) = (atoms.map Atomic.tokens).flatMap (.pipe :: ·) ∧
        trees.map AtomicTree.build = atoms := by
  induction atoms with
  | nil => exact ⟨[], rfl, rfl⟩
  | cons a atoms ih =>
      obtain ⟨tree, htokens, hbuild⟩ := (h a (by simp)).exists_tree
      obtain ⟨trees, htokens', hbuild'⟩ := ih fun b hb => h b (List.mem_cons_of_mem a hb)
      refine ⟨tree :: trees, ?_, by rw [List.map_cons, hbuild, hbuild']⟩
      rw [List.flatMap_cons, List.map_cons, List.flatMap_cons, htokens, htokens']

theorem CmdGroup.Formed.exists_tree {g : CmdGroup τ} (h : g.Formed) :
    ∃ tree : GroupTree τ, tree.tokens = g.tokens ∧ tree.build = g := by
  obtain ⟨atoms⟩ := g
  obtain ⟨a, others, rfl⟩ := List.exists_cons_of_ne_nil h.atoms_ne
  obtain ⟨first, hfirst, hbuild⟩ := (h.atoms_formed a (by simp)).exists_tree
  obtain ⟨trees, htrees, hbuilds⟩ :=
    exists_atomics fun b hb => h.atoms_formed b (List.mem_cons_of_mem a hb)
  refine ⟨⟨first, trees⟩, ?_, ?_⟩
  · rw [GroupTree.tokens, CmdGroup.tokens, List.map_cons, intercalate_pipe, hfirst, htrees]
  · rw [GroupTree.build, GroupTree.atomics, List.map_cons, hbuild, hbuilds]

theorem exists_ended {groups : List (CmdGroup τ)} {seps : List Separator}
    (h : ∀ g ∈ groups, g.Formed) (hlength : seps.length = groups.length) :
    ∃ ended : List (GroupTree τ × Separator),
      (ended.flatMap fun g => g.1.tokens ++ [g.2.token]) =
          ((groups.zip (seps.map Separator.type)).flatMap fun x =>
            x.1.tokens ++ x.2.separator) ∧
        ended.map (·.1.build) = groups ∧ ended.map (·.2.type) = seps.map Separator.type := by
  induction groups generalizing seps with
  | nil =>
      obtain rfl := List.eq_nil_of_length_eq_zero hlength
      exact ⟨[], rfl, rfl, rfl⟩
  | cons g groups ih =>
      obtain ⟨s, seps, rfl⟩ := List.exists_cons_of_length_eq_add_one hlength
      obtain ⟨tree, htokens, hbuild⟩ := (h g (by simp)).exists_tree
      obtain ⟨ended, htokens', hbuilds, htypes⟩ :=
        ih (fun g' hg' => h g' (List.mem_cons_of_mem g hg')) (Nat.succ.inj hlength)
      refine ⟨(tree, s) :: ended, ?_, ?_, ?_⟩
      · rw [List.flatMap_cons, htokens', List.map_cons, List.zip_cons_cons, List.flatMap_cons,
          htokens, Separator.separator_type]
      · rw [List.map_cons, hbuild, hbuilds]
      · rw [List.map_cons, htypes, List.map_cons]

theorem ShellCmd.Formed.exists_rounds {sc : ShellCmd τ} (h : sc.Formed) :
    ∃ r : Rounds τ, r.tokens = sc.tokens ∧ r.build {} = sc := by
  have hlength := h.marked.length_types
  obtain ⟨seps, htypes | htypes⟩ := h.types_eq
  · rw [htypes, List.length_map] at hlength
    obtain ⟨ended, htokens, hbuilds, htypes'⟩ := exists_ended h.groups_formed hlength
    obtain ⟨hmarked, hgroups, htypes''⟩ := (⟨ended, none⟩ : Rounds τ).build_eq
    refine ⟨⟨ended, none⟩, ?_, hmarked.eq h.marked ?_ ?_⟩
    · rw [ShellCmd.tokens, htypes, ← htokens]
      simp [Rounds.tokens]
    · simpa [hbuilds] using hgroups
    · rw [htypes'', htypes, htypes']
      simp
  · rw [htypes, List.length_append, List.length_map, List.length_singleton] at hlength
    obtain hnil | ⟨groups, g, hgroups⟩ := List.eq_nil_or_concat' sc.groups
    · simp [hnil] at hlength
    · rw [hgroups, List.length_append, List.length_singleton] at hlength
      have hformed := h.groups_formed
      rw [hgroups] at hformed
      obtain ⟨ended, htokens, hbuilds, htypes'⟩ :=
        exists_ended (fun g' hg' => hformed g' (List.mem_append_left _ hg')) (Nat.succ.inj hlength)
      obtain ⟨tree, htree, hbuild⟩ := (hformed g (by simp)).exists_tree
      obtain ⟨hmarked, hgroups', htypes''⟩ := (⟨ended, some tree⟩ : Rounds τ).build_eq
      refine ⟨⟨ended, some tree⟩, ?_, hmarked.eq h.marked ?_ ?_⟩
      · rw [ShellCmd.tokens, htypes, hgroups, List.zip_append (by simpa using hlength.symm),
          List.flatMap_append, ← htokens]
        simp [Rounds.tokens, htree, TokenType.separator]
      · rw [hgroups', hgroups]
        simp [hbuilds, hbuild]
      · rw [htypes'', htypes, htypes']
        rfl

theorem parseShellCmd_rounds (r : Rounds τ) {rest : List (Token τ)} (h : peek rest = .eof) :
    parseShellCmd (r.tokens ++ rest) = ⟨r.build {}, rest, false⟩ := by
  refine shellLoop_rounds {} ?_ h
  have hlength := length_rounds_le r
  rw [List.length_append]
  omega

/-- A command comes out of its tokens. -/
theorem ShellCmd.Formed.parse_tokens {sc : ShellCmd τ} (h : sc.Formed) {rest : List (Token τ)}
    (hrest : peek rest = .eof) : parseShellCmd (sc.tokens ++ rest) = ⟨sc, rest, false⟩ := by
  obtain ⟨r, htokens, hbuild⟩ := h.exists_rounds
  rw [← htokens, parseShellCmd_rounds r hrest, hbuild]

/-- What is accepted is a command, with the separators of the tokens. -/
theorem formed_of_accepted {ts : List (Token τ)} (h : (parseShellCmd ts).accepted = true) :
    (parseShellCmd ts).value.Formed ∧
      (.andAnd ∈ (parseShellCmd ts).value.types → .andAnd ∈ ts) := by
  simp only [Parsed.accepted, Bool.and_eq_true, Bool.not_eq_true', decide_eq_true_eq] at h
  obtain ⟨hend, line, hline⟩ := parseShellCmd_sound ts h.1
  have hparse := parseShellCmd_tokens line hend
  rw [← hline] at hparse
  rw [show (parseShellCmd ts).value = line.rounds.build {} from congrArg Parsed.value hparse]
  refine ⟨Rounds.formed_build _, fun hand => ?_⟩
  obtain ⟨-, -, htypes⟩ := line.rounds.build_eq
  rw [htypes, List.mem_append] at hand
  obtain hand | hand := hand
  · obtain ⟨g, hg, htype⟩ := List.mem_map.mp hand
    have htoken : (.andAnd : Token τ) = g.2.token := by
      cases hs : g.2 <;> rw [hs] at htype <;> first | rfl | cases htype
    rw [hline, ← line.tokens_rounds, Rounds.tokens]
    refine List.mem_append_left _ (List.mem_append_left _ (List.mem_flatMap.mpr ⟨g, hg, ?_⟩))
    rw [htoken]
    simp
  · simp at hand

/-! ### The names and the operators -/

theorem Item.forall_tokens {P : Token τ → Prop} {item : Item τ} {text : τ}
    (h : item = .input text ∨ ∃ append, item = .output append text) (hname : P (.name text))
    (hlt : P .lt) (hgt : P .gt) (hgtGt : P .gtGt) : ∀ t ∈ item.tokens, P t := by
  obtain rfl | ⟨append, rfl⟩ := h
  · simp [Item.tokens, hname, hlt]
  · cases append <;> simp [Item.tokens, hname, hgt, hgtGt]

theorem Atomic.forall_tokens {P : Token τ → Prop} {a : Atomic τ}
    (hnames : ∀ text ∈ a.texts, P (.name text)) (hlt : P .lt) (hgt : P .gt) (hgtGt : P .gtGt) :
    ∀ t ∈ a.tokens, P t := by
  simp only [Atomic.texts, List.mem_append] at hnames
  intro t ht
  simp only [Atomic.tokens, Atomic.redirections, List.flatMap_append, List.mem_append,
    List.mem_map, List.mem_flatMap, Option.mem_toList] at ht
  obtain ⟨text, htext, rfl⟩ | ⟨_, ⟨text, htext, rfl⟩, ht⟩ | ⟨_, ⟨text, htext, rfl⟩, ht⟩ |
    ⟨_, ⟨text, htext, rfl⟩, ht⟩ := ht
  · exact hnames text (.inl htext)
  · exact Item.forall_tokens (.inl rfl) (hnames text (.inr (.inl htext))) hlt hgt hgtGt t ht
  · have hmem := List.mem_of_mem_dropLast htext
    exact Item.forall_tokens (.inr ⟨_, rfl⟩) (hnames text (.inr (.inr hmem))) hlt hgt hgtGt t ht
  · have hmem := List.mem_of_getLast? htext
    exact Item.forall_tokens (.inr ⟨_, rfl⟩) (hnames text (.inr (.inr hmem))) hlt hgt hgtGt t ht

theorem CmdGroup.forall_tokens {P : Token τ → Prop} {g : CmdGroup τ}
    (hnames : ∀ text ∈ g.texts, P (.name text)) (hpipe : P .pipe) (hlt : P .lt) (hgt : P .gt)
    (hgtGt : P .gtGt) : ∀ t ∈ g.tokens, P t := by
  have hatoms : ∀ a ∈ g.atoms, ∀ t ∈ a.tokens, P t := fun a ha =>
    Atomic.forall_tokens (fun text htext => hnames text (List.mem_flatMap.mpr ⟨a, ha, htext⟩))
      hlt hgt hgtGt
  rw [CmdGroup.tokens]
  cases hg : g.atoms with
  | nil => simp
  | cons a others =>
      rw [List.map_cons, intercalate_pipe]
      intro t ht
      simp only [List.mem_append, List.mem_flatMap, List.mem_map, List.mem_cons] at ht
      obtain ht | ⟨_, ⟨b, hb, rfl⟩, rfl | ht⟩ := ht
      · exact hatoms a (by simp [hg]) t ht
      · exact hpipe
      · exact hatoms b (by simp [hg, hb]) t ht

theorem ShellCmd.forall_tokens {P : Token τ → Prop} {sc : ShellCmd τ}
    (hnames : ∀ text ∈ sc.texts, P (.name text)) (hpipe : P .pipe) (hlt : P .lt) (hgt : P .gt)
    (hgtGt : P .gtGt) (hsemi : P .semi) (hamp : P .amp) (hand : .andAnd ∉ sc.types) :
    ∀ t ∈ sc.tokens, P t := by
  intro t ht
  simp only [ShellCmd.tokens, List.mem_flatMap, List.mem_append] at ht
  obtain ⟨⟨g, type⟩, hmem, ht | ht⟩ := ht
  · have hg := (List.of_mem_zip hmem).1
    refine CmdGroup.forall_tokens (fun text htext => ?_) hpipe hlt hgt hgtGt t ht
    exact hnames text (List.mem_flatMap.mpr ⟨g, hg, htext⟩)
  · have htype := (List.of_mem_zip hmem).2
    cases type with
    | semi =>
        obtain rfl := List.mem_singleton.mp ht
        exact hsemi
    | amp =>
        obtain rfl := List.mem_singleton.mp ht
        exact hamp
    | andAnd => exact absurd htype hand
    | _ => cases ht

end Tokens

/-! ## The line of a command -/

/-- A word that is written without quotes. -/
def Bare (text : List Char) : Prop :=
  ∃ c p, text = c :: p ∧ isQuote c = false ∧ ∀ d ∈ text, inWord d = true

/-- What a name of a line can be. -/
structure Spoken (text : List Char) : Prop where
  nul : '\x00' ∉ text
  quoted : '"' ∉ text ∨ '\'' ∉ text ∨ Bare text

def writeName (text : List Char) : List Char :=
  if '"' ∉ text then '"' :: text ++ ['"']
  else if '\'' ∉ text then '\'' :: text ++ ['\'']
  else text

def Token.written : Token (List Char) → List Char
  | .eof => []
  | .name text => writeName text
  | .pipe => ['|']
  | .amp => ['&']
  | .lt => ['<']
  | .gt => ['>']
  | .gtGt => ['>', '>']
  | .semi => [';']
  | .andAnd => ['&', '&']

/-- The tokens of lines. -/
def Token.Spoken : Token (List Char) → Prop
  | .eof | .andAnd => False
  | .name text => Shell.Spoken text
  | _ => True

def ShellCmd.written (sc : ShellCmd (List Char)) : List Char :=
  [' '].intercalate (sc.tokens.map Token.written)

example : (parseLine "a>o <i b|'c'&".toList).map ShellCmd.written =
    some "\"a\" \"b\" < \"i\" > \"o\" | \"c\" &".toList := by decide

structure ShellCmd.Spoken (sc : ShellCmd (List Char)) : Prop where
  formed : sc.Formed
  texts : ∀ text ∈ sc.texts, Shell.Spoken text
  /-- `tokenize` reads two `&` one after the other. -/
  types : .andAnd ∉ sc.types

/-! ### The tokens are read back -/

theorem scan_bare {c : Char} {p rest : List Char} (hquote : isQuote c = false)
    (hword : ∀ d ∈ c :: p, inWord d = true) (hrest : Separated rest) :
    scan c (p ++ rest) = (.name (c :: p), rest) := by
  have hstops : Stops inWord rest := by
    obtain rfl | ⟨behind, rfl⟩ := hrest
    · simp [Stops]
    · intro d hd
      obtain rfl : ' ' = d := by simpa using hd
      rfl
  have hc := hword c (by simp)
  have hspecial : c ≠ '&' ∧ c ≠ '|' ∧ c ≠ '<' ∧ c ≠ '>' ∧ c ≠ ';' := by
    refine ⟨?_, ?_, ?_, ?_, ?_⟩ <;> rintro rfl <;> simp [inWord] at hc
  obtain ⟨hamp, hpipe, hlt, hgt, hsemi⟩ := hspecial
  obtain ⟨htake, hdrop⟩ := takeWhile_append_of_stops hword hstops
  unfold scan
  rw [if_neg hamp, if_neg hpipe, if_neg hlt, if_neg hgt, if_neg hsemi,
    if_neg (by simp [hquote]), ← List.cons_append, htake, hdrop]

theorem tokenize_written {t : Token (List Char)} (h : t.Spoken) {rest : List Char}
    (hrest : Separated rest) : tokenize (t.written ++ rest) = t :: tokenize rest := by
  cases t with
  | eof => exact h.elim
  | andAnd => exact h.elim
  | name text =>
      change tokenize (writeName text ++ rest) = _
      unfold writeName
      split
      next hdouble => exact tokenize_writes (.name rfl hdouble) hrest
      next hdouble =>
          split
          next hsingle => exact tokenize_writes (.name rfl hsingle) hrest
          next hsingle =>
              have hquoted := h.quoted
              obtain ⟨c, p, rfl, hquote, hword⟩ :=
                (hquoted.resolve_left hdouble).resolve_left hsingle
              have hspace : isSpace c = false := by
                have hc := hword c (by simp)
                simp [inWord] at hc
                exact hc.1
              rw [List.cons_append, tokenize_token hspace, scan_bare hquote hword hrest]
  | pipe => exact tokenize_writes .pipe hrest
  | amp => exact tokenize_writes .amp hrest
  | lt => exact tokenize_writes .lt hrest
  | gt => exact tokenize_writes .gt hrest
  | gtGt => exact tokenize_writes .gtGt hrest
  | semi => exact tokenize_writes .semi hrest

theorem tokenize_written_line {ts : List (Token (List Char))} (h : ∀ t ∈ ts, t.Spoken) :
    tokenize ([' '].intercalate (ts.map Token.written)) = ts ++ [.eof] := by
  induction ts with
  | nil => rfl
  | cons t ts ih =>
      have ht := h t (by simp)
      have hrest := ih fun t' ht' => h t' (List.mem_cons_of_mem t ht')
      cases ts with
      | nil =>
          rw [List.map_singleton, List.intercalate_singleton, ← List.append_nil t.written,
            tokenize_written ht (.inl rfl)]
          rfl
      | cons t' ts =>
          rw [List.map_cons, List.map_cons, List.intercalate_cons_cons, List.append_assoc,
            List.singleton_append, tokenize_written ht (.inr ⟨_, rfl⟩), tokenize_space rfl,
            ← List.map_cons, hrest]
          rfl

theorem ShellCmd.Spoken.tokens {sc : ShellCmd (List Char)} (h : sc.Spoken) :
    ∀ t ∈ sc.tokens, t.Spoken :=
  ShellCmd.forall_tokens h.texts trivial trivial trivial trivial trivial trivial h.types

theorem nul_notMem_written {t : Token (List Char)} (h : t.Spoken) : '\x00' ∉ t.written := by
  cases t with
  | name text =>
      have hnul : '\x00' ∉ text := h.nul
      change '\x00' ∉ writeName text
      unfold writeName
      split
      · simp [hnul]
      · split
        · simp [hnul]
        · exact hnul
  | _ => simp [Token.written]

theorem nul_notMem_line {ts : List (Token (List Char))} (h : ∀ t ∈ ts, t.Spoken) :
    '\x00' ∉ [' '].intercalate (ts.map Token.written) := by
  induction ts with
  | nil => simp
  | cons t ts ih =>
      have ht := nul_notMem_written (h t (by simp))
      have hrest := ih fun t' ht' => h t' (List.mem_cons_of_mem t ht')
      cases ts with
      | nil => simpa using ht
      | cons t' ts =>
          rw [List.map_cons, List.map_cons, List.intercalate_cons_cons, ← List.map_cons]
          simp only [List.mem_append, not_or]
          exact ⟨⟨ht, by simp⟩, hrest⟩

/-! ### What the tokens of a line are -/

theorem spoken_quoted {c : Char} {p : List Char} (hquote : isQuote c = true) (hnul : '\x00' ∉ p) :
    Spoken (p.takeWhile (· != c)) := by
  have habsent : c ∉ p.takeWhile (· != c) := by
    intro hmem
    simpa using List.mem_takeWhile_imp hmem
  refine ⟨fun hmem => hnul ((List.takeWhile_prefix _).subset hmem), ?_⟩
  obtain rfl | rfl : c = '"' ∨ c = '\'' := by simpa [isQuote] using hquote
  · exact .inl habsent
  · exact .inr (.inl habsent)

theorem spoken_word {c : Char} {p : List Char} (hquote : isQuote c = false)
    (hword : inWord c = true) (hnul : '\x00' ∉ c :: p) : Spoken ((c :: p).takeWhile inWord) where
  nul hmem := hnul ((List.takeWhile_prefix _).subset hmem)
  quoted := by
    refine .inr (.inr ⟨c, p.takeWhile inWord, ?_, hquote, fun d => List.mem_takeWhile_imp⟩)
    rw [List.takeWhile_cons_of_pos hword]

theorem spoken_of_scan {c : Char} {p : List Char} (hspace : isSpace c = false)
    (hnul : '\x00' ∉ c :: p) : (scan c p).1.Spoken := by
  unfold scan
  split
  · trivial
  split
  · trivial
  split
  · trivial
  split
  · split <;> trivial
  split
  · trivial
  split
  next hquote => exact spoken_quoted hquote fun hmem => hnul (List.mem_cons_of_mem c hmem)
  next hquote =>
      refine spoken_word (by simpa using hquote) ?_ hnul
      simp_all [inWord]

theorem spoken_of_mem_tokenize {s : List Char} (hnul : '\x00' ∉ s) {t : Token (List Char)}
    (ht : t ∈ tokenize s) (heof : t ≠ .eof) : t.Spoken := by
  induction s using tokenize_induction with
  | nil => exact absurd (List.mem_singleton.mp ht) heof
  | space c p hspace ih =>
      rw [tokenize_space hspace] at ht
      exact ih (fun hmem => hnul (List.mem_cons_of_mem c hmem)) ht
  | token c p hspace ih =>
      rw [tokenize_token hspace] at ht
      obtain rfl | ht := List.mem_cons.mp ht
      · exact spoken_of_scan hspace hnul
      · refine ih (fun hmem => hnul (List.mem_cons_of_mem c ?_)) ht
        exact (scan_suffix hspace).subset hmem

theorem name_mem_of_text {ts : List (Token (List Char))} {text : List Char}
    (h : text ∈ (parseShellCmd ts).value.texts) : .name text ∈ ts := by
  have hperm : ((parseShellCmd ts).value.texts ++ names (parseShellCmd ts).rest).Perm (names ts) :=
    (reads_shellLoop ts.length {} ts).perm
  obtain ⟨t, ht, htext⟩ := List.mem_filterMap.mp (hperm.subset (List.mem_append_left _ h))
  cases t with
  | name text' =>
      cases htext
      exact ht
  | _ => cases htext

/-- Every command that passes the check of some line has the form that the parser leaves. -/
theorem spoken_of_parseLine {line : List Char} (hnul : '\x00' ∉ line)
    {cmd : ShellCmd (List Char)} (h : parseLine line = some cmd) : cmd.Spoken := by
  obtain ⟨haccepted, rfl⟩ := parseLine_eq_some h
  obtain ⟨hformed, hand⟩ := formed_of_accepted haccepted
  refine ⟨hformed, fun text htext => ?_, fun hmem => ?_⟩
  · exact spoken_of_mem_tokenize (t := .name text) hnul (name_mem_of_text htext) (by simp)
  · exact spoken_of_mem_tokenize (t := .andAnd) hnul (hand hmem) (by simp)

/-- A command is read back from the line written for it. -/
theorem parseLine_written {cmd : ShellCmd (List Char)} (h : cmd.Spoken) :
    '\x00' ∉ cmd.written ∧ parseLine cmd.written = some cmd := by
  refine ⟨nul_notMem_line h.tokens, ?_⟩
  unfold parseLine ShellCmd.written
  rw [tokenize_written_line h.tokens, h.formed.parse_tokens rfl]
  rfl

end OxyC.Shell
