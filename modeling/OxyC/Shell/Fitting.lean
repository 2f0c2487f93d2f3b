import OxyC.Shell.Capacity
import OxyC.Shell.Commands

/-!
# The commands that fit into the arrays

On a line that is accepted, the parser stays inside its arrays exactly if the
command that comes out fits into them, and no line for a command has fewer tokens
than the one that is written for it.
-/

namespace OxyC.Shell

variable {τ : Type*}

structure CmdGroup.Fits (g : CmdGroup τ) : Prop where
  atoms_le : g.atoms.length ≤ Table.atoms.size
  /-- Behind the arguments there is room for the null pointer. -/
  argv_lt : ∀ a ∈ g.atoms, a.argv.length < Table.argv.size

structure ShellCmd.Fits (sc : ShellCmd τ) : Prop where
  groups_le : sc.groups.length ≤ Table.groups.size
  groups_fit : ∀ g ∈ sc.groups, g.Fits

/-! ## The writes of the parser -/

theorem argv_length_le (a : Atomic τ) (ts : List (Token τ)) :
    a.argv.length ≤ (atomicLoop a ts).value.argv.length := by
  have harg : ∀ (a : Atomic τ) text, a.argv.length ≤ (a.addArg text).argv.length := by
    intro a text
    simp [Atomic.addArg]
  fun_induction atomicLoop a ts with
  | case1 a text ts ih => exact (harg a text).trans ih
  | case2 a text ts ih =>
      refine le_trans ?_ ih
      unfold Atomic.addInfile
      split
      · exact le_rfl
      · exact harg a text
  | case4 a text ts ih | case6 a text ts ih =>
      refine le_trans ?_ ih
      unfold Atomic.addOutfile
      split
      · exact le_rfl
      · exact harg a text
  | case3 | case5 | case7 | case8 => exact le_rfl

/-- The null pointer is the last entry that is written. -/
theorem atomicLoopWrites_inside (a : Atomic τ) (ts : List (Token τ))
    (h : (atomicLoop a ts).parseError = false) :
    (∀ w ∈ atomicLoopWrites a ts, w.Inside) ↔
      (atomicLoop a ts).value.argv.length < Table.argv.size := by
  refine ⟨fun hwrites => hwrites _ (close_mem_writes a ts h), fun hargv => ?_⟩
  fun_induction atomicLoop a ts with
  | case1 a text ts ih =>
      have hle := argv_length_le (a.addArg text) ts
      have hfirst : a.argv.length < (a.addArg text).argv.length := by simp [Atomic.addArg]
      rw [atomicLoopWrites, List.forall_mem_cons]
      exact ⟨hfirst.trans_le (hle.trans hargv.le), ih h hargv⟩
  | case2 a text ts ih =>
      have hle := argv_length_le a (.lt :: .name text :: ts)
      rw [atomicLoopWrites, List.forall_mem_cons, inside_infileWrite]
      exact ⟨fun _ => hle.trans_lt hargv, ih h hargv⟩
  | case4 a text ts ih =>
      have hle := argv_length_le a (.gt :: .name text :: ts)
      rw [atomicLoopWrites, List.forall_mem_cons, inside_outfileWrite]
      exact ⟨fun _ => hle.trans_lt hargv, ih h hargv⟩
  | case6 a text ts ih =>
      have hle := argv_length_le a (.gtGt :: .name text :: ts)
      rw [atomicLoopWrites, List.forall_mem_cons, inside_outfileWrite]
      exact ⟨fun _ => hle.trans_lt hargv, ih h hargv⟩
  | case3 | case5 | case7 => cases h
  | case8 a ts =>
      simp only [atomicLoopWrites, List.mem_singleton, forall_eq]
      exact hargv

theorem parseAtomicWrites_inside {ts : List (Token τ)} (h : (parseAtomic ts).parseError = false) :
    (∀ w ∈ parseAtomicWrites ts, w.Inside) ↔
      (parseAtomic ts).value.argv.length < Table.argv.size := by
  unfold parseAtomic at h ⊢
  split at h
  · rename_i text ts
    rw [parseAtomicWrites, List.forall_mem_cons, atomicLoopWrites_inside _ ts h]
    exact and_iff_right (by decide)
  · cases h

theorem fits_push (g : CmdGroup τ) (a : Atomic τ) :
    (g.push a).Fits ↔
      g.Fits ∧ g.atoms.length < Table.atoms.size ∧ a.argv.length < Table.argv.size := by
  constructor
  · rintro ⟨hatoms, hargv⟩
    simp only [CmdGroup.push, List.length_append, List.length_singleton] at hatoms
    exact ⟨⟨by omega, fun b hb => hargv b (by simp [CmdGroup.push, hb])⟩, by omega,
      hargv a (by simp [CmdGroup.push])⟩
  · rintro ⟨hg, hatoms, hargv⟩
    refine ⟨by simp only [CmdGroup.push, List.length_append, List.length_singleton]; omega, ?_⟩
    intro b hb
    obtain hb | rfl : b ∈ g.atoms ∨ b = a := by simpa [CmdGroup.push] using hb
    · exact hg.argv_lt b hb
    · exact hargv

theorem groupLoopWrites_inside (fuel : Nat) (g : CmdGroup τ) (ts : List (Token τ))
    (h : (groupLoop fuel g ts).parseError = false) :
    (g.Fits ∧ ∀ w ∈ groupLoopWrites fuel g ts, w.Inside) ↔ (groupLoop fuel g ts).value.Fits := by
  fun_induction groupLoop fuel g ts with
  | case1 | case3 => cases h
  | case2 fuel g ts hname p herror ih =>
      have herror' : (parseAtomic ts).parseError = false := by simpa using herror
      rw [← ih h, fits_push, ← parseAtomicWrites_inside herror']
      simp only [groupLoopWrites, hname, if_true, herror', Bool.false_eq_true, if_false,
        List.forall_mem_append, List.forall_mem_cons]
      change g.Fits ∧ _ ∧ g.atoms.length < Table.atoms.size ∧ _ ↔ _
      tauto
  | case4 fuel g ts =>
      have hwrites : groupLoopWrites fuel g ts = [] := by simp [groupLoopWrites]
      simp [hwrites]

theorem parseCmdGroupWrites_inside {ts : List (Token τ)}
    (h : (parseCmdGroup ts).parseError = false) :
    (∀ w ∈ parseCmdGroupWrites ts, w.Inside) ↔ (parseCmdGroup ts).value.Fits := by
  have herror : (parseAtomic ts).parseError = false := by
    cases hfirst : (parseAtomic ts).parseError with
    | true => simp [parseCmdGroup, hfirst] at h
    | false => rfl
  have hone : (⟨[(parseAtomic ts).value]⟩ : CmdGroup τ).Fits ↔
      (parseAtomic ts).value.argv.length < Table.argv.size := by
    constructor
    · exact fun hfits => hfits.argv_lt _ (by simp)
    · exact fun hargv => ⟨by simp [Table.size], by simpa using hargv⟩
  simp only [parseCmdGroup, herror, Bool.false_eq_true, if_false] at h ⊢
  rw [← groupLoopWrites_inside _ _ _ h, hone, ← parseAtomicWrites_inside herror]
  simp only [parseCmdGroupWrites, herror, Bool.false_eq_true, if_false, List.forall_mem_append,
    List.forall_mem_cons]
  exact and_congr_right' (and_iff_right (by decide))

theorem ShellCmd.fits_iff_push {sc sc' : ShellCmd τ} {g : CmdGroup τ}
    (h : sc'.groups = sc.groups ++ [g]) :
    sc'.Fits ↔ sc.Fits ∧ sc.groups.length < Table.groups.size ∧ g.Fits := by
  constructor
  · rintro ⟨hgroups, hfits⟩
    rw [h, List.length_append, List.length_singleton] at hgroups
    rw [h] at hfits
    exact ⟨⟨by omega, fun g' hg' => hfits g' (by simp [hg'])⟩, by omega, hfits g (by simp)⟩
  · rintro ⟨hsc, hgroups, hg⟩
    refine ⟨by rw [h, List.length_append, List.length_singleton]; omega, ?_⟩
    intro g' hg'
    obtain hg' | rfl : g' ∈ sc.groups ∨ g' = g := by simpa [h] using hg'
    · exact hsc.groups_fit g' hg'
    · exact hg

theorem groups_shellRound (sc : ShellCmd τ) (ts : List (Token τ)) :
    (shellRound sc ts).1.value.groups = sc.groups ++ [(parseCmdGroup ts).value] := by
  unfold shellRound
  dsimp only
  split <;> rfl

theorem shellRoundWrites_inside (sc : ShellCmd τ) {ts : List (Token τ)}
    (h : (shellRound sc ts).1.parseError = false) :
    (sc.Fits ∧ ∀ w ∈ shellRoundWrites sc ts, w.Inside) ↔ (shellRound sc ts).1.value.Fits := by
  rw [parseError_shellRound] at h
  rw [ShellCmd.fits_iff_push (groups_shellRound sc ts), ← parseCmdGroupWrites_inside h]
  have hgroup : (Write.mk .groups sc.groups.length).Inside ↔
      sc.groups.length < Table.groups.size := .rfl
  have htype : (Write.mk .types sc.groups.length).Inside ↔
      sc.groups.length < Table.groups.size := .rfl
  simp only [shellRoundWrites, List.forall_mem_append, List.forall_mem_cons, hgroup, htype]
  simp
  tauto

theorem shellLoopWrites_inside {fuel : Nat} (sc : ShellCmd τ) {ts : List (Token τ)}
    (h : (shellLoop fuel sc ts).parseError = false) :
    (sc.Fits ∧ ∀ w ∈ shellLoopWrites fuel sc ts, w.Inside) ↔ (shellLoop fuel sc ts).value.Fits := by
  induction fuel generalizing sc ts with
  | zero => simp [shellLoopWrites, shellLoop]
  | succ fuel ih =>
      by_cases hend : peek ts = .eof
      · simp [shellLoopWrites, shellLoop, hend]
      · simp only [shellLoop, hend, if_false] at h ⊢
        simp only [shellLoopWrites, hend, if_false, List.forall_mem_append, ← and_assoc]
        cases hstop : (shellRound sc ts).1.parseError || (shellRound sc ts).2 with
        | true =>
            rw [hstop, if_pos rfl] at h
            simp only [if_true]
            rw [shellRoundWrites_inside sc h]
            simp
        | false =>
            simp only [hstop, Bool.false_eq_true, if_false] at h ⊢
            rw [shellRoundWrites_inside sc (Bool.or_eq_false_iff.mp hstop).1]
            exact ih _ h

/-- The last assignment to `types` is made to an entry that is there. -/
theorem parseShellCmdWrites_inside {ts : List (Token τ)}
    (h : (parseShellCmd ts).parseError = false) :
    (∀ w ∈ parseShellCmdWrites ts, w.Inside) ↔ (parseShellCmd ts).value.Fits := by
  have hempty : ({} : ShellCmd τ).Fits := ⟨by simp, by simp⟩
  have hloop : _ ↔ (parseShellCmd ts).value.Fits := shellLoopWrites_inside {} h
  rw [and_iff_right hempty] at hloop
  rw [parseShellCmdWrites, List.forall_mem_append, hloop]
  refine and_iff_left_of_imp fun hfits => ?_
  have hgroups := hfits.groups_le
  split
  · simp only [List.mem_singleton, forall_eq, Write.Inside, Table.size] at hgroups ⊢
    omega
  · simp

/-! ## The shortest line -/

theorem Atomic.length_tokens (a : Atomic τ) :
    a.tokens.length = a.argv.length + 2 * a.infiles.length + 2 * a.outfiles.length := by
  have hitems : ∀ (files : List τ) (f : τ → Item τ), (∀ file, (f file).tokens.length = 2) →
      ((files.map f).flatMap Item.tokens).length = 2 * files.length := by
    intro files f hf
    induction files with
    | nil => rfl
    | cons file files ih =>
        rw [List.map_cons, List.flatMap_cons, List.length_append, ih, hf, List.length_cons]
        omega
  have hin := hitems a.infiles .input fun _ => rfl
  have hout := hitems a.outfiles.dropLast (.output false) fun _ => rfl
  have hlast := hitems a.outfiles.getLast?.toList (.output a.append) fun _ => by
    cases a.append <;> rfl
  have hfiles : a.outfiles.dropLast.length + a.outfiles.getLast?.toList.length =
      a.outfiles.length := by
    obtain hnil | ⟨files, last, hfiles⟩ := List.eq_nil_or_concat' a.outfiles
    · simp [hnil]
    · simp [hfiles]
  rw [Atomic.tokens, Atomic.redirections, List.flatMap_append, List.flatMap_append,
    List.length_append, List.length_append, List.length_append, List.length_map, hin, hout, hlast]
  omega

theorem length_tokens_add (a : Atomic τ) (item : Item τ) :
    (item.add a).tokens.length ≤ a.tokens.length + item.tokens.length := by
  rw [Atomic.length_tokens, Atomic.length_tokens]
  cases item with
  | word text =>
      simp only [Item.add, Atomic.addArg, Item.tokens, List.length_append, List.length_singleton]
      omega
  | input file =>
      simp only [Item.add, Atomic.addInfile, Atomic.addArg, Item.tokens]
      split <;> simp only [List.length_append, List.length_cons, List.length_nil] <;> omega
  | output append file =>
      have hlength : (Item.output append file).tokens.length = 2 := by cases append <;> rfl
      rw [hlength]
      simp only [Item.add, Atomic.addOutfile, Atomic.addArg]
      split <;> simp only [List.length_append, List.length_cons, List.length_nil] <;> omega

theorem AtomicTree.length_build (a : AtomicTree τ) : a.build.tokens.length ≤ a.tokens.length := by
  have hfoldl : ∀ (items : List (Item τ)) (a : Atomic τ),
      (items.foldl Item.add a).tokens.length ≤
        a.tokens.length + (items.flatMap Item.tokens).length := by
    intro items
    induction items with
    | nil => exact fun a => le_rfl
    | cons item items ih =>
        intro a
        have hitem := length_tokens_add a item
        have hitems := ih (item.add a)
        rw [List.flatMap_cons, List.length_append]
        exact hitems.trans (by omega)
  have hbuild := hfoldl a.items { argv := [a.name] }
  rw [Atomic.length_tokens { argv := [a.name] }] at hbuild
  rw [AtomicTree.build, AtomicTree.tokens, List.length_cons]
  exact hbuild.trans (by simp; omega)

theorem GroupTree.length_build (g : GroupTree τ) : g.build.tokens.length ≤ g.tokens.length := by
  have hothers : ∀ others : List (AtomicTree τ),
      (((others.map AtomicTree.build).map Atomic.tokens).flatMap (.pipe :: ·)).length ≤
        (others.flatMap fun a => .pipe :: a.tokens).length := by
    intro others
    induction others with
    | nil => exact le_rfl
    | cons a others ih =>
        have ha := a.length_build
        simp only [List.map_cons, List.flatMap_cons, List.length_append, List.length_cons] at ih ⊢
        omega
  have hfirst := g.first.length_build
  have hrest := hothers g.others
  rw [CmdGroup.tokens, GroupTree.build, GroupTree.atomics, List.map_cons, List.map_cons,
    intercalate_pipe, GroupTree.tokens, List.length_append, List.length_append]
  omega

/-- A line has at least the tokens of its command. -/
theorem Rounds.length_build (r : Rounds τ) : (r.build {}).tokens.length ≤ r.tokens.length := by
  have hended : ∀ ended : List (GroupTree τ × Separator),
      (((ended.map (·.1.build)).zip (ended.map (·.2.type))).flatMap fun x =>
        x.1.tokens ++ x.2.separator).length ≤
          (ended.flatMap fun g => g.1.tokens ++ [g.2.token]).length := by
    intro ended
    induction ended with
    | nil => exact le_rfl
    | cons g ended ih =>
        have hg := g.1.length_build
        simp only [List.map_cons, List.zip_cons_cons, List.flatMap_cons, List.length_append,
          Separator.separator_type, List.length_singleton] at ih ⊢
        omega
  obtain ⟨ended, last⟩ := r
  obtain ⟨-, hgroups, htypes⟩ := Rounds.build_eq (⟨ended, last⟩ : Rounds τ)
  have hrest := hended ended
  rw [ShellCmd.tokens, hgroups, htypes, List.zip_append (by simp), List.flatMap_append,
    Rounds.tokens, List.length_append, List.length_append]
  cases last with
  | none => simpa using hrest
  | some g =>
      have hg := g.length_build
      have heof : (TokenType.eof.separator : List (Token τ)) = [] := rfl
      simp only [Option.toList_some, List.map_singleton, List.zip_cons_cons, List.zip_nil_right,
        List.flatMap_singleton, heof, List.append_nil]
      omega

/-! ## Commands and lines -/

theorem length_tokens_lt {line : List Char} {cmd : ShellCmd (List Char)}
    (h : parseLine line = some cmd) : cmd.tokens.length < (tokenize line).length := by
  obtain ⟨haccepted, rfl⟩ := parseLine_eq_some h
  obtain ⟨before, heof, htokens⟩ := tokenize_eof line
  rw [htokens] at haccepted ⊢
  obtain ⟨tree, rfl⟩ := (accepted_iff_derives [] heof).mp haccepted
  have hbuild := tree.rounds.length_build
  rw [parseShellCmd_tokens tree rfl, List.length_append, List.length_singleton, ← tree.tokens_rounds]
  exact Nat.lt_succ_of_le hbuild

theorem lineWrites_of_parseLine {line : List Char} {cmd : ShellCmd (List Char)}
    (h : parseLine line = some cmd) :
    (∀ w ∈ lineWrites line, w.Inside) ↔
      (tokenize line).length ≤ Table.tokens.size ∧ cmd.Fits := by
  obtain ⟨haccepted, rfl⟩ := parseLine_eq_some h
  simp only [Parsed.accepted, Bool.and_eq_true, Bool.not_eq_true'] at haccepted
  rw [lineWrites, List.forall_mem_append, tokenizeWrites_inside_iff,
    parseShellCmdWrites_inside haccepted.1]

theorem ShellCmd.Spoken.lineWrites_written {cmd : ShellCmd (List Char)} (h : cmd.Spoken) :
    (∀ w ∈ lineWrites cmd.written, w.Inside) ↔
      cmd.tokens.length < Table.tokens.size ∧ cmd.Fits := by
  rw [lineWrites_of_parseLine (parseLine_written h).2, ShellCmd.written,
    tokenize_written_line h.tokens, List.length_append, List.length_singleton, Nat.succ_le_iff]

/-- The commands of lines are exactly the spoken ones, and each is read back from the line that is
written for it, which stays inside the arrays whenever some line of the command does. -/
theorem parseLine_commands (cmd : ShellCmd (List Char)) :
    (cmd.Spoken ↔ ∃ line, '\x00' ∉ line ∧ parseLine line = some cmd) ∧
      (cmd.Spoken → '\x00' ∉ cmd.written ∧ parseLine cmd.written = some cmd ∧
        ((∀ w ∈ lineWrites cmd.written, w.Inside) ↔
          cmd.tokens.length < Table.tokens.size ∧ cmd.Fits)) ∧
      ∀ line, '\x00' ∉ line → parseLine line = some cmd → (∀ w ∈ lineWrites line, w.Inside) →
        ∀ w ∈ lineWrites cmd.written, w.Inside := by
  refine ⟨⟨fun h => ⟨cmd.written, parseLine_written h⟩, ?_⟩, fun h => ?_, ?_⟩
  · rintro ⟨line, hnul, hline⟩
    exact spoken_of_parseLine hnul hline
  · obtain ⟨hnul, hback⟩ := parseLine_written h
    exact ⟨hnul, hback, h.lineWrites_written⟩
  · intro line hnul hline hinside
    obtain ⟨htokens, hfits⟩ := (lineWrites_of_parseLine hline).mp hinside
    rw [(spoken_of_parseLine hnul hline).lineWrites_written]
    exact ⟨(length_tokens_lt hline).trans_le htokens, hfits⟩

end OxyC.Shell
