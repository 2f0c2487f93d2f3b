import OxyC.Shell.Dispatch
import OxyC.Shell.History

/-!
# Replaying a line of the history

`execute_fn` and `execute_string` against the dispatch of the same line typed.
-/

namespace OxyC.Shell

/-- There is no branch for `log`. -/
def replayChain : List Branch :=
  [⟨.hop, true⟩, ⟨.reveal, true⟩, ⟨.fg, false⟩, ⟨.bg, false⟩, ⟨.ping, false⟩,
    ⟨.activities, false⟩]

/-- The dispatch of both functions; `bgUntil` stays `-1` where `main` sets it to `0`. -/
def replayDispatch (cmd : ShellCmd (List Char)) : List Event :=
  (if cmd.trailingAmp && cmd.bgUntil != -1 then doInBg cmd else []) ++
    inShell replayChain (cmd.bgUntil + 1).toNat cmd

/-- `execute_fn`; `get_in` hands over the line with the newline of `logs.txt`. -/
def executeFn (line : List Char) : List Event :=
  match parseLine (line ++ ['\n']) with
  | some cmd => replayDispatch cmd
  | none => []

/-- `execute_string`; its caller has removed the newline. -/
def executeString (line : List Char) : List Event :=
  match parseLine line with
  | some cmd => replayDispatch cmd
  | none => []

def Event.dispatched (e : Event) : Place × Nat × CmdGroup (List Char) :=
  (e.place, e.index, e.group)

/-- The same groups in the same order, in the same places. -/
def SameDispatch (events events' : List Event) : Prop :=
  events.map Event.dispatched = events'.map Event.dispatched

/-- No `&` stands between two groups. -/
def AmpOnlyLast (cmd : ShellCmd (List Char)) : Prop := .amp ∉ cmd.types.dropLast

/-! ## The group behind the first `&` -/

section Skipped

variable {cmd : ShellCmd (List Char)}

theorem ampOnlyLast_iff (h : cmd.WellFormed) :
    AmpOnlyLast cmd ↔ cmd.bgUntil = -1 ∨ cmd.bgUntil = cmd.groups.length := by
  rw [AmpOnlyLast, h.bgUntil, ← h.length]
  by_cases hamp : .amp ∈ cmd.types
  · have hne : cmd.types ≠ [] := List.ne_nil_of_mem hamp
    have hlt := List.idxOf_lt_length_of_mem hamp
    have hlength : cmd.types.dropLast.length = cmd.types.length - 1 := List.length_dropLast
    have hindex := congrArg (List.idxOf .amp) (List.dropLast_append_getLast hne)
    rw [List.idxOf_append] at hindex
    rw [if_pos hamp]
    constructor
    · intro hlast
      rw [if_neg hlast] at hindex
      omega
    · rintro hend hmem
      have hless := List.idxOf_lt_length_of_mem hmem
      rw [if_pos hmem] at hindex
      omega
  · rw [if_neg hamp]
    simp only [true_or, iff_true]
    exact fun hmem => hamp (List.dropLast_subset _ hmem)

theorem replayDispatch_eq (h : cmd.WellFormed) :
    replayDispatch cmd = doInBg cmd ++ inShell replayChain (cmd.bgUntil + 1).toNat cmd := by
  rw [replayDispatch, h.hasPrefix]
  by_cases hamp : .amp ∈ cmd.types
  · simp [hamp]
  · simp [hamp, doInBg_of_notMem h hamp]

theorem dispatched_inShell (chain chain' : List Branch) (first : Nat)
    (cmd : ShellCmd (List Char)) :
    (inShell chain first cmd).map Event.dispatched =
      (inShell chain' first cmd).map Event.dispatched := by
  simp only [inShell, List.map_flatMap, dispatchGroup_eq, List.map_replicate, Event.dispatched]

theorem drop_ampOnlyLast (h : cmd.WellFormed) (hlast : AmpOnlyLast cmd) :
    cmd.groups.zipIdx.drop (cmd.bgUntil + 1).toNat =
      cmd.groups.zipIdx.drop cmd.bgUntil.toNat := by
  cases (ampOnlyLast_iff h).mp hlast with
  | inl hnone =>
      rw [hnone]
      rfl
  | inr hall =>
      rw [List.drop_eq_nil_of_le (by rw [List.length_zipIdx]; omega),
        List.drop_eq_nil_of_le (by rw [List.length_zipIdx]; omega)]

theorem sameDispatch_of_ampOnlyLast (h : cmd.WellFormed) (hlast : AmpOnlyLast cmd) :
    SameDispatch (replayDispatch cmd) (mainDispatch cmd) := by
  rw [SameDispatch, replayDispatch_eq h, mainDispatch_eq h, List.map_append, List.map_append,
    dispatched_inShell replayChain mainChain]
  simp only [inShell, drop_ampOnlyLast h hlast]

/-- The group `bgUntil` is run by `main` only. -/
theorem ne_bgUntil_of_mem_replay (h : cmd.WellFormed) (hset : 0 ≤ cmd.bgUntil) {e : Event}
    (he : e ∈ replayDispatch cmd) : e.index ≠ cmd.bgUntil.toNat := by
  rw [replayDispatch_eq h] at he
  cases List.mem_append.mp he with
  | inl hbg =>
      have hlt := (mem_doInBg hbg).2.1
      omega
  | inr hshell =>
      have hle := (mem_inShell hshell).2.1
      omega

theorem exists_mainDispatch (h : cmd.WellFormed) {i : Nat} (hi : i < cmd.groups.length) :
    ∃ e ∈ mainDispatch cmd, e.index = i := by
  rw [mainDispatch_eq h]
  by_cases hfront : i < cmd.bgUntil.toNat
  · obtain ⟨e, he, hindex⟩ := exists_doInBg hi hfront
    exact ⟨e, List.mem_append_left _ he, hindex⟩
  · obtain ⟨e, he, hindex⟩ := exists_inShell mainChain (not_lt.mp hfront) hi
    exact ⟨e, List.mem_append_right _ he, hindex⟩

theorem group_of_mem {chain : List Branch} {first : Nat} {e : Event}
    (he : e ∈ doInBg cmd ++ inShell chain first cmd) : cmd.groups[e.index]? = some e.group := by
  cases List.mem_append.mp he with
  | inl hbg => exact (mem_doInBg hbg).2.2
  | inr hshell => exact (mem_inShell hshell).2.2

theorem SameDispatch.exists_mem {events events' : List Event} (h : SameDispatch events events')
    {e : Event} (he : e ∈ events') : ∃ e' ∈ events, e'.dispatched = e.dispatched := by
  have hmem : e.dispatched ∈ events.map Event.dispatched := by
    rw [h]
    exact List.mem_map_of_mem he
  exact List.mem_map.mp hmem

/-- A replay that dispatches as `main` does for a command of the same shape skips no group, and
runs the same groups. -/
theorem SameDispatch.agree {cmd' : ShellCmd (List Char)} (hwf : cmd.WellFormed)
    (hwf' : cmd'.WellFormed) (htypes : cmd'.types = cmd.types)
    (h : SameDispatch (replayDispatch cmd') (mainDispatch cmd)) :
    AmpOnlyLast cmd ∧ cmd'.groups = cmd.groups := by
  have hbgUntil : cmd'.bgUntil = cmd.bgUntil := by rw [hwf.bgUntil, hwf'.bgUntil, htypes]
  have hlength : cmd'.groups.length = cmd.groups.length := by
    rw [← hwf.length, ← hwf'.length, htypes]
  have hmatch : ∀ i < cmd.groups.length,
      ∃ e ∈ replayDispatch cmd', e.index = i ∧ cmd.groups[i]? = some e.group := by
    intro i hi
    obtain ⟨e, he, rfl⟩ := exists_mainDispatch hwf hi
    obtain ⟨e', he', hsame⟩ := h.exists_mem he
    simp only [Event.dispatched, Prod.mk.injEq] at hsame
    rw [mainDispatch_eq hwf] at he
    exact ⟨e', he', hsame.2.1, by rw [hsame.2.2]; exact group_of_mem he⟩
  constructor
  · rw [ampOnlyLast_iff hwf]
    by_contra hnone
    have hle := hwf.bgUntil_le
    have hbound := hwf.bgUntil_ge
    obtain ⟨e, he, hindex, -⟩ := hmatch cmd.bgUntil.toNat (by omega)
    rw [← hbgUntil] at hindex
    exact ne_bgUntil_of_mem_replay hwf' (by omega) he hindex
  · apply List.ext_getElem?
    intro i
    by_cases hi : i < cmd.groups.length
    · obtain ⟨e, he, rfl, hgroup⟩ := hmatch i hi
      rw [replayDispatch_eq hwf'] at he
      rw [hgroup, group_of_mem he]
    · rw [List.getElem?_eq_none (by omega), List.getElem?_eq_none (by omega)]

theorem replayDispatch_same_iff (h : cmd.WellFormed) :
    SameDispatch (replayDispatch cmd) (mainDispatch cmd) ↔ AmpOnlyLast cmd :=
  ⟨fun hsame => (hsame.agree h h rfl).1, sameDispatch_of_ampOnlyLast h⟩

end Skipped

/-! ## The newline of `logs.txt` -/

section Newline

variable {line : List Char} {cmd cmd' : ShellCmd (List Char)}

theorem parseLine_newline (h : openQuote line = false) :
    parseLine (line ++ ['\n']) = parseLine line := by
  simp only [parseLine, tokenize_newline h]

theorem types_newline (line : List Char) :
    (tokenize (line ++ ['\n'])).map Token.type = (tokenize line).map Token.type := by
  cases hquote : openQuote line with
  | false => rw [tokenize_newline hquote]
  | true =>
      obtain ⟨before, text, hline, hlonger⟩ := tokenize_newline_of_open hquote
      rw [hline, hlonger]
      simp [Token.type]

theorem parseLine_newline_none (h : parseLine line = none) :
    parseLine (line ++ ['\n']) = none := by
  have hshape := shape_congr (types_newline line)
  simp only [parseLine, ← accepted_shape] at h ⊢
  rw [hshape]
  split at h
  · simp at h
  · rename_i hrejected
    rw [if_neg hrejected]

theorem parseLine_newline_some (h : parseLine line = some cmd) :
    ∃ cmd', parseLine (line ++ ['\n']) = some cmd' ∧ cmd'.types = cmd.types := by
  have hshape := shape_congr (types_newline line)
  obtain ⟨haccepted, rfl⟩ := parseLine_eq_some h
  refine ⟨(parseShellCmd (tokenize (line ++ ['\n']))).value, ?_, ?_⟩
  · rw [← accepted_shape] at haccepted
    rw [parseLine, ← accepted_shape, hshape, haccepted, if_pos rfl]
  · exact congrArg (fun p : Parsed (ShellCmd Unit) Unit => p.value.types) hshape

/-- In an open quote the newline is in the text of a group. -/
theorem groups_newline_ne (hquote : openQuote line = true) (h : parseLine line = some cmd)
    (h' : parseLine (line ++ ['\n']) = some cmd') : cmd'.groups ≠ cmd.groups := by
  intro hgroups
  obtain ⟨before, text, hline, hlonger⟩ := tokenize_newline_of_open hquote
  have hperm : (names (tokenize (line ++ ['\n']))).Perm (names (tokenize line)) := by
    refine (parseLine_texts h').symm.trans (.trans ?_ (parseLine_texts h))
    rw [ShellCmd.texts, ShellCmd.texts, hgroups]
  have hlength := (hperm.map List.length).sum_nat
  simp [hline, hlonger, names, Token.text?] at hlength

end Newline

/-! ## The branch for `log` -/

section Log

variable {line : List Char} {cmd : ShellCmd (List Char)}

def NoLog (cmd : ShellCmd (List Char)) : Prop :=
  ∀ g ∈ cmd.groups, ∀ a ∈ g.atoms, a.argv.head? ≠ some Builtin.log.name

theorem applies_of_head {a : Atomic (List Char)} {b : Builtin} (h : a.argv.head? = some b.name)
    (branch : Branch) :
    branch.applies a = (!(branch.plain && a.redirected) && decide (branch.builtin = b)) := by
  have hname : b.name = branch.builtin.name ↔ branch.builtin = b :=
    ⟨fun heq => (Builtin.name_injective heq).symm, fun heq => by rw [heq]⟩
  simp only [Branch.applies, h, Option.some.injEq, hname]

/-- The order of the branches does not matter, for the names differ. -/
theorem runSingle_replayChain {a : Atomic (List Char)} (h : a.argv.head? ≠ some Builtin.log.name)
    (otherwise : Runner) : runSingle replayChain otherwise a = runSingle mainChain otherwise a := by
  by_cases hknown : ∃ b : Builtin, a.argv.head? = some b.name
  · obtain ⟨b, hb⟩ := hknown
    have hlog : b ≠ .log := by
      rintro rfl
      exact h hb
    simp only [runSingle, applies_of_head hb]
    cases a.redirected <;> cases b <;> first | rfl | exact absurd rfl hlog
  · have hnone : ∀ chain : List Branch, chain.find? (·.applies a) = none := by
      intro chain
      rw [List.find?_eq_none]
      intro branch hbranch happlies
      simp only [Branch.applies, Bool.and_eq_true, decide_eq_true_eq] at happlies
      exact hknown ⟨_, happlies.2⟩
    simp [runSingle, hnone]

theorem groupRunner_replayChain {g : CmdGroup (List Char)}
    (h : ∀ a ∈ g.atoms, a.argv.head? ≠ some Builtin.log.name) :
    groupRunner replayChain g = groupRunner mainChain g := by
  unfold groupRunner
  split
  · rename_i a hatoms
    exact runSingle_replayChain (h a (by simp [hatoms])) _
  · rfl

/-- What can be stored holds no `log` at all. -/
theorem noLog_of_stored (hstored : ifLog line = false) (h : parseLine line = some cmd) :
    NoLog cmd := by
  intro g hg a ha hhead
  have hargv : Builtin.log.name ∈ a.argv := List.mem_of_mem_head? hhead
  have htexts : Builtin.log.name ∈ cmd.texts := by
    refine List.mem_flatMap.mpr ⟨g, hg, List.mem_flatMap.mpr ⟨a, ha, ?_⟩⟩
    exact List.mem_append_left _ hargv
  have hname := (parseLine_texts h).mem_iff.mp htexts
  obtain ⟨t, ht, htext⟩ := List.mem_filterMap.mp hname
  cases t with
  | name text =>
      obtain rfl : text = Builtin.log.name := by simpa [Token.text?] using htext
      rw [(ifLog_iff line).mpr (infix_of_mem_tokenize ht)] at hstored
      cases hstored
  | _ => simp [Token.text?] at htext

theorem inShell_replayChain (h : NoLog cmd) (first : Nat) :
    inShell replayChain first cmd = inShell mainChain first cmd := by
  refine List.flatMap_congr fun g hg => ?_
  have hmem := List.fst_mem_of_mem_zipIdx (List.mem_of_mem_drop hg)
  rw [dispatchGroup_eq, dispatchGroup_eq, groupRunner_replayChain (h g.1 hmem)]

theorem replayDispatch_eq_mainDispatch (hlog : NoLog cmd) (h : cmd.WellFormed)
    (hlast : AmpOnlyLast cmd) : replayDispatch cmd = mainDispatch cmd := by
  rw [replayDispatch_eq h, mainDispatch_eq h, inShell_replayChain hlog]
  simp only [inShell, drop_ampOnlyLast h hlast]

end Log

/-- When a stored line is replayed as it was dispatched when it was typed. -/
theorem replay_same_iff (line : List Char) :
    (SameDispatch (executeFn line) (typeLine line) ↔
        ∀ cmd, parseLine line = some cmd → AmpOnlyLast cmd ∧ openQuote line = false) ∧
      (SameDispatch (executeString line) (typeLine line) ↔
        ∀ cmd, parseLine line = some cmd → AmpOnlyLast cmd) := by
  cases hline : parseLine line with
  | none =>
      simp [SameDispatch, executeFn, executeString, typeLine, hline, parseLine_newline_none hline]
  | some cmd =>
      have hwf := parseLine_wellFormed hline
      have hstring : SameDispatch (executeString line) (typeLine line) ↔ AmpOnlyLast cmd := by
        rw [executeString, typeLine, hline]
        exact replayDispatch_same_iff hwf
      have hfn : SameDispatch (executeFn line) (typeLine line) ↔
          AmpOnlyLast cmd ∧ openQuote line = false := by
        obtain ⟨cmd', hcmd', htypes⟩ := parseLine_newline_some hline
        rw [executeFn, typeLine, hcmd', hline]
        cases hquote : openQuote line with
        | false =>
            rw [parseLine_newline hquote, hline] at hcmd'
            obtain rfl := Option.some.inj hcmd'
            simpa using replayDispatch_same_iff hwf
        | true =>
            simp only [Bool.true_eq_false, and_false, iff_false]
            intro hsame
            have hagree := hsame.agree hwf (parseLine_wellFormed hcmd') htypes
            exact groups_newline_ne hquote hline hcmd' hagree.2
      simp [hstring, hfn]

/-- `main` runs `b`, and the replay does not; in an open quote `execute_fn` runs a longer text. -/
theorem replay_differs :
    (ifLog "a & b".toList = false ∧
        ¬ SameDispatch (executeFn "a & b".toList) (typeLine "a & b".toList) ∧
        ¬ SameDispatch (executeString "a & b".toList) (typeLine "a & b".toList)) ∧
      (ifLog "a 'b".toList = false ∧
        ¬ SameDispatch (executeFn "a 'b".toList) (typeLine "a 'b".toList)) := by
  unfold SameDispatch
  decide

/-- A stored line that is replayed in the same places is also run in the same way. -/
theorem replay_eq_typeLine {line : List Char} (hstored : ifLog line = false)
    (hlast : ∀ cmd, parseLine line = some cmd → AmpOnlyLast cmd) :
    executeString line = typeLine line ∧
      (openQuote line = false → executeFn line = typeLine line) := by
  have hstring : executeString line = typeLine line := by
    rw [executeString, typeLine]
    cases hline : parseLine line with
    | none => rfl
    | some cmd =>
        exact replayDispatch_eq_mainDispatch (noLog_of_stored hstored hline)
          (parseLine_wellFormed hline) (hlast cmd hline)
  refine ⟨hstring, fun hquote => ?_⟩
  rw [← hstring, executeFn, executeString, parseLine_newline hquote]

end OxyC.Shell
