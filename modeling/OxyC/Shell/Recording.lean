import OxyC.Shell.Replay

/-!
# The lines that are recorded

`main` hands a line to `add_log` before it is parsed, and `if_log` looks for the
letters of `log` in the text.  Where a group is run, `argv[0]` is compared with the
name of the builtin.
-/

namespace OxyC.Shell

open OxyC.Foundation

/-- The line becomes the last entry, and at most the oldest one goes. -/
def RecordsLine (logs : Logs) (text : List Char) : Prop :=
  (addLog text logs).entries maxLogs = (logs.entries maxLogs ++ [text]).rtake maxLogs

/-- No word, file name or quoted text of the command has `log` in it. -/
def Logless (cmd : ShellCmd (List Char)) : Prop := ∀ text ∈ cmd.texts, ¬ "log".toList <:+: text

instance (cmd : ShellCmd (List Char)) : Decidable (Logless cmd) :=
  inferInstanceAs (Decidable (∀ _ ∈ _, _))

instance (logs : Logs) (text : List Char) : Decidable (RecordsLine logs text) :=
  inferInstanceAs (Decidable (_ = _))

instance (cmd : ShellCmd (List Char)) : Decidable (NoLog cmd) :=
  inferInstanceAs (Decidable (∀ _ ∈ _, ∀ _ ∈ _, _))

/-! ## Where letters stand in a line -/

section Letters

variable {c : Char} {w p s : List Char}

/-- What a round of `tokenize` reads holds the letters, or what it leaves does. -/
theorem infix_scan (hne : w ≠ []) (hword : ∀ x ∈ w, inWord x = true ∧ isQuote x = false)
    (h : w <:+: c :: p) :
    w <:+: (scan c p).2 ∨ ∃ text, (scan c p).1 = .name text ∧ w <:+: text := by
  have hskip : ∀ {x : Char} {rest : List Char}, inWord x = false ∨ isQuote x = true →
      w <:+: x :: rest → w <:+: rest := by
    intro x rest hx hrest
    refine infix_of_infix_cons hne hrest fun hmem => ?_
    have hboth := hword x hmem
    simp_all
  unfold scan
  split
  next hc => exact .inl (hskip (.inl (by rw [hc]; decide)) h)
  split
  next hc => exact .inl (hskip (.inl (by rw [hc]; decide)) h)
  split
  next hc => exact .inl (hskip (.inl (by rw [hc]; decide)) h)
  split
  next hc =>
      have hp := hskip (.inl (by rw [hc]; decide)) h
      split
      · exact .inl (hskip (.inl (by decide)) hp)
      · exact .inl hp
  split
  next hc => exact .inl (hskip (.inl (by rw [hc]; decide)) h)
  split
  next hquote =>
      have hother : ∀ x ∈ w, (x != c) = true := by
        intro x hx
        have hne : x ≠ c := by
          rintro rfl
          rw [(hword x hx).2] at hquote
          cases hquote
        simpa using hne
      cases infix_takeWhile_or hother (hskip (.inr hquote) h) with
      | inl htext => exact .inr ⟨_, rfl, htext⟩
      | inr hrest => exact .inl hrest
  next =>
      cases infix_takeWhile_or (fun x hx => (hword x hx).1) h with
      | inl htext => exact .inr ⟨_, rfl, htext⟩
      | inr hrest => exact .inl (hrest.trans (List.drop_suffix 1 _).isInfix)

theorem exists_name_of_infix (hne : w ≠ [])
    (hword : ∀ x ∈ w, inWord x = true ∧ isQuote x = false) (h : w <:+: s) :
    ∃ text, .name text ∈ tokenize s ∧ w <:+: text := by
  induction s using tokenize_induction with
  | nil => exact absurd (List.infix_nil.mp h) hne
  | space c p hspace ih =>
      have hmem : c ∉ w := by
        intro hmem
        have hword := (hword c hmem).1
        simp [inWord, hspace] at hword
      rw [tokenize_space hspace]
      exact ih (infix_of_infix_cons hne h hmem)
  | token c p hspace ih =>
      rw [tokenize_token hspace]
      rcases infix_scan hne hword h with hrest | ⟨text, htoken, htext⟩
      · obtain ⟨text, hmem, htext⟩ := ih hrest
        exact ⟨text, List.mem_cons_of_mem _ hmem, htext⟩
      · exact ⟨text, by rw [htoken]; exact List.mem_cons_self, htext⟩

/-- The letters of `log` stand in a line exactly if they stand in a text of its command. -/
theorem ifLog_eq_false_iff {line : List Char} {cmd : ShellCmd (List Char)}
    (hcmd : parseLine line = some cmd) : ifLog line = false ↔ Logless cmd := by
  have htexts : ∀ text, text ∈ cmd.texts ↔ .name text ∈ tokenize line := by
    intro text
    rw [(parseLine_texts hcmd).mem_iff, names, List.mem_filterMap]
    constructor
    · rintro ⟨t, ht, htext⟩
      cases t with
      | name text' =>
          obtain rfl : text' = text := by simpa [Token.text?] using htext
          exact ht
      | _ => simp [Token.text?] at htext
    · exact fun h => ⟨_, h, rfl⟩
  rw [Bool.eq_false_iff, Ne, ifLog_iff]
  constructor
  · intro hnone text htext hlog
    exact hnone (hlog.trans (infix_of_mem_tokenize ((htexts text).mp htext)))
  · intro hless hline
    have hletters : ("log".toList.all fun x => inWord x && !isQuote x) = true := by decide
    have hword : ∀ x ∈ "log".toList, inWord x = true ∧ isQuote x = false := fun x hx => by
      simpa using List.all_eq_true.mp hletters x hx
    obtain ⟨text, hmem, hlog⟩ := exists_name_of_infix (by decide) hword hline
    exact hless text ((htexts text).mpr hmem) hlog

end Letters

theorem Records.recordsLine_iff {logs : Logs} {history : List (List Char)} (h : Records logs history)
    (line : TypedLine) (hnew : (logs.entries maxLogs).getLast? ≠ some line.text) :
    RecordsLine logs line.text ↔ ifLog line.text = false := by
  have hlast : history.getLast? ≠ some line.text := by
    rwa [h.entries, getLast?_rtake (by decide)] at hnew
  have hafter := (h.addLog line).entries
  rw [RecordsLine]
  cases hlog : ifLog line.text with
  | true =>
      rw [if_pos (.inl hlog), ← h.entries] at hafter
      simp only [hafter, reduceCtorEq, iff_false]
      intro heq
      have hend := congrArg List.getLast? heq
      rw [getLast?_rtake (by decide), List.getLast?_concat] at hend
      exact hnew hend
  | false =>
      rw [if_neg (by simp [hlog, hlast])] at hafter
      simp only [hafter, iff_true]
      rw [h.entries, rtake_concat]

/--
In every reachable history an accepted line that differs from the last entry is recorded exactly
if none of its words and file names has `log` in it.
-/
theorem add_log_records_iff (memory : Nat → List Char) (ops : List Op) (line : TypedLine)
    {cmd : ShellCmd (List Char)} (hcmd : parseLine line.text = some cmd)
    (hnew : ((runOps ops (loadLogs memory [])).entries maxLogs).getLast? ≠ some line.text) :
    RecordsLine (runOps ops (loadLogs memory [])) line.text ↔ Logless cmd := by
  rw [(records_runOps memory ops).recordsLine_iff line hnew, ifLog_eq_false_iff hcmd]

/-- The letters may stand in a line, but not next to each other. -/
theorem add_log_records_letters :
    RecordsLine (runOps [] (loadLogs (fun _ => []) [])) "cat 'l og' > lo|grep g".toList :=
  (add_log_records_iff (fun _ => []) []
    ⟨"cat 'l og' > lo|grep g".toList, by decide, by decide⟩
    (show parseLine "cat 'l og' > lo|grep g".toList = some _ from rfl) (by decide)).mpr (by decide)

/-- `cat blog.txt` runs no `log` and is not recorded. -/
theorem add_log_skips :
    (∃ cmd, parseLine "cat blog.txt".toList = some cmd ∧ NoLog cmd) ∧
      ((runOps [] (loadLogs (fun _ => []) [])).entries maxLogs).getLast? = none ∧
      ¬ RecordsLine (runOps [] (loadLogs (fun _ => []) [])) "cat blog.txt".toList :=
  ⟨⟨_, rfl, by decide⟩, by decide, by decide⟩

end OxyC.Shell
