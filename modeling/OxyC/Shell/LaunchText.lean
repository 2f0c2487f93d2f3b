import OxyC.Shell.History
import OxyC.Shell.Jobs
import Mathlib.Data.List.Flatten

/-!
# The text of a background job

Every word of the background prefix stands in the typed line with a character
behind it that belongs to no word, so the words fit into `cmdline` as `do_in_bg`
writes them there.
-/

namespace OxyC.Shell

def cmdlineSize : Nat := 1024

@[simp] theorem cmdlineOf_nil : cmdlineOf [] = [] := rfl

@[simp] theorem length_cmdlineOf_cons (text : List Char) (args : List (List Char)) :
    (cmdlineOf (text :: args)).length = text.length + 1 + (cmdlineOf args).length := by
  simp [cmdlineOf]
  omega

theorem length_cmdlineOf_perm {args args' : List (List Char)} (h : args.Perm args') :
    (cmdlineOf args).length = (cmdlineOf args').length :=
  (h.flatMap_right _).length_eq

theorem length_cmdlineOf_sublist {args args' : List (List Char)} (h : args.Sublist args') :
    (cmdlineOf args).length ≤ (cmdlineOf args').length :=
  (h.flatMap _).length_le

/-! ## Words and what stands behind them -/

theorem inWord_of_isQuote {c : Char} (h : isQuote c = true) : inWord c = true := by
  simp only [isQuote, Bool.or_eq_true, beq_iff_eq] at h
  rcases h with rfl | rfl <;> decide

/-- A token that is no word, a quoted word, or a word up to a character outside words. -/
theorem scan_cases {c : Char} {p : List Char} (h : isSpace c = false) :
    ((scan c p).1.text? = none ∧ inWord c = false) ∨
      ∃ text, (scan c p).1 = .name text ∧ inWord c = true ∧
        (text.length + 1 + (scan c p).2.length ≤ (c :: p).length ∨
          text.length + (scan c p).2.length = (c :: p).length ∧
            ∀ d ∈ (scan c p).2.head?, inWord d = false) := by
  unfold scan
  split
  next hc => exact .inl ⟨rfl, by rw [hc]; decide⟩
  split
  next hc => exact .inl ⟨rfl, by rw [hc]; decide⟩
  split
  next hc => exact .inl ⟨rfl, by rw [hc]; decide⟩
  split
  next hc =>
      refine .inl ⟨?_, by rw [hc]; decide⟩
      split <;> rfl
  split
  next hc => exact .inl ⟨rfl, by rw [hc]; decide⟩
  split
  next hquote =>
      refine .inr ⟨_, rfl, inWord_of_isQuote hquote, .inl ?_⟩
      have hlength := congrArg List.length (List.takeWhile_append_dropWhile (p := (· != c)) (l := p))
      simp only [List.length_append] at hlength
      simp only [List.length_drop, List.length_cons]
      omega
  next =>
      have hword : inWord c = true := by simp_all [inWord]
      refine .inr ⟨_, rfl, hword, .inr ⟨?_, ?_⟩⟩
      · rw [← List.length_append, List.takeWhile_append_dropWhile]
      · intro d hd
        have := List.head?_dropWhile_not inWord (c :: p)
        simp_all

theorem names_cons_of_none {t : Token (List Char)} (h : t.text? = none)
    (ts : List (Token (List Char))) : names (t :: ts) = names ts := by
  simp [names, h]

theorem names_cons_name (text : List Char) (ts : List (Token (List Char))) :
    names (.name text :: ts) = text :: names ts := rfl

/--
The words in front of an `&`, with a blank behind each, are no longer than the
line; where the line does not begin with a word there is a character to spare.
-/
theorem length_names_before_amp (s : List Char) :
    ∀ front rest, tokenize s = front ++ .amp :: rest →
      (cmdlineOf (names front)).length ≤ s.length ∧
        ((∀ c ∈ s.head?, inWord c = false) →
          (cmdlineOf (names front)).length + 1 ≤ s.length) := by
  induction s using tokenize_induction with
  | nil =>
      intro front rest h
      have hmem : (.amp : Token (List Char)) ∈ tokenize [] := h ▸ by simp
      simp at hmem
  | space c p hspace ih =>
      intro front rest h
      rw [tokenize_space hspace] at h
      have hle := (ih front rest h).1
      simp only [List.length_cons]
      exact ⟨by omega, fun _ => by omega⟩
  | token c p hspace ih =>
      intro front rest h
      rw [tokenize_token hspace] at h
      have hrest : (scan c p).2.length ≤ p.length := scan_length_le hspace
      cases front with
      | nil => simp [names]
      | cons t front =>
          simp only [List.cons_append, List.cons.injEq] at h
          obtain ⟨rfl, h⟩ := h
          obtain ⟨hle, hspare⟩ := ih front rest h
          rcases scan_cases (p := p) hspace with
            ⟨hnone, -⟩ | ⟨text, hname, hword, hquoted | ⟨hlength, hhead⟩⟩
          · rw [names_cons_of_none hnone, List.length_cons]
            exact ⟨by omega, fun _ => by omega⟩
          · rw [hname, names_cons_name, length_cmdlineOf_cons]
            exact ⟨by omega, fun hc => by simp [hword] at hc⟩
          · have hspare := hspare hhead
            rw [hname, names_cons_name, length_cmdlineOf_cons]
            exact ⟨by omega, fun hc => by simp [hword] at hc⟩

/-! ## The background prefix -/

section Prefix

variable {sc : ShellCmd (List Char)} {whole ts : List (Token (List Char))}

theorem bgArgs_sublist (sc : ShellCmd (List Char)) : (bgArgs sc).Sublist sc.texts := by
  have hatoms : ∀ g ∈ sc.groups, (g.atoms.flatMap Atomic.argv).Sublist g.texts := fun g _ =>
    .flatMap_right _ fun _ _ => List.sublist_append_left _ _
  exact ((List.take_sublist _ _).flatMap _).trans (.flatMap_right _ hatoms)

theorem bgArgs_push (h : sc.WellFormed) (g : CmdGroup (List Char)) (type : TokenType) :
    bgArgs (sc.push g type) = bgArgs sc := by
  have hle := h.bgUntil_le
  simp only [bgArgs, ShellCmd.push]
  rw [List.take_append_of_le_length (by omega)]

/-- Some `&` has all the words of the background prefix in front of it. -/
def AmpBehind (whole : List (Token (List Char))) (sc : ShellCmd (List Char)) : Prop :=
  ∃ front rest, whole = front ++ .amp :: rest ∧
    (cmdlineOf (bgArgs sc)).length ≤ (cmdlineOf (names front)).length

theorem ampBehind_of_reads (h : Reads [] whole sc.texts (.amp :: ts)) : AmpBehind whole sc := by
  obtain ⟨front, rfl⟩ := h.suffix
  have hnames : names (front ++ .amp :: ts) = names front ++ names (.amp :: ts) := by simp [names]
  have hperm := h.perm
  rw [List.nil_append, hnames, List.perm_append_right_iff] at hperm
  refine ⟨front, ts, rfl, ?_⟩
  rw [← length_cmdlineOf_perm hperm]
  exact length_cmdlineOf_sublist (bgArgs_sublist sc)

theorem ampBehind_shellRound (hreads : Reads [] whole sc.texts ts) (hformed : sc.WellFormed)
    (h : sc.bgUntil ≠ -1 → AmpBehind whole sc)
    (hset : (shellRound sc ts).1.value.bgUntil ≠ -1) :
    AmpBehind whole (shellRound sc ts).1.value := by
  have hpush : ∀ type, (sc.push (parseCmdGroup ts).value type).bgUntil ≠ -1 →
      AmpBehind whole (sc.push (parseCmdGroup ts).value type) := by
    intro type hset
    obtain ⟨front, rest, hwhole, hle⟩ := h hset
    exact ⟨front, rest, hwhole, by rwa [bgArgs_push hformed]⟩
  unfold shellRound at hset ⊢
  dsimp only at hset ⊢
  split at hset
  · exact hpush .semi hset
  · exact hpush .andAnd hset
  next rest hrest =>
      have hgroup := hreads.trans (reads_parseCmdGroup ts).append
      rw [← ShellCmd.texts_push _ .amp, hrest] at hgroup
      by_cases hbefore : sc.bgUntil = -1
      · exact ampBehind_of_reads hgroup
      · have hbg : bgArgs (sc.pushAmp (parseCmdGroup ts).value) =
            bgArgs (sc.push (parseCmdGroup ts).value .amp) := by
          simp [ShellCmd.pushAmp, bgArgs, ShellCmd.push, hbefore]
        obtain ⟨front, rest', hwhole, hle⟩ := hpush .amp hbefore
        exact ⟨front, rest', hwhole, by rwa [hbg]⟩
  · exact hpush .eof hset

theorem ampBehind_shellLoop (fuel : Nat) (hreads : Reads [] whole sc.texts ts)
    (hformed : sc.WellFormed) (h : sc.bgUntil ≠ -1 → AmpBehind whole sc)
    (hset : (shellLoop fuel sc ts).value.bgUntil ≠ -1) :
    AmpBehind whole (shellLoop fuel sc ts).value := by
  induction fuel generalizing sc ts with
  | zero => exact h hset
  | succ fuel ih =>
      unfold shellLoop at hset ⊢
      split at hset
      next heof =>
          rw [if_pos heof]
          exact h hset
      next heof =>
          rw [if_neg heof]
          dsimp only at hset ⊢
          split at hset
          next hleaves =>
              rw [if_pos hleaves]
              exact ampBehind_shellRound hreads hformed h hset
          next hleaves =>
              rw [if_neg hleaves]
              exact ih (hreads.trans (reads_shellRound sc ts)) (hformed.shellRound ts)
                (ampBehind_shellRound hreads hformed h) hset

end Prefix

theorem length_cmdlineOf_bgArgs_le {line : List Char} {cmd : ShellCmd (List Char)}
    (h : parseLine line = some cmd) (hset : cmd.bgUntil ≠ -1) :
    (cmdlineOf (bgArgs cmd)).length ≤ line.length := by
  obtain ⟨-, rfl⟩ := parseLine_eq_some h
  obtain ⟨front, rest, htokens, hle⟩ := ampBehind_shellLoop _ (Reads.refl [] _)
    ShellCmd.WellFormed.empty (fun hnot => absurd rfl hnot) hset
  exact hle.trans (length_names_before_amp line front rest htokens).1

/-- The two `strcat` of `do_in_bg` stay inside `cmdline`, with the NUL behind. -/
theorem length_cmdlineOf_bgArgs_lt {line : TypedLine} {cmd : ShellCmd (List Char)}
    (h : parseLine line.text = some cmd) (hset : cmd.bgUntil ≠ -1) :
    (cmdlineOf (bgArgs cmd)).length < cmdlineSize :=
  Nat.lt_of_le_of_lt (length_cmdlineOf_bgArgs_le h hset) line.length_lt

/-! ## The buffer -/

/-- `strcat` into an array of `size` bytes that holds `buffer`; `none` when it writes behind it. -/
def strcat (size : Nat) (buffer text : List Char) : Option (List Char) :=
  if (buffer ++ text).length < size then some (buffer ++ text) else none

/-- The body of the innermost loop. -/
def addWord (buffer word : List Char) : Option (List Char) := do
  let buffer ← strcat cmdlineSize buffer word
  strcat cmdlineSize buffer [' ']

/-- The three loops of `do_in_bg` over `cmdline`, which is empty before. -/
def writeCmdline (cmd : ShellCmd (List Char)) : Option (List Char) :=
  (cmd.groups.take cmd.bgUntil.toNat).foldlM
    (fun buffer g => g.atoms.foldlM (fun buffer a => a.argv.foldlM addWord buffer) buffer) []

theorem addWord_eq {buffer word : List Char} (h : (buffer ++ word ++ [' ']).length < cmdlineSize) :
    addWord buffer word = some (buffer ++ word ++ [' ']) := by
  have hword : (buffer ++ word).length < cmdlineSize := by
    rw [List.length_append] at h
    omega
  simp only [addWord, strcat, hword, if_true, Option.bind_eq_bind, Option.bind_some, h]

theorem foldlM_addWord {words : List (List Char)} {buffer : List Char}
    (h : (buffer ++ cmdlineOf words).length < cmdlineSize) :
    words.foldlM addWord buffer = some (buffer ++ cmdlineOf words) := by
  induction words generalizing buffer with
  | nil => simp
  | cons word words ih =>
      have hsplit : buffer ++ cmdlineOf (word :: words) =
          buffer ++ word ++ [' '] ++ cmdlineOf words := by simp [cmdlineOf]
      rw [hsplit] at h ⊢
      have hfirst : (buffer ++ word ++ [' ']).length < cmdlineSize := by
        rw [List.length_append] at h
        omega
      rw [List.foldlM_cons, addWord_eq hfirst]
      exact ih h

theorem foldlM_flatMap_eq {α β γ : Type*} (f : γ → β → Option γ) (words : α → List β)
    (as : List α) (c : γ) :
    as.foldlM (fun c a => (words a).foldlM f c) c = (as.flatMap words).foldlM f c := by
  induction as generalizing c with
  | nil => rfl
  | cons a as ih => simp only [List.foldlM_cons, List.flatMap_cons, List.foldlM_append, ih]

theorem writeCmdline_eq_foldlM (cmd : ShellCmd (List Char)) :
    writeCmdline cmd = (bgArgs cmd).foldlM addWord [] := by
  simp only [writeCmdline, foldlM_flatMap_eq, bgArgs]

/-- The text of a job and the NUL behind it fit into `cmdline`. -/
theorem writeCmdline_fits {line : List Char} {cmd : ShellCmd (List Char)}
    (hline : line.length ≤ 1023) (h : parseLine line = some cmd) (hset : cmd.bgUntil ≠ -1) :
    writeCmdline cmd = some (cmdlineOf (bgArgs cmd)) ∧
      (cmdlineOf (bgArgs cmd)).length ≤ 1023 := by
  have hle := (length_cmdlineOf_bgArgs_le h hset).trans hline
  refine ⟨?_, hle⟩
  rw [writeCmdline_eq_foldlM, foldlM_addWord]
  · rw [List.nil_append]
  · exact Nat.lt_succ_of_le hle

/-- The text is as long as the line. -/
theorem writeCmdline_fits_two :
    ∃ cmd, parseLine ['a', '&'] = some cmd ∧ writeCmdline cmd = some ['a', ' '] ∧
      (cmdlineOf (bgArgs cmd)).length ≤ 1023 := by
  have hline : ['a', '&'].length ≤ 1023 := by decide
  exact ⟨_, rfl, writeCmdline_fits hline rfl (by decide)⟩

end OxyC.Shell
