import OxyC.Shell.LogExecuteErrors
import OxyC.Shell.Prompt

/-!
# Where a replayed line comes from

`update_logs` writes `logs.txt` in the directory of the shell, and `get_in` opens
the file of that name in the current one.  A line such as `hop x ; log execute 1`
is not recorded itself, so any hops may stand between a history and its replay.
-/

namespace OxyC.Shell

open OxyC.Foundation

section Site

variable {δ : Type} [DecidableEq δ] (S : Site δ)

/-- The `logs.txt` of each directory, `none` where there is none. -/
abbrev LogFiles (δ : Type) := δ → Option (List Char)

/-- `update_logs`, which goes by the path of the shell. -/
def writeLogs (logs : Logs) (files : LogFiles δ) : LogFiles δ :=
  Function.update files S.home (some (updateLogs logs))

/-- The words of the hop commands, one after the other. -/
def runHops (hops : List (List (List Char))) (s : Session δ) :
    Option (Session δ × List (Output δ)) :=
  (commandLoop S).run (hops.map (.hop false)) s

/-- `log execute arg` where the hops have led. -/
def replayAfter (hops : List (List (List Char))) (s : Session δ) (site : LogSite)
    (arg : List Char) (logs : Logs) (files : LogFiles δ) : Option LogOutcome :=
  (runHops S hops s).map fun x => site.outcome arg logs (files x.1.cwd)

/-- Whatever was recorded, both sequences of hops lead to the same replay, with the files of the
first and of the second world. -/
def ReplaysAlike (worlds : LogFiles δ → LogFiles δ → Prop) (s : Session δ)
    (hops₁ hops₂ : List (List (List Char))) : Prop :=
  ∀ (memory : Nat → List Char) (ops : List Op) (logs : Logs),
    runOps ops (loadLogs memory []) = logs → ∀ (site : LogSite) (arg : List Char) files₁ files₂,
      worlds files₁ files₂ →
        replayAfter S hops₁ s site arg logs (writeLogs S logs files₁) =
          replayAfter S hops₂ s site arg logs (writeLogs S logs files₂)

/-- The same of two directories. -/
def ReadsAlike (worlds : LogFiles δ → LogFiles δ → Prop) (d₁ d₂ : δ) : Prop :=
  ∀ (memory : Nat → List Char) (ops : List Op) (logs : Logs),
    runOps ops (loadLogs memory []) = logs → ∀ (site : LogSite) (arg : List Char) files₁ files₂,
      worlds files₁ files₂ →
        site.outcome arg logs (writeLogs S logs files₁ d₁) =
          site.outcome arg logs (writeLogs S logs files₂ d₂)

variable {S} {worlds : LogFiles δ → LogFiles δ → Prop} {d₁ d₂ : δ}

/-- A history of one line is enough to tell two files apart. -/
theorem not_readsAlike {files₁ files₂ : LogFiles δ}
    (hworlds : worlds files₁ files₂)
    (h : (files₁ d₁ = some ['b', '\n'] ∧ d₁ ≠ S.home ∧ files₂ d₂ = some ['a', '\n']) ∨
      (files₁ d₁ = some ['a', '\n'] ∧ files₂ d₂ = some ['b', '\n'] ∧ d₂ ≠ S.home)) :
    ¬ ReadsAlike S worlds d₁ d₂ := by
  intro halike
  have hwritten : updateLogs (runOps (typedChars ['a']) (loadLogs (fun _ => []) [])) =
      ['a', '\n'] := by decide
  have hread : ∀ (files : LogFiles δ) (d : δ), files d = some ['a', '\n'] →
      writeLogs S (runOps (typedChars ['a']) (loadLogs (fun _ => []) [])) files d =
        some ['a', '\n'] := by
    intro files d hfile
    rw [writeLogs, hwritten, Function.update_apply]
    split
    · rfl
    · exact hfile
  have hsame := halike (fun _ => []) (typedChars ['a']) _ rfl .main ['1'] files₁ files₂ hworlds
  rcases h with ⟨hfirst, hne, hsecond⟩ | ⟨hfirst, hsecond, hne⟩
  · rw [hread _ _ hsecond, writeLogs, Function.update_of_ne hne, hfirst] at hsame
    exact absurd hsame (by decide)
  · rw [hread _ _ hfirst, writeLogs, Function.update_of_ne hne, hsecond] at hsame
    exact absurd hsame (by decide)

theorem replaysAlike_iff {hops₁ hops₂ : List (List (List Char))} {s s₁ s₂ : Session δ}
    {out₁ out₂ : List (Output δ)} (h₁ : runHops S hops₁ s = some (s₁, out₁))
    (h₂ : runHops S hops₂ s = some (s₂, out₂)) :
    ReplaysAlike S worlds s hops₁ hops₂ ↔ ReadsAlike S worlds s₁.cwd s₂.cwd := by
  simp only [ReplaysAlike, ReadsAlike, replayAfter, h₁, h₂, Option.map_some, Option.some.injEq]

theorem readsAlike_any_iff :
    ReadsAlike S (fun _ _ => True) d₁ d₂ ↔ d₁ = S.home ∧ d₂ = S.home := by
  constructor
  · intro halike
    by_contra haway
    rw [not_and_or] at haway
    have hfile (d : δ) (text : List Char) : ∃ files : LogFiles δ, files d = some text :=
      ⟨fun _ => some text, rfl⟩
    obtain ⟨filesA₁, hA₁⟩ := hfile d₁ ['a', '\n']
    obtain ⟨filesB₁, hB₁⟩ := hfile d₁ ['b', '\n']
    obtain ⟨filesA₂, hA₂⟩ := hfile d₂ ['a', '\n']
    obtain ⟨filesB₂, hB₂⟩ := hfile d₂ ['b', '\n']
    cases haway with
    | inl hne => exact not_readsAlike trivial (.inl ⟨hB₁, hne, hA₂⟩) halike
    | inr hne => exact not_readsAlike trivial (.inr ⟨hA₁, hB₂, hne⟩) halike
  · rintro ⟨rfl, rfl⟩ memory ops logs - site arg files₁ files₂ -
    rw [writeLogs, writeLogs, Function.update_self, Function.update_self]

theorem readsAlike_same_iff :
    ReadsAlike S (fun files₁ files₂ => files₁ = files₂) d₁ d₂ ↔ d₁ = d₂ := by
  constructor
  · intro halike
    by_contra hne
    have hsplit : ∀ d : δ, d ≠ S.home → ∃ files : LogFiles δ, files d = some ['b', '\n'] ∧
        ∀ d', d' ≠ d → files d' = some ['a', '\n'] := by
      intro d _
      exact ⟨Function.update (fun _ => some ['a', '\n']) d (some ['b', '\n']),
        Function.update_self .., fun d' hd' => Function.update_of_ne hd' ..⟩
    by_cases hhome : d₁ = S.home
    · have haway : d₂ ≠ S.home := fun h => hne (hhome.trans h.symm)
      obtain ⟨files, hthere, helse⟩ := hsplit d₂ haway
      exact not_readsAlike rfl (.inr ⟨helse _ hne, hthere, haway⟩) halike
    · obtain ⟨files, hthere, helse⟩ := hsplit d₁ hhome
      exact not_readsAlike rfl (.inl ⟨hthere, hhome, helse _ (Ne.symm hne)⟩) halike
  · rintro rfl memory ops logs - site arg files₁ files₂ rfl
    rfl

/-- Two sequences of hops leave the replay alone exactly if both end in the directory of the
shell; with the same files in both runs they may also end in one other directory. -/
theorem replay_after_hops_iff (S : Site δ) {hops₁ hops₂ : List (List (List Char))}
    {s s₁ s₂ : Session δ} {out₁ out₂ : List (Output δ)} (h₁ : runHops S hops₁ s = some (s₁, out₁))
    (h₂ : runHops S hops₂ s = some (s₂, out₂)) :
    (ReplaysAlike S (fun _ _ => True) s hops₁ hops₂ ↔ s₁.cwd = S.home ∧ s₂.cwd = S.home) ∧
      (ReplaysAlike S (fun files₁ files₂ => files₁ = files₂) s hops₁ hops₂ ↔
        s₁.cwd = s₂.cwd) := by
  rw [replaysAlike_iff h₁ h₂, replaysAlike_iff h₁ h₂]
  exact ⟨readsAlike_any_iff, readsAlike_same_iff⟩

end Site

/-- The root, and below it the directory `/h` of the shell. -/
def twoDirs : DirTree Bool where
  lookup d t :=
    if t = "/h".toList ∨ t = ['h'] ∧ d = false then some true
    else if t = ['/'] ∨ t = "..".toList then some false else none
  enterable _ := true
  readable _ := true
  path d := if d then "/h".toList else ['/']
  path_injective := by
    intro d d' h
    cases d <;> cases d' <;> first | rfl | cases h
  head_path := by decide
  lookup_absolute := by
    intro t ht d d'
    have hrel : t ≠ ['h'] := by
      rintro rfl
      cases ht
    simp [hrel]
  eq_of_lookup_path := by decide
  parent_prefix := by decide

def twoDirsSite : Site Bool := ⟨twoDirs, true, by decide⟩

def hopOutAndHome : List (List (List Char)) :=
  [["hop".toList, "..".toList], ["hop".toList, "~".toList]]

theorem replay_after_hop_home :
    ReplaysAlike twoDirsSite (fun _ _ => True) twoDirsSite.opening [] hopOutAndHome := by
  have h₁ : runHops twoDirsSite [] twoDirsSite.opening = some (twoDirsSite.opening, []) := rfl
  have h₂ : runHops twoDirsSite hopOutAndHome twoDirsSite.opening =
      some (⟨true, ['~'], ['/'], []⟩, []) := rfl
  exact (replay_after_hops_iff twoDirsSite h₁ h₂).1.mpr ⟨rfl, rfl⟩

/-- Behind `hop ..` the file of another directory is read, or none. -/
theorem replay_after_hop_out :
    ∃ (S : Site Bool) (hops : List (List (List Char))) (files : LogFiles Bool) (logs : Logs),
      runOps (typedChars ['a']) (loadLogs (fun _ => []) []) = logs ∧
      replayAfter S [] S.opening .main ['1'] logs (writeLogs S logs files) =
        some (.tokenized (some "a\n".toList)) ∧
      replayAfter S hops S.opening .main ['1'] logs (writeLogs S logs files) =
        some (.tokenized (some "b\n".toList)) :=
  ⟨twoDirsSite, [["hop".toList, "..".toList]], fun _ => some "b\n".toList, _, rfl, by decide,
    by decide⟩

end OxyC.Shell
