import OxyC.Shell.HopPlaces

/-!
# Several targets at once

`hop` with several targets and a command for each of them go the same way, unless
`handle_hop` reads `-` while it has just written `~` to `last_dir`: only between
commands is that text replaced by the path.
-/

namespace OxyC.Shell

open OxyC.Foundation

section Site

variable {δ : Type} (S : Site δ)

def hopAll (targets : List (List Char)) : Command := .hop false ("hop".toList :: targets)

/-- Both sessions are in one directory, and their texts stand for the same directories. -/
def Together (s t : Session δ) : Prop := ∃ p, At S s p ∧ At S t p

def EndsAlike (s : Session δ) (targets : List (List Char)) : Prop :=
  Option.Rel (fun x y => Together S x.1 y.1) (execute S (hopAll targets) s)
    ((commandLoop S).run (targets.map hopOnce) s)

/-- A `-` that is read while `last_dir` is the text `~` leads where the path of the shell leads. -/
def Resolves (s : Session δ) (target : List Char) : Prop :=
  target = ['-'] → s.lastDir = ['~'] →
    Whereabouts.arrive S ⟨s.cwd, some S.home⟩ (S.tree.chdir s.cwd ['~']) =
      Whereabouts.arrive S ⟨s.cwd, some S.home⟩ (S.tree.chdir s.cwd S.shellHome)

instance [DecidableEq δ] (s : Session δ) (target : List Char) : Decidable (Resolves S s target) :=
  inferInstanceAs (Decidable (_ → _ → _))

variable {S} {s t : Session δ} {p : Whereabouts δ} {target : List Char}

theorem rel_together_iff {x y : Option (Session δ × List (Output δ))}
    {u v : Option (Whereabouts δ)} (hx : Option.Rel (fun a q => At S a.1 q) x u)
    (hy : Option.Rel (fun b q => At S b.1 q) y v) :
    Option.Rel (fun a b => Together S a.1 b.1) x y ↔ u = v := by
  constructor
  · intro h
    cases h with
    | none =>
        cases hx
        cases hy
        rfl
    | some htogether =>
        obtain ⟨q, hq, hq'⟩ := htogether
        cases hx with
        | some hu =>
            cases hy with
            | some hv => rw [hu.unique hq, hv.unique hq']
  · rintro rfl
    cases hx with
    | none =>
        cases hy
        exact .none
    | some hu =>
        cases hy with
        | some hv => exact .some ⟨_, hu, hv⟩

/-- The two ways of reading a target lead to one place exactly if it resolves. -/
theorem arrive_eq_iff (h : At S s p) :
    p.arrive S (enters S target s) = p.goTo S target ↔ Resolves S s target := by
  by_cases hback : target = ['-'] ∧ s.lastDir = ['~']
  · obtain ⟨htarget, htilde⟩ := hback
    have hlast : p.last = some S.home := by
      refine h.lastDir.unique ?_
      rw [htilde]
      exact .inr ⟨rfl, rfl⟩
    have hp : p = ⟨s.cwd, some S.home⟩ := by
      cases p
      simp_all [h.cwd]
    have hdash : ¬ (['-'] = ['~'] ∨ ['-'] = S.shellHome) := dash_not_home
    have hreads : enters S target s = S.tree.chdir s.cwd ['~'] := by
      rw [htarget, enters, if_neg hdash, if_pos rfl, if_neg (by rw [htilde]; decide), htilde]
    have hmeans : p.heads S target = S.tree.chdir s.cwd S.shellHome := by
      rw [htarget, Whereabouts.heads, if_neg hdash, if_pos rfl, hlast, ← h.cwd]
      rfl
    rw [Whereabouts.goTo, hreads, hmeans, hp]
    exact ⟨fun heq _ _ => heq, fun heq => heq htarget htilde⟩
  · have hother : target = ['-'] → s.lastDir ≠ ['~'] :=
      fun htarget htilde => hback ⟨htarget, htilde⟩
    rw [enters_eq h hother]
    exact iff_of_true rfl fun htarget htilde => absurd htilde (hother htarget)

theorem together_step (h : Together S s t) (target : List Char) :
    Option.Rel (fun x y => Together S x.1 y.1) ((hopTargets S).step target s)
      (((commandLoop S).comap hopOnce).step target t) ↔ Resolves S s target := by
  obtain ⟨p, hs, ht⟩ := h
  rw [← arrive_eq_iff hs]
  exact rel_together_iff (at_hopTarget hs target) (at_hopOnce ht target)

/-- What `main` does to `dir_name` behind `handle_hop` changes no name. -/
theorem rel_abbreviated_iff {x y : Option (Session δ × List (Output δ))}
    (hx : ∀ a, x = some a → ∃ p, At S a.1 p) :
    Option.Rel (fun a b => Together S a.1 b.1) (x.map fun a => (abbreviated S a.1, a.2)) y ↔
      Option.Rel (fun a b => Together S a.1 b.1) x y := by
  cases x with
  | none => rfl
  | some a =>
      obtain ⟨p, hp⟩ := hx a rfl
      constructor
      · intro h
        cases h with
        | some htogether =>
            obtain ⟨q, hq, hq'⟩ := htogether
            have heq : p = q := hp.abbreviated.unique hq
            exact .some ⟨p, hp, heq ▸ hq'⟩
      · intro h
        cases h with
        | some htogether =>
            obtain ⟨q, hq, hq'⟩ := htogether
            exact .some ⟨q, hq.abbreviated, hq'⟩

theorem endsAlike_iff (h : At S s p) (targets : List (List Char)) :
    EndsAlike S s targets ↔
      Option.Rel (fun x y => Together S x.1 y.1) ((hopTargets S).run targets (normal S s))
        (((commandLoop S).comap hopOnce).run targets s) := by
  rw [EndsAlike, hopAll, execute_hop, List.tail_cons, Mealy.run_comap]
  refine rel_abbreviated_iff fun a ha => ?_
  exact at_run_hopTargets targets h.normal ha

/--
From every reachable state the targets, and every list they begin with, lead to the same end at
once and one by one exactly if each `-` that is read with `~` in `last_dir` resolves.
-/
theorem hop_sequence_iff (S : Site δ) {commands : List Command} {outs : List (Output δ)}
    (hreached : (commandLoop S).run commands S.opening = some (s, outs))
    (targets : List (List Char)) :
    (∀ ts, ts <+: targets → EndsAlike S s ts) ↔
      (hopTargets S).Guarded (Resolves S) targets (normal S s) := by
  obtain ⟨p, hp⟩ := (somewhere_opening.run hreached).place
  simp only [endsAlike_iff hp]
  exact (hopTargets S).prefixes_rel_iff_guarded (R := Together S) _
    (fun target _ _ h => together_step h target) targets ⟨p, hp.normal, hp⟩

end Site

def thereAndBack : List (List Char) := [['/'], "/h".toList, ['-']]

theorem hop_sequence_there_and_back :
    EndsAlike homeBelowRoot homeBelowRoot.opening thereAndBack :=
  (hop_sequence_iff homeBelowRoot (show (commandLoop homeBelowRoot).run [] _ = _ from rfl)
    thereAndBack).mpr (by decide) thereAndBack (List.prefix_refl thereAndBack)

/-- Behind `hop ..` the text `~` is looked up as a name; two commands lead home again. -/
theorem hop_sequence_differs :
    (execute homeBelowRoot (hopAll ["..".toList, ['-']]) homeBelowRoot.opening).map (·.1.cwd) =
        some false ∧
      ((commandLoop homeBelowRoot).run (["..".toList, ['-']].map hopOnce)
        homeBelowRoot.opening).map (·.1.cwd) = some true ∧
      ¬ EndsAlike homeBelowRoot homeBelowRoot.opening ["..".toList, ['-']] := by
  have hsingle : (execute homeBelowRoot (hopAll ["..".toList, ['-']]) homeBelowRoot.opening).map
      (·.1.cwd) = some false := by decide
  have hmany : ((commandLoop homeBelowRoot).run (["..".toList, ['-']].map hopOnce)
      homeBelowRoot.opening).map (·.1.cwd) = some true := by decide
  refine ⟨hsingle, hmany, fun h => ?_⟩
  rw [EndsAlike] at h
  cases h with
  | some htogether =>
      obtain ⟨p, hp, hp'⟩ := htogether
      exact absurd (hp.cwd.trans hp'.cwd.symm) (by decide)

end OxyC.Shell
