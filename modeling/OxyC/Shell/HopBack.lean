import OxyC.Shell.HopPlaces

/-!
# There and back

`hop -` exchanges the current directory and the one before it.  `handle_hop`
writes the path of the directory it arrives in to `dir_name`, which
`make_init_dir_name` has allocated for the prompt of the first line; the path of
the directory that the shell was started in need not fit.
-/

namespace OxyC.Shell

open OxyC.Foundation

section Site

variable {δ : Type} (S : Site δ)

/-- `hop -` exchanges the two directories, and once more exchanges them back. -/
def SwapsTwice (s : Session δ) : Prop :=
  ∃ cwd last s₁ out₁ s₂ out₂,
    execute S (hopOnce ['-']) s = some (s₁, out₁) ∧
    execute S (hopOnce ['-']) s₁ = some (s₂, out₂) ∧
    At S s ⟨cwd, some last⟩ ∧ At S s₁ ⟨last, some cwd⟩ ∧ At S s₂ ⟨cwd, some last⟩

/-- Behind the first hop the current directory is one whose path was written to `dir_name`. -/
structure Hopped (s : Session δ) (p : Whereabouts δ) : Prop where
  place : At S s p
  fits : p.last ≠ none → (S.tree.path p.cwd).length < dirNameSize

instance [DecidableEq δ] (text : List Char) (d : δ) : Decidable (Names S text d) :=
  inferInstanceAs (Decidable (_ ∨ _))

variable {S} {s s' : Session δ} {p q : Whereabouts δ} {target : List Char} {out : List (Output δ)}
  {cwd last : δ}

theorem fits_goTo (h : p.last ≠ none → (S.tree.path p.cwd).length < dirNameSize)
    (hgo : p.goTo S target = some q) :
    q.last ≠ none → (S.tree.path q.cwd).length < dirNameSize := by
  rw [Whereabouts.goTo] at hgo
  cases hheads : p.heads S target with
  | none =>
      rw [hheads] at hgo
      cases hgo
      exact h
  | some d =>
      rw [hheads, Whereabouts.arrive] at hgo
      split at hgo
      next hfits =>
          cases hgo
          exact fun _ => hfits
      next => cases hgo

theorem Hopped.step (h : Hopped S s p)
    (hstep : execute S (hopOnce target) s = some (s', out)) : ∃ q, Hopped S s' q := by
  have hrel := at_hopOnce h.place target
  rw [hstep] at hrel
  cases hgo : p.goTo S target with
  | none =>
      rw [hgo] at hrel
      cases hrel
  | some q =>
      rw [hgo] at hrel
      cases hrel with
      | some hat => exact ⟨q, hat, fits_goTo h.fits hgo⟩

theorem hopped_of_run {targets : List (List Char)} {outs : List (Output δ)}
    (hrun : (commandLoop S).run (targets.map hopOnce) S.opening = some (s, outs)) :
    ∃ p, Hopped S s p := by
  rw [← Mealy.run_comap] at hrun
  refine Mealy.run_invariant _ (P := fun s => ∃ p, Hopped S s p) ?_ ?_ hrun
  · rintro target s s' out ⟨p, hs⟩ hstep
    exact hs.step hstep
  · exact ⟨_, at_opening, fun h => absurd rfl h⟩

/-! ## One exchange -/

theorem goTo_dash (haccess : S.tree.Accessible) :
    Whereabouts.goTo S ['-'] ⟨cwd, some last⟩ =
      if (S.tree.path last).length < dirNameSize then some ⟨last, some cwd⟩ else none := by
  rw [Whereabouts.goTo, Whereabouts.heads, if_neg dash_not_home, if_pos rfl, Option.bind_some,
    haccess cwd last]
  rfl

theorem exchange (haccess : S.tree.Accessible) (h : At S s ⟨cwd, some last⟩)
    (hfits : (S.tree.path last).length < dirNameSize) :
    ∃ s' out, execute S (hopOnce ['-']) s = some (s', out) ∧ At S s' ⟨last, some cwd⟩ := by
  have hrel := at_hopOnce h ['-']
  rw [goTo_dash haccess, if_pos hfits] at hrel
  generalize execute S (hopOnce ['-']) s = x at hrel ⊢
  cases hrel with
  | some hat => exact ⟨_, _, rfl, hat⟩

theorem no_exchange (haccess : S.tree.Accessible) (h : At S s ⟨cwd, some last⟩)
    (hlong : ¬ (S.tree.path last).length < dirNameSize) :
    execute S (hopOnce ['-']) s = none := by
  have hrel := at_hopOnce h ['-']
  rw [goTo_dash haccess, if_neg hlong] at hrel
  generalize execute S (hopOnce ['-']) s = x at hrel ⊢
  cases hrel
  rfl

theorem swapsTwice_iff (haccess : S.tree.Accessible) (h : Hopped S s ⟨cwd, some last⟩) :
    SwapsTwice S s ↔ (S.tree.path last).length < dirNameSize := by
  constructor
  · rintro ⟨-, -, s₁, out₁, -, -, hfirst, -⟩
    by_contra hlong
    rw [no_exchange haccess h.place hlong] at hfirst
    cases hfirst
  · intro hfits
    obtain ⟨s₁, out₁, hfirst, h₁⟩ := exchange haccess h.place hfits
    obtain ⟨s₂, out₂, hsecond, h₂⟩ := exchange haccess h₁ (h.fits (by simp))
    exact ⟨cwd, last, s₁, out₁, s₂, out₂, hfirst, hsecond, h.place, h₁, h₂⟩

/-- `hop -` goes there and back exactly if the path of the previous directory fits into
`dir_name`. -/
theorem hop_back_iff (S : Site δ) (haccess : S.tree.Accessible) {targets : List (List Char)}
    {outs : List (Output δ)}
    (hreached : (commandLoop S).run (targets.map hopOnce) S.opening = some (s, outs))
    (hstored : s.lastDir ≠ []) :
    SwapsTwice S s ↔ ∀ d, Names S s.lastDir d → (S.tree.path d).length < dirNameSize := by
  obtain ⟨⟨cwd, last⟩, h⟩ := hopped_of_run hreached
  cases last with
  | none => exact absurd h.place.lastDir hstored
  | some last =>
      have hnames : Names S s.lastDir last := h.place.lastDir
      rw [swapsTwice_iff haccess h]
      constructor
      · intro hfits d hd
        rwa [hd.unique hnames]
      · intro hall
        exact hall last hnames

end Site

theorem hop_back_home : SwapsTwice homeBelowRoot ⟨false, ['/'], ['~'], []⟩ :=
  (hop_back_iff homeBelowRoot (DirTree.accessible_below (by decide))
    (show (commandLoop homeBelowRoot).run (["..".toList].map hopOnce) _ = some (_, _) from rfl)
    (by decide)).mpr (by decide)

theorem named_replicate (n : Nat) :
    List.replicate (n + 1) 'h' ≠ [] ∧ (List.replicate (n + 1) 'h').head? ≠ some '/' ∧
      List.replicate (n + 1) 'h' ≠ ['.', '.'] := by
  rw [List.replicate_succ]
  exact ⟨by simp, by simp, by simp⟩

/-- The path of this directory fits where it is read at the start, but not into `dir_name`. -/
def longHome : Site Bool where
  tree := DirTree.below (List.replicate (998 + 1) 'h') (named_replicate 998)
  home := true
  fits := by
    have hlength : (List.replicate (998 + 1) 'h').length + 1 < cwdSize := by
      rw [List.length_replicate]
      decide
    exact hlength

theorem goTo_root :
    Whereabouts.goTo longHome ['/'] ⟨true, none⟩ = some ⟨false, some true⟩ := by
  have hhome : ¬ (['/'] = ['~'] ∨ ['/'] = longHome.shellHome) := by decide
  have hroot : longHome.tree.chdir true ['/'] = some false := by decide
  rw [Whereabouts.goTo, Whereabouts.heads, if_neg hhome, if_neg (by decide), hroot]
  rfl

/-- The way back from the root overwrites the end of `dir_name`. -/
theorem hop_back_overflows :
    longHome.tree.Accessible ∧
      ∃ s outs, (commandLoop longHome).run ([['/']].map hopOnce) longHome.opening = some (s, outs) ∧
        s.lastDir ≠ [] ∧ execute longHome (hopOnce ['-']) s = none ∧ ¬ SwapsTwice longHome s := by
  have haccess : longHome.tree.Accessible := DirTree.accessible_below (named_replicate 998)
  have hlong : ¬ (longHome.tree.path true).length < dirNameSize := by
    have hlength : (longHome.tree.path true).length = 1000 := by
      simp only [longHome, DirTree.below, if_true, List.length_cons,
        List.length_replicate]
    rw [hlength]
    decide
  have hrel := at_hopOnce (at_opening (S := longHome)) ['/']
  have hgo : Whereabouts.goTo longHome ['/'] ⟨longHome.home, none⟩ = some ⟨false, some true⟩ :=
    goTo_root
  rw [hgo] at hrel
  cases hout : execute longHome (hopOnce ['/']) longHome.opening with
  | none =>
      rw [hout] at hrel
      cases hrel
  | some x =>
      obtain ⟨s, out⟩ := x
      rw [hout] at hrel
      cases hrel with
      | some hat =>
          have hnone := no_exchange haccess hat hlong
          refine ⟨haccess, s, out ++ [], ?_, Names.ne_nil hat.lastDir, hnone, ?_⟩
          · exact (commandLoop longHome).run_cons_eq_some.mpr ⟨s, out, [], hout, rfl, rfl⟩
          · rintro ⟨-, -, s₁, out₁, -, -, hfirst, -⟩
            rw [hnone] at hfirst
            cases hfirst

end OxyC.Shell
