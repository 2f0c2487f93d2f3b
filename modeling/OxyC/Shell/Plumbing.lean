import OxyC.Foundation.Descriptors
import OxyC.Shell.Parse

/-!
# The descriptors of a pipeline

`execute_pipeline` up to the commands of its stages, with every `pipe`, `fork`
and `open` successful.  A stage waits for the writer of its input redirections
before it goes on, so the writer is gone when the command starts.
-/

namespace OxyC.Shell

open OxyC.Foundation

section Model

variable {ρ τ : Type*}

/-- What stands behind a descriptor: what the shell had open, an end of the pipe `k`, an end of
the pipe for the input redirections, or an output file. -/
inductive Desc (ρ τ : Type*) where
  | inherited (x : ρ)
  | readEnd (k : Nat)
  | writeEnd (k : Nat)
  | inputRead
  | inputWrite
  | outfile (file : τ)
  deriving DecidableEq, Repr

def Desc.isEnd : Desc ρ τ → Bool
  | .readEnd _ => true
  | .writeEnd _ => true
  | _ => false

/-- `pipes`, from the pipe `k` on. -/
def createPipes : Nat → Nat → Descriptors (Desc ρ τ) → List (Nat × Nat) × Descriptors (Desc ρ τ)
  | 0, _, t => ([], t)
  | m + 1, k, t =>
      let (ends, t) := t.pipe (.readEnd k) (.writeEnd k)
      let (pipes, t) := createPipes m (k + 1) t
      (ends :: pipes, t)

def connectInput (pipes : List (Nat × Nat)) (a : Nat) (t : Descriptors (Desc ρ τ)) :
    Descriptors (Desc ρ τ) :=
  if 0 < a then t.dup2 (pipes.getD (a - 1) (0, 0)).1 0 else t

def connectOutput (pipes : List (Nat × Nat)) (n a : Nat) (t : Descriptors (Desc ρ τ)) :
    Descriptors (Desc ρ τ) :=
  if a < n - 1 then t.dup2 (pipes.getD a (0, 0)).2 1 else t

def redirectInput (at' : Atomic τ) (t : Descriptors (Desc ρ τ)) : Descriptors (Desc ρ τ) :=
  if 0 < at'.infiles.length then
    let (pipefd, t) := t.pipe .inputRead .inputWrite
    ((t.close pipefd.2).dup2 pipefd.1 0).close pipefd.1
  else t

def openOutfile (t : Descriptors (Desc ρ τ)) (file : τ) : Descriptors (Desc ρ τ) :=
  let (fd, t) := t.create (.outfile file)
  (t.dup2 fd 1).close fd

def redirectOutput (at' : Atomic τ) (t : Descriptors (Desc ρ τ)) : Descriptors (Desc ρ τ) :=
  at'.outfiles.foldl openOutfile t

def pipeFds (pipes : List (Nat × Nat)) : List Nat := pipes.flatMap fun p => [p.1, p.2]

/-- The table of stage `a` when its command starts. -/
def stageTable (pipes : List (Nat × Nat)) (n a : Nat) (at' : Atomic τ)
    (t : Descriptors (Desc ρ τ)) : Descriptors (Desc ρ τ) :=
  (redirectOutput at' (redirectInput at'
    (connectOutput pipes n a (connectInput pipes a t)))).closeAll (pipeFds pipes)

structure Launched (ρ τ : Type*) where
  stages : List (Descriptors (Desc ρ τ))
  parent : Descriptors (Desc ρ τ)

def launchPipeline (atoms : List (Atomic τ)) (shell : Descriptors ρ) : Launched ρ τ :=
  let (pipes, t) := createPipes (atoms.length - 1) 0 (shell.map (Option.map .inherited))
  { stages := atoms.zipIdx.map fun a => stageTable pipes atoms.length a.2 a.1 t
    parent := t.closeAll (pipeFds pipes) }

/-- What stage `k` of `n` is to read from; `stdin` is that of the shell. -/
def stageInput (at' : Atomic τ) (k : Nat) (stdin : Option ρ) : Option (Desc ρ τ) :=
  if 0 < at'.infiles.length then some .inputRead
  else if 0 < k then some (.readEnd (k - 1)) else stdin.map .inherited

def stageOutput (at' : Atomic τ) (n k : Nat) (stdout : Option ρ) : Option (Desc ρ τ) :=
  match at'.outfiles.getLast? with
  | some file => some (.outfile file)
  | none => if k < n - 1 then some (.writeEnd k) else stdout.map .inherited

end Model

/-! ## The pipes -/

section Pipes

variable {ρ τ : Type*}

/-- The table `t'` is `t` with the pipes `pipes`, from the pipe `k` on. -/
structure HasPipes (t : Descriptors (Desc ρ τ)) (k : Nat) (pipes : List (Nat × Nat))
    (t' : Descriptors (Desc ρ τ)) : Prop where
  fresh : ∀ fd ∈ pipeFds pipes, t.lookup fd = none
  kept : ∀ fd, fd ∉ pipeFds pipes → t'.lookup fd = t.lookup fd
  ends : ∀ j p, pipes[j]? = some p →
    t'.lookup p.1 = some (.readEnd (k + j)) ∧ t'.lookup p.2 = some (.writeEnd (k + j))

theorem length_createPipes (m k : Nat) (t : Descriptors (Desc ρ τ)) :
    (createPipes m k t).1.length = m := by
  induction m generalizing k t with
  | zero => rfl
  | succ m ih => simp [createPipes, ih]

theorem HasPipes.cons {t t' : Descriptors (Desc ρ τ)} {k : Nat} {pipes : List (Nat × Nat)}
    (h : HasPipes (t.pipe (.readEnd k) (.writeEnd k)).2 (k + 1) pipes t') :
    HasPipes t k ((t.pipe (.readEnd k) (.writeEnd k)).1 :: pipes) t' := by
  have hfree := Descriptors.lookup_pipe_free (.readEnd k) (.writeEnd k) t
  have hne := Descriptors.pipe_ne (.readEnd k) (.writeEnd k) t
  have hlookup := Descriptors.lookup_pipe (.readEnd k) (.writeEnd k) t
  generalize t.pipe (.readEnd k) (.writeEnd k) = first at *
  have hread : first.2.lookup first.1.1 = some (.readEnd k) := by simp [hlookup, hne]
  have hwrite : first.2.lookup first.1.2 = some (.writeEnd k) := by simp [hlookup]
  have hold : ∀ fd, first.2.lookup fd = none → t.lookup fd = none := by
    intro fd hnone
    rw [hlookup] at hnone
    split at hnone
    · cases hnone
    · split at hnone
      · cases hnone
      · exact hnone
  have hnotMem : ∀ fd d, first.2.lookup fd = some d → fd ∉ pipeFds pipes := by
    intro fd d hopen hmem
    rw [h.fresh fd hmem] at hopen
    cases hopen
  have hfds : pipeFds (first.1 :: pipes) = first.1.1 :: first.1.2 :: pipeFds pipes := rfl
  refine ⟨?_, ?_, ?_⟩
  · intro fd hfd
    simp only [hfds, List.mem_cons] at hfd
    rcases hfd with rfl | rfl | hfd
    · exact hfree.1
    · exact hfree.2
    · exact hold fd (h.fresh fd hfd)
  · intro fd hfd
    simp only [hfds, List.mem_cons, not_or] at hfd
    rw [h.kept fd hfd.2.2, hlookup, if_neg hfd.2.1, if_neg hfd.1]
  · intro j p hp
    cases j with
    | zero =>
        rw [List.getElem?_cons_zero, Option.some.injEq] at hp
        subst hp
        rw [h.kept _ (hnotMem _ _ hread), h.kept _ (hnotMem _ _ hwrite)]
        exact ⟨hread, hwrite⟩
    | succ j =>
        rw [List.getElem?_cons_succ] at hp
        have hends := h.ends j p hp
        rwa [Nat.add_right_comm, Nat.add_assoc] at hends

theorem hasPipes_createPipes (m k : Nat) (t : Descriptors (Desc ρ τ)) :
    HasPipes t k (createPipes m k t).1 (createPipes m k t).2 := by
  induction m generalizing k t with
  | zero => exact ⟨by simp [createPipes, pipeFds], fun _ _ => rfl, by simp [createPipes]⟩
  | succ m ih => exact (ih (k + 1) _).cons

end Pipes

/-! ## A stage -/

section Stage

variable {ρ τ : Type*} {t : Descriptors (Desc ρ τ)}

theorem lookup_redirectInput (at' : Atomic τ) (h : (t.lookup 0).isSome) (fd : Nat) :
    (redirectInput at' t).lookup fd =
      if fd = 0 ∧ 0 < at'.infiles.length then some .inputRead else t.lookup fd := by
  unfold redirectInput
  split
  · rename_i hin
    have hpipe := Descriptors.lookup_replace_pipe h .inputRead .inputWrite fd
    simp only [hin, and_true]
    exact hpipe
  · rename_i hin
    simp [hin]

theorem lookup_openOutfile (h : (t.lookup 1).isSome) (file : τ) (fd : Nat) :
    (openOutfile t file).lookup fd = if fd = 1 then some (.outfile file) else t.lookup fd :=
  Descriptors.lookup_replace h (.outfile file) fd

theorem lookup_foldl_openOutfile (files : List τ) (h : (t.lookup 1).isSome) (fd : Nat) :
    (files.foldl openOutfile t).lookup fd =
      match files.getLast? with
      | some file => if fd = 1 then some (.outfile file) else t.lookup fd
      | none => t.lookup fd := by
  induction files using List.reverseRecOn generalizing fd with
  | nil => rfl
  | append_singleton files file ih =>
      have hopen : ((files.foldl openOutfile t).lookup 1).isSome := by
        rw [ih]
        cases files.getLast? with
        | none => exact h
        | some last => rfl
      rw [List.foldl_append, List.foldl_cons, List.foldl_nil, lookup_openOutfile hopen,
        List.getLast?_concat, ih]
      dsimp only
      split
      · rfl
      · rename_i hne
        cases files.getLast? with
        | none => rfl
        | some last => simp

theorem lookup_redirectOutput (at' : Atomic τ) (h : (t.lookup 1).isSome) (fd : Nat) :
    (redirectOutput at' t).lookup fd =
      match at'.outfiles.getLast? with
      | some file => if fd = 1 then some (.outfile file) else t.lookup fd
      | none => t.lookup fd := lookup_foldl_openOutfile at'.outfiles h fd

variable {shell : Descriptors (Desc ρ τ)} {pipes : List (Nat × Nat)} {n k : Nat}

theorem HasPipes.not_mem (h : HasPipes shell 0 pipes t) {fd : Nat}
    (hfd : (shell.lookup fd).isSome) : fd ∉ pipeFds pipes := by
  intro hmem
  rw [h.fresh fd hmem] at hfd
  cases hfd

theorem mem_pipeFds {p : Nat × Nat} (hp : p ∈ pipes) : p.1 ∈ pipeFds pipes ∧ p.2 ∈ pipeFds pipes :=
  ⟨List.mem_flatMap.mpr ⟨p, hp, by simp⟩, List.mem_flatMap.mpr ⟨p, hp, by simp⟩⟩

theorem HasPipes.getD (h : HasPipes shell 0 pipes t) {j : Nat} (hj : j < pipes.length) :
    t.lookup (pipes.getD j (0, 0)).1 = some (.readEnd j) ∧
      t.lookup (pipes.getD j (0, 0)).2 = some (.writeEnd j) ∧
      (pipes.getD j (0, 0)).2 ∈ pipeFds pipes := by
  have hp : pipes[j]? = some pipes[j] := List.getElem?_eq_getElem hj
  have hends := h.ends j pipes[j] hp
  rw [Nat.zero_add] at hends
  rw [List.getD_eq_getElem?_getD, hp, Option.getD_some]
  exact ⟨hends.1, hends.2, (mem_pipeFds (List.getElem_mem hj)).2⟩

theorem lookup_connectInput (h : HasPipes shell 0 pipes t) (hk : k ≤ pipes.length) (fd : Nat) :
    (connectInput pipes k t).lookup fd =
      if fd = 0 ∧ 0 < k then some (.readEnd (k - 1)) else t.lookup fd := by
  unfold connectInput
  split
  · rename_i hpos
    have hends := h.getD (j := k - 1) (by omega)
    simp only [hpos, and_true]
    exact Descriptors.lookup_dup2 hends.1 0 fd
  · rename_i hfirst
    simp [hfirst]

theorem lookup_connectOutput (h : HasPipes shell 0 pipes t) (hin : (shell.lookup 0).isSome)
    (hk : k ≤ pipes.length) (hn : pipes.length = n - 1) (fd : Nat) :
    (connectOutput pipes n k (connectInput pipes k t)).lookup fd =
      if fd = 1 ∧ k < n - 1 then some (.writeEnd k)
      else (connectInput pipes k t).lookup fd := by
  unfold connectOutput
  split
  · rename_i hlt
    obtain ⟨-, hwrite, hmem⟩ := h.getD (j := k) (by omega)
    have hne : (pipes.getD k (0, 0)).2 ≠ 0 := by
      intro hzero
      rw [hzero] at hmem
      exact h.not_mem hin hmem
    have hkept : (connectInput pipes k t).lookup (pipes.getD k (0, 0)).2 = some (.writeEnd k) := by
      rw [lookup_connectInput h hk, if_neg (fun hboth => hne hboth.1), hwrite]
    simp only [hlt, and_true]
    exact Descriptors.lookup_dup2 hkept 1 fd
  · rename_i hlast
    simp [hlast]

structure Plumbed (shell : Descriptors (Desc ρ τ)) (n k : Nat) (at' : Atomic τ)
    (table : Descriptors (Desc ρ τ)) : Prop where
  stdin : table.lookup 0 =
    if 0 < at'.infiles.length then some .inputRead
    else if 0 < k then some (.readEnd (k - 1)) else shell.lookup 0
  stdout : table.lookup 1 =
    match at'.outfiles.getLast? with
    | some file => some (.outfile file)
    | none => if k < n - 1 then some (.writeEnd k) else shell.lookup 1
  others : ∀ fd, fd ≠ 0 → fd ≠ 1 → table.lookup fd = shell.lookup fd

theorem plumbed_stageTable (h : HasPipes shell 0 pipes t) (hin : (shell.lookup 0).isSome)
    (hout : (shell.lookup 1).isSome) (hk : k ≤ pipes.length) (hn : pipes.length = n - 1)
    (at' : Atomic τ) : Plumbed shell n k at' (stageTable pipes n k at' t) := by
  have hstdin := h.not_mem hin
  have hstdout := h.not_mem hout
  have hinput : ∀ fd, (connectInput pipes k t).lookup fd = _ := lookup_connectInput h hk
  have houtput : ∀ fd, (connectOutput pipes n k (connectInput pipes k t)).lookup fd = _ :=
    lookup_connectOutput h hin hk hn
  have hopen0 : ((connectOutput pipes n k (connectInput pipes k t)).lookup 0).isSome := by
    rw [houtput, if_neg (by simp), hinput]
    split
    · rfl
    · rwa [h.kept 0 hstdin]
  have hredirected : ∀ fd, (redirectInput at'
      (connectOutput pipes n k (connectInput pipes k t))).lookup fd = _ :=
    lookup_redirectInput at' hopen0
  have hopen1 : ((redirectInput at'
      (connectOutput pipes n k (connectInput pipes k t))).lookup 1).isSome := by
    rw [hredirected, if_neg (by simp), houtput]
    split
    · rfl
    · rwa [hinput, if_neg (by simp), h.kept 1 hstdout]
  have hfinal : ∀ fd, (stageTable pipes n k at' t).lookup fd = _ := fun fd =>
    Descriptors.lookup_closeAll (pipeFds pipes) _ fd
  constructor
  · rw [hfinal, if_neg hstdin, lookup_redirectOutput at' hopen1]
    have hzero : (redirectInput at'
        (connectOutput pipes n k (connectInput pipes k t))).lookup 0 =
          if 0 < at'.infiles.length then some .inputRead
          else if 0 < k then some (.readEnd (k - 1)) else shell.lookup 0 := by
      rw [hredirected, houtput, hinput, h.kept 0 hstdin]
      simp
    cases at'.outfiles.getLast? with
    | none => exact hzero
    | some file => simpa using hzero
  · rw [hfinal, if_neg hstdout, lookup_redirectOutput at' hopen1]
    have hone : (redirectInput at'
        (connectOutput pipes n k (connectInput pipes k t))).lookup 1 =
          if k < n - 1 then some (.writeEnd k) else shell.lookup 1 := by
      rw [hredirected, houtput, hinput, h.kept 1 hstdout]
      simp
    cases at'.outfiles.getLast? with
    | none => exact hone
    | some file => simp
  · intro fd hzero hone
    rw [hfinal]
    split
    · rename_i hmem
      exact (h.fresh fd hmem).symm
    · rename_i hmem
      have hkept : (redirectInput at'
          (connectOutput pipes n k (connectInput pipes k t))).lookup fd = shell.lookup fd := by
        rw [hredirected, houtput, hinput, h.kept fd hmem]
        simp [hzero, hone]
      rw [lookup_redirectOutput at' hopen1]
      cases at'.outfiles.getLast? with
      | none => exact hkept
      | some file => simpa [hone] using hkept

end Stage

section Launch

variable {ρ τ : Type*} {shell : Descriptors ρ} {atoms : List (Atomic τ)} {k : Nat}

theorem isEnd_inherited {x : Option ρ} {d : Desc ρ τ} (h : x.map .inherited = some d) :
    d.isEnd = false := by
  cases x with
  | none => cases h
  | some x =>
      cases h
      rfl

theorem isSome_inherited {fd : Nat} (h : (shell.lookup fd).isSome) :
    (Descriptors.lookup fd (shell.map (Option.map .inherited) : Descriptors (Desc ρ τ))).isSome := by
  simpa [Descriptors.lookup_map] using h

theorem plumbed_launchPipeline (hin : (shell.lookup 0).isSome) (hout : (shell.lookup 1).isSome)
    {at' : Atomic τ} (hat : atoms[k]? = some at') :
    ∃ table, (launchPipeline atoms shell).stages[k]? = some table ∧
      Plumbed (shell.map (Option.map .inherited)) atoms.length k at' table := by
  obtain ⟨hlt, -⟩ := List.getElem?_eq_some_iff.mp hat
  have hlength := length_createPipes (ρ := ρ) (τ := τ) (atoms.length - 1) 0
    (shell.map (Option.map .inherited))
  have hpipes := hasPipes_createPipes (ρ := ρ) (τ := τ) (atoms.length - 1) 0
    (shell.map (Option.map .inherited))
  refine ⟨_, ?_, plumbed_stageTable hpipes (isSome_inherited hin) (isSome_inherited hout)
    (by omega) hlength at'⟩
  simp [launchPipeline, hat]

theorem lookup_parent (fd : Nat) :
    (launchPipeline atoms shell : Launched ρ τ).parent.lookup fd =
      (shell.lookup fd).map .inherited := by
  have hpipes := hasPipes_createPipes (ρ := ρ) (τ := τ) (atoms.length - 1) 0
    (shell.map (Option.map .inherited))
  have hclosed : (launchPipeline atoms shell : Launched ρ τ).parent.lookup fd = _ :=
    Descriptors.lookup_closeAll _ _ fd
  rw [hclosed, ← Descriptors.lookup_map]
  split
  · rename_i hmem
    exact (hpipes.fresh fd hmem).symm
  · rename_i hmem
    exact hpipes.kept fd hmem

theorem Plumbed.eq_of_writeEnd {table : Descriptors (Desc ρ τ)} {n j fd : Nat} {at' : Atomic τ}
    (h : Plumbed (shell.map (Option.map .inherited)) n k at' table)
    (hfd : table.lookup fd = some (.writeEnd j)) : k = j := by
  have hinherited : ∀ i, ¬ Descriptors.lookup i (shell.map (Option.map .inherited)) =
      some (.writeEnd j : Desc ρ τ) := by
    intro i heq
    rw [Descriptors.lookup_map] at heq
    have hnot := isEnd_inherited heq
    cases hnot
  by_cases hzero : fd = 0
  · rw [hzero, h.stdin] at hfd
    split at hfd
    · cases hfd
    · split at hfd
      · cases hfd
      · exact absurd hfd (hinherited 0)
  · by_cases hone : fd = 1
    · rw [hone, h.stdout] at hfd
      split at hfd
      · cases hfd
      · split at hfd
        · cases hfd
          rfl
        · exact absurd hfd (hinherited 1)
    · rw [h.others fd hzero hone] at hfd
      exact absurd hfd (hinherited fd)

end Launch

/-- Each stage reads and writes where it should and holds no further end of a pipe of the
pipeline, the shell holds none, and only stage `j` can write to the pipe `j`. -/
theorem pipeline_plumbing {ρ τ : Type*} {shell : Descriptors ρ} (hin : (shell.lookup 0).isSome)
    (hout : (shell.lookup 1).isSome) (atoms : List (Atomic τ)) :
    (∀ k at', atoms[k]? = some at' →
        ∃ table : Descriptors (Desc ρ τ), (launchPipeline atoms shell).stages[k]? = some table ∧
          table.lookup 0 = stageInput at' k (shell.lookup 0) ∧
          table.lookup 1 = stageOutput at' atoms.length k (shell.lookup 1) ∧
          ∀ fd d, fd ≠ 0 → fd ≠ 1 → table.lookup fd = some d → d.isEnd = false) ∧
      (∀ fd (d : Desc ρ τ), (launchPipeline atoms shell).parent.lookup fd = some d →
        d.isEnd = false) ∧
      ∀ j k fd (table : Descriptors (Desc ρ τ)),
        (launchPipeline atoms shell).stages[k]? = some table →
          table.lookup fd = some (.writeEnd j) → k = j := by
  refine ⟨?_, ?_, ?_⟩
  · intro k at' hat
    obtain ⟨table, htable, hplumbed⟩ := plumbed_launchPipeline hin hout hat
    refine ⟨table, htable, ?_, ?_, ?_⟩
    · rw [hplumbed.stdin, stageInput, Descriptors.lookup_map]
    · rw [hplumbed.stdout, stageOutput, Descriptors.lookup_map]
    · intro fd d hzero hone hd
      rw [hplumbed.others fd hzero hone, Descriptors.lookup_map] at hd
      exact isEnd_inherited hd
  · intro fd d hd
    rw [lookup_parent] at hd
    exact isEnd_inherited hd
  · intro j k fd table htable hfd
    have hlength : (launchPipeline atoms shell : Launched ρ τ).stages.length = atoms.length := by
      simp [launchPipeline]
    obtain ⟨hlt, -⟩ := List.getElem?_eq_some_iff.mp htable
    rw [hlength] at hlt
    obtain ⟨table', htable', hplumbed⟩ :=
      plumbed_launchPipeline hin hout (List.getElem?_eq_getElem hlt)
    obtain rfl : table' = table := Option.some.inj (htable'.symm.trans htable)
    exact hplumbed.eq_of_writeEnd hfd

end OxyC.Shell
