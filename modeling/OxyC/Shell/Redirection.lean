import OxyC.Shell.Faithful
import Mathlib.Logic.Function.Basic

/-!
# Output redirections

The loops over `outfiles` in `execute_command` and `execute_pipeline`, as the
list of the calls of `open` they make when none fails.
-/

namespace OxyC.Shell

inductive OpenMode where
  | truncate
  | append
  deriving DecidableEq, Repr

section Outputs

variable {τ : Type*}

/-- The loop is the same in both functions; `at->append` is looked at for each file. -/
def openOutputs (a : Atomic τ) : List (τ × OpenMode) :=
  a.outfiles.map fun file => (file, if a.append then .append else .truncate)

def executeCommandOutputs (a : Atomic τ) : List (τ × OpenMode) := openOutputs a

def executePipelineOutputs (a : Atomic τ) : List (τ × OpenMode) := openOutputs a

/-- The output redirections of an atomic command, with the mode of the operator. -/
def redirections : List (Token τ) → List (τ × OpenMode)
  | .gt :: .name file :: ts => (file, .truncate) :: redirections ts
  | .gtGt :: .name file :: ts => (file, .append) :: redirections ts
  | _ :: ts => redirections ts
  | [] => []

/-- What can be opened as it was asked for. -/
def OneMode (rs : List (τ × OpenMode)) : Prop :=
  rs.length ≤ maxFiles ∧ ∀ r ∈ rs, ∀ r' ∈ rs, r.2 = r'.2

instance (rs : List (τ × OpenMode)) : Decidable (OneMode rs) := inferInstanceAs (Decidable (_ ∧ _))

/-- The contents of the files after `open` with `O_CREAT`. -/
def openFile [DecidableEq τ] (files : τ → List Char) (r : τ × OpenMode) : τ → List Char :=
  match r.2 with
  | .truncate => Function.update files r.1 []
  | .append => files

def openAll [DecidableEq τ] (files : τ → List Char) (rs : List (τ × OpenMode)) : τ → List Char :=
  rs.foldl openFile files

end Outputs

/-! ## What the parser records -/

section Recorded

variable {τ : Type*}

def lastAppends (rs : List (τ × OpenMode)) : Bool := rs.getLast?.any (·.2 = .append)

theorem redirections_item (item : Item τ) (ts : List (Token τ)) :
    redirections (item.tokens ++ ts) = redirections item.tokens ++ redirections ts := by
  cases item with
  | word text => rfl
  | input file => rfl
  | output append file => cases append <;> rfl

/-- `a` has recorded the redirections `rs`. -/
structure Recorded (a : Atomic τ) (rs : List (τ × OpenMode)) : Prop where
  outfiles : a.outfiles = rs.map Prod.fst
  append : a.append = lastAppends rs
  room : rs.length ≤ maxFiles

theorem Recorded.add {a : Atomic τ} {rs : List (τ × OpenMode)} (h : Recorded a rs)
    (item : Item τ) :
    Recorded (item.add a) ((rs ++ redirections item.tokens).take maxFiles) := by
  have hlength : a.outfiles.length = rs.length := by rw [h.outfiles, List.length_map]
  have hsame : (rs ++ []).take maxFiles = rs := by
    rw [List.append_nil, List.take_of_length_le h.room]
  cases item with
  | word text =>
      simp only [Item.tokens, redirections, hsame]
      exact ⟨h.outfiles, h.append, h.room⟩
  | input file =>
      simp only [Item.tokens, redirections, hsame]
      have hout : (a.addInfile file).outfiles = a.outfiles ∧
          (a.addInfile file).append = a.append := by
        unfold Atomic.addInfile
        split <;> exact ⟨rfl, rfl⟩
      exact ⟨hout.1.trans h.outfiles, hout.2.trans h.append, h.room⟩
  | output append file =>
      have hone : redirections (Item.output append file).tokens =
          [(file, if append then .append else .truncate)] := by cases append <;> rfl
      rw [hone]
      simp only [Item.add, Atomic.addOutfile]
      split
      · rename_i hroom
        rw [List.take_of_length_le (by simp; omega)]
        exact ⟨by simp [h.outfiles], by cases append <;> simp [lastAppends], by simp; omega⟩
      · rename_i hfull
        rw [List.take_append_of_le_length (by omega), List.take_of_length_le h.room]
        exact ⟨h.outfiles, h.append, h.room⟩

theorem take_take_append {α : Type*} (n : Nat) (xs ys : List α) :
    (xs.take n ++ ys).take n = (xs ++ ys).take n := by
  have hroom : n - min n xs.length = n - xs.length := by omega
  rw [List.take_append, List.take_append, List.take_take, Nat.min_self, List.length_take, hroom]

theorem Recorded.foldl {a : Atomic τ} {rs : List (τ × OpenMode)} (h : Recorded a rs)
    (items : List (Item τ)) :
    Recorded (items.foldl Item.add a)
      ((rs ++ redirections (items.flatMap Item.tokens)).take maxFiles) := by
  induction items generalizing a rs with
  | nil =>
      simp only [List.flatMap_nil, redirections, List.append_nil,
        List.take_of_length_le h.room]
      exact h
  | cons item items ih =>
      have hrest := ih (h.add item)
      rw [take_take_append, List.append_assoc, ← redirections_item] at hrest
      exact hrest

theorem recorded_build (a : AtomicTree τ) :
    Recorded a.build ((redirections a.tokens).take maxFiles) := by
  have hempty : Recorded ({ argv := [a.name] } : Atomic τ) [] := ⟨rfl, rfl, Nat.zero_le _⟩
  exact hempty.foldl a.items

theorem openOutputs_eq_iff {a : Atomic τ} {rs : List (τ × OpenMode)}
    (h : Recorded a (rs.take maxFiles)) : openOutputs a = rs ↔ OneMode rs := by
  constructor
  · intro heq
    have hlength := congrArg List.length heq
    rw [openOutputs, List.length_map, h.outfiles, List.length_map, List.length_take] at hlength
    refine ⟨by omega, ?_⟩
    have hmode : ∀ r ∈ rs, r.2 = if a.append then .append else .truncate := by
      rw [← heq, openOutputs, List.forall_mem_map]
      exact fun _ _ => rfl
    intro r hr r' hr'
    rw [hmode r hr, hmode r' hr']
  · rintro ⟨hroom, hsame⟩
    rw [List.take_of_length_le hroom] at h
    rw [openOutputs, h.outfiles, List.map_map]
    refine (List.map_congr_left fun r hr => ?_).trans (List.map_id rs)
    have hne : rs ≠ [] := List.ne_nil_of_mem hr
    have hmode := hsame r hr (rs.getLast hne) (List.getLast_mem hne)
    have happend : a.append = decide (r.2 = .append) := by
      rw [h.append, lastAppends, List.getLast?_eq_some_getLast hne, hmode]
      rfl
    obtain ⟨file, mode⟩ := r
    cases mode <;> simp [happend]

end Recorded

/-! ## The files of an accepted line -/

/-- Each copy of the loop opens the files of an atomic command as their operators say exactly if
there are at most 8 of them and all operators are the same. -/
theorem outputs_own_mode_iff {τ : Type*} {ts junk : List (Token τ)} (heof : .eof ∉ ts)
    (h : (parseShellCmd (ts ++ .eof :: junk)).accepted = true) {i : Nat} {a : Atomic τ}
    {seg : List (Token τ)}
    (ha : (parseShellCmd (ts ++ .eof :: junk)).value.atomics[i]? = some a)
    (hseg : (atomicTokens ts)[i]? = some seg) :
    (executeCommandOutputs a = redirections seg ↔ OneMode (redirections seg)) ∧
      (executePipelineOutputs a = redirections seg ↔ OneMode (redirections seg)) := by
  obtain ⟨line, rfl⟩ := (accepted_iff_derives junk heof).mp h
  rw [parseShellCmd_tokens line rfl] at ha
  rw [← line.tokens_rounds, Rounds.atomicTokens_eq] at hseg
  have hatomics : (line.rounds.build {}).atomics = line.rounds.atomics.map AtomicTree.build :=
    line.rounds.atomics_build {}
  rw [hatomics] at ha
  rw [List.getElem?_map, Option.map_eq_some_iff] at ha hseg
  obtain ⟨tree, htree, rfl⟩ := ha
  obtain ⟨tree', htree', rfl⟩ := hseg
  obtain rfl : tree = tree' := Option.some.inj (htree.symm.trans htree')
  have hiff := openOutputs_eq_iff (recorded_build tree)
  exact ⟨hiff, hiff⟩

theorem outputs_append_twice :
    executePipelineOutputs ⟨[0], [], [1, 2], true⟩ = [(1, .append), (2, .append)] := by
  have heof : (.eof : Token Nat) ∉ [.name 0, .gtGt, .name 1, .gtGt, .name 2] := by decide
  have hseg : (atomicTokens [.name 0, .gtGt, .name 1, .gtGt, .name 2])[0]? =
      some [.name 0, .gtGt, .name 1, .gtGt, .name (2 : Nat)] := by decide
  have haccepted : (parseShellCmd ([.name 0, .gtGt, .name 1, .gtGt, .name 2] ++ .eof :: [])).accepted =
      true := by decide
  exact (outputs_own_mode_iff heof haccepted (by decide) hseg).2.mpr (by decide)

theorem openAll_apply {τ : Type*} [DecidableEq τ] (files : τ → List Char)
    (rs : List (τ × OpenMode)) (file : τ) :
    openAll files rs file = if (file, .truncate) ∈ rs then [] else files file := by
  induction rs generalizing files with
  | nil => rfl
  | cons r rs ih =>
      obtain ⟨name, mode⟩ := r
      rw [openAll, List.foldl_cons, ← openAll, ih]
      cases mode with
      | append => simp [openFile]
      | truncate =>
          by_cases hname : file = name
          · simp [openFile, hname]
          · simp [openFile, hname]

/-- The mode of `> 2` is used for `>> 1`, and the contents of that file are lost. -/
theorem outputs_mixed :
    ∃ (ts : List (Token Nat)) (a : Atomic Nat), .eof ∉ ts ∧
      (parseShellCmd (ts ++ [.eof])).accepted = true ∧
      (parseShellCmd (ts ++ [.eof])).value.atomics[0]? = some a ∧
      (atomicTokens ts)[0]? = some ts ∧
      executeCommandOutputs a ≠ redirections ts ∧ executePipelineOutputs a ≠ redirections ts ∧
      openAll (fun _ => ['x']) (redirections ts) 1 = ['x'] ∧
      openAll (fun _ => ['x']) (executeCommandOutputs a) 1 = [] :=
  ⟨[.name 0, .gtGt, .name 1, .gt, .name 2], ⟨[0], [], [1, 2], false⟩, by decide, by decide,
    by decide, by decide, by decide, by decide, (openAll_apply _ _ 1).trans (if_neg (by decide)),
    (openAll_apply _ _ 1).trans (if_pos (by decide))⟩

end OxyC.Shell
