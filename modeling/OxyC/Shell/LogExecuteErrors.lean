import OxyC.Shell.LogExecute

/-!
# The argument of `log execute`

What each of the five places does with an argument of any length, when the
numbers are kept in an `int` of 32 bits.  A sum that does not fit wraps around,
as in the compiled code; the language itself leaves it undefined.
-/

namespace OxyC.Shell

open OxyC.Foundation

def intValues : Nat := 4294967296

def wrapInt (x : Int) : Int := x.bmod intValues

/-- `get_num` on an argument of any length. -/
def getNumInt (input : List Char) : Int :=
  if input.all Char.isDigit then
    input.foldl (fun num c => wrapInt (num * 10 + (c.toNat - '0'.toNat : Int))) 0
  else -1

/-- `get_in`, where `logs.txt` may be missing from the current directory. -/
def getInFile (idx : Int) (file : Option (List Char)) : Option (List Char) := file.bind (getIn idx)

/-- What becomes of the argument: a message, or a call of `tokenize`, perhaps with `NULL`. -/
inductive LogOutcome where
  | error (text : String)
  | tokenized (input : Option (List Char))
  deriving DecidableEq, Repr

namespace LogSite

def indexInt (logs : Logs) (num : Int) : Int :=
  ((logs.count : Int) - logs.start) - ((wrapInt (num - 1)).tmod 15).tmod 15 - 1

/-- `execute_fn` does not look at what `get_in` returns. -/
def executeFnOutcome (logs : Logs) (num : Int) (file : Option (List Char)) : LogOutcome :=
  .tokenized (getInFile (indexInt logs num) file)

def outcome (site : LogSite) (arg : List Char) (logs : Logs) (file : Option (List Char)) :
    LogOutcome :=
  let num := getNumInt arg
  match site with
  | .main =>
      if num = -1 ∨ num > 15 then .error "Invalid Syntax!\n" else executeFnOutcome logs num file
  | .executeCommand =>
      if num = -1 ∨ num > 15 then .error "Invalid Syntax!\n" else executeFnOutcome logs num file
  | .executeSequential =>
      if num = -1 then .error "Invalid Syntax!\n" else executeFnOutcome logs num file
  | .doInBg => if num = -1 then .error "Invalid Syntax!\n" else executeFnOutcome logs num file
  | .executePipeline =>
      match getInFile (indexInt logs num) file with
      | none => .error "eeefInvalid syntax!\n"
      | some replay =>
          .tokenized (some (if replay.getLast? = some '\n' then replay.dropLast else replay))

/-- Whether the place tests for a number above 15. -/
def bounds : LogSite → Bool
  | .main => true
  | .executeCommand => true
  | _ => false

end LogSite

/-! ## Numerals -/

def numeral (input : List Char) : Nat :=
  input.foldl (fun n c => n * 10 + (c.toNat - '0'.toNat)) 0

/-- The argument is a decimal numeral of a number between 1 and `count`. -/
def NamesEntry (arg : List Char) (count : Nat) : Prop :=
  arg ≠ [] ∧ arg.all Char.isDigit = true ∧ 1 ≤ numeral arg ∧ numeral arg ≤ count

instance (arg : List Char) (count : Nat) : Decidable (NamesEntry arg count) :=
  inferInstanceAs (Decidable (_ ∧ _))

theorem toNat_sub_zero {c : Char} (h : c.isDigit = true) :
    ((c.toNat - '0'.toNat : Nat) : Int) = (c.toNat : Int) - '0'.toNat := by
  have hle : '0'.toNat ≤ c.toNat := by
    simp only [Char.isDigit, Bool.and_eq_true, decide_eq_true_eq] at h
    exact h.1
  omega

theorem wrapInt_digit (x y : Int) : wrapInt (wrapInt x * 10 + y) = wrapInt (x * 10 + y) := by
  unfold wrapInt
  rw [← Int.bmod_add_bmod, Int.bmod_mul_bmod, Int.bmod_add_bmod]

theorem wrapInt_natCast_of_lt {n : Nat} (h : n < 2147483648) : wrapInt n = n := by
  apply Int.bmod_eq_of_le_mul_two
  · omega
  · rw [intValues]
    omega

/-- Wrapping after each digit is wrapping once. -/
theorem foldl_wrapInt {input : List Char} (h : input.all Char.isDigit = true) (n : Nat) :
    input.foldl (fun num c => wrapInt (num * 10 + (c.toNat - '0'.toNat : Int))) (wrapInt n) =
      wrapInt (input.foldl (fun n c => n * 10 + (c.toNat - '0'.toNat)) n : Nat) := by
  induction input generalizing n with
  | nil => rw [List.foldl_nil, List.foldl_nil]
  | cons c input ih =>
      simp only [List.all_cons, Bool.and_eq_true] at h
      rw [List.foldl_cons, List.foldl_cons, wrapInt_digit, ← ih h.2]
      congr 2
      rw [← toNat_sub_zero h.1]
      push_cast
      rfl

theorem getNumInt_eq (arg : List Char) :
    getNumInt arg = if arg.all Char.isDigit then wrapInt (numeral arg) else -1 := by
  unfold getNumInt
  split
  · rename_i hdigits
    have hzero : wrapInt ((0 : Nat) : Int) = 0 := by decide
    have hfold := foldl_wrapInt hdigits 0
    rw [hzero] at hfold
    exact hfold
  · rfl

/-- On numbers that fit the two readings of the argument agree. -/
theorem getNumInt_of_lt {arg : List Char} (hdigits : arg.all Char.isDigit = true)
    (h : numeral arg < 2147483648) : getNumInt arg = numeral arg := by
  rw [getNumInt_eq, if_pos hdigits, wrapInt_natCast_of_lt h]

/-! ## The lines of any file -/

/-- What the calls of `fgets` return, one after the other. -/
def fgetsLines : Nat → List Char → List (List Char)
  | 0, _ => []
  | fuel + 1, file =>
      match fgets '\n' logSize file with
      | some (buffer, rest) => buffer :: fgetsLines fuel rest
      | none => []

def fileLines (file : Option (List Char)) : List (List Char) :=
  (file.map fun bytes => fgetsLines bytes.length bytes).getD []

theorem getInLoop_eq (fuel i : Nat) (idx : Int) (file : List Char) :
    getInLoop fuel idx i file =
      if (i : Int) ≤ idx then (fgetsLines fuel file)[(idx - i).toNat]? else none := by
  induction fuel generalizing i file with
  | zero => simp [getInLoop, fgetsLines]
  | succ fuel ih =>
      rw [getInLoop, fgetsLines]
      cases fgets '\n' logSize file with
      | none => simp
      | some read =>
          obtain ⟨buffer, rest⟩ := read
          dsimp only
          by_cases heq : (i : Int) = idx
          · rw [if_pos heq, if_pos heq.le, ← heq, Int.sub_self]
            rfl
          · rw [if_neg heq, ih]
            by_cases hle : (i : Int) ≤ idx
            · have hnext : (idx - i).toNat = (idx - ((i + 1 : Nat) : Int)).toNat + 1 := by omega
              rw [if_pos hle, if_pos (by omega), hnext, List.getElem?_cons_succ]
            · rw [if_neg hle, if_neg (by omega)]

theorem getInFile_eq (idx : Int) (file : Option (List Char)) :
    getInFile idx file = if 0 ≤ idx then (fileLines file)[idx.toNat]? else none := by
  cases file with
  | none => simp [getInFile, fileLines]
  | some bytes => simpa [getInFile, fileLines, getIn] using getInLoop_eq bytes.length 0 idx bytes

theorem getInFile_eq_none_iff (idx : Int) (file : Option (List Char)) :
    getInFile idx file = none ↔ ¬ (0 ≤ idx ∧ idx < (fileLines file).length) := by
  rw [getInFile_eq]
  split
  · rw [List.getElem?_eq_none_iff]
    omega
  · rename_i hneg
    simp [hneg]

/-! ## Histories of any file -/

theorem fits_loadLoop {room : Nat} {logs : Logs} (hstart : logs.start = 0)
    (hroom : logs.count + room ≤ maxLogs) (file : List Char) :
    (loadLoop room logs file).Fits maxLogs := by
  induction room generalizing logs file with
  | zero =>
      refine ⟨?_, by simpa [loadLoop] using hroom⟩
      rw [loadLoop, hstart]
      decide
  | succ room ih =>
      rw [loadLoop]
      cases fgets '\n' logSize file with
      | none =>
          refine ⟨?_, Nat.le_trans (Nat.le_add_right _ _) hroom⟩
          dsimp only
          rw [hstart]
          decide
      | some read =>
          have hroom' : logs.count + 1 + room ≤ maxLogs := by omega
          refine ih ?_ ?_ read.2
          · exact hstart
          · exact hroom'

theorem fits_loadLogs (memory : Nat → List Char) (file : List Char) :
    (loadLogs memory file).Fits maxLogs := fits_loadLoop rfl (by simp) file

theorem fits_runOps {logs : Logs} (h : logs.Fits maxLogs) (ops : List Op) :
    (runOps ops logs).Fits maxLogs := by
  induction ops generalizing logs with
  | nil => exact h
  | cons op ops ih =>
      apply ih
      cases op with
      | typed line =>
          change (addLog line.text logs).Fits maxLogs
          unfold addLog
          split
          · exact h
          · split
            · exact h
            · exact h.push _
      | purge => exact h.clear
      | restart memory => exact fits_loadLogs memory _

/-! ## The law -/

/-- The argument is refused unless it names an entry, a number too large for an `int` included, and
a missing entry is not tokenized. -/
structure LogSite.Lawful (site : LogSite) (arg : List Char) (logs : Logs)
    (file : Option (List Char)) : Prop where
  refused : ¬ NamesEntry arg logs.count → ∃ text, site.outcome arg logs file = .error text
  overflow : arg.all Char.isDigit = true → 2147483648 ≤ numeral arg →
    ∃ text, site.outcome arg logs file = .error text
  present : site.outcome arg logs file ≠ .tokenized none

/-- `get_num` returns -1. -/
def Unreadable (arg : List Char) : Prop :=
  arg.all Char.isDigit = false ∨ numeral arg % intValues = intValues - 1

instance (arg : List Char) : Decidable (Unreadable arg) := inferInstanceAs (Decidable (_ ∨ _))

/-- `get_num` returns a number above 15. -/
def Large (arg : List Char) : Prop :=
  arg.all Char.isDigit = true ∧ 16 ≤ numeral arg % intValues ∧
    numeral arg % intValues < 2147483648

instance (arg : List Char) : Decidable (Large arg) := inferInstanceAs (Decidable (_ ∧ _))

/-- Where `execute_pipeline` looks for an argument that names no entry. -/
def strayIndex (arg : List Char) (logs : Logs) : Int :=
  if arg.all Char.isDigit then
    (logs.count : Int) - logs.start - 1 - (wrapInt ((numeral arg : Int) - 1)).tmod 15
  else (logs.count : Int) - logs.start + 1

/-- The lines are those of the file that `get_in` opens. -/
def LogSite.Meets (site : LogSite) (arg : List Char) (logs : Logs) (lines : Nat) : Prop :=
  if NamesEntry arg logs.count then
    site = .executePipeline ∨ logs.start + numeral arg ≤ logs.count ∧
      logs.count - (logs.start + numeral arg) < lines
  else if site = .executePipeline then
    ¬ (0 ≤ strayIndex arg logs ∧ strayIndex arg logs < lines)
  else Unreadable arg ∨ site.bounds = true ∧ Large arg

instance (site : LogSite) (arg : List Char) (logs : Logs) (lines : Nat) :
    Decidable (site.Meets arg logs lines) := by
  unfold LogSite.Meets
  infer_instance

section Law

variable {site : LogSite} {arg : List Char} {logs : Logs} {file : Option (List Char)}

theorem indexInt_of_namesEntry (h : NamesEntry arg logs.count) (hcount : logs.count ≤ maxLogs) :
    LogSite.indexInt logs (getNumInt arg) = logs.count - (logs.start + numeral arg : Nat) := by
  obtain ⟨-, hdigits, hpos, hle⟩ := h
  rw [maxLogs] at hcount
  have hpred : (numeral arg : Int) - 1 = (numeral arg - 1 : Nat) := by omega
  have hmod : ((numeral arg - 1 : Nat) : Int).tmod 15 = (numeral arg - 1 : Nat) :=
    Int.tmod_eq_of_lt (by omega) (by omega)
  rw [getNumInt_of_lt hdigits (by omega), LogSite.indexInt, hpred,
    wrapInt_natCast_of_lt (by omega), hmod, hmod]
  omega

theorem wrapInt_sub_one (x : Int) : wrapInt (wrapInt x - 1) = wrapInt (x - 1) := by
  unfold wrapInt
  rw [Int.sub_eq_add_neg, Int.bmod_add_bmod, Int.sub_eq_add_neg]

theorem indexInt_eq_strayIndex (arg : List Char) (logs : Logs) :
    LogSite.indexInt logs (getNumInt arg) = strayIndex arg logs := by
  rw [LogSite.indexInt, strayIndex, Int.tmod_tmod, getNumInt_eq]
  split
  · rw [wrapInt_sub_one]
    omega
  · have hminus : (wrapInt (-1 - 1)).tmod 15 = -2 := by decide
    rw [hminus]
    omega

theorem wrapInt_natCast_eq (n : Nat) :
    wrapInt n = if n % intValues < 2147483648 then ((n % intValues : Nat) : Int)
      else ((n % intValues : Nat) : Int) - intValues := by
  rw [wrapInt, Int.bmod_def]
  simp only [intValues]
  omega

theorem getNumInt_eq_neg_one_iff (arg : List Char) : getNumInt arg = -1 ↔ Unreadable arg := by
  rw [getNumInt_eq, Unreadable]
  cases hdigits : arg.all Char.isDigit with
  | false => simp
  | true =>
      rw [if_pos rfl, wrapInt_natCast_eq]
      by_cases hsmall : numeral arg % intValues < 2147483648
      · rw [if_pos hsmall]
        simp only [intValues, Bool.true_eq_false, false_or] at hsmall ⊢
        omega
      · rw [if_neg hsmall]
        simp only [intValues, Bool.true_eq_false, false_or] at hsmall ⊢
        omega

theorem lt_getNumInt_iff (arg : List Char) : 15 < getNumInt arg ↔ Large arg := by
  rw [getNumInt_eq, Large]
  cases hdigits : arg.all Char.isDigit with
  | false => simp
  | true =>
      rw [if_pos rfl, wrapInt_natCast_eq]
      by_cases hsmall : numeral arg % intValues < 2147483648
      · rw [if_pos hsmall]
        simp only [intValues, true_and] at hsmall ⊢
        omega
      · rw [if_neg hsmall]
        simp only [intValues, true_and] at hsmall ⊢
        omega

theorem not_unreadable_of_namesEntry (h : NamesEntry arg logs.count)
    (hcount : logs.count ≤ maxLogs) : ¬ Unreadable arg ∧ ¬ Large arg := by
  obtain ⟨-, hdigits, hpos, hle⟩ := h
  rw [maxLogs] at hcount
  rw [← getNumInt_eq_neg_one_iff, ← lt_getNumInt_iff, getNumInt_of_lt hdigits (by omega)]
  omega

theorem outcome_of_ne_pipeline (h : site ≠ .executePipeline) :
    site.outcome arg logs file =
      if Unreadable arg ∨ site.bounds = true ∧ Large arg then .error "Invalid Syntax!\n"
      else .tokenized (getInFile (LogSite.indexInt logs (getNumInt arg)) file) := by
  simp only [← getNumInt_eq_neg_one_iff, ← lt_getNumInt_iff]
  cases site with
  | main => simp [LogSite.outcome, LogSite.executeFnOutcome, LogSite.bounds]
  | executeCommand => simp [LogSite.outcome, LogSite.executeFnOutcome, LogSite.bounds]
  | executeSequential => simp [LogSite.outcome, LogSite.executeFnOutcome, LogSite.bounds]
  | doInBg => simp [LogSite.outcome, LogSite.executeFnOutcome, LogSite.bounds]
  | executePipeline => exact absurd rfl h

theorem pipeline_error_iff :
    (∃ text, LogSite.executePipeline.outcome arg logs file = .error text) ↔
      getInFile (LogSite.indexInt logs (getNumInt arg)) file = none := by
  rw [LogSite.outcome]
  cases getInFile (LogSite.indexInt logs (getNumInt arg)) file with
  | none => simp
  | some replay => simp

theorem pipeline_ne_none : LogSite.executePipeline.outcome arg logs file ≠ .tokenized none := by
  rw [LogSite.outcome]
  split <;> simp

theorem namesEntry_lt (h : NamesEntry arg logs.count) (hcount : logs.count ≤ maxLogs) :
    numeral arg < 2147483648 := by
  have hle := h.2.2.2
  rw [maxLogs] at hcount
  omega

theorem lawful_pipeline_iff (hcount : logs.count ≤ maxLogs) :
    LogSite.executePipeline.Lawful arg logs file ↔
      LogSite.executePipeline.Meets arg logs (fileLines file).length := by
  by_cases hnames : NamesEntry arg logs.count
  · rw [LogSite.Meets, if_pos hnames]
    refine iff_of_true ⟨fun h => absurd hnames h, ?_, pipeline_ne_none⟩ (.inl rfl)
    intro _ hlarge
    exact absurd (namesEntry_lt hnames hcount) (Nat.not_lt.mpr hlarge)
  · rw [LogSite.Meets, if_neg hnames, if_pos rfl, ← indexInt_eq_strayIndex,
      ← getInFile_eq_none_iff, ← pipeline_error_iff]
    constructor
    · exact fun h => h.refused hnames
    · exact fun h => ⟨fun _ => h, fun _ _ => h, pipeline_ne_none⟩

theorem lawful_executeFn_iff (hsite : site ≠ .executePipeline) (hcount : logs.count ≤ maxLogs) :
    site.Lawful arg logs file ↔ site.Meets arg logs (fileLines file).length := by
  have houtcome : site.outcome arg logs file =
      if Unreadable arg ∨ site.bounds = true ∧ Large arg then .error "Invalid Syntax!\n"
      else .tokenized (getInFile (LogSite.indexInt logs (getNumInt arg)) file) :=
    outcome_of_ne_pipeline hsite
  by_cases hnames : NamesEntry arg logs.count
  · obtain ⟨hreadable, hsmall⟩ := not_unreadable_of_namesEntry hnames hcount
    have hfinds : site.outcome arg logs file ≠ .tokenized none ↔
        logs.start + numeral arg ≤ logs.count ∧
          logs.count - (logs.start + numeral arg) < (fileLines file).length := by
      rw [houtcome, if_neg (by simp [hreadable, hsmall]), ne_eq, LogOutcome.tokenized.injEq,
        getInFile_eq_none_iff, not_not, indexInt_of_namesEntry hnames hcount]
      omega
    rw [LogSite.Meets, if_pos hnames, ← hfinds]
    constructor
    · exact fun h => .inr h.present
    · intro h
      refine ⟨fun hnot => absurd hnames hnot, ?_, h.resolve_left hsite⟩
      intro _ hlarge
      exact absurd (namesEntry_lt hnames hcount) (Nat.not_lt.mpr hlarge)
  · rw [LogSite.Meets, if_neg hnames, if_neg hsite]
    constructor
    · intro h
      by_contra hpasses
      obtain ⟨text, herror⟩ := h.refused hnames
      rw [houtcome, if_neg hpasses] at herror
      cases herror
    · intro h
      rw [if_pos h] at houtcome
      refine ⟨fun _ => ⟨_, houtcome⟩, fun _ _ => ⟨_, houtcome⟩, ?_⟩
      rw [houtcome]
      simp

end Law

/-- Every place keeps the law exactly on the arguments that it tells apart, in every history and
with any `logs.txt` in the current directory. -/
theorem logExecute_lawful_iff (memory : Nat → List Char) (initial : List Char) (ops : List Op)
    {logs : Logs} (hlogs : runOps ops (loadLogs memory initial) = logs) (site : LogSite)
    (arg : List Char) (file : Option (List Char)) :
    site.Lawful arg logs file ↔ site.Meets arg logs (fileLines file).length := by
  have hcount : logs.count ≤ maxLogs := by
    rw [← hlogs]
    exact (fits_runOps (fits_loadLogs memory initial) ops).count_le
  by_cases hsite : site = .executePipeline
  · rw [hsite]
    exact lawful_pipeline_iff hcount
  · exact lawful_executeFn_iff hsite hcount

theorem logExecute_lawful_two :
    LogSite.doInBg.Lawful "02".toList (runOps (typedChars "ab".toList) (loadLogs (fun _ => []) []))
      (some "a\nb\n".toList) :=
  (logExecute_lawful_iff (fun _ => []) [] (typedChars "ab".toList) rfl .doInBg "02".toList
    (some "a\nb\n".toList)).mpr (by decide)

/-- In an empty history `log execute 1` hands `NULL` to `tokenize`. -/
theorem logExecute_unlawful :
    ¬ ∀ (memory : Nat → List Char) (initial : List Char) (ops : List Op) (site : LogSite)
        (arg : List Char) (file : Option (List Char)),
        site.Lawful arg (runOps ops (loadLogs memory initial)) file := by
  intro hall
  have hempty := (hall (fun _ => []) [] [] .main "1".toList (some [])).present
  exact hempty (by decide)

/-- 4294967297 is taken for 1. -/
example :
    LogSite.main.outcome "4294967297".toList
      (runOps (typedChars "a".toList) (loadLogs (fun _ => []) [])) (some "a\n".toList) =
      .tokenized (some "a\n".toList) := by decide

end OxyC.Shell
