import OxyC.Shell.Replay

/-!
# The builtin `log execute`

The five places that run it compute an index into `logs.txt` and fetch the line
there with `get_in`; `execute_fn` or `execute_string` then replays it.
-/

namespace OxyC.Shell

open OxyC.Foundation

/-- `get_num`, for numbers that fit into an `int`. -/
def getNum (input : List Char) : Int :=
  if input.all Char.isDigit then
    input.foldl (fun num c => num * 10 + (c.toNat - '0'.toNat : Int)) 0
  else -1

/-- The loop of `get_in`; each round reads a character. -/
def getInLoop : Nat → Int → Nat → List Char → Option (List Char)
  | 0, _, _, _ => none
  | fuel + 1, idx, i, file =>
      match fgets '\n' logSize file with
      | some (buffer, rest) =>
          if (i : Int) = idx then some buffer else getInLoop fuel idx (i + 1) rest
      | none => none

def getIn (idx : Int) (file : List Char) : Option (List Char) :=
  getInLoop file.length idx 0 file

inductive LogSite where
  | main
  | executeCommand
  | executeSequential
  | doInBg
  | executePipeline
  deriving DecidableEq, Repr

namespace LogSite

/-- The test of the number; `execute_pipeline` has none. -/
def rejects : LogSite → Int → Bool
  | .main, num => num = -1 || num > 15
  | .executeCommand, num => num = -1 || num > 15
  | .executeSequential, num => num = -1
  | .doInBg, num => num = -1
  | .executePipeline, _ => false

def index (logs : Logs) (num : Int) : Int :=
  ((logs.count : Int) - logs.start) - ((num - 1).tmod 15).tmod 15 - 1

/-- What `log execute arg` fetches, with the contents of `logs.txt` in `file`. -/
def fetch (site : LogSite) (arg : List Char) (logs : Logs) (file : List Char) :
    Option (List Char) :=
  if site.rejects (getNum arg) then none else getIn (index logs (getNum arg)) file

end LogSite

/-- The line of the `n`-th most recent entry. -/
def recent (logs : Logs) (n : Nat) : Option (List Char) :=
  (logs.entries maxLogs).reverse[n - 1]?.map (· ++ ['\n'])

def FetchesRecent (site : LogSite) (arg : List Char) (logs : Logs) (n : Nat) : Prop :=
  site.fetch arg logs (updateLogs logs) = recent logs n

/-- The `n`-th most recent entry also stands `start` places before. -/
def Logs.RepeatsAt (logs : Logs) (n : Nat) : Prop :=
  logs.start + n ≤ logs.count ∧
    (logs.entries maxLogs)[logs.count - (logs.start + n)]? =
      (logs.entries maxLogs)[logs.count - n]?

/-! ## The lines of the file -/

section Lines

variable {lines : List (List Char)} {fuel i : Nat}

theorem getInLoop_nil (fuel : Nat) (idx : Int) (i : Nat) : getInLoop fuel idx i [] = none := by
  cases fuel <;> rfl

theorem getInLoop_cons {line : List Char} (hline : IsLine line) (fuel : Nat) (idx : Int) (i : Nat)
    (file : List Char) :
    getInLoop (fuel + 1) idx i (line ++ '\n' :: file) =
      if (i : Int) = idx then some (line ++ ['\n']) else getInLoop fuel idx (i + 1) file := by
  rw [getInLoop, fgets_line hline.2 hline.1]

/-- The counter never comes down to an index it has passed. -/
theorem getInLoop_of_lt {idx : Int} (hall : ∀ line ∈ lines, IsLine line) (hidx : idx < i) :
    getInLoop fuel idx i (lines.flatMap (· ++ ['\n'])) = none := by
  induction lines generalizing fuel i with
  | nil => exact getInLoop_nil _ _ _
  | cons line lines ih =>
      cases fuel with
      | zero => rfl
      | succ fuel =>
          rw [List.flatMap_cons, List.append_assoc, List.singleton_append,
            getInLoop_cons (hall line List.mem_cons_self), if_neg (by omega)]
          exact ih (fun l hl => hall l (List.mem_cons_of_mem _ hl)) (by omega)

theorem getInLoop_add (k : Nat) (hall : ∀ line ∈ lines, IsLine line)
    (hfuel : lines.length ≤ fuel) :
    getInLoop fuel ((i + k : Nat) : Int) i (lines.flatMap (· ++ ['\n'])) =
      lines[k]?.map (· ++ ['\n']) := by
  induction lines generalizing fuel i k with
  | nil => exact getInLoop_nil _ _ _
  | cons line lines ih =>
      obtain ⟨fuel, rfl⟩ : ∃ m, fuel = m + 1 :=
        Nat.exists_eq_add_one.mpr (Nat.lt_of_lt_of_le (by simp) hfuel)
      rw [List.flatMap_cons, List.append_assoc, List.singleton_append,
        getInLoop_cons (hall line List.mem_cons_self)]
      cases k with
      | zero => simp
      | succ k =>
          have hrest := ih k (i := i + 1) (fun l hl => hall l (List.mem_cons_of_mem _ hl))
            (by simpa using hfuel)
          have hsum : i + 1 + k = i + (k + 1) := by omega
          rw [hsum] at hrest
          rw [if_neg (by omega), hrest, List.getElem?_cons_succ]

theorem length_le_flatMap_newline (lines : List (List Char)) :
    lines.length ≤ (lines.flatMap (· ++ ['\n'])).length := by
  induction lines with
  | nil => simp
  | cons line lines ih =>
      simp only [List.flatMap_cons, List.length_append, List.length_cons, List.length_nil]
      omega

end Lines

/-! ## The index -/

section Index

variable {logs : Logs} {history : List (List Char)}

theorem Records.isLine_of_mem (h : Records logs history) {line : List Char}
    (hline : line ∈ logs.entries maxLogs) : IsLine line := by
  rw [h.entries] at hline
  exact h.lines line (List.mem_of_mem_drop hline)

theorem getIn_of_neg (h : Records logs history) {idx : Int} (hidx : idx < 0) :
    getIn idx (updateLogs logs) = none :=
  getInLoop_of_lt (fun _ hline => h.isLine_of_mem hline) (by omega)

theorem getIn_natCast (h : Records logs history) (k : Nat) :
    getIn k (updateLogs logs) = (logs.entries maxLogs)[k]?.map (· ++ ['\n']) := by
  have hloop := getInLoop_add (i := 0) k (fun _ hline => h.isLine_of_mem hline)
    (length_le_flatMap_newline (logs.entries maxLogs))
  rwa [Nat.zero_add] at hloop

theorem index_eq {n : Nat} (hpos : 1 ≤ n) (hle : n ≤ maxLogs) :
    LogSite.index logs n = logs.count - (logs.start + n : Nat) := by
  have hmod : ((n : Int) - 1).tmod 15 = n - 1 := by
    rw [maxLogs] at hle
    exact Int.tmod_eq_of_lt (by omega) (by omega)
  rw [LogSite.index, hmod, hmod]
  omega

theorem rejects_eq_false (site : LogSite) {n : Nat} (hle : n ≤ maxLogs) :
    site.rejects n = false := by
  rw [maxLogs] at hle
  cases site <;> simp [LogSite.rejects] <;> omega

theorem recent_eq {n : Nat} (hpos : 1 ≤ n) (hcount : n ≤ logs.count) :
    recent logs n = (logs.entries maxLogs)[logs.count - n]?.map (· ++ ['\n']) := by
  rw [recent, List.getElem?_reverse (by simp; omega), RingBuffer.length_entries]
  congr 2
  omega

/-- A line that is fetched is the entry `start` places before the one that is meant. -/
theorem fetch_eq (h : Records logs history) (site : LogSite) {n : Nat} {arg : List Char}
    (harg : getNum arg = n) (hpos : 1 ≤ n) (hcount : n ≤ logs.count) :
    site.fetch arg logs (updateLogs logs) =
      if logs.start + n ≤ logs.count then
        (logs.entries maxLogs)[logs.count - (logs.start + n)]?.map (· ++ ['\n'])
      else none := by
  have hle : n ≤ maxLogs := hcount.trans h.fits.count_le
  rw [LogSite.fetch, harg, rejects_eq_false site hle, if_neg Bool.false_ne_true,
    index_eq hpos hle]
  split
  · rename_i hinside
    rw [← Int.ofNat_sub hinside]
    exact getIn_natCast h _
  · exact getIn_of_neg h (by omega)

theorem fetchesRecent_iff (h : Records logs history) (site : LogSite) {n : Nat}
    {arg : List Char} (harg : getNum arg = n) (hpos : 1 ≤ n) (hcount : n ≤ logs.count) :
    FetchesRecent site arg logs n ↔ logs.RepeatsAt n := by
  have hnewline : Function.Injective fun line : List Char => line ++ ['\n'] :=
    fun _ _ heq => List.append_cancel_right heq
  rw [FetchesRecent, Logs.RepeatsAt, fetch_eq h site harg hpos hcount, recent_eq hpos hcount]
  split
  · rename_i hinside
    rw [(Option.map_injective hnewline).eq_iff]
    simp [hinside]
  · rename_i houtside
    rw [List.getElem?_eq_getElem (by simp; omega)]
    simp [houtside]

theorem repeatsAt_of_start_eq_zero {n : Nat} (hstart : logs.start = 0) (hcount : n ≤ logs.count) :
    logs.RepeatsAt n := by
  rw [Logs.RepeatsAt, hstart, Nat.zero_add]
  exact ⟨hcount, rfl⟩

end Index

/-! ## Runs -/

section Runs

/-- Only a full ring turns. -/
def TurnsWhenFull (logs : Logs) : Prop := 0 < logs.start → maxLogs ≤ logs.count

theorem TurnsWhenFull.push {logs : Logs} (h : TurnsWhenFull logs) (cmd : List Char) :
    TurnsWhenFull (logs.push maxLogs cmd) := by
  unfold RingBuffer.push
  split
  · rename_i hroom
    intro hstart
    have hfull := h hstart
    omega
  · rename_i hfull
    exact fun _ => not_lt.mp hfull

theorem start_loadLoop (room : Nat) (logs : Logs) (file : List Char) :
    (loadLoop room logs file).start = logs.start := by
  induction room generalizing logs file with
  | zero => rfl
  | succ room ih =>
      rw [loadLoop]
      cases fgets '\n' logSize file with
      | none => rfl
      | some read => exact ih _ _

theorem turnsWhenFull_loadLogs (memory : Nat → List Char) (file : List Char) :
    TurnsWhenFull (loadLogs memory file) := by
  intro hstart
  rw [loadLogs, start_loadLoop] at hstart
  exact absurd hstart (lt_irrefl 0)

theorem TurnsWhenFull.step {logs : Logs} (h : TurnsWhenFull logs) (op : Op) :
    TurnsWhenFull (op.step logs) := by
  cases op with
  | typed line =>
      change TurnsWhenFull (addLog line.text logs)
      unfold addLog
      split
      · exact h
      · split
        · exact h
        · exact h.push _
  | purge => exact fun hstart => absurd hstart (lt_irrefl 0)
  | restart memory => exact turnsWhenFull_loadLogs _ _

theorem turnsWhenFull_runOps {logs : Logs} (h : TurnsWhenFull logs) (ops : List Op) :
    TurnsWhenFull (runOps ops logs) := by
  induction ops generalizing logs with
  | nil => exact h
  | cons op ops ih => exact ih (h.step op)

end Runs

/-- Every place fetches the entry `start` places too far back, or none; all is well exactly as
long as the ring has not turned. -/
theorem logExecute_iff (memory : Nat → List Char) (ops : List Op) {logs : Logs}
    (hlogs : runOps ops (loadLogs memory []) = logs) :
    (∀ site (n : Nat) arg, getNum arg = n → 1 ≤ n → n ≤ logs.count →
        (FetchesRecent site arg logs n ↔ logs.RepeatsAt n)) ∧
      ((∀ site (n : Nat) arg, getNum arg = n → 1 ≤ n → n ≤ logs.count →
          FetchesRecent site arg logs n) ↔ logs.start = 0) := by
  have hrecords := records_runOps memory ops
  have hturns := turnsWhenFull_runOps (turnsWhenFull_loadLogs memory []) ops
  rw [hlogs] at hrecords hturns
  refine ⟨fun site n arg => fetchesRecent_iff hrecords site, ?_, ?_⟩
  · intro hall
    by_contra hturned
    have hfull : logs.count = maxLogs :=
      le_antisymm hrecords.fits.count_le (hturns (Nat.pos_of_ne_zero hturned))
    -- the oldest entry of a full ring is looked for before the first line of the file
    have hnum : getNum "15".toList = (maxLogs : Int) := by decide
    have holdest := hall .main maxLogs "15".toList hnum (by decide) hfull.ge
    have hinside := ((fetchesRecent_iff hrecords .main hnum (by decide) hfull.ge).mp holdest).1
    rw [hfull, maxLogs] at hinside
    omega
  · intro hstart site n arg harg hpos hcount
    exact (fetchesRecent_iff hrecords site harg hpos hcount).mpr
      (repeatsAt_of_start_eq_zero hstart hcount)

/-- A line as `main` reads it, if the text is one. -/
def TypedLine.ofText? (text : List Char) : Option TypedLine :=
  if h : text.length < inputSize ∧ '\n' ∉ text then some ⟨text, h.1, h.2⟩ else none

def typedChars (s : List Char) : List Op :=
  (s.filterMap fun c => TypedLine.ofText? [c]).map .typed

theorem logExecute_three :
    (runOps (typedChars "abc".toList) (loadLogs (fun _ => []) [])).start = 0 ∧
      ∀ site (n : Nat) arg, getNum arg = n → 1 ≤ n →
        n ≤ (runOps (typedChars "abc".toList) (loadLogs (fun _ => []) [])).count →
        FetchesRecent site arg (runOps (typedChars "abc".toList) (loadLogs (fun _ => []) [])) n :=
  ⟨by decide, (logExecute_iff (fun _ => []) (typedChars "abc".toList) rfl).2.mpr (by decide)⟩

/-- After 16 different lines `log execute 1` fetches the line before the last one. -/
theorem logExecute_sixteen :
    ¬ ∀ (memory : Nat → List Char) (ops : List Op) (site : LogSite) (n : Nat) (arg : List Char),
        getNum arg = n → 1 ≤ n → n ≤ (runOps ops (loadLogs memory [])).count →
        FetchesRecent site arg (runOps ops (loadLogs memory [])) n := by
  intro hall
  have hlast := hall (fun _ => []) (typedChars "abcdefghijklmnop".toList) .main 1 "1".toList
    (by decide) (by decide) (by decide)
  unfold FetchesRecent at hlast
  exact absurd hlast (by decide)

/-! ## What a child runs -/

/-- The comparisons of `execute_command`. -/
def commandChain : List Branch :=
  [⟨.hop, false⟩, ⟨.reveal, false⟩, ⟨.log, false⟩, ⟨.ping, false⟩, ⟨.activities, false⟩,
    ⟨.fg, false⟩, ⟨.bg, false⟩]

/-- The comparisons for a stage of `execute_pipeline`. -/
def pipelineChain : List Branch :=
  [⟨.hop, false⟩, ⟨.reveal, false⟩, ⟨.log, false⟩, ⟨.fg, false⟩, ⟨.bg, false⟩, ⟨.ping, false⟩,
    ⟨.activities, false⟩]

/-- The builtins and programs that an event runs, in the shell or in a child. -/
def Event.runs (e : Event) : List Runner :=
  match e.runner with
  | .builtin b => [.builtin b]
  | .exec => [.exec]
  | .command => e.group.atoms.map (runSingle commandChain .exec)
  | .pipeline => e.group.atoms.map (runSingle pipelineChain .exec)

/-- A dispatch that replays entries, `depth` of them one inside the other. -/
inductive ReplaysAt (entries : List (List Char)) : Nat → List Event → Prop
  | here (events : List Event) : ReplaysAt entries 0 events
  | executeFn {depth : Nat} {events : List Event} {e : Event} {line : List Char}
      (he : e ∈ events) (hlog : .builtin .log ∈ e.runs) (hline : line ∈ entries)
      (inner : ReplaysAt entries depth (executeFn line)) : ReplaysAt entries (depth + 1) events
  | executeString {depth : Nat} {events : List Event} {e : Event} {line : List Char}
      (he : e ∈ events) (hlog : .builtin .log ∈ e.runs) (hline : line ∈ entries)
      (inner : ReplaysAt entries depth (executeString line)) : ReplaysAt entries (depth + 1) events

section NoLog

variable {cmd : ShellCmd (List Char)} {line : List Char}

theorem head_of_runSingle {chain : List Branch} {otherwise : Runner} {a : Atomic (List Char)}
    {b : Builtin} (h : runSingle chain otherwise a = .builtin b) :
    otherwise = .builtin b ∨ a.argv.head? = some b.name := by
  unfold runSingle at h
  split at h
  · rename_i branch hfind
    have happlies := List.find?_some hfind
    simp only [Branch.applies, Bool.and_eq_true, decide_eq_true_eq] at happlies
    cases h
    exact .inr happlies.2
  · exact .inl h

theorem groupRunner_ne_log (hlog : NoLog cmd) {g : CmdGroup (List Char)} (hg : g ∈ cmd.groups)
    (chain : List Branch) : groupRunner chain g ≠ .builtin .log := by
  unfold groupRunner
  split
  · rename_i a hatoms
    intro hrunner
    cases head_of_runSingle hrunner with
    | inl hother =>
        unfold execOrCommand at hother
        split at hother <;> cases hother
    | inr hhead => exact hlog g hg a (by simp [hatoms]) hhead
  · exact Runner.noConfusion

theorem log_not_mem_runs (hlog : NoLog cmd) {e : Event} (hgroup : e.group ∈ cmd.groups)
    (hrunner : e.runner ≠ .builtin .log) : .builtin .log ∉ e.runs := by
  have hstages : ∀ chain : List Branch,
      .builtin .log ∉ e.group.atoms.map (runSingle chain .exec) := by
    intro chain hmem
    obtain ⟨a, ha, hrun⟩ := List.mem_map.mp hmem
    cases head_of_runSingle hrun with
    | inl hother => cases hother
    | inr hhead => exact hlog e.group hgroup a ha hhead
  unfold Event.runs
  split
  · rename_i b hb
    rw [List.mem_singleton, ← hb]
    exact hrunner.symm
  · simp
  · exact hstages commandChain
  · exact hstages pipelineChain

theorem log_not_mem_loop (hlog : NoLog cmd) {gs : List (CmdGroup (List Char) × Nat)}
    (hgs : ∀ g ∈ gs, g.1 ∈ cmd.groups) (chain : List Branch) (place : Place) :
    ∀ e ∈ gs.flatMap (dispatchGroup chain place cmd), .builtin .log ∉ e.runs := by
  intro e he
  obtain ⟨g, hg, -, rfl⟩ := (mem_loop chain place).mp he
  exact log_not_mem_runs hlog (hgs g hg) (groupRunner_ne_log hlog (hgs g hg) chain)

theorem log_not_mem_replayDispatch (hwf : cmd.WellFormed) (hlog : NoLog cmd) :
    ∀ e ∈ replayDispatch cmd, .builtin .log ∉ e.runs := by
  rw [replayDispatch_eq hwf]
  intro e he
  cases List.mem_append.mp he with
  | inl hbg =>
      exact log_not_mem_loop hlog
        (fun g hg => List.fst_mem_of_mem_zipIdx (List.mem_of_mem_take hg)) _ _ e hbg
  | inr hshell =>
      exact log_not_mem_loop hlog
        (fun g hg => List.fst_mem_of_mem_zipIdx (List.mem_of_mem_drop hg)) _ _ e hshell

/-- The newline does not complete the text `log`. -/
theorem ifLog_newline (h : ifLog line = false) : ifLog (line ++ ['\n']) = false := by
  rw [← Bool.not_eq_true, ifLog_iff] at h ⊢
  rw [List.infix_concat_iff, List.suffix_concat_iff]
  rintro ((hnil | ⟨t, htext, -⟩) | hinside)
  · exact absurd hnil (by decide)
  · have hlast := congrArg List.getLast? htext
    rw [List.getLast?_concat] at hlast
    exact absurd hlast (by decide)
  · exact h hinside

theorem log_not_mem_executeFn (hstored : ifLog line = false) :
    ∀ e ∈ executeFn line, .builtin .log ∉ e.runs := by
  unfold executeFn
  split
  · rename_i cmd hline
    exact log_not_mem_replayDispatch (parseLine_wellFormed hline)
      (noLog_of_stored (ifLog_newline hstored) hline)
  · simp

theorem log_not_mem_executeString (hstored : ifLog line = false) :
    ∀ e ∈ executeString line, .builtin .log ∉ e.runs := by
  unfold executeString
  split
  · rename_i cmd hline
    exact log_not_mem_replayDispatch (parseLine_wellFormed hline) (noLog_of_stored hstored hline)
  · simp

theorem ReplaysAt.depth_eq_zero {entries : List (List Char)} {depth : Nat} {events : List Event}
    (h : ReplaysAt entries depth events) (hlog : ∀ e ∈ events, .builtin .log ∉ e.runs) :
    depth = 0 := by
  cases h with
  | here => rfl
  | executeFn he hrun => exact absurd hrun (hlog _ he)
  | executeString he hrun => exact absurd hrun (hlog _ he)

theorem ReplaysAt.depth_le_one {entries : List (List Char)} {depth : Nat} {events : List Event}
    (hstored : ∀ line ∈ entries, ifLog line = false) (h : ReplaysAt entries depth events) :
    depth ≤ 1 := by
  cases h with
  | here => exact Nat.zero_le 1
  | executeFn he hrun hline inner =>
      exact Nat.succ_le_succ (inner.depth_eq_zero (log_not_mem_executeFn (hstored _ hline))).le
  | executeString he hrun hline inner =>
      exact Nat.succ_le_succ (inner.depth_eq_zero (log_not_mem_executeString (hstored _ hline))).le

theorem ifLog_of_mem_historyOf {lines : List (List Char)} (h : line ∈ historyOf lines) :
    ifLog line = false := by
  have hkept := (List.destutter_sublist _ _).subset h
  simpa using (List.mem_filter.mp hkept).2

end NoLog

/-- No entry of a history replays another one, so replays are never nested. -/
theorem replay_never_nests (memory : Nat → List Char) (ops : List Op) :
    (∀ line ∈ (runOps ops (loadLogs memory [])).entries maxLogs,
        (∀ e ∈ executeFn line, .builtin .log ∉ e.runs) ∧
          ∀ e ∈ executeString line, .builtin .log ∉ e.runs) ∧
      ∀ depth events,
        ReplaysAt ((runOps ops (loadLogs memory [])).entries maxLogs) depth events →
          depth ≤ 1 := by
  have hstored : ∀ line ∈ (runOps ops (loadLogs memory [])).entries maxLogs,
      ifLog line = false := by
    intro line hline
    rw [(records_runOps memory ops).entries] at hline
    exact ifLog_of_mem_historyOf (List.mem_of_mem_drop hline)
  constructor
  · intro line hline
    exact ⟨log_not_mem_executeFn (hstored line hline),
      log_not_mem_executeString (hstored line hline)⟩
  · intro depth events hreplays
    exact hreplays.depth_le_one hstored

end OxyC.Shell
