import OxyC.Foundation.RingBuffer
import OxyC.Foundation.Scan
import OxyC.Foundation.Stdio
import Mathlib.Data.List.Destutter

/-!
# The history of the shell

`add_log`, `log purge`, `update_logs` and the loading loop of `main` over the
ring `start`, `count`, `logs`.
-/

namespace OxyC.Shell

open OxyC.Foundation

/-- `if_log`: the text `log` stands somewhere in the line. -/
def ifLog (cmd : List Char) : Bool :=
  let n := cmd.length
  decide (3 ≤ n) && (List.range (n - 2)).any fun i =>
    cmd[i]? == some 'l' && cmd[i + 1]? == some 'o' && cmd[i + 2]? == some 'g'

def maxLogs : Nat := 15

def logSize : Nat := 4097

def inputSize : Nat := 1024

abbrev Logs := RingBuffer (List Char)

def addLog (cmd : List Char) (logs : Logs) : Logs :=
  if ifLog cmd then logs
  else if 0 < logs.count ∧ logs.slots ((logs.start + logs.count - 1) % maxLogs) = cmd then logs
  else logs.push maxLogs cmd

/-- What `update_logs` writes to `logs.txt`. -/
def updateLogs (logs : Logs) : List Char :=
  (logs.entries maxLogs).flatMap fun cmd => cmd ++ ['\n']

/-- The loop of `main` over the lines of `logs.txt`, with room for more entries. -/
def loadLoop : Nat → Logs → List Char → Logs
  | 0, logs, _ => logs
  | room + 1, logs, file =>
      match fgets '\n' logSize file with
      | some (line, rest) =>
          loadLoop room
            { logs with
              slots := Function.update logs.slots logs.count (line.takeWhile (· != '\n'))
              count := logs.count + 1 } rest
      | none => logs

/-- The history at start-up, with `logs` on memory that is not initialised. -/
def loadLogs (memory : Nat → List Char) (file : List Char) : Logs :=
  loadLoop maxLogs ⟨0, 0, memory⟩ file

/-- A line that `main` reads into `input`. -/
structure TypedLine where
  text : List Char
  length_lt : text.length < inputSize
  no_newline : '\n' ∉ text

/-- `log purge` is one that the shell process executes. -/
inductive Op where
  | typed (line : TypedLine)
  | purge
  | restart (memory : Nat → List Char)

namespace Op

def step (logs : Logs) : Op → Logs
  | .typed line => addLog line.text logs
  | .purge => logs.clear
  | .restart memory => loadLogs memory (updateLogs logs)

def isPurge : Op → Bool
  | .purge => true
  | _ => false

def text? : Op → Option (List Char)
  | .typed line => some line.text
  | _ => none

end Op

def runOps (ops : List Op) (logs : Logs) : Logs := ops.foldl Op.step logs

def typedSincePurge (ops : List Op) : List (List Char) :=
  (ops.rtakeWhile (!·.isPurge)).filterMap Op.text?

/-- The lines that belong to the history: none with `log` in it, none like the one before. -/
def historyOf (lines : List (List Char)) : List (List Char) :=
  (lines.filter (!ifLog ·)).destutter (· ≠ ·)

theorem ifLog_iff (cmd : List Char) : ifLog cmd = true ↔ "log".toList <:+: cmd := by
  simp only [ifLog, Bool.and_eq_true, decide_eq_true_eq, List.any_eq_true, List.mem_range,
    beq_iff_eq, List.infix_iff_getElem?]
  constructor
  · rintro ⟨hlength, i, hi, ⟨hl, ho⟩, hg⟩
    refine ⟨i, by simp; omega, fun j hj => ?_⟩
    rw [Nat.add_comm j i]
    match j, hj with
    | 0, _ => exact hl
    | 1, _ => exact ho
    | 2, _ => exact hg
  · rintro ⟨i, hlength, hall⟩
    have hlength : 3 + i ≤ cmd.length := hlength
    have hl := hall 0 (by decide)
    have ho := hall 1 (by decide)
    have hg := hall 2 (by decide)
    rw [Nat.zero_add] at hl
    rw [Nat.add_comm] at ho hg
    exact ⟨by omega, i, by omega, ⟨hl, ho⟩, hg⟩

/-! ## The list without repetitions -/

section Destutter

variable {α : Type*} [DecidableEq α]

theorem destutter'_concat (a : α) (l : List α) (x : α) :
    (l ++ [x]).destutter' (· ≠ ·) a =
      if (l.destutter' (· ≠ ·) a).getLast? = some x then l.destutter' (· ≠ ·) a
      else l.destutter' (· ≠ ·) a ++ [x] := by
  induction l generalizing a with
  | nil =>
      by_cases h : a = x <;> simp [h]
  | cons b l ih =>
      by_cases h : a = b
      · simp [h, ih]
      · have hlast : (a :: l.destutter' (· ≠ ·) b).getLast? =
            (l.destutter' (· ≠ ·) b).getLast? :=
          List.getLast?_cons_of_ne_nil (List.destutter'_ne_nil _ _)
        simp only [List.cons_append, List.destutter'_cons, ne_eq, h, not_false_iff, if_true, ih,
          hlast]
        split <;> rfl

theorem destutter_concat (l : List α) (x : α) :
    (l ++ [x]).destutter (· ≠ ·) =
      if (l.destutter (· ≠ ·)).getLast? = some x then l.destutter (· ≠ ·)
      else l.destutter (· ≠ ·) ++ [x] := by
  cases l with
  | nil => simp
  | cons a l => exact destutter'_concat a l x

end Destutter

/-! ## What the ring holds -/

/-- The lines that survive `logs.txt`. -/
def IsLine (cmd : List Char) : Prop := cmd.length + 2 ≤ logSize ∧ '\n' ∉ cmd

theorem TypedLine.isLine (line : TypedLine) : IsLine line.text := by
  have hlength := line.length_lt
  refine ⟨?_, line.no_newline⟩
  rw [inputSize] at hlength
  rw [logSize]
  omega

/-- The ring holds the end of the list `history`. -/
structure Records (logs : Logs) (history : List (List Char)) : Prop where
  fits : logs.Fits maxLogs
  entries : logs.entries maxLogs = history.rtake maxLogs
  lines : ∀ cmd ∈ history, IsLine cmd

section Records

variable {logs : Logs} {history : List (List Char)}

theorem Records.push {cmd : List Char} (h : Records logs history) (hline : IsLine cmd) :
    Records (logs.push maxLogs cmd) (history ++ [cmd]) where
  fits := h.fits.push cmd
  entries := by rw [RingBuffer.entries_push h.fits, h.entries, rtake_concat]
  lines := by
    intro c hc
    cases List.mem_append.mp hc with
    | inl hold => exact h.lines c hold
    | inr hnew => rwa [List.mem_singleton.mp hnew]

theorem Records.last_iff (h : Records logs history) (cmd : List Char) :
    (0 < logs.count ∧ logs.slots ((logs.start + logs.count - 1) % maxLogs) = cmd) ↔
      history.getLast? = some cmd := by
  rw [← getLast?_rtake (n := maxLogs) (by decide), ← h.entries]
  cases Nat.eq_zero_or_pos logs.count with
  | inl hzero => simp [RingBuffer.entries, hzero]
  | inr hpos => simp [RingBuffer.getLast?_entries hpos, hpos]

theorem Records.addLog (h : Records logs history) (line : TypedLine) :
    Records (addLog line.text logs)
      (if ifLog line.text ∨ history.getLast? = some line.text then history
        else history ++ [line.text]) := by
  unfold OxyC.Shell.addLog
  simp only [h.last_iff]
  by_cases hlog : ifLog line.text = true
  · simpa [hlog] using h
  · by_cases hlast : history.getLast? = some line.text
    · simpa [hlog, hlast] using h
    · simpa [hlog, hlast] using h.push line.isLine

/-- Loading a line is a push, for nothing has been dropped yet. -/
theorem loadLoop_line {room : Nat} {cmd : List Char} (hline : IsLine cmd)
    (hstart : logs.start = 0) (hroom : logs.count + (room + 1) = maxLogs) (file : List Char) :
    loadLoop (room + 1) logs (cmd ++ '\n' :: file) =
      loadLoop room (logs.push maxLogs cmd) file := by
  have hstrip : (cmd ++ ['\n']).takeWhile (· != '\n') = cmd := by
    rw [takeWhile_concat (by decide), takeWhile_bne_of_not_mem hline.2]
  have hslot : logs.slot maxLogs logs.count = logs.count := by
    rw [RingBuffer.slot, hstart, Nat.zero_add, Nat.mod_eq_of_lt (by omega)]
  rw [loadLoop, fgets_line hline.2 hline.1, RingBuffer.push, if_pos (by omega), hslot]
  simp only [hstrip]

theorem loadLoop_records {room : Nat} {lines : List (List Char)} (h : Records logs history)
    (hstart : logs.start = 0) (hroom : logs.count + room = maxLogs) (hlines : lines.length ≤ room)
    (hall : ∀ cmd ∈ lines, IsLine cmd) :
    Records (loadLoop room logs (lines.flatMap (· ++ ['\n']))) (history ++ lines) := by
  induction room generalizing logs history lines with
  | zero =>
      have hnone : lines = [] := List.eq_nil_of_length_eq_zero (by omega)
      subst hnone
      simpa [loadLoop] using h
  | succ room ih =>
      cases lines with
      | nil => simpa [loadLoop] using h
      | cons cmd lines =>
          have hcmd := hall cmd List.mem_cons_self
          have hlt : logs.count < maxLogs := by omega
          have hstart' : (logs.push maxLogs cmd).start = 0 := by
            rw [RingBuffer.start_push_of_lt hlt, hstart]
          have hroom' : (logs.push maxLogs cmd).count + room = maxLogs := by
            rw [RingBuffer.count_push_of_lt hlt]
            omega
          have hrest := ih (h.push hcmd) hstart' hroom' (by simpa using hlines)
            fun c hc => hall c (List.mem_cons_of_mem _ hc)
          rw [List.append_assoc, List.singleton_append] at hrest
          rw [List.flatMap_cons, List.append_assoc, List.singleton_append,
            loadLoop_line hcmd hstart hroom]
          exact hrest

theorem Records.empty (memory : Nat → List Char) : Records ⟨0, 0, memory⟩ [] where
  fits := ⟨(by decide : 0 < maxLogs), Nat.zero_le _⟩
  entries := rfl
  lines := by simp

theorem Records.reload (h : Records logs history) (memory : Nat → List Char) :
    Records (loadLogs memory (updateLogs logs)) (logs.entries maxLogs) := by
  have hlines : ∀ cmd ∈ logs.entries maxLogs, IsLine cmd := by
    rw [h.entries]
    exact fun cmd hcmd => h.lines cmd (List.mem_of_mem_drop hcmd)
  exact loadLoop_records (.empty memory) rfl rfl (by simpa using h.fits.count_le) hlines

theorem Records.restart (h : Records logs history) (memory : Nat → List Char) :
    Records (loadLogs memory (updateLogs logs)) history where
  fits := (h.reload memory).fits
  entries := by rw [(h.reload memory).entries, h.entries, rtake_rtake le_rfl]
  lines := h.lines

end Records

/-! ## Runs -/

section Runs

theorem runOps_concat (ops : List Op) (op : Op) (logs : Logs) :
    runOps (ops ++ [op]) logs = op.step (runOps ops logs) := by
  simp [runOps]

theorem typedSincePurge_concat (ops : List Op) {op : Op} (h : op.isPurge = false) :
    typedSincePurge (ops ++ [op]) = typedSincePurge ops ++ op.text?.toList := by
  rw [typedSincePurge, List.rtakeWhile_concat_pos _ _ _ (by simp [h])]
  cases htext : op.text? <;> simp [typedSincePurge, htext]

theorem typedSincePurge_purge (ops : List Op) : typedSincePurge (ops ++ [.purge]) = [] := by
  rw [typedSincePurge, List.rtakeWhile_concat_neg _ _ _ (by simp [Op.isPurge])]
  rfl

theorem historyOf_concat (lines : List (List Char)) (cmd : List Char) :
    historyOf (lines ++ [cmd]) =
      if ifLog cmd ∨ (historyOf lines).getLast? = some cmd then historyOf lines
      else historyOf lines ++ [cmd] := by
  by_cases hlog : ifLog cmd = true
  · simp [historyOf, hlog]
  · have hfilter : [cmd].filter (!ifLog ·) = [cmd] := by simp [hlog]
    rw [historyOf, List.filter_append, hfilter, destutter_concat]
    simp [historyOf, hlog]

theorem records_runOps (memory : Nat → List Char) (ops : List Op) :
    Records (runOps ops (loadLogs memory [])) (historyOf (typedSincePurge ops)) := by
  induction ops using List.reverseRecOn with
  | nil => exact .empty memory
  | append_singleton ops op ih =>
      rw [runOps_concat]
      cases op with
      | typed line =>
          rw [typedSincePurge_concat ops rfl]
          simp only [Op.text?, Option.toList, historyOf_concat]
          exact ih.addLog line
      | purge =>
          rw [typedSincePurge_purge]
          have hnone : historyOf [] = [] := rfl
          rw [hnone]
          exact ⟨ih.fits.clear, RingBuffer.entries_clear _ _, by simp⟩
      | restart memory =>
          rw [typedSincePurge_concat ops rfl]
          simpa [Op.text?, Op.step] using ih.restart memory

end Runs

/-- Over every run the ring holds the last 15 lines of the history since the last purge. -/
theorem history_refines (memory : Nat → List Char) (ops : List Op) :
    (runOps ops (loadLogs memory [])).start < maxLogs ∧
      (runOps ops (loadLogs memory [])).count ≤ maxLogs ∧
      (runOps ops (loadLogs memory [])).entries maxLogs =
        (historyOf (typedSincePurge ops)).rtake maxLogs := by
  have hrecords := records_runOps memory ops
  exact ⟨hrecords.fits.start_lt, hrecords.fits.count_le, hrecords.entries⟩

end OxyC.Shell
