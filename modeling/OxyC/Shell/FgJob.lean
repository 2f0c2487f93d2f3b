import OxyC.Shell.JobArray

/-!
# Which job `fg` removes and reports

`do_fg` finds its job as a pointer and, only where it searches, as the index `i`
too.  It removes the entry at `i`, and it reports the cell behind the last entry.
-/

namespace OxyC.Shell

open OxyC.Foundation

namespace JobArray

/-- The entry `k` behind the first part of `do_fg`. -/
def resumed (t : JobArray) (k : Nat) : Job := { t.slots k with state := .running }

/-- What is promised of `fg` once the job it waits for has stopped or ended. -/
def FgLawful (jid junk : Int) (stopped : Bool) (t : JobArray) : Prop :=
  ∀ k, t.pickJob jid = some k →
    ∃ t' lines, t.doFg jid junk stopped = some (t', lines) ∧
      if stopped then
        t'.entries = t.entries.modify k (fun job => { job with state := .stopped }) ∧
          lines = [.cmdline (t.slots k).cmdline, .stopped (t.slots k).jobId (t.slots k).cmdline]
      else t'.entries = t.entries.eraseIdx k

/--
The cell behind the last entry tells of the job, or the entries from `i` up to the
job are like it.
-/
def FgMeets (jid junk : Int) (stopped : Bool) (t : JobArray) : Prop :=
  ∀ k, t.pickJob jid = some k →
    if stopped then
      (t.count : Int) < maxJobs ∧ (t.slots t.count).jobId = (t.slots k).jobId ∧
        (t.slots t.count).cmdline = (t.slots k).cmdline
    else
      0 ≤ t.pickIndex jid junk k ∧
        ∀ j : Nat, t.pickIndex jid junk k ≤ j → j < k → t.slots j = t.resumed k

variable {t t' : JobArray} {jid junk : Int} {k : Nat}

/-- A job that runs is marked as running, which changes nothing. -/
theorem setState_running (t : JobArray) (k : Nat) :
    (if (t.slots k).state = .stopped then t.setState k .running else t) =
      t.setState k .running := by
  split
  next => rfl
  next hstate =>
      have hsame : Job.mk (t.slots k).jobId (t.slots k).pid (t.slots k).cmdline .running =
          t.slots k := by
        cases h : t.slots k with
        | mk jobId pid cmdline state =>
            cases state with
            | running => rfl
            | stopped => simp [h] at hstate
      simp only [setState, Packed.modify, hsame, Function.update_eq_self]

theorem doFg_stopped (hk : t.pickJob jid = some k) :
    t.doFg jid junk true =
      if (t.count : Int) < maxJobs then
        some ((t.setState k .running).setState k .stopped,
          [.cmdline (t.slots k).cmdline,
            .stopped (t.slots t.count).jobId (t.slots t.count).cmdline])
      else none := by
  have hne : t.count ≠ k := (pickJob_lt hk).ne'
  simp only [doFg, hk, setState_running, if_true]
  simp only [setState, Packed.modify, Function.update_of_ne hne]

theorem doFg_ended (hk : t.pickJob jid = some k) :
    t.doFg jid junk false =
      ((t.setState k .running).removeJob (t.pickIndex jid junk k)).map
        (·, [.cmdline (t.slots k).cmdline]) := by
  simp only [doFg, hk, setState_running, Bool.false_eq_true, if_false]

theorem entries_stopped (t : JobArray) (k : Nat) :
    ((t.setState k .running).setState k .stopped).entries =
      t.entries.modify k fun job => { job with state := .stopped } := by
  rw [entries_setState, entries_setState, List.modify_modify_eq]
  rfl

/-- The entry at index `m`, in front of `k` or `k` itself, may be removed for `k`. -/
theorem erase_resumed_iff {m : Nat} (hm : m ≤ k) (hk : k < t.count) :
    (t.setState k .running).entries.eraseIdx m = t.entries.eraseIdx k ↔
      ∀ j, m ≤ j → j < k → t.slots j = t.resumed k := by
  have herase : (t.setState k .running).entries.eraseIdx k = t.entries.eraseIdx k := by
    apply List.ext_getElem?
    intro j
    rw [entries_setState, List.getElem?_eraseIdx, List.getElem?_eraseIdx, List.getElem?_modify,
      List.getElem?_modify]
    by_cases hjk : j < k
    · have hne : ¬ k = j := by omega
      simp [hjk, hne]
    · have hne : ¬ k = j + 1 := by omega
      simp [hjk, hne]
  rw [← herase, Packed.eraseIdx_eq_eraseIdx_iff hm]
  refine forall_congr' fun j => forall_congr' fun _ => forall_congr' fun hjk => ?_
  have hne : j ≠ k := by omega
  have hj : j < (t.setState k .running).count := by
    change j < t.count
    omega
  rw [Packed.getElem?_entries_of_lt hj, Packed.getElem?_entries_of_lt (t := t.setState k _) hk]
  simp [setState, Packed.modify, Function.update_of_ne hne, resumed]

theorem fg_ended_iff (hk : t.pickJob jid = some k) :
    (∃ t' lines, t.doFg jid junk false = some (t', lines) ∧
        t'.entries = t.entries.eraseIdx k) ↔
      0 ≤ t.pickIndex jid junk k ∧
        ∀ j : Nat, t.pickIndex jid junk k ≤ j → j < k → t.slots j = t.resumed k := by
  have hlt := pickJob_lt hk
  have hpos : 0 < (t.setState k .running).count := Nat.zero_lt_of_lt hlt
  have hcount : (t.setState k .running).count = t.count := rfl
  rw [doFg_ended hk]
  generalize hi : t.pickIndex jid junk k = i
  by_cases hneg : i < 0
  · -- the loop begins in front of the array, for there is an entry
    have hnone : (t.setState k .running).removeJob i = none := by
      rw [removeJob, if_pos ⟨by rw [hcount]; omega, hneg⟩]
    rw [hnone]
    refine iff_of_false ?_ fun h => absurd h.1 (by omega)
    rintro ⟨t', lines, heq, -⟩
    cases heq
  · have hremove : (t.setState k .running).removeJob i =
        some ((t.setState k .running).remove i.toNat) := by
      rw [removeJob, if_neg fun h => hneg h.2]
    have hmin : min i.toNat (t.count - 1) ≤ k := by
      unfold pickIndex at hi
      unfold pickJob at hk
      split at hi
      next hdefault =>
          rw [if_pos hdefault] at hk
          cases hk
          omega
      next => omega
    have herase := erase_resumed_iff hmin hlt
    rw [hremove]
    simp only [Option.map_some, Option.some.injEq, Prod.mk.injEq]
    constructor
    · rintro ⟨t', lines, ⟨rfl, -⟩, hentries⟩
      rw [Packed.entries_remove hpos, hcount] at hentries
      refine ⟨by omega, fun j hij hjk => herase.mp hentries j (by omega) hjk⟩
    · rintro ⟨-, halike⟩
      refine ⟨_, _, ⟨rfl, rfl⟩, ?_⟩
      rw [Packed.entries_remove hpos, hcount]
      exact herase.mpr fun j hmj hjk => halike j (by omega) hjk

theorem fg_stopped_iff (hk : t.pickJob jid = some k) :
    (∃ t' lines, t.doFg jid junk true = some (t', lines) ∧
        t'.entries = t.entries.modify k (fun job => { job with state := .stopped }) ∧
          lines = [.cmdline (t.slots k).cmdline,
            .stopped (t.slots k).jobId (t.slots k).cmdline]) ↔
      (t.count : Int) < maxJobs ∧ (t.slots t.count).jobId = (t.slots k).jobId ∧
        (t.slots t.count).cmdline = (t.slots k).cmdline := by
  rw [doFg_stopped hk]
  constructor
  · rintro ⟨t', lines, heq, -, hlines⟩
    obtain ⟨hroom, hvalue⟩ := Option.ite_none_right_eq_some.mp heq
    cases hvalue
    simpa [hroom] using hlines
  · rintro ⟨hroom, hid, hcmdline⟩
    rw [if_pos hroom, hid, hcmdline]
    exact ⟨_, _, rfl, entries_stopped t k, rfl⟩

/--
`fg` removes its job, or reports it as stopped, exactly if `i` and the cell behind the last entry
happen to lead there.
-/
theorem fg_lawful_iff (jid junk : Int) (stopped : Bool) (t : JobArray) :
    FgLawful jid junk stopped t ↔ FgMeets jid junk stopped t := by
  refine forall_congr' fun k => forall_congr' fun hk => ?_
  cases stopped with
  | false => simpa using fg_ended_iff hk
  | true => simpa using fg_stopped_iff hk

/-- Two jobs in front of a cell that has never been used. -/
def twoJobs : JobArray where
  slots k :=
    if k = 0 then ⟨1, 1001, "a ".toList, .running⟩
    else if k = 1 then ⟨2, 1002, "b ".toList, .stopped⟩ else ⟨0, 0, [], .running⟩
  count := 2

/-- With `i` at 0 the first job disappears for the second, and the stop of a job 0 is reported. -/
theorem fg_takes_other :
    (twoJobs.doFg (-1) 0 false).map (fun x => x.1.entries) =
        some [⟨2, 1002, "b ".toList, .running⟩] ∧
      (twoJobs.doFg (-1) 0 true).map Prod.snd =
        some [.cmdline "b ".toList, .stopped 0 []] ∧
      ¬ FgLawful (-1) 0 false twoJobs ∧ ¬ FgLawful (-1) 0 true twoJobs := by
  have hended : (twoJobs.doFg (-1) 0 false).map (fun x => x.1.entries) =
      some [⟨2, 1002, "b ".toList, .running⟩] := by decide
  have hstopped : (twoJobs.doFg (-1) 0 true).map Prod.snd =
      some [.cmdline "b ".toList, .stopped 0 []] := by decide
  refine ⟨hended, hstopped, fun hlaw => ?_, fun hlaw => ?_⟩
  · obtain ⟨t', lines, hfg, hentries⟩ := hlaw 1 (by decide)
    rw [if_neg (by decide)] at hentries
    simp only [hfg, Option.map_some, Option.some.injEq, hentries] at hended
    exact absurd hended (by decide)
  · obtain ⟨t', lines, hfg, -, hlines⟩ := hlaw 1 (by decide)
    simp only [hfg, Option.map_some, Option.some.injEq, hlines] at hstopped
    exact absurd hstopped (by decide)

end JobArray

/-! ## The steps of the shell -/

namespace World

open JobArray

variable {w : World} {t t' : JobArray} {jid junk : Int} {k : Nat} {lines : List JobLine}

/-- The steps of `fg` up to the return of its wait call leave the table of `do_fg`. -/
theorem holds_doFg (hw : t.Holds w.table) (hk : t.pickJob jid = some k) (stopped : Bool)
    (hfg : t.doFg jid junk stopped = some (t', lines)) :
    t'.Holds (((w.fg jid junk).beginWait k (t.pickIndex jid junk k)).returned stopped).table := by
  have hlt := pickJob_lt hk
  have hjob : w.table.jobs[k]? = some (t.slots k) := by
    rw [hw.jobs, Packed.getElem?_entries_of_lt hlt]
  have hresumed : (t.setState k .running).Holds (w.fg jid junk).table := by
    have hfound : w.table.pick jid = some k := by rw [hw.pick, hk]
    simp only [World.fg, hfound, hjob]
    split
    next => exact hw.setState k .running
    next hstate =>
        have hsame := setState_running t k
        rw [if_neg hstate] at hsame
        rw [← hsame]
        exact hw
  have hpos : 0 < (t.setState k .running).count := Nat.zero_lt_of_lt hlt
  cases stopped with
  | true =>
      rw [doFg_stopped hk] at hfg
      obtain ⟨-, hvalue⟩ := Option.ite_none_right_eq_some.mp hfg
      cases hvalue
      exact hresumed.setState k .stopped
  | false =>
      rw [doFg_ended hk] at hfg
      obtain ⟨removed, hremove, heq⟩ := Option.map_eq_some_iff.mp hfg
      cases heq
      exact hresumed.removeJob hpos hremove

end World

end OxyC.Shell
