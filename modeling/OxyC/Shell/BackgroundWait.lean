import OxyC.Shell.CtrlKeys
import OxyC.Shell.Dispatch
import OxyC.Shell.PipelineWait

/-!
# The shell and the child that it does not wait for

`do_in_bg` returns to the command line without a wait call.  The calls that come
later wait for other children, except that of `do_fg` for the job it brings back
and those that wait for any child.
-/

namespace OxyC.Shell

open OxyC.Foundation

namespace World

/-- The child has nothing to report to the wait call that the shell is in. -/
def Unreported (pid : Int) (o : WaitOptions) (w : World) : Prop :=
  w.interrupted = true ∨ ∀ c ∈ w.children.child? pid, c.status o = none

/-- What keeps the shell from waiting for the child.  A wait call is for any child in the loop of a
pipeline, and where the id it waits for is that of a fork that failed. -/
def Spares (pid : Int) (w : World) : Prop :=
  match w.pc with
  | .foreground child => child = -1 → w.Unreported pid { untraced := true }
  | .bringing k _ => ∀ job ∈ w.table.jobs[k]?,
      job.pid ≠ pid ∧ (job.pid = -1 → w.Unreported pid { untraced := true })
  | .reaping _ => w.Unreported pid {}
  | _ => True

instance (pid : Int) (o : WaitOptions) (w : World) : Decidable (w.Unreported pid o) :=
  inferInstanceAs (Decidable (_ ∨ ∀ c ∈ w.children.child? pid, _))

variable {systemV : Bool} {w : World} {es : List Event} {pid : Int}

end World

end OxyC.Shell
