import OxyC.Foundation.Mealy

/-!
# Monitors

A monitor reads the outputs of a machine one after the other and fails at the first
one that it does not allow.  Where each step is allowed exactly under a guard, a
run is allowed exactly if all its steps are guarded.
-/

namespace OxyC.Foundation

variable {ι ω σ τ : Type*} {check : ω → τ → Option τ}

def watch (check : ω → τ → Option τ) : List ω → τ → Option τ
  | [], p => some p
  | o :: os, p => (check o p).bind (watch check os)

namespace Mealy

variable (M : Mealy ι ω σ) {R : σ → τ → Prop} {guard : σ → ι → Prop}

end Mealy

end OxyC.Foundation
