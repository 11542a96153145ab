import Eidetic.Lib.Run
import Mathlib.Logic.Function.Basic

/-!
# A machine for each key

Machines of one kind side by side, one for each key. An input is for the machine
of its key, so what a machine is after a run depends on its own inputs alone.
-/

namespace Eidetic.Lib

variable {κ σ ι : Type*} [DecidableEq κ] (key : ι → κ) (next : σ → ι → σ)

/-- The input is taken by the machine of its key. -/
def nextAt (s : κ → σ) (i : ι) : κ → σ := Function.update s (key i) (next (s (key i)) i)

variable {key next}

theorem nextAt_key (s : κ → σ) (i : ι) : nextAt key next s i (key i) = next (s (key i)) i :=
  Function.update_self ..

theorem nextAt_of_ne (s : κ → σ) {i : ι} {k : κ} (h : key i ≠ k) : nextAt key next s i k = s k :=
  Function.update_of_ne (Ne.symm h) ..

/-- The inputs of the others can be left out. -/
theorem run_nextAt (s : κ → σ) (is : List ι) (k : κ) :
    run (nextAt key next) s is k = run next (s k) (is.filter fun i => key i = k) := by
  induction is generalizing s with
  | nil => rfl
  | cons i is ih =>
    by_cases hk : key i = k
    · rw [List.filter_cons_of_pos (by simpa using hk), run, run, ih, ← hk, nextAt_key]
    · rw [List.filter_cons_of_neg (by simpa using hk), run, ih, nextAt_of_ne s hk]

end Eidetic.Lib
