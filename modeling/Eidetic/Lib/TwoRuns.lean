import Eidetic.Lib.Run
import Mathlib.Data.List.Defs

/-!
# Two runs of one system

A deterministic system takes inputs and gives outputs, some of them visible.
Two runs show the same outputs when a relation between their states survives
each pair of steps and makes the visible outputs of the pair equal.
-/

namespace Eidetic.Lib

variable {σ ι ο : Type*} (step : σ → ι → σ × ο) (visible : ι → Bool)

/-- The outputs at the visible inputs of a run. -/
def observed : σ → List ι → List ο
  | _, [] => []
  | s, i :: is =>
    if visible i then (step s i).2 :: observed (step s i).1 is
    else observed (step s i).1 is

variable {step visible}

theorem observed_append (s : σ) (is js : List ι) :
    observed step visible s (is ++ js) =
      observed step visible s is ++ observed step visible (run (fun s i => (step s i).1) s is) js := by
  induction is generalizing s with
  | nil => rfl
  | cons i is ih =>
    rw [List.cons_append, observed, observed, run, ih]
    split <;> rfl

/-- A run without visible inputs shows nothing. -/
theorem observed_hidden {is : List ι} (h : ∀ i ∈ is, visible i = false) (s : σ) :
    observed step visible s is = [] := by
  induction is generalizing s with
  | nil => rfl
  | cons i is ih =>
    rw [observed, if_neg (by rw [h i (List.mem_cons_self ..)]; exact Bool.false_ne_true)]
    exact ih (fun j hj => h j (List.mem_cons_of_mem _ hj)) _

theorem observed_eq {P : σ → ι → Prop} {same : ι → ι → Prop} {R : σ → σ → Prop}
    (hstep : ∀ s s' i i', R s s' → same i i' → P s i → P s' i' →
      R (step s i).1 (step s' i').1 ∧ visible i = visible i' ∧
        (visible i = true → (step s i).2 = (step s' i').2))
    {is is' : List ι} (hsame : List.Forall₂ same is is') {s s' : σ} (hR : R s s')
    (hP : Throughout (fun s i => (step s i).1) P s is)
    (hP' : Throughout (fun s i => (step s i).1) P s' is') :
    observed step visible s is = observed step visible s' is' := by
  induction hsame generalizing s s' with
  | nil => rfl
  | cons hhead _ ih =>
    obtain ⟨hR, hvis, hout⟩ := hstep _ _ _ _ hR hhead hP.1 hP'.1
    have hrest := ih hR hP.2 hP'.2
    unfold observed
    rw [← hvis]
    split
    next hv => rw [hout hv, hrest]
    next => exact hrest

end Eidetic.Lib
