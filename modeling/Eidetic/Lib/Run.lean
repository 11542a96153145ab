import Mathlib.Data.List.Induction
import Mathlib.Logic.Basic

/-!
# Runs of a state machine

A deterministic machine takes one input at a time. A condition can be asked of
every step of a run, and an invariant is proved from one step.

`run` is the state after a list of inputs and `Throughout` a condition on every
step of the run, on the state it is taken from and its input. The rules are of
three kinds. An invariant that a step keeps under the condition holds after the
run (`run_invariant`), and another one with it all along
(`throughout_of_keeps`). A property of steps is equivalent to a condition on
steps all along a run, if it is so at each step from an invariant that a step
which meets the condition keeps (`along_iff`); the same of an invariant itself
(`always_iff`) and of what holds at the end, when a step cannot repair it
(`end_iff`). And where a run does not meet a condition it has a first step that
does not (`exists_of_not_throughout`), after which what is lost stays lost
(`of_run`).

The last part refines a machine: if each of its steps is some steps of another
one, its runs are runs of the other (`run_expand`), and conditions carry over
(`throughout_expand`).
-/

namespace Eidetic.Lib

variable {σ ι : Type*} (next : σ → ι → σ)

/-- The state after a list of inputs. -/
def run : σ → List ι → σ
  | s, [] => s
  | s, i :: is => run (next s i) is

/-- Every step of a run meets a condition on its state and input. -/
def Throughout (P : σ → ι → Prop) : σ → List ι → Prop
  | _, [] => True
  | s, i :: is => P s i ∧ Throughout P (next s i) is

variable {next}

/-- What a step that meets the condition preserves, a run does. -/
theorem run_invariant {P : σ → ι → Prop} (Inv : σ → Prop)
    (hstep : ∀ s i, Inv s → P s i → Inv (next s i)) {s : σ} (hs : Inv s) {is : List ι}
    (hP : Throughout next P s is) : Inv (run next s is) := by
  induction is generalizing s with
  | nil => exact hs
  | cons i is ih => exact ih (hstep s i hs hP.1) hP.2

theorem run_append (s : σ) (is js : List ι) : run next s (is ++ js) = run next (run next s is) js := by
  induction is generalizing s with
  | nil => rfl
  | cons i is ih => exact ih (next s i)

theorem throughout_append {P : σ → ι → Prop} {s : σ} {is js : List ι} :
    Throughout next P s (is ++ js) ↔ Throughout next P s is ∧ Throughout next P (run next s is) js := by
  induction is generalizing s with
  | nil => exact (and_iff_right trivial).symm
  | cons i is ih =>
    show P s i ∧ Throughout next P (next s i) (is ++ js) ↔ _
    rw [ih, ← and_assoc]
    exact Iff.rfl

/-- A condition on the inputs alone can be asked of each step. -/
theorem throughout_and {P : σ → ι → Prop} {Q : ι → Prop} {s : σ} {is : List ι}
    (hP : Throughout next P s is) (hQ : ∀ i ∈ is, Q i) :
    Throughout next (fun s i => P s i ∧ Q i) s is := by
  induction is generalizing s with
  | nil => exact trivial
  | cons i is ih =>
    refine ⟨⟨hP.1, hQ i (List.mem_cons_self ..)⟩, ?_⟩
    exact ih hP.2 fun j hj => hQ j (List.mem_cons_of_mem _ hj)

theorem throughout_mono {P Q : σ → ι → Prop} (h : ∀ s i, P s i → Q s i) {s : σ} {is : List ι}
    (hP : Throughout next P s is) : Throughout next Q s is := by
  induction is generalizing s with
  | nil => exact trivial
  | cons i is ih => exact ⟨h s i hP.1, ih hP.2⟩

theorem throughout_of_forall {Q : ι → Prop} {s : σ} {is : List ι} (h : ∀ i ∈ is, Q i) :
    Throughout next (fun _ i => Q i) s is := by
  induction is generalizing s with
  | nil => exact trivial
  | cons i is ih =>
    exact ⟨h i (List.mem_cons_self ..), ih fun j hj => h j (List.mem_cons_of_mem _ hj)⟩

/-- A run that does not meet a condition has a first step that does not. -/
theorem exists_of_not_throughout {P : σ → ι → Prop} {s : σ} {is : List ι}
    (h : ¬ Throughout next P s is) :
    ∃ before i after, is = before ++ i :: after ∧ Throughout next P s before ∧
      ¬ P (run next s before) i := by
  induction is generalizing s with
  | nil => exact absurd trivial h
  | cons i is ih =>
    by_cases hi : P s i
    · obtain ⟨before, j, after, rfl, hbefore, hj⟩ := ih fun hrest => h ⟨hi, hrest⟩
      exact ⟨i :: before, j, after, rfl, ⟨hi, hbefore⟩, hj⟩
    · exact ⟨[], i, is, rfl, trivial, hi⟩

/-- A condition that keeps an invariant gives, with it, another one all along a run. -/
theorem throughout_of_keeps {P Q : σ → ι → Prop} (Inv : σ → Prop)
    (hstep : ∀ s i, Inv s → P s i → Inv (next s i)) (hgives : ∀ s i, Inv s → P s i → Q s i) {s : σ}
    (hs : Inv s) {is : List ι} (hP : Throughout next P s is) : Throughout next Q s is := by
  induction is generalizing s with
  | nil => exact trivial
  | cons i is ih => exact ⟨hgives s i hs hP.1, ih (hstep s i hs hP.1) hP.2⟩

/-- Conditions that agree wherever an invariant holds hold throughout the same
runs when the steps that meet them keep the invariant. -/
theorem throughout_congr_of_keeps {P Q : σ → ι → Prop} (Inv : σ → Prop)
    (hstep : ∀ s i, Inv s → P s i → Inv (next s i)) (hiff : ∀ s i, Inv s → (P s i ↔ Q s i)) {s : σ}
    (hs : Inv s) (is : List ι) : Throughout next P s is ↔ Throughout next Q s is := by
  induction is generalizing s with
  | nil => exact Iff.rfl
  | cons i is ih =>
    refine (and_congr_right fun hP => ?_).trans (and_congr_left fun _ => hiff s i hs)
    exact ih (hstep s i hs hP)

/-- The same with an invariant that every step keeps. -/
theorem throughout_congr {P Q : σ → ι → Prop} (Inv : σ → Prop)
    (hstep : ∀ s i, Inv s → Inv (next s i)) (hiff : ∀ s i, Inv s → (P s i ↔ Q s i)) {s : σ}
    (hs : Inv s) (is : List ι) : Throughout next P s is ↔ Throughout next Q s is :=
  throughout_congr_of_keeps Inv (fun s i h _ => hstep s i h) hiff hs is

/-- What was lost at a step stays lost to the end of the run. -/
theorem of_run (Q : σ → Prop) (hstep : ∀ s i, Q (next s i) → Q s) {s : σ} {is : List ι}
    (h : Q (run next s is)) : Q s := by
  induction is generalizing s with
  | nil => exact h
  | cons i is ih => exact hstep s i (ih h)

/-- A property that an invariant gives, and that a step from the invariant has
only if it meets the condition, which keeps the invariant, holds all along a run
exactly when every step meets the condition. -/
theorem along_iff {P : σ → ι → Prop} {Inv Q : σ → Prop} (hgives : ∀ s, Inv s → Q s)
    (hkeep : ∀ s i, Inv s → P s i → Inv (next s i)) (honly : ∀ s i, Inv s → Q (next s i) → P s i)
    {s : σ} (hs : Inv s) (is : List ι) :
    (∀ before after, is = before ++ after → Q (run next s before)) ↔ Throughout next P s is := by
  induction is generalizing s with
  | nil =>
    constructor
    · exact fun _ => trivial
    · intro _ before after heq
      obtain ⟨rfl, _⟩ := List.append_eq_nil_iff.mp heq.symm
      exact hgives s hs
  | cons i is ih =>
    constructor
    · intro h
      have hi : P s i := honly s i hs (h [i] is rfl)
      refine ⟨hi, (ih (hkeep s i hs hi)).mp ?_⟩
      intro before after heq
      exact h (i :: before) after (by rw [heq]; rfl)
    · intro h before after heq
      cases before with
      | nil => exact hgives s hs
      | cons j before =>
        obtain ⟨rfl, hrest⟩ := List.cons.inj heq
        exact (ih (hkeep s i hs h.1)).mpr h.2 before after hrest

/-- An invariant that a step keeps exactly when it meets the condition holds
all along a run exactly when every step does. -/
theorem always_iff {P : σ → ι → Prop} {Inv : σ → Prop}
    (hstep : ∀ s i, Inv s → (Inv (next s i) ↔ P s i)) {s : σ} (hs : Inv s) (is : List ι) :
    (∀ before after, is = before ++ after → Inv (run next s before)) ↔ Throughout next P s is :=
  along_iff (fun _ h => h) (fun s i h => (hstep s i h).mpr) (fun s i h => (hstep s i h).mp) hs is

/-- A property that a step has afterwards exactly when it was there and the step
meets the condition holds at the end of a run exactly when every step does. -/
theorem end_iff {P : σ → ι → Prop} {Inv Q : σ → Prop} (hinv : ∀ s i, Inv s → Inv (next s i))
    (hstep : ∀ s i, Inv s → (Q (next s i) ↔ Q s ∧ P s i)) {s : σ} (hs : Inv s) (is : List ι) :
    Q (run next s is) ↔ Q s ∧ Throughout next P s is := by
  induction is generalizing s with
  | nil => exact (and_iff_left trivial).symm
  | cons i is ih =>
    show Q (run next (next s i) is) ↔ Q s ∧ P s i ∧ Throughout next P (next s i) is
    rw [ih (hinv s i hs), hstep s i hs, and_assoc]

/-- What every step preserves holds after a run. -/
theorem run_preserves (Inv : σ → Prop) (hstep : ∀ s i, Inv s → Inv (next s i)) {s : σ}
    (hs : Inv s) (is : List ι) : Inv (run next s is) := by
  induction is generalizing s with
  | nil => exact hs
  | cons i is ih => exact ih (hstep s i hs)

/-- The same, of the state and what has led to it. -/
theorem run_history {P : σ → ι → Prop} {s : σ} (Inv : List ι → σ → Prop) (hs : Inv [] s)
    (hstep : ∀ is i, Inv is (run next s is) → P (run next s is) i →
      Inv (is ++ [i]) (next (run next s is) i))
    {is : List ι} (hP : Throughout next P s is) : Inv is (run next s is) := by
  induction is using List.reverseRecOn with
  | nil => exact hs
  | append_singleton is i ih =>
    obtain ⟨hbefore, hi, _⟩ := throughout_append.mp hP
    rw [run_append]
    exact hstep is i (ih hbefore) hi

/-- What holds of every part that a list begins with. -/
theorem of_take {Q : List ι → Prop} {is : List ι} (h : ∀ n ≤ is.length, Q (is.take n))
    (before after : List ι) (heq : is = before ++ after) : Q before := by
  subst heq
  have hbefore := h before.length (by rw [List.length_append]; exact Nat.le_add_right _ _)
  rwa [List.take_left] at hbefore

theorem of_getElem {Q : List ι → ι → Prop} {is : List ι} (h : ∀ n, (hn : n < is.length) → Q (is.take n) is[n])
    (before : List ι) (i : ι) (after : List ι) (heq : is = before ++ i :: after) : Q before i := by
  subst heq
  have hbefore := h before.length (by rw [List.length_append, List.length_cons]; omega)
  rw [List.take_left, List.getElem_append_right (Nat.le_refl _)] at hbefore
  simpa using hbefore

/-- What the steps of a run give, in order. -/
def gathered {β : Type*} (next : σ → ι → σ) (gives : σ → ι → Option β) : σ → List ι → List β
  | _, [] => []
  | s, i :: is => (gives s i).toList ++ gathered next gives (next s i) is

theorem gathered_append {β : Type*} {gives : σ → ι → Option β} (s : σ) (is js : List ι) :
    gathered next gives s (is ++ js)
      = gathered next gives s is ++ gathered next gives (run next s is) js := by
  induction is generalizing s with
  | nil => rfl
  | cons i is ih =>
    show (gives s i).toList ++ gathered next gives (next s i) (is ++ js) = _
    rw [ih, ← List.append_assoc]
    rfl

theorem gathered_sublist {β : Type*} {gives wider : σ → ι → Option β}
    (h : ∀ s i b, gives s i = some b → wider s i = some b) (s : σ) (is : List ι) :
    (gathered next gives s is).Sublist (gathered next wider s is) := by
  induction is generalizing s with
  | nil => exact List.Sublist.refl _
  | cons i is ih =>
    refine List.Sublist.append ?_ (ih (next s i))
    cases hgives : gives s i with
    | none => exact List.nil_sublist _
    | some b =>
      have hwider : wider s i = some b := h s i b hgives
      simp [hwider]

/-- How many steps of a run are of some kind. -/
def countSteps (next : σ → ι → σ) (kind : σ → ι → Bool) : σ → List ι → Nat
  | _, [] => 0
  | s, i :: is => (if kind s i then 1 else 0) + countSteps next kind (next s i) is

theorem countSteps_append {kind : σ → ι → Bool} (s : σ) (is js : List ι) :
    countSteps next kind s (is ++ js) = countSteps next kind s is + countSteps next kind (run next s is) js := by
  induction is generalizing s with
  | nil => exact (Nat.zero_add _).symm
  | cons i is ih =>
    show (if kind s i then 1 else 0) + countSteps next kind (next s i) (is ++ js) = _
    rw [ih, ← Nat.add_assoc]
    rfl

/-- Steps of a kind are of another one where an invariant holds. -/
theorem countSteps_le {kind kind' : σ → ι → Bool} (Inv : σ → Prop) (hstep : ∀ s i, Inv s → Inv (next s i))
    (hkind : ∀ s i, Inv s → kind s i = true → kind' s i = true) {s : σ} (hs : Inv s) (is : List ι) :
    countSteps next kind s is ≤ countSteps next kind' s is := by
  induction is generalizing s with
  | nil => exact Nat.le_refl _
  | cons i is ih =>
    refine Nat.add_le_add ?_ (ih (hstep s i hs))
    split
    next h => exact Nat.le_of_eq (if_pos (hkind s i hs h)).symm
    next => exact Nat.zero_le _

/-! ## Steps made of steps -/

section Expand

variable {ι' : Type*} (next) (steps : σ → ι' → List ι)

/-- A step that makes some steps of another machine. -/
def through (s : σ) (i : ι') : σ := run next s (steps s i)

/-- All the steps that a run makes of the other machine. -/
def expand : σ → List ι' → List ι
  | _, [] => []
  | s, i :: is => steps s i ++ expand (through next steps s i) is

variable {next} {steps}

theorem run_expand (s : σ) (is : List ι') :
    run next s (expand next steps s is) = run (through next steps) s is := by
  induction is generalizing s with
  | nil => rfl
  | cons i is ih =>
    show run next s (steps s i ++ expand next steps (through next steps s i) is) = _
    rw [run_append]
    exact ih (through next steps s i)

theorem throughout_expand {P : σ → ι → Prop} {s : σ} {is : List ι'}
    (h : Throughout (through next steps) (fun s i => Throughout next P s (steps s i)) s is) :
    Throughout next P s (expand next steps s is) := by
  induction is generalizing s with
  | nil => exact trivial
  | cons i is ih => exact throughout_append.mpr ⟨h.1, ih h.2⟩

/-- When a step makes one at most, the other machine stops nowhere in between. -/
theorem exists_prefix (hone : ∀ s i, (steps s i).length ≤ 1) {s : σ} {is : List ι'}
    {before after : List ι} (h : expand next steps s is = before ++ after) :
    ∃ early late, is = early ++ late ∧ run (through next steps) s early = run next s before := by
  induction is generalizing s before with
  | nil =>
    obtain ⟨rfl, _⟩ := List.append_eq_nil_iff.mp h.symm
    exact ⟨[], [], rfl, rfl⟩
  | cons i is ih =>
    have hlen := hone s i
    rcases List.append_eq_append_iff.mp (show steps s i ++ _ = before ++ after from h) with
      ⟨rest, rfl, hrest⟩ | ⟨rest, hsteps, rfl⟩
    · obtain ⟨early, late, rfl, hrun⟩ := ih hrest
      exact ⟨i :: early, late, rfl, by rw [run_append]; exact hrun⟩
    · cases before with
      | nil => exact ⟨[], i :: is, rfl, rfl⟩
      | cons j before =>
        rw [hsteps, List.cons_append, List.length_cons, List.length_append] at hlen
        obtain rfl : before = [] := List.length_eq_zero_iff.mp (by omega)
        obtain rfl : rest = [] := List.length_eq_zero_iff.mp (by omega)
        refine ⟨[i], is, rfl, ?_⟩
        show run next s (steps s i) = run next s [j]
        rw [hsteps]
        rfl

end Expand

end Eidetic.Lib
