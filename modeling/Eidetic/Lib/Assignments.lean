import Mathlib.Logic.Function.Basic

/-!
# Straight-line programs of assignments

A module body that only assigns names, one after the other, over a store of
the names it has assigned so far. An expression may read the store and may
raise, which ends the run and leaves what was assigned before.

A run gets to the end when no expression raises (`runAll_ok_iff`), and then
leaves each name at what its last expression gave (`runAll_value`), read in a
store where the names not assigned again are as in the end (`runAll_seen`).
-/

namespace Eidetic.Lib

variable {ν α : Type} [DecidableEq ν]

/-- `name = value`; the value is `none` where the expression raises. -/
structure Assignment (ν α : Type) where
  name : ν
  value : (ν → Option α) → Option α

/-- The store that a run leaves, and whether it got to the end. -/
def runAll : List (Assignment ν α) → (ν → Option α) → (ν → Option α) × Bool
  | [], store => (store, true)
  | a :: rest, store =>
    match a.value store with
    | none => (store, false)
    | some v => runAll rest (Function.update store a.name (some v))

theorem runAll_cons_some {a : Assignment ν α} {rest : List (Assignment ν α)}
    {store : ν → Option α} {v : α} (h : a.value store = some v) :
    runAll (a :: rest) store = runAll rest (Function.update store a.name (some v)) := by
  rw [runAll, h]

theorem runAll_cons_none {a : Assignment ν α} {rest : List (Assignment ν α)}
    {store : ν → Option α} (h : a.value store = none) :
    runAll (a :: rest) store = (store, false) := by
  rw [runAll, h]

/-- A run changes only the names it assigns. -/
theorem runAll_frame {program : List (Assignment ν α)} {name : ν}
    (h : name ∉ program.map Assignment.name) (store : ν → Option α) :
    (runAll program store).1 name = store name := by
  induction program generalizing store with
  | nil => rfl
  | cons a rest ih =>
    rw [List.map_cons, List.mem_cons, not_or] at h
    cases hv : a.value store with
    | none => rw [runAll_cons_none hv]
    | some v => rw [runAll_cons_some hv, ih h.2, Function.update_of_ne h.1]

/-- What every assignment keeps, a run keeps, however far it gets. -/
theorem runAll_preserves {Inv : (ν → Option α) → Prop} {program : List (Assignment ν α)}
    (hstep : ∀ a ∈ program, ∀ store v, Inv store → a.value store = some v →
      Inv (Function.update store a.name (some v)))
    {store : ν → Option α} (h : Inv store) : Inv (runAll program store).1 := by
  induction program generalizing store with
  | nil => exact h
  | cons a rest ih =>
    have hrest := fun b hb => hstep b (List.mem_cons_of_mem _ hb)
    cases hv : a.value store with
    | none =>
      rw [runAll_cons_none hv]
      exact h
    | some v =>
      rw [runAll_cons_some hv]
      exact ih hrest (hstep a List.mem_cons_self store v h hv)

/-- Where it does not depend on the store whether an expression raises, a run
gets to the end exactly when none of them does. -/
theorem runAll_ok_iff {P : Assignment ν α → Prop} {program : List (Assignment ν α)}
    (hvalue : ∀ a ∈ program, ∀ store, (a.value store).isSome = true ↔ P a)
    (store : ν → Option α) : (runAll program store).2 = true ↔ ∀ a ∈ program, P a := by
  induction program generalizing store with
  | nil => simp [runAll]
  | cons a rest ih =>
    have hrest := ih fun b hb => hvalue b (List.mem_cons_of_mem _ hb)
    have ha := hvalue a List.mem_cons_self store
    rw [List.forall_mem_cons]
    cases hv : a.value store with
    | none =>
      rw [hv] at ha
      rw [runAll_cons_none hv]
      exact ⟨fun h => absurd h (by simp), fun h => absurd (ha.mpr h.1) (by simp)⟩
    | some v =>
      rw [hv] at ha
      rw [runAll_cons_some hv, hrest]
      exact ⟨fun h => ⟨ha.mp rfl, h⟩, fun h => h.2⟩

/-- A run to the end gets through its first part. -/
theorem runAll_append_ok {before after : List (Assignment ν α)} {store : ν → Option α}
    (hok : (runAll (before ++ after) store).2 = true) :
    runAll (before ++ after) store = runAll after (runAll before store).1 := by
  induction before generalizing store with
  | nil => rfl
  | cons b before ih =>
    rw [List.cons_append] at hok ⊢
    cases hv : b.value store with
    | none =>
      rw [runAll_cons_none hv] at hok
      exact absurd hok (by simp)
    | some v =>
      rw [runAll_cons_some hv] at hok ⊢
      rw [runAll_cons_some hv]
      exact ih hok

/-- After a run to the end a name has the value that its last expression had in
the store it saw. -/
theorem runAll_value {before after : List (Assignment ν α)} {a : Assignment ν α}
    (hlast : a.name ∉ after.map Assignment.name) {store : ν → Option α}
    (hok : (runAll (before ++ a :: after) store).2 = true) :
    (runAll (before ++ a :: after) store).1 a.name = a.value (runAll before store).1 := by
  have hrun := runAll_append_ok hok
  rw [hrun] at hok ⊢
  cases hv : a.value (runAll before store).1 with
  | none =>
    rw [runAll_cons_none hv] at hok
    exact absurd hok (by simp)
  | some v => rw [runAll_cons_some hv, runAll_frame hlast, Function.update_self]

/-- The names that are not assigned again are seen as they are in the end. -/
theorem runAll_seen {before after : List (Assignment ν α)} {name : ν}
    (hname : name ∉ after.map Assignment.name) {store : ν → Option α}
    (hok : (runAll (before ++ after) store).2 = true) :
    (runAll (before ++ after) store).1 name = (runAll before store).1 name := by
  rw [runAll_append_ok hok]
  exact runAll_frame hname _

end Eidetic.Lib
