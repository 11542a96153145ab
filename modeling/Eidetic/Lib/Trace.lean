/-!
# Observing a trace

An observer goes through a trace with a state of its own and notes what it
sees. What it notes of a longer trace is what it notes of the first part, and
of the rest from the state it is then in.
-/

namespace Eidetic.Lib

variable {α β γ : Type}

/-- An observer of a trace: how its state moves and what it notes. -/
structure Observer (α β γ : Type) where
  next : β → α → β
  note : β → α → List γ

/-- The state after a trace. -/
def Observer.after (o : Observer α β γ) (b : β) (trace : List α) : β := trace.foldl o.next b

/-- What is noted of a trace. -/
def Observer.notes (o : Observer α β γ) : β → List α → List γ
  | _, [] => []
  | b, a :: rest => o.note b a ++ o.notes (o.next b a) rest

variable (o : Observer α β γ)

@[simp] theorem Observer.after_append (b : β) (xs ys : List α) :
    o.after b (xs ++ ys) = o.after (o.after b xs) ys :=
  List.foldl_append

@[simp] theorem Observer.notes_append (b : β) (xs ys : List α) :
    o.notes b (xs ++ ys) = o.notes b xs ++ o.notes (o.after b xs) ys := by
  induction xs generalizing b with
  | nil => rfl
  | cons x xs ih =>
    rw [List.cons_append, Observer.notes, Observer.notes, ih, List.append_assoc]
    rfl

/-- What the observer does not look at changes nothing. -/
structure Observer.Ignores (o : Observer α β γ) (a : α) : Prop where
  next : ∀ b, o.next b a = b
  note : ∀ b, o.note b a = []

variable {o}

theorem Observer.after_ignored {trace : List α} (h : ∀ a ∈ trace, o.Ignores a) (b : β) :
    o.after b trace = b := by
  induction trace with
  | nil => rfl
  | cons a rest ih =>
    change o.after (o.next b a) rest = b
    rw [(h a (List.mem_cons_self ..)).next]
    exact ih fun x hx => h x (List.mem_cons_of_mem _ hx)

theorem Observer.notes_ignored {trace : List α} (h : ∀ a ∈ trace, o.Ignores a) (b : β) :
    o.notes b trace = [] := by
  induction trace with
  | nil => rfl
  | cons a rest ih =>
    have ha := h a (List.mem_cons_self ..)
    rw [Observer.notes, ha.note, ha.next]
    exact ih fun x hx => h x (List.mem_cons_of_mem _ hx)

end Eidetic.Lib
