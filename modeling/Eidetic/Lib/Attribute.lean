import Mathlib.Data.List.Basic

/-!
# A list column of a loaded row

A session has the value of a column as an object. Assigning keeps which object
was loaded; a flush compares it with the assigned one and writes only if they
are not equal. An object that is changed in place is changed under both, so
nothing is written (`flush_append_current`).
-/

namespace Eidetic.Lib

/-- The objects of a session, and which of them the column was loaded with and
has now. -/
structure Attribute (α : Type*) where
  objects : List (List α)
  loaded : Nat
  current : Nat

namespace Attribute

variable {α : Type*}

def load (value : List α) : Attribute α := ⟨[value], 0, 0⟩

/-- What an object is. -/
def deref (a : Attribute α) (ref : Nat) : List α := a.objects.getD ref []

/-- A new object, and which it is. -/
def alloc (a : Attribute α) (value : List α) : Attribute α × Nat :=
  ({ a with objects := a.objects ++ [value] }, a.objects.length)

/-- `xs.append(x)`. -/
def append (a : Attribute α) (ref : Nat) (x : α) : Attribute α :=
  { a with objects := a.objects.modify ref fun xs => xs ++ [x] }

/-- `row.column = xs`. -/
def assign (a : Attribute α) (ref : Nat) : Attribute α := { a with current := ref }

/-- The value of the column. -/
def value (a : Attribute α) : List α := a.deref a.current

/-- What a flush writes. -/
def flush [DecidableEq α] (a : Attribute α) : Option (List α) :=
  if a.value = a.deref a.loaded then none else some a.value

/-- A loaded object that is changed in place and assigned again: the value has
what was appended, and nothing is written. -/
theorem flush_append_current [DecidableEq α] (xs : List α) (x : α) :
    (((load xs).append 0 x).assign 0).flush = none ∧
      (((load xs).append 0 x).assign 0).value = xs ++ [x] :=
  ⟨if_pos rfl, rfl⟩

/-- A new object that is changed and assigned is written, the loaded one being
empty. -/
theorem flush_append_new [DecidableEq α] (x : α) :
    ((((load []).alloc []).1.append 1 x).assign 1).flush = some [x] ∧
      ((((load []).alloc []).1.append 1 x).assign 1).value = [x] :=
  ⟨if_neg (List.cons_ne_nil x []), rfl⟩

end Attribute

end Eidetic.Lib
