import Mathlib.Data.List.Nodup
import Mathlib.Data.List.Perm.Subperm

/-!
# A stream and one consumer of its group

Entries are added at the end. `XREADGROUP` with `>` hands out entries that were
never handed out, which are then pending until they are acknowledged; it hands
out none of them again.
-/

namespace Eidetic.Lib

variable {ε : Type*}

/-- The entries of a stream: those that were handed out, of which some are
pending, and those that were not. -/
structure StreamGroup (ε : Type*) where
  delivered : List ε
  undelivered : List ε
  pending : List ε

namespace StreamGroup

variable (g : StreamGroup ε)

/-- Every entry, oldest first. -/
def added : List ε := g.delivered ++ g.undelivered

/-- `XADD`. -/
def add (e : ε) : StreamGroup ε := { g with undelivered := g.undelivered ++ [e] }

/-- `XREADGROUP` with `COUNT n`. -/
def read (n : Nat) : List ε × StreamGroup ε :=
  (g.undelivered.take n,
    { delivered := g.delivered ++ g.undelivered.take n
      undelivered := g.undelivered.drop n
      pending := g.pending ++ g.undelivered.take n })

/-- `XACK`. -/
def ack [DecidableEq ε] (e : ε) : StreamGroup ε :=
  { g with pending := g.pending.filter fun e' => e' ≠ e }

@[simp] theorem added_add (e : ε) : (g.add e).added = g.added ++ [e] :=
  (List.append_assoc ..).symm

/-- Reading adds and removes nothing. -/
@[simp] theorem added_read (n : Nat) : (g.read n).2.added = g.added := by
  show g.delivered ++ g.undelivered.take n ++ g.undelivered.drop n = _
  rw [List.append_assoc, List.take_append_drop]
  rfl

@[simp] theorem added_ack [DecidableEq ε] (e : ε) : (g.ack e).added = g.added := rfl

@[simp] theorem delivered_ack [DecidableEq ε] (e : ε) : (g.ack e).delivered = g.delivered := rfl

theorem mem_pending_ack [DecidableEq ε] {g : StreamGroup ε} {e e' : ε} (h : e' ∈ g.pending)
    (hne : e' ≠ e) : e' ∈ (g.ack e).pending :=
  List.mem_filter.mpr ⟨h, decide_eq_true hne⟩

/-- A list that has an entry again for each it leaves out has none twice and
leaves out none. -/
theorem all_once_iff [DecidableEq ε] {given all : List ε} (h : all.Nodup)
    (hsub : given.Sublist all) : (∀ e ∈ all, given.count e = 1) ↔ given = all := by
  constructor
  · intro hcount
    refine hsub.eq_of_length_le ?_
    refine (List.subperm_of_subset h fun e he => ?_).length_le
    refine List.count_pos_iff.mp ?_
    rw [hcount e he]
    exact Nat.one_pos
  · rintro rfl e he
    exact List.count_eq_one_of_mem h he

end StreamGroup

end Eidetic.Lib
