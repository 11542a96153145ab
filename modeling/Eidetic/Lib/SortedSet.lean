import Mathlib.Order.Lattice

/-!
# Sorted sets of a store with expiry

The commands of a store on one of its keys that holds a sorted set: members with
a score each. A set without members is not there, nor is one whose expiry is
before the clock of the store, in milliseconds.
-/

namespace Eidetic.Lib

variable {κ α : Type*}

/-- The members of a key with their scores, and its expiry. -/
structure SortedSet (κ α : Type*) where
  entries : List (κ × α) := []
  expires : Option Int := none

/-- What the store finds at the key. -/
def SortedSet.live (clock : Int) (s : SortedSet κ α) : SortedSet κ α :=
  match s.expires with
  | some e => if e < clock then {} else s
  | none => s

/-- `ZREMRANGEBYSCORE`; with its last member the key goes. -/
def SortedSet.zremrangebyscore [LinearOrder α] (low high : α) (s : SortedSet κ α) : SortedSet κ α :=
  let kept := s.entries.filter fun e => !(low ≤ e.2 && e.2 ≤ high)
  if kept.isEmpty then {} else { s with entries := kept }

/-- `ZADD` of one member: a member that is there gets the score. -/
def SortedSet.zadd [DecidableEq κ] (member : κ) (score : α) (s : SortedSet κ α) : SortedSet κ α :=
  if s.entries.any fun e => e.1 = member then
    { s with entries := s.entries.map fun e => if e.1 = member then (member, score) else e }
  else { s with entries := s.entries ++ [(member, score)] }

/-- `ZCARD`. -/
def SortedSet.zcard (s : SortedSet κ α) : Nat := s.entries.length

/-- `EXPIRE`; an expiry that is not in the future deletes the key. -/
def SortedSet.expire (clock seconds : Int) (s : SortedSet κ α) : SortedSet κ α :=
  if s.entries.isEmpty then s
  else if seconds ≤ 0 then {}
  else { s with expires := some (clock + 1000 * seconds) }

theorem SortedSet.live_entries_sublist (clock : Int) (s : SortedSet κ α) :
    (s.live clock).entries.Sublist s.entries := by
  unfold SortedSet.live
  split
  next =>
    split
    next => exact List.nil_sublist _
    next => exact List.Sublist.refl _
  next => exact List.Sublist.refl _

theorem SortedSet.zremrangebyscore_entries [LinearOrder α] (low high : α) (s : SortedSet κ α) :
    (s.zremrangebyscore low high).entries =
      s.entries.filter fun e => !(low ≤ e.2 && e.2 ≤ high) := by
  unfold SortedSet.zremrangebyscore
  dsimp only
  split
  next hempty => exact (List.isEmpty_iff.mp hempty).symm
  next => rfl

/-- A new member is added. -/
theorem SortedSet.zadd_entries [DecidableEq κ] {member : κ} {s : SortedSet κ α}
    (h : ∀ e ∈ s.entries, e.1 ≠ member) (score : α) :
    (s.zadd member score).entries = s.entries ++ [(member, score)] := by
  unfold SortedSet.zadd
  rw [if_neg]
  simpa using fun x hmem => h (member, x) hmem rfl

end Eidetic.Lib
