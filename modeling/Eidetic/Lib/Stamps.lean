import Eidetic.Lib.Session

/-!
# Rows stamped with their transaction

A session whose rows carry the number of the transaction in which they are
added, as a column with `now()` for its default does. Every end of a transaction
starts the next one.
-/

namespace Eidetic.Lib

structure StampedSession (ρ : Type) where
  tx : Nat
  session : TxSession (ρ × Nat) := {}

namespace StampedSession

variable {ρ : Type}

def add (s : StampedSession ρ) (row : ρ) : StampedSession ρ :=
  { s with session := s.session.add (row, s.tx) }

def finish (s : StampedSession ρ) (e : TxEnd) : StampedSession ρ := ⟨s.tx + 1, s.session.finish e⟩

def finishAll (s : StampedSession ρ) (ends : List TxEnd) : StampedSession ρ := ends.foldl finish s

/-- The session without the stamps. -/
def plain (s : StampedSession ρ) : TxSession ρ :=
  ⟨s.session.committed.map Prod.fst, s.session.pending.map Prod.fst⟩

variable (s : StampedSession ρ)

theorem plain_add (row : ρ) : (s.add row).plain = s.plain.add row := by
  unfold plain add TxSession.add
  rw [List.map_append]
  rfl

theorem plain_finish (e : TxEnd) : (s.finish e).plain = s.plain.finish e := by
  cases e with
  | commit =>
    show TxSession.mk ((s.session.committed ++ s.session.pending).map Prod.fst) [] = _
    rw [List.map_append]
    rfl
  | rollback => rfl

theorem plain_finishAll (ends : List TxEnd) : (s.finishAll ends).plain = s.plain.finishAll ends := by
  induction ends generalizing s with
  | nil => rfl
  | cons e ends ih =>
    show ((s.finish e).finishAll ends).plain = (s.plain.finish e).finishAll ends
    rw [ih, plain_finish]

theorem finishAll_tx (ends : List TxEnd) : (s.finishAll ends).tx = s.tx + ends.length := by
  induction ends generalizing s with
  | nil => rfl
  | cons e ends ih =>
    show ((s.finish e).finishAll ends).tx = _
    rw [ih, List.length_cons]
    show s.tx + 1 + ends.length = _
    omega

theorem finishAll_session (ends : List TxEnd) : (s.finishAll ends).session = s.session.finishAll ends := by
  induction ends generalizing s with
  | nil => rfl
  | cons e ends ih =>
    show ((s.finish e).finishAll ends).session = (s.session.finish e).finishAll ends
    rw [ih]
    rfl

end StampedSession

end Eidetic.Lib
