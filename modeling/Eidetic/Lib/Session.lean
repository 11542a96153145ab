/-!
# A database session

Rows that are added to a session become visible to others with its next commit
and are gone with its next rollback. After the first of either nothing that was
added before is left to commit (`finishAll_cons`).
-/

namespace Eidetic.Lib

structure TxSession (ρ : Type) where
  committed : List ρ := []
  /-- Added, and flushed or not. -/
  pending : List ρ := []

/-- How a transaction ends. -/
inductive TxEnd
  | commit
  | rollback
deriving DecidableEq, Repr

variable {ρ : Type}

def TxSession.add (s : TxSession ρ) (row : ρ) : TxSession ρ :=
  { s with pending := s.pending ++ [row] }

def TxSession.commit (s : TxSession ρ) : TxSession ρ := ⟨s.committed ++ s.pending, []⟩

def TxSession.rollback (s : TxSession ρ) : TxSession ρ := ⟨s.committed, []⟩

def TxSession.finish (s : TxSession ρ) : TxEnd → TxSession ρ
  | .commit => s.commit
  | .rollback => s.rollback

def TxSession.finishAll (s : TxSession ρ) (ends : List TxEnd) : TxSession ρ :=
  ends.foldl TxSession.finish s

theorem TxSession.finish_of_empty {s : TxSession ρ} (h : s.pending = []) (e : TxEnd) :
    s.finish e = s := by
  obtain ⟨committed, pending⟩ := s
  obtain rfl : pending = [] := h
  cases e with
  | commit => exact congrArg (TxSession.mk · []) (List.append_nil committed)
  | rollback => rfl

theorem TxSession.finish_pending (s : TxSession ρ) (e : TxEnd) : (s.finish e).pending = [] := by
  cases e with
  | commit => rfl
  | rollback => rfl

theorem TxSession.finishAll_of_empty {s : TxSession ρ} (h : s.pending = []) (ends : List TxEnd) :
    s.finishAll ends = s := by
  induction ends with
  | nil => rfl
  | cons e ends ih =>
    change (s.finish e).finishAll ends = s
    rw [TxSession.finish_of_empty h]
    exact ih

/-- Only the first end matters. -/
theorem TxSession.finishAll_cons (s : TxSession ρ) (e : TxEnd) (ends : List TxEnd) :
    s.finishAll (e :: ends) = s.finish e :=
  TxSession.finishAll_of_empty (s.finish_pending e) ends

/-- So the session after all of them is that after the first. -/
theorem TxSession.finishAll_eq (s : TxSession ρ) (ends : List TxEnd) :
    s.finishAll ends = (ends.head?.map s.finish).getD s := by
  cases ends with
  | nil => rfl
  | cons e ends => exact s.finishAll_cons e ends

theorem TxSession.finishAll_append (s : TxSession ρ) (xs ys : List TxEnd) :
    s.finishAll (xs ++ ys) = (s.finishAll xs).finishAll ys :=
  List.foldl_append

end Eidetic.Lib
