import Mathlib.Logic.Basic

/-!
# A key that expires

A store holds one key for a lock: the token of the one who set it and the time
it expires. It is set only if it is not there, and deleted only by its token.
-/

namespace Eidetic.Lib

variable {κ : Type*}

/-- The token of a key and the time from which it is gone. -/
structure Lease (κ : Type*) where
  token : κ
  expires : Nat

/-- What the store answers for the key at a time. -/
def live (now : Nat) (key : Option (Lease κ)) : Option (Lease κ) :=
  key.filter fun l => now < l.expires

/-- `SET key token NX EX ttl`: the new key, unless there is one. -/
def setNx (now ttl : Nat) (token : κ) (key : Option (Lease κ)) : Option (Lease κ) :=
  match live now key with
  | some _ => none
  | none => some ⟨token, now + ttl⟩

/-- Delete the key if it has the token. -/
def deleteToken [DecidableEq κ] (now : Nat) (token : κ) (key : Option (Lease κ)) :
    Option (Lease κ) :=
  match live now key with
  | some l => if l.token = token then none else key
  | none => key

theorem live_eq_some {now : Nat} {key : Option (Lease κ)} {l : Lease κ} :
    live now key = some l ↔ key = some l ∧ now < l.expires := by
  unfold live
  rw [Option.filter_eq_some_iff]
  constructor
  · rintro ⟨hkey, hnow⟩
    exact ⟨hkey, of_decide_eq_true hnow⟩
  · rintro ⟨hkey, hnow⟩
    exact ⟨hkey, decide_eq_true hnow⟩

/-- A key that has expired is not there. -/
theorem live_eq_none {now : Nat} {key : Option (Lease κ)}
    (h : ∀ l, key = some l → l.expires ≤ now) : live now key = none := by
  cases hlive : live now key with
  | none => rfl
  | some l =>
    obtain ⟨hkey, hnow⟩ := live_eq_some.mp hlive
    exact absurd (h l hkey) (by omega)

theorem setNx_of_live {now ttl : Nat} {token : κ} {key : Option (Lease κ)} {l : Lease κ}
    (h : live now key = some l) : setNx now ttl token key = none := by
  unfold setNx
  rw [h]

theorem setNx_of_none {now ttl : Nat} {token : κ} {key : Option (Lease κ)}
    (h : live now key = none) : setNx now ttl token key = some ⟨token, now + ttl⟩ := by
  unfold setNx
  rw [h]

/-- A key is not deleted by another token. -/
theorem deleteToken_of_ne [DecidableEq κ] {now : Nat} {token : κ} {l : Lease κ}
    (h : l.token ≠ token) : deleteToken now token (some l) = some l := by
  unfold deleteToken
  split
  next l' hlive =>
    obtain rfl := Option.some.inj (live_eq_some.mp hlive).1
    rw [if_neg h]
  next => rfl

end Eidetic.Lib
