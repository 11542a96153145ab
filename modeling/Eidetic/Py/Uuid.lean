import Eidetic.Py.JsonText

/-!
# `uuid.UUID`

A UUID is its 32 hexadecimal digits, and `str()` puts four hyphens in.
-/

namespace Eidetic.Py

structure Uuid where
  digits : List (Fin 16)
  size : digits.length = 32
deriving DecidableEq

def digitChar (d : Fin 16) : Char := hexDigit d.val

/-- Digits `a` to `b`, in hexadecimal. -/
def Uuid.hex (u : Uuid) (a b : Nat) : Text := (slice u.digits a b).map digitChar

/-- `str(u)`. -/
def Uuid.str (u : Uuid) : Text :=
  u.hex 0 8 ++ '-' :: (u.hex 8 12 ++ '-' :: (u.hex 12 16 ++ '-' :: (u.hex 16 20 ++ '-' :: u.hex 20 32)))

theorem digitChar_injective {d e : Fin 16} (h : digitChar d = digitChar e) : d = e := by
  revert d e
  decide

theorem digitChar_ne_hyphen (d : Fin 16) : digitChar d ≠ '-' := by
  revert d
  decide

theorem digitChar_ne_underscore (d : Fin 16) : digitChar d ≠ '_' := by
  revert d
  decide

theorem filter_hex (u : Uuid) (a b : Nat) : (u.hex a b).filter (· ≠ '-') = u.hex a b := by
  unfold Uuid.hex
  rw [List.filter_map, List.filter_eq_self.mpr]
  intro d _
  simpa using digitChar_ne_hyphen d

/-- The digits are what is left without the hyphens. -/
theorem filter_str (u : Uuid) : u.str.filter (· ≠ '-') = u.digits.map digitChar := by
  have hslices : slice u.digits 0 8 ++ (slice u.digits 8 12 ++ (slice u.digits 12 16 ++
      (slice u.digits 16 20 ++ slice u.digits 20 32))) = u.digits := by
    obtain ⟨ds, hds⟩ := u
    have hjoin : ∀ a b : Nat, a ≤ b → ds.take a ++ slice ds a b = ds.take b := by
      intro a b hab
      show ds.take a ++ (ds.take b).drop a = ds.take b
      rw [show ds.take a = (ds.take b).take a by rw [List.take_take, Nat.min_eq_left hab]]
      exact List.take_append_drop a (ds.take b)
    show ds.take 8 ++ _ = ds
    rw [← List.append_assoc, hjoin 8 12 (by omega), ← List.append_assoc, hjoin 12 16 (by omega),
      ← List.append_assoc, hjoin 16 20 (by omega), hjoin 20 32 (by omega),
      List.take_of_length_le (by omega)]
  have hhyphen : ∀ s : Text, ('-' :: s).filter (· ≠ '-') = s.filter (· ≠ '-') := by
    intro s
    simp
  unfold Uuid.str
  simp only [List.filter_append, hhyphen, filter_hex]
  conv_rhs => rw [← hslices]
  rw [List.map_append, List.map_append, List.map_append, List.map_append]
  rfl

theorem Uuid.str_injective : Function.Injective Uuid.str := by
  intro u v h
  have hdigits : u.digits.map digitChar = v.digits.map digitChar := by
    rw [← filter_str, ← filter_str, h]
  have heq : u.digits = v.digits :=
    List.map_injective_iff.mpr (fun _ _ => digitChar_injective) hdigits
  cases u
  cases v
  simpa using heq

theorem Uuid.not_startsWith_underscore (u : Uuid) (s : Text) : startsWith u.str ('_' :: s) = false := by
  obtain ⟨ds, hds⟩ := u
  cases ds with
  | nil => exact absurd hds (by simp)
  | cons d ds =>
    show ('_' :: s).isPrefixOf (digitChar d :: _) = false
    rw [List.isPrefixOf, beq_false_of_ne (digitChar_ne_underscore d).symm, Bool.false_and]

end Eidetic.Py
