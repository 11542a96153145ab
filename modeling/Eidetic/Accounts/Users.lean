import Eidetic.Lib.Rows
import Eidetic.Py.Text
import Mathlib.Data.List.Infix

/-!
# Accounts

The rows of `users`, the names of the demo accounts, and what `register` checks
of a request before it reads the database.

`like` is the matching of PostgreSQL, with its escape, by recursion on the
pattern. What the queries find with `demo\_%` are exactly the names that
`is_ephemeral_demo` accepts (`like_demoPattern`), so the two spellings of the
test in the source agree. The names that `mint_ephemeral_demo` makes are among
them (`isEphemeralDemo_mintedName`), and so are names that anyone may register,
since `register` checks no more of a name than its length.
-/

namespace Eidetic.Accounts

open Eidetic.Lib Eidetic.Py

/-- Who has created an account: `register`, or `mint_ephemeral_demo`. -/
inductive Origin
  | registered
  | minted
deriving DecidableEq

structure User where
  id : Nat
  username : Text
  origin : Origin
  createdAt : Nat

abbrev Users := Rows User.id

/-- No user has the name: the column is unique. -/
def nameFree (users : Users) (username : Text) : Bool :=
  !users.list.any fun u => u.username = username

/-! ## The names of demo accounts -/

/-- `s LIKE pattern ESCAPE escape`. -/
def like (escape : Char) : Text → Text → Bool
  | [], s => s.isEmpty
  | p :: ps, s =>
    if p = escape then
      match ps, s with
      | c :: ps, d :: s => c = d && like escape ps s
      | _, _ => false
    else if p = '%' then s.tails.any fun rest => like escape ps rest
    else
      match s with
      | d :: s => (p = '_' || p = d) && like escape ps s
      | [] => false

/-- `r"demo\_%"`. -/
def demoPattern : Text := ['d', 'e', 'm', 'o', '\\', '_', '%']

def demoPrefix : Text := ['d', 'e', 'm', 'o', '_']

def isEphemeralDemo (username : Text) : Bool := startsWith username demoPrefix

/-- `f"demo_{secrets.token_hex(6)}"`. -/
def mintedName (hex : Text) : Text := demoPrefix ++ hex

theorem like_percent (s : Text) : like '\\' ['%'] s = true := by
  have hnil : [] ∈ s.tails := (List.mem_tails [] s).mpr List.nil_suffix
  show s.tails.any (fun rest => rest.isEmpty) = true
  exact List.any_eq_true.mpr ⟨[], hnil, rfl⟩

/-- A character of the pattern that stands for itself. -/
theorem like_char {c : Char} {pattern : Text} (hescape : c ≠ '\\') (hmany : c ≠ '%') (hone : c ≠ '_')
    (p s : Text) (h : ∀ s, like '\\' pattern s = startsWith s p) :
    like '\\' (c :: pattern) s = startsWith s (c :: p) := by
  rw [like.eq_def]
  dsimp only
  rw [if_neg hescape, if_neg hmany]
  cases s with
  | nil => rfl
  | cons d s =>
    show ((decide (c = '_') || decide (c = d)) && like '\\' pattern s) = (c == d && p.isPrefixOf s)
    rw [decide_eq_false hone, Bool.false_or, h]
    rfl

/-- The query finds the names that `is_ephemeral_demo` accepts. -/
theorem like_demoPattern (username : Text) :
    like '\\' demoPattern username = isEphemeralDemo username := by
  have hunderscore : ∀ s, like '\\' ['\\', '_', '%'] s = startsWith s ['_'] := by
    intro s
    rw [like.eq_def]
    dsimp only
    rw [if_pos rfl]
    cases s with
    | nil => rfl
    | cons d s =>
      show (decide ('_' = d) && like '\\' ['%'] s) = ('_' == d && List.isPrefixOf [] s)
      rw [like_percent, List.isPrefixOf_nil_left]
      rfl
  refine like_char (by decide) (by decide) (by decide) _ _ fun s => ?_
  refine like_char (by decide) (by decide) (by decide) _ _ fun s => ?_
  refine like_char (by decide) (by decide) (by decide) _ _ fun s => ?_
  exact like_char (by decide) (by decide) (by decide) _ _ hunderscore

theorem isEphemeralDemo_mintedName (hex : Text) : isEphemeralDemo (mintedName hex) = true :=
  startsWith_iff.mpr (List.prefix_append _ _)

/-! ## What a registration is checked for -/

structure RegisterRequest where
  username : Text
  password : Text
  inviteToken : Option Text := none

/-- The status and the detail of the answer to a request that is too short. -/
def refuseRegistration (payload : RegisterRequest) : Option (Nat × String) :=
  if (strip payload.username).length < 3 then some (422, "username too short")
  else if payload.password.length < 6 then some (422, "password too weak")
  else none

end Eidetic.Accounts
