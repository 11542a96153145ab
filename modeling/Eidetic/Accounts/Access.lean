import Eidetic.Accounts.Users
import Eidetic.Lib.Authority
import Eidetic.Lib.Run
import Mathlib.Logic.Function.Basic

/-!
# Logins, tokens, keys and who may do what

`login` answers a token for sixty minutes, `generate_api_key` a key that lasts
until it is revoked or replaced, and `get_current_user` takes either. Requests
that change the accounts are let in first, load what they change, and commit
later, so any number of them overlap. Accounts of demos are purged at any time,
and their names are free again.

What a request has learnt before it commits is its phase: `verified` once the
password of a login is right, `allowed` once `get_current_user` has let the
request in, `loaded` with the row that it is to change. A step takes one request
from its phase to the next, so between the moment at which a request is let in
and its commit the accounts may change in any way.

`given` and `drawn` are not in the code: they record whom each token and key was
answered to, when and through what, and which keys `token_urlsafe` has drawn, so
that the results can speak of where a secret comes from. No step reads them but
the drawing of a new key.

Hashes and signatures are a parameter (`Secrecy`), which has as fields that a
token decodes to what it tells until it has expired, and that it has a dot in
it, which a key has not. `plainSecrecy` is an instance that computes. What a
step can do is in `Accounts.Origins`, and the results are in
`Accounts.Authority` and `Accounts.Administrator`.
-/

namespace Eidetic.Accounts

open Eidetic.Lib Eidetic.Py

/-! ## Accounts and tokens -/

/-- What nothing changes of an account. -/
structure Identity where
  id : Nat
  username : Text
  hashedPassword : Text
  role : Text
deriving DecidableEq

structure Account extends Identity where
  isActive : Bool := true
  /-- `hash_api_key` of the key. -/
  apiKey : Option Text := none
deriving DecidableEq

abbrev AccountRows := Rows fun u : Account => u.id

/-- The payload of a token, but for the role, which nothing reads. -/
structure TokenClaims where
  sub : Text
  type : Text
  exp : Nat
deriving DecidableEq

def accessType : Text := ['a', 'c', 'c', 'e', 's', 's']

def adminRole : Text := ['a', 'd', 'm', 'i', 'n']

def adminName : Text := ['a', 'd', 'm', 'i', 'n']

def userRole : Text := ['u', 's', 'e', 'r']

/-- bcrypt, sha256 and the signed tokens of jose, with times in seconds. -/
structure Secrecy where
  hashpw : Text → Text → Text
  checkpw : Text → Text → Bool
  sha256 : Text → Text
  encode : TokenClaims → Text
  decode : Nat → Text → Option TokenClaims
  /-- A token that was encoded is decoded until it has expired. -/
  decode_encode : ∀ now sub exp,
    decode now (encode ⟨sub, accessType, exp⟩) =
      if now ≤ exp then some ⟨sub, accessType, exp⟩ else none
  /-- A token has segments, with dots between them. -/
  dot_mem : ∀ now token claims, decode now token = some claims → '.' ∈ token

def plainToken (claims : TokenClaims) : Text :=
  claims.type ++ '.' :: (List.replicate claims.exp 'x' ++ '.' :: claims.sub)

def readPlain (now : Nat) (token : Text) : Option TokenClaims :=
  let rest := token.drop (accessType.length + 1)
  let exp := (rest.takeWhile (· = 'x')).length
  let claims : TokenClaims := ⟨rest.drop (exp + 1), accessType, exp⟩
  if token = plainToken claims ∧ now ≤ exp then some claims else none

/-- Passwords and keys as they are, and tokens that tell what they claim. -/
def plainSecrecy : Secrecy where
  hashpw _ password := password
  checkpw password hashed := password = hashed
  sha256 key := key
  encode := plainToken
  decode := readPlain
  decode_encode now sub exp := by
    have hrest : (plainToken ⟨sub, accessType, exp⟩).drop (accessType.length + 1) =
        List.replicate exp 'x' ++ '.' :: sub := rfl
    have hexp : ((List.replicate exp 'x' ++ '.' :: sub).takeWhile (· = 'x')).length = exp := by
      rw [List.takeWhile_append_of_pos fun a ha => decide_eq_true (List.eq_of_mem_replicate ha)]
      simp
    have hsub : (List.replicate exp 'x' ++ '.' :: sub).drop (exp + 1) = sub := by
      rw [List.drop_append]
      simp
    unfold readPlain
    dsimp only
    rw [hrest, hexp, hsub]
    simp
  dot_mem now token claims h := by
    unfold readPlain at h
    dsimp only at h
    split at h
    next htoken =>
      rw [htoken.1]
      exact List.mem_append_right _ (List.mem_cons_self ..)
    next => exact absurd h (by simp)

variable (c : Secrecy) (expire : Nat)

/-- `get_user`. -/
def getUser (users : AccountRows) (username : Text) : Option Account :=
  users.list.find? fun u => u.username = username

/-- `authenticate_user`; it does not ask whether the account is active. -/
def authenticateUser (users : AccountRows) (username password : Text) : Option Account :=
  (getUser users username).filter fun u => c.checkpw password u.hashedPassword

/-- `create_access_token`, for `JWT_EXPIRE_MINUTES`. -/
def createAccessToken (now : Nat) (username : Text) : Text :=
  c.encode ⟨username, accessType, now + expire⟩

/-- The row that has the hash of a key. -/
def keyUser (users : AccountRows) (token : Text) : Option Account :=
  users.list.find? fun u => u.apiKey = some (c.sha256 token)

def currentUser (now : Nat) (users : AccountRows) (token : Text) : Option Account :=
  if token = [] then none
  else
    match c.decode now token with
    | some claims =>
      -- a token of a user who is gone or inactive is not tried as a key
      if claims.sub ≠ [] ∧ claims.type = accessType then (getUser users claims.sub).filter (·.isActive)
      else (keyUser c users token).filter (·.isActive)
    | none => (keyUser c users token).filter (·.isActive)

/-! ## Requests -/

inductive AccountOp
  /-- `generate_api_key`, with the key that `secrets.token_urlsafe` gives. -/
  | generateApiKey (key : Text)
  | revokeApiKey
  | toggleUserActive (target : Nat)
deriving DecidableEq

/-- `require_role("admin")`, where the route has it; the role is that of the row. -/
def AccountOp.permits : AccountOp → Account → Bool
  | .toggleUserActive _, user => user.role = adminRole
  | _, _ => true

/-- Where a request is. -/
inductive AccessPhase
  /-- `login` has found the password right, and is to mint an account or not. -/
  | verified (user : Account) (password : Text) (mint : Bool)
  /-- `get_current_user` has answered. -/
  | allowed (user : Account) (token : Text) (asked : Nat) (op : AccountOp)
  /-- `toggle_user_active` has loaded the row that it changes. -/
  | loaded (admin target : Account)
deriving DecidableEq

/-- Whose a secret is, and the password it was given for. -/
structure Holder where
  account : Nat
  name : Text
  password : Option Text := none

structure AccessState where
  now : Nat := 0
  users : AccountRows := Rows.empty
  /-- No account has had this id or a later one. -/
  nextId : Nat := 0
  phases : Nat → Option AccessPhase := fun _ => none
  /-- The keys that `secrets` has given. -/
  drawn : List Text := []
  /-- The tokens and keys that were answered. -/
  given : List (Grant Text Holder) := []

inductive AccessEvent
  | pass (seconds : Nat)
  /-- The commit of a registration. -/
  | register (payload : RegisterRequest) (salt : Text)
  /-- `create_user.py`, with the passwords it finds or makes. -/
  | seed (password salt : Text → Text)
  /-- `_purge_demo_user`. -/
  | purge (id : Nat)
  /-- `login`, with `DEMO_SEED_USERNAME` if demo accounts are ephemeral. -/
  | login (k : Nat) (username password : Text) (demo : Option Text)
  /-- The answer of a login, which mints an account for a demo. -/
  | issue (k : Nat) (hex password salt : Text)
  | request (k : Nat) (token : Text) (op : AccountOp)
  | load (k : Nat)
  | commit (k : Nat)
  /-- The request ends in any other way. -/
  | leave (k : Nat)

namespace AccessState

variable (s : AccessState)

def put (k : Nat) (phase : Option AccessPhase) : AccessState :=
  { s with phases := Function.update s.phases k phase }

/-- A new account; the column of the names is unique. -/
def add (username hashed role : Text) : AccessState :=
  if s.users.list.any (·.username = username) then s
  else
    { s with
      users := s.users.insert
        { id := s.nextId, username := username, hashedPassword := hashed, role := role }
      nextId := s.nextId + 1 }

def give (g : Grant Text Holder) : AccessState := { s with given := g :: s.given }

/-- The key is new, and text of `token_urlsafe`. -/
def isFresh : AccountOp → Bool
  | .generateApiKey key => !s.drawn.any (· = key) && !key.any (· = '.')
  | _ => true

def draw : AccountOp → AccessState
  | .generateApiKey key => { s with drawn := key :: s.drawn }
  | _ => s

end AccessState

/-- `_SEED_USERS`: the names and the roles. -/
def seedUsers : List (Text × Text) :=
  [(adminName, adminRole), (['u', 's', 'e', 'r'], userRole), (['d', 'e', 'm', 'o'], userRole)]

/-- `seed`: who exists is skipped. -/
def seed (s : AccessState) (password salt : Text → Text) : AccessState :=
  seedUsers.foldl (fun s u => s.add u.1 (c.hashpw (salt u.1) (password u.1)) u.2) s

def register (s : AccessState) (payload : RegisterRequest) (salt : Text) : AccessState :=
  if (refuseRegistration payload).isSome then s
  else s.add (strip payload.username) (c.hashpw salt payload.password) userRole

def purge (s : AccessState) (id : Nat) : AccessState :=
  match s.users.find id with
  | some u => if isEphemeralDemo u.username then { s with users := s.users.delete id } else s
  | none => s

def login (s : AccessState) (k : Nat) (username password : Text) (demo : Option Text) : AccessState :=
  match s.phases k, authenticateUser c s.users username password with
  | none, some user => s.put k (some (.verified user password (demo = some user.username)))
  | _, _ => s

/-- `mint_ephemeral_demo`, and the token of the new account. -/
def mint (s : AccessState) (hex password salt : Text) : AccessState :=
  if s.users.list.any (·.username = mintedName hex) then s
  else
    (s.add (mintedName hex) (c.hashpw salt password) userRole).give
      { secret := createAccessToken c expire s.now (mintedName hex)
        holder := ⟨s.nextId, mintedName hex, none⟩
        time := s.now }

def issue (s : AccessState) (k : Nat) (hex password salt : Text) : AccessState :=
  match s.phases k with
  | some (.verified user plain false) =>
    (s.put k none).give
      { secret := createAccessToken c expire s.now user.username
        holder := ⟨user.id, user.username, some plain⟩
        time := s.now }
  | some (.verified _ _ true) => mint c expire (s.put k none) hex password salt
  | _ => s

def request (s : AccessState) (k : Nat) (token : Text) (op : AccountOp) : AccessState :=
  match s.phases k, currentUser c s.now s.users token with
  | none, some user =>
    if op.permits user && s.isFresh op then
      (s.draw op).put k (some (.allowed user token s.now op))
    else s
  | _, _ => s

/-- `db.get(User, user_id)` of `toggle_user_active`. -/
def load (s : AccessState) (k : Nat) : AccessState :=
  match s.phases k with
  | some (.allowed admin _ _ (.toggleUserActive id)) =>
    match s.users.find id with
    | some target => s.put k (if target.id = admin.id then none else some (.loaded admin target))
    | none => s.put k none
  | _ => s

def setKey (wanted : Option Text) (u : Account) : Account := { u with apiKey := wanted }

def setActive (active : Bool) (u : Account) : Account := { u with isActive := active }

/-- The commit of a session that has set the key of the user it has loaded; none
if the statement fails. -/
def saveKey (users : AccountRows) (user : Account) (wanted : Option Text) : Option AccountRows :=
  -- nothing differs from what was loaded, and no statement is made
  if wanted = user.apiKey then some users
  else if (users.find user.id).isNone then none
  else if wanted.isSome && users.list.any (fun u => u.id ≠ user.id && u.apiKey = wanted) then none
  else some (users.updateAt user.id (setKey wanted) fun _ => rfl)

def commit (s : AccessState) (k : Nat) : AccessState :=
  match s.phases k with
  | some (.allowed user token asked (.generateApiKey key)) =>
    match saveKey s.users user (some (c.sha256 key)) with
    | some users =>
      ({ s with users := users }.put k none).give
        { secret := key
          holder := ⟨user.id, user.username, none⟩
          time := s.now
          via := some (token, asked) }
    | none => s.put k none
  | some (.allowed user _ _ .revokeApiKey) =>
    match saveKey s.users user none with
    | some users => { s with users := users }.put k none
    | none => s.put k none
  | some (.loaded _ target) =>
    if (s.users.find target.id).isNone then s.put k none
    else
      { s with users := s.users.updateAt target.id (setActive !target.isActive) fun _ => rfl }.put k none
  | _ => s

def accessNext (s : AccessState) : AccessEvent → AccessState
  | .pass seconds => { s with now := s.now + seconds }
  | .register payload salt => register c s payload salt
  | .seed password salt => seed c s password salt
  | .purge id => purge s id
  | .login k username password demo => login c s k username password demo
  | .issue k hex password salt => issue c expire s k hex password salt
  | .request k token op => request c s k token op
  | .load k => load s k
  | .commit k => commit c s k
  | .leave k => s.put k none

end Eidetic.Accounts
