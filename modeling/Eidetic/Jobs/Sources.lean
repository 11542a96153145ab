import Eidetic.Lib.Rows
import Eidetic.Py.Text

/-!
# External sources and their credentials

The rows of `external_sources`, the token endpoints of the connectors, and what
a session writes of a row that it has loaded: the attributes that it has
changed, and nothing of the others.

A session writes what differs from what it had loaded (`written`), attribute by
attribute, and the row that results has from others what the session did not
touch (`find_save`). A commit on a row that is gone raises, if there is
something to write. The endpoints answer with tokens, or with an error of some
status; a refresh keeps the old refresh token where the answer has none, and the
lifetime counts from when the answer comes (`refreshed_not_expired`), so it is
valid then.
-/

namespace Eidetic.Jobs

open Eidetic.Lib Eidetic.Py

inductive ConnectorType
  | googleDrive
  | googleCalendar
  | gmail
  | notion
  | github
deriving DecidableEq

/-- Whether the connector is a `GoogleOAuthConnector`. -/
def ConnectorType.isGoogle : ConnectorType → Bool
  | .googleDrive | .googleCalendar | .gmail => true
  | .notion | .github => false

inductive SourceStatus
  | pending
  | active
  | paused
  | needsReauth
  | error
deriving DecidableEq

/-- Only the user is to end this. -/
def SourceStatus.resting (status : SourceStatus) : Bool := status = .paused || status = .needsReauth

/-- The tokens of a source, decrypted. -/
structure Credentials where
  accessToken : Text
  refreshToken : Option Text
  expiresAt : Option Int
deriving DecidableEq

/-- `expires_at` is set and has passed. -/
def Credentials.expired (c : Credentials) (clock : Int) : Bool :=
  c.expiresAt.any fun e => e ≠ 0 && e < clock

structure ExternalSource where
  id : Nat
  userId : Nat
  connectorType : ConnectorType
  displayName : Option Text
  resourceId : Option Text
  credentials : Option Credentials := none
  status : SourceStatus := .pending
  error : Option Text := none
  lastSyncAt : Option Int := none
deriving DecidableEq

abbrev Sources := Rows ExternalSource.id

/-! ## The token endpoints -/

/-- An exception: whether it is `ReauthRequired`, the status code it has, and `str(e)`. -/
structure Failure where
  reauthRequired : Bool := false
  statusCode : Option Nat := none
  text : Text

/-- The source is to be connected again. -/
def Failure.reauth (e : Failure) : Bool :=
  e.statusCode = some 401 || e.statusCode = some 403 || e.reauthRequired

/-- What a token endpoint answers. -/
inductive TokenAnswer
  | tokens (accessToken : Text) (refreshToken : Option Text) (expiresIn : Option Nat)
  | invalidGrant
  | failed (e : Failure)

/-- `int(time.time()) + int(data.get("expires_in", 3600))`. -/
def expiry (now : Int) (expiresIn : Option Nat) : Int := now + expiresIn.getD 3600

/-- `refresh_tokens` of a connector. -/
def refreshTokens (type : ConnectorType) (c : Credentials) (answer : TokenAnswer) (now : Int) :
    Except Failure Credentials :=
  if !type.isGoogle then .ok c
  else
    match c.refreshToken with
    | none => .ok c
    | some refresh =>
      match answer with
      | .tokens access _ expiresIn => .ok ⟨access, some refresh, some (expiry now expiresIn)⟩
      | .invalidGrant =>
        .error
          { reauthRequired := true
            text := "Google refresh token expired or revoked — reconnect this integration".toList }
      | .failed e => .error e

/-- `exchange_code` of a connector, and the credentials that the callback makes
of its answer. -/
def exchangeCode (type : ConnectorType) (answer : TokenAnswer) (now : Int) : Option Credentials :=
  match answer with
  | .tokens access refresh expiresIn =>
    if type.isGoogle then
      some ⟨access, refresh.filter fun r => !r.isEmpty, some (expiry now expiresIn)⟩
    else some ⟨access, none, none⟩
  | _ => none

/-! ## What a session writes -/

/-- An attribute after a commit: what it was set to, unless that is what the
session had loaded. -/
def written {α : Type} [DecidableEq α] (loaded wanted current : α) : α :=
  if wanted = loaded then current else wanted

/-- The row after the commit of a session that loaded it as `loaded` and has made
it `wanted`. -/
def ExternalSource.flush (loaded wanted current : ExternalSource) : ExternalSource :=
  { current with
    displayName := written loaded.displayName wanted.displayName current.displayName
    resourceId := written loaded.resourceId wanted.resourceId current.resourceId
    credentials := written loaded.credentials wanted.credentials current.credentials
    status := written loaded.status wanted.status current.status
    error := written loaded.error wanted.error current.error
    lastSyncAt := written loaded.lastSyncAt wanted.lastSyncAt current.lastSyncAt }

theorem ExternalSource.flush_id (loaded wanted current : ExternalSource) :
    (loaded.flush wanted current).id = current.id := rfl

/-- `commit`; it raises if there is something to write and the row is gone. -/
def save (sources : Sources) (loaded wanted : ExternalSource) : Option Sources :=
  if wanted = loaded then some sources
  else if (sources.find loaded.id).isNone then none
  else some (sources.updateAt loaded.id (loaded.flush wanted) (loaded.flush_id wanted))

/-- No connector but those of Google has credentials that expire. -/
def ExpiresIfGoogle (type : ConnectorType) (c : Credentials) : Prop :=
  type.isGoogle = false → c.expiresAt = none

variable {type : ConnectorType} {c d : Credentials} {answer : TokenAnswer} {now clock : Int}
  {sources sources' : Sources} {loaded wanted : ExternalSource}

@[simp] theorem written_self {α : Type} [DecidableEq α] (loaded current : α) :
    written loaded loaded current = current := if_pos rfl

/-- A commit leaves an attribute as it is or makes it what the session has set. -/
theorem written_cases {α : Type} [DecidableEq α] (loaded wanted current : α) :
    written loaded wanted current = current ∨
      written loaded wanted current = wanted ∧ wanted ≠ loaded := by
  unfold written
  split
  next => exact .inl rfl
  next hne => exact .inr ⟨rfl, hne⟩

theorem not_expired_expiry (access : Text) (refresh : Option Text) (n : Option Nat) :
    (Credentials.mk access refresh (some (expiry now n))).expired now = false := by
  unfold Credentials.expired expiry
  simp only [Option.any_some, Bool.and_eq_false_iff, decide_eq_false_iff_not]
  right
  omega

theorem google_of_expired (hc : ExpiresIfGoogle type c) (h : c.expired clock = true) :
    type.isGoogle = true := by
  by_contra hnot
  unfold Credentials.expired at h
  rw [hc (by simpa using hnot)] at h
  exact absurd h (by simp)

/-- What a Google connector obtains with a refresh token is valid when it comes. -/
theorem refreshed_not_expired (hgoogle : type.isGoogle = true) (hrefresh : c.refreshToken.isSome = true)
    (h : refreshTokens type c answer now = .ok d) : d.expired now = false := by
  obtain ⟨refresh, hrefresh⟩ := Option.isSome_iff_exists.mp hrefresh
  unfold refreshTokens at h
  rw [hgoogle, hrefresh] at h
  cases answer with
  | tokens access _ n => exact Except.ok.inj h ▸ not_expired_expiry access (some refresh) n
  | invalidGrant => exact absurd h (by simp)
  | failed e => exact absurd h (by simp)

theorem refreshTokens_expires (hc : ExpiresIfGoogle type c)
    (h : refreshTokens type c answer now = .ok d) : ExpiresIfGoogle type d := by
  intro hnot
  unfold refreshTokens at h
  rw [hnot] at h
  exact Except.ok.inj h ▸ hc hnot

theorem exchangeCode_expires (h : exchangeCode type answer now = some c) : ExpiresIfGoogle type c := by
  intro hnot
  unfold exchangeCode at h
  rw [hnot] at h
  cases answer with
  | tokens access _ n => exact Option.some.inj h ▸ rfl
  | invalidGrant => exact absurd h (by simp)
  | failed e => exact absurd h (by simp)

/-- A row after a commit: what it was, but for what the session has written. -/
theorem find_save (h : save sources loaded wanted = some sources') {id : Nat} {row' : ExternalSource}
    (hfind : sources'.find id = some row') :
    ∃ row, sources.find id = some row ∧ (row' = row ∨ id = loaded.id ∧ row' = loaded.flush wanted row) := by
  unfold save at h
  split at h
  next => exact ⟨row', Option.some.inj h ▸ hfind, .inl rfl⟩
  next =>
    split at h
    next => exact absurd h (by simp)
    next =>
      obtain rfl := Option.some.inj h
      by_cases heq : id = loaded.id
      · subst heq
        rw [Rows.find_updateAt_self] at hfind
        obtain ⟨row, hrow, rfl⟩ := Option.map_eq_some_iff.mp hfind
        exact ⟨row, hrow, .inr ⟨rfl, rfl⟩⟩
      · rw [Rows.find_updateAt_of_ne heq] at hfind
        exact ⟨row', hfind, .inl rfl⟩

end Eidetic.Jobs
