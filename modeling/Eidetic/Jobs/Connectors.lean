import Eidetic.Jobs.Sources
import Eidetic.Lib.Run
import Mathlib.Logic.Function.Basic

/-!
# Who makes a source active

Requests, OAuth callbacks, tool calls and sync jobs on the rows of
`external_sources`, interleaved at each load and each commit. A tool never makes
a source active. A sync job does, whatever the status of the row is by then: it
does not look at it. So only the user ends a pause or a `needs_reauth` as long
as no job that has loaded another status than active commits on such a row, and
a job holds what is not expired as long as its clock, which reads UTC as the
local time, does not run behind (`onlyUserRevives_iff`).

Every session on a row is a `Writer`: it loads, it may wait for a provider, and
it commits what it has changed. The commit writes the attributes that differ
from what was loaded and no others, which is what lets two sessions cross. A
sync job loads twice, runs again after a `Retry`, and marks its source at the
end; its phases are `SyncPhase`, and its clock is the `offset` behind, as the
code compares local time with an expiry in UTC.

This module is the model; what holds of it is proved in `Jobs.Revival` for the
status, and in `Jobs.Consent` for the credentials, where the OAuth flow comes
in.
-/

namespace Eidetic.Jobs

open Eidetic.Lib Eidetic.Py

structure SourcePatch where
  displayName : Option (Option Text) := none
  resourceId : Option (Option Text) := none
  /-- `active` or `paused`, or null, which the column refuses. -/
  status : Option (Option Bool) := none

/-- The assignments of `patch_source`; `none` where the commit raises. -/
def SourcePatch.write (body : SourcePatch) (src : ExternalSource) : Option ExternalSource :=
  match body.status with
  | some none => none
  | status =>
    some { src with
      displayName := body.displayName.getD src.displayName
      resourceId := body.resourceId.getD src.resourceId
      status := match status.join with
        | some true => .active
        | some false => .paused
        | none => src.status }

/-- A run of `sync_external_source_job`. -/
structure SyncJob where
  sourceId : Nat
  attempt : Nat := 1
  /-- It runs in the process of the request, as there is no queue. -/
  inline : Bool

inductive SyncPhase
  | queued
  /-- Before the commit of `needs_reauth`, and of an error text if there is one. -/
  | unusable (loaded : ExternalSource) (error : Option Text)
  | refreshing (loaded : ExternalSource) (creds : Credentials)
  /-- Before the commit of credentials obtained at a time. -/
  | refreshed (loaded : ExternalSource) (creds : Credentials) (asOf : Int)
  /-- Before the commit of `active`, with the credentials that were read or
  obtained at a time. -/
  | ready (loaded : ExternalSource) (creds : Credentials) (asOf : Int)
  | failed (e : Failure)
  /-- In the handler, with the row as it was loaded again. -/
  | caught (loaded : ExternalSource) (e : Failure)
  /-- Before the commit of `error`, after the last attempt. -/
  | last (loaded : ExternalSource) (e : Failure)

/-- Where a tool that uses `load_google_credentials` is. -/
inductive ToolPhase
  /-- Before the commit of `needs_reauth`. -/
  | expired (loaded : ExternalSource) (error : Option Text)
  | refreshing (loaded : ExternalSource) (creds : Credentials)
  | refreshed (loaded : ExternalSource) (creds : Credentials)
  /-- It calls the API. -/
  | calling (loaded : ExternalSource)

/-- A session that has loaded a row, or is to. -/
inductive Writer
  | patch (user : Nat) (loaded : ExternalSource) (body : SourcePatch)
  | callback (user : Nat) (type : ConnectorType) (creds : Credentials) (loaded : Option ExternalSource)
  | tool (phase : ToolPhase)
  | job (job : SyncJob) (phase : SyncPhase)

structure Connectors where
  sources : Sources := Rows.empty
  /-- No source has had this id or a later one. -/
  nextId : Nat := 0
  writers : Nat → Option Writer := fun _ => none

/-- What a step of a session meets: the time, the answer of a token endpoint, an
exception, and whether the API answers 401. -/
structure Surroundings where
  now : Int
  answer : TokenAnswer := .invalidGrant
  raises : Option Failure := none
  unauthorized : Bool := false

inductive ConnectorEvent
  | create (user : Nat) (type : ConnectorType) (displayName resourceId : Option Text)
  | delete (user id : Nat)
  /-- `patch_source`, up to its commit. -/
  | patch (k user id : Nat) (body : SourcePatch)
  /-- `oauth_callback`, up to its commit. -/
  | callback (k user : Nat) (type : ConnectorType) (answer : TokenAnswer) (now : Int)
  /-- `sync_source`. -/
  | sync (k user id : Nat) (inline : Bool)
  /-- `run_integration_sync`, for one of its rows. -/
  | cron (k id : Nat)
  /-- `load_google_credentials`, up to its first commit or request. -/
  | tool (k user : Nat) (type : ConnectorType) (id : Nat) (now : Int)
  | step (k : Nat) (env : Surroundings)
  /-- The process ends. -/
  | crash (k : Nat)

namespace Connectors

def set (s : Connectors) (k : Nat) (w : Option Writer) : Connectors :=
  { s with writers := Function.update s.writers k w }

/-- A row with a new id. -/
def insert (s : Connectors) (row : ExternalSource) : Connectors :=
  { s with sources := s.sources.insert { row with id := s.nextId }, nextId := s.nextId + 1 }

/-- `StaleDataError`. -/
def staleData : Failure :=
  { text :=
      "UPDATE statement on table 'external_sources' expected to update 1 row(s); 0 were matched.".toList }

/-- The commit of a session, and what it goes on to. -/
def commit (s : Connectors) (k : Nat) (raises : Option Failure) (loaded wanted : ExternalSource)
    (ok : Option Writer) (failed : Failure → Option Writer) : Connectors :=
  match raises with
  | some e => s.set k (failed e)
  | none =>
    match save s.sources loaded wanted with
    | none => s.set k (failed staleData)
    | some sources => { s with sources := sources }.set k ok

end Connectors

/-- The source of the user that a path names. -/
def ownSource (sources : Sources) (id user : Nat) : Option ExternalSource :=
  (sources.find id).filter fun src => src.userId = user

/-! ## The sync job -/

def ExternalSource.needsReauth (src : ExternalSource) (error : Option Text) : ExternalSource :=
  { src with status := .needsReauth, error := error.or src.error }

def ExternalSource.synced (src : ExternalSource) (now : Int) : ExternalSource :=
  { src with lastSyncAt := some now, status := .active, error := none }

/-- `str(e)[:2000]`. -/
def Failure.short (e : Failure) : Text := e.text.take 2000

/-- `len(_RETRY_DELAYS)`. -/
def retryDelays : Nat := 3

/-- The next run of a job that raises `Retry`. -/
def SyncJob.retry (job : SyncJob) : Option Writer :=
  if job.inline then none else some (.job { job with attempt := job.attempt + 1 } .queued)

/-- The start of a job, whose clock is behind by an offset. -/
def SyncPhase.start (offset : Int) (sources : Sources) (id : Nat) (env : Surroundings) : Option SyncPhase :=
  match env.raises with
  | some e => some (.failed e)
  | none =>
    match sources.find id with
    | none => none
    | some src =>
      match src.credentials with
      | none => some (.unusable src none)
      | some creds =>
        if creds.expired (env.now - offset) then
          if creds.refreshToken.isNone then
            some (.unusable src (some "Access token expired and no refresh token available".toList))
          else some (.refreshing src creds)
        else some (.ready src creds env.now)

def SyncJob.step (offset : Int) (s : Connectors) (k : Nat) (env : Surroundings) (job : SyncJob) :
    SyncPhase → Connectors
  | .queued => s.set k ((SyncPhase.start offset s.sources job.sourceId env).map (.job job))
  | .unusable loaded error =>
    s.commit k env.raises loaded (loaded.needsReauth error) none fun e => some (.job job (.failed e))
  | .refreshing loaded creds =>
    match refreshTokens loaded.connectorType creds env.answer env.now with
    | .error e => s.set k (some (.job job (.failed e)))
    | .ok creds => s.set k (some (.job job (.refreshed loaded creds env.now)))
  | .refreshed loaded creds asOf =>
    let loaded' := { loaded with credentials := some creds }
    s.commit k env.raises loaded loaded' (some (.job job (.ready loaded' creds asOf)))
      fun e => some (.job job (.failed e))
  | .ready loaded _ _ =>
    -- whatever status it has loaded
    s.commit k env.raises loaded (loaded.synced env.now) none fun e => some (.job job (.failed e))
  | .failed e =>
    match env.raises, s.sources.find job.sourceId with
    | none, some src => s.set k (some (.job job (.caught src e)))
    | _, _ => s.set k none
  | .caught loaded e =>
    if e.reauth then
      s.commit k env.raises loaded (loaded.needsReauth (some e.short)) none fun _ => none
    else
      let loaded' := { loaded with error := some e.short }
      s.commit k env.raises loaded loaded'
        -- `Retry`, up to the last attempt
        (if job.attempt ≤ retryDelays then job.retry else some (.job job (.last loaded' e))) fun _ => none
  | .last loaded e =>
    s.commit k env.raises loaded { loaded with status := .error, error := some e.short } none
      fun _ => none

/-! ## The other sessions -/

def SourcePatch.step (s : Connectors) (k : Nat) (env : Surroundings) (loaded : ExternalSource)
    (body : SourcePatch) : Connectors :=
  match body.write loaded with
  | none => s.set k none
  | some wanted => s.commit k env.raises loaded wanted none fun _ => none

/-- `display_name=connector_type`. -/
def ConnectorType.name : ConnectorType → Text
  | .googleDrive => "google_drive".toList
  | .googleCalendar => "google_calendar".toList
  | .gmail => "gmail".toList
  | .notion => "notion".toList
  | .github => "github".toList

def callbackStep (s : Connectors) (k : Nat) (env : Surroundings) (user : Nat) (type : ConnectorType)
    (creds : Credentials) : Option ExternalSource → Connectors
  | some loaded =>
    s.commit k env.raises loaded { loaded with credentials := some creds, status := .active, error := none }
      none fun _ => none
  | none =>
    if env.raises.isSome then s.set k none
    else
      (s.insert
        { id := 0, userId := user, connectorType := type, displayName := some type.name
          resourceId := none, credentials := some creds, status := .active }).set k none

def ToolPhase.start (src : ExternalSource) (now : Int) : Option ToolPhase :=
  match src.credentials with
  | none => none
  | some creds =>
    if creds.expired now then
      if creds.refreshToken.isNone then some (.expired src none) else some (.refreshing src creds)
    else some (.calling src)

def ToolPhase.step (s : Connectors) (k : Nat) (env : Surroundings) : ToolPhase → Connectors
  | .expired loaded error =>
    s.commit k env.raises loaded (loaded.needsReauth error) none fun _ => none
  | .refreshing loaded creds =>
    match refreshTokens loaded.connectorType creds env.answer env.now with
    | .error e => s.set k (if e.reauthRequired then some (.tool (.expired loaded (some e.text))) else none)
    | .ok creds => s.set k (some (.tool (.refreshed loaded creds)))
  | .refreshed loaded creds =>
    let loaded' := { loaded with credentials := some creds }
    s.commit k env.raises loaded loaded' (some (.tool (.calling loaded'))) fun _ => none
  | .calling loaded =>
    if env.unauthorized then s.commit k env.raises loaded (loaded.needsReauth none) none fun _ => none
    else s.set k none

def Writer.step (offset : Int) (s : Connectors) (k : Nat) (env : Surroundings) : Writer → Connectors
  | .patch _ loaded body => body.step s k env loaded
  | .callback user type creds loaded => callbackStep s k env user type creds loaded
  | .tool phase => phase.step s k env
  | .job sync phase => sync.step offset s k env phase

/-- What is left of a session when its process ends. The queue runs a job that
had started again. -/
def Writer.crash : Writer → Option Writer
  | .job sync .queued => if sync.inline then none else some (.job sync .queued)
  | .job sync _ => if sync.attempt ≤ retryDelays then sync.retry else none
  | _ => none

def syncable (status : SourceStatus) : Bool :=
  status = .active || status = .pending || status = .error

/-- A session that is new. -/
def Connectors.enter (s : Connectors) (k : Nat) (w : Option Writer) : Connectors :=
  if (s.writers k).isSome then s else s.set k w

def Connectors.next (offset : Int) (s : Connectors) : ConnectorEvent → Connectors
  | .create user type displayName resourceId =>
    if resourceId.isSome ∧ s.sources.list.any fun r =>
        r.userId = user && r.connectorType = type && r.resourceId = resourceId then s
    else s.insert { id := 0, userId := user, connectorType := type, displayName, resourceId }
  | .delete user id =>
    match ownSource s.sources id user with
    | none => s
    | some src => { s with sources := s.sources.delete src.id }
  | .patch k user id body => s.enter k ((ownSource s.sources id user).map (.patch user · body))
  | .callback k user type answer now =>
    match exchangeCode type answer now with
    | none => s
    | some creds =>
      match s.sources.list.filter fun r =>
          r.userId = user && r.connectorType = type && r.resourceId.isNone with
      | [] => s.enter k (some (.callback user type creds none))
      | [src] => s.enter k (some (.callback user type creds (some src)))
      -- `scalar_one_or_none` raises
      | _ => s
  | .sync k user id inline =>
    match ownSource s.sources id user with
    | none => s
    | some src =>
      if syncable src.status then
        s.enter k (some (.job { sourceId := src.id, inline := inline } .queued))
      else s
  | .cron k id =>
    match s.sources.find id with
    | some src =>
      if src.status = .active then s.enter k (some (.job { sourceId := id, inline := false } .queued))
      else s
    | none => s
  | .tool k user type id now =>
    match s.sources.find id with
    | some src =>
      if src.userId = user ∧ src.connectorType = type ∧ src.status = .active then
        s.enter k ((ToolPhase.start src now).map .tool)
      else s
    | none => s
  | .step k env =>
    match s.writers k with
    | some w => w.step offset s k env
    | none => s
  | .crash k => s.set k ((s.writers k).bind Writer.crash)

end Eidetic.Jobs
