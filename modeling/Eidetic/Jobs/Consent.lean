import Eidetic.Jobs.Revival
import Eidetic.Lib.Ticket
import Mathlib.Logic.Relation

/-!
# Whose consent the credentials of a source come from

`oauth_start` keeps a state token in Redis for ten minutes, with the user and the
connector that it is for. `oauth_callback` has no user of its own: it reads the
token that it is given, deletes it, and exchanges its code for credentials of
that user and connector. Requests, tools and sync jobs work on the same rows at
any time.

Credentials of a row come from an exchange for a token that the user of the row
had begun for its connector, and from refreshes (`credentials_consented`). The
induction is over the events, and carries that every row and every session has
credentials that stem from a consent of their user for their connector:
`origin_of_next` says of one event where credentials that are there after it come
from, with one lemma for each event, and `begun_of_held` that a callback which has
deleted a token had read it in time.

A callback reads the token and deletes it in two steps, and does not look whether
it was there to be deleted. So several callbacks can read one token, and each
then exchanges its code. `exchanged_by_readers` bounds them: whoever exchanges a
code under a token has read it before it was first deleted, each code for a
reading of its own.
-/

namespace Eidetic.Jobs

open Eidetic.Lib Eidetic.Py

/-! ## Who has which credentials -/

/-- The row has the credentials, of a user and a connector. -/
def ExternalSource.Holds (src : ExternalSource) (user : Nat) (type : ConnectorType) (c : Credentials) :
    Prop :=
  src.userId = user ∧ src.connectorType = type ∧ src.credentials = some c

/-- A session that has loaded the row and has obtained other credentials for it. -/
def ExternalSource.HoldsBeside (src : ExternalSource) (creds : Credentials) (user : Nat)
    (type : ConnectorType) (c : Credentials) : Prop :=
  src.Holds user type c ∨ src.userId = user ∧ src.connectorType = type ∧ creds = c

def SyncPhase.Holds (user : Nat) (type : ConnectorType) (c : Credentials) : SyncPhase → Prop
  | .queued | .failed _ => False
  | .unusable loaded _ | .caught loaded _ | .last loaded _ | .ready loaded _ _ =>
    loaded.Holds user type c
  | .refreshing loaded creds | .refreshed loaded creds _ => loaded.HoldsBeside creds user type c

def ToolPhase.Holds (user : Nat) (type : ConnectorType) (c : Credentials) : ToolPhase → Prop
  | .expired loaded _ | .calling loaded => loaded.Holds user type c
  | .refreshing loaded creds | .refreshed loaded creds => loaded.HoldsBeside creds user type c

def Writer.Holds (user : Nat) (type : ConnectorType) (c : Credentials) : Writer → Prop
  | .patch _ loaded _ => loaded.Holds user type c
  | .callback u t creds loaded =>
    (u = user ∧ t = type ∧ creds = c) ∨ ∃ src, loaded = some src ∧ src.Holds user type c
  | .tool phase => phase.Holds user type c
  | .job _ phase => phase.Holds user type c

/-- A row or a session has the credentials. -/
def Connectors.Holds (s : Connectors) (user : Nat) (type : ConnectorType) (c : Credentials) : Prop :=
  (∃ row ∈ s.sources.list, row.Holds user type c) ∨ ∃ k w, s.writers k = some w ∧ w.Holds user type c

/-- Where credentials that are there after a step come from. -/
inductive Origin (s : Connectors) (e : ConnectorEvent) (user : Nat) (type : ConnectorType)
    (c : Credentials) : Prop
  | held (h : s.Holds user type c)
  | refreshed (d : Credentials) (answer : TokenAnswer) (now : Int) (h : s.Holds user type d)
      (hr : refreshTokens type d answer now = .ok c)
  | exchanged (k : Nat) (answer : TokenAnswer) (now : Int) (he : e = .callback k user type answer now)
      (hx : exchangeCode type answer now = some c)

variable {offset : Int} {s : Connectors} {k user : Nat} {type : ConnectorType} {c : Credentials}
  {loaded wanted : ExternalSource}

theorem holds_set {w : Option Writer} (h : (s.set k w).Holds user type c) :
    s.Holds user type c ∨ ∃ w', w = some w' ∧ w'.Holds user type c := by
  rcases h with hrow | ⟨j, w', hj, hw'⟩
  · exact .inl (.inl hrow)
  · change Function.update s.writers k w j = some w' at hj
    by_cases hjk : j = k
    · rw [hjk, Function.update_self] at hj
      exact .inr ⟨w', hj, hw'⟩
    · rw [Function.update_of_ne hjk] at hj
      exact .inl (.inr ⟨j, w', hj, hw'⟩)

theorem holds_enter {w : Option Writer} (h : (s.enter k w).Holds user type c) :
    s.Holds user type c ∨ ∃ w', w = some w' ∧ w'.Holds user type c := by
  unfold Connectors.enter at h
  split at h
  next => exact .inl h
  next => exact holds_set h

/-- A commit writes what the session wants of the credentials, into a row of the
user and the connector that it has loaded. -/
theorem holds_commit {raises : Option Failure} {ok : Option Writer}
    {failed : Failure → Option Writer} (h : (s.commit k raises loaded wanted ok failed).Holds user type c)
    (hloaded : Loaded s.sources s.nextId loaded) (huser : wanted.userId = loaded.userId)
    (htype : wanted.connectorType = loaded.connectorType) :
    s.Holds user type c ∨ wanted.Holds user type c ∨ (∃ w, ok = some w ∧ w.Holds user type c) ∨
      ∃ e w, failed e = some w ∧ w.Holds user type c := by
  have hfailed : ∀ e, (s.set k (failed e)).Holds user type c →
      s.Holds user type c ∨ ∃ e w, failed e = some w ∧ w.Holds user type c := by
    intro e he
    rcases holds_set he with hold | ⟨w, hw, hholds⟩
    · exact .inl hold
    · exact .inr ⟨e, w, hw, hholds⟩
  unfold Connectors.commit at h
  split at h
  next e => exact (hfailed e h).imp_right fun hw => .inr (.inr hw)
  next =>
    split at h
    next => exact (hfailed _ h).imp_right fun hw => .inr (.inr hw)
    next sources' hsave =>
      rcases holds_set h with (⟨row', hrow', hholds⟩ | hwriter) | hok
      · obtain ⟨row, hfind, hrow⟩ := find_save hsave (Rows.find_eq_some.mpr ⟨hrow', rfl⟩)
        have hmem := Rows.mem_of_find hfind
        rcases hrow with rfl | ⟨hid, rfl⟩
        · exact .inl (.inl ⟨row', hmem, hholds⟩)
        · obtain ⟨hu, ht, hc⟩ := hholds
          obtain ⟨hsameUser, hsameType⟩ := hloaded.same row hmem hid
          -- the ORM writes the column only if it differs from what was loaded
          rcases written_cases loaded.credentials wanted.credentials row.credentials with heq | ⟨heq, _⟩
          · exact .inl (.inl ⟨row, hmem, hu, ht, heq.symm.trans hc⟩)
          · refine .inr (.inl ⟨?_, ?_, heq.symm.trans hc⟩)
            · exact huser.trans (hsameUser.symm.trans hu)
            · exact htype.trans (hsameType.symm.trans ht)
      · exact .inl (.inr hwriter)
      · exact .inr (.inr (.inl hok))

theorem holds_insert {row : ExternalSource} (h : (s.insert row).Holds user type c) :
    s.Holds user type c ∨ row.Holds user type c := by
  rcases h with ⟨row', hrow', hholds⟩ | hwriter
  · rcases Rows.mem_of_mem_insert hrow' with hold | rfl
    · exact .inl (.inl ⟨row', hold, hholds⟩)
    · exact .inr hholds
  · exact .inl (.inr hwriter)

/-! ## What a session comes to have -/

/-- The credentials are there, or are what those that are there are refreshed to. -/
def Connectors.Stems (s : Connectors) (user : Nat) (type : ConnectorType) (c : Credentials) : Prop :=
  s.Holds user type c ∨
    ∃ d answer now, s.Holds user type d ∧ refreshTokens type d answer now = .ok c

/-- A commit that leaves the credentials. -/
theorem holds_commit_same {raises : Option Failure} {ok : Option Writer}
    {failed : Failure → Option Writer} (h : (s.commit k raises loaded wanted ok failed).Holds user type c)
    (hloaded : Loaded s.sources s.nextId loaded) (hheld : loaded.Holds user type c → s.Holds user type c)
    (hsame : wanted.credentials = loaded.credentials) (huser : wanted.userId = loaded.userId)
    (htype : wanted.connectorType = loaded.connectorType) (hok : ∀ w, ok = some w → ¬ w.Holds user type c)
    (hfailed : ∀ e w, failed e = some w → ¬ w.Holds user type c) : s.Holds user type c := by
  rcases holds_commit h hloaded huser htype with hold | hwanted | ⟨w, hw, hholds⟩ | ⟨e, w, hw, hholds⟩
  · exact hold
  · obtain ⟨hu, ht, hc⟩ := hwanted
    exact hheld ⟨huser.symm.trans hu, htype.symm.trans ht, hsame.symm.trans hc⟩
  · exact absurd hholds (hok w hw)
  · exact absurd hholds (hfailed e w hw)

theorem holds_of_row {id : Nat} {row : ExternalSource} (hfind : s.sources.find id = some row)
    (h : row.Holds user type c) : s.Holds user type c :=
  .inl ⟨row, Rows.mem_of_find hfind, h⟩

theorem holds_of_start {env : Surroundings} {id : Nat} {phase : SyncPhase}
    (hstart : SyncPhase.start offset s.sources id env = some phase) (h : phase.Holds user type c) :
    s.Holds user type c := by
  unfold SyncPhase.start at hstart
  split at hstart
  next => exact absurd h (Option.some.inj hstart ▸ not_false)
  next =>
    split at hstart
    next => exact absurd hstart (by simp)
    next src hfind =>
      split at hstart
      next =>
        obtain rfl := Option.some.inj hstart
        exact holds_of_row hfind h
      next creds hcreds =>
        split at hstart
        next =>
          split at hstart
          next =>
            obtain rfl := Option.some.inj hstart
            exact holds_of_row hfind h
          next =>
            obtain rfl := Option.some.inj hstart
            rcases h with hsrc | ⟨hu, ht, rfl⟩
            · exact holds_of_row hfind hsrc
            · exact holds_of_row hfind ⟨hu, ht, hcreds⟩
        next =>
          obtain rfl := Option.some.inj hstart
          exact holds_of_row hfind h

theorem stems_of_sync (hsound : Sound offset s) {env : Surroundings} {job : SyncJob} {phase : SyncPhase}
    (hk : s.writers k = some (.job job phase)) (h : (job.step offset s k env phase).Holds user type c) :
    s.Stems user type c := by
  have hphase : phase.Sound offset s.sources s.nextId := hsound.writers k _ hk
  have hheld : ∀ d, phase.Holds user type d → s.Holds user type d := fun d hd => .inr ⟨k, _, hk, hd⟩
  have hend : ∀ w, (none : Option Writer) = some w → ¬ w.Holds user type c :=
    fun _ hw => absurd hw (by simp)
  have hfails : ∀ e w, some (Writer.job job (.failed e)) = some w → ¬ w.Holds user type c :=
    fun e w hw => Option.some.inj hw ▸ not_false
  cases phase with
  | queued =>
    rcases holds_set h with hold | ⟨w, hw, hholds⟩
    · exact .inl hold
    · obtain ⟨phase, hstart, rfl⟩ := Option.map_eq_some_iff.mp hw
      exact .inl (holds_of_start hstart hholds)
  | unusable loaded error =>
    exact .inl (holds_commit_same h hphase (hheld c) rfl rfl rfl hend hfails)
  | refreshing loaded creds =>
    simp only [SyncJob.step] at h
    split at h
    next e _ =>
      rcases holds_set h with hold | ⟨w, hw, hholds⟩
      · exact .inl hold
      · exact absurd hholds (hfails e w hw)
    next creds' hrefresh =>
      rcases holds_set h with hold | ⟨w, hw, hholds⟩
      · exact .inl hold
      · obtain rfl := Option.some.inj hw
        -- the one origin that is new: an answer to a refresh of what the session held
        rcases hholds with hloaded | ⟨hu, ht, rfl⟩
        · exact .inl (hheld c (.inl hloaded))
        · exact .inr ⟨creds, env.answer, env.now, hheld creds (.inr ⟨hu, ht, rfl⟩), ht ▸ hrefresh⟩
  | refreshed loaded creds asOf =>
    have hcreds : ExternalSource.Holds { loaded with credentials := some creds } user type c →
        s.Holds user type c :=
      fun ⟨hu, ht, hc⟩ => hheld c (.inr ⟨hu, ht, Option.some.inj hc⟩)
    rcases holds_commit h hphase.1 rfl rfl with hold | hwanted | ⟨w, hw, hholds⟩ | ⟨e, w, hw, hholds⟩
    · exact .inl hold
    · exact .inl (hcreds hwanted)
    · obtain rfl := Option.some.inj hw
      exact .inl (hcreds hholds)
    · exact absurd hholds (hfails e w hw)
  | ready loaded creds asOf =>
    exact .inl (holds_commit_same h hphase.1 (hheld c) rfl rfl rfl hend hfails)
  | failed e =>
    simp only [SyncJob.step] at h
    split at h
    next src _ hfind =>
      rcases holds_set h with hold | ⟨w, hw, hholds⟩
      · exact .inl hold
      · obtain rfl := Option.some.inj hw
        exact .inl (holds_of_row hfind hholds)
    next =>
      rcases holds_set h with hold | ⟨w, hw, _⟩
      · exact .inl hold
      · exact absurd hw (by simp)
  | caught loaded e =>
    simp only [SyncJob.step] at h
    split at h
    next => exact .inl (holds_commit_same h hphase (hheld c) rfl rfl rfl hend (fun _ => hend))
    next =>
      rcases holds_commit h hphase rfl rfl with
        hold | hwanted | ⟨w, hw, hholds⟩ | ⟨_, w, hw, _⟩
      · exact .inl hold
      · exact .inl (hheld c hwanted)
      · split at hw
        next =>
          unfold SyncJob.retry at hw
          split at hw
          next => exact absurd hw (by simp)
          next => exact absurd hholds (Option.some.inj hw ▸ not_false)
        next =>
          obtain rfl := Option.some.inj hw
          exact .inl (hheld c hholds)
      · exact absurd hw (by simp)
  | last loaded e =>
    exact .inl (holds_commit_same h hphase (hheld c) rfl rfl rfl hend (fun _ => hend))

theorem stems_of_tool (hsound : Sound offset s) {env : Surroundings} {phase : ToolPhase}
    (hk : s.writers k = some (.tool phase)) (h : (phase.step s k env).Holds user type c) :
    s.Stems user type c := by
  have hphase : phase.Sound s.sources s.nextId := hsound.writers k _ hk
  have hheld : ∀ d, phase.Holds user type d → s.Holds user type d := fun d hd => .inr ⟨k, _, hk, hd⟩
  have hend : ∀ w, (none : Option Writer) = some w → ¬ w.Holds user type c :=
    fun _ hw => absurd hw (by simp)
  cases phase with
  | expired loaded error =>
    exact .inl (holds_commit_same h hphase (hheld c) rfl rfl rfl hend (fun _ => hend))
  | refreshing loaded creds =>
    simp only [ToolPhase.step] at h
    split at h
    next e _ =>
      rcases holds_set h with hold | ⟨w, hw, hholds⟩
      · exact .inl hold
      · split at hw
        next =>
          obtain rfl := Option.some.inj hw
          exact .inl (hheld c (.inl hholds))
        next => exact absurd hw (by simp)
    next creds' hrefresh =>
      rcases holds_set h with hold | ⟨w, hw, hholds⟩
      · exact .inl hold
      · obtain rfl := Option.some.inj hw
        rcases hholds with hloaded | ⟨hu, ht, rfl⟩
        · exact .inl (hheld c (.inl hloaded))
        · exact .inr ⟨creds, env.answer, env.now, hheld creds (.inr ⟨hu, ht, rfl⟩), ht ▸ hrefresh⟩
  | refreshed loaded creds =>
    have hcreds : ExternalSource.Holds { loaded with credentials := some creds } user type c →
        s.Holds user type c :=
      fun ⟨hu, ht, hc⟩ => hheld c (.inr ⟨hu, ht, Option.some.inj hc⟩)
    rcases holds_commit h hphase.1 rfl rfl with hold | hwanted | ⟨w, hw, hholds⟩ | ⟨_, w, hw, _⟩
    · exact .inl hold
    · exact .inl (hcreds hwanted)
    · obtain rfl := Option.some.inj hw
      exact .inl (hcreds hholds)
    · exact absurd hw (by simp)
  | calling loaded =>
    simp only [ToolPhase.step] at h
    split at h
    next => exact .inl (holds_commit_same h hphase (hheld c) rfl rfl rfl hend (fun _ => hend))
    next =>
      rcases holds_set h with hold | ⟨w, hw, _⟩
      · exact .inl hold
      · exact absurd hw (by simp)

theorem holds_of_patch (hsound : Sound offset s) {env : Surroundings} {u : Nat} {body : SourcePatch}
    (hk : s.writers k = some (.patch u loaded body)) (h : (body.step s k env loaded).Holds user type c) :
    s.Holds user type c := by
  have hw : Writer.Sound offset s.sources s.nextId (.patch u loaded body) := hsound.writers k _ hk
  unfold SourcePatch.step at h
  split at h
  next =>
    rcases holds_set h with hold | ⟨w, hw, _⟩
    · exact hold
    · exact absurd hw (by simp)
  next wanted hwrite =>
    unfold SourcePatch.write at hwrite
    split at hwrite
    next => exact absurd hwrite (by simp)
    next =>
      obtain rfl := Option.some.inj hwrite
      exact holds_commit_same h hw.1 (fun hloaded => .inr ⟨k, _, hk, hloaded⟩) rfl rfl rfl
        (fun _ hnone => absurd hnone (by simp)) fun _ _ hnone => absurd hnone (by simp)

theorem holds_of_callback (hsound : Sound offset s) {env : Surroundings} {u : Nat} {t : ConnectorType}
    {creds : Credentials} {loaded : Option ExternalSource}
    (hk : s.writers k = some (.callback u t creds loaded))
    (h : (callbackStep s k env u t creds loaded).Holds user type c) : s.Holds user type c := by
  have hw : Writer.Sound offset s.sources s.nextId (.callback u t creds loaded) := hsound.writers k _ hk
  have hheld : u = user ∧ t = type ∧ creds = c → s.Holds user type c :=
    fun hown => .inr ⟨k, _, hk, .inl hown⟩
  have hleave : ∀ s' : Connectors, (s'.set k none).Holds user type c → s'.Holds user type c := by
    intro s' hs'
    rcases holds_set hs' with hold | ⟨w, hw, _⟩
    · exact hold
    · exact absurd hw (by simp)
  cases loaded with
  | some loaded =>
    obtain ⟨hloaded, huser, htype, _⟩ := hw
    rcases holds_commit h hloaded rfl rfl with hold | ⟨hu, ht, hc⟩ | ⟨w, hw, _⟩ | ⟨_, w, hw, _⟩
    · exact hold
    · exact hheld ⟨huser.symm.trans hu, htype.symm.trans ht, Option.some.inj hc⟩
    · exact absurd hw (by simp)
    · exact absurd hw (by simp)
  | none =>
    simp only [callbackStep] at h
    split at h
    next => exact hleave _ h
    next =>
      rcases holds_insert (hleave _ h) with hold | ⟨hu, ht, hc⟩
      · exact hold
      · exact hheld ⟨hu, ht, Option.some.inj hc⟩

theorem holds_of_crash {w w' : Writer} (hcrash : w.crash = some w') : ¬ w'.Holds user type c := by
  unfold Writer.crash at hcrash
  split at hcrash
  next =>
    split at hcrash
    next => exact absurd hcrash (by simp)
    next =>
      obtain rfl := Option.some.inj hcrash
      exact not_false
  next =>
    split at hcrash
    next =>
      unfold SyncJob.retry at hcrash
      split at hcrash
      next => exact absurd hcrash (by simp)
      next =>
        obtain rfl := Option.some.inj hcrash
        exact not_false
    next => exact absurd hcrash (by simp)
  next => exact absurd hcrash (by simp)

theorem holds_of_toolStart {row : ExternalSource} {id : Nat} (hfind : s.sources.find id = some row)
    {now : Int} {phase : ToolPhase} (hstart : ToolPhase.start row now = some phase)
    (h : phase.Holds user type c) : s.Holds user type c := by
  unfold ToolPhase.start at hstart
  split at hstart
  next => exact absurd hstart (by simp)
  next creds hcreds =>
    split at hstart
    next =>
      split at hstart
      next =>
        obtain rfl := Option.some.inj hstart
        exact holds_of_row hfind h
      next =>
        obtain rfl := Option.some.inj hstart
        rcases h with hrow | ⟨hu, ht, rfl⟩
        · exact holds_of_row hfind hrow
        · exact holds_of_row hfind ⟨hu, ht, hcreds⟩
    next =>
      obtain rfl := Option.some.inj hstart
      exact holds_of_row hfind h

theorem Connectors.Stems.origin {e : ConnectorEvent} (h : s.Stems user type c) :
    Origin s e user type c := by
  rcases h with hheld | ⟨d, answer, now, hheld, hrefresh⟩
  · exact .held hheld
  · exact .refreshed d answer now hheld hrefresh

/-- A session that begins has nothing but what it finds. -/
theorem holds_of_enter {w : Option Writer}
    (hw : ∀ w', w = some w' → w'.Holds user type c → s.Holds user type c)
    (h : (s.enter k w).Holds user type c) : s.Holds user type c := by
  rcases holds_enter h with hold | ⟨w', hw', hholds⟩
  · exact hold
  · exact hw w' hw' hholds

theorem not_holds_queued {job : SyncJob} {w : Writer} (hw : some (Writer.job job .queued) = some w) :
    ¬ w.Holds user type c := by
  obtain rfl := Option.some.inj hw
  exact not_false

/-! ### One lemma for each event -/

theorem holds_of_create {u : Nat} {t : ConnectorType} {displayName resourceId : Option Text}
    (h : (s.next offset (.create u t displayName resourceId)).Holds user type c) :
    s.Holds user type c := by
  simp only [Connectors.next] at h
  split at h
  next => exact h
  next =>
    rcases holds_insert h with hold | ⟨_, _, hc⟩
    · exact hold
    · exact absurd hc (by simp)

theorem holds_of_delete {u id : Nat} (h : (s.next offset (.delete u id)).Holds user type c) :
    s.Holds user type c := by
  simp only [Connectors.next] at h
  split at h
  next => exact h
  next =>
    rcases h with ⟨row, hrow, hholds⟩ | hwriter
    · exact .inl ⟨row, (Rows.mem_delete.mp hrow).1, hholds⟩
    · exact .inr hwriter

theorem holds_of_patchStart {u id : Nat} {body : SourcePatch}
    (h : (s.next offset (.patch k u id body)).Holds user type c) : s.Holds user type c := by
  refine holds_of_enter ?_ h
  intro w' hw' hholds
  obtain ⟨src, hsrc, rfl⟩ := Option.map_eq_some_iff.mp hw'
  exact .inl ⟨src, (mem_of_ownSource hsrc).1, hholds⟩

/-- A callback brings the credentials that it has exchanged its code for. -/
theorem origin_of_callback {u : Nat} {t : ConnectorType} {answer : TokenAnswer} {now : Int}
    (h : (s.next offset (.callback k u t answer now)).Holds user type c) :
    Origin s (.callback k u t answer now) user type c := by
  simp only [Connectors.next] at h
  split at h
  next => exact .held h
  next creds hcreds =>
    have hown : ∀ loaded, (∀ src, loaded = some src → src ∈ s.sources.list) →
        (s.enter k (some (.callback u t creds loaded))).Holds user type c →
        Origin s (.callback k u t answer now) user type c := by
      intro loaded hmem hs
      rcases holds_enter hs with hold | ⟨w, hw, hholds⟩
      · exact .held hold
      · obtain rfl := Option.some.inj hw
        -- the exchanged credentials, or those of the row that is to be overwritten
        rcases hholds with ⟨rfl, rfl, rfl⟩ | ⟨src, hsrc, hrow⟩
        · exact .exchanged k answer now rfl hcreds
        · exact .held (.inl ⟨src, hmem src hsrc, hrow⟩)
    split at h
    next => exact hown none (fun _ hnone => absurd hnone (by simp)) h
    next src hfilter =>
      refine hown (some src) ?_ h
      intro src' hsrc'
      obtain rfl := Option.some.inj hsrc'
      exact (List.mem_filter.mp (hfilter ▸ List.mem_singleton_self src)).1
    next => exact .held h

theorem holds_of_syncStart {u id : Nat} {inline : Bool}
    (h : (s.next offset (.sync k u id inline)).Holds user type c) : s.Holds user type c := by
  simp only [Connectors.next] at h
  split at h
  next => exact h
  next =>
    split at h
    next => exact holds_of_enter (fun _ hw hholds => absurd hholds (not_holds_queued hw)) h
    next => exact h

theorem holds_of_cron {id : Nat} (h : (s.next offset (.cron k id)).Holds user type c) :
    s.Holds user type c := by
  simp only [Connectors.next] at h
  split at h
  next =>
    split at h
    next => exact holds_of_enter (fun _ hw hholds => absurd hholds (not_holds_queued hw)) h
    next => exact h
  next => exact h

theorem holds_of_toolCall {u : Nat} {t : ConnectorType} {id : Nat} {now : Int}
    (h : (s.next offset (.tool k u t id now)).Holds user type c) : s.Holds user type c := by
  simp only [Connectors.next] at h
  split at h
  next src hfind =>
    split at h
    next =>
      refine holds_of_enter ?_ h
      intro w' hw' hholds
      obtain ⟨phase, hstart, rfl⟩ := Option.map_eq_some_iff.mp hw'
      exact holds_of_toolStart hfind hstart hholds
    next => exact h
  next => exact h

theorem origin_of_step (hsound : Sound offset s) {env : Surroundings}
    (h : (s.next offset (.step k env)).Holds user type c) : Origin s (.step k env) user type c := by
  simp only [Connectors.next] at h
  split at h
  next w hk =>
    cases w with
    | patch u loaded body => exact .held (holds_of_patch hsound hk h)
    | callback u t creds loaded => exact .held (holds_of_callback hsound hk h)
    | tool phase => exact (stems_of_tool hsound hk h).origin
    | job job phase => exact (stems_of_sync hsound hk h).origin
  next => exact .held h

theorem holds_of_crashed (h : (s.next offset (.crash k)).Holds user type c) : s.Holds user type c := by
  rcases holds_set h with hold | ⟨w', hw', hholds⟩
  · exact hold
  · obtain ⟨w, _, hcrash⟩ := Option.bind_eq_some_iff.mp hw'
    exact absurd hholds (holds_of_crash hcrash)

/-- What is there after a step was there, has been refreshed, or a callback has
exchanged a code for it. -/
theorem origin_of_next (hsound : Sound offset s) (e : ConnectorEvent)
    (h : (s.next offset e).Holds user type c) : Origin s e user type c := by
  cases e with
  | create => exact .held (holds_of_create h)
  | delete => exact .held (holds_of_delete h)
  | patch => exact .held (holds_of_patchStart h)
  | callback => exact origin_of_callback h
  | sync => exact .held (holds_of_syncStart h)
  | cron => exact .held (holds_of_cron h)
  | tool => exact .held (holds_of_toolCall h)
  | step => exact origin_of_step hsound h
  | crash => exact .held (holds_of_crashed h)

/-! ## The flow -/

/-- `STATE_TTL`, in seconds. -/
def stateTtl : Nat := 600

/-- What a state token is kept with. -/
structure Asked where
  user : Nat
  type : ConnectorType
deriving DecidableEq

structure OAuth where
  tokens : Tickets Asked := {}
  connectors : Connectors := {}

inductive OAuthEvent
  /-- The time passes, or Redis forgets a token. -/
  | pass (d : Nat)
  | evict (state : Nat)
  /-- `oauth_start`, up to `setex`. -/
  | start (user : Nat) (type : ConnectorType)
  /-- `oauth_callback`: its `get`, its `delete`, and the exchange of its code with
  the select that follows. Its commit is a step of the connectors. -/
  | get (k state : Nat)
  | delete (k : Nat)
  | exchange (k : Nat) (answer : TokenAnswer)
  /-- The request ends with an exception. -/
  | fail (k : Nat)
  /-- Any other step of what works on the sources. -/
  | other (e : ConnectorEvent)

namespace OAuth

/-- What a callback that has deleted its token is for. -/
def redeemed (s : OAuth) (k : Nat) : Option Asked :=
  match s.tokens.holder k with
  | some (.burned _ asked) => some asked
  | _ => none

/-- What a step does to the tokens. -/
def act (s : OAuth) : OAuthEvent → Option (TicketInput Asked)
  | .pass d => some (.pass d)
  | .evict state => some (.lose state)
  | .start user type => some (.issue ⟨user, type⟩)
  | .get k state => some (.look k state)
  | .delete k => some (.burn k)
  | .exchange k _ => (s.redeemed k).map fun _ => .leave k
  | .fail k => some (.leave k)
  | .other _ => none

/-- What it does to the sources. -/
def actOn (s : OAuth) : OAuthEvent → Option ConnectorEvent
  | .exchange k answer =>
    (s.redeemed k).map fun asked => .callback k asked.user asked.type answer s.tokens.now
  -- a callback has no other way to a code
  | .other (.callback ..) => none
  | .other e => some e
  | _ => none

def next (offset : Int) (s : OAuth) (e : OAuthEvent) : OAuth where
  tokens := ((s.act e).map (s.tokens.next stateTtl)).getD s.tokens
  connectors := ((s.actOn e).map (s.connectors.next offset)).getD s.connectors

/-- The flow as a machine that has tickets. -/
def office (offset : Int) : TicketOffice OAuth OAuthEvent Asked where
  next := next offset
  tickets := OAuth.tokens
  act := act
  ttl := stateTtl
  step _ _ := rfl

variable {offset : Int} {s : OAuth} {e : OAuthEvent} {k n user : Nat} {type : ConnectorType}
  {asked : Asked} {c : Credentials}

theorem start_of_act (h : s.act e = some (.issue asked)) : e = .start asked.user asked.type := by
  cases e with
  | start u t =>
    obtain rfl := TicketInput.issue.inj (Option.some.inj h)
    rfl
  | exchange j answer =>
    obtain ⟨_, _, hact⟩ := Option.map_eq_some_iff.mp h
    exact absurd hact (by simp)
  | _ => exact absurd h (by simp [act])

theorem get_of_act (h : s.act e = some (.look k n)) : e = .get k n := by
  cases e with
  | get j m =>
    obtain ⟨rfl, rfl⟩ := TicketInput.look.inj (Option.some.inj h)
    rfl
  | exchange j answer =>
    obtain ⟨_, _, hact⟩ := Option.map_eq_some_iff.mp h
    exact absurd hact (by simp)
  | _ => exact absurd h (by simp [act])

/-- Only an exchange brings a callback to the sources, and for what its token was. -/
theorem exchange_of_actOn {u : Nat} {t : ConnectorType} {answer : TokenAnswer} {now : Int}
    (h : s.actOn e = some (.callback k u t answer now)) :
    ∃ j, e = .exchange j answer ∧ now = s.tokens.now ∧
      ∃ m, s.tokens.holder j = some (.burned m ⟨u, t⟩) := by
  cases e with
  | exchange j answer' =>
    obtain ⟨asked, hasked, heq⟩ := Option.map_eq_some_iff.mp h
    obtain ⟨_, rfl, rfl, rfl, rfl⟩ := ConnectorEvent.callback.inj heq
    unfold redeemed at hasked
    split at hasked
    next m asked' hheld =>
      obtain rfl := Option.some.inj hasked
      exact ⟨j, rfl, rfl, m, hheld⟩
    next => exact absurd hasked (by simp)
  | other e' => cases e' <;> exact absurd h (by simp [actOn])
  | _ => exact absurd h (by simp [actOn])

/-! ## Only with consent -/

/-- The user had begun the flow for the connector, and a callback read the token
within its ten minutes. -/
def Begun (offset : Int) (es : List OAuthEvent) (state : Nat) (asked : Asked) : Prop :=
  ∃ before mid k rest,
    es = before ++ .start asked.user asked.type :: (mid ++ .get k state :: rest) ∧
    state = (run (next offset) {} before).tokens.fresh ∧
    (run (next offset) {} (before ++ .start asked.user asked.type :: mid)).tokens.now <
      (run (next offset) {} before).tokens.now + stateTtl

/-- A callback has exchanged its code for the credentials after it has deleted
the token of a flow that was begun so. -/
def Consented (offset : Int) (es : List OAuthEvent) (user : Nat) (type : ConnectorType)
    (c : Credentials) : Prop :=
  ∃ before k answer rest state, es = before ++ .exchange k answer :: rest ∧
    (run (next offset) {} before).tokens.holder k = some (.burned state ⟨user, type⟩) ∧
    Begun offset before state ⟨user, type⟩ ∧
    exchangeCode type answer (run (next offset) {} before).tokens.now = some c

/-- What becomes of credentials by refreshes. -/
def Refreshes (type : ConnectorType) : Credentials → Credentials → Prop :=
  Relation.ReflTransGen fun c d => ∃ answer now, refreshTokens type c answer now = .ok d

theorem Consented.more {es : List OAuthEvent} (h : Consented offset es user type c) (e : OAuthEvent) :
    Consented offset (es ++ [e]) user type c := by
  obtain ⟨before, k, answer, rest, state, rfl, hrest⟩ := h
  exact ⟨before, k, answer, rest ++ [e], state, by simp, hrest⟩

theorem begun_of_held {es : List OAuthEvent}
    (h : (run (next offset) {} es).tokens.holder k = some (.burned n asked)) : Begun offset es n asked := by
  obtain ⟨before, i, rest, l, j, rfl, ⟨early, i₀, mid, rfl, hstart, hn, hexp⟩, rfl, hget, hlt⟩ :=
    (office offset).valid_of_held (s := {}) (fun _ => rfl) (fun _ => rfl) h
  obtain rfl := start_of_act hstart
  obtain rfl := get_of_act hget
  refine ⟨early, mid, j, rest, by simp [Holding.ticket], hn, ?_⟩
  rw [hexp] at hlt
  exact hlt

/-- Whatever else works on the sources, credentials of a user for a connector are
those of a code that was exchanged with the consent of this user for this
connector, or what they were refreshed to. -/
theorem credentials_consented (offset : Int) (es : List OAuthEvent)
    (h : (run (next offset) {} es).connectors.Holds user type c) :
    ∃ c₀, Consented offset es user type c₀ ∧ Refreshes type c₀ c := by
  have hinv : Sound offset (run (next offset) {} es).connectors ∧
      ∀ user type c, (run (next offset) {} es).connectors.Holds user type c →
        ∃ c₀, Consented offset es user type c₀ ∧ Refreshes type c₀ c := by
    refine run_history (P := fun _ _ => True)
      (fun es (s : OAuth) => Sound offset s.connectors ∧ ∀ user type c, s.connectors.Holds user type c →
        ∃ c₀, Consented offset es user type c₀ ∧ Refreshes type c₀ c)
      ⟨sound_init, ?_⟩ ?_ (throughout_of_forall fun _ _ => trivial)
    · rintro user type c (⟨row, hrow, _⟩ | ⟨k, w, hw, _⟩)
      · exact absurd hrow List.not_mem_nil
      · exact absurd hw (by simp)
    -- every origin of a step leads back to a consent of the run before it, or to this one
    · rintro es e ⟨hsound, hheld⟩ -
      have hmore : ∀ user type c, (run (next offset) {} es).connectors.Holds user type c →
          ∃ c₀, Consented offset (es ++ [e]) user type c₀ ∧ Refreshes type c₀ c := by
        intro user type c hc
        obtain ⟨c₀, hconsented, hrefreshes⟩ := hheld user type c hc
        exact ⟨c₀, hconsented.more e, hrefreshes⟩
      simp only [next]
      cases hact : (run (next offset) {} es).actOn e with
      | none => exact ⟨hsound, hmore⟩
      | some event =>
        refine ⟨sound_next hsound event, ?_⟩
        intro user type c hc
        cases origin_of_next hsound event hc with
        | held hold => exact hmore user type c hold
        | refreshed d answer now hold hrefresh =>
          obtain ⟨c₀, hconsented, hrefreshes⟩ := hmore user type d hold
          exact ⟨c₀, hconsented, hrefreshes.tail ⟨answer, now, hrefresh⟩⟩
        | exchanged k answer now he hx =>
          subst he
          obtain ⟨j, rfl, rfl, m, hholder⟩ := exchange_of_actOn hact
          exact ⟨c, ⟨es, j, answer, [], m, rfl, hholder, begun_of_held hholder, hx⟩, .refl⟩
  exact hinv.2 user type c h

/-- A user connects a workspace. -/
def connected : List OAuthEvent :=
  [.start 1 .notion, .pass 90, .get 0 0, .delete 0, .exchange 0 (.tokens "t".toList none none),
    .other (.step 0 { now := 90 })]

theorem credentials_consented_notion :
    ∃ c₀, Consented 0 connected 1 .notion c₀ ∧ Refreshes .notion c₀ ⟨"t".toList, none, none⟩ :=
  credentials_consented 0 connected (.inl ⟨_, List.mem_singleton_self _, rfl, rfl, rfl⟩)

/-! ## Under one consent -/

/-- The callback that reads a state token and is let in with it. -/
def lets (s : OAuth) (state : Nat) : OAuthEvent → Option Nat
  | .get k n =>
    if n = state ∧ s.tokens.holder k = none ∧ (live s.tokens.now (s.tokens.kept state)).isSome then some k
    else none
  | _ => none

/-- The callback that exchanges its code after it has deleted a state token. -/
def exchanges (s : OAuth) (state : Nat) : OAuthEvent → Option Nat
  | .exchange k _ =>
    match s.tokens.holder k with
    | some (.burned n _) => if n = state then some k else none
    | _ => none
  | _ => none

/-- The callbacks that have read a state token in a run, once for each reading. -/
def readers (offset : Int) (es : List OAuthEvent) (state : Nat) : List Nat :=
  gathered (next offset) (fun s => s.lets state) {} es

/-- Those that have exchanged a code under it, once for each code. -/
def exchangers (offset : Int) (es : List OAuthEvent) (state : Nat) : List Nat :=
  gathered (next offset) (fun s => s.exchanges state) {} es

theorem admits_of_act (s : OAuth) (state : Nat) (e : OAuthEvent) :
    (s.act e).bind (s.tokens.admits state) = s.lets state e := by
  cases e with
  | exchange j answer =>
    show (Option.map _ (s.redeemed j)).bind _ = none
    cases s.redeemed j <;> rfl
  | _ => rfl

/-- A code is exchanged by one who leaves after having deleted the token. -/
theorem settles_of_exchanges {state : Nat} (h : s.exchanges state e = some k) :
    (s.act e).bind (s.tokens.settles state) = some k := by
  cases e with
  | exchange j answer =>
    simp only [exchanges] at h
    split at h
    next m asked hj =>
      have hact : s.act (.exchange j answer) = some (.leave j) := by
        simp only [act, redeemed, hj, Option.map_some]
      rw [hact]
      show s.tokens.settles state (.leave j) = some k
      simp only [Tickets.settles, hj]
      exact h
    next => exact absurd h (by simp)
  | _ => exact absurd h (by simp [exchanges])

/-- Once a callback has deleted the token that it has read, only those that had
read it before exchange codes under it, each a code for its reading. -/
theorem exchanged_by_readers (offset : Int) {before rest : List OAuthEvent} {k state : Nat} {asked : Asked}
    (hk : (run (next offset) {} before).tokens.holder k = some (.looked state asked)) :
    (exchangers offset (before ++ .delete k :: rest) state).Subperm (readers offset before state) := by
  have hlt : state < ((office offset).after {} before).fresh := TicketOffice.lt_of_valid
    ((office offset).valid_of_held (s := {}) (fun _ => rfl) (fun _ => rfl) hk)
  have hburn : (office offset).act (run (next offset) {} before) (.delete k) = some (.burn k) := rfl
  have hsettled : ((office offset).settled {} state (before ++ .delete k :: rest)).Subperm
      ((office offset).admitted {} state before) :=
    TicketOffice.settled_subperm hlt hk hburn fun _ => rfl
  have hreaders : (office offset).admitted {} state before = readers offset before state := by
    unfold TicketOffice.admitted readers
    exact congrArg (fun f => gathered (next offset) f {} before)
      (funext fun s => funext fun e => admits_of_act s state e)
  rw [hreaders] at hsettled
  refine List.Subperm.trans ?_ hsettled
  exact (gathered_sublist (fun _ _ _ h => settles_of_exchanges h) _ _).subperm

/-- Two callbacks show one token, and both have read it before either deletes it. -/
def shownTwice : List OAuthEvent := [.start 1 .notion, .pass 90, .get 0 0, .get 1 0]

/-- Both exchange their codes, and a third one that comes later does not. -/
def exchangedTwice : List OAuthEvent :=
  [.delete 1, .get 2 0, .exchange 0 (.tokens "t".toList none none), .exchange 1 (.tokens "u".toList none none),
    .delete 2, .exchange 2 (.tokens "v".toList none none)]

theorem exchanged_by_two :
    (exchangers 0 (shownTwice ++ .delete 0 :: exchangedTwice) 0).Subperm (readers 0 shownTwice 0) :=
  have hk : (run (next 0) {} shownTwice).tokens.holder 0 = some (.looked 0 ⟨1, .notion⟩) := rfl
  exchanged_by_readers 0 hk

example : exchangers 0 (shownTwice ++ .delete 0 :: exchangedTwice) 0 = [0, 1] := by decide

end OAuth

end Eidetic.Jobs
