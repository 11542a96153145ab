import Eidetic.Jobs.Connectors

/-!
# Only the user revives a connector

What a session has loaded belongs to the user and the connector that the row
has now, and what a job is about to mark active with has not expired by the
job's clock. With this the only sessions that make a source active again are a
PATCH, a callback, and a job that has loaded another status than active.

The invariant is `Sound`: ids are not given again, so a row that a session has
loaded is still the same user's and connector's if it is there (`Loaded`), and
only credentials of Google expire. Each kind of session has a lemma for its
steps, and a commit needs one about the row that it writes (`loaded_save`).

What makes a source active is then a case analysis (`revives_cases`). A commit
does so only if its session has set the status and had loaded another one
(`commit_revives`); a tool sets none, a PATCH and a callback are the user's.
What is left is a job: it sets `active` at its end, whatever the row has become,
and the commit writes that unless it had loaded `active`. So the condition is on
that one commit (`MarksAwake`), and it is needed, since it is the property at
that step.
-/

namespace Eidetic.Jobs

open Eidetic.Lib Eidetic.Py

/-- The step is the commit of a PATCH of the user that asks for `active`, or of
a callback of the user. -/
def ByUser (s : Connectors) (e : ConnectorEvent) (user : Nat) : Prop :=
  ∃ k env, e = .step k env ∧
    ((∃ loaded body, s.writers k = some (.patch user loaded body) ∧ body.status = some (some true)) ∨
      ∃ type creds loaded, s.writers k = some (.callback user type creds loaded))

/-- The step is the commit by which a job marks a source active, with the row as
the job has it and its credentials as they were read or obtained at a time. -/
def Marks (s : Connectors) (e : ConnectorEvent) (loaded : ExternalSource) (creds : Credentials)
    (asOf : Int) : Prop :=
  ∃ k env job, e = .step k env ∧ s.writers k = some (.job job (.ready loaded creds asOf)) ∧
    env.raises = none ∧ (s.sources.find loaded.id).isSome = true

structure OnlyUserRevives (offset : Int) (s : Connectors) (e : ConnectorEvent) : Prop where
  byUser : ∀ id row row', s.sources.find id = some row →
    (s.next offset e).sources.find id = some row' → row.status.resting = true →
      row'.status = .active → ByUser s e row.userId
  unexpired : ∀ loaded creds asOf, Marks s e loaded creds asOf →
    loaded.credentials = some creds ∧ creds.expired asOf = false

/-- A job marks active what is not paused and does not need a new consent, unless
it had loaded it active, and what had expired by then had expired by its clock. -/
def MarksAwake (offset : Int) (s : Connectors) (e : ConnectorEvent) : Prop :=
  ∀ loaded creds asOf, Marks s e loaded creds asOf →
    (∀ row, s.sources.find loaded.id = some row → row.status.resting = true → loaded.status = .active) ∧
      (creds.expired asOf = true → creds.expired (asOf - offset) = true)

/-! ## What a run keeps -/

/-- A row as a session has loaded it. -/
structure Loaded (sources : Sources) (nextId : Nat) (loaded : ExternalSource) : Prop where
  lt : loaded.id < nextId
  same : ∀ row ∈ sources.list, row.id = loaded.id →
    row.userId = loaded.userId ∧ row.connectorType = loaded.connectorType
  expires : ∀ c ∈ loaded.credentials, ExpiresIfGoogle loaded.connectorType c

def SyncPhase.Sound (offset : Int) (sources : Sources) (nextId : Nat) : SyncPhase → Prop
  | .queued | .failed _ => True
  | .unusable loaded _ | .caught loaded _ | .last loaded _ => Loaded sources nextId loaded
  | .refreshing loaded creds =>
    Loaded sources nextId loaded ∧ loaded.connectorType.isGoogle = true ∧
      creds.refreshToken.isSome = true
  | .refreshed loaded creds asOf =>
    Loaded sources nextId loaded ∧ loaded.connectorType.isGoogle = true ∧ creds.expired asOf = false
  | .ready loaded creds asOf =>
    Loaded sources nextId loaded ∧ loaded.credentials = some creds ∧
      (creds.expired (asOf - offset) = false ∨ creds.expired asOf = false)

def ToolPhase.Sound (sources : Sources) (nextId : Nat) : ToolPhase → Prop
  | .expired loaded _ | .calling loaded => Loaded sources nextId loaded
  | .refreshing loaded creds | .refreshed loaded creds =>
    Loaded sources nextId loaded ∧ ExpiresIfGoogle loaded.connectorType creds

def Writer.Sound (offset : Int) (sources : Sources) (nextId : Nat) : Writer → Prop
  | .patch user loaded _ => Loaded sources nextId loaded ∧ loaded.userId = user
  | .callback _ type creds none => ExpiresIfGoogle type creds
  | .callback user type creds (some loaded) =>
    Loaded sources nextId loaded ∧ loaded.userId = user ∧ loaded.connectorType = type ∧
      ExpiresIfGoogle type creds
  | .tool phase => phase.Sound sources nextId
  | .job _ phase => phase.Sound offset sources nextId

structure Sound (offset : Int) (s : Connectors) : Prop where
  rows : ∀ row ∈ s.sources.list, Loaded s.sources s.nextId row
  writers : ∀ k w, s.writers k = some w → w.Sound offset s.sources s.nextId

variable {offset : Int} {s : Connectors} {sources sources' : Sources} {n n' k id : Nat}
  {loaded wanted row row' : ExternalSource}

/-- The rows are those of before, and rows with a new id. -/
structure Keeps (sources : Sources) (n : Nat) (sources' : Sources) (n' : Nat) : Prop where
  le : n ≤ n'
  same : ∀ row' ∈ sources'.list, row'.id < n → ∃ row ∈ sources.list,
    row.id = row'.id ∧ row.userId = row'.userId ∧ row.connectorType = row'.connectorType

theorem Loaded.mono (h : Loaded sources n loaded) (hkeeps : Keeps sources n sources' n') :
    Loaded sources' n' loaded where
  lt := Nat.lt_of_lt_of_le h.lt hkeeps.le
  same := by
    intro row' hrow' hid
    obtain ⟨row, hrow, hid', huser, htype⟩ := hkeeps.same row' hrow' (hid ▸ h.lt)
    rw [← huser, ← htype]
    exact h.same row hrow (hid'.trans hid)
  expires := h.expires

theorem Writer.Sound.mono {w : Writer} (h : w.Sound offset sources n)
    (hkeeps : Keeps sources n sources' n') : w.Sound offset sources' n' := by
  cases w with
  | patch user loaded body => exact ⟨h.1.mono hkeeps, h.2⟩
  | callback user type creds loaded =>
    cases loaded with
    | none => exact h
    | some loaded => exact ⟨h.1.mono hkeeps, h.2⟩
  | tool phase =>
    cases phase with
    | expired loaded error => exact Loaded.mono h hkeeps
    | refreshing loaded creds => exact ⟨h.1.mono hkeeps, h.2⟩
    | refreshed loaded creds => exact ⟨h.1.mono hkeeps, h.2⟩
    | calling loaded => exact Loaded.mono h hkeeps
  | job job phase =>
    cases phase with
    | queued => trivial
    | failed e => trivial
    | unusable loaded error => exact Loaded.mono h hkeeps
    | caught loaded e => exact Loaded.mono h hkeeps
    | last loaded e => exact Loaded.mono h hkeeps
    | refreshing loaded creds => exact ⟨h.1.mono hkeeps, h.2⟩
    | refreshed loaded creds asOf => exact ⟨h.1.mono hkeeps, h.2⟩
    | ready loaded creds asOf => exact ⟨h.1.mono hkeeps, h.2⟩

theorem sound_init : Sound offset {} where
  rows := fun _ hrow => absurd hrow List.not_mem_nil
  writers := fun _ _ hw => absurd hw (by simp)

/-- A session goes on, and the rows stay. -/
theorem Sound.set (h : Sound offset s) {w : Option Writer}
    (hw : ∀ w' ∈ w, w'.Sound offset s.sources s.nextId) : Sound offset (s.set k w) where
  rows := h.rows
  writers := by
    intro j w' hj
    change Function.update s.writers k w j = some w' at hj
    by_cases heq : j = k
    · rw [heq, Function.update_self] at hj
      exact hw w' hj
    · rw [Function.update_of_ne heq] at hj
      exact h.writers j w' hj

theorem Sound.leave (h : Sound offset s) : Sound offset (s.set k none) :=
  h.set fun _ hw => absurd hw (by simp)

theorem Sound.enter (h : Sound offset s) {w : Option Writer}
    (hw : ∀ w' ∈ w, w'.Sound offset s.sources s.nextId) : Sound offset (s.enter k w) := by
  unfold Connectors.enter
  split
  next => exact h
  next => exact h.set hw

theorem mem_of_ownSource {user : Nat} (h : ownSource sources id user = some row) :
    row ∈ sources.list ∧ row.userId = user := by
  unfold ownSource at h
  obtain ⟨hfind, huser⟩ := Option.filter_eq_some_iff.mp h
  exact ⟨Rows.mem_of_find hfind, by simpa using huser⟩

theorem keeps_save (h : save sources loaded wanted = some sources') :
    Keeps sources n sources' n where
  le := Nat.le_refl n
  same := by
    intro row' hrow' _
    obtain ⟨row, hfind, hrow⟩ := find_save h (Rows.find_eq_some.mpr ⟨hrow', rfl⟩)
    obtain ⟨hmem, hid⟩ := Rows.find_eq_some.mp hfind
    rcases hrow with rfl | ⟨_, rfl⟩
    · exact ⟨row', hmem, rfl, rfl, rfl⟩
    · exact ⟨row, hmem, hid, rfl, rfl⟩

/-- The rows after a commit of a session that keeps the credentials of the other
connectors without an expiry. -/
theorem loaded_save (h : Sound offset s) (hloaded : Loaded s.sources s.nextId loaded)
    (hcreds : ∀ c ∈ wanted.credentials, ExpiresIfGoogle loaded.connectorType c)
    (hsave : save s.sources loaded wanted = some sources') :
    ∀ row' ∈ sources'.list, Loaded sources' s.nextId row' := by
  intro row' hrow'
  obtain ⟨row, hfind, hrow⟩ := find_save hsave (Rows.find_eq_some.mpr ⟨hrow', rfl⟩)
  have hmem := Rows.mem_of_find hfind
  have hold : Loaded sources' s.nextId row := (h.rows row hmem).mono (keeps_save hsave)
  rcases hrow with rfl | ⟨hid, rfl⟩
  · exact hold
  · refine ⟨hold.lt, hold.same, ?_⟩
    intro c hc
    change c ∈ written loaded.credentials wanted.credentials row.credentials at hc
    rcases written_cases loaded.credentials wanted.credentials row.credentials with heq | ⟨heq, _⟩
    · exact hold.expires c (heq ▸ hc)
    · show ExpiresIfGoogle row.connectorType c
      rw [(hloaded.same row hmem hid).2]
      exact hcreds c (heq ▸ hc)

theorem Sound.commit (h : Sound offset s) {raises : Option Failure} {ok : Option Writer}
    {failed : Failure → Option Writer} (hloaded : Loaded s.sources s.nextId loaded)
    (hcreds : ∀ c ∈ wanted.credentials, ExpiresIfGoogle loaded.connectorType c)
    (hok : ∀ w ∈ ok, w.Sound offset s.sources s.nextId)
    (hfailed : ∀ e, ∀ w ∈ failed e, w.Sound offset s.sources s.nextId) :
    Sound offset (s.commit k raises loaded wanted ok failed) := by
  unfold Connectors.commit
  split
  next e => exact h.set (hfailed e)
  next =>
    split
    next => exact h.set (hfailed _)
    next sources' hsave =>
      have hkeeps : Keeps s.sources s.nextId sources' s.nextId := keeps_save hsave
      have hrows := loaded_save h hloaded hcreds hsave
      have hsaved : Sound offset { s with sources := sources' } :=
        ⟨hrows, fun k w hw => (h.writers k w hw).mono hkeeps⟩
      exact hsaved.set fun w hw => (hok w hw).mono hkeeps

theorem Sound.insert (h : Sound offset s) {row : ExternalSource}
    (hcreds : ∀ c ∈ row.credentials, ExpiresIfGoogle row.connectorType c) :
    Sound offset (s.insert row) := by
  have hkeeps : Keeps s.sources s.nextId (s.insert row).sources (s.nextId + 1) := by
    refine ⟨Nat.le_succ _, ?_⟩
    intro row' hrow' hlt
    rcases Rows.mem_of_mem_insert hrow' with hold | rfl
    · exact ⟨row', hold, rfl, rfl, rfl⟩
    · exact absurd hlt (Nat.lt_irrefl _)
  constructor
  · intro row' hrow'
    rcases Rows.mem_of_mem_insert hrow' with hold | rfl
    · exact (h.rows row' hold).mono hkeeps
    · refine ⟨Nat.lt_succ_self _, ?_, hcreds⟩
      intro other hother hid
      rcases Rows.mem_of_mem_insert hother with hold | rfl
      · exact absurd (h.rows other hold).lt (by rw [hid]; exact Nat.lt_irrefl _)
      · exact ⟨rfl, rfl⟩
  · exact fun k w hw => (h.writers k w hw).mono hkeeps

theorem Sound.delete (h : Sound offset s) (id : Nat) :
    Sound offset { s with sources := s.sources.delete id } := by
  have hkeeps : Keeps s.sources s.nextId (s.sources.delete id) s.nextId :=
    ⟨Nat.le_refl _, fun row' hrow' _ => ⟨row', (Rows.mem_delete.mp hrow').1, rfl, rfl, rfl⟩⟩
  exact ⟨fun row hrow => (h.rows row (Rows.mem_delete.mp hrow).1).mono hkeeps,
    fun k w hw => (h.writers k w hw).mono hkeeps⟩

/-! ### The sessions -/

theorem Sound.syncStart (h : Sound offset s) (job : SyncJob) (env : Surroundings) :
    ∀ phase ∈ SyncPhase.start offset s.sources job.sourceId env,
      phase.Sound offset s.sources s.nextId := by
  intro phase hphase
  unfold SyncPhase.start at hphase
  split at hphase
  next => exact Option.some.inj hphase ▸ trivial
  next =>
    split at hphase
    next => exact absurd hphase (by simp)
    next src hfind =>
      have hsrc := h.rows src (Rows.mem_of_find hfind)
      split at hphase
      next => exact Option.some.inj hphase ▸ hsrc
      next creds hcreds =>
        split at hphase
        next hexpired =>
          split at hphase
          next => exact Option.some.inj hphase ▸ hsrc
          next hrefresh =>
            obtain rfl := Option.some.inj hphase
            have hgoogle := google_of_expired (hsrc.expires creds hcreds) hexpired
            exact ⟨hsrc, hgoogle, by simpa [Option.isSome_iff_ne_none] using hrefresh⟩
        next hheld =>
          obtain rfl := Option.some.inj hphase
          exact ⟨hsrc, hcreds, .inl (by simpa using hheld)⟩

theorem Sound.syncStep (h : Sound offset s) (env : Surroundings) (job : SyncJob) {phase : SyncPhase}
    (hphase : phase.Sound offset s.sources s.nextId) : Sound offset (job.step offset s k env phase) := by
  have hfails : ∀ e, ∀ w ∈ some (Writer.job job (.failed e)), w.Sound offset s.sources s.nextId :=
    fun e w hw => Option.some.inj hw ▸ trivial
  have hend : ∀ w ∈ (none : Option Writer), w.Sound offset s.sources s.nextId :=
    fun _ hw => absurd hw (by simp)
  unfold SyncJob.step
  split
  next =>
    refine h.set ?_
    intro w hw
    obtain ⟨phase, hstart, rfl⟩ := Option.map_eq_some_iff.mp hw
    exact h.syncStart job env phase hstart
  next loaded error =>
    have hloaded : Loaded s.sources s.nextId loaded := hphase
    exact h.commit hloaded hloaded.expires hend hfails
  next loaded creds =>
    obtain ⟨hloaded, hgoogle, hrefresh⟩ := hphase
    split
    next e _ => exact h.set (hfails e)
    next creds' hcreds' =>
      refine h.set ?_
      intro w hw
      obtain rfl := Option.some.inj hw
      exact ⟨hloaded, hgoogle, refreshed_not_expired hgoogle hrefresh hcreds'⟩
  -- refreshed credentials are committed before anything is asked of the provider
  next loaded creds asOf =>
    obtain ⟨hloaded, hgoogle, hvalid⟩ := hphase
    have hexpires : ∀ c ∈ some creds, ExpiresIfGoogle loaded.connectorType c :=
      fun _ _ hnot => absurd hgoogle (by rw [hnot]; simp)
    refine h.commit hloaded hexpires ?_ hfails
    intro w hw
    obtain rfl := Option.some.inj hw
    exact ⟨⟨hloaded.lt, hloaded.same, hexpires⟩, rfl, .inr hvalid⟩
  next loaded creds asOf =>
    exact h.commit hphase.1 hphase.1.expires hend hfails
  -- an exception loads the row anew, as it is by now
  next e =>
    split
    next src _ hfind =>
      refine h.set ?_
      intro w hw
      obtain rfl := Option.some.inj hw
      exact h.rows src (Rows.mem_of_find hfind)
    next => exact h.leave
  next loaded e =>
    have hloaded : Loaded s.sources s.nextId loaded := hphase
    split
    next => exact h.commit hloaded hloaded.expires hend fun _ => hend
    next =>
      -- either the queue runs the job again, or the error is written to the row
      refine h.commit hloaded hloaded.expires ?_ fun _ => hend
      intro w hw
      split at hw
      next =>
        unfold SyncJob.retry at hw
        split at hw
        next => exact absurd hw (by simp)
        next => exact Option.some.inj hw ▸ trivial
      next =>
        obtain rfl := Option.some.inj hw
        show Loaded s.sources s.nextId { loaded with error := some e.short }
        exact ⟨hloaded.lt, hloaded.same, hloaded.expires⟩
  next loaded e =>
    have hloaded : Loaded s.sources s.nextId loaded := hphase
    exact h.commit hloaded hloaded.expires hend fun _ => hend

theorem Sound.patchStep (h : Sound offset s) (env : Surroundings) {body : SourcePatch}
    (hloaded : Loaded s.sources s.nextId loaded) : Sound offset (body.step s k env loaded) := by
  unfold SourcePatch.step
  split
  next => exact h.leave
  next wanted hwrite =>
    have hcreds : wanted.credentials = loaded.credentials := by
      unfold SourcePatch.write at hwrite
      split at hwrite
      next => exact absurd hwrite (by simp)
      next => exact Option.some.inj hwrite ▸ rfl
    refine h.commit hloaded ?_ (fun _ hw => absurd hw (by simp)) fun _ _ hw => absurd hw (by simp)
    rw [hcreds]
    exact hloaded.expires

theorem Sound.callbackStep (h : Sound offset s) (env : Surroundings) {user : Nat} {type : ConnectorType}
    {creds : Credentials} {loaded : Option ExternalSource}
    (hw : Writer.Sound offset s.sources s.nextId (.callback user type creds loaded)) :
    Sound offset (callbackStep s k env user type creds loaded) := by
  unfold Jobs.callbackStep
  split
  next loaded =>
    obtain ⟨hloaded, _, htype, hexpires⟩ := hw
    refine h.commit hloaded ?_ (fun _ hw => absurd hw (by simp)) fun _ _ hw => absurd hw (by simp)
    intro c hc
    exact htype ▸ Option.some.inj hc ▸ hexpires
  next =>
    split
    next => exact h.leave
    next => exact (h.insert fun c hc => Option.some.inj hc ▸ hw).leave

theorem Sound.toolStep (h : Sound offset s) (env : Surroundings) {phase : ToolPhase}
    (hphase : phase.Sound s.sources s.nextId) : Sound offset (phase.step s k env) := by
  have hend : ∀ w ∈ (none : Option Writer), w.Sound offset s.sources s.nextId :=
    fun _ hw => absurd hw (by simp)
  unfold ToolPhase.step
  split
  next loaded error =>
    have hloaded : Loaded s.sources s.nextId loaded := hphase
    exact h.commit hloaded hloaded.expires hend fun _ => hend
  next loaded creds =>
    obtain ⟨hloaded, hexpires⟩ := hphase
    split
    next e _ =>
      refine h.set ?_
      intro w hw
      split at hw
      next => exact Option.some.inj hw ▸ hloaded
      next => exact absurd hw (by simp)
    next creds' hcreds' =>
      refine h.set ?_
      intro w hw
      exact Option.some.inj hw ▸ ⟨hloaded, refreshTokens_expires hexpires hcreds'⟩
  next loaded creds =>
    obtain ⟨hloaded, hexpires⟩ := hphase
    have hcreds : ∀ c ∈ some creds, ExpiresIfGoogle loaded.connectorType c :=
      fun c hc => Option.some.inj hc ▸ hexpires
    refine h.commit hloaded hcreds ?_ fun _ => hend
    intro w hw
    obtain rfl := Option.some.inj hw
    show Loaded s.sources s.nextId { loaded with credentials := some creds }
    exact ⟨hloaded.lt, hloaded.same, hcreds⟩
  next loaded =>
    have hloaded : Loaded s.sources s.nextId loaded := hphase
    split
    next => exact h.commit hloaded hloaded.expires hend fun _ => hend
    next => exact h.leave

theorem Sound.step (h : Sound offset s) (env : Surroundings) {w : Writer} (hw : s.writers k = some w) :
    Sound offset (w.step offset s k env) := by
  have hw := h.writers k w hw
  cases w with
  | patch user loaded body => exact h.patchStep env hw.1
  | callback user type creds loaded => exact h.callbackStep env hw
  | tool phase => exact h.toolStep env hw
  | job job phase => exact h.syncStep env job hw

theorem Sound.crash (h : Sound offset s) : Sound offset (s.set k ((s.writers k).bind Writer.crash)) := by
  refine h.set ?_
  intro w hw
  obtain ⟨w₀, _, hcrash⟩ := Option.bind_eq_some_iff.mp hw
  unfold Writer.crash at hcrash
  split at hcrash
  next =>
    split at hcrash
    next => exact absurd hcrash (by simp)
    next => exact Option.some.inj hcrash ▸ trivial
  next =>
    split at hcrash
    next =>
      unfold SyncJob.retry at hcrash
      split at hcrash
      next => exact absurd hcrash (by simp)
      next => exact Option.some.inj hcrash ▸ trivial
    next => exact absurd hcrash (by simp)
  next => exact absurd hcrash (by simp)

/-- Where a tool starts from a row. -/
theorem toolStart_sound (hloaded : Loaded sources n loaded) (now : Int) :
    ∀ phase ∈ ToolPhase.start loaded now, phase.Sound sources n := by
  intro phase hphase
  unfold ToolPhase.start at hphase
  split at hphase
  next => exact absurd hphase (by simp)
  next creds hcreds =>
    split at hphase
    next =>
      split at hphase
      next => exact Option.some.inj hphase ▸ hloaded
      next => exact Option.some.inj hphase ▸ ⟨hloaded, hloaded.expires creds hcreds⟩
    next => exact Option.some.inj hphase ▸ hloaded

theorem sound_next (h : Sound offset s) (e : ConnectorEvent) : Sound offset (s.next offset e) := by
  cases e with
  | create user type displayName resourceId =>
    simp only [Connectors.next]
    split
    next => exact h
    next => exact h.insert fun _ hc => absurd hc (by simp)
  | delete user id =>
    simp only [Connectors.next]
    split
    next => exact h
    next src _ => exact h.delete src.id
  | patch k user id body =>
    refine h.enter ?_
    intro w hw
    obtain ⟨src, hsrc, rfl⟩ := Option.map_eq_some_iff.mp hw
    obtain ⟨hmem, huser⟩ := mem_of_ownSource hsrc
    exact ⟨h.rows src hmem, huser⟩
  | callback k user type answer now =>
    simp only [Connectors.next]
    split
    next => exact h
    next creds hcreds =>
      have hexpires := exchangeCode_expires hcreds
      split
      next => exact h.enter fun w hw => Option.some.inj hw ▸ hexpires
      -- the one row that the flow is for, if there is just one
      next src hfilter =>
        refine h.enter ?_
        intro w hw
        obtain rfl := Option.some.inj hw
        have hsrc := List.mem_filter.mp (hfilter ▸ List.mem_singleton_self src)
        simp only [Bool.and_eq_true, decide_eq_true_eq] at hsrc
        exact ⟨h.rows src hsrc.1, hsrc.2.1.1, hsrc.2.1.2, hexpires⟩
      next => exact h
  | sync k user id inline =>
    simp only [Connectors.next]
    split
    next => exact h
    next =>
      split
      next => exact h.enter fun w hw => Option.some.inj hw ▸ trivial
      next => exact h
  | cron k id =>
    simp only [Connectors.next]
    split
    next =>
      split
      next => exact h.enter fun w hw => Option.some.inj hw ▸ trivial
      next => exact h
    next => exact h
  | tool k user type id now =>
    simp only [Connectors.next]
    split
    next src hfind =>
      split
      next =>
        refine h.enter ?_
        intro w hw
        obtain ⟨phase, hphase, rfl⟩ := Option.map_eq_some_iff.mp hw
        exact toolStart_sound (h.rows src (Rows.mem_of_find hfind)) now phase hphase
      next => exact h
    next => exact h
  | step k env =>
    simp only [Connectors.next]
    split
    next w hw => exact h.step env hw
    next => exact h
  | crash k => exact h.crash

/-! ## What makes a source active -/

theorem not_active_of_resting {status : SourceStatus} (h : status.resting = true) : status ≠ .active := by
  intro hactive
  rw [hactive] at h
  exact absurd h (by decide)

/-- A commit makes a row active that was not only if the session has set it so,
and had loaded it otherwise. -/
theorem commit_revives {raises : Option Failure} {ok : Option Writer} {failed : Failure → Option Writer}
    (hrow : s.sources.find id = some row)
    (hrow' : (s.commit k raises loaded wanted ok failed).sources.find id = some row')
    (hrest : row.status.resting = true) (hactive : row'.status = .active) :
    wanted.status = .active ∧ loaded.status ≠ .active ∧ raises = none ∧
      s.sources.find loaded.id = some row := by
  have hsame : ∀ r, s.sources.find id = some r → r.status ≠ .active := by
    intro r hr
    rw [hrow] at hr
    exact Option.some.inj hr ▸ not_active_of_resting hrest
  unfold Connectors.commit at hrow'
  split at hrow'
  next => exact absurd hactive (hsame row' hrow')
  next =>
    split at hrow'
    next => exact absurd hactive (hsame row' hrow')
    next sources' hsave =>
      -- a status is written only where the session wants another one than it had loaded
      obtain ⟨r, hr, hcases⟩ := find_save hsave hrow'
      rcases hcases with rfl | ⟨rfl, rfl⟩
      · exact absurd hactive (hsame row' hr)
      · change written loaded.status wanted.status r.status = .active at hactive
        rcases written_cases loaded.status wanted.status r.status with heq | ⟨heq, hne⟩
        · exact absurd (heq ▸ hactive) (hsame r hr)
        · rw [heq] at hactive
          exact ⟨hactive, hactive ▸ hne.symm, rfl, hrow⟩

/-- A commit of a session that does not set the status to active. -/
theorem commit_keeps {raises : Option Failure} {ok : Option Writer} {failed : Failure → Option Writer}
    (hrow : s.sources.find id = some row)
    (hrow' : (s.commit k raises loaded wanted ok failed).sources.find id = some row')
    (hrest : row.status.resting = true) (hwanted : wanted.status = .active → loaded.status = .active) :
    row'.status ≠ .active := by
  intro hactive
  obtain ⟨hset, hother, _⟩ := commit_revives hrow hrow' hrest hactive
  exact hother (hwanted hset)

/-- The rows that a step leaves alone. -/
theorem same_keeps (hrow : s.sources.find id = some row) (hrow' : s.sources.find id = some row')
    (hrest : row.status.resting = true) : row'.status ≠ .active := by
  rw [hrow] at hrow'
  exact Option.some.inj hrow' ▸ not_active_of_resting hrest

theorem insert_keeps (h : Sound offset s) {src : ExternalSource} (hrow : s.sources.find id = some row)
    (hrow' : (s.insert src).sources.find id = some row') (hrest : row.status.resting = true) :
    row'.status ≠ .active := by
  obtain ⟨hmem, hid⟩ := Rows.find_eq_some.mp hrow
  have hlt := (h.rows row hmem).lt
  have hne : id ≠ s.nextId := by omega
  have hold : Rows.find (s.sources.insert { src with id := s.nextId }) id = s.sources.find id :=
    Rows.find_insert_of_ne hne
  exact same_keeps hrow (hold.symm.trans hrow') hrest

theorem enter_sources {w : Option Writer} : (s.enter k w).sources = s.sources := by
  unfold Connectors.enter
  split
  next => rfl
  next => rfl

theorem toolStep_keeps {env : Surroundings} {phase : ToolPhase} (hrow : s.sources.find id = some row)
    (hrow' : (phase.step s k env).sources.find id = some row') (hrest : row.status.resting = true) :
    row'.status ≠ .active := by
  unfold ToolPhase.step at hrow'
  split at hrow'
  next => exact commit_keeps hrow hrow' hrest fun h => absurd h (by simp [ExternalSource.needsReauth])
  next =>
    split at hrow'
    next => exact same_keeps hrow hrow' hrest
    next => exact same_keeps hrow hrow' hrest
  next =>
    dsimp only at hrow'
    exact commit_keeps hrow hrow' hrest fun h => h
  next =>
    split at hrow'
    next => exact commit_keeps hrow hrow' hrest fun h => absurd h (by simp [ExternalSource.needsReauth])
    next => exact same_keeps hrow hrow' hrest

/-- A job revives a source only when it marks it. -/
theorem syncStep_revives {env : Surroundings} {job : SyncJob} {phase : SyncPhase}
    (hrow : s.sources.find id = some row)
    (hrow' : (job.step offset s k env phase).sources.find id = some row')
    (hrest : row.status.resting = true) (hactive : row'.status = .active) :
    ∃ loaded creds asOf, phase = .ready loaded creds asOf ∧ loaded.status ≠ .active ∧
      env.raises = none ∧ s.sources.find loaded.id = some row := by
  -- of all the phases only the last one of a run without errors sets `active`
  have hreauth : ∀ (src : ExternalSource) error, (src.needsReauth error).status = .active →
      src.status = .active := fun _ _ h => absurd h (by simp [ExternalSource.needsReauth])
  unfold SyncJob.step at hrow'
  split at hrow'
  next => exact absurd hactive (same_keeps hrow hrow' hrest)
  next => exact absurd hactive (commit_keeps hrow hrow' hrest (hreauth _ _))
  next =>
    split at hrow'
    next => exact absurd hactive (same_keeps hrow hrow' hrest)
    next => exact absurd hactive (same_keeps hrow hrow' hrest)
  next =>
    dsimp only at hrow'
    exact absurd hactive (commit_keeps hrow hrow' hrest fun h => h)
  next loaded creds asOf =>
    obtain ⟨_, hother, hraises, hfind⟩ := commit_revives hrow hrow' hrest hactive
    exact ⟨loaded, creds, asOf, rfl, hother, hraises, hfind⟩
  next =>
    split at hrow'
    next => exact absurd hactive (same_keeps hrow hrow' hrest)
    next => exact absurd hactive (same_keeps hrow hrow' hrest)
  next =>
    split at hrow'
    next => exact absurd hactive (commit_keeps hrow hrow' hrest (hreauth _ _))
    next =>
      dsimp only at hrow'
      exact absurd hactive (commit_keeps hrow hrow' hrest fun h => h)
  next => exact absurd hactive (commit_keeps hrow hrow' hrest fun h => absurd h (by simp))

/-- What a PATCH makes active it was asked to. -/
theorem patchStep_revives {env : Surroundings} {body : SourcePatch} (hrow : s.sources.find id = some row)
    (hrow' : (body.step s k env loaded).sources.find id = some row')
    (hrest : row.status.resting = true) (hactive : row'.status = .active) :
    body.status = some (some true) ∧ s.sources.find loaded.id = some row := by
  unfold SourcePatch.step at hrow'
  split at hrow'
  next => exact absurd hactive (same_keeps hrow hrow' hrest)
  next wanted hwrite =>
    obtain ⟨hset, hother, _, hfind⟩ := commit_revives hrow hrow' hrest hactive
    refine ⟨?_, hfind⟩
    unfold SourcePatch.write at hwrite
    split at hwrite
    next => exact absurd hwrite (by simp)
    next =>
      obtain rfl := Option.some.inj hwrite
      -- without a status in the body the row keeps the one that was loaded
      cases hstatus : body.status with
      | none =>
        rw [hstatus] at hset
        exact absurd hset hother
      | some status =>
        cases status with
        | none => exact absurd hstatus (by assumption)
        | some active =>
          cases active with
          | true => rfl
          | false =>
            rw [hstatus] at hset
            exact absurd hset (by simp)

/-- A callback makes active a row of its user. -/
theorem callbackStep_revives (h : Sound offset s) {env : Surroundings} {user : Nat} {type : ConnectorType}
    {creds : Credentials} {loaded : Option ExternalSource}
    (hrow : s.sources.find id = some row)
    (hrow' : (callbackStep s k env user type creds loaded).sources.find id = some row')
    (hrest : row.status.resting = true) (hactive : row'.status = .active) :
    ∃ src, loaded = some src ∧ s.sources.find src.id = some row := by
  unfold callbackStep at hrow'
  split at hrow'
  next loaded =>
    obtain ⟨_, _, _, hfind⟩ := commit_revives hrow hrow' hrest hactive
    exact ⟨loaded, rfl, hfind⟩
  next =>
    split at hrow'
    next => exact absurd hactive (same_keeps hrow hrow' hrest)
    next => exact absurd hactive (insert_keeps h hrow hrow' hrest)

/-- The event begins a session or is the end of its process. -/
def ConnectorEvent.session : ConnectorEvent → Bool
  | .create _ _ _ _ | .delete _ _ | .step _ _ => false
  | _ => true

/-- Such an event writes no source. -/
theorem next_sources {e : ConnectorEvent} (h : e.session = true) : (s.next offset e).sources = s.sources := by
  cases e with
  | create user type displayName resourceId => exact absurd h (by simp [ConnectorEvent.session])
  | delete user id => exact absurd h (by simp [ConnectorEvent.session])
  | step k env => exact absurd h (by simp [ConnectorEvent.session])
  | patch k user id body => exact enter_sources
  | callback k user type answer now =>
    simp only [Connectors.next]
    split
    next => rfl
    next =>
      split
      next => exact enter_sources
      next => exact enter_sources
      next => rfl
  | sync k user id inline =>
    simp only [Connectors.next]
    split
    next => rfl
    next =>
      split
      next => exact enter_sources
      next => rfl
  | cron k id =>
    simp only [Connectors.next]
    split
    next =>
      split
      next => exact enter_sources
      next => rfl
    next => rfl
  | tool k user type id now =>
    simp only [Connectors.next]
    split
    next =>
      split
      next => exact enter_sources
      next => rfl
    next => rfl
  | crash k => rfl

/-- A step that revives a source is the user's, or the mark of a job. -/
theorem revives_cases (h : Sound offset s) {e : ConnectorEvent} (hrow : s.sources.find id = some row)
    (hrow' : (s.next offset e).sources.find id = some row') (hrest : row.status.resting = true)
    (hactive : row'.status = .active) :
    ByUser s e row.userId ∨
      ∃ loaded creds asOf, Marks s e loaded creds asOf ∧ loaded.status ≠ .active ∧
        s.sources.find loaded.id = some row := by
  -- only requests that write at once, and steps of sessions, change rows
  by_cases hsession : e.session = true
  · rw [next_sources hsession] at hrow'
    exact absurd hactive (same_keeps hrow hrow' hrest)
  cases e with
  | create user type displayName resourceId =>
    simp only [Connectors.next] at hrow'
    split at hrow'
    next => exact absurd hactive (same_keeps hrow hrow' hrest)
    next => exact absurd hactive (insert_keeps h hrow hrow' hrest)
  | delete user id =>
    simp only [Connectors.next] at hrow'
    split at hrow'
    next => exact absurd hactive (same_keeps hrow hrow' hrest)
    next =>
      rw [Rows.find_delete] at hrow'
      split at hrow'
      next => exact absurd hrow' (by simp)
      next => exact absurd hactive (same_keeps hrow hrow' hrest)
  | step k env =>
    simp only [Connectors.next] at hrow'
    split at hrow'
    next w hw =>
      -- a session has loaded the user's own row, and ids are not given again
      have hsound := h.writers k w hw
      cases w with
      | patch user loaded body =>
        obtain ⟨hbody, hfind⟩ := patchStep_revives hrow hrow' hrest hactive
        obtain ⟨hmem, hid⟩ := Rows.find_eq_some.mp hfind
        obtain rfl : row.userId = user := (hsound.1.same row hmem hid).1.trans hsound.2
        exact .inl ⟨k, env, rfl, .inl ⟨loaded, body, hw, hbody⟩⟩
      | callback user type creds loaded =>
        obtain ⟨src, rfl, hfind⟩ := callbackStep_revives h hrow hrow' hrest hactive
        obtain ⟨hmem, hid⟩ := Rows.find_eq_some.mp hfind
        obtain rfl : row.userId = user := (hsound.1.same row hmem hid).1.trans hsound.2.1
        exact .inl ⟨k, env, rfl, .inr ⟨type, creds, some src, hw⟩⟩
      | tool phase => exact absurd hactive (toolStep_keeps hrow hrow' hrest)
      | job job phase =>
        obtain ⟨loaded, creds, asOf, rfl, hother, hraises, hfind⟩ :=
          syncStep_revives hrow hrow' hrest hactive
        exact .inr ⟨loaded, creds, asOf, ⟨k, env, job, rfl, hw, hraises, by rw [hfind]; rfl⟩, hother, hfind⟩
    next => exact absurd hactive (same_keeps hrow hrow' hrest)
  | _ => exact absurd rfl hsession

/-- A job that has loaded another status makes the source active, whatever it is. -/
theorem marks_active (offset : Int) {e : ConnectorEvent} {loaded : ExternalSource} {creds : Credentials}
    {asOf : Int} (h : Marks s e loaded creds asOf) (hother : loaded.status ≠ .active) :
    ∃ row', (s.next offset e).sources.find loaded.id = some row' ∧ row'.status = .active := by
  obtain ⟨k, env, job, rfl, hw, hraises, hfind⟩ := h
  obtain ⟨row, hfind⟩ := Option.isSome_iff_exists.mp hfind
  have hne : loaded.synced env.now ≠ loaded := by
    intro heq
    exact hother (congrArg ExternalSource.status heq).symm
  refine ⟨loaded.flush (loaded.synced env.now) row, ?_, if_neg hother.symm⟩
  simp only [Connectors.next, hw]
  show Rows.find (Connectors.commit s k env.raises loaded (loaded.synced env.now) none _).sources _ = _
  unfold Connectors.commit save
  rw [hraises, if_neg hne, if_neg (by rw [hfind]; simp)]
  show Rows.find (Rows.updateAt s.sources loaded.id _ (loaded.flush_id _)) loaded.id = _
  rw [Rows.find_updateAt_self, hfind, Option.map_some]

theorem not_byUser_of_marks {e : ConnectorEvent} {creds : Credentials} {asOf : Int}
    (h : Marks s e loaded creds asOf) (user : Nat) : ¬ ByUser s e user := by
  obtain ⟨k, env, job, rfl, hw, _, _⟩ := h
  intro ⟨k', env', heq, hby⟩
  obtain ⟨rfl, rfl⟩ := ConnectorEvent.step.inj heq
  rcases hby with ⟨_, _, hpatch, _⟩ | ⟨_, _, _, hcallback⟩
  · exact absurd (hw.symm.trans hpatch) (by simp)
  · exact absurd (hw.symm.trans hcallback) (by simp)

theorem onlyUserRevives_step (h : Sound offset s) (e : ConnectorEvent) :
    OnlyUserRevives offset s e ↔ MarksAwake offset s e := by
  constructor
  · intro honly loaded creds asOf hmarks
    constructor
    · intro row hrow hrest
      by_contra hother
      -- a mark on a row that rests is a revival that no user has asked for
      obtain ⟨row', hrow', hactive⟩ := marks_active offset hmarks hother
      exact not_byUser_of_marks hmarks row.userId (honly.byUser _ row row' hrow hrow' hrest hactive)
    · intro hexpired
      rw [(honly.unexpired loaded creds asOf hmarks).2] at hexpired
      exact absurd hexpired (by simp)
  · intro hawake
    constructor
    · intro id row row' hrow hrow' hrest hactive
      rcases revives_cases h hrow hrow' hrest hactive with hby | ⟨loaded, creds, asOf, hmarks, hother, hfind⟩
      · exact hby
      · exact absurd ((hawake loaded creds asOf hmarks).1 row hfind hrest) hother
    · intro loaded creds asOf hmarks
      obtain ⟨k, env, job, _, hw, _, _⟩ := id hmarks
      obtain ⟨_, hcreds, hvalid⟩ := h.writers k _ hw
      refine ⟨hcreds, ?_⟩
      by_contra hexpired
      have hexpired : creds.expired asOf = true := by simpa using hexpired
      rcases hvalid with hclock | htime
      · rw [(hawake loaded creds asOf hmarks).2 hexpired] at hclock
        exact absurd hclock (by simp)
      · rw [hexpired] at htime
        exact absurd htime (by simp)

/-- In every run the sources that are paused or need a new consent are made
active by their user only, and jobs hold credentials that have not expired,
exactly when every job that marks a source finds it awake or has loaded it
active, and sees what has expired. -/
theorem onlyUserRevives_iff (offset : Int) (events : List ConnectorEvent) :
    Throughout (Connectors.next offset) (OnlyUserRevives offset) {} events ↔
      Throughout (Connectors.next offset) (MarksAwake offset) {} events :=
  throughout_congr (Sound offset) (fun _ e h => sound_next h e) (fun _ e h => onlyUserRevives_step h e)
    sound_init events

/-! ## A source that is paused while its job waits -/

def someTokens : TokenAnswer := .tokens "token".toList none none

/-- A GitHub source is connected, a sync is queued, and the user pauses the source
before the job runs. -/
def pausedSource : List ConnectorEvent :=
  [.callback 0 1 .github someTokens 0, .step 0 { now := 0 }, .cron 1 0,
    .patch 2 1 0 { status := some (some false) }, .step 2 { now := 0 }, .step 1 { now := 5 }]

theorem pausedSource_revived : ¬ ∀ events : List ConnectorEvent,
    Throughout (Connectors.next 0) (OnlyUserRevives 0) {} events := by
  intro h
  obtain ⟨_, honly, _⟩ := throughout_append.mp (h (pausedSource ++ [.step 1 { now := 5 }]))
  have hstatus : ((run (Connectors.next 0) {} pausedSource).sources.find 0).map
      (fun r => (r.id, r.status)) = some (0, .paused) := by
    decide
  have hphase : ∃ job loaded creds asOf, (run (Connectors.next 0) {} pausedSource).writers 1 =
      some (.job job (.ready loaded creds asOf)) ∧ loaded.id = 0 ∧ loaded.status = .paused :=
    ⟨_, _, _, _, rfl, rfl, rfl⟩
  obtain ⟨job, loaded, creds, asOf, hw, hid, hloaded⟩ := hphase
  obtain ⟨row, hrow, hfields⟩ := Option.map_eq_some_iff.mp hstatus
  obtain ⟨_, hpaused⟩ := Prod.mk.inj hfields
  have hmarks : Marks (run (Connectors.next 0) {} pausedSource) (.step 1 { now := 5 }) loaded creds asOf :=
    ⟨1, _, job, rfl, hw, rfl, by rw [hid, hrow]; rfl⟩
  have hawake := ((onlyUserRevives_step (run_preserves (Sound 0) (fun _ e h => sound_next h e) sound_init _)
    _).mp honly loaded creds asOf hmarks).1
  have hactive := hawake row (by rw [hid]; exact hrow) (by rw [hpaused]; rfl)
  rw [hloaded] at hactive
  exact absurd hactive (by simp)

end Eidetic.Jobs
