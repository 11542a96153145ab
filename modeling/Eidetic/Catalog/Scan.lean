import Eidetic.Catalog.Store
import Eidetic.Lib.Hash
import Mathlib.Data.List.Infix

/-!
# A scan of the catalog

`run_scan` lists the models of the provider, probes the chat candidates, writes
their rows, delists the others and publishes. A listing that fails raises, or
comes back empty: when the HTTP client is not there or the body has no models.
An empty listing goes on as if it were one, and every model is delisted
(`untouched_iff`).

The stages of `run_scan` are functions that may end it: `listModels` reads the
answer of the provider, `candidates` the ids of the chat models, `scanRows`
probes, writes and delists in the session, and the commit makes it all visible
before the publish. The exceptions of the source are `none`, and a scan that is
skipped, or whose session does not commit, is `idle`. What a scan does to one
row is `find_scanRows`, which is all that the modules about histories use.

Of a listing that is not obtained there are two kinds. One that raises ends the
scan before it has written anything (`listing_raises`, `runScan_of_raises`). One
that comes back empty has no candidates, and then the pass that delists takes
every row that is left (`scanRows_nil`). So the catalog is untouched exactly
when there is nothing to lose: all rows are delisted already, and the snapshot
and what is published are those of the rows.
-/

namespace Eidetic.Catalog

open Eidetic.Lib Eidetic.Py

/-! ## Labels -/

/-- `str.lower`, `str.upper`, `str.capitalize` and `str.isdigit`, which Unicode
decides. -/
structure Letters where
  lower : Text → Text
  upper : Text → Text
  capitalize : Text → Text
  isDigit : Char → Bool

/-- `_EXCLUDE_SUBSTRINGS`. -/
def excludeSubstrings : List String :=
  ["embed", "rerank", "retriev", "reward", "safety", "guard", "parse", "ocr", "asr", "tts",
    "vlm-embed"]

def isChatCandidate (l : Letters) (modelId : Text) : Bool :=
  !excludeSubstrings.any fun term => term.toList <:+: l.lower modelId

def deriveLabel (l : Letters) (modelId : Text) : Text :=
  let name := (modelId.splitOn '/').getLastD []
  let parts := ((name.map fun c => if c = '_' then '-' else c).splitOn '-').filter (!·.isEmpty)
  if parts.isEmpty then modelId
  else joinWords (parts.map fun p =>
    if p.length ≤ 3 && p.any l.isDigit then l.upper p else l.capitalize p)

/-! ## The listing -/

/-- What becomes of `GET /v1/models`: the client is not there, the request fails
below HTTP, or is answered, with `none` for a body that is not JSON. -/
inductive ListReply
  | uninitialised
  | refused
  | response (status : Nat) (body : Option Json)

/-- `raise_for_status` returns. -/
def isSuccess (status : Nat) : Bool := 200 ≤ status && status < 300

/-- `[row.get("id") for row in rows if row.get("id")]`; `none` if it raises. -/
def rowIds : List Json → Option (List Json)
  | [] => some []
  | .obj fields :: rest =>
    match getItem fields "id" with
    | some id => if id.truthy then (rowIds rest).map (id :: ·) else rowIds rest
    | none => rowIds rest
  | _ :: _ => none

/-- The ids of a body, which must have a `get`. -/
def bodyIds : Option Json → Option (List Json)
  | some (.obj items) => ((getItem items "data").getD (.arr [])).iter.toOption.bind rowIds
  | _ => none

/-- `_list_models`; `none` if it raises. -/
def listModels : ListReply → Option (List Json)
  | .uninitialised => some []
  | .refused => none
  | .response status body => if isSuccess status then bodyIds body else none

/-- The chat candidates; an id that is no string has no `lower`. -/
def candidates (l : Letters) : List Json → Option (List Text)
  | [] => some []
  | .str id :: rest =>
    (candidates l rest).map fun ids => if isChatCandidate l id then id :: ids else ids
  | _ :: _ => none

/-! ## The probes -/

/-- What a probe says of a model. -/
inductive Outcome
  | live
  | timeout
  | error
  | notFound
  | gone
deriving DecidableEq, Repr

def Outcome.status : Outcome → Status
  | .live => .live
  | .timeout => .timeout
  | .error => .error
  | .notFound => .notFound
  | .gone => .gone

inductive ProbeReply
  | timedOut
  | refused
  | response (status : Nat) (body : Option Json)

/-- What is not known when a candidate is probed: the answer, how long it takes
and when the result is written. -/
structure ProbeInput where
  reply : ProbeReply
  latencyMs : Nat
  writtenAt : Nat

/-- The result of `_probe_one`, with no outcome for `_KEEP_PRIOR_STATUS`. -/
structure Probe where
  id : Text
  outcome : Option Outcome
  httpStatus : Option Nat
  latencyMs : Nat
  reasoning : Option Bool
  writtenAt : Nat

/-- Whether the answer has reasoning and no content, if it has a choice. -/
def reasoningBody (data : Json) : Except Exc (Option Bool) := do
  let choices := orElse (← getAttr data "choices") (.arr [])
  if choices.truthy then
    let message := (← getAttr (← choices.first) "message").getD (.obj [])
    let content ← getAttr message "content"
    let reasoningContent :=
      orElse (← getAttr message "reasoning_content") ((← getAttr message "reasoning").getD .null)
    let answered := match content with
      | some (.str s) => !(strip s).isEmpty
      | _ => false
    return some (reasoningContent.truthy && !answered)
  else return none

/-- The `try` around it. -/
def probeReasoning (body : Option Json) : Option Bool :=
  match body with
  | none => none
  | some data =>
    match reasoningBody data with
    | .ok reasoning => reasoning
    | .error _ => none

/-- `_probe_one`. -/
def probeOne (modelId : Text) (i : ProbeInput) : Probe :=
  match i.reply with
  | .timedOut => ⟨modelId, some .timeout, none, i.latencyMs, none, i.writtenAt⟩
  | .refused => ⟨modelId, some .error, none, i.latencyMs, none, i.writtenAt⟩
  | .response status body =>
    if status = 200 then
      ⟨modelId, some .live, some 200, i.latencyMs, probeReasoning body, i.writtenAt⟩
    else if status = 404 then ⟨modelId, some .notFound, some 404, i.latencyMs, none, i.writtenAt⟩
    else if status = 410 then ⟨modelId, some .gone, some 410, i.latencyMs, none, i.writtenAt⟩
    else if status = 429 then ⟨modelId, none, some 429, i.latencyMs, none, i.writtenAt⟩
    else ⟨modelId, some .error, some status, i.latencyMs, none, i.writtenAt⟩

/-! ## The upsert pass -/

/-- The status that a probe is stored with. -/
def Probe.status (existing : Text → Option Status) (p : Probe) : Status :=
  match p.outcome with
  | some outcome => outcome.status
  | none => (existing p.id).getD .error

/-- What `upsert_scan_result` is called with. -/
def Probe.scanResult (roles : List Text) (label : Text → Text) (existing : Text → Option Status)
    (p : Probe) : ScanResult where
  modelId := p.id
  status := p.status existing
  httpStatus := p.httpStatus
  latencyMs := some p.latencyMs
  label := some (label p.id)
  seedEnabled := isRole roles p.id
  reasoning := p.reasoning

/-- `existing_status`. -/
def existingStatus (rows : ModelCatalog) (modelId : Text) : Option Status :=
  (rows.find modelId).map ModelRow.status

/-- The loop over the results of the probes. -/
def upsertPass (roles : List Text) (label : Text → Text) (existing : Text → Option Status)
    (rows : ModelCatalog) (probes : List Probe) : ModelCatalog :=
  probes.foldl
    (fun rows p => upsertScanResult rows (p.scanResult roles label existing) p.writtenAt) rows

/-- The session of a scan, with the number of rows it delists. -/
def scanRows (roles : List Text) (label : Text → Text) (rows : ModelCatalog) (probes : List Probe)
    (now : Nat) : ModelCatalog × Nat :=
  markDelisted (upsertPass roles label (existingStatus rows) rows probes) (probes.map Probe.id) now

/-! ## The scan -/

/-- The rows, the snapshot of the process and `catalog:entries`. -/
structure CatalogState where
  rows : ModelCatalog
  snapshot : List (Text × Entry)
  published : List (Text × Entry)

structure ScanConfig where
  /-- `LLM_BACKEND == "homeserver"`. -/
  homeserver : Bool
  useRedis : Bool
  /-- `MODELS.values()`. -/
  roles : List Text

/-- `publish`, alone and with the database and Redis up. -/
def publish (cfg : ScanConfig) (s : CatalogState) : CatalogState :=
  let content := entries s.rows
  { s with
    snapshot := content
    published :=
      if !cfg.useRedis then s.published
      else if content.isEmpty then []
      else
        let hash := hset s.published content
        hdel hash (staleFields (hkeys hash) content) }

structure ScanInput where
  trigger : Text
  /-- What `SET catalog:scan:lock NX` answers; `none` if it raises. -/
  lock : Option Bool
  listing : ListReply
  /-- Of the candidate in each place. -/
  probe : Nat → ProbeInput
  delistedAt : Nat
  /-- Whether the session commits. -/
  committed : Bool

structure ScanMeta where
  trigger : Text
  scanned : Nat
  delisted : Nat
  /-- How many probes had each outcome, 429 among them. -/
  summary : Option Outcome → Nat

inductive ScanAnswer
  | skipped (reason : String)
  | raised
  | done (scanMeta : ScanMeta)

/-- `_acquire_lock`. -/
def acquireLock (cfg : ScanConfig) (i : ScanInput) : Option Bool :=
  if !cfg.useRedis then some true else i.lock

/-- The probes of a scan, one for each candidate. -/
def ScanInput.probes (i : ScanInput) (ids : List Text) : List Probe :=
  ids.mapIdx fun n id => probeOne id (i.probe n)

def runScan (l : Letters) (cfg : ScanConfig) (s : CatalogState) (i : ScanInput) :
    CatalogState × ScanAnswer :=
  if cfg.homeserver then (s, .skipped "homeserver")
  else
    match acquireLock cfg i with
    | none => (s, .raised)
    | some false => (s, .skipped "already_running")
    | some true =>
      match (listModels i.listing).bind (candidates l) with
      | none => (s, .raised)
      | some ids =>
        let probes := i.probes ids
        let scanned := scanRows cfg.roles (deriveLabel l) s.rows probes i.delistedAt
        if i.committed then
          (publish cfg { s with rows := scanned.1 },
            .done ⟨i.trigger, ids.length, scanned.2, fun o => (probes.map Probe.outcome).count o⟩)
        else (s, .raised)

/-! ## What a scan does to a row -/

section Rows

variable {roles : List Text} {label : Text → Text} {existing : Text → Option Status}
  {rows : ModelCatalog} {probes : List Probe} {now : Nat}

theorem find_upsertPass_of_not_mem {k : Text} (h : k ∉ probes.map Probe.id) :
    (upsertPass roles label existing rows probes).find k = rows.find k := by
  unfold upsertPass
  induction probes generalizing rows with
  | nil => rfl
  | cons p rest ih =>
    rw [List.map_cons, List.mem_cons, not_or] at h
    rw [List.foldl_cons, ih h.2]
    exact upsertScanResult_of_ne h.1

/-- In a listing without repetitions every row is written once. -/
theorem find_upsertPass (hdistinct : (probes.map Probe.id).Nodup) {p : Probe} (hp : p ∈ probes) :
    (upsertPass roles label existing rows probes).find p.id =
      some (((rows.find p.id).map ((p.scanResult roles label existing).record p.writtenAt)).getD
        ((p.scanResult roles label existing).newRow p.writtenAt)) := by
  induction probes generalizing rows with
  | nil => exact absurd hp List.not_mem_nil
  | cons q rest ih =>
    rw [List.map_cons, List.nodup_cons] at hdistinct
    unfold upsertPass
    rw [List.foldl_cons]
    rcases List.mem_cons.mp hp with rfl | hrest
    · refine (find_upsertPass_of_not_mem hdistinct.1).trans ?_
      exact upsertScanResult_self
    · have hne : p.id ≠ q.id := fun h => hdistinct.1 (h ▸ List.mem_map_of_mem hrest)
      refine (ih hdistinct.2 hrest).trans ?_
      rw [upsertScanResult_of_ne hne]

theorem find_scanRows (hdistinct : (probes.map Probe.id).Nodup) {p : Probe} (hp : p ∈ probes) :
    (scanRows roles label rows probes now).1.find p.id =
      some (((rows.find p.id).map
          ((p.scanResult roles label (existingStatus rows)).record p.writtenAt)).getD
        ((p.scanResult roles label (existingStatus rows)).newRow p.writtenAt)) := by
  unfold scanRows
  rw [find_markDelisted, find_upsertPass hdistinct hp, Option.map_some,
    if_pos (List.mem_map_of_mem hp)]

theorem find_scanRows_of_not_mem {k : Text} (h : k ∉ probes.map Probe.id) :
    (scanRows roles label rows probes now).1.find k = (rows.find k).map (ModelRow.delist now) := by
  unfold scanRows
  rw [find_markDelisted, find_upsertPass_of_not_mem h]
  simp only [if_neg h]

end Rows

/-! ## Scans that obtain no listing -/

/-- A row of a listing has a name. -/
def isNamed : Json → Bool
  | .obj fields => (getItem fields "id").any Json.truthy
  | _ => false

/-- A row of a listing is an object, and its name, if it has one, a string. -/
def isModelRow : Json → Bool
  | .obj fields =>
    match getItem fields "id" with
    | some (.str _) => true
    | some id => !id.truthy
    | none => true
  | _ => false

/-- The provider's list: a success whose `data` is an array of objects, of which
some have a name. -/
def ListReply.obtained : ListReply → Bool
  | .response status (some (.obj items)) =>
    isSuccess status &&
      match getItem items "data" with
      | some (.arr rows) => rows.all isModelRow && rows.any isNamed
      | _ => false
  | _ => false

/-- A failure that comes back as an empty list: there is no client, or a success
has an object as body whose `data` is missing, empty or an array of objects
without a name. -/
def ListReply.empty : ListReply → Bool
  | .uninitialised => true
  | .response status (some (.obj items)) =>
    isSuccess status &&
      match getItem items "data" with
      | none => true
      | some (.arr rows) => rows.all fun row => isModelRow row && !isNamed row
      | some (.str s) => s.isEmpty
      | some (.obj fields) => fields.isEmpty
      | _ => false
  | _ => false

/-- The rows, the snapshot and what is published are as before. -/
structure Untouched (s s' : CatalogState) : Prop where
  rows : s'.rows = s.rows
  snapshot : Same s'.snapshot s.snapshot
  published : Same s'.published s.published

/-- All models are delisted already, and the snapshot and what is published are
those of the rows. -/
structure NothingToLose (cfg : ScanConfig) (s : CatalogState) : Prop where
  delisted : ∀ row ∈ s.rows.list, row.status = .delisted
  snapshot : Same s.snapshot (entries s.rows)
  published : cfg.useRedis = true → Same s.published (entries s.rows)

/-- The scan is skipped, or its session does not commit. -/
def ScanInput.idle (cfg : ScanConfig) (i : ScanInput) : Prop :=
  cfg.homeserver = true ∨ acquireLock cfg i ≠ some true ∨ i.committed = false

variable {l : Letters} {cfg : ScanConfig} {s : CatalogState} {i : ScanInput}

theorem rowIds_unnamed {rows : List Json}
    (h : ∀ row ∈ rows, isModelRow row = true ∧ isNamed row = false) : rowIds rows = some [] := by
  induction rows with
  | nil => rfl
  | cons row rest ih =>
    obtain ⟨hrow, hrest⟩ := List.forall_mem_cons.mp h
    cases row with
    | obj fields =>
      unfold rowIds
      cases hid : getItem fields "id" with
      | none => exact ih hrest
      | some id =>
        have hunnamed : id.truthy = false := by
          have hnamed := hrow.2
          rw [isNamed, hid] at hnamed
          exact hnamed
        dsimp only
        rw [hunnamed]
        exact ih hrest
    | null | bool _ | num _ | str _ | arr _ => exact absurd hrow.1 (by simp [isModelRow])

/-- A row that is no object, or an id that is no string, ends the scan. -/
theorem candidates_of_malformed (l : Letters) {rows : List Json}
    (h : ∃ row ∈ rows, isModelRow row = false) : (rowIds rows).bind (candidates l) = none := by
  induction rows with
  | nil =>
    obtain ⟨_, hrow, _⟩ := h
    exact absurd hrow List.not_mem_nil
  | cons row rest ih =>
    -- the induction is on the rows: this one is malformed, or a later one is
    have hhead : isModelRow row = false ∨ (rowIds rest).bind (candidates l) = none := by
      obtain ⟨bad, hmem, hbad⟩ := h
      rcases List.mem_cons.mp hmem with rfl | hmem
      · exact Or.inl hbad
      · exact Or.inr (ih ⟨bad, hmem, hbad⟩)
    cases row with
    | obj fields =>
      unfold rowIds
      rw [isModelRow] at hhead
      cases hid : getItem fields "id" with
      | none =>
        rw [hid] at hhead
        exact hhead.resolve_left (by simp)
      | some id =>
        dsimp only
        split
        next htruthy =>
          cases hrest : rowIds rest with
          | none => rfl
          | some ids =>
            rw [hid, hrest] at hhead
            show candidates l (id :: ids) = none
            cases id with
            | str id =>
              have hnone : candidates l ids = none := hhead.resolve_left (by simp)
              unfold candidates
              rw [hnone]
              rfl
            | null | bool _ | num _ | arr _ | obj _ => rfl
        next htruthy =>
          refine hhead.resolve_left fun hbad => htruthy ?_
          rw [hid] at hbad
          cases id with
          | str _ => exact absurd hbad (by simp)
          | null | bool _ | num _ | arr _ | obj _ => simpa using hbad
    | null | bool _ | num _ | str _ | arr _ => rfl

theorem listModels_empty {listing : ListReply} (h : listing.empty = true) :
    listModels listing = some [] := by
  cases listing with
  | uninitialised => rfl
  | refused => exact absurd h (by simp [ListReply.empty])
  | response status body =>
    cases body with
    | none => exact absurd h (by simp [ListReply.empty])
    | some body =>
      cases body with
      | obj items =>
        rw [ListReply.empty, Bool.and_eq_true] at h
        obtain ⟨hsuccess, hdata⟩ := h
        rw [listModels, if_pos hsuccess, bodyIds]
        cases hitem : getItem items "data" with
        | none => rfl
        | some data =>
          rw [hitem] at hdata
          cases data with
          | arr rows =>
            refine rowIds_unnamed fun row hrow => ?_
            simpa using List.all_eq_true.mp hdata row hrow
          -- an empty string or object is gone through like an empty list
          | str s =>
            rw [List.isEmpty_iff.mp hdata]
            rfl
          | obj fields =>
            rw [List.isEmpty_iff.mp hdata]
            rfl
          | null | bool _ | num _ => exact absurd hdata (by simp)
      | null | bool _ | num _ | str _ | arr _ => exact absurd h (by simp [ListReply.empty])

/-- A listing that is neither obtained nor empty raises. -/
theorem listing_raises (l : Letters) {listing : ListReply} (hobtained : listing.obtained = false)
    (hempty : listing.empty = false) : (listModels listing).bind (candidates l) = none := by
  cases listing with
  | uninitialised => exact absurd hempty (by simp [ListReply.empty])
  | refused => rfl
  | response status body =>
    rw [listModels]
    split
    next hsuccess =>
      cases body with
      | none => rfl
      | some body =>
        cases body with
        | obj items =>
          rw [ListReply.obtained, hsuccess, Bool.true_and] at hobtained
          rw [ListReply.empty, hsuccess, Bool.true_and] at hempty
          rw [bodyIds]
          cases hitem : getItem items "data" with
          | none =>
            rw [hitem] at hempty
            exact absurd hempty (by simp)
          | some data =>
            rw [hitem] at hobtained hempty
            cases data with
            | arr rows =>
              refine candidates_of_malformed l ?_
              -- if all rows were models, one with a name would make it a listing, and none an empty one
              by_contra hall
              have hrows : ∀ row ∈ rows, isModelRow row = true := by
                intro row hrow
                by_contra hbad
                exact hall ⟨row, hrow, by simpa using hbad⟩
              have hunnamed : ∀ row ∈ rows, isNamed row = false := by
                have hnone : (rows.all isModelRow && rows.any isNamed) = false := hobtained
                rw [List.all_eq_true.mpr hrows, Bool.true_and] at hnone
                simpa using hnone
              refine absurd (List.all_eq_true.mpr fun row hrow => ?_) (Bool.eq_false_iff.mp hempty)
              rw [hrows row hrow, hunnamed row hrow]
              rfl
            | str s =>
              cases s with
              | nil => exact absurd hempty (by simp)
              | cons c rest => rfl
            | obj fields =>
              cases fields with
              | nil => exact absurd hempty (by simp)
              | cons field rest => rfl
            | null | bool _ | num _ => rfl
        | null | bool _ | num _ | str _ | arr _ => rfl
    next => rfl

theorem not_obtained_of_empty {listing : ListReply} (h : listing.empty = true) :
    listing.obtained = false := by
  cases listing with
  | uninitialised | refused => rfl
  | response status body =>
    cases body with
    | none => rfl
    | some body =>
      cases body with
      | obj items =>
        rw [ListReply.empty, Bool.and_eq_true] at h
        rw [ListReply.obtained, h.1, Bool.true_and]
        have hdata := h.2
        cases hitem : getItem items "data" with
        | none => rfl
        | some data =>
          rw [hitem] at hdata
          cases data with
          | arr rows =>
            have hunnamed : rows.any isNamed = false := by
              rw [List.any_eq_false]
              intro row hrow
              have hboth := List.all_eq_true.mp hdata row hrow
              rw [Bool.and_eq_true] at hboth
              simpa using hboth.2
            dsimp only
            rw [hunnamed, Bool.and_false]
          | null | bool _ | num _ | str _ | obj _ => rfl
      | null | bool _ | num _ | str _ | arr _ => rfl

/-- A scan whose session commits nothing changes nothing. -/
theorem runScan_of_idle (hidle : i.idle cfg) : (runScan l cfg s i).1 = s := by
  unfold runScan
  split
  next => rfl
  next hbackend =>
    split
    next => rfl
    next => rfl
    next hlock =>
      split
      next => rfl
      next =>
        have hcommitted : i.committed = false :=
          (hidle.resolve_left hbackend).resolve_left (fun h => h hlock)
        dsimp only
        rw [hcommitted]
        rfl

theorem runScan_of_raises (h : (listModels i.listing).bind (candidates l) = none) :
    (runScan l cfg s i).1 = s := by
  unfold runScan
  rw [h]
  split
  · rfl
  · split <;> rfl

theorem runScan_of_candidates (hidle : ¬ i.idle cfg) {ids : List Text}
    (h : (listModels i.listing).bind (candidates l) = some ids) :
    (runScan l cfg s i).1 =
      publish cfg { s with
        rows := (scanRows cfg.roles (deriveLabel l) s.rows (i.probes ids) i.delistedAt).1 } := by
  have hbackend : ¬ cfg.homeserver = true := fun h => hidle (Or.inl h)
  have hlock : acquireLock cfg i = some true := by
    by_contra hlock
    exact hidle (Or.inr (Or.inl hlock))
  have hcommitted : i.committed = true := by
    by_contra hcommitted
    exact hidle (Or.inr (Or.inr (by simpa using hcommitted)))
  unfold runScan
  rw [if_neg hbackend, hlock, h]
  dsimp only
  rw [if_pos hcommitted]

@[simp] theorem publish_rows : (publish cfg s).rows = s.rows := rfl

@[simp] theorem publish_snapshot : (publish cfg s).snapshot = entries s.rows := rfl

theorem publish_published (hredis : cfg.useRedis = true) :
    Same (publish cfg s).published (entries s.rows) := by
  unfold publish
  rw [hredis]
  dsimp only
  rw [Bool.not_true, if_neg Bool.false_ne_true]
  split
  next hempty =>
    intro k
    rw [List.isEmpty_iff.mp hempty]
  next => exact same_rewrite s.published (entries s.rows)

theorem publish_unused (hredis : cfg.useRedis = false) : (publish cfg s).published = s.published := by
  unfold publish
  rw [hredis]
  rfl

/-- Without candidates a scan leaves the rows alone only if none is left to delist. -/
theorem scanRows_nil (roles : List Text) (label : Text → Text) (rows : ModelCatalog) (now : Nat) :
    (scanRows roles label rows [] now).1 = rows ↔ ∀ row ∈ rows.list, row.status = .delisted := by
  unfold scanRows upsertPass markDelisted
  rw [List.foldl_nil, Rows.update_eq_self]
  refine forall₂_congr fun row _ => ?_
  rw [List.map_nil, if_neg List.not_mem_nil]
  unfold ModelRow.delist
  split
  next h =>
    constructor
    · intro heq
      exact absurd (congrArg ModelRow.status heq).symm h
    · exact fun heq => absurd heq h
  next h => simpa using h

/-- A scan that obtains no listing changes nothing, exactly when a listing that
comes back empty finds nothing to lose. -/
theorem untouched_iff (l : Letters) (cfg : ScanConfig) (s : CatalogState) (i : ScanInput) :
    (i.listing.obtained = false → Untouched s (runScan l cfg s i).1) ↔
      (i.listing.empty = true → i.idle cfg ∨ NothingToLose cfg s) := by
  have hsame : Untouched s s := ⟨rfl, fun _ => rfl, fun _ => rfl⟩
  constructor
  · intro h hempty
    by_cases hidle : i.idle cfg
    · exact Or.inl hidle
    -- an empty listing is a scan of no candidates: everything in the catalog is delisted
    · have hafter := h (not_obtained_of_empty hempty)
      rw [runScan_of_candidates hidle (by rw [listModels_empty hempty]; rfl)] at hafter
      have hrows := hafter.rows
      rw [publish_rows] at hrows
      refine Or.inr ⟨(scanRows_nil ..).mp hrows, ?_, fun hredis => ?_⟩
      · have hsnapshot := hafter.snapshot
        rw [publish_snapshot] at hsnapshot
        exact hrows ▸ hsnapshot.symm
      · have hpublished := hafter.published.symm.trans (publish_published hredis)
        exact hrows ▸ hpublished
  · intro h hobtained
    cases hempty : i.listing.empty with
    | false =>
      rw [runScan_of_raises (listing_raises l hobtained hempty)]
      exact hsame
    | true =>
      by_cases hidle : i.idle cfg
      · rw [runScan_of_idle hidle]
        exact hsame
      · have hnothing := (h hempty).resolve_left hidle
        have hrows : (scanRows cfg.roles (deriveLabel l) s.rows (i.probes []) i.delistedAt).1 =
            s.rows := (scanRows_nil ..).mpr hnothing.delisted
        rw [runScan_of_candidates hidle (by rw [listModels_empty hempty]; rfl)]
        refine ⟨hrows, ?_, ?_⟩
        · rw [publish_snapshot, hrows]
          exact hnothing.snapshot.symm
        · cases hredis : cfg.useRedis with
          | true =>
            refine (publish_published hredis).trans ?_
            rw [hrows]
            exact (hnothing.published hredis).symm
          | false =>
            rw [publish_unused hredis]
            exact fun _ => rfl

/-! ## A scan without a client -/

def plainLetters : Letters := ⟨id, id, id, fun c => '0' ≤ c && c ≤ '9'⟩

/-- A role model that has answered. -/
def llamaRow : ModelRow where
  id := "meta/llama".toList
  label := some "Llama".toList
  status := .live
  httpStatus := some 200
  latencyMs := some 100
  failCount := 0
  enabled := true
  reasoning := some false
  lastLiveAt := some 0
  lastChecked := some 0
  firstSeen := 0
  updatedAt := 0

def oneModel : ModelCatalog := Rows.empty.insert llamaRow

def oneBackend : ScanConfig := ⟨false, true, ["meta/llama".toList]⟩

/-- `llm_client.client` is `None`. -/
def clientGone : ScanInput where
  trigger := "startup".toList
  lock := some true
  listing := .uninitialised
  probe := fun _ => ⟨.timedOut, 0, 0⟩
  delistedAt := 1
  committed := true

theorem clientGone_delists :
    ¬ ∀ l cfg s (i : ScanInput), i.listing.obtained = false → Untouched s (runScan l cfg s i).1 := by
  intro h
  have huntouched := h plainLetters oneBackend ⟨oneModel, entries oneModel, entries oneModel⟩
    clientGone rfl
  have hbusy : ¬ clientGone.idle oneBackend := by
    unfold ScanInput.idle
    decide
  rw [runScan_of_candidates hbusy rfl] at huntouched
  have hdelisted := (scanRows_nil ..).mp huntouched.rows llamaRow (List.mem_singleton_self _)
  exact absurd hdelisted (by decide)

end Eidetic.Catalog
