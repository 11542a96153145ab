import Eidetic.Lib.Run
import Eidetic.Lib.StreamGroup
import Eidetic.Lib.Tally
import Eidetic.Memory.Lock
import Eidetic.Stream.Turn

/-!
# The metrics worker

`observability/metrics_worker.py`. `consume` reads new entries of the stream
in batches of fifty, gives each to `process_event` and acknowledges it; any
exception drops the rest of the batch, and entries that are pending are not
read again. So every entry is counted once exactly when no batch is dropped
before its last entry and no reply with entries is lost (`exactlyOnce_iff`).
`loads` is `json.loads`.

The stream is the library's `StreamGroup`, with what was added, delivered and
acknowledged; the worker has the rest of its batch in hand besides. What every
step keeps, whatever fails, is `Worker.Inv`: what was given is a part of what
was delivered in its order, and the metrics are what it adds. So an entry is
never counted twice, and the question is whether one is missing. `Whole` says
that none is; a step keeps it unless it drops a batch with entries behind the
one that failed, or loses a reply (`workerStep_whole`), and an entry that is
missing stays so, as pending entries are not read again (`missed_pending`).

`Raising` names the payloads that make `process_event` raise, whatever it has
counted before: this needs no state, which is why the condition can be read off
the entries.
-/

namespace Eidetic.Metrics

open Eidetic.Lib Eidetic.Py Eidetic.Memory

/-- An entry, with the text under `data` if it has one. -/
structure StreamEntry where
  id : Nat
  data : Option Text
deriving DecidableEq

/-- `metrics_store`. -/
structure MetricsStore where
  requests : Nat := 0
  errors : Nat := 0
  cacheHits : Nat := 0
  cacheMisses : Nat := 0
  cacheWrites : Nat := 0
  modelCalls : List (DictKey × Nat) := []
  requestLatency : List Json := []
  modelLatency : List Json := []
  fallbacks : Nat := 0
  circuitTrips : Nat := 0

/-- `append` of a `deque(maxlen=1000)`. -/
def appendBounded (xs : List Json) (x : Json) : List Json :=
  (xs ++ [x]).drop ((xs ++ [x]).length - 1000)

/-- `if latency: latencies.append(latency)`. -/
def appendLatency (xs : List Json) (latency : Option Json) : List Json :=
  match latency with
  | some x => if x.truthy then appendBounded xs x else xs
  | none => xs

/-- `process_event` for a payload that is a dict; a model that cannot be a key
raises. -/
def processPayload (m : MetricsStore) (payload : List (Text × Json)) : Except Exc MetricsStore :=
  let eventType := getItem payload "event_type"
  let latency := getItem payload "latency_ms"
  if isText eventType "request" then
    let fallbackUsed := ((getItem payload "fallback_used").getD .null).truthy
    .ok { m with
      requests := m.requests + 1
      requestLatency := appendLatency m.requestLatency latency
      fallbacks := if fallbackUsed then m.fallbacks + 1 else m.fallbacks }
  else if isText eventType "error" then .ok { m with errors := m.errors + 1 }
  else if isText eventType "cache" then
    let action := getItem payload "operation"
    if isText action "hit" then .ok { m with cacheHits := m.cacheHits + 1 }
    else if isText action "miss" then .ok { m with cacheMisses := m.cacheMisses + 1 }
    else if isText action "write" then .ok { m with cacheWrites := m.cacheWrites + 1 }
    else .ok m
  else if isText eventType "model" then
    match ((getItem payload "model").getD (.str "unknown".toList)).dictKey with
    | some model =>
      .ok { m with
        modelCalls := tally m.modelCalls [model]
        modelLatency := appendLatency m.modelLatency latency }
    | none => .error .malformed
  else if isText eventType "circuit_breaker" then .ok { m with circuitTrips := m.circuitTrips + 1 }
  else .ok m

/-- `process_event`: what is not JSON is a bad event and ignored. -/
def processEvent (loads : Text → Option Json) (m : MetricsStore) (data : Option Text) :
    Except Exc MetricsStore :=
  match data.bind loads with
  | none => .ok m
  | some (.obj payload) => processPayload m payload
  | some _ => .error .noAttribute

/-- The stream, the entries of the batch that are still to be processed, the
metrics and the entries that were given to `process_event`, which is no part of
the code. -/
structure Worker where
  group : StreamGroup StreamEntry := ⟨[], [], []⟩
  batch : List StreamEntry := []
  metrics : MetricsStore := {}
  given : List StreamEntry := []

inductive WorkerEvent
  | add (data : Option Text)
  /-- `xreadgroup`, when no entry is left of the batch. -/
  | read (answer : Answer)
  /-- The next entry of the batch and its `xack`. -/
  | handle (answer : Answer)

def Worker.read (w : Worker) (answer : Answer) : Worker :=
  match w.batch, answer with
  | [], .reply => { w with batch := (w.group.read 50).1, group := (w.group.read 50).2 }
  -- the entries are pending, and nobody has them
  | [], .lost => { w with group := (w.group.read 50).2 }
  | _, _ => w

def Worker.handle (loads : Text → Option Json) (w : Worker) (answer : Answer) : Worker :=
  match w.batch with
  | [] => w
  | e :: rest =>
    let w := { w with given := w.given ++ [e] }
    match processEvent loads w.metrics e.data, answer with
    | .ok metrics, .reply => { w with metrics := metrics, group := w.group.ack e, batch := rest }
    | .ok metrics, .lost => { w with metrics := metrics, group := w.group.ack e, batch := [] }
    | .ok metrics, .unreached => { w with metrics := metrics, batch := [] }
    | .error _, _ => { w with batch := [] }

def workerStep (loads : Text → Option Json) (w : Worker) : WorkerEvent → Worker
  | .add data => { w with group := w.group.add ⟨w.group.added.length, data⟩ }
  | .read answer => w.read answer
  | .handle answer => w.handle loads answer

/-! ## What is asked of it -/

/-- What one entry adds to the metrics. -/
def countEntry (loads : Text → Option Json) (m : MetricsStore) (e : StreamEntry) : MetricsStore :=
  match processEvent loads m e.data with
  | .ok metrics => metrics
  | .error _ => m

/-- Each entry was given to `process_event` once, and the metrics are what the
entries add one by one. -/
def ExactlyOnce (loads : Text → Option Json) (w : Worker) : Prop :=
  (∀ e ∈ w.group.added, w.given.count e = 1) ∧
    w.metrics = w.group.added.foldl (countEntry loads) {}

/-- Nothing is left to read or to process. -/
def CaughtUp (w : Worker) : Prop := w.group.undelivered = [] ∧ w.batch = []

/-- A payload that makes `process_event` raise: JSON that is no object, or an
event of a model that is a list or an object. -/
def Raising (loads : Text → Option Json) (data : Option Text) : Prop :=
  ∃ payload, data.bind loads = some payload ∧
    ∀ items, payload = .obj items → isText (getItem items "event_type") "model" = true ∧
      ∃ model, getItem items "model" = some model ∧ model.dictKey = none

/-- No reply with entries is lost, and an entry with others of its batch after
it neither raises nor fails to be acknowledged. -/
def Unhurt (loads : Text → Option Json) (w : Worker) : WorkerEvent → Prop
  | .add _ => True
  | .read answer => w.batch = [] → answer = .lost → w.group.undelivered = []
  | .handle answer => ∀ e rest, w.batch = e :: rest → rest ≠ [] →
      ¬ Raising loads e.data ∧ answer = .reply

variable {loads : Text → Option Json}

/-! ## One entry -/

theorem processPayload_error (m : MetricsStore) (items : List (Text × Json)) :
    (∃ e, processPayload m items = .error e) ↔
      isText (getItem items "event_type") "model" = true ∧
        ∃ model, getItem items "model" = some model ∧ model.dictKey = none := by
  by_cases hmodel : isText (getItem items "event_type") "model" = true
  · -- no other type is that text
    have hother : ∀ s : String, s.toList ≠ "model".toList →
        isText (getItem items "event_type") s = false := by
      intro s hs
      unfold isText at hmodel ⊢
      split at hmodel
      next t heq =>
        rw [beq_iff_eq] at hmodel
        rw [hmodel]
        exact beq_false_of_ne (Ne.symm hs)
      next => exact absurd hmodel Bool.false_ne_true
    unfold processPayload
    dsimp only
    rw [if_neg (by rw [hother "request" (by decide)]; exact Bool.false_ne_true),
      if_neg (by rw [hother "error" (by decide)]; exact Bool.false_ne_true),
      if_neg (by rw [hother "cache" (by decide)]; exact Bool.false_ne_true), if_pos hmodel]
    cases hget : getItem items "model" with
    | none => simp [Json.dictKey]
    | some model =>
      rw [Option.getD_some]
      cases hkey : model.dictKey with
      | none => simp [hmodel, hkey]
      | some k => simp [hkey]
  · constructor
    · rintro ⟨e, he⟩
      unfold processPayload at he
      dsimp only at he
      split_ifs at he
    · exact fun h => absurd h.1 hmodel

/-- `process_event` raises for the payloads that are named, whatever it has counted. -/
theorem processEvent_error (loads : Text → Option Json) (m : MetricsStore) (data : Option Text) :
    (∃ e, processEvent loads m data = .error e) ↔ Raising loads data := by
  unfold processEvent Raising
  cases hdata : data.bind loads with
  | none =>
    constructor
    · rintro ⟨e, he⟩
      cases he
    · rintro ⟨payload, heq, -⟩
      cases heq
  | some payload =>
    -- JSON that is no object has no `.get`, so it raises as well
    cases payload with
    | obj items =>
      refine (processPayload_error m items).trans ?_
      constructor
      · intro h
        refine ⟨_, rfl, fun items' heq => ?_⟩
        cases heq
        exact h
      · rintro ⟨payload, heq, h⟩
        cases heq
        exact h items rfl
    | null => exact ⟨fun _ => ⟨_, rfl, fun _ heq => by cases heq⟩, fun _ => ⟨_, rfl⟩⟩
    | bool b => exact ⟨fun _ => ⟨_, rfl, fun _ heq => by cases heq⟩, fun _ => ⟨_, rfl⟩⟩
    | num q => exact ⟨fun _ => ⟨_, rfl, fun _ heq => by cases heq⟩, fun _ => ⟨_, rfl⟩⟩
    | str t => exact ⟨fun _ => ⟨_, rfl, fun _ heq => by cases heq⟩, fun _ => ⟨_, rfl⟩⟩
    | arr xs => exact ⟨fun _ => ⟨_, rfl, fun _ heq => by cases heq⟩, fun _ => ⟨_, rfl⟩⟩

/-- The entry is given and counted, and the rest of the batch stays in hand
when it neither raises nor fails to be acknowledged. -/
theorem handle_cons {w : Worker} {e : StreamEntry} {rest : List StreamEntry}
    (h : w.batch = e :: rest) (answer : Answer) :
    (w.handle loads answer).given = w.given ++ [e] ∧
    (w.handle loads answer).metrics = countEntry loads w.metrics e ∧
    (w.handle loads answer).group.delivered = w.group.delivered ∧
    (w.handle loads answer).group.added = w.group.added ∧
    ((¬ Raising loads e.data ∧ answer = .reply) ∧ (w.handle loads answer).batch = rest ∨
      ¬ (¬ Raising loads e.data ∧ answer = .reply) ∧ (w.handle loads answer).batch = []) := by
  unfold Worker.handle countEntry
  rw [h]
  dsimp only
  rw [← processEvent_error loads w.metrics e.data]
  cases hproc : processEvent loads w.metrics e.data with
  | error exc => exact ⟨rfl, rfl, rfl, rfl, Or.inr ⟨fun hok => hok.1 ⟨exc, rfl⟩, rfl⟩⟩
  | ok metrics =>
    have hfine : ¬ ∃ exc, (Except.ok metrics : Except Exc MetricsStore) = .error exc := by
      rintro ⟨exc, heq⟩
      cases heq
    cases answer with
    | reply => exact ⟨rfl, rfl, rfl, rfl, Or.inl ⟨⟨hfine, rfl⟩, rfl⟩⟩
    | lost =>
      refine ⟨rfl, rfl, rfl, rfl, Or.inr ⟨fun hok => ?_, rfl⟩⟩
      cases hok.2
    | unreached =>
      refine ⟨rfl, rfl, rfl, rfl, Or.inr ⟨fun hok => ?_, rfl⟩⟩
      cases hok.2

/-- No entry but the one that is processed is acknowledged. -/
theorem handle_pending {w : Worker} {first : StreamEntry} {rest : List StreamEntry}
    (h : w.batch = first :: rest) (answer : Answer) {e : StreamEntry} (hne : e ≠ first)
    (he : e ∈ w.group.pending) : e ∈ (w.handle loads answer).group.pending := by
  unfold Worker.handle
  rw [h]
  dsimp only
  split
  next => exact StreamGroup.mem_pending_ack he hne
  next => exact StreamGroup.mem_pending_ack he hne
  next => exact he
  next => exact he

theorem handle_nil {w : Worker} (h : w.batch = []) (answer : Answer) :
    w.handle loads answer = w := by
  unfold Worker.handle
  rw [h]

/-! ## What every step keeps -/

/-- No entry is given twice or before it is handed out, the metrics are what
the given entries add, and entries have different ids. -/
structure Worker.Inv (loads : Text → Option Json) (w : Worker) : Prop where
  given : (w.given ++ w.batch).Sublist w.group.delivered
  metrics : w.metrics = w.given.foldl (countEntry loads) {}
  ids : w.group.added.map StreamEntry.id = List.range w.group.added.length

/-- No entry that was handed out is missing. -/
def Whole (w : Worker) : Prop := w.given ++ w.batch = w.group.delivered

theorem handle_inv {w : Worker} (h : w.Inv loads) (answer : Answer) :
    (w.handle loads answer).Inv loads := by
  cases hbatch : w.batch with
  | nil =>
    rw [handle_nil hbatch]
    exact h
  | cons e rest =>
    obtain ⟨hgiven, hmetrics, hdelivered, hadded, hrest⟩ := handle_cons hbatch answer
    have hsub := h.given
    rw [hbatch] at hsub
    refine ⟨?_, ?_, ?_⟩
    · rw [hgiven, hdelivered, List.append_assoc]
      -- the rest of the batch stays in hand, or is thrown away
      rcases hrest with ⟨-, heq⟩ | ⟨-, heq⟩
      · rw [heq]
        exact hsub
      · rw [heq]
        refine List.Sublist.trans ?_ hsub
        exact (List.Sublist.refl _).append (List.singleton_sublist.mpr (List.mem_cons_self ..))
    · rw [hmetrics, hgiven, List.foldl_append, h.metrics]
      rfl
    · rw [hadded]
      exact h.ids

theorem read_inv {w : Worker} (h : w.Inv loads) (answer : Answer) : (w.read answer).Inv loads := by
  unfold Worker.read
  have hsub := h.given
  split
  next hbatch =>
    rw [hbatch, List.append_nil] at hsub
    refine ⟨hsub.append (List.Sublist.refl _), h.metrics, ?_⟩
    rw [StreamGroup.added_read]
    exact h.ids
  next hbatch =>
    refine ⟨hsub.trans (List.sublist_append_left _ _), h.metrics, ?_⟩
    rw [StreamGroup.added_read]
    exact h.ids
  next => exact h

theorem workerStep_inv (w : Worker) (event : WorkerEvent) (h : w.Inv loads) :
    (workerStep loads w event).Inv loads := by
  cases event with
  | add data =>
    refine ⟨h.given, h.metrics, ?_⟩
    show (w.group.add ⟨w.group.added.length, data⟩).added.map StreamEntry.id
      = List.range (w.group.add ⟨w.group.added.length, data⟩).added.length
    rw [StreamGroup.added_add, List.map_append, h.ids, List.length_append, List.length_singleton,
      List.range_succ]
    rfl
  | read answer => exact read_inv h answer
  | handle answer => exact handle_inv h answer

/-! ## What a step can lose -/

theorem handle_whole {w : Worker} (h : w.Inv loads) (answer : Answer) :
    Whole (w.handle loads answer) ↔ Whole w ∧ Unhurt loads w (.handle answer) := by
  cases hbatch : w.batch with
  | nil =>
    rw [handle_nil hbatch]
    refine (and_iff_left fun e rest heq => ?_).symm
    rw [hbatch] at heq
    cases heq
  | cons e rest =>
    obtain ⟨hgiven, -, hdelivered, -, hrest⟩ := handle_cons hbatch answer
    have hsub := h.given.length_le
    unfold Whole Unhurt
    rw [hgiven, hdelivered, List.append_assoc, hbatch]
    rw [hbatch] at hsub
    -- a batch that breaks off loses entries unless the bad one was its last
    rcases hrest with ⟨hok, heq⟩ | ⟨hbad, heq⟩
    · rw [heq, List.singleton_append]
      refine (and_iff_left fun e' rest' hcons _ => ?_).symm
      cases hcons
      exact hok
    · rw [heq, List.append_nil]
      constructor
      · intro hwhole
        have hnil : rest = [] := by
          rw [← hwhole, List.length_append, List.length_append, List.length_cons,
            List.length_singleton] at hsub
          exact List.length_eq_zero_iff.mp (by omega)
        rw [hnil]
        refine ⟨hwhole, fun e' rest' hcons hne => ?_⟩
        cases hcons
        exact absurd rfl hne
      · rintro ⟨hwhole, hunhurt⟩
        have hnil : rest = [] := by
          by_contra hne
          exact hbad (hunhurt e rest rfl hne)
        rw [hnil] at hwhole
        exact hwhole

theorem read_whole {w : Worker} (h : w.Inv loads) (answer : Answer) :
    Whole (w.read answer) ↔ Whole w ∧ Unhurt loads w (.read answer) := by
  have hsub := h.given
  unfold Worker.read Unhurt
  split
  next hbatch =>
    unfold Whole
    rw [hbatch, List.append_nil]
    refine Iff.trans ?_ (and_iff_left fun _ heq => by cases heq).symm
    show w.given ++ w.group.undelivered.take 50 = w.group.delivered ++ w.group.undelivered.take 50 ↔ _
    exact List.append_left_inj _
  next hbatch =>
    unfold Whole
    dsimp only
    rw [hbatch, List.append_nil] at hsub ⊢
    show w.given = w.group.delivered ++ w.group.undelivered.take 50 ↔ _
    constructor
    · intro hwhole
      -- a read with a batch in hand replaces it; it loses nothing only when it reads nothing
      have hnone : w.group.undelivered.take 50 = [] := by
        have hle := hsub.length_le
        rw [hwhole, List.length_append] at hle
        exact List.length_eq_zero_iff.mp (by omega)
      rw [hnone, List.append_nil] at hwhole
      refine ⟨hwhole, fun _ _ => ?_⟩
      rcases List.take_eq_nil_iff.mp hnone with hzero | hnil
      · cases hzero
      · exact hnil
    · rintro ⟨hwhole, hempty⟩
      rw [hempty rfl rfl, List.take_nil, List.append_nil]
      exact hwhole
  next hother =>
    refine (and_iff_left fun hbatch heq => ?_).symm
    exact absurd heq (hother hbatch)

theorem workerStep_whole (w : Worker) (event : WorkerEvent) (h : w.Inv loads) :
    Whole (workerStep loads w event) ↔ Whole w ∧ Unhurt loads w event := by
  cases event with
  | add data => exact (and_iff_left trivial).symm
  | read answer => exact read_whole h answer
  | handle answer => exact handle_whole h answer

/-! ## Runs -/

theorem worker_inv (loads : Text → Option Json) (events : List WorkerEvent) :
    (run (workerStep loads) {} events).Inv loads :=
  run_preserves (Worker.Inv loads) workerStep_inv ⟨List.Sublist.refl _, rfl, rfl⟩ events

/-- An entry that was handed out and never given is still pending. -/
theorem missed_pending (loads : Text → Option Json) (events : List WorkerEvent) :
    let w := run (workerStep loads) {} events
    ∀ e ∈ w.group.delivered, e ∈ w.given ∨ e ∈ w.group.pending := by
  intro w
  refine run_preserves (fun w : Worker => ∀ e ∈ w.group.delivered, e ∈ w.given ∨ e ∈ w.group.pending)
    (fun w event h => ?_) (fun e he => absurd he List.not_mem_nil) events
  have hread : ∀ e ∈ (w.group.read 50).2.delivered, e ∈ w.given ∨ e ∈ (w.group.read 50).2.pending := by
    intro e he
    rcases List.mem_append.mp he with hold | hnew
    · exact (h e hold).imp_right (List.mem_append_left _)
    · exact Or.inr (List.mem_append_right _ hnew)
  cases event with
  | add data => exact h
  | read answer =>
    show ∀ e ∈ (w.read answer).group.delivered, e ∈ (w.read answer).given ∨ e ∈ (w.read answer).group.pending
    unfold Worker.read
    split
    next => exact hread
    next => exact hread
    next => exact h
  | handle answer =>
    show ∀ e ∈ (w.handle loads answer).group.delivered,
      e ∈ (w.handle loads answer).given ∨ e ∈ (w.handle loads answer).group.pending
    cases hbatch : w.batch with
    | nil =>
      rw [handle_nil hbatch]
      exact h
    | cons first rest =>
      obtain ⟨hgiven, -, hdelivered, -, -⟩ := handle_cons hbatch answer
      rw [hgiven, hdelivered]
      intro e he
      -- only the entry itself is taken from the pending ones, and that has been given
      by_cases hfirst : e = first
      · exact Or.inl (List.mem_append_right _ (List.mem_singleton.mpr hfirst))
      · refine (h e he).imp (List.mem_append_left _) fun hpending => ?_
        exact handle_pending hbatch answer hfirst hpending

/-- A worker that has caught up has given every entry once when none that was
handed out is missing, and only then. -/
theorem Worker.Inv.exactlyOnce {w : Worker} (h : w.Inv loads) (hup : CaughtUp w) :
    ExactlyOnce loads w ↔ Whole w := by
  obtain ⟨hread, hbatch⟩ := hup
  have hsub := h.given
  have hadded : w.group.added = w.group.delivered := by
    rw [StreamGroup.added, hread, List.append_nil]
  have hnodup : w.group.added.Nodup := by
    refine List.Nodup.of_map StreamEntry.id ?_
    rw [h.ids]
    exact List.nodup_range
  unfold ExactlyOnce Whole
  rw [hbatch, List.append_nil] at hsub ⊢
  rw [hadded] at hnodup ⊢
  rw [StreamGroup.all_once_iff hnodup hsub]
  refine and_iff_left_of_imp fun heq => ?_
  rw [h.metrics, heq]

/-- When the worker has caught up, every entry has been counted once exactly
when nothing went wrong but at the last entry of a batch. -/
theorem exactlyOnce_iff (loads : Text → Option Json) (events : List WorkerEvent)
    (hup : CaughtUp (run (workerStep loads) {} events)) :
    ExactlyOnce loads (run (workerStep loads) {} events)
      ↔ Throughout (workerStep loads) (Unhurt loads) {} events := by
  rw [(worker_inv loads events).exactlyOnce hup]
  refine (end_iff workerStep_inv workerStep_whole ?_ events).trans ?_
  · exact ⟨List.Sublist.refl _, rfl, rfl⟩
  · exact and_iff_right rfl

/-- `json.loads` with numbers of one digit. -/
def smallLoads : Text → Option Json := Py.loads .python Stream.digitNumerals

theorem exactlyOnce_last :
    ExactlyOnce smallLoads (run (workerStep smallLoads) {}
        [.add none, .add (some "true".toList), .read .reply, .handle .reply, .handle .reply]) ↔
      Throughout (workerStep smallLoads) (Unhurt smallLoads) {}
        [.add none, .add (some "true".toList), .read .reply, .handle .reply, .handle .reply] :=
  exactlyOnce_iff smallLoads _ ⟨rfl, rfl⟩

/-- A payload that is JSON and no object loses the entries after it. -/
theorem rest_of_batch_lost :
    ¬ ∀ (loads : Text → Option Json) (events : List WorkerEvent),
      CaughtUp (run (workerStep loads) {} events) →
        ExactlyOnce loads (run (workerStep loads) {} events) := by
  intro h
  let events : List WorkerEvent :=
    [.add (some "true".toList), .add none, .read .reply, .handle .reply]
  have hadded : (run (workerStep smallLoads) {} events).group.added
      = [⟨0, some "true".toList⟩, ⟨1, none⟩] := rfl
  have hgiven : (run (workerStep smallLoads) {} events).given = [⟨0, some "true".toList⟩] := rfl
  have honce := (h smallLoads events ⟨rfl, rfl⟩).1 ⟨1, none⟩ (by rw [hadded]; simp)
  rw [hgiven] at honce
  exact absurd honce (by decide)

end Eidetic.Metrics
