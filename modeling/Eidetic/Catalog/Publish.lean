import Eidetic.Catalog.Store
import Eidetic.Lib.Hash
import Eidetic.Lib.Run
import Mathlib.Logic.Function.Basic

/-!
# How the snapshots follow the catalog

`publish` and `ensure_fresh` of any number of workers, interleaved at their
reads of the database and their commands to Redis. A worker takes its snapshot
for fresh when it has the current version, so a version must not be paired with
other entries than those it was published with. Two publishes that overlap can
leave the hash of the one under the version of the other, and a refresh can
replace the snapshot of a worker that is publishing. Without that every
snapshot comes to be the catalog (`converges_of_orderly`).

The invariant is `Coherent`. A publish goes through phases: its caller has
committed, it reads the rows, sets the snapshot of its worker, replaces the
hash, increments the version and notes it. While some publish has yet to write
its version the stores may disagree, so what is said of them is said of a
`Settled` state: the hash has the entries of the catalog, and a worker that has
the current version has them in its snapshot. What a call holds in between is
`Fits`: how far a publish has come, and whether what a refresh has read is still
so.

`Orderly` is the condition on a step. Publishes that are writing at the same
time write the same, which is that of the catalog unless another publish is to
come; and a refresh does not replace a snapshot by something that is paired with
the wrong version. Each step of a publish and of a refresh has its lemma
(`Coherent.go_publish`, `Coherent.go_refresh`); most of them are
`Coherent.setCall`, a step that writes nothing.

`Converged` is then the invariant at a moment when all publishes have finished
and each worker has completed a refresh since. The other side is
`refresh_unchanged`: a worker that has the last version with other entries finds
nothing to do.
-/

namespace Eidetic.Catalog

open Eidetic.Lib Eidetic.Py

/-- Where a call of `publish` or of `ensure_fresh` stands. -/
inductive Phase
  | idle
  /-- `publish`, whose caller has committed. -/
  | committed
  /-- `list_rows` has answered, -/
  | loaded (content : List (Text × Entry))
  /-- the snapshot is replaced, -/
  | replaced (content : List (Text × Entry))
  /-- `HSET` is done, -/
  | keys (content : List (Text × Entry))
  /-- `HKEYS` has answered, -/
  | stale (content : List (Text × Entry)) (fields : List Text)
  /-- and the hash is written. -/
  | setting (content : List (Text × Entry))
  /-- `SET` is done, and the worker has yet to note the version. -/
  | noting (content : List (Text × Entry)) (version : Nat)
  /-- `ensure_fresh`, past its guard. -/
  | asking
  | asked (version : Option Nat)
  | reading (version : Nat)
  | read (version : Nat) (raw : List (Text × Entry))
  /-- `_reload_from_db`, after which a version may be noted. -/
  | reloading (version : Option Nat)
  | reloaded (version : Option Nat) (content : List (Text × Entry))

/-- A publish that has yet to write to the hash. -/
def Phase.waiting : Phase → Bool
  | .committed | .loaded _ | .replaced _ => true
  | _ => false

/-- What a publish writes that has begun to write, and not yet its version. -/
def Phase.writes : Phase → Option (List (Text × Entry))
  | .keys content | .stale content _ | .setting content => some content
  | _ => none

/-- A publish that has yet to write its version. -/
def Phase.unwritten (p : Phase) : Bool := p.waiting || p.writes.isSome

/-- A publish that has not finished. -/
def Phase.publishing : Phase → Bool
  | .noting _ _ => true
  | p => p.unwritten

structure Call where
  worker : Nat
  phase : Phase
  /-- The call is a refresh, begun when all publishes were finished, with none
  begun since. -/
  current : Bool

structure Worker where
  snapshot : List (Text × Entry) := []
  /-- `_snapshot_ver`. -/
  version : Option Nat := none
  /-- A current refresh of the worker has completed. -/
  refreshed : Bool := false

/-- The table, `catalog:entries` and `catalog:ver`. -/
structure Stores where
  rows : ModelCatalog
  hash : List (Text × Entry) := []
  version : Option Nat := none
  /-- No `uuid4` has been this one. -/
  nextVersion : Nat := 0

structure Publication extends Stores where
  workers : Nat → Worker := fun _ => {}
  calls : Nat → Call := fun _ => ⟨0, .idle, false⟩
  /-- The publishes that have not finished. -/
  publishing : List Nat := []

/-- One step of any call. -/
inductive PublishEvent
  /-- A commit, with the rows that it leaves, and its `publish`. -/
  | commit (call worker : Nat) (rows : ModelCatalog)
  /-- An `ensure_fresh` that its guard lets pass. -/
  | refresh (call worker : Nat)
  /-- The next step of a call. -/
  | go (call : Nat)

def Publication.setCall (s : Publication) (call : Nat) (c : Call) : Publication :=
  { s with calls := Function.update s.calls call c }

/-- The call goes on with another phase. -/
def Publication.enter (s : Publication) (call : Nat) (phase : Phase) : Publication :=
  s.setCall call { s.calls call with phase := phase }

def Publication.setWorker (s : Publication) (worker : Nat) (w : Worker) : Publication :=
  { s with workers := Function.update s.workers worker w }

/-- A refresh is complete. -/
def Publication.complete (s : Publication) (call : Nat) (w : Worker) : Publication :=
  (s.setWorker (s.calls call).worker
    { w with refreshed := w.refreshed || (s.calls call).current }).enter call .idle

/-- The next step of a call. -/
def Publication.go (s : Publication) (call : Nat) : Publication :=
  let worker := (s.calls call).worker
  let w := s.workers worker
  match (s.calls call).phase with
  | .idle => s
  | .committed => s.enter call (.loaded (entries s.rows))
  | .loaded content =>
    (s.setWorker worker { w with snapshot := content }).enter call (.replaced content)
  | .replaced content =>
    if content.isEmpty then { s with hash := [] }.enter call (.setting content)
    else { s with hash := hset s.hash content }.enter call (.keys content)
  | .keys content => s.enter call (.stale content (staleFields (hkeys s.hash) content))
  | .stale content fields => { s with hash := hdel s.hash fields }.enter call (.setting content)
  | .setting content =>
    { s with version := some s.nextVersion, nextVersion := s.nextVersion + 1 }.enter call
      (.noting content s.nextVersion)
  | .noting _ version =>
    { s.setWorker worker { w with version := some version } with
      publishing := s.publishing.filter (· ≠ call) }.enter call .idle
  | .asking => s.enter call (.asked s.version)
  | .asked none => s.enter call (.reloading none)
  | .asked (some version) =>
    if w.version = some version then s.complete call w else s.enter call (.reading version)
  | .reading version => s.enter call (.read version s.hash)
  | .read version raw =>
    if raw.isEmpty then s.enter call (.reloading (some version))
    else s.complete call { w with snapshot := raw, version := some version }
  | .reloading version => s.enter call (.reloaded version (entries s.rows))
  | .reloaded version content =>
    s.complete call { w with snapshot := content, version := version.or w.version }

def Publication.next (s : Publication) : PublishEvent → Publication
  | .commit call worker rows =>
    match (s.calls call).phase with
    | .idle =>
      { s with
        rows := rows
        workers := fun w => { s.workers w with refreshed := false }
        calls := Function.update (fun c => { s.calls c with current := false }) call
          ⟨worker, .committed, false⟩
        publishing := call :: s.publishing }
    | _ => s
  | .refresh call worker =>
    match (s.calls call).phase with
    | .idle => s.setCall call ⟨worker, .asking, s.publishing.isEmpty⟩
    | _ => s
  | .go call => s.go call

/-- A catalog that nothing has been published of. -/
def Publication.init (rows : ModelCatalog) : Publication := { rows := rows }

/-- Once all publishes have finished and each worker has then completed a
refresh, every snapshot is the catalog. -/
def Converged (workers : Nat) (s : Publication) : Prop :=
  s.publishing = [] → (∀ w < workers, (s.workers w).refreshed = true) →
    ∀ w < workers, Same (s.workers w).snapshot (entries s.rows)

/-! ## Orderly steps -/

/-- Every publish has written its version. -/
def Publication.Settled (s : Publication) : Prop := ∀ c, (s.calls c).phase.unwritten = false

/-- A refresh replaces the snapshot of its worker by the entries of the catalog,
or the worker has yet to be refreshed and does not get the current version with
others, unless that is still to change. -/
def Publication.MayReplace (s : Publication) (worker : Nat) (content : List (Text × Entry))
    (version : Option Nat) : Prop :=
  Same content (entries s.rows) ∨
    (s.workers worker).refreshed = false ∧ (s.Settled → s.version ≠ version)

/-- A publish begins to write when those that are writing have the same entries,
and these are those of the catalog or others have yet to begin; when it notes
its version and that is still the last, its worker has its entries; and a
refresh replaces the snapshot only by what it may. -/
def Orderly (s : Publication) : PublishEvent → Prop
  | .go call =>
    let worker := (s.calls call).worker
    match (s.calls call).phase with
    | .replaced content =>
      (∀ c, ∀ other ∈ (s.calls c).phase.writes, Same other content) ∧
        (Same content (entries s.rows) ∨ ∃ c ≠ call, (s.calls c).phase.waiting = true)
    | .noting content version =>
      s.Settled → s.version = some version → Same (s.workers worker).snapshot content
    | .read version raw => raw ≠ [] → s.MayReplace worker raw (some version)
    | .reloaded version content =>
      s.MayReplace worker content (version.or (s.workers worker).version)
    | _ => True
  | _ => True

/-! ## What a run keeps -/

/-- What a call holds agrees with the stores: a publish has written as far as it
has come, and what a current refresh has read is still so. -/
def Fits (s : Stores) (settled : Prop) (call : Call) : Prop :=
  match call.phase with
  | .keys content => Holds s.hash content
  | .stale content fields =>
    Holds s.hash content ∧ Beyond s.hash content fields ∧ ∀ k ∈ fields, k ∉ hkeys content
  | .setting content => Same s.hash content
  | .noting content version =>
    version < s.nextVersion ∧ (settled → s.version = some version → Same content (entries s.rows))
  | .asked version =>
    (∀ v ∈ version, v < s.nextVersion) ∧ (call.current = true → s.version = version)
  | .reading version =>
    version < s.nextVersion ∧ (call.current = true → s.version = some version)
  | .read version raw =>
    version < s.nextVersion ∧ (call.current = true → Same raw (entries s.rows))
  | .reloading version => ∀ v ∈ version, v < s.nextVersion
  | .reloaded version content =>
    (∀ v ∈ version, v < s.nextVersion) ∧ (call.current = true → Same content (entries s.rows))
  | _ => True

/-- The last version is paired with the entries of the catalog. -/
structure Coherent (s : Publication) : Prop where
  publishing : ∀ c, (s.calls c).phase.publishing = true → c ∈ s.publishing
  version_lt : ∀ v ∈ s.version, v < s.nextVersion
  known_lt : ∀ w, ∀ v ∈ (s.workers w).version, v < s.nextVersion
  agree : ∀ c d, ∀ m ∈ (s.calls c).phase.writes, ∀ m' ∈ (s.calls d).phase.writes, Same m m'
  written : (∀ c, (s.calls c).phase.waiting = false) →
    ∀ c, ∀ m ∈ (s.calls c).phase.writes, Same m (entries s.rows)
  hash : s.Settled → s.version ≠ none → Same s.hash (entries s.rows)
  paired : s.Settled → s.version ≠ none → ∀ w, (s.workers w).version = s.version →
    Same (s.workers w).snapshot (entries s.rows)
  refreshed : ∀ w, (s.workers w).refreshed = true →
    s.publishing = [] ∧ Same (s.workers w).snapshot (entries s.rows)
  current : ∀ c, (s.calls c).current = true → s.publishing = []
  fits : ∀ c, Fits s.toStores s.Settled (s.calls c)

variable {s : Publication} {call : Nat} {phase : Phase}

theorem Phase.publishing_of_unwritten (h : phase.unwritten = true) : phase.publishing = true := by
  cases phase <;> simp_all [Phase.publishing, Phase.unwritten, Phase.waiting, Phase.writes]

theorem unwritten_of_writes {m : List (Text × Entry)} (h : m ∈ phase.writes) :
    phase.unwritten = true := by
  unfold Phase.unwritten
  rw [Option.mem_def.mp h, Option.isSome_some, Bool.or_true]

theorem Coherent.settled (h : Coherent s) (hnone : s.publishing = []) : s.Settled := by
  intro c
  by_contra hc
  have hmem := h.publishing c (Phase.publishing_of_unwritten (by simpa using hc))
  rw [hnone] at hmem
  exact absurd hmem List.not_mem_nil

/-- Nobody is refreshed and no refresh is current while a publish goes on. -/
theorem Coherent.stale (h : Coherent s) (hc : (s.calls call).phase.publishing = true) :
    (∀ w, (s.workers w).refreshed = false) ∧ ∀ c, (s.calls c).current = false := by
  have hmem := h.publishing call hc
  have hne : s.publishing ≠ [] := List.ne_nil_of_mem hmem
  constructor
  · intro w
    by_contra hw
    exact hne (h.refreshed w (by simpa using hw)).1
  · intro c
    by_contra hcurrent
    exact hne (h.current c (by simpa using hcurrent))

theorem Coherent.unsettled (h : (s.calls call).phase.unwritten = true) : ¬ s.Settled := by
  intro hsettled
  rw [hsettled call] at h
  exact absurd h Bool.false_ne_true

@[simp] theorem setCall_self (c : Call) : (s.setCall call c).calls call = c := Function.update_self ..

theorem setCall_of_ne {k : Nat} (h : k ≠ call) (c : Call) : (s.setCall call c).calls k = s.calls k :=
  Function.update_of_ne h ..

theorem enter_of_ne {k : Nat} (h : k ≠ call) : (s.enter call phase).calls k = s.calls k :=
  setCall_of_ne h _

/-- What holds of every call once one has gone on. -/
theorem forall_setCall {P : Nat → Call → Prop} {c : Call} (hcall : P call c)
    (hrest : ∀ k ≠ call, P k (s.calls k)) (k : Nat) : P k ((s.setCall call c).calls k) := by
  by_cases hk : k = call
  · rw [hk, setCall_self]
    exact hcall
  · rw [setCall_of_ne hk]
    exact hrest k hk

theorem settled_setCall {c : Call} (h : c.phase.unwritten = (s.calls call).phase.unwritten) :
    (s.setCall call c).Settled ↔ s.Settled := by
  unfold Publication.Settled
  refine forall_congr' fun k => ?_
  by_cases hk : k = call
  · rw [hk, setCall_self, ← h]
  · rw [setCall_of_ne hk]

/-- A step of one call that writes nothing. -/
theorem Coherent.setCall (h : Coherent s) {c : Call}
    (hwaiting : c.phase.waiting = (s.calls call).phase.waiting)
    (hwrites : c.phase.writes = (s.calls call).phase.writes)
    (hpublishing : c.phase.publishing = true → call ∈ s.publishing)
    (hcurrent : c.current = true → s.publishing = []) (hfits : Fits s.toStores s.Settled c) :
    Coherent (s.setCall call c) := by
  have hunwritten : c.phase.unwritten = (s.calls call).phase.unwritten := by
    unfold Phase.unwritten
    rw [hwaiting, hwrites]
  have hsettled : (s.setCall call c).Settled = s.Settled := propext (settled_setCall hunwritten)
  have hphase : ∀ k, ((s.setCall call c).calls k).phase.waiting = (s.calls k).phase.waiting ∧
      ((s.setCall call c).calls k).phase.writes = (s.calls k).phase.writes :=
    forall_setCall (P := fun k d => d.phase.waiting = (s.calls k).phase.waiting ∧
      d.phase.writes = (s.calls k).phase.writes) ⟨hwaiting, hwrites⟩ fun _ _ => ⟨rfl, rfl⟩
  refine ⟨?_, h.version_lt, h.known_lt, ?_, ?_, ?_, ?_, h.refreshed, ?_, ?_⟩
  · exact forall_setCall (P := fun k d => d.phase.publishing = true → k ∈ s.publishing) hpublishing
      fun k _ => h.publishing k
  · intro j k
    rw [(hphase j).2, (hphase k).2]
    exact h.agree j k
  · intro hnone k
    rw [(hphase k).2]
    exact h.written (fun j => (hphase j).1 ▸ hnone j) k
  · rw [hsettled]
    exact h.hash
  · rw [hsettled]
    exact h.paired
  · exact forall_setCall (P := fun _ d => d.current = true → s.publishing = []) hcurrent
      fun k _ => h.current k
  · rw [hsettled]
    exact forall_setCall (P := fun _ d => Fits s.toStores s.Settled d) hfits fun k _ => h.fits k

theorem Coherent.enter (h : Coherent s) (hwaiting : phase.waiting = (s.calls call).phase.waiting)
    (hwrites : phase.writes = (s.calls call).phase.writes)
    (hpublishing : phase.publishing = true → call ∈ s.publishing)
    (hfits : Fits s.toStores s.Settled { s.calls call with phase := phase }) :
    Coherent (s.enter call phase) :=
  h.setCall hwaiting hwrites hpublishing (h.current call) hfits

/-- A worker changes, and keeps its version paired. -/
theorem Coherent.setWorker (h : Coherent s) (worker : Nat) {w : Worker}
    (hlt : ∀ v ∈ w.version, v < s.nextVersion)
    (hpaired : s.Settled → s.version ≠ none → w.version = s.version →
      Same w.snapshot (entries s.rows))
    (hrefreshed : w.refreshed = true → s.publishing = [] ∧ Same w.snapshot (entries s.rows)) :
    Coherent (s.setWorker worker w) := by
  have hall : ∀ {P : Worker → Prop}, P w → (∀ k, P (s.workers k)) →
      ∀ k, P ((s.setWorker worker w).workers k) := by
    intro P hw hrest k
    show P (Function.update s.workers worker w k)
    by_cases hk : k = worker
    · rw [hk, Function.update_self]
      exact hw
    · rw [Function.update_of_ne hk]
      exact hrest k
  refine ⟨h.publishing, h.version_lt, ?_, h.agree, h.written, h.hash, fun hs hv => ?_, ?_,
    h.current, h.fits⟩
  · exact hall (P := fun w => ∀ v ∈ w.version, v < s.nextVersion) hlt h.known_lt
  · exact hall (P := fun w => w.version = s.version → Same w.snapshot (entries s.rows))
      (hpaired hs hv) (h.paired hs hv)
  · exact hall (P := fun w => w.refreshed = true →
      s.publishing = [] ∧ Same w.snapshot (entries s.rows)) hrefreshed h.refreshed

/-- The hash changes while a publish has yet to write its version, and nobody's
content is lost. -/
theorem Coherent.setHash (h : Coherent s) (hcall : (s.calls call).phase.unwritten = true)
    {g : List (Text × Entry)}
    (hkeeps : ∀ c, ∀ m ∈ (s.calls c).phase.writes, Keeps s.hash g m) :
    Coherent { s with hash := g } := by
  -- with a version to be written nothing is asked of the hash and the workers
  have hunsettled : ¬ s.Settled := Coherent.unsettled hcall
  refine ⟨h.publishing, h.version_lt, h.known_lt, h.agree, h.written,
    fun hs => absurd hs hunsettled, fun hs => absurd hs hunsettled, h.refreshed, h.current, ?_⟩
  intro c
  have hfits := h.fits c
  have hc := hkeeps c
  show Fits { s.toStores with hash := g } s.Settled (s.calls c)
  -- only a call that is rewriting the hash relies on what the hash has
  unfold Fits at hfits ⊢
  cases hphase : (s.calls c).phase with
  | keys m =>
    rw [hphase] at hfits hc
    exact (hc m rfl).holds hfits
  | stale m fields =>
    rw [hphase] at hfits hc
    exact ⟨(hc m rfl).holds hfits.1, (hc m rfl).beyond fields hfits.2.1, hfits.2.2⟩
  | setting m =>
    rw [hphase] at hfits hc
    exact (hc m rfl).same hfits
  | idle | committed | loaded _ | replaced _ | asking => trivial
  | noting _ _ | asked _ | reading _ | read _ _ | reloading _ | reloaded _ _ =>
    rw [hphase] at hfits
    exact hfits

/-- A publish begins to write. -/
theorem Coherent.begin (h : Coherent s) {content : List (Text × Entry)}
    (hold : (s.calls call).phase = .replaced content) (hwrites : phase.writes = some content)
    (hagree : ∀ c, ∀ other ∈ (s.calls c).phase.writes, Same other content)
    (hlast : Same content (entries s.rows) ∨ ∃ c ≠ call, (s.calls c).phase.waiting = true)
    (hfits : Fits s.toStores s.Settled { s.calls call with phase := phase }) :
    Coherent (s.enter call phase) := by
  have hunwritten : phase.unwritten = (s.calls call).phase.unwritten := by
    rw [hold]
    simp [Phase.unwritten, hwrites, Phase.waiting]
  have hsettled : (s.enter call phase).Settled = s.Settled := propext (settled_setCall hunwritten)
  -- the new writer agrees with those that are writing, by the order of the publishes
  have hsame : ∀ c, ∀ m ∈ ((s.enter call phase).calls c).phase.writes, Same m content := by
    refine forall_setCall (P := fun _ d => ∀ m ∈ d.phase.writes, Same m content) ?_ fun c _ => hagree c
    intro m hm
    rw [hwrites] at hm
    rw [← Option.some.inj hm]
    exact fun _ => rfl
  refine ⟨?_, h.version_lt, h.known_lt, ?_, ?_, ?_, ?_, h.refreshed, ?_, ?_⟩
  · refine forall_setCall (P := fun c d => d.phase.publishing = true → c ∈ s.publishing) ?_
      fun c _ => h.publishing c
    intro _
    exact h.publishing call (by rw [hold]; rfl)
  · exact fun c d m hm m' hm' => (hsame c m hm).trans (hsame d m' hm').symm
  · intro hnone c m hm
    refine (hsame c m hm).trans (hlast.resolve_right ?_)
    -- nobody is waiting any more, so this content is the last one
    rintro ⟨d, hd, hwaits⟩
    have hstill := hnone d
    rw [enter_of_ne hd, hwaits] at hstill
    exact absurd hstill Bool.noConfusion
  · rw [hsettled]
    exact h.hash
  · rw [hsettled]
    exact h.paired
  · exact forall_setCall (P := fun _ d => d.current = true → s.publishing = []) (h.current call)
      fun c _ => h.current c
  · rw [hsettled]
    exact forall_setCall (P := fun _ d => Fits s.toStores s.Settled d) hfits fun c _ => h.fits c

/-- What a call holds agrees with stores that have a later version. -/
theorem Fits.later {stores : Stores} {settled settled' : Prop} {c : Call} (h : Fits stores settled c)
    (hcurrent : c.current = false) :
    Fits { stores with version := some stores.nextVersion, nextVersion := stores.nextVersion + 1 }
      settled' c := by
  unfold Fits at h ⊢
  cases hphase : c.phase with
  | idle | committed | loaded _ | replaced _ | asking => trivial
  | keys _ | stale _ _ | setting _ =>
    rw [hphase] at h
    exact h
  -- versions are not written twice, so the new one is none that a call has noted
  | noting m v =>
    rw [hphase] at h
    refine ⟨Nat.lt_succ_of_lt h.1, fun _ hv => ?_⟩
    exact absurd (Option.some.inj hv).symm (Nat.ne_of_lt h.1)
  | asked v | reloaded v _ =>
    rw [hphase] at h
    refine ⟨fun v hv => Nat.lt_succ_of_lt (h.1 v hv), fun hc => ?_⟩
    rw [hcurrent] at hc
    exact absurd hc Bool.false_ne_true
  | reading v | read v _ =>
    rw [hphase] at h
    refine ⟨Nat.lt_succ_of_lt h.1, fun hc => ?_⟩
    rw [hcurrent] at hc
    exact absurd hc Bool.false_ne_true
  | reloading v =>
    rw [hphase] at h
    exact fun v hv => Nat.lt_succ_of_lt (h v hv)

/-- A publish writes its version. -/
theorem Coherent.setVersion (h : Coherent s) {content : List (Text × Entry)}
    (hold : (s.calls call).phase = .setting content) :
    Coherent ({ s with version := some s.nextVersion, nextVersion := s.nextVersion + 1 }.enter call
      (.noting content s.nextVersion)) := by
  have hwriting : content ∈ (s.calls call).phase.writes := by
    rw [hold]
    rfl
  have hpublishing := Phase.publishing_of_unwritten (unwritten_of_writes hwriting)
  obtain ⟨hrefreshed, hcurrent⟩ := h.stale hpublishing
  have hhash : Same s.hash content := by
    have hfits := h.fits call
    unfold Fits at hfits
    rw [hold] at hfits
    exact hfits
  set s' : Publication :=
    { s with version := some s.nextVersion, nextVersion := s.nextVersion + 1 } with hs'
  have hcontent : (s'.enter call (.noting content s.nextVersion)).Settled →
      Same content (entries s.rows) := by
    -- nobody is left to write other entries
    intro hsettled
    refine h.written (fun c => ?_) call content hwriting
    by_cases hc : c = call
    · rw [hc, hold]
      rfl
    · have hwritten := hsettled c
      rw [enter_of_ne hc] at hwritten
      exact (Bool.or_eq_false_iff.mp hwritten).1
  have hwrites : ∀ c, ∀ m ∈ ((s'.enter call (.noting content s.nextVersion)).calls c).phase.writes,
      m ∈ (s.calls c).phase.writes := by
    refine forall_setCall (s := s') (P := fun c d => ∀ m ∈ d.phase.writes, m ∈ (s.calls c).phase.writes)
      ?_ fun _ _ _ hm => hm
    exact fun m hm => absurd hm (by simp [Phase.writes])
  refine ⟨?_, ?_, ?_, ?_, ?_, ?_, ?_, ?_, ?_, ?_⟩
  · exact forall_setCall (s := s') (P := fun c d => d.phase.publishing = true → c ∈ s.publishing)
      (fun _ => h.publishing call hpublishing) fun c _ => h.publishing c
  · rintro v ⟨⟩
    exact Nat.lt_succ_self _
  · exact fun w v hv => Nat.lt_succ_of_lt (h.known_lt w v hv)
  · exact fun c d m hm m' hm' => h.agree c d m (hwrites c m hm) m' (hwrites d m' hm')
  -- when nobody waits now, nobody but this call was left to write before
  · intro hnone c m hm
    refine h.written (fun d => ?_) c m (hwrites c m hm)
    by_cases hd : d = call
    · rw [hd, hold]
      rfl
    · have hstill := hnone d
      rw [enter_of_ne hd] at hstill
      exact hstill
  · exact fun hsettled _ => hhash.trans (hcontent hsettled)
  -- no worker can know the version that was just written
  · intro _ _ w hw
    exact absurd (h.known_lt w s.nextVersion hw) (Nat.lt_irrefl _)
  · intro w hw
    exact absurd hw (by rw [show (s'.enter call _).workers w = s.workers w from rfl, hrefreshed w]; simp)
  · exact forall_setCall (s := s') (P := fun _ d => d.current = true → s.publishing = [])
      (h.current call) fun c _ => h.current c
  · refine forall_setCall (s := s')
      (P := fun _ d => Fits s'.toStores (s'.enter call (.noting content s.nextVersion)).Settled d) ?_ ?_
    · exact ⟨Nat.lt_succ_self _, fun hsettled _ => hcontent hsettled⟩
    · exact fun c _ => (h.fits c).later (hcurrent c)

/-- A publish is finished. -/
theorem Coherent.finish (h : Coherent s) (hold : (s.calls call).phase.unwritten = false) :
    Coherent ({ s with publishing := s.publishing.filter (· ≠ call) }.enter call .idle) := by
  set s' : Publication := { s with publishing := s.publishing.filter (· ≠ call) } with hs'
  have hnone : s.publishing = [] → s'.publishing = [] := by
    intro hnil
    show s.publishing.filter _ = []
    rw [hnil]
    rfl
  -- the call had written its version, so leaving settles nothing new
  have hsettled : (s'.enter call .idle).Settled = s.Settled := by
    refine propext ((settled_setCall (s := s') ?_).trans Iff.rfl)
    exact hold.symm
  have hwrites : ∀ c, ∀ m ∈ ((s'.enter call .idle).calls c).phase.writes,
      m ∈ (s.calls c).phase.writes := by
    refine forall_setCall (s := s') (P := fun c d => ∀ m ∈ d.phase.writes, m ∈ (s.calls c).phase.writes)
      ?_ fun _ _ _ hm => hm
    exact fun m hm => absurd hm (by simp [Phase.writes])
  refine ⟨?_, h.version_lt, h.known_lt, ?_, ?_, ?_, ?_, ?_, ?_, ?_⟩
  · refine forall_setCall (s := s') (P := fun c d => d.phase.publishing = true → c ∈ s'.publishing) ?_ ?_
    · exact fun hidle => absurd hidle Bool.false_ne_true
    · exact fun c hc hpublishing =>
        List.mem_filter.mpr ⟨h.publishing c hpublishing, by simpa using hc⟩
  · exact fun c d m hm m' hm' => h.agree c d m (hwrites c m hm) m' (hwrites d m' hm')
  · intro hwaiting c m hm
    refine h.written (fun d => ?_) c m (hwrites c m hm)
    by_cases hd : d = call
    · rw [hd]
      exact (Bool.or_eq_false_iff.mp hold).1
    · have hstill := hwaiting d
      rw [enter_of_ne hd] at hstill
      exact hstill
  · rw [hsettled]
    exact h.hash
  · rw [hsettled]
    exact h.paired
  · exact fun w hw => ⟨hnone (h.refreshed w hw).1, (h.refreshed w hw).2⟩
  · have hcurrent : ∀ c, ((s'.enter call .idle).calls c).current = true → s.publishing = [] :=
      forall_setCall (s := s') (P := fun _ d => d.current = true → s.publishing = []) (h.current call)
        fun c _ => h.current c
    exact fun c hc => hnone (hcurrent c hc)
  · rw [hsettled]
    exact forall_setCall (s := s') (P := fun _ d => Fits s.toStores s.Settled d) trivial
      fun c _ => h.fits c

/-- A refresh is complete: its worker keeps or gets what it may. -/
theorem Coherent.complete (h : Coherent s) (hold : (s.calls call).phase.publishing = false) {w : Worker}
    (hlt : ∀ v ∈ w.version, v < s.nextVersion)
    (hpaired : s.Settled → s.version ≠ none → w.version = s.version →
      Same w.snapshot (entries s.rows))
    (hrefreshed : w.refreshed = true ∨ (s.calls call).current = true →
      s.publishing = [] ∧ Same w.snapshot (entries s.rows)) :
    Coherent (s.complete call w) := by
  have hset : Coherent (s.setWorker (s.calls call).worker
      { w with refreshed := w.refreshed || (s.calls call).current }) := by
    refine h.setWorker _ hlt hpaired fun hboth => ?_
    exact hrefreshed (by simpa using hboth)
  refine hset.enter ?_ ?_ ?_ trivial
  · show false = (s.calls call).phase.waiting
    cases hphase : (s.calls call).phase <;> simp_all [Phase.publishing, Phase.unwritten, Phase.waiting]
  · show none = (s.calls call).phase.writes
    cases hphase : (s.calls call).phase <;>
      simp_all [Phase.publishing, Phase.unwritten, Phase.waiting, Phase.writes]
  · exact fun hidle => absurd hidle Bool.false_ne_true

/-- What a refresh may put in place of the snapshot. -/
theorem Publication.MayReplace.complete {worker : Nat} {content : List (Text × Entry)}
    {version : Option Nat} (hmay : s.MayReplace worker content version) (h : Coherent s)
    (hold : (s.calls call).phase.publishing = false)
    (hlt : ∀ v ∈ version, v < s.nextVersion)
    (hcurrent : (s.calls call).current = true → Same content (entries s.rows)) :
    Coherent (s.complete call
      { s.workers worker with snapshot := content, version := version }) := by
  refine h.complete hold hlt ?_ ?_
  -- either the content is the catalog, or the pair is none that a refresh will trust
  · intro hsettled _ hversion
    rcases hmay with hsame | ⟨_, hother⟩
    · exact hsame
    · exact absurd hversion.symm (hother hsettled)
  · rintro (hrefreshed | hnow)
    · rcases hmay with hsame | ⟨hyet, _⟩
      · exact ⟨(h.refreshed worker hrefreshed).1, hsame⟩
      · rw [show (s.workers worker).refreshed = true from hrefreshed] at hyet
        exact absurd hyet Bool.noConfusion
    · exact ⟨h.current call hnow, hcurrent hnow⟩

/-- The steps of a publish. -/
theorem Coherent.go_publish (h : Coherent s) (horderly : Orderly s (.go call))
    (hpublishing : (s.calls call).phase.publishing = true) : Coherent (s.go call) := by
  obtain ⟨hrefreshed, hcurrent⟩ := h.stale hpublishing
  have hmem := h.publishing call hpublishing
  have hfits := h.fits call
  unfold Fits at hfits
  rw [Orderly] at horderly
  unfold Publication.go
  cases hphase : (s.calls call).phase with
  | committed => exact h.enter (by rw [hphase]; rfl) (by rw [hphase]; rfl) (fun _ => hmem) trivial
  -- the worker's own snapshot is replaced first, while its version is an old one
  | loaded content =>
    have hset : Coherent (s.setWorker (s.calls call).worker
        { s.workers (s.calls call).worker with snapshot := content }) := by
      refine h.setWorker _ (h.known_lt _) (fun hsettled => ?_) (fun hw => ?_)
      · exact absurd hsettled (Coherent.unsettled (by rw [hphase]; rfl))
      · exact absurd ((hrefreshed _).symm.trans hw) Bool.noConfusion
    exact hset.enter (by rw [show (s.setWorker _ _).calls = s.calls from rfl, hphase]; rfl)
      (by rw [show (s.setWorker _ _).calls = s.calls from rfl, hphase]; rfl) (fun _ => hmem) trivial
  | replaced content =>
    rw [hphase] at horderly
    obtain ⟨hagree, hlast⟩ := horderly
    have hunwritten : (s.calls call).phase.unwritten = true := by rw [hphase]; rfl
    dsimp only
    split
    -- an empty catalog deletes the hash instead of setting it
    next hempty =>
      rw [List.isEmpty_iff.mp hempty] at hphase hagree hlast ⊢
      have hset : Coherent { s with hash := [] } :=
        h.setHash hunwritten fun c m hm => keeps_nil (hagree c m hm).symm
      exact hset.begin hphase rfl hagree hlast fun _ => rfl
    next =>
      have hset : Coherent { s with hash := hset s.hash content } :=
        h.setHash hunwritten fun c m hm => keeps_hset (hagree c m hm).symm
      exact hset.begin hphase rfl hagree hlast (Holds.hset s.hash content)
  | keys content =>
    rw [hphase] at hfits
    refine h.enter (by rw [hphase]; rfl) (by rw [hphase]; rfl) (fun _ => hmem) ?_
    exact ⟨hfits, beyond_staleFields s.hash content, fun k hk => (mem_staleFields.mp hk).2⟩
  -- the fields to delete were read before, and are in no content that is being written
  | stale content fields =>
    rw [hphase] at hfits
    obtain ⟨hholds, hbeyond, hstale⟩ := hfits
    have hwriting : content ∈ (s.calls call).phase.writes := by rw [hphase]; rfl
    have hset : Coherent { s with hash := hdel s.hash fields } := by
      refine h.setHash (unwritten_of_writes hwriting) fun c m hm => keeps_hdel fun k hk => ?_
      rw [(h.agree c call m hm content hwriting).mem_hkeys]
      exact hstale k hk
    exact hset.enter (by rw [hphase]; rfl) (by rw [hphase]; rfl) (fun _ => hmem)
      (same_hdel hholds hbeyond hstale)
  | setting content => exact h.setVersion hphase
  | noting content version =>
    rw [hphase] at hfits horderly
    have hset : Coherent (s.setWorker (s.calls call).worker
        { s.workers (s.calls call).worker with version := some version }) := by
      refine h.setWorker _ ?_ (fun hsettled _ hversion => ?_) (fun hw => ?_)
      · rintro v ⟨⟩
        exact hfits.1
      · exact (horderly hsettled hversion.symm).trans (hfits.2 hsettled hversion.symm)
      · exact absurd ((hrefreshed _).symm.trans hw) Bool.noConfusion
    exact hset.finish (by rw [show (s.setWorker _ _).calls = s.calls from rfl, hphase]; rfl)
  | idle | asking | asked _ | reading _ | read _ _ | reloading _ | reloaded _ _ =>
    rw [hphase] at hpublishing
    exact absurd hpublishing Bool.false_ne_true

/-- The steps of a refresh. -/
theorem Coherent.go_refresh (h : Coherent s) (horderly : Orderly s (.go call))
    (hpublishing : (s.calls call).phase.publishing = false) : Coherent (s.go call) := by
  have hfits := h.fits call
  unfold Fits at hfits
  rw [Orderly] at horderly
  unfold Publication.go
  cases hphase : (s.calls call).phase with
  | idle => exact h
  | asking =>
    refine h.enter (by rw [hphase]; rfl) (by rw [hphase]; rfl) (fun hp => ?_) ?_
    · exact absurd hp Bool.false_ne_true
    · exact ⟨h.version_lt, fun _ => rfl⟩
  | asked version =>
    rw [hphase] at hfits
    cases version with
    | none =>
      refine h.enter (by rw [hphase]; rfl) (by rw [hphase]; rfl) (fun hp => ?_) ?_
      · exact absurd hp Bool.false_ne_true
      · exact fun v hv => absurd hv (by simp)
    | some version =>
      dsimp only
      split
      -- the version is the worker's own: nothing is read, so the pair must be right
      next hsame =>
        refine h.complete hpublishing (h.known_lt _) (fun hsettled hv => h.paired hsettled hv _) ?_
        rintro (hrefreshed | hcurrent)
        · exact h.refreshed _ hrefreshed
        · have hnone := h.current call hcurrent
          have hversion := hfits.2 hcurrent
          exact ⟨hnone, h.paired (h.settled hnone) (by rw [hversion]; simp) _
            (hsame.trans hversion.symm)⟩
      next =>
        refine h.enter (by rw [hphase]; rfl) (by rw [hphase]; rfl) (fun hp => ?_) ?_
        · exact absurd hp Bool.false_ne_true
        · exact ⟨hfits.1 version rfl, hfits.2⟩
  | reading version =>
    rw [hphase] at hfits
    refine h.enter (by rw [hphase]; rfl) (by rw [hphase]; rfl) (fun hp => ?_) ?_
    · exact absurd hp Bool.false_ne_true
    · refine ⟨hfits.1, fun hcurrent => ?_⟩
      have hversion := hfits.2 hcurrent
      exact h.hash (h.settled (h.current call hcurrent)) (by rw [hversion]; simp)
  | read version raw =>
    rw [hphase] at hfits horderly
    dsimp only
    split
    next =>
      refine h.enter (by rw [hphase]; rfl) (by rw [hphase]; rfl) (fun hp => ?_) ?_
      · exact absurd hp Bool.false_ne_true
      · rintro v ⟨⟩
        exact hfits.1
    -- an empty hash is not taken for an empty catalog; the rows are read instead
    next hraw =>
      have hmay := horderly fun hnil => hraw (by rw [hnil]; rfl)
      refine hmay.complete h hpublishing ?_ hfits.2
      rintro v ⟨⟩
      exact hfits.1
  | reloading version =>
    rw [hphase] at hfits
    refine h.enter (by rw [hphase]; rfl) (by rw [hphase]; rfl) (fun hp => ?_) ?_
    · exact absurd hp Bool.false_ne_true
    · exact ⟨hfits, fun _ _ => rfl⟩
  | reloaded version content =>
    rw [hphase] at hfits horderly
    refine horderly.complete h hpublishing ?_ hfits.2
    intro v hv
    cases version with
    | none => exact h.known_lt _ v hv
    | some version => exact hfits.1 v hv
  | committed | loaded _ | replaced _ | keys _ | stale _ _ | setting _ | noting _ _ =>
    rw [hphase] at hpublishing
    exact absurd hpublishing Bool.noConfusion

/-- What a call holds, once the catalog has changed and its publish is to come. -/
theorem Fits.outdated {stores : Stores} {settled : Prop} {c : Call} (h : Fits stores settled c)
    (rows : ModelCatalog) {settled' : Prop} (hunsettled : ¬ settled') :
    Fits { stores with rows := rows } settled' { c with current := false } := by
  unfold Fits at h ⊢
  dsimp only
  cases hphase : c.phase with
  | idle | committed | loaded _ | replaced _ | asking => trivial
  | keys _ | stale _ _ | setting _ | reloading _ =>
    rw [hphase] at h
    exact h
  | noting m v =>
    rw [hphase] at h
    exact ⟨h.1, fun hs => absurd hs hunsettled⟩
  | asked v | reading v | read v _ | reloaded v _ =>
    rw [hphase] at h
    exact ⟨h.1, fun hc => absurd hc Bool.false_ne_true⟩

theorem Coherent.commit (h : Coherent s) (hidle : (s.calls call).phase = .idle) (worker : Nat)
    (rows : ModelCatalog) : Coherent (s.next (.commit call worker rows)) := by
  rw [Publication.next, hidle]
  dsimp only
  -- whatever the other calls have read is outdated by the commit
  set calls := Function.update (fun c => ({ s.calls c with current := false } : Call)) call
    ⟨worker, .committed, false⟩ with hcalls
  have hself : calls call = ⟨worker, .committed, false⟩ := Function.update_self ..
  have hof : ∀ c ≠ call, calls c = { s.calls c with current := false } :=
    fun c hc => Function.update_of_ne hc ..
  have hall : ∀ {P : Nat → Call → Prop}, P call ⟨worker, .committed, false⟩ →
      (∀ c, P c { s.calls c with current := false }) → ∀ c, P c (calls c) := by
    intro P hcall hrest c
    by_cases hc : c = call
    · rw [hc, hself]
      exact hcall
    · rw [hof c hc]
      exact hrest c
  have hunsettled : ¬ ∀ c, (calls c).phase.unwritten = false := by
    intro hsettled
    have hwaits := hsettled call
    rw [hself] at hwaits
    exact absurd hwaits Bool.noConfusion
  have hwrites : ∀ c, ∀ m ∈ (calls c).phase.writes, m ∈ (s.calls c).phase.writes := by
    refine hall (P := fun c d => ∀ m ∈ d.phase.writes, m ∈ (s.calls c).phase.writes) ?_
      fun _ _ hm => hm
    exact fun m hm => absurd hm (by simp [Phase.writes])
  refine ⟨?_, h.version_lt, h.known_lt, ?_, ?_, fun hs => absurd hs hunsettled,
    fun hs => absurd hs hunsettled, ?_, ?_, ?_⟩
  · exact hall (P := fun c d => d.phase.publishing = true → c ∈ call :: s.publishing)
      (fun _ => List.mem_cons_self) fun c hc => List.mem_cons_of_mem _ (h.publishing c hc)
  · exact fun c d m hm m' hm' => h.agree c d m (hwrites c m hm) m' (hwrites d m' hm')
  · intro hnone
    have hwaits := hnone call
    rw [show ({ s with calls := calls } : Publication).calls call = calls call from rfl, hself] at hwaits
    exact absurd hwaits Bool.noConfusion
  · exact fun w hw => absurd hw Bool.false_ne_true
  · exact hall (P := fun _ d => d.current = true → call :: s.publishing = [])
      (fun hc => absurd hc Bool.false_ne_true) fun _ hc => absurd hc Bool.false_ne_true
  · exact hall (P := fun _ d => Fits _ _ d) trivial fun c => (h.fits c).outdated rows hunsettled

theorem Coherent.ask (h : Coherent s) (hidle : (s.calls call).phase = .idle) (worker : Nat) :
    Coherent (s.next (.refresh call worker)) := by
  rw [Publication.next, hidle]
  refine h.setCall (by rw [hidle]; rfl) (by rw [hidle]; rfl) (fun hp => ?_) ?_ trivial
  · exact absurd hp Bool.false_ne_true
  · exact List.isEmpty_iff.mp

/-- An orderly step keeps the last version paired. -/
theorem coherent_next (s : Publication) (e : PublishEvent) (h : Coherent s) (horderly : Orderly s e) :
    Coherent (s.next e) := by
  cases e with
  | commit call worker rows =>
    by_cases hidle : (s.calls call).phase = .idle
    · exact h.commit hidle worker rows
    · rw [Publication.next]
      split
      next hphase => exact absurd hphase hidle
      next => exact h
  | refresh call worker =>
    by_cases hidle : (s.calls call).phase = .idle
    · exact h.ask hidle worker
    · rw [Publication.next]
      split
      next hphase => exact absurd hphase hidle
      next => exact h
  | go call =>
    cases hpublishing : (s.calls call).phase.publishing with
    | true => exact h.go_publish horderly hpublishing
    | false => exact h.go_refresh horderly hpublishing

theorem coherent_init (rows : ModelCatalog) : Coherent (.init rows) := by
  refine ⟨?_, ?_, ?_, ?_, ?_, ?_, ?_, ?_, ?_, fun _ => trivial⟩
  · exact fun _ h => absurd h Bool.false_ne_true
  · exact fun _ h => absurd h (by simp [Publication.init])
  · exact fun _ _ h => absurd h (by simp [Publication.init])
  · exact fun _ _ _ h => absurd h (by simp [Publication.init, Phase.writes])
  · exact fun _ _ _ h => absurd h (by simp [Publication.init, Phase.writes])
  · exact fun _ h => absurd rfl h
  · exact fun _ h => absurd rfl h
  · exact fun _ h => absurd h Bool.false_ne_true
  · exact fun _ h => absurd h Bool.false_ne_true

/-- In a run whose steps are all orderly, the snapshots come to be the catalog. -/
theorem converges_of_orderly {workers : Nat} {rows : ModelCatalog} {events : List PublishEvent}
    (h : Throughout Publication.next Orderly (.init rows) events) :
    Converged workers (run Publication.next (.init rows) events) := by
  have hcoherent := run_invariant Coherent coherent_next (coherent_init rows) h
  exact fun _ hrefreshed w hw => (hcoherent.refreshed w (hrefreshed w hw)).2

/-- What is paired with the last version wrongly stays so: a refresh finds nothing
to do. -/
theorem refresh_unchanged {worker version : Nat} (hidle : (s.calls call).phase = .idle)
    (hversion : s.version = some version) (hpaired : (s.workers worker).version = some version) :
    let after := run Publication.next s [.refresh call worker, .go call, .go call]
    (after.workers worker).snapshot = (s.workers worker).snapshot ∧ after.rows = s.rows ∧
      after.publishing = s.publishing ∧
      (s.publishing = [] → (after.workers worker).refreshed = true) := by
  have hask : s.next (.refresh call worker) =
      s.setCall call ⟨worker, .asking, s.publishing.isEmpty⟩ := by
    rw [Publication.next, hidle]
  have hasked : ((s.setCall call ⟨worker, .asking, s.publishing.isEmpty⟩).go call) =
      (s.setCall call ⟨worker, .asking, s.publishing.isEmpty⟩).enter call (.asked (some version)) := by
    unfold Publication.go
    rw [setCall_self, ← hversion]
    rfl
  set asked := (s.setCall call ⟨worker, .asking, s.publishing.isEmpty⟩).enter call
    (.asked (some version)) with hdef
  have hcall : asked.calls call = ⟨worker, .asked (some version), s.publishing.isEmpty⟩ := by
    rw [hdef]
    unfold Publication.enter
    rw [setCall_self, setCall_self]
  have hdone : asked.go call = asked.complete call (s.workers worker) := by
    unfold Publication.go
    rw [hcall]
    dsimp only
    rw [if_pos (show (asked.workers worker).version = some version from hpaired)]
    rfl
  -- the three steps: the version is asked for, found to be the worker's, and left
  have hafter : run Publication.next s [.refresh call worker, .go call, .go call] =
      asked.complete call (s.workers worker) := by
    show ((s.next (.refresh call worker)).go call).go call = _
    rw [hask, hasked, hdone]
  have hworker : (asked.complete call (s.workers worker)).workers worker =
      { s.workers worker with
        refreshed := (s.workers worker).refreshed || s.publishing.isEmpty } := by
    show (asked.setWorker (asked.calls call).worker _).workers worker = _
    rw [hcall]
    exact Function.update_self ..
  dsimp only
  rw [hafter, hworker]
  refine ⟨rfl, rfl, rfl, fun hnone => ?_⟩
  rw [hnone]
  exact Bool.or_true _

/-- The call that takes the step. -/
def PublishEvent.caller : PublishEvent → Nat
  | .commit call _ _ => call
  | .refresh call _ => call
  | .go call => call

theorem go_calls_of_ne {c : Nat} (h : c ≠ call) : (s.go call).calls c = s.calls c := by
  have henter : ∀ (s' : Publication) phase, s'.calls = s.calls →
      (s'.enter call phase).calls c = s.calls c := by
    intro s' phase heq
    rw [enter_of_ne h, heq]
  unfold Publication.go
  dsimp only
  split
  -- each branch enters a phase of the call itself, or changes the stores
  all_goals first
    | rfl
    | exact henter _ _ rfl
    | split <;> exact henter _ _ rfl

/-- A step leaves the other calls where they are. -/
theorem next_phase_of_ne {e : PublishEvent} {c : Nat} (h : c ≠ e.caller) :
    ((s.next e).calls c).phase = (s.calls c).phase := by
  cases e with
  | commit call worker rows =>
    have hc : c ≠ call := h
    rw [Publication.next]
    split
    next =>
      show (Function.update (fun c => ({ s.calls c with current := false } : Call)) call
        ⟨worker, .committed, false⟩ c).phase = _
      rw [Function.update_of_ne hc]
    next => rfl
  | refresh call worker =>
    have hc : c ≠ call := h
    rw [Publication.next]
    split
    next => rw [setCall_of_ne hc]
    next => rfl
  | go call => exact congrArg Call.phase (go_calls_of_ne h)

theorem run_phase_of_ne {events : List PublishEvent} {c : Nat} (h : ∀ e ∈ events, c ≠ e.caller) :
    ((run Publication.next s events).calls c).phase = (s.calls c).phase := by
  induction events generalizing s with
  | nil => rfl
  | cons e rest ih =>
    obtain ⟨he, hrest⟩ := List.forall_mem_cons.mp h
    rw [run, ih hrest, next_phase_of_ne he]

/-! ## Two runs -/

/-- A catalog of one model, enabled or not. -/
def oneRow (enabled : Bool) : ModelCatalog :=
  Rows.empty.insert
    { id := "meta/llama".toList, label := none, status := .live, httpStatus := some 200
      latencyMs := none, failCount := 0, enabled := enabled, reasoning := none
      lastLiveAt := some 0, lastChecked := some 0, firstSeen := 0, updatedAt := 0 }

/-- A commit in one worker, its publish, and a refresh in another. -/
def publishedAlone : List PublishEvent :=
  PublishEvent.commit 0 0 (oneRow true) :: List.replicate 7 (PublishEvent.go 0) ++
    PublishEvent.refresh 0 0 :: List.replicate 2 (PublishEvent.go 0) ++
    PublishEvent.refresh 1 1 :: List.replicate 4 (PublishEvent.go 1)

theorem publishedAlone_converges :
    Converged 2 (run Publication.next (.init Rows.empty) publishedAlone) := by
  refine converges_of_orderly ⟨trivial, trivial, trivial, ⟨?_, ?_⟩, trivial, trivial, trivial, ?_,
    trivial, trivial, trivial, trivial, trivial, trivial, trivial, ?_, trivial⟩
  · intro c
    by_cases hc : c = 0
    · rw [hc]
      rintro m ⟨⟩
    · have hidle : ((run Publication.next (.init Rows.empty)
          [.commit 0 0 (oneRow true), .go 0, .go 0]).calls c).phase = .idle :=
        run_phase_of_ne fun e he => by
          have hcall : e.caller = 0 := by
            revert e
            simp [PublishEvent.caller]
          rw [hcall]
          exact hc
      intro m hm
      have hnone : m ∈ Phase.idle.writes := hidle ▸ hm
      exact absurd hnone (by simp [Phase.writes])
  · exact Or.inl fun _ => rfl
  · exact fun _ _ _ => rfl
  · exact fun _ => Or.inl fun _ => rfl

/-- The publish of the first commit reads before the second commit and writes
after the publish of the second. -/
def overtaken : List PublishEvent :=
  PublishEvent.commit 0 0 (oneRow true) :: PublishEvent.go 0 ::
      PublishEvent.commit 1 1 (oneRow false) :: List.replicate 7 (PublishEvent.go 1) ++
    List.replicate 6 (PublishEvent.go 0) ++
    PublishEvent.refresh 2 0 :: List.replicate 2 (PublishEvent.go 2) ++
    PublishEvent.refresh 3 1 :: List.replicate 4 (PublishEvent.go 3)

theorem overtaken_diverges :
    ¬ ∀ workers rows events, Converged workers (run Publication.next (.init rows) events) := by
  intro h
  have hsame := h 2 Rows.empty overtaken (by decide) (by decide) 1 (by decide) "meta/llama".toList
  have henabled := congrArg (Option.map Entry.enabled) hsame
  exact absurd henabled (by decide)

end Eidetic.Catalog
