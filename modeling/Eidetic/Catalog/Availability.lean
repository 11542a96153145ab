import Eidetic.Catalog.Patch
import Eidetic.Catalog.Scan
import Eidetic.Lib.Run
import Eidetic.Stream.Turn

/-!
# Availability and the history of the probes

What a model's probes have said, against what the snapshot says of it. A 429
keeps the status of the row, but it counts as a failure: once the model has
failed after its last live answer, or was not listed, a 429 takes its
availability. Else availability follows the history (`follows_iff`).

A history is the list of what the scans have said of a model, the newest first;
`recent`, `answering`, `spoiled` and `listed` read it as the claim does, without
looking at the row. The invariant `Tracks` says what the row has of its history:
it has been live if the history has a live answer, its status is live when the
history is answering, its count is zero when the last outcome is live and
nothing has spoiled it, and the test of `_entry_available` is the history being
recent, unspoiled and listed.

Each thing a scan can write to a row has its lemma (`Tracks.of_live`,
`Tracks.of_failure`, `Tracks.keep`, `Tracks.delist`), and `Known` extends them
to models that have no row yet. An edit writes none of the fields in question.
The condition is read off the invariant: where the row and the history differ,
the history is spoiled (`follows_step`).
-/

namespace Eidetic.Catalog

open Eidetic.Lib Eidetic.Py
open Eidetic.Stream (digitNumerals)

/-! ## Histories -/

/-- What a scan says of a model: what its probe answers, with nothing for a 429,
or that it is not listed. -/
inductive Mark
  | probed (outcome : Option Outcome)
  | unlisted
deriving DecidableEq

/-- The outcomes of a history other than 429; both begin with the newest. -/
def outcomes : List Mark → List Outcome
  | [] => []
  | .probed (some outcome) :: rest => outcome :: outcomes rest
  | .probed none :: rest => outcomes rest
  | .unlisted :: rest => outcomes rest

/-- The last outcome is live, or a timeout or an error and the one before it live. -/
def recent : List Outcome → Bool
  | .live :: _ => true
  | .timeout :: .live :: _ => true
  | .error :: .live :: _ => true
  | _ => false

/-- Nothing but 429 has come after a live answer. -/
def answering : List Mark → Bool
  | .probed (some .live) :: _ => true
  | .probed none :: rest => answering rest
  | _ => false

/-- Since the last live answer, a 429 has come after something else. -/
def spoiled : List Mark → Bool
  | [] => false
  | .probed (some .live) :: _ => false
  | .probed none :: rest => !answering rest
  | _ :: rest => spoiled rest

/-- The last scan has listed the model. -/
def listed : List Mark → Bool
  | .probed _ :: _ => true
  | _ => false

theorem answering_iff {history : List Mark} (h : answering history = true) :
    (outcomes history).head? = some .live ∧ spoiled history = false ∧ listed history = true := by
  induction history with
  | nil => exact absurd h (by simp [answering])
  | cons mark rest ih =>
    cases mark with
    | unlisted => exact absurd h (by simp [answering])
    | probed outcome =>
      cases outcome with
      | none =>
        rw [answering] at h
        exact ⟨(ih h).1, by rw [spoiled, h]; rfl, rfl⟩
      | some outcome =>
        cases outcome with
        | live => exact ⟨rfl, rfl, rfl⟩
        | timeout | error | notFound | gone => exact absurd h (by simp [answering])

theorem Outcome.status_eq_live {outcome : Outcome} : outcome.status = .live ↔ outcome = .live := by
  cases outcome <;> simp [Outcome.status]

theorem recent_of_head {last : List Outcome} (h : last.head? = some .live) : recent last = true := by
  obtain ⟨rest, rfl⟩ := List.head?_eq_some_iff.mp h
  rfl

/-- A failure of the kind that is tolerated once comes after a live answer. -/
theorem recent_transient {outcome : Outcome} (h : outcome.status.transient = true)
    (last : List Outcome) : recent (outcome :: last) = true ↔ last.head? = some .live := by
  cases outcome with
  | live | notFound | gone => exact absurd h (by simp [Outcome.status, Status.transient])
  | timeout | error =>
    cases last with
    | nil => simp [recent]
    | cons o rest => cases o <;> simp [recent]

theorem recent_down {outcome : Outcome} (hlive : outcome ≠ .live)
    (h : outcome.status.transient = false) (last : List Outcome) :
    recent (outcome :: last) = false := by
  cases outcome with
  | live => exact absurd rfl hlive
  | timeout | error => exact absurd h (by simp [Outcome.status, Status.transient])
  | notFound | gone => rfl

/-! ## A row and its history -/

/-- What a row has of its history. -/
structure Tracks (row : ModelRow) (history : List Mark) : Prop where
  everLive : .live ∈ outcomes history → row.lastLiveAt.isSome = true
  status : row.status = .live ↔ answering history = true
  failCount : row.failCount = 0 ↔ (outcomes history).head? = some .live ∧ spoiled history = false
  transient : row.status.transient = true → 0 < row.failCount
  offered : (row.status = .live ∨
      row.status.transient = true ∧ row.failCount ≤ 1 ∧ row.lastLiveAt.isSome = true) ↔
    recent (outcomes history) = true ∧ spoiled history = false ∧ listed history = true

/-- What is known of a model before a scan: its row, or that it has never been
listed. -/
def Known (row : Option ModelRow) (history : List Mark) : Prop :=
  match row with
  | some row => Tracks row history
  | none => ∀ mark ∈ history, mark = .unlisted

variable {row : ModelRow} {history : List Mark} {r : ScanResult} {now : Nat}

theorem outcomes_unlisted (h : ∀ mark ∈ history, mark = .unlisted) : outcomes history = [] := by
  induction history with
  | nil => rfl
  | cons mark rest ih =>
    obtain ⟨rfl, hrest⟩ := List.forall_mem_cons.mp h
    exact ih hrest

theorem answering_unlisted (h : ∀ mark ∈ history, mark = .unlisted) : answering history = false := by
  cases history with
  | nil => rfl
  | cons mark rest =>
    obtain ⟨rfl, _⟩ := List.forall_mem_cons.mp h
    rfl

/-- A live answer, of a row that is new or not. -/
theorem Tracks.of_live (hstatus : row.status = .live) (hfail : row.failCount = 0)
    (hlive : row.lastLiveAt.isSome = true) : Tracks row (.probed (some .live) :: history) where
  everLive := fun _ => hlive
  status := by simp [hstatus, answering]
  failCount := by simp [hfail, outcomes, spoiled]
  transient := by simp [hstatus, Status.transient]
  offered := by simp [hstatus, recent, outcomes, spoiled, listed]

/-- Another outcome, after `failures` that were counted before it. -/
theorem Tracks.of_failure {outcome : Outcome} (failures : Nat) (hlive : outcome ≠ .live)
    (hstatus : row.status = outcome.status) (hfail : row.failCount = failures + 1)
    (hever : .live ∈ outcomes history → row.lastLiveAt.isSome = true)
    (hfirst : failures = 0 ∧ row.lastLiveAt.isSome = true ↔
      (outcomes history).head? = some .live ∧ spoiled history = false) :
    Tracks row (.probed (some outcome) :: history) := by
  have hanswering : answering (.probed (some outcome) :: history) = false := by
    cases outcome with
    | live => exact absurd rfl hlive
    | timeout | error | notFound | gone => rfl
  have hspoiled : spoiled (.probed (some outcome) :: history) = spoiled history := by
    cases outcome with
    | live => exact absurd rfl hlive
    | timeout | error | notFound | gone => rfl
  -- only a probe that answers sets the status `live`, and this one did not
  have hdown : row.status ≠ .live := fun h => hlive (Outcome.status_eq_live.mp (hstatus.symm.trans h))
  refine ⟨?_, ?_, ?_, ?_, ?_⟩
  · intro hmem
    rw [outcomes, List.mem_cons] at hmem
    exact hever (hmem.resolve_left (Ne.symm hlive))
  · rw [hanswering]
    exact ⟨fun h => absurd h hdown, fun h => absurd h Bool.false_ne_true⟩
  · rw [hfail, outcomes, List.head?_cons]
    constructor
    · exact fun h => absurd h (Nat.succ_ne_zero _)
    · exact fun h => absurd (Option.some.inj h.1) hlive
  · intro _
    omega
  · rw [hspoiled, outcomes, hstatus, hfail]
    cases htransient : outcome.status.transient with
    | false =>
      rw [recent_down hlive htransient]
      constructor
      · rintro (h | ⟨h, _⟩)
        · exact absurd (hstatus.trans h) hdown
        · exact absurd h Bool.false_ne_true
      · exact fun h => absurd h.1 Bool.false_ne_true
    | true =>
      rw [recent_transient htransient]
      constructor
      · rintro (h | ⟨_, hcount, hsome⟩)
        · exact absurd (hstatus.trans h) hdown
        · obtain ⟨hhead, hgood⟩ := hfirst.mp ⟨by omega, hsome⟩
          exact ⟨hhead, hgood, rfl⟩
      · rintro ⟨hhead, hgood, _⟩
        obtain ⟨hzero, hsome⟩ := hfirst.mpr ⟨hhead, hgood⟩
        exact Or.inr ⟨rfl, by omega, hsome⟩

/-- A 429 keeps the status, and is counted unless that is live. -/
theorem Tracks.keep (h : Tracks row history) (hstatus : r.status = row.status) :
    Tracks (r.record now row) (.probed none :: history) := by
  have hrecord : (r.record now row).status = row.status := hstatus
  -- a kept `live` resets the count as well, although nothing answered now
  have hfail : (r.record now row).failCount = if row.status = .live then 0 else row.failCount + 1 := by
    rw [← hstatus]
    rfl
  have hever : row.lastLiveAt.isSome = true → (r.record now row).lastLiveAt.isSome = true := by
    intro hsome
    rw [Option.isSome_iff_ne_none] at hsome ⊢
    exact record_lastLiveAt_ne.mpr (.inr hsome)
  refine ⟨fun hmem => hever (h.everLive hmem), ?_, ?_, ?_, ?_⟩
  · rw [hrecord, answering]
    exact h.status
  · rw [hfail, outcomes, spoiled]
    split
    next hlive =>
      have hanswering := h.status.mp hlive
      simpa [hanswering] using (answering_iff hanswering).1
    next hdown =>
      have hanswering : ¬ answering history = true := fun hanswering => hdown (h.status.mpr hanswering)
      simp [hanswering]
  · intro htransient
    rw [hrecord] at htransient
    rw [hfail]
    split
    next hlive =>
      rw [hlive] at htransient
      exact absurd htransient Bool.false_ne_true
    next => omega
  · rw [hrecord, outcomes, spoiled]
    constructor
    · rintro (hlive | ⟨htransient, hcount, _⟩)
      · have hanswering := h.status.mp hlive
        exact ⟨recent_of_head (answering_iff hanswering).1, by rw [hanswering]; rfl, rfl⟩
      · -- a failure that was tolerated is now the second
        have hbefore := h.transient htransient
        rw [hfail] at hcount
        split at hcount
        next hlive =>
          rw [hlive] at htransient
          exact absurd htransient Bool.false_ne_true
        next => omega
    · rintro ⟨_, hgood, _⟩
      exact Or.inl (h.status.mpr (by simpa using hgood))

/-- A row that begins with a 429. -/
theorem tracks_kept (hnew : ∀ mark ∈ history, mark = .unlisted) (hstatus : r.status = .error) :
    Tracks (r.newRow now) (.probed none :: history) := by
  have hoh := outcomes_unlisted hnew
  have hanswering := answering_unlisted hnew
  refine ⟨?_, ?_, ?_, ?_, ?_⟩
  · rw [outcomes, hoh]
    exact fun hmem => absurd hmem List.not_mem_nil
  · simp [ScanResult.newRow, hstatus, answering, hanswering]
  · simp [ScanResult.newRow, hstatus, outcomes, hoh]
  · simp [ScanResult.newRow, hstatus]
  · simp [ScanResult.newRow, hstatus, outcomes, hoh, recent]

theorem Tracks.delist (h : Tracks row history) : Tracks (row.delist now) (.unlisted :: history) := by
  refine ⟨?_, ?_, ?_, ?_, ?_⟩
  · rw [row.delist_lastLiveAt]
    exact h.everLive
  · simp [row.delist_status, answering]
  · rw [row.delist_failCount]
    exact h.failCount
  · simp [row.delist_status, Status.transient]
  · simp [row.delist_status, Status.transient, listed]

/-! ## Runs of scans and edits -/

/-- The probes of a scan, of distinct models. -/
structure Listed where
  probes : List Probe
  distinct : (probes.map Probe.id).Nodup

/-- A scan whose session commits, or a request of an admin, with the role models
of the process. -/
inductive CatalogEvent
  | scan (roles : List Text) (found : Listed) (now : Nat)
  | patch (roles : List Text) (i : PatchInput)

/-- The catalog, with what the scans have said of each model. -/
structure CatalogRun where
  rows : ModelCatalog
  history : Text → List Mark

def CatalogRun.init : CatalogRun := ⟨Rows.empty, fun _ => []⟩

/-- What the scan says of the model. -/
def Listed.mark (found : Listed) (modelId : Text) : Mark :=
  match found.probes.find? fun p => p.id = modelId with
  | some p => .probed p.outcome
  | none => .unlisted

/-- The letters of `derive_label` and the numbers of `json.dumps` do not matter. -/
def CatalogRun.next (n : Numerals) (label : Text → Text) (s : CatalogRun) : CatalogEvent → CatalogRun
  | .scan roles found now =>
    { rows := (scanRows roles label s.rows found.probes now).1
      history := fun modelId => found.mark modelId :: s.history modelId }
  | .patch roles i => { s with rows := (patchCatalogModel n roles s.rows i).1 }

/-- The snapshot that is published offers the model. -/
def CatalogRun.available (s : CatalogRun) (modelId : Text) : Bool :=
  isAvailable (entries s.rows) modelId

def CatalogRun.enabled (s : CatalogRun) (modelId : Text) : Bool :=
  (s.rows.find modelId).any ModelRow.enabled

/-- After a scan a listed model is offered when it is enabled and was live
recently, and a 429 has changed nothing. -/
def Follows (n : Numerals) (label : Text → Text) (s : CatalogRun) : CatalogEvent → Prop
  | .scan roles found now =>
    let after := s.next n label (.scan roles found now)
    ∀ p ∈ found.probes,
      (after.available p.id = true ↔
        after.enabled p.id = true ∧ recent (outcomes (after.history p.id)) = true) ∧
      (p.outcome = none → after.available p.id = s.available p.id)
  | .patch _ _ => True

/-- No enabled model that was live recently has had a 429 after something else
than its last live answer. -/
def Unspoiled (s : CatalogRun) : CatalogEvent → Prop
  | .scan _ found _ =>
    ∀ p ∈ found.probes, s.enabled p.id = true →
      recent (outcomes (.probed p.outcome :: s.history p.id)) = true →
        spoiled (.probed p.outcome :: s.history p.id) = false
  | .patch _ _ => True

/-! ## What a step keeps -/

variable {rows : ModelCatalog} {roles : List Text} {label : Text → Text} {n : Numerals}
  {s : CatalogRun}

theorem mem_of_head {last : List Outcome} (h : last.head? = some .live) : .live ∈ last := by
  obtain ⟨rest, rfl⟩ := List.head?_eq_some_iff.mp h
  exact List.mem_cons_self

theorem tracks_newRow {outcome : Option Outcome} (hnew : ∀ mark ∈ history, mark = .unlisted)
    (hstatus : r.status = (outcome.map Outcome.status).getD .error) :
    Tracks (r.newRow now) (.probed outcome :: history) := by
  cases outcome with
  | none => exact tracks_kept hnew hstatus
  | some o =>
    have ho : r.status = o.status := hstatus
    by_cases hlive : r.status = .live
    · rw [Outcome.status_eq_live.mp (ho.symm.trans hlive)]
      have hset : (r.newRow now).lastLiveAt ≠ none := newRow_lastLiveAt_ne.mpr hlive
      exact Tracks.of_live hlive (if_pos hlive) (Option.isSome_iff_ne_none.mpr hset)
    · have hdown : o ≠ .live := fun h => hlive (ho.trans (Outcome.status_eq_live.mpr h))
      -- a new model has never answered, so not even its first failure is tolerated
      have hnever : (r.newRow now).lastLiveAt = none := if_neg hlive
      have hoh := outcomes_unlisted hnew
      refine Tracks.of_failure 0 hdown ho (if_neg hlive) ?_ ?_
      · rw [hoh]
        exact fun hmem => absurd hmem List.not_mem_nil
      · rw [hoh, hnever]
        simp

theorem Tracks.record (h : Tracks row history) {outcome : Option Outcome}
    (hstatus : r.status = (outcome.map Outcome.status).getD row.status) :
    Tracks (r.record now row) (.probed outcome :: history) := by
  cases outcome with
  | none => exact h.keep hstatus
  | some o =>
    have ho : r.status = o.status := hstatus
    by_cases hlive : r.status = .live
    · rw [Outcome.status_eq_live.mp (ho.symm.trans hlive)]
      have hset : (r.record now row).lastLiveAt ≠ none := record_lastLiveAt_ne.mpr (.inl hlive)
      exact Tracks.of_live hlive (if_pos hlive) (Option.isSome_iff_ne_none.mpr hset)
    -- a failure adds one to the count; the time of the last answer stays
    · have hdown : o ≠ .live := fun h => hlive (ho.trans (Outcome.status_eq_live.mpr h))
      have hkept : (r.record now row).lastLiveAt = row.lastLiveAt := if_neg hlive
      refine Tracks.of_failure row.failCount hdown ho (if_neg hlive) ?_ ?_
      · rw [hkept]
        exact h.everLive
      · rw [hkept]
        constructor
        · exact fun hboth => h.failCount.mp hboth.1
        · exact fun hboth => ⟨h.failCount.mpr hboth, h.everLive (mem_of_head hboth.1)⟩

theorem Tracks.write (h : Tracks row history) (body : ModelPatch) (enabled : Option Bool) :
    Tracks (body.write enabled now row) history :=
  ⟨h.everLive, h.status, h.failCount, h.transient, h.offered⟩

theorem Probe.status_eq (existing : Text → Option Status) (p : Probe) :
    p.status existing = (p.outcome.map Outcome.status).getD ((existing p.id).getD .error) := by
  unfold Probe.status
  cases p.outcome with
  | none => rfl
  | some o => rfl

/-- The row of a model that a scan has probed. -/
theorem Known.probe {p : Probe} (h : Known (rows.find p.id) history) :
    Known (some (((rows.find p.id).map
        ((p.scanResult roles label (existingStatus rows)).record p.writtenAt)).getD
      ((p.scanResult roles label (existingStatus rows)).newRow p.writtenAt)))
      (.probed p.outcome :: history) := by
  have hstatus := p.status_eq (existingStatus rows)
  unfold existingStatus at hstatus ⊢
  cases hrow : rows.find p.id with
  | none =>
    rw [hrow] at h hstatus
    exact tracks_newRow h hstatus
  | some row =>
    rw [hrow] at h hstatus
    exact Tracks.record h hstatus

theorem Known.delist {row : Option ModelRow} (h : Known row history) :
    Known (row.map (ModelRow.delist now)) (.unlisted :: history) := by
  cases row with
  | none => exact List.forall_mem_cons.mpr ⟨rfl, h⟩
  | some row => exact Tracks.delist h

theorem Listed.mark_of_mem (found : Listed) {p : Probe} (hp : p ∈ found.probes) :
    found.mark p.id = .probed p.outcome := by
  unfold Listed.mark
  cases hfind : found.probes.find? fun q => q.id = p.id with
  | none => exact absurd (decide_eq_true rfl) (List.find?_eq_none.mp hfind p hp)
  | some q =>
    have hid : q.id = p.id := by simpa using List.find?_some hfind
    rw [List.inj_on_of_nodup_map found.distinct (List.mem_of_find?_eq_some hfind) hp hid]

theorem Listed.mark_of_not_mem (found : Listed) {k : Text} (h : k ∉ found.probes.map Probe.id) :
    found.mark k = .unlisted := by
  unfold Listed.mark
  have hfind : (found.probes.find? fun p => p.id = k) = none := by
    rw [List.find?_eq_none]
    intro p hp hid
    exact h (of_decide_eq_true hid ▸ List.mem_map_of_mem hp)
  rw [hfind]

/-- What is known of every model stays known. -/
def CatalogRun.Known (s : CatalogRun) : Prop :=
  ∀ modelId, Catalog.Known (s.rows.find modelId) (s.history modelId)

theorem CatalogRun.known_init : CatalogRun.init.Known := fun _ _ hmem => absurd hmem List.not_mem_nil

theorem CatalogRun.Known.next (hs : s.Known) (e : CatalogEvent) : (s.next n label e).Known := by
  intro k
  cases e with
  | scan roles found now =>
    show Catalog.Known ((scanRows roles label s.rows found.probes now).1.find k)
      (found.mark k :: s.history k)
    -- listed models are probed, all the others are delisted
    by_cases hk : k ∈ found.probes.map Probe.id
    · obtain ⟨p, hp, rfl⟩ := List.mem_map.mp hk
      rw [find_scanRows found.distinct hp, found.mark_of_mem hp]
      exact (hs p.id).probe
    · rw [find_scanRows_of_not_mem hk, found.mark_of_not_mem hk]
      exact (hs k).delist
  | patch roles i =>
    show Catalog.Known ((patchCatalogModel n roles s.rows i).1.find k) (s.history k)
    rcases patchCatalogModel_cases n roles s.rows i with hsame | ⟨row, hrow, _, hrows⟩
    · rw [hsame]
      exact hs k
    · rw [hrows]
      by_cases hk : k = i.modelId
      · have hknown := hs k
        rw [hk] at hknown ⊢
        rw [hrow] at hknown
        rw [Rows.find_updateAt_self, hrow]
        exact Tracks.write hknown ..
      · rw [Rows.find_updateAt_of_ne hk]
        exact hs k

/-! ## Availability -/

theorem available_eq (s : CatalogRun) (k : Text) :
    s.available k = (s.rows.find k).any fun row => entryAvailable (rowToEntry row) := by
  unfold CatalogRun.available isAvailable
  rw [lookup_entries]
  cases s.rows.find k <;> rfl

/-- A model is offered when it is enabled, was live recently and is unspoiled
and listed. -/
theorem CatalogRun.Known.available (hs : s.Known) (k : Text) :
    s.available k = true ↔ s.enabled k = true ∧ recent (outcomes (s.history k)) = true ∧
      spoiled (s.history k) = false ∧ listed (s.history k) = true := by
  have hknown := hs k
  rw [available_eq]
  unfold CatalogRun.enabled
  cases hrow : s.rows.find k with
  | none => simp
  | some row =>
    rw [hrow] at hknown
    show entryAvailable (rowToEntry row) = true ↔ row.enabled = true ∧ _
    rw [entryAvailable_iff, hknown.offered]

theorem next_history {found : Listed} {p : Probe} (hp : p ∈ found.probes) :
    (s.next n label (.scan roles found now)).history p.id =
      .probed p.outcome :: s.history p.id :=
  congrArg (· :: s.history p.id) (found.mark_of_mem hp)

/-- A scan does not change whether a model is enabled that it has seen before. -/
theorem next_enabled {found : Listed} {p : Probe} (hp : p ∈ found.probes)
    (hrow : s.rows.find p.id ≠ none) :
    (s.next n label (.scan roles found now)).enabled p.id = s.enabled p.id := by
  obtain ⟨row, hrow⟩ := Option.ne_none_iff_exists'.mp hrow
  show ((scanRows roles label s.rows found.probes now).1.find p.id).any _ = _
  unfold CatalogRun.enabled
  rw [find_scanRows found.distinct hp, hrow]
  rfl

/-- The first outcome of a model is not spoiled. -/
theorem unspoiled_of_new (hnew : ∀ mark ∈ history, mark = .unlisted) {outcome : Option Outcome}
    (h : recent (outcomes (.probed outcome :: history)) = true) :
    spoiled (.probed outcome :: history) = false := by
  have hoh := outcomes_unlisted hnew
  cases outcome with
  | none =>
    rw [outcomes, hoh] at h
    exact absurd h Bool.false_ne_true
  | some o =>
    rw [outcomes, hoh] at h
    cases o with
    | live => rfl
    | timeout | error | notFound | gone => exact absurd h Bool.false_ne_true

/-- At one scan availability follows the history exactly when no listed model is
spoiled. -/
theorem follows_step (hs : s.Known) (e : CatalogEvent) : Follows n label s e ↔ Unspoiled s e := by
  cases e with
  | patch roles i => exact Iff.rfl
  | scan roles found now =>
    -- the row after the scan says what the history after the scan says
    have hafter : (s.next n label (.scan roles found now)).Known := hs.next _
    refine forall₂_congr fun p hp => ?_
    have havailable := hafter.available p.id
    rw [next_history hp] at havailable ⊢
    constructor
    · rintro ⟨hfollows, _⟩ henabled hrecent
      have hrow : s.rows.find p.id ≠ none := by
        intro hnone
        unfold CatalogRun.enabled at henabled
        rw [hnone] at henabled
        exact absurd henabled Bool.false_ne_true
      have hboth := hfollows.mpr ⟨(next_enabled hp hrow).trans henabled, hrecent⟩
      exact (havailable.mp hboth).2.2.1
    · intro hunspoiled
      have hgood : (s.next n label (.scan roles found now)).enabled p.id = true →
          recent (outcomes (.probed p.outcome :: s.history p.id)) = true →
            spoiled (.probed p.outcome :: s.history p.id) = false := by
        intro henabled hrecent
        cases hrow : s.rows.find p.id with
        | none =>
          have hnew := hs p.id
          rw [hrow] at hnew
          exact unspoiled_of_new hnew hrecent
        | some row =>
          rw [next_enabled hp (by rw [hrow]; simp)] at henabled
          exact hunspoiled henabled hrecent
      -- where nothing is spoiled, a kept outcome changes availability neither way
      refine ⟨⟨fun h => ⟨(havailable.mp h).1, (havailable.mp h).2.1⟩, ?_⟩, ?_⟩
      · rintro ⟨henabled, hrecent⟩
        exact havailable.mpr ⟨henabled, hrecent, hgood henabled hrecent, rfl⟩
      · intro hkept
        rw [hkept] at havailable hgood
        rw [Bool.eq_iff_iff, havailable, hs.available p.id]
        cases hrow : s.rows.find p.id with
        | none =>
          have hnew := hs p.id
          rw [hrow] at hnew
          rw [outcomes, outcomes_unlisted hnew]
          simp [recent]
        | some row =>
          rw [next_enabled hp (by rw [hrow]; simp)] at hgood ⊢
          constructor
          · rintro ⟨henabled, hrecent, hspoiled, _⟩
            have hanswering := answering_iff (by simpa [spoiled] using hspoiled)
            exact ⟨henabled, hrecent, hanswering.2⟩
          · rintro ⟨henabled, hrecent, _, _⟩
            exact ⟨henabled, hrecent, hgood henabled hrecent, rfl⟩

/-- In every run from the empty catalog, availability follows the history at
every scan exactly when no scan finds a listed model spoiled. -/
theorem follows_iff (n : Numerals) (label : Text → Text) (events : List CatalogEvent) :
    Throughout (CatalogRun.next n label) (Follows n label) .init events ↔
      Throughout (CatalogRun.next n label) Unspoiled .init events :=
  throughout_congr CatalogRun.Known (fun _ e hs => hs.next e) (fun _ e hs => follows_step hs e)
    CatalogRun.known_init events

/-! ## A model that is offered no more -/

/-- A scan of one model. -/
def probedAlone (outcome : Option Outcome) (httpStatus : Option Nat) : CatalogEvent :=
  .scan ["meta/llama".toList]
    ⟨[⟨"meta/llama".toList, outcome, httpStatus, 100, none, 0⟩], List.nodup_singleton _⟩ 0

/-- A role model is live, times out and then is rate limited. -/
def rateLimited : List CatalogEvent :=
  [probedAlone (some .live) (some 200), probedAlone (some .timeout) none, probedAlone none (some 429)]

theorem rateLimited_unoffered :
    ¬ ∀ n label events, Throughout (CatalogRun.next n label) (Follows n label) .init events := by
  intro h
  obtain ⟨_, _, hlast, _⟩ := h digitNumerals id rateLimited
  have hsame := (hlast _ (List.mem_singleton_self _)).2 rfl
  exact absurd hsame (by decide)

end Eidetic.Catalog
