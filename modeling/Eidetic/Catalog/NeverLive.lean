import Eidetic.Catalog.Patch
import Eidetic.Catalog.Scan
import Eidetic.Lib.Run
import Mathlib.Data.List.Induction

/-!
# A model that has never worked

Scans and edits write the same rows in any order. A scan only ever sets
`last_live_at`, together with a live status, and leaves `enabled` alone once a
row is there; an edit enables only a row that has it. So no model is offered
that has never answered a probe, and none is enabled but by being a role model
when it was first seen or by an admin after it had answered (`never_offered`).

What a scan may do to the row of one model is `Scanned`: a row stays with its
`enabled` and, once it has been live, with some `last_live_at`; a row that is
new is enabled if the model is a role model; and a `last_live_at` that is new
comes from a live answer. The relation is reflexive and transitive, so the
passes of a scan are followed one write after the other (`scanned_upsert`,
`scanned_pass`, `scanned_delist`), and a scan that breaks off has done nothing.

`LiveSet` is the invariant that a live row has answered. It is what makes a 429
harmless, which keeps the status of the row. `Justified` adds to it, for every
list of calls, which of them has made each row what it is, and `never_offered`
reads the four promises off that.
-/

namespace Eidetic.Catalog

open Eidetic.Lib Eidetic.Py

/-! ## What a scan may do to a row -/

/-- A scan with these role models and answers, of the row of one model. -/
structure Scanned (seeds : Bool) (answers : Prop) (before after : Option ModelRow) : Prop where
  keeps : ∀ row ∈ before, ∃ row' ∈ after, row'.enabled = row.enabled ∧
    (row.lastLiveAt ≠ none → row'.lastLiveAt ≠ none)
  seeded : before = none → ∀ row' ∈ after, row'.enabled = seeds
  answered : ∀ row' ∈ after, row'.lastLiveAt ≠ none →
    answers ∨ ∃ row ∈ before, row.lastLiveAt ≠ none

/-- A live row has answered. -/
def LiveSet (rows : ModelCatalog) : Prop :=
  ∀ k, ∀ row ∈ rows.find k, row.status = .live → row.lastLiveAt ≠ none

variable {seeds : Bool} {answers : Prop} {before mid after : Option ModelRow}

theorem Scanned.refl (seeds : Bool) (answers : Prop) (row : Option ModelRow) :
    Scanned seeds answers row row where
  keeps := fun row hrow => ⟨row, hrow, rfl, id⟩
  seeded := by
    rintro rfl row' hrow'
    exact absurd hrow' (by simp)
  answered := fun row' hrow' hlive => Or.inr ⟨row', hrow', hlive⟩

theorem Scanned.trans (h : Scanned seeds answers before mid) (h' : Scanned seeds answers mid after) :
    Scanned seeds answers before after where
  keeps := by
    intro row hrow
    obtain ⟨row', hrow', henabled', hlive'⟩ := h.keeps row hrow
    obtain ⟨row'', hrow'', henabled'', hlive''⟩ := h'.keeps row' hrow'
    exact ⟨row'', hrow'', henabled''.trans henabled', fun hlive => hlive'' (hlive' hlive)⟩
  seeded := by
    intro hnone row'' hrow''
    -- the row is new in the second part, or it was in the first and is kept
    cases hmid : mid with
    | none => exact h'.seeded hmid row'' hrow''
    | some row' =>
      obtain ⟨last, hlast, henabled, _⟩ := h'.keeps row' hmid
      rw [Option.mem_unique hrow'' hlast, henabled]
      exact h.seeded hnone row' hmid
  answered := by
    intro row'' hrow'' hlive''
    rcases h'.answered row'' hrow'' hlive'' with hanswers | ⟨row', hrow', hlive'⟩
    · exact Or.inl hanswers
    · exact h.answered row' hrow' hlive'

theorem Scanned.mono {more : Prop} (h : Scanned seeds answers before after) (hmore : answers → more) :
    Scanned seeds more before after :=
  ⟨h.keeps, h.seeded, fun row' hrow' hlive => (h.answered row' hrow' hlive).imp hmore id⟩

variable {rows : ModelCatalog} {roles : List Text} {label : Text → Text}
  {existing : Text → Option Status} {now : Nat} {k : Text}

/-- What a probe answers for a model. -/
def Probe.AnswersFor (p : Probe) (k : Text) : Prop := p.id = k ∧ p.outcome = some .live

/-- A live status is of a live answer, or of a 429 for a row that was live. -/
theorem Probe.status_live {p : Probe} (h : p.status existing = .live) :
    p.AnswersFor p.id ∨ existing p.id = some .live := by
  unfold Probe.status at h
  cases houtcome : p.outcome with
  | none =>
    rw [houtcome] at h
    -- a 429 takes over the status that the scan had read
    cases hexisting : existing p.id with
    | none =>
      rw [hexisting] at h
      exact absurd h Status.noConfusion
    | some status =>
      rw [hexisting] at h
      exact Or.inr (congrArg some h)
  | some outcome =>
    rw [houtcome] at h
    refine Or.inl ⟨rfl, ?_⟩
    cases outcome with
    | live => exact houtcome
    | timeout | error | notFound | gone => exact Status.noConfusion h

/-- The rows that were live before the pass have answered. -/
def Existing (existing : Text → Option Status) (rows : ModelCatalog) : Prop :=
  ∀ k, existing k = some .live → ∃ row ∈ rows.find k, row.lastLiveAt ≠ none

theorem scanned_upsert (hexisting : Existing existing rows) (p : Probe) (k : Text) :
    Scanned (k ∈ roles) (p.AnswersFor k) (rows.find k)
      ((upsertScanResult rows (p.scanResult roles label existing) p.writtenAt).find k) := by
  by_cases hk : k = p.id
  -- the time of an answer comes with the status `live`, here or before
  · have hlive : p.status existing = .live →
        p.AnswersFor k ∨ ∃ row ∈ rows.find k, row.lastLiveAt ≠ none := by
      intro hstatus
      rw [hk]
      exact (Probe.status_live hstatus).imp id (hexisting p.id)
    have hafter : (upsertScanResult rows (p.scanResult roles label existing) p.writtenAt).find k =
        some (((rows.find k).map ((p.scanResult roles label existing).record p.writtenAt)).getD
          ((p.scanResult roles label existing).newRow p.writtenAt)) := by
      rw [hk]
      exact upsertScanResult_self
    rw [hafter]
    cases hrow : rows.find k with
    | none =>
      rw [hrow] at hlive
      refine ⟨fun row hnone => absurd hnone (by simp), ?_, ?_⟩
      · rintro _ row' ⟨⟩
        rw [hk]
        rfl
      · rintro row' ⟨⟩ hset
        exact hlive (newRow_lastLiveAt_ne.mp hset)
    | some row =>
      rw [hrow] at hlive
      refine ⟨?_, fun hnone => absurd hnone (by simp), ?_⟩
      · rintro _ ⟨⟩
        exact ⟨_, rfl, rfl, fun hset => record_lastLiveAt_ne.mpr (Or.inr hset)⟩
      · rintro row' ⟨⟩ hset
        rcases record_lastLiveAt_ne.mp hset with hstatus | hbefore
        · exact hlive hstatus
        · exact Or.inr ⟨row, rfl, hbefore⟩
  · rw [upsertScanResult_of_ne hk]
    exact Scanned.refl ..

theorem LiveSet.upsert (h : LiveSet rows) (r : ScanResult) (now : Nat) :
    LiveSet (upsertScanResult rows r now) := by
  intro k row' hrow' hstatus
  by_cases hk : k = r.modelId
  · rw [hk, upsertScanResult_self] at hrow'
    cases hrow : rows.find r.modelId with
    | none =>
      rw [hrow] at hrow'
      obtain rfl := Option.some.inj hrow'
      exact newRow_lastLiveAt_ne.mpr hstatus
    | some row =>
      rw [hrow] at hrow'
      obtain rfl := Option.some.inj hrow'
      exact record_lastLiveAt_ne.mpr (Or.inl hstatus)
  · rw [upsertScanResult_of_ne hk] at hrow'
    exact h k row' hrow' hstatus

theorem scanned_pass (hexisting : Existing existing rows) (probes : List Probe) (k : Text) :
    Scanned (k ∈ roles) (∃ p ∈ probes, p.AnswersFor k) (rows.find k)
      ((upsertPass roles label existing rows probes).find k) := by
  induction probes generalizing rows with
  | nil => exact Scanned.refl ..
  | cons p rest ih =>
    have hstep : ∀ j, Scanned (j ∈ roles) (p.AnswersFor j) (rows.find j)
        ((upsertScanResult rows (p.scanResult roles label existing) p.writtenAt).find j) :=
      scanned_upsert hexisting p
    have hrest : Existing existing
        (upsertScanResult rows (p.scanResult roles label existing) p.writtenAt) := by
      intro j hj
      obtain ⟨row, hrow, hlive⟩ := hexisting j hj
      obtain ⟨row', hrow', _, hset⟩ := (hstep j).keeps row hrow
      exact ⟨row', hrow', hset hlive⟩
    refine ((hstep k).mono fun h => ⟨p, List.mem_cons_self, h⟩).trans ((ih hrest).mono ?_)
    rintro ⟨q, hq, hanswers⟩
    exact ⟨q, List.mem_cons_of_mem _ hq, hanswers⟩

theorem LiveSet.pass (h : LiveSet rows) (probes : List Probe) :
    LiveSet (upsertPass roles label existing rows probes) := by
  induction probes generalizing rows with
  | nil => exact h
  | cons p rest ih => exact ih (h.upsert _ _)

theorem scanned_delist (seeds : Bool) (answers : Prop) (seen : List Text) (k : Text) :
    Scanned seeds answers (rows.find k) ((markDelisted rows seen now).1.find k) := by
  rw [find_markDelisted]
  by_cases hk : k ∈ seen
  · simp only [if_pos hk, Option.map_id']
    exact Scanned.refl ..
  · simp only [if_neg hk]
    refine ⟨?_, ?_, ?_⟩
    · intro row hrow
      refine ⟨row.delist now, Option.mem_map_of_mem _ hrow, row.delist_enabled now, ?_⟩
      rw [ModelRow.delist_lastLiveAt]
      exact id
    · intro hnone row' hrow'
      rw [hnone] at hrow'
      exact absurd hrow' (by simp)
    · intro row' hrow' hset
      obtain ⟨row, hrow, rfl⟩ := Option.mem_map.mp hrow'
      rw [ModelRow.delist_lastLiveAt] at hset
      exact Or.inr ⟨row, hrow, hset⟩

theorem LiveSet.delist (h : LiveSet rows) (seen : List Text) (now : Nat) :
    LiveSet (markDelisted rows seen now).1 := by
  intro k row' hrow' hstatus
  rw [find_markDelisted] at hrow'
  by_cases hk : k ∈ seen
  · simp only [if_pos hk, Option.map_id'] at hrow'
    exact h k row' hrow' hstatus
  · simp only [if_neg hk] at hrow'
    obtain ⟨row, _, rfl⟩ := Option.mem_map.mp hrow'
    rw [ModelRow.delist_status] at hstatus
    exact absurd hstatus Status.noConfusion

/-- What the session of a scan does to the row of a model. -/
theorem scanned_scanRows (h : LiveSet rows) (probes : List Probe) (k : Text) :
    Scanned (k ∈ roles) (∃ p ∈ probes, p.AnswersFor k) (rows.find k)
      ((scanRows roles label rows probes now).1.find k) := by
  have hexisting : Existing (existingStatus rows) rows := by
    intro j hj
    obtain ⟨row, hrow, hlive⟩ := Option.map_eq_some_iff.mp hj
    exact ⟨row, hrow, h j row hrow hlive⟩
  exact (scanned_pass hexisting probes k).trans (scanned_delist ..)

theorem LiveSet.scanRows (h : LiveSet rows) (probes : List Probe) :
    LiveSet (scanRows roles label rows probes now).1 :=
  (h.pass probes).delist _ _

/-! ## Runs of scans and edits -/

/-- A call of `run_scan` or a request of an admin, with the configuration of its
process. -/
inductive CatalogCall
  | scan (cfg : ScanConfig) (i : ScanInput)
  | patch (cfg : ScanConfig) (i : PatchInput)

section Calls

variable (l : Letters) (n : Numerals)

/-- `patch_catalog_model`, with `publish` after its commit. -/
def patchAndPublish (cfg : ScanConfig) (s : CatalogState) (i : PatchInput) : CatalogState :=
  match patchCatalogModel n cfg.roles s.rows i with
  | (rows, .row _ _) => if i.body.isEmpty then s else publish cfg { s with rows := rows }
  | _ => s

def CatalogState.next (s : CatalogState) : CatalogCall → CatalogState
  | .scan cfg i => (runScan l cfg s i).1
  | .patch cfg i => patchAndPublish n cfg s i

/-- No rows, and nothing published. -/
def CatalogState.init : CatalogState := ⟨Rows.empty, [], []⟩

/-- The state that some calls leave. -/
def afterCalls (calls : List CatalogCall) : CatalogState := run (CatalogState.next l n) .init calls

/-- A scan that gets a live answer of the model, and commits. -/
def HasAnswer (k : Text) : CatalogCall → Prop
  | .scan cfg i =>
    ¬ i.idle cfg ∧ ∃ ids, (listModels i.listing).bind (candidates l) = some ids ∧
      ∃ p ∈ i.probes ids, p.AnswersFor k
  | .patch _ _ => False

/-- The model was a role model of the scan that first saw it. -/
def FirstSeenAsRole (calls : List CatalogCall) (k : Text) : Prop :=
  ∃ before cfg i after, calls = before ++ .scan cfg i :: after ∧
    (afterCalls l n before).rows.find k = none ∧
    (afterCalls l n (before ++ [.scan cfg i])).rows.find k ≠ none ∧ k ∈ cfg.roles

/-- An admin enabled the model after it had answered a probe: he asked for it, and
the row was enabled after his request. -/
def EnabledByAdmin (calls : List CatalogCall) (k : Text) : Prop :=
  ∃ before cfg i after, calls = before ++ .patch cfg i :: after ∧ i.modelId = k ∧
    i.body.enabled = some (some true) ∧ (∃ call ∈ before, HasAnswer l k call) ∧
    ∃ row ∈ (afterCalls l n (before ++ [.patch cfg i])).rows.find k, row.enabled = true

/-- What is promised of the rows after some calls. -/
structure NeverOffered (calls : List CatalogCall) : Prop where
  available : ∀ k, isAvailable (entries (afterCalls l n calls).rows) k = true →
    ∃ row ∈ (afterCalls l n calls).rows.find k, row.lastLiveAt ≠ none
  neverCleared : ∀ k, ∀ row ∈ (afterCalls l n calls).rows.find k, row.lastLiveAt ≠ none →
    ∀ more, ∃ row' ∈ (afterCalls l n (calls ++ more)).rows.find k, row'.lastLiveAt ≠ none
  enabled : ∀ k, ∀ row ∈ (afterCalls l n calls).rows.find k, row.enabled = true →
    FirstSeenAsRole l n calls k ∨ EnabledByAdmin l n calls k
  scansKeep : ∀ k, ∀ row ∈ (afterCalls l n calls).rows.find k, ∀ cfg i,
    ∃ row' ∈ (afterCalls l n (calls ++ [.scan cfg i])).rows.find k, row'.enabled = row.enabled

end Calls

variable {l : Letters} {n : Numerals} {cfg : ScanConfig} {s : CatalogState}

theorem afterCalls_append (calls more : List CatalogCall) :
    afterCalls l n (calls ++ more) = run (CatalogState.next l n) (afterCalls l n calls) more :=
  run_append ..

/-- What a scan does to the row of a model, whatever its input. -/
theorem scanned_runScan (h : LiveSet s.rows) (i : ScanInput) (k : Text) :
    Scanned (k ∈ cfg.roles) (HasAnswer l k (.scan cfg i)) (s.rows.find k)
      ((runScan l cfg s i).1.rows.find k) := by
  by_cases hidle : i.idle cfg
  · rw [runScan_of_idle hidle]
    exact Scanned.refl ..
  · cases hids : (listModels i.listing).bind (candidates l) with
    | none =>
      rw [runScan_of_raises hids]
      exact Scanned.refl ..
    | some ids =>
      rw [runScan_of_candidates hidle hids, publish_rows]
      refine (scanned_scanRows h _ k).mono fun hanswers => ?_
      exact ⟨hidle, ids, hids, hanswers⟩

theorem LiveSet.runScan (h : LiveSet s.rows) (i : ScanInput) : LiveSet (runScan l cfg s i).1.rows := by
  by_cases hidle : i.idle cfg
  · rw [runScan_of_idle hidle]
    exact h
  · cases hids : (listModels i.listing).bind (candidates l) with
    | none =>
      rw [runScan_of_raises hids]
      exact h
    | some ids =>
      rw [runScan_of_candidates hidle hids, publish_rows]
      exact h.scanRows _

/-- The rows after an edit are those that `patchCatalogModel` leaves. -/
theorem patchAndPublish_rows (i : PatchInput) :
    (patchAndPublish n cfg s i).rows = (patchCatalogModel n cfg.roles s.rows i).1 := by
  unfold patchAndPublish
  split
  next rows row role heq =>
    rw [heq]
    split
    next hempty =>
      have hsame : (patchCatalogModel n cfg.roles s.rows i).1 = s.rows :=
        patchCatalogModel_empty hempty
      rw [heq] at hsame
      exact hsame.symm
    next => rfl
  next hother =>
    refine (patchCatalogModel_refused fun row role heq => ?_).symm
    exact hother (patchCatalogModel n cfg.roles s.rows i).1 row role (Prod.ext rfl heq)

/-- What an edit does to the row of a model. -/
theorem patched_row (i : PatchInput) {k : Text} {row' : ModelRow}
    (hrow' : row' ∈ (patchAndPublish n cfg s i).rows.find k) :
    ∃ row ∈ s.rows.find k, row'.status = row.status ∧ row'.lastLiveAt = row.lastLiveAt ∧
      (row'.enabled = row.enabled ∨ i.modelId = k ∧ i.body.enabled = some (some row'.enabled) ∧
        (row'.enabled = true → row.lastLiveAt ≠ none)) := by
  rw [patchAndPublish_rows] at hrow'
  rcases patchCatalogModel_cases n cfg.roles s.rows i with hsame | ⟨row, hrow, hwrites, hrows⟩
  · rw [hsame] at hrow'
    exact ⟨row', hrow', rfl, rfl, Or.inl rfl⟩
  · rw [hrows] at hrow'
    by_cases hk : k = i.modelId
    · rw [hk, Rows.find_updateAt_self, hrow] at hrow'
      obtain rfl := Option.some.inj hrow'
      refine ⟨row, hk ▸ hrow, rfl, rfl, ?_⟩
      have henables := hwrites.enables
      -- only a value in the body changes the switch, and then the edit checked the row
      cases hbody : i.body.enabled with
      | none => exact Or.inl (by simp [ModelPatch.write])
      | some value =>
        cases value with
        | none => exact Or.inl (by simp [ModelPatch.write])
        | some enabled =>
          rw [hbody] at henables
          exact Or.inr ⟨hk.symm, rfl, fun htrue => henables (congrArg (fun b => some (some b)) htrue)⟩
    · rw [Rows.find_updateAt_of_ne hk] at hrow'
      exact ⟨row', hrow', rfl, rfl, Or.inl rfl⟩

/-- An edit deletes no row. -/
theorem patched_keeps (i : PatchInput) {k : Text} {row : ModelRow} (hrow : row ∈ s.rows.find k) :
    ∃ row' ∈ (patchAndPublish n cfg s i).rows.find k, row'.lastLiveAt = row.lastLiveAt := by
  rw [patchAndPublish_rows]
  rcases patchCatalogModel_cases n cfg.roles s.rows i with hsame | ⟨_, _, _, hrows⟩
  · rw [hsame]
    exact ⟨row, hrow, rfl⟩
  · rw [hrows]
    by_cases hk : k = i.modelId
    · rw [hk] at hrow ⊢
      rw [Rows.find_updateAt_self]
      exact ⟨_, Option.mem_map_of_mem _ hrow, rfl⟩
    · rw [Rows.find_updateAt_of_ne hk]
      exact ⟨row, hrow, rfl⟩

theorem LiveSet.next (h : LiveSet s.rows) (call : CatalogCall) :
    LiveSet (CatalogState.next l n s call).rows := by
  cases call with
  | scan cfg i => exact h.runScan i
  | patch cfg i =>
    intro k row' hrow' hstatus
    obtain ⟨row, hrow, hsame, hlive, _⟩ := patched_row i hrow'
    rw [hlive]
    exact h k row hrow (hsame.symm.trans hstatus)

/-- A model that has answered once has answered for good. -/
theorem answered_next (h : LiveSet s.rows) (call : CatalogCall) {k : Text}
    (hset : ∃ row ∈ s.rows.find k, row.lastLiveAt ≠ none) :
    ∃ row' ∈ (CatalogState.next l n s call).rows.find k, row'.lastLiveAt ≠ none := by
  obtain ⟨row, hrow, hlive⟩ := hset
  cases call with
  | scan cfg i =>
    have hscanned : Scanned (k ∈ cfg.roles) (HasAnswer l k (.scan cfg i)) (s.rows.find k)
        ((runScan l cfg s i).1.rows.find k) := scanned_runScan h i k
    obtain ⟨row', hrow', _, hkeeps⟩ := hscanned.keeps row hrow
    exact ⟨row', hrow', hkeeps hlive⟩
  | patch cfg i =>
    have hpatched : ∃ row' ∈ (patchAndPublish n cfg s i).rows.find k,
        row'.lastLiveAt = row.lastLiveAt := patched_keeps i hrow
    obtain ⟨row', hrow', hsame⟩ := hpatched
    exact ⟨row', hrow', hsame ▸ hlive⟩

theorem FirstSeenAsRole.append {calls : List CatalogCall} {k : Text}
    (h : FirstSeenAsRole l n calls k) (more : List CatalogCall) :
    FirstSeenAsRole l n (calls ++ more) k := by
  obtain ⟨before, cfg, i, after, rfl, hseen⟩ := h
  exact ⟨before, cfg, i, after ++ more, by simp, hseen⟩

theorem EnabledByAdmin.append {calls : List CatalogCall} {k : Text}
    (h : EnabledByAdmin l n calls k) (more : List CatalogCall) :
    EnabledByAdmin l n (calls ++ more) k := by
  obtain ⟨before, cfg, i, after, rfl, hseen⟩ := h
  exact ⟨before, cfg, i, after ++ more, by simp, hseen⟩

/-- How the rows after some calls came to be live and enabled. -/
structure Justified (l : Letters) (n : Numerals) (calls : List CatalogCall) : Prop where
  live : LiveSet (afterCalls l n calls).rows
  answered : ∀ k, ∀ row ∈ (afterCalls l n calls).rows.find k, row.lastLiveAt ≠ none →
    ∃ call ∈ calls, HasAnswer l k call
  enabled : ∀ k, ∀ row ∈ (afterCalls l n calls).rows.find k, row.enabled = true →
    FirstSeenAsRole l n calls k ∨ EnabledByAdmin l n calls k

theorem justified_nil : Justified l n [] :=
  ⟨fun _ _ h => absurd h (by simp [afterCalls, run, CatalogState.init]),
    fun _ _ h => absurd h (by simp [afterCalls, run, CatalogState.init]),
    fun _ _ h => absurd h (by simp [afterCalls, run, CatalogState.init])⟩

theorem Justified.scan {calls : List CatalogCall} (h : Justified l n calls) (cfg : ScanConfig)
    (i : ScanInput) : Justified l n (calls ++ [.scan cfg i]) := by
  have hscanned : ∀ k, Scanned (k ∈ cfg.roles) (HasAnswer l k (.scan cfg i))
      ((afterCalls l n calls).rows.find k) ((runScan l cfg (afterCalls l n calls) i).1.rows.find k) :=
    scanned_runScan h.live i
  refine ⟨?_, ?_, ?_⟩
  · rw [afterCalls_append]
    exact LiveSet.next (n := n) h.live (.scan cfg i)
  · intro k row' hrow' hset
    rw [afterCalls_append] at hrow'
    rcases (hscanned k).answered row' hrow' hset with hanswer | ⟨row, hrow, hlive⟩
    · exact ⟨_, List.mem_append_right _ (List.mem_singleton_self _), hanswer⟩
    · obtain ⟨call, hcall, hanswer⟩ := h.answered k row hrow hlive
      exact ⟨call, List.mem_append_left _ hcall, hanswer⟩
  · intro k row' hrow' henabled
    -- a row that is new is enabled by its role; another keeps its switch
    cases hrow : (afterCalls l n calls).rows.find k with
    | none =>
      refine Or.inl ⟨calls, cfg, i, [], rfl, hrow, ?_, ?_⟩
      · rw [Option.mem_def.mp hrow']
        simp
      · rw [afterCalls_append] at hrow'
        have hseeded := (hscanned k).seeded hrow row' hrow'
        exact of_decide_eq_true (hseeded.symm.trans henabled)
    | some row =>
      rw [afterCalls_append] at hrow'
      obtain ⟨row'', hrow'', hkept, _⟩ := (hscanned k).keeps row hrow
      rw [Option.mem_unique hrow' hrow'', hkept] at henabled
      exact (h.enabled k row hrow henabled).imp (·.append _) (·.append _)

theorem Justified.patch {calls : List CatalogCall} (h : Justified l n calls) (cfg : ScanConfig)
    (i : PatchInput) : Justified l n (calls ++ [.patch cfg i]) := by
  refine ⟨?_, ?_, ?_⟩
  · rw [afterCalls_append]
    exact LiveSet.next (l := l) h.live (.patch cfg i)
  · intro k row' hrow' hset
    rw [afterCalls_append] at hrow'
    obtain ⟨row, hrow, _, hlive, _⟩ := patched_row i hrow'
    obtain ⟨call, hcall, hanswer⟩ := h.answered k row hrow (hlive ▸ hset)
    exact ⟨call, List.mem_append_left _ hcall, hanswer⟩
  · intro k row' hafter henabled
    have hrow' := hafter
    rw [afterCalls_append] at hrow'
    obtain ⟨row, hrow, _, _, hkept | ⟨hid, hbody, hchecked⟩⟩ := patched_row i hrow'
    · exact (h.enabled k row hrow (hkept ▸ henabled)).imp (·.append _) (·.append _)
    · rw [henabled] at hbody
      refine Or.inr ⟨calls, cfg, i, [], rfl, hid, hbody, ?_, row', hafter, henabled⟩
      exact h.answered k row hrow (hchecked henabled)

theorem justified (l : Letters) (n : Numerals) (calls : List CatalogCall) : Justified l n calls := by
  induction calls using List.reverseRecOn with
  | nil => exact justified_nil
  | append_singleton calls call ih =>
    cases call with
    | scan cfg i => exact ih.scan cfg i
    | patch cfg i => exact ih.patch cfg i

/-- After any scans and edits, no model is offered or enabled that has never
answered a probe, role models apart. -/
theorem never_offered (l : Letters) (n : Numerals) (calls : List CatalogCall) :
    NeverOffered l n calls where
  available := by
    intro k hk
    unfold isAvailable at hk
    rw [lookup_entries] at hk
    cases hrow : (afterCalls l n calls).rows.find k with
    | none =>
      rw [hrow] at hk
      exact absurd hk Bool.false_ne_true
    | some row =>
      rw [hrow] at hk
      refine ⟨row, rfl, ?_⟩
      -- live, or down for the first time after it had answered
      rcases ((entryAvailable_iff row).mp hk).2 with hstatus | ⟨_, _, hset⟩
      · exact (justified l n calls).live k row hrow hstatus
      · exact Option.isSome_iff_ne_none.mp hset
  neverCleared := by
    intro k row hrow hset more
    rw [afterCalls_append]
    refine (run_preserves (fun s : CatalogState => LiveSet s.rows ∧
      ∃ row ∈ s.rows.find k, row.lastLiveAt ≠ none) ?_ ?_ more).2
    · exact fun s call h => ⟨h.1.next call, answered_next h.1 call h.2⟩
    · exact ⟨(justified l n calls).live, row, hrow, hset⟩
  enabled := (justified l n calls).enabled
  scansKeep := by
    intro k row hrow cfg i
    rw [afterCalls_append]
    have hscanned : Scanned _ _ _ ((runScan l cfg (afterCalls l n calls) i).1.rows.find k) :=
      scanned_runScan (justified l n calls).live i k
    obtain ⟨row', hrow', henabled, _⟩ := hscanned.keeps row hrow
    exact ⟨row', hrow', henabled⟩

end Eidetic.Catalog
