import Eidetic.Lib.Rows
import Eidetic.Py.Json

/-!
# The rows of the model catalog

`upsert_scan_result` and `mark_delisted` write `model_catalog`, `row_to_entry`
makes the entry of a row that the snapshot has, and `_entry_available` says
whether the model is offered.

Rows are those of the table, by the id of the model. `record` is what
`upsert_scan_result` writes over a row that is there and `newRow` what it
inserts; of a 429 the status is that of the row, and the count goes up. The
lemmas say for each write what it does to the fields that others read: whether
the model has ever been live, its count, its status and whether it is enabled.

The snapshot is made of entries, of which a lookup finds that of the row
(`lookup_entries`), so whether a model is offered is a question about its row
(`entryAvailable_iff`): it is enabled, and live, or its one failure is of a kind
that is tolerated and it has been live before.
-/

namespace Eidetic.Catalog

open Eidetic.Lib Eidetic.Py

/-- `ModelCatalog.status`. -/
inductive Status
  | live
  | timeout
  | error
  | notFound
  | gone
  | delisted
deriving DecidableEq, Repr

/-- A row of `model_catalog`; times are in microseconds. -/
structure ModelRow where
  id : Text
  label : Option Text
  status : Status
  httpStatus : Option Nat
  latencyMs : Option Nat
  failCount : Nat
  enabled : Bool
  priceIn : Option Rat := none
  priceOut : Option Rat := none
  contextWindow : Option Nat := none
  supportsTools : Option Bool := none
  reasoning : Option Bool
  requestExtras : Option (List (Text × Json)) := none
  minMaxTokens : Option Nat := none
  lastLiveAt : Option Nat
  lastChecked : Option Nat
  firstSeen : Nat
  updatedAt : Nat

/-- `model_catalog`, whose primary key is `id`. -/
abbrev ModelCatalog := Rows ModelRow.id

/-- The arguments of `upsert_scan_result`. -/
structure ScanResult where
  modelId : Text
  status : Status
  httpStatus : Option Nat
  latencyMs : Option Nat
  label : Option Text
  seedEnabled : Bool
  reasoning : Option Bool

/-- The row of a model that a scan sees for the first time. -/
def ScanResult.newRow (r : ScanResult) (now : Nat) : ModelRow where
  id := r.modelId
  label := r.label
  status := r.status
  httpStatus := r.httpStatus
  latencyMs := r.latencyMs
  failCount := if r.status = .live then 0 else 1
  enabled := r.seedEnabled
  reasoning := r.reasoning
  lastLiveAt := if r.status = .live then some now else none
  firstSeen := now
  lastChecked := some now
  updatedAt := now

/-- `not value`, of a column that may be `None`. -/
def blank (value : Option Text) : Bool := (value.getD []).isEmpty

/-- What a scan writes to a row that is there. -/
def ScanResult.record (r : ScanResult) (now : Nat) (row : ModelRow) : ModelRow :=
  { row with
    failCount := if r.status = .live then 0 else row.failCount + 1
    status := r.status
    httpStatus := r.httpStatus
    latencyMs := r.latencyMs
    lastLiveAt := if r.status = .live then some now else row.lastLiveAt
    reasoning := r.reasoning.or row.reasoning
    label := if blank row.label && !blank r.label then r.label else row.label
    lastChecked := some now
    updatedAt := now }

theorem ScanResult.record_id (r : ScanResult) (now : Nat) (row : ModelRow) :
    (r.record now row).id = row.id := rfl

/-- A new row has answered when it is live, and a row that is there when it is or had. -/
theorem newRow_lastLiveAt_ne {r : ScanResult} {now : Nat} :
    (r.newRow now).lastLiveAt ≠ none ↔ r.status = .live := by
  unfold ScanResult.newRow
  simp

theorem record_lastLiveAt_ne {r : ScanResult} {now : Nat} {row : ModelRow} :
    (r.record now row).lastLiveAt ≠ none ↔ r.status = .live ∨ row.lastLiveAt ≠ none := by
  unfold ScanResult.record
  dsimp only
  split
  next hlive => simp [hlive]
  next hdown => rw [or_iff_right hdown]

def upsertScanResult (rows : ModelCatalog) (r : ScanResult) (now : Nat) : ModelCatalog :=
  match rows.find r.modelId with
  | none => rows.insert (r.newRow now)
  | some _ => rows.updateAt r.modelId (r.record now) (r.record_id now)

/-- The row of a model that is not in the listing. -/
def ModelRow.delist (now : Nat) (row : ModelRow) : ModelRow :=
  if row.status ≠ .delisted then { row with status := .delisted, updatedAt := now } else row

@[simp] theorem ModelRow.delist_id (now : Nat) (row : ModelRow) : (row.delist now).id = row.id := by
  unfold ModelRow.delist
  split <;> rfl

theorem ModelRow.delist_status (now : Nat) (row : ModelRow) : (row.delist now).status = .delisted := by
  unfold ModelRow.delist
  split
  next => rfl
  next h => simpa using h

theorem ModelRow.delist_failCount (now : Nat) (row : ModelRow) :
    (row.delist now).failCount = row.failCount := by
  unfold ModelRow.delist
  split <;> rfl

theorem ModelRow.delist_enabled (now : Nat) (row : ModelRow) :
    (row.delist now).enabled = row.enabled := by
  unfold ModelRow.delist
  split <;> rfl

theorem ModelRow.delist_lastLiveAt (now : Nat) (row : ModelRow) :
    (row.delist now).lastLiveAt = row.lastLiveAt := by
  unfold ModelRow.delist
  split <;> rfl

/-- `mark_delisted`, with the number of rows that it changes. -/
def markDelisted (rows : ModelCatalog) (seen : List Text) (now : Nat) : ModelCatalog × Nat :=
  (rows.update (fun row => if row.id ∈ seen then row else row.delist now) fun row => by
      split
      · rfl
      · exact row.delist_id now,
    (rows.list.filter fun row => row.id ∉ seen ∧ row.status ≠ .delisted).length)

/-- A model is one of `config.MODELS`. -/
def isRole (roles : List Text) (modelId : Text) : Bool := modelId ∈ roles

@[simp] theorem isRole_iff {roles : List Text} {modelId : Text} :
    isRole roles modelId = true ↔ modelId ∈ roles := by
  simp [isRole]

/-! ## The entry of a row -/

/-- What the snapshot and `catalog:entries` have of a row. -/
structure Entry where
  id : Text
  label : Text
  status : Status
  enabled : Bool
  failCount : Nat
  priceIn : Option Rat
  priceOut : Option Rat
  contextWindow : Option Nat
  latencyMs : Option Nat
  supportsTools : Option Bool
  reasoning : Option Bool
  requestExtras : Option (List (Text × Json))
  minMaxTokens : Option Nat
  lastLiveAt : Option Nat

def rowToEntry (row : ModelRow) : Entry where
  id := row.id
  label := if blank row.label then row.id else row.label.getD []
  status := row.status
  enabled := row.enabled
  failCount := row.failCount
  priceIn := row.priceIn
  priceOut := row.priceOut
  contextWindow := row.contextWindow
  latencyMs := row.latencyMs
  supportsTools := row.supportsTools
  reasoning := row.reasoning
  requestExtras := row.requestExtras
  minMaxTokens := row.minMaxTokens
  lastLiveAt := row.lastLiveAt

/-- `_TRANSIENT`. -/
def Status.transient : Status → Bool
  | .timeout | .error => true
  | .live | .notFound | .gone | .delisted => false

/-- `_entry_available`. -/
def entryAvailable (entry : Entry) : Bool :=
  if !entry.enabled then false
  else if entry.status = .live then true
  else entry.status.transient && entry.failCount ≤ 1 && entry.lastLiveAt.isSome

/-- The entries that `_reload_from_db` takes for the snapshot. -/
def entries (rows : ModelCatalog) : List (Text × Entry) :=
  rows.list.map fun row => (row.id, rowToEntry row)

/-- `is_available`, of a snapshot. -/
def isAvailable (snapshot : List (Text × Entry)) (modelId : Text) : Bool :=
  (snapshot.lookup modelId).any entryAvailable

/-! ## What the writes do to a row -/

variable {rows : ModelCatalog} {r : ScanResult} {now : Nat} {k : Text}

theorem upsertScanResult_self :
    (upsertScanResult rows r now).find r.modelId =
      some (((rows.find r.modelId).map (r.record now)).getD (r.newRow now)) := by
  unfold upsertScanResult
  split
  next h =>
    rw [h]
    have hinsert : (rows.insert (r.newRow now)).find r.modelId = some (r.newRow now) :=
      Rows.find_insert_self h
    exact hinsert
  next row h =>
    rw [Rows.find_updateAt_self, h]
    rfl

theorem upsertScanResult_of_ne (h : k ≠ r.modelId) :
    (upsertScanResult rows r now).find k = rows.find k := by
  unfold upsertScanResult
  split
  · exact Rows.find_insert_of_ne h
  · exact Rows.find_updateAt_of_ne h ..

theorem find_markDelisted (seen : List Text) :
    (markDelisted rows seen now).1.find k =
      (rows.find k).map fun row => if k ∈ seen then row else row.delist now := by
  unfold markDelisted
  rw [Rows.find_update]
  cases h : rows.find k with
  | none => rfl
  | some row =>
    rw [Option.map_some, Option.map_some, Rows.key_of_find h]

/-- The snapshot of a catalog has the entry of the row. -/
theorem lookup_entries (rows : ModelCatalog) (k : Text) :
    (entries rows).lookup k = (rows.find k).map rowToEntry := by
  unfold entries Rows.find
  induction rows.list with
  | nil => rfl
  | cons row rest ih =>
    rw [List.map_cons, List.lookup_cons, List.find?_cons]
    by_cases h : row.id = k
    · rw [beq_iff_eq.mpr h.symm, decide_eq_true h]
      rfl
    · rw [beq_eq_false_iff_ne.mpr (Ne.symm h), decide_eq_false h]
      exact ih

/-- A model that has not failed is offered, one that has failed once if it has
ever been live. -/
theorem entryAvailable_iff (row : ModelRow) :
    entryAvailable (rowToEntry row) = true ↔
      row.enabled = true ∧ (row.status = .live ∨
        row.status.transient = true ∧ row.failCount ≤ 1 ∧ row.lastLiveAt.isSome = true) := by
  unfold entryAvailable rowToEntry
  by_cases henabled : row.enabled = true
  · by_cases hlive : row.status = .live
    · simp [henabled, hlive]
    · simp [henabled, hlive, and_assoc]
  · simp [henabled]

end Eidetic.Catalog
