import Eidetic.Lib.ReadCommitted
import Eidetic.Memory.Writers

/-!
# Lost writes of the memory sheet

The writers of one user's sheet as transactions over its row. The requests
that write it lock the row, the background jobs take `user_write_lock`, an
advisory lock that no request takes, and resolving a conflict and restoring a
version lock nothing. Each kind keeps out its own, and a write is lost exactly
when one commits between the read and the commit of a writer it does not keep
out (`noLostWrite_iff`): the model's answer in `update_memory` leaves a
request all the time for that (`factLost`).

The database is the library's `ReadCommitted`: transactions read, may wait for a
lock of their kind, and commit what they have computed from what they read.
There a write is lost exactly when a commit comes between the read and the
commit of a transaction that it does not keep out, for any writers. What is
added here is what each writer computes, and that it takes the next version
(`compute_version`), also where the ORM writes only the columns that have
changed (`ormUpdate_version`).
-/

namespace Eidetic.Memory

open Eidetic.Lib Eidetic.Py

/-- A writer with what it is called with and what a model answers. -/
inductive Writer
  | writeMemoryFact (body : Text)
  | writeMemory (content projectSummary : Text)
  | updateMemory (newMessages : Bool) (answer : Text → Option Text)
  | restructureMemory (answer : Text → Option Text)
  | compactMemory (answer : Text → Option Text)
  | extractPreferences (template : Text → Option Text) (prefBlock : Text)
  | resolveConflict (strategy : Strategy) (factA factB : Text)
  | memoryRestore (content : Text) (projectSummary : Option Text)

/-- `with_for_update`, `user_write_lock` with the `pg` backend, or nothing. -/
def Writer.lock : Writer → Lock
  | .writeMemoryFact .. | .writeMemory .. => .row
  | .updateMemory .. | .restructureMemory .. | .compactMemory .. | .extractPreferences .. =>
    .advisory
  | .resolveConflict .. | .memoryRestore .. => .none

def Writer.compute : Writer → Option MemoryRow → Option MemoryRow
  | .writeMemoryFact body => fun row => some (Memory.writeMemoryFact body row)
  | .writeMemory content projectSummary => fun row =>
    some (Memory.writeMemory content projectSummary row)
  | .updateMemory newMessages answer => Memory.updateMemory newMessages answer
  | .restructureMemory answer => Memory.restructureMemory answer
  | .compactMemory answer => Memory.compactMemory answer
  | .extractPreferences template prefBlock => Memory.extractPreferences template prefBlock
  | .resolveConflict strategy factA factB => Memory.resolveConflict strategy factA factB
  | .memoryRestore content projectSummary => Memory.memoryRestore content projectSummary

def Writer.session (w : Writer) : Session MemoryRow := ⟨w.lock, w.compute⟩

/-- The `UPDATE` of a changed row: it sets the columns that have changed. -/
def ormUpdate (old new latest : MemoryRow) : MemoryRow where
  content := if new.content = old.content then latest.content else new.content
  projectSummary :=
    if new.projectSummary = old.projectSummary then latest.projectSummary else new.projectSummary
  version := if new.version = old.version then latest.version else new.version
  salience := if new.salience = old.salience then latest.salience else new.salience
  confidence := if new.confidence = old.confidence then latest.confidence else new.confidence

/-- One step of a writer. -/
def memoryStep (writers : Nat → Writer) :
    Table Nat MemoryRow → Nat → Table Nat MemoryRow :=
  Table.next (fun i => (writers i).session) ormUpdate

/-- The table after the writers have taken their steps in some order. -/
def memoryRun (writers : Nat → Writer) (row : Option MemoryRow) (schedule : List Nat) :
    Table Nat MemoryRow :=
  run (memoryStep writers) (Table.initial row) schedule

/-- Each commit's content was computed from the content committed right before
it, and the version increases from commit to commit. -/
def NoLostWrite (writers : Nat → Writer) (row : Option MemoryRow) (schedule : List Nat) : Prop :=
  Intact MemoryRow.version MemoryRow.content row (memoryRun writers row schedule).commits

/-- A writer that commits has seen only commits of its own kind of lock since
its read, and none if it has no lock. -/
def KeptOut (writers : Nat → Writer) (s : Table Nat MemoryRow) (i : Nat) : Prop :=
  ∀ seen readAt pending, s.phase i = .flushed seen readAt pending →
    ∀ c ∈ s.commits.drop readAt,
      (writers c.session).lock = (writers i).lock ∧ (writers i).lock ≠ .none

/-! ## Versions -/

theorem Rewrites.version_eq {seen : Option MemoryRow} {new : MemoryRow} (h : Rewrites seen new) :
    new.version = bump MemoryRow.version seen := by
  cases h with
  | inserted row version => rw [row, version]; rfl
  | kept old row version => rw [row, version]; rfl

theorem writeMemoryFact_version (body : Text) (seen : Option MemoryRow) :
    (writeMemoryFact body seen).version = bump MemoryRow.version seen := by
  cases seen with
  | none => rfl
  | some old => rfl

theorem compactMemory_version {answer : Text → Option Text} {seen : Option MemoryRow}
    {new : MemoryRow} (h : compactMemory answer seen = some new) :
    new.version = bump MemoryRow.version seen := by
  obtain ⟨old, rfl, hversion, _⟩ := compactMemory_cases h
  exact hversion

/-- Every writer writes the next version. -/
theorem compute_version (w : Writer) {seen : Option MemoryRow} {new : MemoryRow}
    (h : w.compute seen = some new) : new.version = bump MemoryRow.version seen := by
  cases w with
  | writeMemoryFact body =>
    obtain rfl := Option.some.inj h
    exact writeMemoryFact_version body seen
  | writeMemory content projectSummary =>
    obtain rfl := Option.some.inj h
    exact (writeMemory_rewrites content projectSummary).version_eq
  | updateMemory newMessages answer => exact (updateMemory_rewrites h).version_eq
  | restructureMemory answer => exact (restructureMemory_rewrites h).version_eq
  | compactMemory answer => exact compactMemory_version h
  | extractPreferences template prefBlock => exact (extractPreferences_rewrites h).version_eq
  | resolveConflict strategy factA factB => exact (resolveConflict_rewrites h).version_eq
  | memoryRestore content projectSummary => exact (memoryRestore_rewrites h).version_eq

theorem ormUpdate_version {old new : MemoryRow} (latest : MemoryRow)
    (h : old.version < new.version) : (ormUpdate old new latest).version = new.version := by
  unfold ormUpdate
  dsimp only
  rw [if_neg (by omega)]

/-- No write is lost exactly when every writer that commits has been kept out of. -/
theorem noLostWrite_iff (writers : Nat → Writer) (row : Option MemoryRow) (schedule : List Nat) :
    NoLostWrite writers row schedule
      ↔ Throughout (memoryStep writers) (KeptOut writers) (Table.initial row) schedule :=
  intact_iff (fun i => (writers i).session) ormUpdate MemoryRow.version MemoryRow.content
    (fun i _ _ h => compute_version (writers i) h) (fun _ _ latest h => ormUpdate_version latest h)
    row schedule

/-- A background update of the sheet, and a request that adds a fact. -/
def updateAndFact : Nat → Writer
  | 0 => .updateMemory true fun current => some (current ++ "\nname: Ann".toList)
  | _ => .writeMemoryFact "likes tea".toList

def sheetRow : MemoryRow := { content := "lives in Oslo".toList, version := 1 }

/-- The fact is written and committed while the model answers. -/
def factDuringAnswer : List Nat := [0, 0, 1, 1, 1, 1, 1, 0, 0, 0]

/-- The fact is gone, under a version number that it already had. -/
theorem factLost : ¬ NoLostWrite updateAndFact (some sheetRow) factDuringAnswer := by
  intro h
  have hversion := h.2.2.2.1 _ rfl
  exact absurd hversion (by decide)

end Eidetic.Memory
