import Eidetic.Memory.LostWrite

/-!
# The history of the memory sheet

The operations on one user's sheet, one after another, with the rows of
`user_memory_versions` they leave. Each but two stores the sheet it is about to
overwrite and takes the next version. Resolving a conflict overwrites the sheet
without storing it, and a backup stores it without a new version, so that the
next operation stores the same version again. The history is complete exactly
in the runs where neither matters (`complete_iff`).

Every operation is three things: what it computes from the row it has read, what
it stores of that row before, and what it leaves; so each is described once
(`Operation.compute_version`, `Operation.snapshot_cases`), and `step_row` and
`run_versions` say from this that versions only grow. `Complete` has four parts.
Restores are exact in any state (`restores`) and versions grow in every run.
That no version is stored twice, and that what is overwritten is stored, are
carried by the induction along safe steps (`Safe.distinct`, `Safe.stored`); and
a step that is not safe breaks one of the two, which later steps do not repair
(`safe_of_complete`).
-/

namespace Eidetic.Memory

open Eidetic.Lib Eidetic.Py

/-- A row of `user_memory_versions`. -/
structure Snapshot where
  version : Nat
  content : Text
  projectSummary : Text
deriving DecidableEq

/-- The snapshot that is taken of a sheet. -/
def Snapshot.of (row : MemoryRow) : Snapshot :=
  ⟨row.version, row.content, row.projectSummary.getD []⟩

/-- A user's sheet, if there is one, and the snapshots, oldest first. -/
structure History where
  row : Option MemoryRow := none
  versions : List Snapshot := []

/-- An operation with what it is called with and what a model answers. -/
inductive Operation
  | writeMemory (content projectSummary : Text)
  | writeMemoryFact (body : Text)
  | updateMemory (newMessages : Bool) (answer : Text → Option Text)
  | restructureMemory (answer : Text → Option Text)
  | compactMemory (answer : Text → Option Text)
  | extractPreferences (template : Text → Option Text) (prefBlock : Text)
  | updateProjectSummary (summaries : Bool) (answer : Text → Option Text)
  | resolveConflict (strategy : Strategy) (factA factB : Text)
  | backupUser
  | hardReset
  /-- Of the snapshot at a place among the user's. -/
  | memoryRestore (index : Nat)

/-- The summary a model has answered with, if it has one. -/
def updatedSummary (answer : Option Text) : Option Text :=
  let updated := strip (answer.getD [])
  if updated.isEmpty ∨ updated = "NO_UPDATE".toList then none else some (truncate updated 300)

/-- `_update_project_summary`; it returns at once when there are no summaries. -/
def updateProjectSummary (summaries : Bool) (answer : Text → Option Text) :
    Option MemoryRow → Option MemoryRow
  | some row =>
    if summaries then
      (updatedSummary (answer (row.projectSummary.getD []))).map fun updated =>
        { row with projectSummary := some updated, version := row.version + 1 }
    else none
  | none =>
    if summaries then
      (updatedSummary (answer [])).map fun updated =>
        { content := [], projectSummary := some updated, version := 1 }
    else none

/-- `_hard_reset`. -/
def hardReset : Option MemoryRow → Option MemoryRow
  | some row =>
    some
      { row with
        content := "[USER]\n".toList, projectSummary := some [], version := row.version + 1
        salience := 0, confidence := 0 }
  | none => none

/-- The row an operation writes, if it writes one. -/
def Operation.compute (s : History) : Operation → Option MemoryRow
  | .writeMemory content projectSummary => some (Memory.writeMemory content projectSummary s.row)
  | .writeMemoryFact body => some (Memory.writeMemoryFact body s.row)
  | .updateMemory newMessages answer => Memory.updateMemory newMessages answer s.row
  | .restructureMemory answer => Memory.restructureMemory answer s.row
  | .compactMemory answer => Memory.compactMemory answer s.row
  | .extractPreferences template prefBlock => Memory.extractPreferences template prefBlock s.row
  | .updateProjectSummary summaries answer => Memory.updateProjectSummary summaries answer s.row
  | .resolveConflict strategy factA factB => Memory.resolveConflict strategy factA factB s.row
  | .backupUser => none
  | .hardReset => Memory.hardReset s.row
  | .memoryRestore index =>
    s.versions[index]?.bind fun v =>
      Memory.memoryRestore v.content (some v.projectSummary) s.row

/-- The snapshot an operation stores, if it stores one. -/
def Operation.snapshot (s : History) : Operation → Option Snapshot
  | .backupUser => s.row.bind fun row => if row.content.isEmpty then none else some (.of row)
  | .resolveConflict .. => none
  -- a missing row is inserted with version 0 and stored like any other
  | .extractPreferences template prefBlock =>
    (Memory.extractPreferences template prefBlock s.row).map fun _ =>
      (s.row.map Snapshot.of).getD ⟨0, [], []⟩
  | op => (op.compute s).bind fun _ => s.row.map Snapshot.of

/-- What an operation leaves once it is committed. -/
def History.step (s : History) (op : Operation) : History where
  row := (op.compute s).or s.row
  versions := s.versions ++ (op.snapshot s).toList

/-- Everything of a sheet that a snapshot holds. -/
def MemoryRow.sheet (row : MemoryRow) : Text × Text := (row.content, row.projectSummary.getD [])

/-- The rows a run has written, each with the row it was written over. -/
def overwrites (s : History) : List Operation → List (MemoryRow × MemoryRow)
  | [] => []
  | op :: ops =>
    (match s.row, op.compute s with
      | some old, some new => [(old, new)]
      | _, _ => []) ++ overwrites (s.step op) ops

/-- A restore leaves the sheet of its snapshot. -/
def Restores (s : History) : Operation → Prop
  | .memoryRestore index =>
    ∀ v row, s.versions[index]? = some v → s.row = some row →
      ∃ new, (s.step (.memoryRestore index)).row = some new ∧
        new.sheet = (v.content, v.projectSummary)
  | _ => True

/-- The history of a run: what was overwritten is stored under its version, no
version is stored twice, changes take higher versions, and restores are exact. -/
structure Complete (s : History) (ops : List Operation) : Prop where
  stored : ∀ c ∈ overwrites s ops, c.2.sheet ≠ c.1.sheet →
    Snapshot.of c.1 ∈ (run History.step s ops).versions
  distinct : ((run History.step s ops).versions.map (·.version)).Nodup
  grows : ∀ c ∈ overwrites s ops, c.2.sheet ≠ c.1.sheet → c.1.version < c.2.version
  restores : Throughout History.step Restores s ops

/-- A step that neither stores a version again nor resolves a conflict by
changing a sheet that is not stored. -/
structure Safe (s : History) (op : Operation) : Prop where
  fresh : ∀ v, op.snapshot s = some v → v.version ∉ s.versions.map (·.version)
  resolve : ∀ strategy factA factB, op = .resolveConflict strategy factA factB →
    ∀ old new, s.row = some old → op.compute s = some new → new.sheet ≠ old.sheet →
      Snapshot.of old ∈ s.versions

/-! ## What a step does -/

theorem updateProjectSummary_rewrites {summaries : Bool} {answer : Text → Option Text}
    {seen : Option MemoryRow} {new : MemoryRow}
    (h : updateProjectSummary summaries answer seen = some new) : Rewrites seen new := by
  unfold updateProjectSummary at h
  split at h
  next old =>
    split at h
    next =>
      obtain ⟨_, _, rfl⟩ := Option.map_eq_some_iff.mp h
      exact .kept old rfl rfl rfl rfl
    next => exact absurd h (by simp)
  next =>
    split at h
    next =>
      obtain ⟨_, _, rfl⟩ := Option.map_eq_some_iff.mp h
      exact .inserted rfl rfl rfl rfl
    next => exact absurd h (by simp)

/-- A reset takes the next version and clears the numbers. -/
theorem hardReset_cases {seen : Option MemoryRow} {new : MemoryRow}
    (h : hardReset seen = some new) :
    ∃ old, seen = some old ∧ new.version = old.version + 1 ∧
      new.salience = 0 ∧ new.confidence = 0 := by
  unfold hardReset at h
  split at h
  next old =>
    obtain rfl := Option.some.inj h
    exact ⟨old, rfl, rfl, rfl, rfl⟩
  next => exact absurd h (by simp)

/-- Every row that is written has the next version. -/
theorem Operation.compute_version {s : History} {op : Operation} {new : MemoryRow}
    (h : op.compute s = some new) : new.version = bump MemoryRow.version s.row := by
  cases op with
  | writeMemory content projectSummary =>
    exact Memory.compute_version (.writeMemory content projectSummary) h
  | writeMemoryFact body => exact Memory.compute_version (.writeMemoryFact body) h
  | updateMemory newMessages answer => exact (updateMemory_rewrites h).version_eq
  | restructureMemory answer => exact (restructureMemory_rewrites h).version_eq
  | compactMemory answer => exact compactMemory_version h
  | extractPreferences template prefBlock => exact (extractPreferences_rewrites h).version_eq
  | updateProjectSummary summaries answer => exact (updateProjectSummary_rewrites h).version_eq
  | resolveConflict strategy factA factB => exact (resolveConflict_rewrites h).version_eq
  | backupUser => exact absurd h (by simp [Operation.compute])
  | hardReset =>
    obtain ⟨old, hrow, hversion, _⟩ := hardReset_cases h
    rw [hversion, hrow]
    rfl
  | memoryRestore index =>
    obtain ⟨v, _, hv⟩ := Option.bind_eq_some_iff.mp h
    exact (memoryRestore_rewrites hv).version_eq

/-- What is stored is the sheet there is, or the empty one that is inserted. -/
theorem Operation.snapshot_cases {s : History} {op : Operation} {v : Snapshot}
    (h : op.snapshot s = some v) :
    (∃ row, s.row = some row ∧ v = .of row) ∨
      (s.row = none ∧ v.version = 0 ∧ ∃ new, op.compute s = some new) := by
  have hkept : ∀ op : Operation, ((op.compute s).bind fun _ => s.row.map Snapshot.of) = some v →
      ∃ row, s.row = some row ∧ v = .of row := by
    intro op hbind
    obtain ⟨_, _, hmap⟩ := Option.bind_eq_some_iff.mp hbind
    obtain ⟨row, hrow, hv⟩ := Option.map_eq_some_iff.mp hmap
    exact ⟨row, hrow, hv.symm⟩
  cases op with
  | backupUser =>
    obtain ⟨row, hrow, hv⟩ := Option.bind_eq_some_iff.mp h
    split at hv
    next => exact absurd hv (by simp)
    next => exact Or.inl ⟨row, hrow, (Option.some.inj hv).symm⟩
  | resolveConflict strategy factA factB => exact absurd h (by simp [Operation.snapshot])
  | extractPreferences template prefBlock =>
    obtain ⟨new, hnew, hv⟩ := Option.map_eq_some_iff.mp h
    cases hrow : s.row with
    | some row =>
      rw [hrow] at hv
      exact Or.inl ⟨row, rfl, hv.symm⟩
    | none =>
      rw [hrow] at hv
      exact Or.inr ⟨rfl, hv ▸ rfl, new, hnew⟩
  | writeMemory content projectSummary =>
    exact Or.inl (hkept (.writeMemory content projectSummary) h)
  | writeMemoryFact body => exact Or.inl (hkept (.writeMemoryFact body) h)
  | updateMemory newMessages answer => exact Or.inl (hkept (.updateMemory newMessages answer) h)
  | restructureMemory answer => exact Or.inl (hkept (.restructureMemory answer) h)
  | compactMemory answer => exact Or.inl (hkept (.compactMemory answer) h)
  | updateProjectSummary summaries answer =>
    exact Or.inl (hkept (.updateProjectSummary summaries answer) h)
  | hardReset => exact Or.inl (hkept (.hardReset) h)
  | memoryRestore index => exact Or.inl (hkept (.memoryRestore index) h)

/-- Every operation but the resolution of a conflict stores what it overwrites. -/
theorem Operation.snapshot_of_compute {s : History} {op : Operation} {old new : MemoryRow}
    (hop : ∀ strategy factA factB, op ≠ .resolveConflict strategy factA factB)
    (hrow : s.row = some old) (hnew : op.compute s = some new) :
    op.snapshot s = some (.of old) := by
  have hkept : (op.compute s).bind (fun _ => s.row.map Snapshot.of) = some (.of old) := by
    rw [hnew, hrow]
    rfl
  cases op with
  | resolveConflict strategy factA factB => exact absurd rfl (hop strategy factA factB)
  | backupUser => exact absurd hnew (by simp [Operation.compute])
  | extractPreferences template prefBlock =>
    have hpref : Memory.extractPreferences template prefBlock s.row = some new := hnew
    show (Memory.extractPreferences template prefBlock s.row).map _ = _
    rw [hpref, hrow]
    rfl
  | writeMemory content projectSummary => exact hkept
  | writeMemoryFact body => exact hkept
  | updateMemory newMessages answer => exact hkept
  | restructureMemory answer => exact hkept
  | compactMemory answer => exact hkept
  | updateProjectSummary summaries answer => exact hkept
  | hardReset => exact hkept
  | memoryRestore index => exact hkept

/-- The sheet of the row stays or takes the next version. -/
theorem step_row {s : History} {row : MemoryRow} (hrow : s.row = some row) (op : Operation) :
    ∃ new, (s.step op).row = some new ∧ row.version ≤ new.version ∧
      (∀ written, op.compute s = some written → new = written ∧ new.version = row.version + 1) := by
  unfold History.step
  cases hnew : op.compute s with
  | none => exact ⟨row, by rw [hrow]; rfl, Nat.le_refl _, fun _ h => absurd h (by simp)⟩
  | some new =>
    have hversion : new.version = row.version + 1 := by
      rw [Operation.compute_version hnew, hrow]
      rfl
    refine ⟨new, rfl, by omega, ?_⟩
    intro written hwritten
    exact ⟨Option.some.inj hwritten, hversion⟩

/-! ## Runs -/

/-- What is stored later has no lower version than the sheet there is. -/
theorem run_versions {s : History} {row : MemoryRow} (hrow : s.row = some row)
    (ops : List Operation) :
    ∃ more, (run History.step s ops).versions = s.versions ++ more ∧
      ∀ v ∈ more, row.version ≤ v.version := by
  induction ops generalizing s row with
  | nil => exact ⟨[], (List.append_nil _).symm, by simp⟩
  | cons op ops ih =>
    obtain ⟨new, hnew, hle, _⟩ := step_row hrow op
    obtain ⟨more, hmore, hversions⟩ := ih hnew
    refine ⟨(op.snapshot s).toList ++ more, ?_, ?_⟩
    · rw [run, hmore]
      exact List.append_assoc ..
    · intro v hv
      rcases List.mem_append.mp hv with hv | hv
      · rcases op.snapshot_cases (Option.mem_toList.mp hv) with ⟨row', hrow', rfl⟩ | ⟨hnone, _⟩
        · rw [hrow] at hrow'
          obtain rfl := Option.some.inj hrow'
          exact Nat.le_refl _
        · exact absurd hrow (by rw [hnone]; simp)
      · exact Nat.le_trans hle (hversions v hv)

theorem versions_subset (s : History) (ops : List Operation) :
    ∃ more, (run History.step s ops).versions = s.versions ++ more := by
  induction ops generalizing s with
  | nil => exact ⟨[], (List.append_nil _).symm⟩
  | cons op ops ih =>
    obtain ⟨more, hmore⟩ := ih (s.step op)
    refine ⟨(op.snapshot s).toList ++ more, ?_⟩
    rw [run, hmore]
    exact List.append_assoc ..

/-- Every restore is exact, in any state. -/
theorem restores (s : History) (op : Operation) : Restores s op := by
  cases op with
  | memoryRestore index =>
    intro v row hv hrow
    have hnew : (Operation.memoryRestore index).compute s
        = Memory.memoryRestore v.content (some v.projectSummary) (some row) := by
      show s.versions[index]?.bind _ = _
      rw [hv, hrow]
      rfl
    unfold History.step
    rw [hnew]
    exact ⟨_, rfl, rfl⟩
  | _ => trivial

theorem throughout_restores (s : History) (ops : List Operation) :
    Throughout History.step Restores s ops := by
  induction ops generalizing s with
  | nil => trivial
  | cons op ops ih => exact ⟨restores s op, ih _⟩

/-- Rows that are written over rows have the next version. -/
theorem overwrites_version {s : History} {ops : List Operation} {c : MemoryRow × MemoryRow}
    (hc : c ∈ overwrites s ops) : c.2.version = c.1.version + 1 := by
  induction ops generalizing s with
  | nil => exact absurd hc (by simp [overwrites])
  | cons op ops ih =>
    unfold overwrites at hc
    rcases List.mem_append.mp hc with hc | hc
    · split at hc
      next old new hold hnew =>
        obtain rfl := List.mem_singleton.mp hc
        rw [Operation.compute_version hnew, hold]
        rfl
      next => exact absurd hc (by simp)
    · exact ih hc

/-- A safe step keeps the stored versions apart. -/
theorem Safe.distinct {s : History} {op : Operation} (h : Safe s op)
    (hs : (s.versions.map (·.version)).Nodup) :
    ((s.step op).versions.map (·.version)).Nodup := by
  unfold History.step
  rw [List.map_append]
  cases hv : op.snapshot s with
  | none => simpa using hs
  | some v =>
    refine List.nodup_append.mpr ⟨hs, by simp, ?_⟩
    intro n hn m hm heq
    obtain rfl : m = v.version := by simpa using hm
    exact h.fresh v hv (heq ▸ hn)

/-- What a safe step overwrites is stored with it or was stored before. -/
theorem Safe.stored {s : History} {op : Operation} (h : Safe s op) {old new : MemoryRow}
    (hrow : s.row = some old) (hnew : op.compute s = some new) (hsheet : new.sheet ≠ old.sheet) :
    Snapshot.of old ∈ (s.step op).versions := by
  by_cases hop : ∃ strategy factA factB, op = .resolveConflict strategy factA factB
  · obtain ⟨strategy, factA, factB, hop⟩ := hop
    exact List.mem_append_left _ (h.resolve strategy factA factB hop old new hrow hnew hsheet)
  · have hsnapshot := Operation.snapshot_of_compute
      (fun strategy factA factB heq => hop ⟨strategy, factA, factB, heq⟩) hrow hnew
    refine List.mem_append_right _ ?_
    rw [hsnapshot]
    simp

theorem complete_of_safe {s : History} (hs : (s.versions.map (·.version)).Nodup)
    {ops : List Operation} (h : Throughout History.step Safe s ops) : Complete s ops := by
  refine ⟨?_, ?_, fun c hc _ => by rw [overwrites_version hc]; omega, throughout_restores s ops⟩
  · induction ops generalizing s with
    | nil => exact fun c hc => absurd hc (by simp [overwrites])
    | cons op ops ih =>
      intro c hc hsheet
      unfold overwrites at hc
      rcases List.mem_append.mp hc with hc | hc
      · split at hc
        next old new hold hnew =>
          obtain rfl := List.mem_singleton.mp hc
          obtain ⟨more, hmore⟩ := versions_subset (s.step op) ops
          rw [run, hmore]
          exact List.mem_append_left _ (h.1.stored hold hnew hsheet)
        next => exact absurd hc (by simp)
      · exact ih (h.1.distinct hs) h.2 c hc hsheet
  · exact run_invariant (fun s : History => (s.versions.map (·.version)).Nodup)
      (fun s op hs hop => hop.distinct hs) hs h

/-- A complete history has been safe from the first step on. -/
theorem safe_of_complete {s : History} {ops : List Operation} (h : Complete s ops) :
    Throughout History.step Safe s ops := by
  induction ops generalizing s with
  | nil => trivial
  | cons op ops ih =>
    obtain ⟨more, hmore⟩ := versions_subset (s.step op) ops
    have hfinal : (run History.step s (op :: ops)).versions
        = s.versions ++ ((op.snapshot s).toList ++ more) := by
      rw [run, hmore]
      exact List.append_assoc ..
    refine ⟨⟨?_, ?_⟩, ih ⟨?_, h.distinct, ?_, h.restores.2⟩⟩
    · intro v hv hmem
      have hdistinct := h.distinct
      rw [hfinal, hv, List.map_append] at hdistinct
      exact (List.nodup_append.mp hdistinct).2.2 _ hmem v.version (by simp) rfl
    · intro strategy factA factB hop old new hrow hnew hsheet
      have hstored : Snapshot.of old ∈ (run History.step s (op :: ops)).versions := by
        refine h.stored (old, new) ?_ hsheet
        unfold overwrites
        rw [hrow, hnew]
        exact List.mem_append_left _ (List.mem_singleton.mpr rfl)
      -- what is stored after the resolution has a higher version
      obtain ⟨row, hrow', _, hwritten⟩ := step_row hrow op
      obtain ⟨later, hlater, hversions⟩ := run_versions hrow' ops
      have hnone : op.snapshot s = none := by rw [hop]; rfl
      rw [run, hlater] at hstored
      rcases List.mem_append.mp hstored with hmem | hmem
      · unfold History.step at hmem
        rw [hnone] at hmem
        simpa using hmem
      · have hle := hversions _ hmem
        have hnext := (hwritten new hnew).2
        exact absurd hle (by unfold Snapshot.of; dsimp only; omega)
    · exact fun c hc => h.stored c (List.mem_append_right _ hc)
    · exact fun c hc => h.grows c (List.mem_append_right _ hc)

/-- The history of a user is complete exactly when every step has been safe. -/
theorem complete_iff (ops : List Operation) :
    Complete {} ops ↔ Throughout History.step Safe {} ops :=
  ⟨safe_of_complete, complete_of_safe (by simp)⟩

/-- Of two facts that are written one is resolved away, and the sheet that had both
is stored nowhere. -/
def resolvedAway : List Operation :=
  [.writeMemoryFact "likes tea".toList, .writeMemoryFact "hates tea".toList,
    .resolveConflict .keepA "hates tea".toList "likes tea".toList]

theorem resolvedAway_lost : ¬ ∀ ops, Complete {} ops := by
  intro h
  have hstored := (h resolvedAway).stored
    ({ content := "likes tea\nhates tea".toList, version := 2, salience := addDouble (1 / 10) (1 / 10) },
      { content := "hates tea".toList, version := 3, salience := addDouble (1 / 10) (1 / 10) })
    (by decide +kernel) (by decide)
  exact absurd hstored (by decide)

end Eidetic.Memory
