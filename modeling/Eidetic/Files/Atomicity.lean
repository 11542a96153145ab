import Eidetic.Files.Edit
import Eidetic.Files.Processing

/-!
# File operations that fail

`write_content`, `append_content`, `patch_content` and the `create_file` tool,
with what goes wrong at each step. The file is written before the database, the
snapshot is added to the session before the file is opened, and nothing is
undone: an error leaves the file as it was only if it comes early enough
(`atomic_iff`). `create_file` takes two of the three values that `save_text`
returns, so it never succeeds, and leaves a blob.

What goes wrong is a `Faults`: for each step of an operation the text of its
exception, if it raises. An operation computes its outcome from that, with the
bytes, the database and what its session still holds. The answer is compared
with `Error`, as a caller does; a path that would answer so without a failure is
a failure too.

An edit is `guarded`, which asks for the owner, around `rewrite`, which is
everything from its `save_version` on. So there is one lemma for a refusal
(`guarded_iff`) and one for what an edit leaves (`rewrite_iff`): the file is as
it was if the first failure comes before the open, or what was written is what
there was; the session holds a version unless the file could not be read, and a
commit that fails is followed by nothing. `Harmless` says the same in terms of
the faults and of the file, and `writeContent_iff`, `appendContent_iff`,
`patchContent_iff` are its instances.
-/

namespace Eidetic.Files

open Eidetic.Lib Eidetic.Py
open Eidetic.Stream (commas)

/-- The columns of `files` that an edit reads or sets. -/
structure FileRow where
  userId : Nat
  uploadStatus : Text
  chunkTotal : Option Nat
  chunkEmbedded : Option Nat
  embedFailCount : Nat
deriving DecidableEq

/-- A row that `create_file` adds to `files`. -/
structure NewFile where
  userId : Nat
  filename : Text
  mimeType : Text
  sizeBytes : Nat
  storagePath : Text
  uploadStatus : Text
deriving DecidableEq

/-- What the database has of a file, and what `create_file` adds to it. -/
structure FileDb where
  file : Option FileRow
  versions : List FileVersion := []
  chunks : List Chunk := []
  created : List NewFile := []
  /-- The conversation a new file is attached to. -/
  attached : List Nat := []
deriving DecidableEq

/-- The bytes of the file, the database and the blobs of the storage. -/
structure FileState where
  disk : List UInt8
  db : FileDb
  blobs : List (Text × List UInt8) := []
deriving DecidableEq

/-- A change that a session holds until it commits. -/
inductive FileChange
  | addVersion (v : FileVersion)
  | deleteChunks
  | resetRow
  | addFile (f : NewFile)
  | attach (conversation : Nat)

/-- `upload_status = "uploaded"` and no progress. -/
def FileRow.reset (row : FileRow) : FileRow :=
  { row with
      uploadStatus := "uploaded".toList, chunkTotal := none, chunkEmbedded := none
      embedFailCount := 0 }

def FileDb.apply (db : FileDb) : FileChange → FileDb
  | .addVersion v => { db with versions := db.versions ++ [v] }
  | .deleteChunks => { db with chunks := [] }
  | .resetRow => { db with file := db.file.map FileRow.reset }
  | .addFile f => { db with created := db.created ++ [f] }
  | .attach conversation => { db with attached := db.attached ++ [conversation] }

/-- The database once a session has committed its changes. -/
def FileDb.commit (db : FileDb) (changes : List FileChange) : FileDb :=
  changes.foldl FileDb.apply db

def FileState.commit (s : FileState) (changes : List FileChange) : FileState :=
  { s with db := s.db.commit changes }

/-- How the commit ends. -/
inductive CommitFault
  /-- The flush or the commit fails, and the transaction is rolled back. -/
  | rolledBack (e : Text)
  /-- The transaction is committed and its answer is lost. -/
  | lost (e : Text)
deriving DecidableEq

/-- What goes wrong, each with the text of its exception. -/
structure Faults where
  /-- The read of `patch_content`. -/
  read : Option Text := none
  /-- The count in `save_version`. -/
  count : Option Text := none
  /-- The read in `save_version`. -/
  snapshot : Option Text := none
  /-- The content has no encoding. -/
  encode : Option Text := none
  openFile : Option Text := none
  /-- The write, after so many bytes. -/
  write : Option (Nat × Text) := none
  /-- The flush before the `DELETE`, or the statement; the flush of `create_file`. -/
  statement : Option Text := none
  commit : Option CommitFault := none
deriving DecidableEq

/-- What an operation answers and leaves, with the changes its session holds. -/
structure Outcome where
  result : Text
  state : FileState
  pending : List FileChange := []
  /-- `process_file_async` is started. -/
  enqueued : Bool := false

/-! ## The operations -/

/-- `save_version`: a read that fails is only logged. -/
def saveVersion (faults : Faults) (s : FileState) : Except Text (List FileChange) :=
  match faults.count with
  | some e => .error e
  | none =>
    match faults.snapshot with
    | some _ => .ok []
    | none => .ok [.addVersion ⟨s.db.versions.length + 1, readText s.disk⟩]

/-- The three edits from their `save_version` on. -/
def rewrite (failed answer : Text) (write : DiskWrite) (faults : Faults) (s : FileState) :
    Outcome :=
  match saveVersion faults s with
  | .error e => { result := failed ++ e, state := s }
  | .ok pending =>
    match faults.openFile with
    | some e => { result := failed ++ e, state := s, pending := pending }
    | none =>
      match faults.write with
      | some (n, e) =>
        { result := failed ++ e
          state := { s with disk := write.cut n (write.opened s.disk) }
          pending := pending }
      | none =>
        let s := { s with disk := write.apply s.disk }
        match faults.statement with
        -- a transaction in which a statement has failed can only be rolled back
        | some e => { result := failed ++ e, state := s }
        | none =>
          let pending := pending ++ [.deleteChunks, .resetRow]
          match faults.commit with
          | some (.rolledBack e) => { result := failed ++ e, state := s }
          | some (.lost e) => { result := failed ++ e, state := s.commit pending }
          | none => { result := answer, state := s.commit pending, enqueued := true }

/-- `not f or f.user_id != user_id`. -/
def Denied (s : FileState) (userId : Nat) : Prop :=
  ∀ row, s.db.file = some row → row.userId ≠ userId

instance (s : FileState) (userId : Nat) : Decidable (Denied s userId) :=
  match h : s.db.file with
  | none => isTrue fun _ h' => by rw [h] at h'; exact absurd h' (by simp)
  | some row => decidable_of_iff (row.userId ≠ userId)
      ⟨fun hne _ h' => by rw [h] at h'; exact Option.some.inj h' ▸ hne, fun hall => hall row h⟩

def denied (s : FileState) : Outcome :=
  { result := "Error: file not found or access denied.".toList, state := s }

def writeContent (userId : Nat) (content : Text) (faults : Faults) (s : FileState) : Outcome :=
  if Denied s userId then denied s
  else rewrite "Error writing file: ".toList
    ("File updated (".toList ++ commas content.length ++
      " chars). Re-embedding in background.".toList) (.replace content) faults s

def appendContent (userId : Nat) (content : Text) (faults : Faults) (s : FileState) : Outcome :=
  if Denied s userId then denied s
  else rewrite "Error appending: ".toList
    ("Appended ".toList ++ commas content.length ++
      " chars. Re-embedding in background.".toList) (.append (appended content)) faults s

def patchContent (userId : Nat) (old new : Text) (faults : Faults) (s : FileState) : Outcome :=
  if Denied s userId then denied s
  else
    match faults.read with
    | some e => { result := "Error patching: ".toList ++ e, state := s }
    | none =>
      match fuzzyReplace (readText s.disk) old new with
      | none =>
        { result :=
            "Error: text not found in file. Use read_file to get the exact text, then retry.".toList
          state := s }
      | some updated =>
        rewrite "Error patching: ".toList
          ("Patched: replaced ".toList ++ commas old.length ++ " chars with ".toList ++
            commas new.length ++ " chars. Re-embedding in background.".toList)
          (.replace updated) faults s

/-- A value of the tuple that `save_text` returns. -/
inductive SavedField
  | path (p : Text)
  | size (n : Nat)
  | sha256 (digest : Text)

/-- `STORAGE_DIR`, the next two `uuid4` and `hashlib.sha256`. -/
structure Storage where
  baseDir : Text
  uuid : Text
  fileId : Text
  sha256 : List UInt8 → Text

/-- `StorageManager.save_text`: the blobs, and the tuple or the exception. -/
def saveText (store : Storage) (text filename : Text) (faults : Faults)
    (blobs : List (Text × List UInt8)) : List (Text × List UInt8) × Except Text (List SavedField) :=
  let storagePath := store.baseDir ++ ['/'] ++ store.uuid ++ ['_'] ++ filename
  match faults.encode with
  | some e => (blobs, .error e)
  | none =>
    match faults.openFile with
    | some e => (blobs, .error e)
    | none =>
      match faults.write with
      | some (n, e) => (blobs ++ [(storagePath, (utf8 text).take n)], .error e)
      | none =>
        (blobs ++ [(storagePath, utf8 text)],
          .ok [.path storagePath, .size (utf8 text).length, .sha256 (store.sha256 (utf8 text))])

def createFile (store : Storage) (userId conversation : Nat) (name content : Text) (faults : Faults)
    (s : FileState) : Outcome :=
  let failed := "Error creating file: ".toList
  let (blobs, saved) := saveText store content (name.take 80) faults s.blobs
  let s := { s with blobs := blobs }
  match saved with
  | .error e => { result := failed ++ e, state := s }
  -- `storage_path, size_bytes = …`
  | .ok [.path storagePath, .size sizeBytes] =>
    let pending := [.addFile ⟨userId, name.take 255, "text/plain".toList, sizeBytes, storagePath,
      "uploaded".toList⟩]
    match faults.statement with
    | some e => { result := failed ++ e, state := s }
    | none =>
      let pending := pending ++ [.attach conversation]
      match faults.commit with
      | some (.rolledBack e) => { result := failed ++ e, state := s }
      | some (.lost e) => { result := failed ++ e, state := s.commit pending }
      | none =>
        { result := "File '".toList ++ name ++
            "' created and attached to conversation (id=".toList ++ store.fileId ++
            "). Processing in background.".toList
          state := s.commit pending, enqueued := true }
  | .ok _ => { result := failed ++ "too many values to unpack (expected 2)".toList, state := s }

/-- One call of an operation. -/
inductive FileCall
  | write (userId : Nat) (content : Text)
  | append (userId : Nat) (content : Text)
  | patch (userId : Nat) (old new : Text)
  | create (store : Storage) (userId conversation : Nat) (name content : Text)

def FileCall.run (faults : Faults) (s : FileState) : FileCall → Outcome
  | .write userId content => writeContent userId content faults s
  | .append userId content => appendContent userId content faults s
  | .patch userId old new => patchContent userId old new faults s
  | .create store userId conversation name content =>
    createFile store userId conversation name content faults s

def FileCall.IsCreate : FileCall → Prop
  | .create .. => True
  | _ => False

/-! ## Atomic on failure -/

/-- The result starts with `Error`. -/
def Outcome.Failed (o : Outcome) : Prop := startsWith o.result "Error".toList = true

/-- The file, the database and the storage are as before, and so is the database
after a later commit of the session. -/
structure Outcome.Unchanged (o : Outcome) (s : FileState) : Prop where
  state : o.state = s
  pending : o.state.db.commit o.pending = s.db

/-- A call that fails leaves everything as it was, and `create_file` succeeds
where nothing goes wrong. -/
structure Atomic (call : FileCall) (faults : Faults) (s : FileState) : Prop where
  unchanged : (call.run faults s).Failed → (call.run faults s).Unchanged s
  creates : call.IsCreate → faults = {} → ¬ (call.run faults s).Failed

/-- The first failure comes before anything has changed, or what has changed is
the same as before. -/
def Harmless (write : DiskWrite) (faults : Faults) (s : FileState) : Prop :=
  faults.count.isSome ∨
    match faults.openFile, faults.write, faults.statement, faults.commit with
    -- without a snapshot nothing is in the session
    | some _, _, _, _ => faults.snapshot.isSome
    | none, some (n, _), _, _ => faults.snapshot.isSome ∧ write.cut n (write.opened s.disk) = s.disk
    | none, none, some _, _ => write.apply s.disk = s.disk
    | none, none, none, some (.rolledBack _) => write.apply s.disk = s.disk
    | none, none, none, some (.lost _) =>
      (faults.snapshot.isSome ∧ s.db.chunks = [] ∧ s.db.file.map FileRow.reset = s.db.file) ∧
        write.apply s.disk = s.disk
    | none, none, none, none => True

/-- When a call is atomic. -/
def Spared (faults : Faults) (s : FileState) : FileCall → Prop
  | .write userId content => Denied s userId ∨ Harmless (.replace content) faults s
  | .append userId content => Denied s userId ∨ Harmless (.append (appended content)) faults s
  | .patch userId old new =>
    Denied s userId ∨ faults.read.isSome ∨
      ∀ updated, fuzzyReplace (readText s.disk) old new = some updated →
        Harmless (.replace updated) faults s
  -- refused before there is a blob
  | .create .. => faults.encode.isSome ∨ faults.openFile.isSome

theorem startsWith_append {a p : Text} (h : p.length ≤ a.length) (x : Text) :
    startsWith (a ++ x) p = startsWith a p := by
  unfold startsWith
  rw [Bool.eq_iff_iff, List.isPrefixOf_iff_prefix, List.isPrefixOf_iff_prefix]
  constructor
  · intro hp
    exact List.prefix_of_prefix_length_le hp (List.prefix_append a x) h
  · exact fun hp => hp.trans (List.prefix_append a x)

theorem Outcome.unchanged_self {o : Outcome} {s : FileState} (hstate : o.state = s)
    (hpending : o.pending = []) : o.Unchanged s := by
  refine ⟨hstate, ?_⟩
  rw [hpending, hstate]
  rfl

/-- No change takes a version away. -/
theorem length_versions_le (db : FileDb) (changes : List FileChange) :
    db.versions.length ≤ (db.commit changes).versions.length := by
  induction changes generalizing db with
  | nil => exact Nat.le_refl _
  | cons c changes ih =>
    refine Nat.le_trans ?_ (ih (db.apply c))
    cases c with
    | addVersion v =>
      show db.versions.length ≤ (db.versions ++ [v]).length
      simp
    | deleteChunks => exact Nat.le_refl _
    | resetRow => exact Nat.le_refl _
    | addFile f => exact Nat.le_refl _
    | attach conversation => exact Nat.le_refl _

/-- A version more is a change. -/
theorem commit_addVersion_ne (db : FileDb) (v : FileVersion) (changes : List FileChange) :
    db.commit (.addVersion v :: changes) ≠ db := by
  intro heq
  have hle := length_versions_le (db.apply (.addVersion v)) changes
  rw [show (db.apply (.addVersion v)).commit changes = db from heq] at hle
  change (db.versions ++ [v]).length ≤ db.versions.length at hle
  rw [List.length_append, List.length_singleton] at hle
  omega

theorem commit_reset_iff (db : FileDb) :
    db.commit [.deleteChunks, .resetRow] = db ↔
      db.chunks = [] ∧ db.file.map FileRow.reset = db.file := by
  constructor
  · intro heq
    exact ⟨(congrArg FileDb.chunks heq).symm, congrArg FileDb.file heq⟩
  · rintro ⟨hchunks, hfile⟩
    show ({ db with chunks := [], file := db.file.map FileRow.reset } : FileDb) = db
    rw [hfile, ← hchunks]

/-- The session of an edit has a version unless the file could not be read. -/
theorem saveVersion_ok {faults : Faults} (hcount : faults.count = none) (s : FileState) :
    ∃ pending, saveVersion faults s = .ok pending ∧
      (s.db.commit pending = s.db ↔ faults.snapshot.isSome = true) ∧
      (s.db.commit (pending ++ [.deleteChunks, .resetRow]) = s.db ↔ faults.snapshot.isSome = true ∧
        s.db.chunks = [] ∧ s.db.file.map FileRow.reset = s.db.file) := by
  unfold saveVersion
  rw [hcount]
  cases faults.snapshot with
  | some e =>
    refine ⟨[], rfl, iff_of_true rfl rfl, ?_⟩
    rw [List.nil_append, commit_reset_iff]
    exact (and_iff_right rfl).symm
  | none =>
    refine ⟨_, rfl, iff_of_false (commit_addVersion_ne _ _ _) (by simp), iff_of_false ?_ (by simp)⟩
    exact commit_addVersion_ne _ _ _

theorem unchanged_disk_iff {s : FileState} {disk : List UInt8} {result : Text}
    {pending : List FileChange} :
    Outcome.Unchanged { result := result, state := { s with disk := disk }, pending := pending } s ↔
      s.db.commit pending = s.db ∧ disk = s.disk := by
  constructor
  · rintro ⟨hstate, hpending⟩
    exact ⟨hpending, congrArg FileState.disk hstate⟩
  · rintro ⟨hpending, rfl⟩
    exact ⟨rfl, hpending⟩

theorem unchanged_commit_iff {s : FileState} {disk : List UInt8} {result : Text}
    {pending : List FileChange} :
    Outcome.Unchanged { result := result, state := { s with disk := disk }.commit pending } s ↔
      s.db.commit pending = s.db ∧ disk = s.disk := by
  constructor
  · rintro ⟨hstate, hpending⟩
    exact ⟨hpending, congrArg FileState.disk hstate⟩
  · rintro ⟨hpending, rfl⟩
    refine ⟨?_, hpending⟩
    show ({ s with db := s.db.commit pending } : FileState) = s
    rw [hpending]

/-- What an edit leaves from its `save_version` on. -/
theorem rewrite_iff {failed answer : Text}
    (hfailed : ∀ e, startsWith (failed ++ e) "Error".toList = true)
    (hanswer : startsWith answer "Error".toList = false) (write : DiskWrite) (faults : Faults)
    (s : FileState) :
    ((rewrite failed answer write faults s).Failed →
      (rewrite failed answer write faults s).Unchanged s) ↔ Harmless write faults s := by
  unfold rewrite Harmless
  cases hcount : faults.count with
  | some e =>
    have hsave : saveVersion faults s = .error e := by
      unfold saveVersion
      rw [hcount]
    rw [hsave]
    exact iff_of_true (fun _ => Outcome.unchanged_self rfl rfl) (.inl rfl)
  | none =>
    obtain ⟨pending, hsave, hsnapshot, hreset⟩ := saveVersion_ok hcount s
    rw [hsave, or_iff_right (by simp)]
    dsimp only
    cases faults.openFile with
    | some e =>
      refine (imp_iff_right ?_).trans (unchanged_disk_iff.trans ?_)
      · exact hfailed e
      · exact (and_iff_left rfl).trans hsnapshot
    | none =>
      cases faults.write with
      | some cut =>
        refine (imp_iff_right ?_).trans (unchanged_disk_iff.trans ?_)
        · exact hfailed cut.2
        · exact and_congr_left' hsnapshot
      | none =>
        cases faults.statement with
        | some e =>
          refine (imp_iff_right ?_).trans (unchanged_disk_iff.trans ?_)
          · exact hfailed e
          · exact and_iff_right rfl
        | none =>
          cases faults.commit with
          | some fault =>
            cases fault with
            | rolledBack e =>
              refine (imp_iff_right ?_).trans (unchanged_disk_iff.trans ?_)
              · exact hfailed e
              · exact and_iff_right rfl
            | lost e =>
              refine (imp_iff_right ?_).trans (unchanged_commit_iff.trans ?_)
              · exact hfailed e
              · exact and_congr_left' hreset
          | none =>
            refine iff_of_true (fun herror => ?_) trivial
            exact absurd (show startsWith answer _ = true from herror) (by rw [hanswer]; simp)

/-! ## Every call -/

/-- A call that is refused to all but the owner of the file. -/
theorem guarded_iff {s : FileState} {userId : Nat} {o : Outcome} {P : Prop}
    (h : (o.Failed → o.Unchanged s) ↔ P) :
    ((if Denied s userId then denied s else o).Failed →
      (if Denied s userId then denied s else o).Unchanged s) ↔ Denied s userId ∨ P := by
  split
  next hdenied => exact iff_of_true (fun _ => Outcome.unchanged_self rfl rfl) (.inl hdenied)
  next hallowed => exact h.trans (or_iff_right hallowed).symm

theorem atomic_edit_iff {call : FileCall} (hcall : ¬ call.IsCreate) (faults : Faults)
    (s : FileState) : Atomic call faults s ↔
      ((call.run faults s).Failed → (call.run faults s).Unchanged s) :=
  ⟨fun h => h.unchanged, fun h => ⟨h, fun hcreate => absurd hcreate hcall⟩⟩

theorem writeContent_iff (userId : Nat) (content : Text) (faults : Faults) (s : FileState) :
    ((writeContent userId content faults s).Failed →
      (writeContent userId content faults s).Unchanged s) ↔
      Denied s userId ∨ Harmless (.replace content) faults s := by
  refine guarded_iff (rewrite_iff (fun e => ?_) ?_ _ faults s)
  · rw [startsWith_append (by decide)]
    decide
  · rw [List.append_assoc, startsWith_append (by decide)]
    decide

theorem appendContent_iff (userId : Nat) (content : Text) (faults : Faults) (s : FileState) :
    ((appendContent userId content faults s).Failed →
      (appendContent userId content faults s).Unchanged s) ↔
      Denied s userId ∨ Harmless (.append (appended content)) faults s := by
  refine guarded_iff (rewrite_iff (fun e => ?_) ?_ _ faults s)
  · rw [startsWith_append (by decide)]
    decide
  · rw [List.append_assoc, startsWith_append (by decide)]
    decide

theorem patchContent_iff (userId : Nat) (old new : Text) (faults : Faults) (s : FileState) :
    ((patchContent userId old new faults s).Failed →
      (patchContent userId old new faults s).Unchanged s) ↔
      Denied s userId ∨ faults.read.isSome ∨
        ∀ updated, fuzzyReplace (readText s.disk) old new = some updated →
          Harmless (.replace updated) faults s := by
  refine guarded_iff ?_
  split
  next e hread =>
    rw [hread]
    exact iff_of_true (fun _ => Outcome.unchanged_self rfl rfl) (.inl rfl)
  next hread =>
    rw [hread, or_iff_right (by simp)]
    split
    next hfound =>
      rw [hfound]
      exact iff_of_true (fun _ => Outcome.unchanged_self rfl rfl) (by simp)
    next updated hfound =>
      rw [hfound]
      refine (rewrite_iff (fun e => ?_) ?_ _ faults s).trans ?_
      · rw [startsWith_append (by decide)]
        decide
      · rw [List.append_assoc, List.append_assoc, List.append_assoc,
          startsWith_append (by decide)]
        decide
      · constructor
        · intro h _ heq
          exact Option.some.inj heq ▸ h
        · exact fun h => h updated rfl

/-- `create_file` always answers with an error. -/
theorem createFile_failed (store : Storage) (userId conversation : Nat) (name content : Text)
    (faults : Faults) (s : FileState) :
    (createFile store userId conversation name content faults s).Failed := by
  unfold createFile saveText Outcome.Failed
  cases faults.encode with
  | some e => exact (startsWith_append (by decide) _).trans (by decide)
  | none =>
    cases faults.openFile with
    | some e => exact (startsWith_append (by decide) _).trans (by decide)
    | none =>
      cases faults.write with
      | some cut => exact (startsWith_append (by decide) _).trans (by decide)
      | none => exact (startsWith_append (by decide) _).trans (by decide)

theorem not_unchanged_of_blob {o : Outcome} {s : FileState} {blob : Text × List UInt8}
    (h : o.state.blobs = s.blobs ++ [blob]) : ¬ o.Unchanged s := by
  intro hunchanged
  rw [hunchanged.state] at h
  exact absurd (congrArg List.length h) (by simp)

/-- And it leaves a blob unless it is refused before. -/
theorem createFile_blobs (store : Storage) (userId conversation : Nat) (name content : Text)
    (faults : Faults) (s : FileState) :
    (createFile store userId conversation name content faults s).Unchanged s ↔
      faults.encode.isSome ∨ faults.openFile.isSome := by
  unfold createFile saveText
  cases faults.encode with
  | some e => exact iff_of_true (Outcome.unchanged_self rfl rfl) (.inl rfl)
  | none =>
    cases faults.openFile with
    | some e => exact iff_of_true (Outcome.unchanged_self rfl rfl) (.inr rfl)
    | none =>
      cases faults.write with
      | some cut => exact iff_of_false (not_unchanged_of_blob rfl) (by simp)
      | none => exact iff_of_false (not_unchanged_of_blob rfl) (by simp)

theorem atomic_iff (call : FileCall) (faults : Faults) (s : FileState) :
    Atomic call faults s ↔ Spared faults s call := by
  cases call with
  | write userId content =>
    exact (atomic_edit_iff id faults s).trans (writeContent_iff userId content faults s)
  | append userId content =>
    exact (atomic_edit_iff id faults s).trans (appendContent_iff userId content faults s)
  | patch userId old new =>
    exact (atomic_edit_iff id faults s).trans (patchContent_iff userId old new faults s)
  | create store userId conversation name content =>
    have hfailed := createFile_failed store userId conversation name content faults s
    have hblobs := createFile_blobs store userId conversation name content faults s
    constructor
    · exact fun h => hblobs.mp (h.unchanged hfailed)
    · intro h
      refine ⟨fun _ => hblobs.mpr h, ?_⟩
      rintro _ rfl
      rcases h with h | h
      · exact absurd h (by simp)
      · exact absurd h (by simp)

/-- A new note in a store where nothing goes wrong. -/
def newNote : FileCall :=
  .create ⟨"storage".toList, "u".toList, "v".toList, fun _ => []⟩ 1 1 "note.txt".toList
    "hello".toList

theorem newNote_fails : ¬ ∀ call faults s, Atomic call faults s := by
  intro h
  exact (h newNote {} ⟨[], ⟨none, [], [], [], []⟩, []⟩).creates trivial rfl (createFile_failed ..)

/-- A write to a full disk truncates the file, and its version is in the session. -/
example :
    (writeContent 1 "new".toList { write := some (0, "No space left on device".toList) }
      ⟨utf8 "old".toList, { file := some ⟨1, "ready".toList, some 1, some 1, 0⟩ }, []⟩).state.disk =
      [] := by
  decide

end Eidetic.Files
