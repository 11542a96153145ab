import Eidetic.Files.Atomicity
import Eidetic.Files.Versions
import Eidetic.Lib.Rows
import Eidetic.Py.Url

/-!
# The size and the hash of a file

`upload_file` and `ingest_url` record the size and the SHA-256 hash of what they
save, and answer with the file that has this hash already, if the user has one.
`write_content`, `append_content` and `patch_content`, and a restore with them,
change the bytes and leave the two columns. They stay true exactly as long as no
edit changes the size or the hash of its file (`metadata_iff`).

`sha256` is a parameter without a hypothesis. So the part of the claim about
duplicates is about the hash and the content that is really there: who is told
that a file is there already gets one with the content that was uploaded, unless
another content has the same hash, which is what `Distinguishes` excludes, and
only where the upload comes to the lookup.

Beside the property there is an invariant that every step keeps, whether the
metadata is true or not: ids and paths have been given out, every file has a
blob at a path of its own, and a user has one file with a hash
(`FileLibrary.Sound`). With it one step keeps the property exactly when it meets
the condition (`next_true_iff`). An upload records what it has saved; what a
deletion or `create_file` leaves behind is at the path of no file (`SameFiles`);
and an edit writes the bytes and not the columns, so the size and the hash of
the new bytes have to be those of the old (`SameDigest`).
-/

namespace Eidetic.Files

open Eidetic.Lib Eidetic.Py

/-- A row of `files`, with the versions and the chunks of the file. -/
structure FileRecord extends FileRow where
  id : Nat
  filename : Text
  mimeType : Text
  mediaType : Text := "document".toList
  sizeBytes : Nat
  /-- By the `uuid4` that it begins with. -/
  storagePath : Nat
  sha256Hash : Option Text := none
  versions : List FileVersion := []
  chunks : List Chunk := []

/-- An answer with `duplicate`: what was uploaded, and the content of the file. -/
structure Duplicate where
  uploaded : List UInt8
  content : Option (List UInt8)
deriving DecidableEq

structure FileLibrary where
  files : Rows FileRecord.id := Rows.empty
  disk : Nat → Option (List UInt8) := fun _ => none
  /-- No `uuid4` has been this one or a later one. -/
  fresh : Nat := 0
  duplicates : List Duplicate := []

/-! ## Uploads -/

/-- What goes wrong in `upload_file` and `ingest_url`. -/
structure UploadFaults where
  /-- The save, after so many bytes. -/
  save : Option Nat := none
  select : Bool := false
  unlink : Bool := false
  commit : Bool := false

/-- A blob under a new path. -/
def FileLibrary.saveBlob (s : FileLibrary) (bytes : List UInt8) : FileLibrary :=
  { s with disk := Function.update s.disk s.fresh (some bytes), fresh := s.fresh + 1 }

def FileLibrary.unlink (s : FileLibrary) (path : Nat) : FileLibrary :=
  { s with disk := Function.update s.disk path none }

/-- A row with a new id. -/
def FileLibrary.addFile (s : FileLibrary) (f : FileRecord) : FileLibrary :=
  { s with files := s.files.insert { f with id := s.fresh }, fresh := s.fresh + 1 }

def FileLibrary.answerDuplicate (s : FileLibrary) (bytes : List UInt8) (f : FileRecord) :
    FileLibrary :=
  { s with duplicates := s.duplicates ++ [⟨bytes, s.disk f.storagePath⟩] }

/-- The file of the user with this hash. -/
def FileLibrary.existing (s : FileLibrary) (userId : Nat) (sha256 : Text) : Option FileRecord :=
  s.files.list.find? fun f => f.userId = userId ∧ f.sha256Hash = some sha256

/-- The columns that a new row does not get from the request. -/
def newRow (userId : Nat) : FileRow := ⟨userId, "uploaded".toList, none, none, 0⟩

/-- From the save on: the blob of a duplicate is removed. -/
def FileLibrary.store (s : FileLibrary) (sha256 : List UInt8 → Text) (userId : Nat)
    (filename mimeType mediaType : Text) (bytes : List UInt8) (faults : UploadFaults) :
    FileLibrary :=
  match faults.save with
  | some n => s.saveBlob (bytes.take n)
  | none =>
    if faults.select then s.saveBlob bytes
    else
      match s.existing userId (sha256 bytes) with
      | some f =>
        if faults.unlink then s.saveBlob bytes
        else ((s.saveBlob bytes).unlink s.fresh).answerDuplicate bytes f
      | none =>
        if faults.commit then s.saveBlob bytes
        else
          (s.saveBlob bytes).addFile
            { newRow userId with
              id := 0, filename := filename, mimeType := mimeType, mediaType := mediaType
              sizeBytes := bytes.length, storagePath := s.fresh, sha256Hash := some (sha256 bytes) }

/-- `MAX_FILE_SIZE`. -/
def maxFileSize : Nat := 50 * 1024 * 1024

/-- `file.size and file.size > MAX_FILE_SIZE`. -/
def tooLarge (size : Option Nat) : Bool := size.any fun n => maxFileSize < n

/-- An upload: its filename, its content type, the size it declares, its bytes. -/
structure Upload where
  filename : Text
  contentType : Option Text
  size : Option Nat
  bytes : List UInt8

def FileLibrary.uploadFile (s : FileLibrary) (sha256 : List UInt8 → Text) (userId : Nat)
    (file : Upload) (faults : UploadFaults) : FileLibrary :=
  if tooLarge file.size then s
  else
    let mt := match file.contentType with
      | some (c :: rest) => c :: rest
      | _ => "application/octet-stream".toList
    s.store sha256 userId file.filename mt
      (if startsWith mt "image/".toList then "image".toList else "document".toList) file.bytes
      faults

/-- With the text and the title of the page. -/
def FileLibrary.ingestUrl (s : FileLibrary) (sha256 : List UInt8 → Text) (userId : Nat)
    (url text title : Text) (faults : UploadFaults) : FileLibrary :=
  let url := strip url
  if isHttp url = false then s
  else if (strip text).isEmpty then s
  else
    let filename := strip (if title.isEmpty then url.take 255 else title.take 255)
    s.store sha256 userId filename "text/plain".toList "document".toList (utf8 text) faults

/-! ## Edits and deletions -/

/-- What `create_file` leaves: blobs, and rows without a hash. -/
def FileLibrary.createFile (s : FileLibrary) (store : Storage) (userId conversation : Nat)
    (name content : Text) (faults : Faults) : FileLibrary :=
  let o := Files.createFile store userId conversation name content faults
    { disk := [], db := { file := none } }
  o.state.db.created.foldl
    (fun t f => t.addFile
      { newRow f.userId with
        id := 0, filename := f.filename, mimeType := f.mimeType, sizeBytes := f.sizeBytes
        storagePath := s.fresh })
    (o.state.blobs.foldl (fun t blob => t.saveBlob blob.2) s)

/-- The file as an edit finds it. -/
def FileRecord.state (f : FileRecord) (bytes : List UInt8) : FileState :=
  { disk := bytes
    db := { file := some f.toFileRow, versions := f.versions, chunks := f.chunks } }

/-- The columns that an edit sets. -/
def FileRecord.after (f : FileRecord) (db : FileDb) : FileRecord :=
  let row := db.file.getD f.toFileRow
  { f with
    uploadStatus := row.uploadStatus, chunkTotal := row.chunkTotal
    chunkEmbedded := row.chunkEmbedded, embedFailCount := row.embedFailCount
    versions := db.versions, chunks := db.chunks }

/-- With `flushed`, the session commits later what it holds. -/
def FileLibrary.edited (s : FileLibrary) (f : FileRecord) (o : Outcome) (flushed : Bool) :
    FileLibrary :=
  let db := if flushed then o.state.db.commit o.pending else o.state.db
  { s with
    files := s.files.updateAt f.id (fun r => r.after db) fun _ => rfl
    disk := Function.update s.disk f.storagePath (some o.state.disk) }

/-- The call of an edit; `restore_version` calls `write_content`. -/
def FileEdit.call (userId : Nat) : FileEdit → FileCall
  | .write content => .write userId content
  | .append content => .append userId content
  | .patch old new => .patch userId old new
  | .restore content => .write userId content

def FileLibrary.editFile (s : FileLibrary) (userId id : Nat) (edit : FileEdit) (faults : Faults)
    (flushed : Bool) : FileLibrary :=
  match s.files.find id with
  | none => s
  | some f =>
    match s.disk f.storagePath with
    -- every file has its blob
    | none => s
    | some bytes =>
      if edit.available f.versions then
        s.edited f ((edit.call userId).run faults (f.state bytes)) flushed
      else s

/-- What goes wrong in `delete_file`. -/
inductive DeleteFault
  /-- Before the commit, or in it. -/
  | rolledBack
  /-- The commit is done and its answer is lost. -/
  | lost
  | unlink
deriving DecidableEq

def FileLibrary.removeRow (s : FileLibrary) (id : Nat) : FileLibrary :=
  { s with files := s.files.delete id }

def FileLibrary.deleteFile (s : FileLibrary) (userId id : Nat) (fault : Option DeleteFault) :
    FileLibrary :=
  match s.files.find id with
  | none => s
  | some f =>
    if f.userId ≠ userId then s
    else
      match fault with
      | some .rolledBack => s
      | some .lost => s.removeRow id
      | some .unlink => s.removeRow id
      | none => (s.removeRow id).unlink f.storagePath

/-- An operation, with what goes wrong in it. -/
inductive FileOp
  | upload (userId : Nat) (file : Upload) (faults : UploadFaults)
  | ingest (userId : Nat) (url text title : Text) (faults : UploadFaults)
  | create (store : Storage) (userId conversation : Nat) (name content : Text) (faults : Faults)
  | edit (userId id : Nat) (edit : FileEdit) (faults : Faults) (flushed : Bool)
  | delete (userId id : Nat) (fault : Option DeleteFault)

def FileLibrary.next (sha256 : List UInt8 → Text) (s : FileLibrary) : FileOp → FileLibrary
  | .upload userId file faults => s.uploadFile sha256 userId file faults
  | .ingest userId url text title faults => s.ingestUrl sha256 userId url text title faults
  | .create store userId conversation name content faults =>
    s.createFile store userId conversation name content faults
  | .edit userId id edit faults flushed => s.editFile userId id edit faults flushed
  | .delete userId id fault => s.deleteFile userId id fault

/-! ## True metadata -/

/-- The size, and the hash if there is one, of these bytes. -/
structure FileRecord.Describes (sha256 : List UInt8 → Text) (f : FileRecord)
    (bytes : List UInt8) : Prop where
  size : f.sizeBytes = bytes.length
  hash : ∀ digest, f.sha256Hash = some digest → digest = sha256 bytes

/-- Every row describes the content of its file, and who was answered that an
upload is a duplicate got a file with the content that was uploaded. -/
structure MetadataTrue (sha256 : List UInt8 → Text) (s : FileLibrary) : Prop where
  described : ∀ f ∈ s.files.list, ∃ bytes, s.disk f.storagePath = some bytes ∧
    f.Describes sha256 bytes
  answered : ∀ d ∈ s.duplicates, d.content = some d.uploaded

/-- The same size and the same hash. -/
def SameDigest (sha256 : List UInt8 → Text) (a b : List UInt8) : Prop :=
  a.length = b.length ∧ sha256 a = sha256 b

/-- What the write of an edit makes of the bytes. -/
def Faults.written (faults : Faults) (write : DiskWrite) (bytes : List UInt8) : List UInt8 :=
  if faults.count.isSome ∨ faults.openFile.isSome then bytes
  else
    match faults.write with
    | some (n, _) => write.cut n (write.opened bytes)
    | none => write.apply bytes

/-- What an edit makes of the bytes; a patch has to read them. -/
def FileEdit.leaves (faults : Faults) (bytes : List UInt8) : FileEdit → List UInt8
  | .write content => faults.written (.replace content) bytes
  | .append content => faults.written (.append (appended content)) bytes
  | .patch old new =>
    if faults.read.isSome then bytes
    else
      match fuzzyReplace (readText bytes) old new with
      | none => bytes
      | some updated => faults.written (.replace updated) bytes
  | .restore content => faults.written (.replace content) bytes

/-- No file of the user has other bytes with the hash of these. -/
def FileLibrary.Distinguishes (sha256 : List UInt8 → Text) (s : FileLibrary) (userId : Nat)
    (bytes : List UInt8) : Prop :=
  ∀ f ∈ s.files.list, f.userId = userId → ∀ content, s.disk f.storagePath = some content →
    sha256 content = sha256 bytes → content = bytes

/-- So it is when the upload is looked up and a duplicate's blob can be removed. -/
def UploadFaults.Distinguished (sha256 : List UInt8 → Text) (faults : UploadFaults)
    (s : FileLibrary) (userId : Nat) (bytes : List UInt8) : Prop :=
  faults.save = none → faults.select = false → faults.unlink = false →
    s.Distinguishes sha256 userId bytes

/-- An operation leaves the size and the hash of every content as they are. -/
def Keeps (sha256 : List UInt8 → Text) (s : FileLibrary) : FileOp → Prop
  | .upload userId file faults =>
    tooLarge file.size = false → faults.Distinguished sha256 s userId file.bytes
  | .ingest userId url text _ faults =>
    isHttp (strip url) = true → (strip text).isEmpty = false →
      faults.Distinguished sha256 s userId (utf8 text)
  | .edit userId id edit faults _ =>
    ∀ f, s.files.find id = some f → f.userId = userId → edit.available f.versions = true →
      ∀ bytes, s.disk f.storagePath = some bytes →
        SameDigest sha256 (edit.leaves faults bytes) bytes
  | .create .. | .delete .. => True

/-! ## What an edit leaves -/

theorem rewrite_disk (failed answer : Text) (write : DiskWrite) (faults : Faults) (s : FileState) :
    (rewrite failed answer write faults s).state.disk = faults.written write s.disk := by
  unfold rewrite Faults.written
  cases hcount : faults.count with
  | some e =>
    rw [saveVersion, hcount]
    rfl
  | none =>
    obtain ⟨pending, hsave, -⟩ := saveVersion_ok hcount s
    rw [hsave]
    dsimp only
    -- `open` truncates the file before anything is written to it
    cases faults.openFile with
    | some e => rfl
    | none =>
      cases faults.write with
      | some cut => rfl
      | none =>
        cases faults.statement with
        | some e => rfl
        | none =>
          cases faults.commit with
          | none => rfl
          | some fault => cases fault <;> rfl

theorem call_disk (userId : Nat) (edit : FileEdit) (faults : Faults) (s : FileState) :
    ((edit.call userId).run faults s).state.disk =
      if Denied s userId then s.disk else edit.leaves faults s.disk := by
  cases edit with
  | write content =>
    show (writeContent userId content faults s).state.disk = _
    unfold writeContent
    split
    next => rfl
    next => exact rewrite_disk ..
  | append content =>
    show (appendContent userId content faults s).state.disk = _
    unfold appendContent
    split
    next => rfl
    next => exact rewrite_disk ..
  | patch old new =>
    show (patchContent userId old new faults s).state.disk = _
    unfold patchContent
    split
    next => rfl
    next =>
      rw [FileEdit.leaves]
      cases faults.read with
      | some e => rfl
      | none =>
        cases fuzzyReplace (readText s.disk) old new with
        | none => rfl
        | some updated => exact rewrite_disk ..
  | restore content =>
    show (writeContent userId content faults s).state.disk = _
    unfold writeContent
    split
    next => rfl
    next => exact rewrite_disk ..

theorem denied_state_iff {f : FileRecord} {bytes : List UInt8} {userId : Nat} :
    Denied (f.state bytes) userId ↔ f.userId ≠ userId := by
  unfold Denied FileRecord.state
  simp

theorem createFile_created (store : Storage) (userId conversation : Nat) (name content : Text)
    (faults : Faults) (s : FileState) :
    (createFile store userId conversation name content faults s).state.db.created =
      s.db.created := by
  unfold createFile saveText
  cases faults.encode with
  | some e => rfl
  | none =>
    cases faults.openFile with
    | some e => rfl
    | none => cases faults.write <;> rfl

/-! ## The library between operations -/

/-- Ids and paths have come from `uuid4`, no two files share a path or, with one
user, a hash, and every file has its blob and its hash. -/
structure FileLibrary.Sound (s : FileLibrary) : Prop where
  ids : ∀ f ∈ s.files.list, f.id < s.fresh
  paths : ∀ f ∈ s.files.list, f.storagePath < s.fresh
  apart : ∀ f ∈ s.files.list, ∀ g ∈ s.files.list, f.storagePath = g.storagePath → f = g
  saved : ∀ f ∈ s.files.list, (s.disk f.storagePath).isSome = true
  hashed : ∀ f ∈ s.files.list, f.sha256Hash.isSome = true
  deduplicated : ∀ f ∈ s.files.list, ∀ g ∈ s.files.list, f.userId = g.userId →
    f.sha256Hash = g.sha256Hash → f = g

/-- The same rows with the same contents, after some more `uuid4`. -/
structure SameFiles (s t : FileLibrary) : Prop where
  files : t.files = s.files
  fresh : s.fresh ≤ t.fresh
  disk : ∀ f ∈ s.files.list, t.disk f.storagePath = s.disk f.storagePath

section

variable {sha256 : List UInt8 → Text} {s t : FileLibrary}

theorem SameFiles.sound (h : SameFiles s t) (hs : s.Sound) : t.Sound := by
  constructor
  · rw [h.files]
    exact fun f hf => Nat.lt_of_lt_of_le (hs.ids f hf) h.fresh
  · rw [h.files]
    exact fun f hf => Nat.lt_of_lt_of_le (hs.paths f hf) h.fresh
  · rw [h.files]
    exact hs.apart
  · rw [h.files]
    intro f hf
    rw [h.disk f hf]
    exact hs.saved f hf
  · rw [h.files]
    exact hs.hashed
  · rw [h.files]
    exact hs.deduplicated

theorem SameFiles.metadataTrue (h : SameFiles s t) (hduplicates : t.duplicates = s.duplicates)
    (hm : MetadataTrue sha256 s) : MetadataTrue sha256 t := by
  constructor
  · rw [h.files]
    intro f hf
    rw [h.disk f hf]
    exact hm.described f hf
  · rw [hduplicates]
    exact hm.answered

/-- A new blob is at the path of no file. -/
theorem sameFiles_saveBlob (hs : s.Sound) (bytes : List UInt8) : SameFiles s (s.saveBlob bytes) where
  files := rfl
  fresh := Nat.le_succ _
  disk f hf := Function.update_of_ne (Nat.ne_of_lt (hs.paths f hf)) _ _

theorem sameFiles_unlink (hs : s.Sound) (bytes : List UInt8) :
    SameFiles s ((s.saveBlob bytes).unlink s.fresh) where
  files := rfl
  fresh := Nat.le_succ _
  disk f hf := by
    have hne : f.storagePath ≠ s.fresh := Nat.ne_of_lt (hs.paths f hf)
    show Function.update (Function.update s.disk s.fresh (some bytes)) s.fresh none f.storagePath = _
    rw [Function.update_of_ne hne, Function.update_of_ne hne]

/-- A file that is the duplicate of an upload has its hash. -/
theorem existing_some {userId : Nat} {digest : Text} {f : FileRecord}
    (h : s.existing userId digest = some f) :
    f ∈ s.files.list ∧ f.userId = userId ∧ f.sha256Hash = some digest := by
  refine ⟨List.mem_of_find?_eq_some h, ?_⟩
  simpa using List.find?_some h

theorem existing_none {userId : Nat} {digest : Text} (h : s.existing userId digest = none) :
    ∀ f ∈ s.files.list, f.userId = userId → f.sha256Hash ≠ some digest := by
  intro f hf huser hdigest
  exact List.find?_eq_none.mp h f hf (decide_eq_true ⟨huser, hdigest⟩)

/-- With true metadata, a file whose content has the digest is what is found. -/
theorem existing_of_content (hs : s.Sound) (hm : MetadataTrue sha256 s) {f : FileRecord}
    (hf : f ∈ s.files.list) {content bytes : List UInt8} (hcontent : s.disk f.storagePath = some content)
    (hdigest : sha256 content = sha256 bytes) : s.existing f.userId (sha256 bytes) = some f := by
  obtain ⟨digest, hhash⟩ := Option.isSome_iff_exists.mp (hs.hashed f hf)
  obtain ⟨described, hdescribed, hdescribes⟩ := hm.described f hf
  obtain rfl : content = described := Option.some.inj (hcontent.symm.trans hdescribed)
  have hash : f.sha256Hash = some (sha256 bytes) := by
    rw [hhash, hdescribes.hash digest hhash, hdigest]
  cases hfound : s.existing f.userId (sha256 bytes) with
  | none => exact absurd hash (existing_none hfound f hf rfl)
  | some g =>
    obtain ⟨hg, huser, hghash⟩ := existing_some hfound
    rw [hs.deduplicated g hg f hf huser (hghash.trans hash.symm)]

/-! ## One operation -/

theorem mem_addFile (hs : s.Sound) (r f : FileRecord) :
    f ∈ (s.addFile r).files.list ↔ f ∈ s.files.list ∨ f = { r with id := s.fresh } := by
  refine Rows.mem_insert fun hmem => ?_
  obtain ⟨g, hg, hid⟩ := List.mem_map.mp hmem
  exact Nat.ne_of_lt (hs.ids g hg) hid

theorem sound_addFile (hs : s.Sound) {r : FileRecord} (hpath : r.storagePath < s.fresh)
    (hnew : ∀ f ∈ s.files.list, f.storagePath ≠ r.storagePath)
    (hsaved : (s.disk r.storagePath).isSome = true) (hhashed : r.sha256Hash.isSome = true)
    (hunique : ∀ f ∈ s.files.list, f.userId = r.userId → f.sha256Hash ≠ r.sha256Hash) :
    (s.addFile r).Sound := by
  constructor
  · intro f hf
    rcases (mem_addFile hs r f).mp hf with hf | rfl
    · exact Nat.lt_succ_of_lt (hs.ids f hf)
    · exact Nat.lt_succ_self _
  · intro f hf
    rcases (mem_addFile hs r f).mp hf with hf | rfl
    · exact Nat.lt_succ_of_lt (hs.paths f hf)
    · exact Nat.lt_succ_of_lt hpath
  -- the new file's path is its own, since no other one has it
  · intro f hf g hg heq
    rcases (mem_addFile hs r f).mp hf with hf | rfl <;>
      rcases (mem_addFile hs r g).mp hg with hg | rfl
    · exact hs.apart f hf g hg heq
    · exact absurd heq (hnew f hf)
    · exact absurd heq.symm (hnew g hg)
    · rfl
  · intro f hf
    rcases (mem_addFile hs r f).mp hf with hf | rfl
    · exact hs.saved f hf
    · exact hsaved
  · intro f hf
    rcases (mem_addFile hs r f).mp hf with hf | rfl
    · exact hs.hashed f hf
    · exact hhashed
  -- nor has the user another file of that hash, or the upload had been a duplicate
  · intro f hf g hg huser heq
    rcases (mem_addFile hs r f).mp hf with hf | rfl <;>
      rcases (mem_addFile hs r g).mp hg with hg | rfl
    · exact hs.deduplicated f hf g hg huser heq
    · exact absurd heq (hunique f hf huser)
    · exact absurd heq.symm (hunique g hg huser.symm)
    · rfl

theorem metadataTrue_addFile (hs : s.Sound) (hm : MetadataTrue sha256 s) {r : FileRecord}
    {bytes : List UInt8} (hdisk : s.disk r.storagePath = some bytes) (hsize : r.sizeBytes = bytes.length)
    (hhash : r.sha256Hash = some (sha256 bytes)) : MetadataTrue sha256 (s.addFile r) := by
  constructor
  · intro f hf
    rcases (mem_addFile hs r f).mp hf with hf | rfl
    · exact hm.described f hf
    · refine ⟨bytes, hdisk, hsize, fun digest hdigest => ?_⟩
      exact Option.some.inj (hdigest.symm.trans hhash)
  · exact hm.answered

theorem store_sound (hs : s.Sound) (userId : Nat) (filename mimeType mediaType : Text)
    (bytes : List UInt8) (faults : UploadFaults) :
    (s.store sha256 userId filename mimeType mediaType bytes faults).Sound := by
  have hblob := (sameFiles_saveBlob hs bytes).sound hs
  unfold FileLibrary.store
  split
  next n _ => exact (sameFiles_saveBlob hs _).sound hs
  next =>
    split
    next => exact hblob
    next =>
      split
      next f _ =>
        split
        next => exact hblob
        next =>
          have hunlinked := (sameFiles_unlink hs bytes).sound hs
          exact ⟨hunlinked.ids, hunlinked.paths, hunlinked.apart, hunlinked.saved, hunlinked.hashed,
            hunlinked.deduplicated⟩
      next hnone =>
        split
        next => exact hblob
        next =>
          refine sound_addFile hblob (Nat.lt_succ_self _) ?_ ?_ rfl (existing_none hnone)
          · exact fun f hf => Nat.ne_of_lt (hs.paths f hf)
          · show (Function.update s.disk s.fresh (some bytes) s.fresh).isSome = true
            rw [Function.update_self]
            rfl

/-- The answer that it is a duplicate is right when a file that has the hash has
the content too. -/
theorem store_true_iff (hs : s.Sound) (hm : MetadataTrue sha256 s) (userId : Nat)
    (filename mimeType mediaType : Text) (bytes : List UInt8) (faults : UploadFaults) :
    MetadataTrue sha256 (s.store sha256 userId filename mimeType mediaType bytes faults) ↔
      faults.Distinguished sha256 s userId bytes := by
  have hblob := (sameFiles_saveBlob hs bytes).metadataTrue rfl hm
  unfold FileLibrary.store UploadFaults.Distinguished
  split
  next n hsave =>
    exact iff_of_true ((sameFiles_saveBlob hs _).metadataTrue rfl hm) (by simp [hsave])
  next hsave =>
    rw [imp_iff_right hsave]
    split
    next hselect => exact iff_of_true hblob (by simp [hselect])
    next hselect =>
      rw [imp_iff_right (by simpa using hselect)]
      split
      next f hfound =>
        obtain ⟨hf, rfl, -⟩ := existing_some hfound
        split
        next hunlink => exact iff_of_true hblob (by simp [hunlink])
        next hunlink =>
          rw [imp_iff_right (by simpa using hunlink)]
          have hunlinked := (sameFiles_unlink hs bytes).metadataTrue rfl hm
          have hdisk := (sameFiles_unlink hs bytes).disk f hf
          constructor
          · intro h g hg huser content hcontent hdigest
            -- the query finds the user's one file of that hash
            have hexisting := existing_of_content hs hm hg hcontent hdigest
            rw [huser, hfound] at hexisting
            obtain rfl := Option.some.inj hexisting
            have hanswer := h.answered ⟨bytes, some content⟩ ?_
            · exact Option.some.inj hanswer
            · refine List.mem_append_right _ (List.mem_singleton.mpr ?_)
              rw [hdisk, hcontent]
          · intro hdistinguishes
            refine ⟨hunlinked.described, fun d hd => ?_⟩
            rcases List.mem_append.mp hd with hd | hd
            · exact hm.answered d hd
            · obtain rfl := List.mem_singleton.mp hd
              obtain ⟨content, hcontent, hdescribes⟩ := hm.described f hf
              obtain ⟨-, -, hhash⟩ := existing_some hfound
              have heq := hdistinguishes f hf rfl content hcontent (hdescribes.hash _ hhash).symm
              show _ = some bytes
              rw [hdisk, hcontent, heq]
      next hnone =>
        -- with no such row there is nothing to confuse the upload with
        have hdistinguishes : s.Distinguishes sha256 userId bytes := by
          rintro f hf rfl content hcontent hdigest
          exact absurd (existing_of_content hs hm hf hcontent hdigest) (by simp [hnone])
        refine iff_of_true ?_ fun _ => hdistinguishes
        split
        next => exact hblob
        next =>
          refine metadataTrue_addFile ((sameFiles_saveBlob hs bytes).sound hs) hblob ?_ rfl rfl
          exact Function.update_self ..

section Edited

variable {f : FileRecord} {id : Nat} (o : Outcome) (flushed : Bool)

/-- The row of the edited file keeps its id, its path, its user and its hash. -/
theorem mem_edited (hfind : s.files.find id = some f) (g : FileRecord) :
    g ∈ (s.edited f o flushed).files.list ↔
      g = f.after (if flushed then o.state.db.commit o.pending else o.state.db) ∨
        g ∈ s.files.list ∧ g.id ≠ f.id := by
  obtain ⟨-, rfl⟩ := Rows.find_eq_some.mp hfind
  exact Rows.mem_updateAt hfind
    (fun r => r.after (if flushed then o.state.db.commit o.pending else o.state.db)) fun _ => rfl

theorem edited_disk_self : (s.edited f o flushed).disk f.storagePath = some o.state.disk :=
  Function.update_self ..

theorem edited_disk_of_ne (hs : s.Sound) (hf : f ∈ s.files.list) {g : FileRecord}
    (hg : g ∈ s.files.list) (hne : g.id ≠ f.id) :
    (s.edited f o flushed).disk g.storagePath = s.disk g.storagePath := by
  refine Function.update_of_ne (fun hpath => ?_) _ _
  obtain rfl := hs.apart g hg f hf hpath
  exact hne rfl

theorem edited_sound (hs : s.Sound) (hfind : s.files.find id = some f) :
    (s.edited f o flushed).Sound := by
  obtain ⟨hf, -⟩ := Rows.find_eq_some.mp hfind
  constructor
  · intro g hg
    rcases (mem_edited o flushed hfind g).mp hg with rfl | ⟨hg, -⟩
    · exact hs.ids f hf
    · exact hs.ids g hg
  · intro g hg
    rcases (mem_edited o flushed hfind g).mp hg with rfl | ⟨hg, -⟩
    · exact hs.paths f hf
    · exact hs.paths g hg
  · intro g hg h hh heq
    rcases (mem_edited o flushed hfind g).mp hg with rfl | ⟨hg, hgid⟩ <;>
      rcases (mem_edited o flushed hfind h).mp hh with rfl | ⟨hh, hhid⟩
    · rfl
    · exact absurd (congrArg FileRecord.id (hs.apart h hh f hf heq.symm)) hhid
    · exact absurd (congrArg FileRecord.id (hs.apart g hg f hf heq)) hgid
    · exact hs.apart g hg h hh heq
  · intro g hg
    rcases (mem_edited o flushed hfind g).mp hg with rfl | ⟨hg, hne⟩
    · rw [FileRecord.after, edited_disk_self]
      rfl
    · rw [edited_disk_of_ne o flushed hs hf hg hne]
      exact hs.saved g hg
  · intro g hg
    rcases (mem_edited o flushed hfind g).mp hg with rfl | ⟨hg, -⟩
    · exact hs.hashed f hf
    · exact hs.hashed g hg
  · intro g hg h hh huser heq
    rcases (mem_edited o flushed hfind g).mp hg with rfl | ⟨hg, hgid⟩ <;>
      rcases (mem_edited o flushed hfind h).mp hh with rfl | ⟨hh, hhid⟩
    · rfl
    · exact absurd (congrArg FileRecord.id (hs.deduplicated h hh f hf huser.symm heq.symm)) hhid
    · exact absurd (congrArg FileRecord.id (hs.deduplicated g hg f hf huser heq)) hgid
    · exact hs.deduplicated g hg h hh huser heq

/-- An edit keeps the metadata true when it leaves a content with the size and
the hash of the one before. -/
theorem edited_true_iff (hs : s.Sound) (hm : MetadataTrue sha256 s)
    (hfind : s.files.find id = some f) {bytes : List UInt8} (hbytes : s.disk f.storagePath = some bytes) :
    MetadataTrue sha256 (s.edited f o flushed) ↔ SameDigest sha256 o.state.disk bytes := by
  obtain ⟨hf, -⟩ := Rows.find_eq_some.mp hfind
  obtain ⟨described, hdescribed, hdescribes⟩ := hm.described f hf
  obtain rfl : bytes = described := Option.some.inj (hbytes.symm.trans hdescribed)
  constructor
  · intro h
    obtain ⟨content, hcontent, hafter⟩ := h.described _ ((mem_edited o flushed hfind _).mpr (.inl rfl))
    obtain rfl : o.state.disk = content :=
      Option.some.inj ((edited_disk_self o flushed).symm.trans hcontent)
    -- the row still has size and hash of the old bytes, and now describes the new ones
    obtain ⟨digest, hdigest⟩ := Option.isSome_iff_exists.mp (hs.hashed f hf)
    exact ⟨hafter.size.symm.trans hdescribes.size,
      (hafter.hash digest hdigest).symm.trans (hdescribes.hash digest hdigest)⟩
  · rintro ⟨hsize, hhash⟩
    refine ⟨fun g hg => ?_, hm.answered⟩
    rcases (mem_edited o flushed hfind g).mp hg with rfl | ⟨hg, hne⟩
    · refine ⟨o.state.disk, edited_disk_self o flushed, hdescribes.size.trans hsize.symm, ?_⟩
      exact fun digest hdigest => (hdescribes.hash digest hdigest).trans hhash.symm
    · rw [edited_disk_of_ne o flushed hs hf hg hne]
      exact hm.described g hg

end Edited

theorem removeRow_sound (hs : s.Sound) (id : Nat) : (s.removeRow id).Sound where
  ids f hf := hs.ids f (Rows.mem_delete.mp hf).1
  paths f hf := hs.paths f (Rows.mem_delete.mp hf).1
  apart f hf g hg := hs.apart f (Rows.mem_delete.mp hf).1 g (Rows.mem_delete.mp hg).1
  saved f hf := hs.saved f (Rows.mem_delete.mp hf).1
  hashed f hf := hs.hashed f (Rows.mem_delete.mp hf).1
  deduplicated f hf g hg :=
    hs.deduplicated f (Rows.mem_delete.mp hf).1 g (Rows.mem_delete.mp hg).1

theorem removeRow_true (hm : MetadataTrue sha256 s) (id : Nat) :
    MetadataTrue sha256 (s.removeRow id) :=
  ⟨fun f hf => hm.described f (Rows.mem_delete.mp hf).1, hm.answered⟩

/-- The blob of a file that is removed is that of no other. -/
theorem sameFiles_removed (hs : s.Sound) {id : Nat} {f : FileRecord}
    (hfind : s.files.find id = some f) :
    SameFiles (s.removeRow id) ((s.removeRow id).unlink f.storagePath) where
  files := rfl
  fresh := Nat.le_refl _
  disk g hg := by
    obtain ⟨hf, hid⟩ := Rows.find_eq_some.mp hfind
    obtain ⟨hg, hne⟩ := Rows.mem_delete.mp hg
    refine Function.update_of_ne (fun hpath => ?_) _ _
    obtain rfl := hs.apart g hg f hf hpath
    exact hne hid

/-- `create_file` adds no row, and its blobs are at the paths of no file. -/
theorem sameFiles_createFile (hs : s.Sound) (store : Storage) (userId conversation : Nat)
    (name content : Text) (faults : Faults) :
    SameFiles s (s.createFile store userId conversation name content faults) ∧
      (s.createFile store userId conversation name content faults).duplicates = s.duplicates := by
  unfold FileLibrary.createFile
  dsimp only
  rw [createFile_created, List.foldl_nil]
  induction (createFile store userId conversation name content faults
    { disk := [], db := { file := none } }).state.blobs generalizing s with
  | nil => exact ⟨⟨rfl, Nat.le_refl _, fun _ _ => rfl⟩, rfl⟩
  | cons blob blobs ih =>
    have hblob := sameFiles_saveBlob hs blob.2
    obtain ⟨hrest, hduplicates⟩ := ih (hblob.sound hs)
    refine ⟨⟨hrest.files.trans hblob.files, Nat.le_trans hblob.fresh hrest.fresh, ?_⟩, hduplicates⟩
    exact fun f hf => (hrest.disk f (hblob.files ▸ hf)).trans (hblob.disk f hf)

theorem next_sound (hs : s.Sound) (op : FileOp) : (s.next sha256 op).Sound := by
  cases op with
  | upload userId file faults =>
    show (s.uploadFile sha256 userId file faults).Sound
    unfold FileLibrary.uploadFile
    split
    next => exact hs
    next => exact store_sound hs ..
  | ingest userId url text title faults =>
    show (s.ingestUrl sha256 userId url text title faults).Sound
    unfold FileLibrary.ingestUrl
    dsimp only
    split
    next => exact hs
    next =>
      split
      next => exact hs
      next => exact store_sound hs ..
  | create store userId conversation name content faults =>
    exact (sameFiles_createFile hs ..).1.sound hs
  | edit userId id edit faults flushed =>
    show (s.editFile userId id edit faults flushed).Sound
    unfold FileLibrary.editFile
    split
    next => exact hs
    next f hfind =>
      split
      next => exact hs
      next =>
        split
        next => exact edited_sound _ _ hs hfind
        next => exact hs
  | delete userId id fault =>
    show (s.deleteFile userId id fault).Sound
    unfold FileLibrary.deleteFile
    split
    next => exact hs
    next f hfind =>
      split
      next => exact hs
      next =>
        have hremoved := removeRow_sound hs id
        split
        next => exact hs
        next => exact hremoved
        next => exact hremoved
        next => exact (sameFiles_removed hs hfind).sound hremoved

/-- One step keeps the metadata true when it meets the condition, and only then. -/
theorem next_true_iff (hs : s.Sound) (hm : MetadataTrue sha256 s) (op : FileOp) :
    MetadataTrue sha256 (s.next sha256 op) ↔ Keeps sha256 s op := by
  cases op with
  | upload userId file faults =>
    show MetadataTrue sha256 (s.uploadFile sha256 userId file faults) ↔ _
    rw [Keeps]
    unfold FileLibrary.uploadFile
    split
    next hlarge => exact iff_of_true hm (by simp [hlarge])
    next hlarge =>
      rw [imp_iff_right (by simpa using hlarge)]
      exact store_true_iff hs hm ..
  | ingest userId url text title faults =>
    show MetadataTrue sha256 (s.ingestUrl sha256 userId url text title faults) ↔ _
    rw [Keeps]
    unfold FileLibrary.ingestUrl
    dsimp only
    split
    next hhttp => exact iff_of_true hm (by simp [hhttp])
    next hhttp =>
      rw [imp_iff_right (by simpa using hhttp)]
      split
      next hempty => exact iff_of_true hm (by simp [hempty])
      next hempty =>
        rw [imp_iff_right (by simpa using hempty)]
        exact store_true_iff hs hm ..
  | create store userId conversation name content faults =>
    obtain ⟨hsame, hduplicates⟩ :=
      sameFiles_createFile hs store userId conversation name content faults
    exact iff_of_true (hsame.metadataTrue hduplicates hm) trivial
  | edit userId id edit faults flushed =>
    show MetadataTrue sha256 (s.editFile userId id edit faults flushed) ↔ _
    rw [Keeps]
    unfold FileLibrary.editFile
    split
    next hnone => exact iff_of_true hm (by simp [hnone])
    next f hfind =>
      split
      next hnone =>
        have hsaved := hs.saved f (Rows.find_eq_some.mp hfind).1
        exact absurd hsaved (by simp [hnone])
      next bytes hbytes =>
        split
        next havailable =>
          rw [edited_true_iff _ _ hs hm hfind hbytes, call_disk]
          constructor
          · rintro h f' hf' rfl - bytes' hbytes'
            obtain rfl := Option.some.inj (hfind.symm.trans hf')
            obtain rfl := Option.some.inj (hbytes.symm.trans hbytes')
            rwa [if_neg fun hdenied => denied_state_iff.mp hdenied rfl] at h
          · intro h
            split
            next => exact ⟨rfl, rfl⟩
            next hallowed =>
              exact h f hfind (not_not.mp (mt denied_state_iff.mpr hallowed)) havailable bytes hbytes
        next havailable =>
          refine iff_of_true hm fun f' hf' _ h => ?_
          obtain rfl := Option.some.inj (hfind.symm.trans hf')
          exact absurd h havailable
  | delete userId id fault =>
    show MetadataTrue sha256 (s.deleteFile userId id fault) ↔ _
    refine iff_of_true ?_ trivial
    unfold FileLibrary.deleteFile
    split
    next => exact hm
    next f hfind =>
      split
      next => exact hm
      next =>
        have hremoved := removeRow_true hm id
        split
        next => exact hm
        next => exact hremoved
        next => exact hremoved
        next => exact (sameFiles_removed hs hfind).metadataTrue rfl hremoved

end

/-- From an empty library, the metadata is true after every operation exactly
when every edit leaves the size and the hash of the bytes as they were, and no
upload has the hash of other bytes. -/
theorem metadata_iff (sha256 : List UInt8 → Text) (ops : List FileOp) :
    (∀ before after, ops = before ++ after →
      MetadataTrue sha256 (run (FileLibrary.next sha256) {} before)) ↔
      Throughout (FileLibrary.next sha256) (Keeps sha256) {} ops := by
  have hempty : ({} : FileLibrary).Sound ∧ MetadataTrue sha256 {} := by
    refine ⟨⟨?_, ?_, ?_, ?_, ?_, ?_⟩, ?_, ?_⟩ <;> simp [Rows.empty]
  have hstep : ∀ (s : FileLibrary) (op : FileOp), s.Sound ∧ MetadataTrue sha256 s →
      ((s.next sha256 op).Sound ∧ MetadataTrue sha256 (s.next sha256 op) ↔ Keeps sha256 s op) :=
    fun s op h => (and_iff_right (next_sound h.1 op)).trans (next_true_iff h.1 h.2 op)
  refine Iff.trans ?_ (always_iff hstep hempty ops)
  constructor
  · intro h before after heq
    refine ⟨?_, h before after heq⟩
    exact run_preserves FileLibrary.Sound (fun s op hs => next_sound hs op) hempty.1 before
  · exact fun h before after heq => (h before after heq).2

/-- A digest from which the bytes can be read. -/
def plainDigest (bytes : List UInt8) : Text := bytes.map Char.ofUInt8

theorem plainDigest_injective : Function.Injective plainDigest := by
  refine List.map_injective_iff.mpr fun x y h => ?_
  have hval : x.toUInt32 = y.toUInt32 := congrArg Char.val h
  simpa using congrArg UInt32.toUInt8 hval

/-- The content of every file has the hash of its row, if it has one. -/
def FileLibrary.hashesMatch (sha256 : List UInt8 → Text) (s : FileLibrary) : Bool :=
  s.files.list.all fun f =>
    f.sha256Hash.all fun digest => (s.disk f.storagePath).any fun bytes => digest == sha256 bytes

theorem MetadataTrue.hashesMatch {sha256 : List UInt8 → Text} {s : FileLibrary}
    (h : MetadataTrue sha256 s) : s.hashesMatch sha256 = true := by
  unfold FileLibrary.hashesMatch
  rw [List.all_eq_true]
  intro f hf
  obtain ⟨bytes, hbytes, hdescribes⟩ := h.described f hf
  rw [hbytes]
  cases hhash : f.sha256Hash with
  | none => rfl
  | some digest => simpa using hdescribes.hash digest hhash

/-- A note is uploaded and overwritten, and then uploaded again. -/
def overwritten : List FileOp :=
  [.upload 1 ⟨"a.txt".toList, none, some 1, [97]⟩ {}, .edit 1 1 (.write ['b']) {} false]

def uploadedAgain : List FileOp :=
  overwritten ++ [.upload 1 ⟨"a.txt".toList, none, some 1, [97]⟩ {}]

theorem overwritten_discards :
    Function.Injective plainDigest ∧
      ¬ MetadataTrue plainDigest (run (FileLibrary.next plainDigest) {} overwritten) ∧
      (run (FileLibrary.next plainDigest) {} uploadedAgain).duplicates = [⟨[97], some [98]⟩] := by
  refine ⟨plainDigest_injective, fun h => ?_, by decide⟩
  exact absurd h.hashesMatch (by decide)

end Eidetic.Files
