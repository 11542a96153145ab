import Eidetic.Py.TextFile
import Eidetic.Stream.Turn

/-!
# What an edit does to a file

`write_content`, `append_content`, `patch_content` and `restore_version` up to
the bytes: which text each one writes, and how the bytes on disk change when
the file is opened and when it is written.

A file is opened in text mode, so what is written is UTF-8, and what is read has
its line ends translated and undecodable bytes replaced (`Py.TextFile`).
`FileEdit` is an operation with its arguments, and `plan` what it writes over a
given content, if anything: it replaces the whole or appends to it
(`DiskWrite`). The effect on disk is split in two, `opened` and `put`, because a
crash or another request may come between them; `Files.Versions` and
`Files.Atomicity` have them as separate steps.
-/

namespace Eidetic.Files

open Eidetic.Lib Eidetic.Py
open Eidetic.Stream (indexOf)

/-- `replace("\r\n", "\n")`. -/
def joinCrLf : Text → Text
  | [] => []
  | '\r' :: '\n' :: rest => '\n' :: joinCrLf rest
  | c :: rest => c :: joinCrLf rest

/-- `content[:idx] + new_text + content[idx + n:]`. -/
def splice (content : Text) (idx n : Nat) (new : Text) : Text :=
  content.take idx ++ new ++ content.drop (idx + n)

/-- `_fuzzy_replace`: the text as it is, then with its line endings normalized,
then stripped. -/
def fuzzyReplace (content old new : Text) : Option Text :=
  match indexOf old content with
  | some idx => some (splice content idx old.length new)
  | none =>
    match indexOf (joinCrLf old) (joinCrLf content) with
    | some idx => some (splice content idx (joinCrLf old).length new)
    | none =>
      if (strip old).isEmpty then none
      else (indexOf (strip old) content).map fun idx =>
        splice content idx (strip old).length new

/-- What `append_content` appends. -/
def appended (content : Text) : Text :=
  if !content.isEmpty && !startsWith content ['\n'] then ['\n', '\n'] ++ content else content

/-- A row of `file_versions`. -/
structure FileVersion where
  version : Nat
  content : Text
deriving DecidableEq

/-- One of the operations of `file_service`. -/
inductive FileEdit
  | write (content : Text)
  | append (content : Text)
  | patch (old new : Text)
  /-- With the `content` of the version, which it gives to `write_content`. -/
  | restore (content : Text)
deriving DecidableEq

/-- `_sync_write` or `_sync_append`. -/
inductive DiskWrite
  | replace (content : Text)
  | append (content : Text)
deriving DecidableEq

/-- What an edit of a file with these bytes writes; a patch may find nothing. -/
def FileEdit.plan (disk : List UInt8) : FileEdit → Option DiskWrite
  | .write content => some (.replace content)
  | .append content => some (.append (appended content))
  | .patch old new => (fuzzyReplace (readText disk) old new).map .replace
  | .restore content => some (.replace content)

/-- `open(path, "w")` truncates the file. -/
def DiskWrite.opened (disk : List UInt8) : DiskWrite → List UInt8
  | .replace _ => []
  | .append _ => disk

/-- The bytes go to the start of the file, or to its end. -/
def DiskWrite.put (disk : List UInt8) : DiskWrite → List UInt8
  | .replace content => utf8 content ++ disk.drop (utf8 content).length
  | .append content => disk ++ utf8 content

/-- Only the first `n` bytes of the content have reached the file. -/
def DiskWrite.cut (n : Nat) (disk : List UInt8) : DiskWrite → List UInt8
  | .replace content => (utf8 content).take n ++ disk.drop ((utf8 content).take n).length
  | .append content => disk ++ (utf8 content).take n

/-- An edit that nothing comes between. -/
def DiskWrite.apply (w : DiskWrite) (disk : List UInt8) : List UInt8 := w.put (w.opened disk)

@[simp] theorem DiskWrite.apply_replace (content : Text) (disk : List UInt8) :
    (DiskWrite.replace content).apply disk = utf8 content := by
  show utf8 content ++ List.drop (utf8 content).length [] = utf8 content
  rw [List.drop_nil, List.append_nil]

end Eidetic.Files
