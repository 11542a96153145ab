import Eidetic.Lib.Owned
import Eidetic.Lib.Run
import Eidetic.Py.Text
import Mathlib.Logic.Function.Basic

/-!
# Whose files a turn is shown

Files are attached to conversations by a request that checks both, and by the
tool that creates a file in a turn. What a turn and its tools read goes by the
attachments of the conversation and by ids that the request or the model names.
Between the steps of one request those of others come, and rows are deleted.

An attachment joins a conversation and a file of one user in every state, so
whatever is shown to a turn is of files of its user (`shown_own`).

The invariant is `Sound`: each attachment joins a conversation and a file that
are there and one user's, each chunk is of a file that is there, and what a
request in progress has checked is still its user's (`Minds`). The last part is
where the interleaving comes in. A row may be deleted between the check and the
insert, and then the insert finds nothing to refer to; it cannot become another
user's, because ids are not given again and owners do not change. That is the
library's `Owned`.

What is read in a turn is a function of the tables (`shown`, `found`), with one
case for each reader: the context, the three file tools, the two searches, the
retriever. Each goes by attachments or by a check of the owner, so it stays
within the user's files in any sound state (`Sound.owns_shown`); the run lemma
carries that to all states.
-/

namespace Eidetic.Files

open Eidetic.Lib Eidetic.Py

/-- A row of `conversations`, without what does not matter here. -/
structure ConversationOf where
  id : Nat
  user : Nat

/-- A row of `files`. -/
structure FileOf where
  id : Nat
  user : Nat
  filename : Text
  uploadStatus : Text

/-- A row of `file_chunks`. -/
structure ChunkOf where
  id : Nat
  file : Nat
  content : Text

/-- Where a request is. -/
inductive FileTask
  | idle
  /-- `attach_file` has found both rows to be the user's. -/
  | attaching (user conversation file : Nat)
  /-- A turn of a user in a conversation, and the ids it has gathered. -/
  | turn (user conversation : Nat) (gathered : List Nat)
deriving DecidableEq

structure FileTables where
  conversations : Owned ConversationOf.id ConversationOf.user := Owned.empty
  files : Owned FileOf.id FileOf.user := Owned.empty
  /-- `conversation_files`. -/
  attached : List (Nat × Nat) := []
  chunks : List ChunkOf := []
  task : Nat → FileTask := fun _ => .idle

namespace FileTables

variable (s : FileTables)

/-- The row with the id is the user's. -/
def ownsConversation (user id : Nat) : Bool := (s.conversations.find id).any fun c => c.user = user

def ownsFile (user id : Nat) : Bool := (s.files.find id).any fun f => f.user = user

/-! ## What is read -/

/-- The files of a conversation, joined with `files`. -/
def attachedTo (conversation : Nat) : List Nat :=
  (s.attached.filter fun a => a.1 = conversation && (s.files.find a.2).isSome).map Prod.snd

/-- All files of a user that are ready. -/
def readyFiles (user : Nat) : List Nat :=
  (s.files.rows.list.filter fun f => f.user = user && decide (f.uploadStatus = "ready".toList)).map FileOf.id

/-- `get_conversation_files` of the API, `none` when it answers 404. -/
def getConversationFiles (user conversation : Nat) : Option (List Nat) :=
  if s.ownsConversation user conversation then some (s.attachedTo conversation) else none

/-- What of a request the files of its context depend on. -/
structure FileRequest where
  /-- It names a conversation. -/
  inConversation : Bool
  /-- The `file_ids` that are UUIDs. -/
  fileIds : List Nat
  /-- There is an embedding of the message. -/
  embedded : Bool
  /-- `_needs_file_tools` of the message. -/
  needsFiles : Bool

/-- The `file_ids` of `_build_stream_context`. -/
def turnFileIds (user conversation : Nat) (req : FileRequest) : List Nat :=
  if req.inConversation then
    let attached := s.attachedTo conversation
    attached ++ (req.fileIds.filter fun id => decide (id ∉ attached)).filter (s.ownsFile user)
  else req.fileIds.filter (s.ownsFile user)

/-- Its `retrieval_file_ids`. -/
def retrievalFileIds (user conversation : Nat) (req : FileRequest) : List Nat :=
  match s.turnFileIds user conversation req with
  | [] => if req.embedded && req.needsFiles then s.readyFiles user else []
  | ids => ids

/-- What reads files in a turn. -/
inductive FileAccess
  | context (req : FileRequest)
  | listFiles
  | searchAcrossFiles
  | readFile (id : Nat)
  | searchInFile (id : Nat)

/-- The files that are read. -/
def shown (user conversation : Nat) : FileAccess → List Nat
  | .context req => s.retrievalFileIds user conversation req
  | .listFiles | .searchAcrossFiles =>
    match s.attachedTo conversation with
    | [] => s.readyFiles user
    | ids => ids
  | .readFile id | .searchInFile id => if s.ownsFile user id then [id] else []

/-- The chunks that the queries of the retriever may find in some files; which of
them is up to their ranks. -/
def found (ids : List Nat) (ranked : ChunkOf → Bool) : List ChunkOf :=
  s.chunks.filter fun c => decide (c.file ∈ ids) && ranked c

end FileTables

/-! ## Steps -/

inductive FileStep
  /-- `_resolve_conversation`: the conversation that is named, and whether it is
  archived or rotated. -/
  | resolve (task user : Nat) (named : Option Nat) (succeeded : Bool)
  | create (user : Nat)
  | deleteConversation (id : Nat)
  /-- An upload, or what is ingested from a URL. -/
  | upload (user : Nat) (filename : Text)
  /-- `rename_file`, or a new status. -/
  | edit (id : Nat) (filename status : Text)
  | deleteFile (id : Nat)
  /-- The checks of `attach_file`, and its insert. -/
  | attach (task user conversation file : Nat)
  | insert (task : Nat)
  | detach (conversation file : Nat)
  /-- `_create_file` in a turn. -/
  | createFile (task : Nat) (name : Text)
  /-- The chunks of a file are made again. -/
  | process (file : Nat) (chunks : List (Nat × Text))
  /-- The files for a read in a turn, whose chunks are read later. -/
  | gather (task : Nat) (access : FileTables.FileAccess)

namespace FileTables

variable (s : FileTables)

def setTask (task : Nat) (t : FileTask) : FileTables := { s with task := Function.update s.task task t }

/-- A new conversation of the user, for a turn. -/
def inNewConversation (task user : Nat) : FileTables :=
  { s with conversations := s.conversations.add (fun id => ⟨id, user⟩) fun _ => rfl }.setTask task
    (.turn user s.conversations.next [])

def resolve (task user : Nat) (named : Option Nat) (succeeded : Bool) : FileTables :=
  match named with
  | none => s.inNewConversation task user
  | some id =>
    if s.ownsConversation user id then
      -- the successor has the same user
      if succeeded then s.inNewConversation task user else s.setTask task (.turn user id [])
    else s

/-- The row is inserted if both that it refers to are there, and it is not. -/
def insertAttached (conversation file : Nat) : FileTables :=
  if (s.conversations.find conversation).isSome ∧ (s.files.find file).isSome ∧
      (conversation, file) ∉ s.attached then
    { s with attached := (conversation, file) :: s.attached }
  else s

def addFile (user : Nat) (filename : Text) : FileTables :=
  { s with files := s.files.add (fun id => ⟨id, user, filename, "uploaded".toList⟩) fun _ => rfl }

def next (s : FileTables) : FileStep → FileTables
  | .resolve task user named succeeded => s.resolve task user named succeeded
  | .create user => { s with conversations := s.conversations.add (fun id => ⟨id, user⟩) fun _ => rfl }
  | .deleteConversation id =>
    { s with
      conversations := s.conversations.delete id
      attached := s.attached.filter fun a => a.1 ≠ id }
  | .upload user filename => s.addFile user filename
  | .edit id filename status =>
    { s with
      files := s.files.change id (fun f => { f with filename := filename, uploadStatus := status })
        fun _ => rfl }
  | .deleteFile id =>
    { s with
      files := s.files.delete id
      attached := s.attached.filter fun a => a.2 ≠ id
      chunks := s.chunks.filter fun c => c.file ≠ id }
  | .attach task user conversation file =>
    if s.ownsConversation user conversation ∧ s.ownsFile user file then
      s.setTask task (.attaching user conversation file)
    else s
  | .insert task =>
    match s.task task with
    | .attaching _ conversation file => (s.insertAttached conversation file).setTask task .idle
    | _ => s
  | .detach conversation file => { s with attached := s.attached.filter fun a => a ≠ (conversation, file) }
  | .createFile task name =>
    match s.task task with
    | .turn user conversation _ =>
      -- a conversation that is gone undoes the file
      if (s.conversations.find conversation).isSome then
        (s.addFile user (name.take 255)).insertAttached conversation s.files.next
      else s
    | _ => s
  | .process file chunks =>
    if (s.files.find file).isSome then
      { s with
        chunks := (s.chunks.filter fun c => c.file ≠ file) ++ chunks.map fun c => ⟨c.1, file, c.2⟩ }
    else s
  | .gather task access =>
    match s.task task with
    | .turn user conversation _ => s.setTask task (.turn user conversation (s.shown user conversation access))
    | _ => s

/-! ## What holds in every state -/

/-- Both rows of an attachment are there, and are one user's. -/
def Joined (a : Nat × Nat) : Prop :=
  ∃ c f, s.conversations.find a.1 = some c ∧ s.files.find a.2 = some f ∧ f.user = c.user

/-- A request has only to do with what is its user's. -/
def Minds : FileTask → Prop
  | .idle => True
  | .attaching user conversation file =>
    s.conversations.Belongs conversation user ∧ s.files.Belongs file user
  | .turn user conversation gathered =>
    s.conversations.Belongs conversation user ∧ ∀ id ∈ gathered, s.files.Belongs id user

structure Sound : Prop where
  joined : ∀ a ∈ s.attached, s.Joined a
  chunk : ∀ c ∈ s.chunks, (s.files.find c.file).isSome
  minds : ∀ task, s.Minds (s.task task)

variable {s}

theorem sound_empty : Sound {} :=
  ⟨fun _ h => absurd h List.not_mem_nil, fun _ h => absurd h List.not_mem_nil, fun _ => trivial⟩

/-- What a request has to do with stays its user's while others change the tables. -/
theorem Minds.evolves {t : FileTables} {task : FileTask} (h : s.Minds task)
    (hc : s.conversations.Evolves t.conversations) (hf : s.files.Evolves t.files) : t.Minds task := by
  cases task with
  | idle => trivial
  | attaching user conversation file => exact ⟨h.1.evolves hc, h.2.evolves hf⟩
  | turn user conversation gathered => exact ⟨h.1.evolves hc, fun id hid => (h.2 id hid).evolves hf⟩

/-- A step on the tables that leaves the requests where they are. -/
theorem Sound.tables {t : FileTables} (h : s.Sound) (hc : s.conversations.Evolves t.conversations)
    (hf : s.files.Evolves t.files) (htask : t.task = s.task) (hjoined : ∀ a ∈ t.attached, t.Joined a)
    (hchunk : ∀ c ∈ t.chunks, (t.files.find c.file).isSome) : t.Sound := by
  refine ⟨hjoined, hchunk, ?_⟩
  intro task
  rw [htask]
  exact (h.minds task).evolves hc hf

/-- A step of one request that leaves the tables. -/
theorem Sound.setTask {task : Nat} {t : FileTask} (h : s.Sound) (ht : s.Minds t) :
    (s.setTask task t).Sound := by
  refine ⟨h.joined, h.chunk, ?_⟩
  intro other
  show s.Minds (Function.update s.task task t other)
  by_cases hother : other = task
  · rw [hother, Function.update_self]
    exact ht
  · rw [Function.update_of_ne hother]
    exact h.minds other

/-! ## What is read is one's own -/

theorem mem_attachedTo {conversation id : Nat} (h : id ∈ s.attachedTo conversation) :
    (conversation, id) ∈ s.attached := by
  obtain ⟨a, ha, rfl⟩ := List.mem_map.mp h
  obtain ⟨hmem, hkept⟩ := List.mem_filter.mp ha
  obtain rfl : a.1 = conversation := of_decide_eq_true ((Bool.and_eq_true_iff.mp hkept).1)
  exact hmem

theorem Sound.attachedTo_own {user conversation id : Nat} (h : s.Sound)
    (hconv : s.conversations.Belongs conversation user) (hid : id ∈ s.attachedTo conversation) :
    s.ownsFile user id = true := by
  obtain ⟨c, f, hc, hf, hsame⟩ := h.joined _ (mem_attachedTo hid)
  exact Owned.any_owner_iff.mpr ⟨f, hf, hsame.trans (hconv.2 c hc)⟩

theorem readyFiles_own {user id : Nat} (hid : id ∈ s.readyFiles user) : s.ownsFile user id = true := by
  obtain ⟨f, hf, rfl⟩ := List.mem_map.mp hid
  obtain ⟨hmem, hkept⟩ := List.mem_filter.mp hf
  have huser : f.user = user := of_decide_eq_true ((Bool.and_eq_true_iff.mp hkept).1)
  exact Owned.any_owner_iff.mpr ⟨f, Rows.find_eq_some.mpr ⟨hmem, rfl⟩, huser⟩

theorem Sound.turnFileIds_own {user conversation id : Nat} {req : FileRequest} (h : s.Sound)
    (hconv : s.conversations.Belongs conversation user)
    (hid : id ∈ s.turnFileIds user conversation req) : s.ownsFile user id = true := by
  unfold turnFileIds at hid
  split at hid
  next =>
    rcases List.mem_append.mp hid with hattached | hextra
    · exact h.attachedTo_own hconv hattached
    · exact (List.mem_filter.mp hextra).2
  next => exact (List.mem_filter.mp hid).2

/-- Every file that is read in a turn is its user's. -/
theorem Sound.owns_shown {user conversation id : Nat} (h : s.Sound)
    (hconv : s.conversations.Belongs conversation user) {access : FileAccess}
    (hid : id ∈ s.shown user conversation access) : s.ownsFile user id = true := by
  have hlist : ∀ ids, s.attachedTo conversation = ids →
      id ∈ (match ids with | [] => s.readyFiles user | ids => ids) → s.ownsFile user id = true := by
    intro ids hids hmem
    cases ids with
    | nil => exact readyFiles_own hmem
    | cons first rest => exact h.attachedTo_own hconv (by rw [hids]; exact hmem)
  have hone : ∀ named, id ∈ (if s.ownsFile user named then [named] else []) →
      s.ownsFile user id = true := by
    intro named hmem
    split at hmem
    next howns => rwa [List.mem_singleton.mp hmem]
    next => exact absurd hmem List.not_mem_nil
  cases access with
  | context req =>
    have hids : id ∈ s.retrievalFileIds user conversation req := hid
    unfold retrievalFileIds at hids
    split at hids
    next =>
      split at hids
      next => exact readyFiles_own hids
      next => exact absurd hids List.not_mem_nil
    next => exact h.turnFileIds_own hconv hids
  | listFiles => exact hlist _ rfl hid
  | searchAcrossFiles => exact hlist _ rfl hid
  | readFile named => exact hone named hid
  | searchInFile named => exact hone named hid

/-! ## Steps keep it -/

theorem Joined.evolves {t : FileTables} {a : Nat × Nat} (h : s.Joined a)
    (hc : ∀ c, s.conversations.find a.1 = some c → t.conversations.find a.1 = some c)
    (hf : ∀ f, s.files.find a.2 = some f → ∃ f', t.files.find a.2 = some f' ∧ f'.user = f.user) :
    t.Joined a := by
  obtain ⟨c, f, hfindc, hfindf, hsame⟩ := h
  obtain ⟨f', hfindf', hkept⟩ := hf f hfindf
  exact ⟨c, f', hc c hfindc, hfindf', hkept.trans hsame⟩

theorem Sound.addConversation (h : s.Sound) (user : Nat) :
    FileTables.Sound
      { s with conversations := s.conversations.add (fun id => ⟨id, user⟩) fun _ => rfl } := by
  refine h.tables (Owned.evolves_add (t := s.conversations) (fun id => ⟨id, user⟩) fun _ => rfl)
    (Owned.Evolves.refl _) rfl ?_ h.chunk
  intro a ha
  refine (h.joined a ha).evolves ?_ fun f hf => ⟨f, hf, rfl⟩
  intro c hc
  exact (Owned.find_add_of_lt _ _ (Owned.lt_of_find hc)).trans hc

theorem Sound.addFile (h : s.Sound) (user : Nat) (filename : Text) : (s.addFile user filename).Sound := by
  refine h.tables (Owned.Evolves.refl _)
    (Owned.evolves_add (t := s.files) (fun id => ⟨id, user, filename, "uploaded".toList⟩) fun _ => rfl)
    rfl ?_ ?_
  · intro a ha
    refine (h.joined a ha).evolves (fun _ hc => hc) ?_
    intro f hf
    exact ⟨f, (Owned.find_add_of_lt _ _ (Owned.lt_of_find hf)).trans hf, rfl⟩
  · intro c hc
    obtain ⟨f, hf⟩ := Option.isSome_iff_exists.mp (h.chunk c hc)
    exact Option.isSome_iff_exists.mpr
      ⟨f, (Owned.find_add_of_lt _ _ (Owned.lt_of_find hf)).trans hf⟩

/-- Both rows being one user's is what an attachment needs. -/
theorem Sound.insertAttached {user conversation file : Nat} (h : s.Sound)
    (hconv : s.conversations.Belongs conversation user) (hfile : s.files.Belongs file user) :
    (s.insertAttached conversation file).Sound := by
  unfold FileTables.insertAttached
  split
  next hthere =>
    obtain ⟨c, hc⟩ := Option.isSome_iff_exists.mp hthere.1
    obtain ⟨f, hf⟩ := Option.isSome_iff_exists.mp hthere.2.1
    refine h.tables (Owned.Evolves.refl _) (Owned.Evolves.refl _) rfl ?_ h.chunk
    intro a ha
    rcases List.mem_cons.mp ha with rfl | hold
    · exact ⟨c, f, hc, hf, (hfile.2 f hf).trans (hconv.2 c hc).symm⟩
    · exact h.joined a hold
  next => exact h

theorem Sound.inNewConversation (h : s.Sound) (task user : Nat) : (s.inNewConversation task user).Sound := by
  refine (h.addConversation user).setTask ⟨?_, fun _ hid => absurd hid List.not_mem_nil⟩
  exact Owned.belongs_of_find (Owned.find_add_next _ _)

theorem Sound.resolve (h : s.Sound) (task user : Nat) (named : Option Nat) (succeeded : Bool) :
    (s.resolve task user named succeeded).Sound := by
  unfold FileTables.resolve
  split
  next => exact h.inNewConversation task user
  next id =>
    split
    next howns =>
      split
      next => exact h.inNewConversation task user
      next =>
        exact h.setTask ⟨Owned.belongs_of_any howns, fun _ hid => absurd hid List.not_mem_nil⟩
    next => exact h

theorem Sound.deleteConversation (h : s.Sound) (id : Nat) : (next s (.deleteConversation id)).Sound := by
  refine h.tables (Owned.evolves_delete id) (Owned.Evolves.refl _) rfl ?_ h.chunk
  intro a ha
  obtain ⟨hmem, hne⟩ := List.mem_filter.mp ha
  refine (h.joined a hmem).evolves ?_ fun f hf => ⟨f, hf, rfl⟩
  intro c hc
  exact (Owned.find_delete_of_ne (of_decide_eq_true hne)).trans hc

theorem Sound.edit (h : s.Sound) (id : Nat) (filename status : Text) :
    (next s (.edit id filename status)).Sound := by
  refine h.tables (Owned.Evolves.refl _) (Owned.evolves_change id _ fun _ => rfl) rfl ?_ ?_
  · intro a ha
    refine (h.joined a ha).evolves (fun _ hc => hc) ?_
    intro f hf
    exact Owned.find_change _ (fun _ => rfl) hf
  · intro c hc
    obtain ⟨f, hf⟩ := Option.isSome_iff_exists.mp (h.chunk c hc)
    obtain ⟨f', hf', _⟩ := Owned.find_change (j := id)
      (f := fun f => { f with filename := filename, uploadStatus := status }) (fun _ => rfl) (fun _ => rfl) hf
    exact Option.isSome_iff_exists.mpr ⟨f', hf'⟩

theorem Sound.deleteFile (h : s.Sound) (id : Nat) : (next s (.deleteFile id)).Sound := by
  refine h.tables (Owned.Evolves.refl _) (Owned.evolves_delete id) rfl ?_ ?_
  · intro a ha
    obtain ⟨hmem, hne⟩ := List.mem_filter.mp ha
    refine (h.joined a hmem).evolves (fun _ hc => hc) ?_
    intro f hf
    exact ⟨f, (Owned.find_delete_of_ne (of_decide_eq_true hne)).trans hf, rfl⟩
  · intro c hc
    obtain ⟨hmem, hne⟩ := List.mem_filter.mp hc
    exact (congrArg Option.isSome (Owned.find_delete_of_ne (of_decide_eq_true hne))).trans (h.chunk c hmem)

theorem Sound.process (h : s.Sound) (file : Nat) (chunks : List (Nat × Text)) :
    (next s (.process file chunks)).Sound := by
  show (if (s.files.find file).isSome then _ else s).Sound
  split
  next hthere =>
    refine h.tables (Owned.Evolves.refl _) (Owned.Evolves.refl _) rfl h.joined ?_
    intro c hc
    rcases List.mem_append.mp hc with hold | hnew
    · exact h.chunk c (List.mem_filter.mp hold).1
    · obtain ⟨made, _, rfl⟩ := List.mem_map.mp hnew
      exact hthere
  next => exact h

/-- One step keeps attachments within users. -/
theorem Sound.next (h : s.Sound) (step : FileStep) : (next s step).Sound := by
  cases step with
  | resolve task user named succeeded => exact h.resolve task user named succeeded
  | create user => exact h.addConversation user
  | deleteConversation id => exact h.deleteConversation id
  | upload user filename => exact h.addFile user filename
  | edit id filename status => exact h.edit id filename status
  | deleteFile id => exact h.deleteFile id
  | attach task user conversation file =>
    show (if s.ownsConversation user conversation ∧ s.ownsFile user file then _ else s).Sound
    split
    next howns => exact h.setTask ⟨Owned.belongs_of_any howns.1, Owned.belongs_of_any howns.2⟩
    next => exact h
  | insert task =>
    have hminds := h.minds task
    simp only [FileTables.next]
    split
    next user conversation file heq =>
      rw [heq] at hminds
      exact (h.insertAttached hminds.1 hminds.2).setTask trivial
    next => exact h
  | detach conversation file =>
    refine h.tables (Owned.Evolves.refl _) (Owned.Evolves.refl _) rfl ?_ h.chunk
    intro a ha
    exact h.joined a (List.mem_filter.mp ha).1
  | createFile task name =>
    have hminds := h.minds task
    simp only [FileTables.next]
    split
    next user conversation gathered heq =>
      rw [heq] at hminds
      split
      next => exact (h.addFile user _).insertAttached hminds.1 (Owned.belongs_of_find (Owned.find_add_next _ _))
      next => exact h
    next => exact h
  | process file chunks => exact h.process file chunks
  | gather task access =>
    have hminds := h.minds task
    simp only [FileTables.next]
    split
    next user conversation gathered heq =>
      rw [heq] at hminds
      refine h.setTask ⟨hminds.1, ?_⟩
      intro id hid
      exact Owned.belongs_of_any (h.owns_shown hminds.1 hid)
    next => exact h

theorem sound_run (steps : List FileStep) : (run FileTables.next {} steps).Sound :=
  run_preserves Sound (fun _ step h => h.next step) sound_empty steps

/-- Whatever the requests have done, the files that a turn or its tools read are
its user's, the chunks that are found for what it has gathered are of such files
and the list of a conversation's files names none but its user's. -/
theorem shown_own (steps : List FileStep) :
    let s := run FileTables.next {} steps
    (∀ task user conversation gathered, s.task task = .turn user conversation gathered →
      (∀ access, ∀ id ∈ s.shown user conversation access, s.ownsFile user id = true) ∧
      ∀ ranked, ∀ c ∈ s.found gathered ranked, s.ownsFile user c.file = true) ∧
    ∀ user conversation ids, s.getConversationFiles user conversation = some ids →
      ∀ id ∈ ids, s.ownsFile user id = true := by
  intro s
  have h : s.Sound := sound_run steps
  constructor
  · intro task user conversation gathered heq
    have hminds := h.minds task
    rw [heq] at hminds
    refine ⟨fun access id hid => h.owns_shown hminds.1 hid, ?_⟩
    intro ranked c hc
    obtain ⟨hmem, hkept⟩ := List.mem_filter.mp hc
    have hin : c.file ∈ gathered := of_decide_eq_true (Bool.and_eq_true_iff.mp hkept).1
    obtain ⟨f, hf⟩ := Option.isSome_iff_exists.mp (h.chunk c hmem)
    exact Owned.any_owner_iff.mpr ⟨f, hf, (hminds.2 _ hin).2 f hf⟩
  · intro user conversation ids hids id hid
    unfold getConversationFiles at hids
    split at hids
    next howns =>
      rw [← Option.some.inj hids] at hid
      exact h.attachedTo_own (Owned.belongs_of_any howns) hid
    next => exact absurd hids (by simp)

/-- Each of two users attaches a file to a conversation. The second one tries to
attach it to the first one's as well. -/
def twoAttached : List FileStep :=
  [.resolve 0 1 none false, .resolve 1 2 none false, .upload 1 "a".toList, .upload 2 "b".toList,
    .attach 2 1 0 0, .insert 2, .attach 3 2 1 1, .insert 3, .attach 4 2 0 1, .insert 4,
    .gather 0 .listFiles]

theorem shown_own_two :
    let s := run FileTables.next {} twoAttached
    s.shown 1 0 .listFiles = [0] ∧ s.ownsFile 1 0 = true := by
  intro s
  have hshown : s.shown 1 0 .listFiles = [0] := by decide
  have howns := ((shown_own twoAttached).1 0 1 0 [0] (by decide)).1 .listFiles
  exact ⟨hshown, howns 0 (by decide)⟩

end FileTables

end Eidetic.Files
