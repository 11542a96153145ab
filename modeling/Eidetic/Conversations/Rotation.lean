import Eidetic.Conversations.Tables
import Eidetic.Lib.Run
import Mathlib.Logic.Function.Basic

/-!
# The successors of a conversation

Chat requests that name a conversation, interleaved at each of their queries and
at their commits, with anything else that may be written to its row, its
messages and its files. A request continues an archived conversation in a new
one of its own, without files and without a hand-off, and two requests can pass
the test for a rotation together. So a conversation has one successor, which is
like it, as long as no second request comes to it and it has no files
(`rotates_iff`).

`Resolving` follows a request through its queries: the conversation it has
loaded, the count of messages, the sum of tokens, the last five messages, and
the commit of a successor. What it has loaded is carried along, so the row and
the messages may be others by the time of the commit. `successions` records who
continues whom; it is not in the database.

The property is about one step, `Rotates`: a successor that is committed is the
first one, later requests are continued in it, and it carries what the old
conversation has. `Fresh` is what has to hold just before the commit, in terms
of the state and of what the request has loaded. One commit is
`rotates_of_succeed` with `fresh_iff`; the invariant that this needs is only
that no id is in use that has not been given (`Known`), as a new conversation
then has no files and no successor yet. The run lemma is that of the library on
conditions that agree wherever an invariant holds.
-/

namespace Eidetic.Conversations

open Eidetic.Lib Eidetic.Py

/-- Where a request that names a conversation is. -/
inductive Resolving
  /-- In `_check_rotation`, with the row as it was loaded and the time. -/
  | loaded (conv : Conversation) (now : Int)
  | counted (conv : Conversation) (now : Int) (totalMsgs : Nat)
  /-- The conversation is to be rotated. -/
  | due (conv : Conversation) (now : Int)
  /-- Before the commit of the rotation, with the hand-off. -/
  | handing (conv : Conversation) (now : Int) (handoff : Text)
  /-- Before the commit of the successor of an archived conversation. -/
  | forking (conv : Conversation)
  | resolved (conversation : Nat)
  | refused (status : Nat)

/-- A conversation, and one that continues it. -/
structure Succession where
  old : Nat
  new : Nat
deriving DecidableEq

structure Chats where
  conversations : Rows Conversation.id := Rows.empty
  /-- No conversation has had this id or a later one. -/
  nextId : Nat := 0
  messages : List Message := []
  /-- The rows of `conversation_files`: a conversation and a file. -/
  files : List (Nat × Nat) := []
  requests : Nat → Option Resolving := fun _ => none
  successions : List Succession := []

inductive ChatEvent
  /-- A conversation is started. -/
  | start (user : Nat) (title : Text) (now : Int)
  /-- A request that names a conversation loads it. -/
  | request (k user conversation : Nat) (now : Int)
  /-- The next query of a request, which returns messages in an order. -/
  | query (k : Nat) (order : List Message)
  | commit (k : Nat) (now : Int)
  /-- The request ends. -/
  | abort (k : Nat)
  /-- Anything else writes the row of a conversation. -/
  | write (conv : Conversation)
  | delete (conversation : Nat)
  | say (message : Message)
  | forget (message : Nat)
  | attach (conversation file : Nat)
  | detach (conversation file : Nat)

/-- More than 80 messages, more than 120000 tokens, or older than three days. -/
def rotationDue (totalMsgs totalTok : Nat) (ageDays : Int) : Bool :=
  80 < totalMsgs || 120000 < totalTok || 3 < ageDays

/-- `(now - updated_at).days`. -/
def ageDays (conv : Conversation) (now : Int) : Int := (now - conv.updatedAt) / 86400

/-- The sum of the tokens of the answers; null is ignored. -/
def totalTokens (messages : List Message) (conversation : Nat) : Nat :=
  (((messagesOf messages conversation).filter fun m => m.role = .assistant).map fun m =>
    m.totalTokens.getD 0).sum

/-- `Conversation(user_id=…, title=…, system_prompt=…, locked_model=…)`. -/
def Conversation.successor (conv : Conversation) (id : Nat) (now : Int) : Conversation :=
  { id, userId := conv.userId, title := conv.title, systemPrompt := conv.systemPrompt
    lockedModel := conv.lockedModel, updatedAt := now }

/-- What the rotation writes of the old row. -/
def Conversation.archive (now : Int) (conv : Conversation) : Conversation :=
  { conv with isArchived := true, archivedAt := some now }

theorem Conversation.archive_id (now : Int) (conv : Conversation) : (conv.archive now).id = conv.id := rfl

namespace Chats

def enter (s : Chats) (k : Nat) (phase : Resolving) : Chats :=
  { s with requests := Function.update s.requests k (some phase) }

def archive (s : Chats) (conversation : Nat) (now : Int) : Chats :=
  { s with
    conversations := s.conversations.updateAt conversation (Conversation.archive now)
      (Conversation.archive_id now) }

/-- A successor is committed. -/
def succeed (s : Chats) (k : Nat) (conv : Conversation) (new : Conversation) : Chats :=
  { s with
    conversations := s.conversations.insert new
    nextId := s.nextId + 1
    successions := ⟨conv.id, new.id⟩ :: s.successions }.enter k (.resolved new.id)

end Chats

/-- The load of `_resolve_conversation`. -/
def resolveConversation (s : Chats) (user conversation : Nat) (now : Int) : Resolving :=
  match s.conversations.find conversation with
  | none => .refused 404
  | some conv =>
    if conv.userId ≠ user then .refused 404
    else if conv.isArchived then .forking conv
    else .loaded conv now

/-- The queries of `_check_rotation`. -/
def checkRotation (messages : List Message) (order : List Message) : Resolving → Resolving
  | .loaded conv now => .counted conv now (messagesOf messages conv.id).length
  | .counted conv now totalMsgs =>
    -- the row is the one that was loaded, archived by now or not
    if rotationDue totalMsgs (totalTokens messages conv.id) (ageDays conv now) then .due conv now
    else .resolved conv.id
  | .due conv now =>
    if Chronological messages conv.id order then
      .handing conv now (handoffText conv.historySummary (latest 5 order))
    else .due conv now
  | phase => phase

def commitSuccessor (s : Chats) (k : Nat) (now : Int) : Resolving → Chats
  -- a successor for every request, without a hand-off
  | .forking conv => s.succeed k conv (conv.successor s.nextId now)
  | .handing conv archivedAt handoff =>
    -- the update of a row that is gone raises
    if (s.conversations.find conv.id).isNone then s.enter k (.refused 500)
    else
      (s.archive conv.id archivedAt).succeed k conv
        { conv.successor s.nextId now with historySummary := some handoff }
  | _ => s

def Chats.next (s : Chats) : ChatEvent → Chats
  | .start user title now =>
    { s with
      conversations := s.conversations.insert
        { id := s.nextId, userId := user, title := strip (title.take 60), updatedAt := now }
      nextId := s.nextId + 1 }
  | .request k user conversation now =>
    if (s.requests k).isSome then s else s.enter k (resolveConversation s user conversation now)
  | .query k order =>
    match s.requests k with
    | some phase => s.enter k (checkRotation s.messages order phase)
    | none => s
  | .commit k now =>
    match s.requests k with
    | some phase => commitSuccessor s k now phase
    | none => s
  | .abort k => s.enter k (.refused 500)
  | .write conv =>
    if (s.conversations.find conv.id).isSome then
      { s with conversations := s.conversations.put conv }
    else s
  | .delete conversation =>
    { s with
      conversations := s.conversations.delete conversation
      messages := s.messages.filter fun m => m.conversationId ≠ conversation
      files := s.files.filter fun f => f.1 ≠ conversation }
  | .say message =>
    if (s.conversations.find message.conversationId).isSome then
      { s with messages := s.messages ++ [message] }
    else s
  | .forget message => { s with messages := s.messages.filter fun m => m.id ≠ message }
  | .attach conversation file =>
    if (s.conversations.find conversation).isSome then
      { s with files := (conversation, file) :: s.files }
    else s
  | .detach conversation file => { s with files := s.files.filter fun f => f ≠ (conversation, file) }

/-! ## What is asked of a successor -/

/-- The step commits a successor. -/
def Succeeds (s : Chats) (e : ChatEvent) (old new : Nat) : Prop :=
  (s.next e).successions = ⟨old, new⟩ :: s.successions

/-- A conversation has what the one before it has. -/
structure Carries (s : Chats) (old new : Conversation) : Prop where
  title : new.title = old.title
  systemPrompt : new.systemPrompt = old.systemPrompt
  lockedModel : new.lockedModel = old.lockedModel
  files : ∀ file, (new.id, file) ∈ s.files ↔ (old.id, file) ∈ s.files
  handoff : IsHandoff s.messages old (new.historySummary.getD [])

/-- No conversation has a second successor, a request that comes to an archived
one is continued in its successor, and each carries what the archived one has. -/
structure Rotates (s : Chats) (e : ChatEvent) : Prop where
  once : ∀ old new, Succeeds s e old new → ∀ p ∈ s.successions, p.old ≠ old
  continued : ∀ k conv new, s.requests k = some (.forking conv) →
    (s.next e).requests k = some (.resolved new) →
      ⟨conv.id, new⟩ ∈ (s.next e).successions ∧ ∀ p ∈ (s.next e).successions, p.old = conv.id → p.new = new
  carries : ∀ old new, Succeeds s e old new → ∀ c, (s.next e).conversations.find old = some c →
    ∀ d, (s.next e).conversations.find new = some d → Carries (s.next e) c d

/-- The row is as a request has loaded it, but for what it does not hand on. -/
structure AsLoaded (loaded row : Conversation) : Prop where
  title : loaded.title = row.title
  systemPrompt : loaded.systemPrompt = row.systemPrompt
  lockedModel : loaded.lockedModel = row.lockedModel

/-- The conversation that a request is to continue has no successor, no files,
has not been changed since it was loaded, and this would still be its hand-off. -/
structure Fresh (s : Chats) (loaded : Conversation) (handoff : Text) : Prop where
  first : ∀ p ∈ s.successions, p.old ≠ loaded.id
  unchanged : ∀ row, s.conversations.find loaded.id = some row → AsLoaded loaded row
  noFiles : ∀ row, s.conversations.find loaded.id = some row → ∀ file, (loaded.id, file) ∉ s.files
  handoff : ∀ row, s.conversations.find loaded.id = some row → IsHandoff s.messages row handoff

/-- A successor is committed for a fresh conversation, and, if it was archived
before, one that has nothing to hand on. -/
def SucceedsFresh (s : Chats) : ChatEvent → Prop
  | .commit k _ =>
    match s.requests k with
    | some (.forking conv) => Fresh s conv []
    | some (.handing conv _ handoff) =>
      (s.conversations.find conv.id).isSome = true → Fresh s conv handoff
    | _ => True
  | _ => True

/-! ## One step -/

/-- The conversation that a request has loaded. -/
def Resolving.conversation : Resolving → Option Conversation
  | .loaded conv _ | .counted conv _ _ | .due conv _ | .handing conv _ _ | .forking conv => some conv
  | .resolved _ | .refused _ => none

/-- The ids that are in use have been given. -/
structure Known (s : Chats) : Prop where
  rows : ∀ c ∈ s.conversations.list, c.id < s.nextId
  files : ∀ f ∈ s.files, f.1 < s.nextId
  loaded : ∀ k phase, s.requests k = some phase → ∀ conv ∈ phase.conversation, conv.id < s.nextId

variable {s : Chats} {k : Nat} {conv : Conversation} {now : Int}

/-- The successor has a new id, so it has no files, and the old row is as it was. -/
theorem carries_succeed_iff (hrows : ∀ c ∈ s.conversations.list, c.id < s.nextId)
    (hfiles : ∀ f ∈ s.files, f.1 < s.nextId) (hid : conv.id < s.nextId) (summary : Option Text) :
    (∀ c, (s.succeed k conv { conv.successor s.nextId now with historySummary := summary }).conversations.find
        conv.id = some c →
      ∀ d, (s.succeed k conv { conv.successor s.nextId now with historySummary := summary }).conversations.find
        s.nextId = some d →
      Carries (s.succeed k conv { conv.successor s.nextId now with historySummary := summary }) c d) ↔
    ∀ row, s.conversations.find conv.id = some row →
      AsLoaded conv row ∧ (∀ file, (conv.id, file) ∉ s.files) ∧
        IsHandoff s.messages row (summary.getD []) := by
  have hold : ∀ new : Conversation, new.id = s.nextId →
      (s.conversations.insert new).find conv.id = s.conversations.find conv.id := by
    intro new hnew
    exact Rows.find_insert_of_ne (by omega)
  have hfresh : s.conversations.find s.nextId = none := by
    rw [Rows.find_eq_none]
    intro hmem
    obtain ⟨c, hc, hcid⟩ := List.mem_map.mp hmem
    exact absurd (hrows c hc) (by omega)
  have hnew : ∀ new : Conversation, new.id = s.nextId →
      (s.conversations.insert new).find s.nextId = some new := by
    intro new hid
    rw [← hid] at hfresh ⊢
    exact Rows.find_insert_self hfresh
  have hnone : ∀ file, (s.nextId, file) ∉ s.files := by
    intro file hmem
    exact Nat.lt_irrefl _ (hfiles _ hmem)
  constructor
  · intro h row hrow
    have hcarries := h row ((hold _ rfl).trans hrow) _ (hnew _ rfl)
    have hrowid := Rows.key_of_find hrow
    refine ⟨⟨hcarries.title, hcarries.systemPrompt, hcarries.lockedModel⟩, ?_, hcarries.handoff⟩
    intro file hmem
    exact hnone file ((hcarries.files file).mpr (hrowid ▸ hmem))
  · intro h c hc d hd
    have hrow := (hold _ rfl).symm.trans hc
    obtain rfl := Option.some.inj ((hnew _ rfl).symm.trans hd)
    obtain ⟨hloaded, hnofiles, hhandoff⟩ := h c hrow
    have hrowid := Rows.key_of_find hrow
    refine ⟨hloaded.title, hloaded.systemPrompt, hloaded.lockedModel, ?_, hhandoff⟩
    intro file
    refine iff_of_false (hnone file) ?_
    rw [hrowid]
    exact hnofiles file

theorem enter_requests_of_ne {j : Nat} (h : j ≠ k) (phase : Resolving) :
    (s.enter k phase).requests j = s.requests j := Function.update_of_ne h _ _

theorem commit_requests_of_ne {j : Nat} (h : j ≠ k) (phase : Resolving) :
    (commitSuccessor s k now phase).requests j = s.requests j := by
  unfold commitSuccessor
  split
  next => exact enter_requests_of_ne h _
  next =>
    split
    next => exact enter_requests_of_ne h _
    next => exact enter_requests_of_ne h _
  next => rfl

/-- The request that an event belongs to. -/
def ChatEvent.mover : ChatEvent → Option Nat
  | .request k _ _ _ | .query k _ | .commit k _ | .abort k => some k
  | _ => none

/-- A step leaves the other requests where they are. -/
theorem next_requests_of_ne (e : ChatEvent) (h : e.mover ≠ some k) : (s.next e).requests k = s.requests k := by
  have hne : ∀ j, e.mover = some j → k ≠ j := by
    intro j hj heq
    exact h (heq ▸ hj)
  cases e with
  | request j user conversation now =>
    simp only [Chats.next]
    split
    next => rfl
    next => exact enter_requests_of_ne (hne j rfl) _
  | query j order =>
    simp only [Chats.next]
    split
    next => exact enter_requests_of_ne (hne j rfl) _
    next => rfl
  | commit j now =>
    simp only [Chats.next]
    split
    next => exact commit_requests_of_ne (hne j rfl) _
    next => rfl
  | abort j => exact enter_requests_of_ne (hne j rfl) _
  | start user title now => rfl
  | write c =>
    simp only [Chats.next]
    split
    next => rfl
    next => rfl
  | delete conversation => rfl
  | say message =>
    simp only [Chats.next]
    split
    next => rfl
    next => rfl
  | forget message => rfl
  | attach conversation file =>
    simp only [Chats.next]
    split
    next => rfl
    next => rfl
  | detach conversation file => rfl

/-- A request for an archived conversation is resolved by its commit. -/
theorem commit_of_resolved {e : ChatEvent} {new : Nat} (hphase : s.requests k = some (.forking conv))
    (hnew : (s.next e).requests k = some (.resolved new)) : ∃ now, e = .commit k now := by
  have hmover : e.mover = some k := by
    by_contra hother
    have hsame := next_requests_of_ne (s := s) e hother
    rw [hnew, hphase] at hsame
    exact absurd hsame (by simp)
  cases e with
  | commit j now =>
    obtain rfl := Option.some.inj hmover
    exact ⟨now, rfl⟩
  | request j user conversation now =>
    obtain rfl := Option.some.inj hmover
    simp only [Chats.next, hphase] at hnew
    exact absurd (hphase.symm.trans hnew) (by simp)
  | query j order =>
    -- a request that is at its commit makes no query
    obtain rfl := Option.some.inj hmover
    simp only [Chats.next, hphase] at hnew
    exact absurd ((Function.update_self j _ s.requests).symm.trans hnew) (by simp [checkRotation])
  | abort j =>
    obtain rfl := Option.some.inj hmover
    exact absurd ((Function.update_self j _ s.requests).symm.trans hnew) (by simp)
  | _ => exact absurd hmover (by simp [ChatEvent.mover])

/-- Where no conversation gets a second successor, the request has got the only one. -/
theorem continued_of_once {e : ChatEvent} {new : Nat}
    (honce : ∀ old new, Succeeds s e old new → ∀ p ∈ s.successions, p.old ≠ old)
    (hphase : s.requests k = some (.forking conv)) (hnew : (s.next e).requests k = some (.resolved new)) :
    ⟨conv.id, new⟩ ∈ (s.next e).successions ∧
      ∀ p ∈ (s.next e).successions, p.old = conv.id → p.new = new := by
  obtain ⟨now, rfl⟩ := commit_of_resolved hphase hnew
  have hnext : s.next (.commit k now) = s.succeed k conv (conv.successor s.nextId now) := by
    simp only [Chats.next, hphase]
    rfl
  have hlog : (s.next (.commit k now)).successions = ⟨conv.id, s.nextId⟩ :: s.successions := by
    rw [hnext]
    rfl
  have hid : s.nextId = new := by
    rw [hnext] at hnew
    exact Resolving.resolved.inj (Option.some.inj ((Function.update_self k _ s.requests).symm.trans hnew))
  rw [hlog, hid]
  refine ⟨List.mem_cons_self, fun p hp hold => ?_⟩
  rcases List.mem_cons.mp hp with rfl | hbefore
  · rfl
  · exact absurd hold (honce _ _ hlog p hbefore)

/-- A step that commits no successor. -/
theorem rotates_of_same {e : ChatEvent} (h : (s.next e).successions = s.successions) : Rotates s e := by
  have hnot : ∀ old new, ¬ Succeeds s e old new := by
    intro old new hsucceeds
    exact List.cons_ne_self _ _ (hsucceeds.symm.trans h)
  have honce : ∀ old new, Succeeds s e old new → ∀ p ∈ s.successions, p.old ≠ old :=
    fun old new hsucceeds => absurd hsucceeds (hnot old new)
  exact ⟨honce, fun _ _ _ => continued_of_once honce, fun old new h => absurd h (hnot old new)⟩

/-- A step that commits one. -/
theorem rotates_of_succeed (new : Conversation) {e : ChatEvent} {t : Chats}
    (hnext : s.next e = t.succeed k conv new) (hsuccessions : t.successions = s.successions) :
    Rotates s e ↔ (∀ p ∈ s.successions, p.old ≠ conv.id) ∧
      ∀ c, (t.succeed k conv new).conversations.find conv.id = some c →
        ∀ d, (t.succeed k conv new).conversations.find new.id = some d →
          Carries (t.succeed k conv new) c d := by
  have hlog : (s.next e).successions = ⟨conv.id, new.id⟩ :: s.successions := by
    rw [hnext, ← hsuccessions]
    rfl
  constructor
  · intro h
    refine ⟨h.once _ _ hlog, ?_⟩
    have hcarries := h.carries _ _ hlog
    rw [hnext] at hcarries
    exact hcarries
  · intro ⟨honce, hcarries⟩
    have heq : ∀ old new', Succeeds s e old new' → old = conv.id ∧ new' = new.id := by
      intro old new' hsucceeds
      obtain ⟨hhead, _⟩ := List.cons.inj (hsucceeds.symm.trans hlog)
      exact Succession.mk.inj hhead
    have hfirst : ∀ old new', Succeeds s e old new' → ∀ p ∈ s.successions, p.old ≠ old := by
      intro old new' hsucceeds
      rw [(heq old new' hsucceeds).1]
      exact honce
    refine ⟨hfirst, fun _ _ _ => continued_of_once hfirst, ?_⟩
    intro old new' hsucceeds
    obtain ⟨rfl, rfl⟩ := heq old new' hsucceeds
    rw [hnext]
    exact hcarries

theorem fresh_iff {handoff : Text} : Fresh s conv handoff ↔ (∀ p ∈ s.successions, p.old ≠ conv.id) ∧
    ∀ row, s.conversations.find conv.id = some row →
      AsLoaded conv row ∧ (∀ file, (conv.id, file) ∉ s.files) ∧ IsHandoff s.messages row handoff := by
  constructor
  · intro h
    exact ⟨h.first, fun row hrow => ⟨h.unchanged row hrow, h.noFiles row hrow, h.handoff row hrow⟩⟩
  · intro ⟨hfirst, hrow⟩
    exact ⟨hfirst, fun row h => (hrow row h).1, fun row h => (hrow row h).2.1, fun row h => (hrow row h).2.2⟩

/-- The old row as the rotation leaves it. -/
theorem find_archive (s : Chats) (id : Nat) (now : Int) :
    (s.archive id now).conversations.find id = (s.conversations.find id).map (Conversation.archive now) :=
  Rows.find_updateAt_self (Conversation.archive now) (Conversation.archive_id now)

/-- A row after one is archived has the id and the summary of a row before. -/
theorem mem_archive {rows : Rows Conversation.id} {id : Nat} {c : Conversation}
    (hc : c ∈ (rows.updateAt id (Conversation.archive now) (Conversation.archive_id now)).list) :
    ∃ row ∈ rows.list, row.id = c.id ∧ row.historySummary = c.historySummary := by
  obtain ⟨row, hrow, rfl⟩ := List.mem_map.mp hc
  refine ⟨row, hrow, ?_⟩
  split
  next => exact ⟨rfl, rfl⟩
  next => exact ⟨rfl, rfl⟩

theorem Known.archive (h : Known s) (id : Nat) (now : Int) :
    ∀ c ∈ (s.archive id now).conversations.list, c.id < s.nextId := by
  intro c hc
  obtain ⟨row, hrow, hid, _⟩ := mem_archive hc
  exact hid ▸ h.rows row hrow

theorem next_commit {phase : Resolving} (hphase : s.requests k = some phase) :
    s.next (.commit k now) = commitSuccessor s k now phase := by
  simp only [Chats.next, hphase]

/-- Only a commit adds to the successions. -/
theorem successions_next {e : ChatEvent} (hcommit : ∀ k now, e ≠ .commit k now) :
    (s.next e).successions = s.successions := by
  cases e with
  | commit k now => exact absurd rfl (hcommit k now)
  | start user title now => rfl
  | request k user conversation now =>
    simp only [Chats.next]
    split
    next => rfl
    next => rfl
  | query k order =>
    simp only [Chats.next]
    split
    next => rfl
    next => rfl
  | abort k => rfl
  | write conv =>
    simp only [Chats.next]
    split
    next => rfl
    next => rfl
  | delete conversation => rfl
  | say message =>
    simp only [Chats.next]
    split
    next => rfl
    next => rfl
  | forget message => rfl
  | attach conversation file =>
    simp only [Chats.next]
    split
    next => rfl
    next => rfl
  | detach conversation file => rfl

/-- The commit of a fork. -/
theorem rotates_forking (h : Known s) (hphase : s.requests k = some (.forking conv)) :
    Rotates s (.commit k now) ↔ SucceedsFresh s (.commit k now) := by
  have hfork : SucceedsFresh s (.commit k now) ↔ Fresh s conv [] := by
    simp only [SucceedsFresh, hphase]
  rw [hfork, fresh_iff, rotates_of_succeed (conv.successor s.nextId now) (next_commit hphase) rfl]
  refine and_congr Iff.rfl ?_
  exact carries_succeed_iff h.rows h.files (h.loaded k _ hphase conv rfl) none

/-- The commit of a rotation, which archives the row that it had loaded. -/
theorem rotates_handing (h : Known s) {archivedAt : Int} {handoff : Text}
    (hphase : s.requests k = some (.handing conv archivedAt handoff)) :
    Rotates s (.commit k now) ↔ SucceedsFresh s (.commit k now) := by
  have hnext : s.next (.commit k now) = commitSuccessor s k now (.handing conv archivedAt handoff) :=
    next_commit hphase
  unfold commitSuccessor at hnext
  dsimp only at hnext
  cases hfind : s.conversations.find conv.id with
  | none =>
    -- the row has been deleted: the request is refused, and nothing succeeds it
    rw [hfind] at hnext
    refine iff_of_true (rotates_of_same ?_) ?_
    · rw [hnext]
      rfl
    · simp [SucceedsFresh, hphase, hfind]
  | some row =>
    rw [hfind] at hnext
    have hhand : SucceedsFresh s (.commit k now) ↔ Fresh s conv handoff := by
      simp only [SucceedsFresh, hphase, hfind, Option.isSome_some, true_implies]
    rw [hhand, fresh_iff, rotates_of_succeed _ hnext rfl]
    refine and_congr Iff.rfl ?_
    refine Iff.trans (carries_succeed_iff (h.archive _ _) h.files (h.loaded k _ hphase conv rfl)
      (some handoff)) ?_
    rw [find_archive, hfind]
    constructor
    · intro hrow c hc
      obtain rfl := Option.some.inj hc
      obtain ⟨hloaded, hfiles, hhandoff⟩ := hrow _ rfl
      exact ⟨⟨hloaded.title, hloaded.systemPrompt, hloaded.lockedModel⟩, hfiles, hhandoff⟩
    · intro hrow c hc
      obtain rfl := Option.some.inj hc
      obtain ⟨hloaded, hfiles, hhandoff⟩ := hrow _ rfl
      exact ⟨⟨hloaded.title, hloaded.systemPrompt, hloaded.lockedModel⟩, hfiles, hhandoff⟩

theorem rotates_step (h : Known s) (e : ChatEvent) : Rotates s e ↔ SucceedsFresh s e := by
  cases e with
  | commit k now =>
    cases hphase : s.requests k with
    | none =>
      refine iff_of_true (rotates_of_same ?_) ?_
      · simp only [Chats.next, hphase]
      · simp only [SucceedsFresh, hphase]
    | some phase =>
      have hsame : (commitSuccessor s k now phase).successions = s.successions →
          SucceedsFresh s (.commit k now) → (Rotates s (.commit k now) ↔ SucceedsFresh s (.commit k now)) :=
        fun hlog hfresh => iff_of_true (rotates_of_same (next_commit hphase ▸ hlog)) hfresh
      cases phase with
      | forking conv => exact rotates_forking h hphase
      | handing conv archivedAt handoff => exact rotates_handing h hphase
      | loaded conv now' => exact hsame rfl (by simp only [SucceedsFresh, hphase])
      | counted conv now' n => exact hsame rfl (by simp only [SucceedsFresh, hphase])
      | due conv now' => exact hsame rfl (by simp only [SucceedsFresh, hphase])
      | resolved conversation => exact hsame rfl (by simp only [SucceedsFresh, hphase])
      | refused status => exact hsame rfl (by simp only [SucceedsFresh, hphase])
  | start | request | query | abort | write | delete | say | forget | attach | detach =>
    exact iff_of_true (rotates_of_same (successions_next nofun)) trivial

/-! ## Runs -/

theorem known_init : Known {} where
  rows := fun _ hc => absurd hc List.not_mem_nil
  files := fun _ hf => absurd hf List.not_mem_nil
  loaded := fun _ _ hphase => absurd hphase (by simp)

theorem Known.lt_of_isSome (h : Known s) {id : Nat} (hsome : (s.conversations.find id).isSome) :
    id < s.nextId := by
  obtain ⟨row, hfind⟩ := Option.isSome_iff_exists.mp hsome
  have hlt := h.rows row (Rows.mem_of_find hfind)
  rwa [Rows.key_of_find hfind] at hlt

theorem Known.enter (h : Known s) {phase : Resolving}
    (hphase : ∀ conv ∈ phase.conversation, conv.id < s.nextId) : Known (s.enter k phase) where
  rows := h.rows
  files := h.files
  loaded := by
    intro j phase' hj
    change Function.update s.requests k (some phase) j = some phase' at hj
    by_cases heq : j = k
    · rw [heq, Function.update_self] at hj
      exact Option.some.inj hj ▸ hphase
    · rw [Function.update_of_ne heq] at hj
      exact h.loaded j phase' hj

/-- A new row, with the next id. -/
theorem Known.insert (h : Known s) {new : Conversation} (hnew : new.id = s.nextId)
    (successions : List Succession) :
    Known { s with
      conversations := s.conversations.insert new
      nextId := s.nextId + 1
      successions := successions } where
  rows := by
    intro c hc
    rcases Rows.mem_of_mem_insert hc with hold | rfl
    · exact Nat.lt_succ_of_lt (h.rows c hold)
    · exact Nat.lt_succ_of_le (Nat.le_of_eq hnew)
  files := fun f hf => Nat.lt_succ_of_lt (h.files f hf)
  loaded := fun k phase hphase conv hconv => Nat.lt_succ_of_lt (h.loaded k phase hphase conv hconv)

theorem Known.succeed (h : Known s) {new : Conversation} (hnew : new.id = s.nextId) :
    Known (s.succeed k conv new) :=
  (h.insert hnew _).enter fun _ hc => absurd hc (by simp [Resolving.conversation])

theorem Known.commit (h : Known s) (phase : Resolving) : Known (commitSuccessor s k now phase) := by
  cases phase with
  | forking conv => exact h.succeed rfl
  | handing conv archivedAt handoff =>
    unfold commitSuccessor
    dsimp only
    split
    next => exact h.enter fun _ hc => absurd hc (by simp [Resolving.conversation])
    next =>
      have harchived : Known (s.archive conv.id archivedAt) :=
        ⟨h.archive conv.id archivedAt, h.files, h.loaded⟩
      exact harchived.succeed rfl
  | loaded conv now' => exact h
  | counted conv now' n => exact h
  | due conv now' => exact h
  | resolved conversation => exact h
  | refused status => exact h

/-- A query of a request stays with its conversation. -/
theorem conversation_checkRotation {messages order : List Message} {phase : Resolving} {conv : Conversation}
    (h : conv ∈ (checkRotation messages order phase).conversation) : conv ∈ phase.conversation := by
  cases phase with
  | loaded c now => exact h
  | counted c now n =>
    unfold checkRotation at h
    dsimp only at h
    split at h
    next => exact h
    next => exact absurd h (by simp [Resolving.conversation])
  | due c now =>
    unfold checkRotation at h
    dsimp only at h
    split at h
    next => exact h
    next => exact h
  | handing c now handoff => exact h
  | forking c => exact h
  | resolved conversation => exact h
  | refused status => exact h

theorem conversation_resolve {user conversation : Nat} {conv : Conversation}
    (h : conv ∈ (resolveConversation s user conversation now).conversation) :
    conv ∈ s.conversations.list := by
  unfold resolveConversation at h
  split at h
  next => exact absurd h (by simp [Resolving.conversation])
  next c hfind =>
    have hmem := Rows.mem_of_find hfind
    split at h
    next => exact absurd h (by simp [Resolving.conversation])
    next =>
      split at h
      next => exact Option.some.inj h ▸ hmem
      next => exact Option.some.inj h ▸ hmem

theorem known_next (h : Known s) (e : ChatEvent) : Known (s.next e) := by
  cases e with
  | start user title now => exact h.insert rfl s.successions
  | request k user conversation now =>
    simp only [Chats.next]
    split
    next => exact h
    next => exact h.enter fun conv hconv => h.rows conv (conversation_resolve hconv)
  | query k order =>
    simp only [Chats.next]
    split
    next phase hphase =>
      exact h.enter fun conv hconv => h.loaded k phase hphase conv (conversation_checkRotation hconv)
    next => exact h
  | commit k now =>
    simp only [Chats.next]
    split
    next phase _ => exact h.commit phase
    next => exact h
  | abort k => exact h.enter fun _ hc => absurd hc (by simp [Resolving.conversation])
  | write conv =>
    simp only [Chats.next]
    split
    next hsome =>
      refine ⟨?_, h.files, h.loaded⟩
      intro c hc
      rcases Rows.mem_of_mem_insert hc with hold | rfl
      · exact h.rows c (Rows.mem_delete.mp hold).1
      · exact h.lt_of_isSome hsome
    next => exact h
  | delete conversation =>
    refine ⟨?_, ?_, h.loaded⟩
    · exact fun c hc => h.rows c (Rows.mem_delete.mp hc).1
    · exact fun f hf => h.files f (List.mem_of_mem_filter hf)
  | say message =>
    simp only [Chats.next]
    split
    next => exact ⟨h.rows, h.files, h.loaded⟩
    next => exact h
  | forget message => exact ⟨h.rows, h.files, h.loaded⟩
  | attach conversation file =>
    simp only [Chats.next]
    split
    next hsome =>
      refine ⟨h.rows, ?_, h.loaded⟩
      intro f hf
      rcases List.mem_cons.mp hf with rfl | hold
      · exact h.lt_of_isSome hsome
      · exact h.files f hold
    next => exact h
  | detach conversation file => exact ⟨h.rows, fun f hf => h.files f (List.mem_of_mem_filter hf), h.loaded⟩

/-- In every run of requests and of other writes, conversations have one
successor each, in which later requests are continued, with what they had,
exactly when every successor is committed for a conversation that has none yet,
no files, and the title, the settings and the hand-off that the request has
read. -/
theorem rotates_iff (events : List ChatEvent) :
    Throughout Chats.next Rotates {} events ↔ Throughout Chats.next SucceedsFresh {} events :=
  throughout_congr Known (fun _ e h => known_next h e) (fun _ e h => rotates_step h e) known_init events

/-! ## A request that still names the archived conversation -/

/-- A conversation is four days old when a request rotates it; another request
names it after that. -/
def archivedNamed : List ChatEvent :=
  [.start 1 "Trip".toList 0, .request 0 1 0 345600, .query 0 [], .query 0 [], .query 0 [],
    .commit 0 345600, .request 1 1 0 345660]

theorem archivedNamed_twice : ¬ ∀ events : List ChatEvent, Throughout Chats.next Rotates {} events := by
  intro h
  obtain ⟨_, hrotates, _⟩ := throughout_append.mp (h (archivedNamed ++ [.commit 1 345660]))
  have hfirst : (run Chats.next {} archivedNamed).successions = [⟨0, 1⟩] := by decide
  have hsecond : ((run Chats.next {} archivedNamed).next (.commit 1 345660)).successions = [⟨0, 2⟩, ⟨0, 1⟩] := by
    decide
  have hsucceeds : Succeeds (run Chats.next {} archivedNamed) (.commit 1 345660) 0 2 := by
    unfold Succeeds
    rw [hsecond, hfirst]
  exact hrotates.once 0 2 hsucceeds ⟨0, 1⟩ (by rw [hfirst]; exact List.mem_singleton_self _) rfl

end Eidetic.Conversations
