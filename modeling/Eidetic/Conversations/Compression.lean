import Eidetic.Conversations.Rotation

/-!
# What a summary stands for

`history_summary` has two writers: a rotation hands the end of a conversation to
the next one in it, and `compress_history` replaces it by a summary of the old
messages of its own conversation, without looking at what is there. So a summary
is replaced by one that covers it exactly when it is a summary of messages that
are compressed again, or its text happens to be in the prompt; a hand-off, of
messages of another conversation, is dropped (`keepsContext_iff`).

Each summary carries the messages that it stands for (`Source`). `Sourced` says
that they are of its conversation or of earlier ones, those of a hand-off of
earlier ones alone, which is why no compression covers a hand-off. `Covering` is
what a conversation keeps whose compressions do not overlap: its messages have
one order, what the summary stands for is a beginning of it, and what a
compression that waits has read is one that is no shorter. So what each
compression replaces is covered (`compressesOwn_of_apart`), and a summary is lost
only to a hand-off, two compressions at once, a deletion or a tie.
-/

namespace Eidetic.Conversations

open Eidetic.Lib Eidetic.Py

/-! ## The compression -/

/-- `_COMPRESS_SYSTEM`. -/
def compressSystem : Text :=
  ("Compress this conversation excerpt into a dense factual summary.\n" ++
    "Focus on: decisions made, problems solved, code written, errors fixed, context established.\n" ++
    "Output bullet points or key:value pairs. Max 200 words. No filler, no pleasantries.").toList

/-- `all_msgs[:-10]`. -/
def oldMessages (order : List Message) : List Message := order.take (order.length - 10)

/-- The contents of the messages of the call. -/
def compressPrompt (old : List Message) : List Text :=
  [compressSystem, joinLines (old.map fun m => m.role.name ++ ": ".toList ++ m.content.take 400)]

/-- At most 500 words of what the model answers. -/
def shortened (content : Text) : Text :=
  let summary := strip content
  if 500 < (words summary).length then joinWords ((words summary).take 500) else summary

/-- A call of `compress_history` that waits for the model. -/
structure Compression where
  conversation : Nat
  old : List Message

/-- Who has written a summary. -/
inductive Writer
  | rotation
  | compression

/-- The writer of a summary, and the messages that it stands for. -/
structure Source where
  writer : Writer
  stands : List Message

structure Histories where
  conversations : Rows Conversation.id := Rows.empty
  /-- No conversation has had this id or a later one. -/
  nextId : Nat := 0
  messages : List Message := []
  compressions : Nat → Option Compression := fun _ => none
  /-- Where the summary of each conversation comes from. -/
  sources : Nat → Source := fun _ => ⟨.compression, []⟩

inductive HistoryEvent
  | start (user : Nat) (title : Text) (now : Int)
  /-- A message of a turn. -/
  | say (message : Message)
  | forget (message : Nat)
  /-- A conversation is archived by a reset. -/
  | archive (conversation : Nat) (now : Int)
  /-- A request continues an archived conversation in a new one. -/
  | fork (conversation : Nat) (now : Int)
  /-- A request rotates a conversation, whose messages come in an order. -/
  | rotate (conversation : Nat) (order : List Message) (now : Int)
  | delete (conversation : Nat)
  /-- `compress_history` reads the messages, which come in an order. -/
  | compress (k conversation : Nat) (order : List Message)
  /-- The model answers, or fails to. -/
  | answer (k : Nat) (content : Option Text)
  /-- The process ends. -/
  | crash (k : Nat)

namespace Histories

/-- A new conversation, with a summary or without. -/
def insert (s : Histories) (conv : Conversation) (source : Source) : Histories :=
  { s with
    conversations := s.conversations.insert conv
    nextId := s.nextId + 1
    sources := Function.update s.sources conv.id source }

def archive (s : Histories) (conversation : Nat) (now : Int) : Histories :=
  { s with
    conversations := s.conversations.updateAt conversation (Conversation.archive now)
      (Conversation.archive_id now) }

/-- The rotation of a conversation that is due. -/
def rotate (s : Histories) (conv : Conversation) (order : List Message) (now : Int) : Histories :=
  (s.archive conv.id now).insert
    { conv.successor s.nextId now with
      historySummary := some (handoffText conv.historySummary (latest 5 order)) }
    ⟨.rotation, (s.sources conv.id).stands ++ latest 5 order⟩

end Histories

def Conversation.summarise (summary : Text) (conv : Conversation) : Conversation :=
  { conv with historySummary := some summary }

/-- The end of `_compress_history`. -/
def Histories.summarise (s : Histories) (c : Compression) (content : Text) : Histories :=
  { s with
    conversations := s.conversations.updateAt c.conversation (Conversation.summarise (shortened content))
      fun _ => rfl
    sources := Function.update s.sources c.conversation ⟨.compression, c.old⟩ }

def Histories.close (s : Histories) (k : Nat) : Histories :=
  { s with compressions := Function.update s.compressions k none }

def Histories.next (s : Histories) : HistoryEvent → Histories
  | .start user title now =>
    s.insert { id := s.nextId, userId := user, title := strip (title.take 60), updatedAt := now }
      ⟨.compression, []⟩
  | .say message =>
    if (s.conversations.find message.conversationId).isSome then
      { s with messages := s.messages ++ [message] }
    else s
  | .forget message => { s with messages := s.messages.filter fun m => m.id ≠ message }
  | .archive conversation now => s.archive conversation now
  | .fork conversation now =>
    match s.conversations.find conversation with
    | some conv =>
      if conv.isArchived then s.insert (conv.successor s.nextId now) ⟨.compression, []⟩ else s
    | none => s
  | .rotate conversation order now =>
    match s.conversations.find conversation with
    | some conv =>
      if !conv.isArchived ∧ Chronological s.messages conv.id order ∧
          rotationDue order.length (totalTokens s.messages conv.id) (ageDays conv now) then
        s.rotate conv order now
      else s
    | none => s
  | .delete conversation =>
    { s with
      conversations := s.conversations.delete conversation
      messages := s.messages.filter fun m => m.conversationId ≠ conversation }
  | .compress k conversation order =>
    if (s.compressions k).isNone ∧ Chronological s.messages conversation order ∧ 10 < order.length then
      { s with compressions := Function.update s.compressions k (some ⟨conversation, oldMessages order⟩) }
    else s
  | .answer k content =>
    match s.compressions k, content with
    -- the summary that is there by now is overwritten unread
    | some c, some content => (s.summarise c content).close k
    | _, _ => s.close k
  | .crash k => s.close k

/-! ## What is kept -/

/-- A summary that a prompt contains, or of which it contains all that it stands for. -/
def Covered (previous : Text) (stands : List Message) (old : List Message) : Prop :=
  previous = [] ∨ (∃ text ∈ compressPrompt old, previous <:+: text) ∨ stands ⊆ old

/-- The summary that a step replaces is covered by what the new one is made of:
the prompt of a compression, or the text that a rotation cuts. -/
def KeepsContext (s : Histories) : HistoryEvent → Prop
  | .answer k (some _) => ∀ c, s.compressions k = some c → ∀ row, s.conversations.find c.conversation = some row →
    Covered (row.historySummary.getD []) (s.sources c.conversation).stands c.old
  | .rotate conversation order _ => ∀ row, s.conversations.find conversation = some row →
    row.historySummary.getD [] <:+: handoff row.historySummary (latest 5 order)
  | _ => True

/-- A compression replaces a summary that a compression has written, of messages
that it has read as well, unless there is none or its text is in the prompt. -/
def CompressesOwn (s : Histories) : HistoryEvent → Prop
  | .answer k (some _) => ∀ c, s.compressions k = some c → ∀ row, s.conversations.find c.conversation = some row →
    row.historySummary.getD [] = [] ∨
      (∃ text ∈ compressPrompt c.old, row.historySummary.getD [] <:+: text) ∨
      (s.sources c.conversation).writer = .compression ∧ (s.sources c.conversation).stands ⊆ c.old
  | _ => True

/-- The messages are of the conversation or of earlier ones. -/
def StandsBy (conversation : Nat) (source : Source) : Prop :=
  ∀ m ∈ source.stands, m.conversationId ≤ conversation

/-- The messages of a hand-off are of earlier conversations. -/
def HandedTo (conversation : Nat) (source : Source) : Prop :=
  source.writer = .rotation → ∀ m ∈ source.stands, m.conversationId < conversation

/-- What is compressed is of its own conversation, and something. -/
def ReadsOwn (compression : Option Compression) : Prop :=
  ∀ c, compression = some c → c.old ≠ [] ∧ ∀ m ∈ c.old, m.conversationId = c.conversation

/-- A summary stands for messages, of which those of a hand-off are of earlier
conversations, and a compression has read messages of its own. -/
structure Sourced (s : Histories) : Prop where
  rows : ∀ c ∈ s.conversations.list, c.id < s.nextId
  stands : ∀ c ∈ s.conversations.list, c.historySummary.getD [] ≠ [] → (s.sources c.id).stands ≠ []
  le : ∀ id, StandsBy id (s.sources id)
  handed : ∀ id, HandedTo id (s.sources id)
  compressing : ∀ k, ReadsOwn (s.compressions k)

variable {s : Histories} {k : Nat} {conv : Conversation} {now : Int} {order : List Message}

theorem infix_intercalate {sep piece : Text} {parts : List Text} (h : piece ∈ parts) :
    piece <:+: sep.intercalate parts := by
  induction parts with
  | nil => exact absurd h List.not_mem_nil
  | cons p parts ih =>
    cases parts with
    | nil =>
      obtain rfl := List.mem_singleton.mp h
      simp [List.intercalate]
    | cons q parts =>
      have hjoin : sep.intercalate (p :: q :: parts) = p ++ (sep ++ sep.intercalate (q :: parts)) := by
        simp [List.intercalate]
      rw [hjoin]
      rcases List.mem_cons.mp h with rfl | hrest
      · exact (List.prefix_append _ _).isInfix
      · have hsuffix : sep.intercalate (q :: parts) <:+ p ++ (sep ++ sep.intercalate (q :: parts)) :=
          (List.suffix_append sep _).trans (List.suffix_append p _)
        exact (ih hrest).trans hsuffix.isInfix

/-- The text that a rotation cuts has the summary in it. -/
theorem summary_infix_handoff (summary : Option Text) (recent : List Message) :
    summary.getD [] <:+: handoff summary recent := by
  cases summary with
  | none => exact List.nil_infix
  | some text =>
    cases text with
    | nil => exact List.nil_infix
    | cons c text =>
      have hpart : "Previous conversation summary:\n".toList ++ (c :: text) ∈
          handoffParts (some (c :: text)) recent := List.mem_append_left _ (List.mem_singleton_self _)
      exact (List.suffix_append _ _).isInfix.trans (infix_intercalate hpart)

/-- A hand-off is of a summary or of messages. -/
theorem handoffText_eq_nil (summary : Option Text) (h : summary.getD [] = []) :
    handoffText summary [] = [] := by
  cases summary with
  | none => rfl
  | some text =>
    obtain rfl : text = [] := h
    rfl

/-! ## One step -/

theorem keepsContext_step (h : Sourced s) (e : HistoryEvent) : KeepsContext s e ↔ CompressesOwn s e := by
  cases e with
  | answer k content =>
    cases content with
    | none => exact Iff.rfl
    | some content =>
      refine forall_congr' fun c => forall_congr' fun hc => forall_congr' fun row => forall_congr' fun hrow => ?_
      obtain ⟨hmem, hid⟩ := Rows.find_eq_some.mp hrow
      constructor
      · intro hcovered
        rcases hcovered with hnone | hinfix | hsub
        · exact .inl hnone
        · exact .inr (.inl hinfix)
        · by_cases hnone : row.historySummary.getD [] = []
          · exact .inl hnone
          · refine .inr (.inr ⟨?_, hsub⟩)
            cases hwriter : (s.sources c.conversation).writer with
            | compression => rfl
            | rotation =>
              -- a message of an earlier conversation is not compressed here
              obtain ⟨m, hm⟩ := List.exists_mem_of_ne_nil _ (h.stands row hmem hnone)
              rw [hid] at hm
              have hlt := h.handed _ hwriter m hm
              have heq := (h.compressing k c hc).2 m (hsub hm)
              omega
      · intro hown
        rcases hown with hnone | hinfix | ⟨_, hsub⟩
        · exact .inl hnone
        · exact .inr (.inl hinfix)
        · exact .inr (.inr hsub)
  | rotate conversation order now =>
    exact iff_of_true (fun row _ => summary_infix_handoff row.historySummary (latest 5 order)) trivial
  | start user title now => exact Iff.rfl
  | say message => exact Iff.rfl
  | forget message => exact Iff.rfl
  | archive conversation now => exact Iff.rfl
  | fork conversation now => exact Iff.rfl
  | delete conversation => exact Iff.rfl
  | compress k conversation order => exact Iff.rfl
  | crash k => exact Iff.rfl

/-! ## Runs -/

theorem sourced_init : Sourced {} where
  rows := fun _ hc => absurd hc List.not_mem_nil
  stands := fun _ hc => absurd hc List.not_mem_nil
  le := fun _ _ hm => absurd hm List.not_mem_nil
  handed := fun _ hwriter => absurd hwriter (by simp)
  compressing := fun _ _ hc => absurd hc (by simp)

theorem Sourced.insert (h : Sourced s) {source : Source} (hid : conv.id = s.nextId)
    (hstands : conv.historySummary.getD [] ≠ [] → source.stands ≠ [])
    (hlt : ∀ m ∈ source.stands, m.conversationId < s.nextId) : Sourced (s.insert conv source) where
  rows := by
    intro c hc
    rcases Rows.mem_of_mem_insert hc with hold | rfl
    · exact Nat.lt_succ_of_lt (h.rows c hold)
    · exact Nat.lt_succ_of_le (Nat.le_of_eq hid)
  stands := by
    intro c hc hsummary
    show (Function.update s.sources conv.id source c.id).stands ≠ []
    rcases Rows.mem_of_mem_insert hc with hold | rfl
    · have hne : c.id ≠ conv.id := by
        have := h.rows c hold
        omega
      rw [Function.update_of_ne hne]
      exact h.stands c hold hsummary
    · rw [Function.update_self]
      exact hstands hsummary
  le := by
    refine (Function.forall_update_iff s.sources StandsBy).mpr ⟨?_, fun id _ => h.le id⟩
    intro m hm
    have := hlt m hm
    omega
  handed := by
    refine (Function.forall_update_iff s.sources HandedTo).mpr ⟨?_, fun id _ => h.handed id⟩
    intro _ m hm
    have := hlt m hm
    omega
  compressing := h.compressing

theorem Sourced.archive (h : Sourced s) (id : Nat) (now : Int) : Sourced (s.archive id now) := by
  refine ⟨?_, ?_, h.le, h.handed, h.compressing⟩
  · intro c hc
    obtain ⟨row, hmem, hid, _⟩ := mem_archive hc
    exact hid ▸ h.rows row hmem
  · intro c hc hsummary
    obtain ⟨row, hmem, hid, heq⟩ := mem_archive hc
    have hstands := h.stands row hmem (heq ▸ hsummary)
    exact hid ▸ hstands

theorem Sourced.rotate (h : Sourced s) (hmem : conv ∈ s.conversations.list)
    (horder : Chronological s.messages conv.id order) : Sourced (s.rotate conv order now) := by
  have hlt := h.rows conv hmem
  refine (h.archive conv.id now).insert rfl ?_ ?_
  · intro hsummary hstands
    obtain ⟨hold, hrecent⟩ := List.append_eq_nil_iff.mp hstands
    have hnone : conv.historySummary.getD [] = [] := by
      by_contra hne
      exact h.stands conv hmem hne hold
    refine hsummary ?_
    show handoffText conv.historySummary (latest 5 order) = []
    rw [hrecent]
    exact handoffText_eq_nil _ hnone
  · intro m hm
    show m.conversationId < s.nextId
    rcases List.mem_append.mp hm with hold | hrecent
    · have := h.le conv.id m hold
      omega
    · have hmessage := horder.perm.subset (List.mem_of_mem_drop hrecent)
      have := (List.mem_filter.mp hmessage).2
      rw [of_decide_eq_true this]
      exact hlt

theorem Sourced.summarise (h : Sourced s) {c : Compression} (content : Text) (hold : c.old ≠ [])
    (hown : ∀ m ∈ c.old, m.conversationId = c.conversation) : Sourced (s.summarise c content) where
  rows := by
    intro d hd
    obtain ⟨row, hrow, rfl⟩ := List.mem_map.mp hd
    have hlt := h.rows row hrow
    split
    next => exact hlt
    next => exact hlt
  stands := by
    intro d hd hsummary
    obtain ⟨row, hrow, rfl⟩ := List.mem_map.mp hd
    by_cases hid : row.id = c.conversation
    · rw [if_pos hid]
      show (Function.update s.sources c.conversation ⟨.compression, c.old⟩ row.id).stands ≠ []
      rw [hid, Function.update_self]
      exact hold
    · rw [if_neg hid] at hsummary ⊢
      show (Function.update s.sources c.conversation ⟨.compression, c.old⟩ row.id).stands ≠ []
      rw [Function.update_of_ne hid]
      exact h.stands row hrow hsummary
  le := by
    refine (Function.forall_update_iff s.sources StandsBy).mpr ⟨?_, fun id _ => h.le id⟩
    exact fun m hm => Nat.le_of_eq (hown m hm)
  handed := by
    refine (Function.forall_update_iff s.sources HandedTo).mpr ⟨?_, fun id _ => h.handed id⟩
    intro hwriter
    exact absurd hwriter (by simp)
  compressing := h.compressing

theorem Sourced.close (h : Sourced s) (k : Nat) : Sourced (s.close k) := by
  refine ⟨h.rows, h.stands, h.le, h.handed, ?_⟩
  refine (Function.forall_update_iff s.compressions fun _ => ReadsOwn).mpr ⟨?_, fun j _ => h.compressing j⟩
  exact fun c hc => absurd hc (by simp)

theorem Sourced.compress (h : Sourced s) {conversation : Nat}
    (horder : Chronological s.messages conversation order) (hlong : 10 < order.length) :
    Sourced { s with
      compressions := Function.update s.compressions k (some ⟨conversation, oldMessages order⟩) } := by
  refine ⟨h.rows, h.stands, h.le, h.handed, ?_⟩
  refine (Function.forall_update_iff s.compressions fun _ => ReadsOwn).mpr ⟨?_, fun j _ => h.compressing j⟩
  intro c hc
  obtain rfl := Option.some.inj hc
  constructor
  · show order.take (order.length - 10) ≠ []
    rw [Ne, List.take_eq_nil_iff]
    intro hnil
    rcases hnil with hzero | hempty
    · omega
    · rw [hempty] at hlong
      exact absurd hlong (by simp)
  · intro m hm
    have hmessage := horder.perm.subset (List.mem_of_mem_take hm)
    exact of_decide_eq_true (List.mem_filter.mp hmessage).2

theorem sourced_next (h : Sourced s) (e : HistoryEvent) : Sourced (s.next e) := by
  cases e with
  | start user title now =>
    exact h.insert rfl (fun hne => absurd rfl hne) fun _ hm => absurd hm List.not_mem_nil
  | say message =>
    simp only [Histories.next]
    split
    next => exact ⟨h.rows, h.stands, h.le, h.handed, h.compressing⟩
    next => exact h
  | forget message => exact ⟨h.rows, h.stands, h.le, h.handed, h.compressing⟩
  | archive conversation now => exact h.archive conversation now
  | fork conversation now =>
    simp only [Histories.next]
    split
    next conv _ =>
      split
      next => exact h.insert rfl (fun hne => absurd rfl hne) fun _ hm => absurd hm List.not_mem_nil
      next => exact h
    next => exact h
  | rotate conversation order now =>
    simp only [Histories.next]
    split
    next conv hfind =>
      split
      next hdue => exact h.rotate (Rows.mem_of_find hfind) hdue.2.1
      next => exact h
    next => exact h
  | delete conversation =>
    refine ⟨?_, ?_, h.le, h.handed, h.compressing⟩
    · exact fun c hc => h.rows c (Rows.mem_delete.mp hc).1
    · exact fun c hc => h.stands c (Rows.mem_delete.mp hc).1
  | compress k conversation order =>
    simp only [Histories.next]
    split
    next hread => exact h.compress hread.2.1 hread.2.2
    next => exact h
  | answer k content =>
    simp only [Histories.next]
    split
    next c content hc =>
      obtain ⟨hold, hown⟩ := h.compressing k c hc
      exact (h.summarise content hold hown).close k
    next => exact h.close k
  | crash k => exact h.close k

/-- In every run a summary is replaced by one that is made of it, or of all that
it stands for, exactly when every compression that answers replaces a summary of
messages that it has read as well, unless there is none or its text is in the
prompt: so never, but by chance, a hand-off. -/
theorem keepsContext_iff (events : List HistoryEvent) :
    Throughout Histories.next KeepsContext {} events ↔ Throughout Histories.next CompressesOwn {} events :=
  throughout_congr Sourced (fun _ e h => sourced_next h e) (fun _ e h => keepsContext_step h e)
    sourced_init events

/-! ## Compressions apart -/

/-- A message is later than those of its conversation, none is taken out of a
conversation that stays, and a compression begins when no other one of its
conversation waits, over a summary that is no hand-off. -/
def Apart (s : Histories) : HistoryEvent → Prop
  | .say message => ∀ m ∈ messagesOf s.messages message.conversationId, m.createdAt < message.createdAt
  | .forget _ => False
  | .compress _ conversation _ =>
    (s.sources conversation).writer = .compression ∧
      ∀ k c, s.compressions k = some c → c.conversation ≠ conversation
  | _ => True

/-- A compression that waits has read all that the summary stands for, and what
it has read is old for as long as the conversation is there. -/
structure Widens (s : Histories) (c : Compression) : Prop where
  known : c.conversation < s.nextId
  writer : (s.sources c.conversation).writer = .compression
  stands : (s.sources c.conversation).stands ⊆ c.old
  old : (s.conversations.find c.conversation).isSome →
    c.old <+: oldMessages (messagesOf s.messages c.conversation)

/-- The summary of a compression stands for a beginning of the conversation. -/
def StandsFirst (s : Histories) (id : Nat) : Prop :=
  (s.conversations.find id).isSome → (s.sources id).writer = .compression →
    (s.sources id).stands <+: oldMessages (messagesOf s.messages id)

/-- What compressions apart keep: a conversation's messages have one order, of
which each summary, and after it each compression that waits, has the beginning. -/
structure Covering (s : Histories) : Prop where
  owned : ∀ m ∈ s.messages, (s.conversations.find m.conversationId).isSome
  increasing : ∀ id, (messagesOf s.messages id).Pairwise fun a b => a.createdAt < b.createdAt
  first : ∀ id, StandsFirst s id
  widens : ∀ k c, s.compressions k = some c → Widens s c
  apart : ∀ j k c d, s.compressions j = some c → s.compressions k = some d →
    c.conversation = d.conversation → j = k

theorem oldMessages_prefix {before after : List Message} (h : before <+: after) :
    oldMessages before <+: oldMessages after := by
  obtain ⟨rest, rfl⟩ := h
  have hle : before.length - 10 ≤ (before ++ rest).length - 10 := by
    rw [List.length_append]
    omega
  have htake : oldMessages before = (before ++ rest).take (before.length - 10) :=
    (List.take_append_of_le_length (Nat.sub_le _ _)).symm
  rw [htake]
  exact List.take_prefix_take_left hle

theorem messagesOf_append (messages : List Message) (message : Message) (id : Nat) :
    messagesOf (messages ++ [message]) id
      = messagesOf messages id ++ if message.conversationId = id then [message] else [] := by
  unfold messagesOf
  rw [List.filter_append, List.filter_cons, List.filter_nil]
  simp only [decide_eq_true_eq]

theorem messagesOf_delete {conversation id : Nat} (hne : id ≠ conversation) (messages : List Message) :
    messagesOf (messages.filter fun m => m.conversationId ≠ conversation) id = messagesOf messages id := by
  unfold messagesOf
  rw [List.filter_filter]
  refine List.filter_congr fun m _ => ?_
  by_cases hid : m.conversationId = id <;> simp_all

theorem covering_init : Covering {} where
  owned := fun _ hm => absurd hm List.not_mem_nil
  increasing := fun _ => List.Pairwise.nil
  first := fun _ hfind => absurd hfind (by simp)
  widens := fun _ _ hc => absurd hc (by simp)
  apart := fun _ _ _ _ hc => absurd hc (by simp)

/-- A message of the end of a conversation moves no beginning. -/
theorem Covering.say (h : Covering s) {message : Message}
    (hfind : (s.conversations.find message.conversationId).isSome)
    (hlater : ∀ m ∈ messagesOf s.messages message.conversationId, m.createdAt < message.createdAt) :
    Covering { s with messages := s.messages ++ [message] } := by
  have hgrows : ∀ id, oldMessages (messagesOf s.messages id) <+:
      oldMessages (messagesOf (s.messages ++ [message]) id) := by
    intro id
    rw [messagesOf_append]
    exact oldMessages_prefix (List.prefix_append _ _)
  refine ⟨?_, ?_, ?_, ?_, h.apart⟩
  · intro m hm
    rcases List.mem_append.mp hm with hold | hnew
    · exact h.owned m hold
    · exact List.mem_singleton.mp hnew ▸ hfind
  · intro id
    show (messagesOf (s.messages ++ [message]) id).Pairwise _
    rw [messagesOf_append]
    split
    next heq =>
      subst heq
      refine List.pairwise_append.mpr ⟨h.increasing _, List.pairwise_singleton _ _, ?_⟩
      intro a ha b hb
      exact List.mem_singleton.mp hb ▸ hlater a ha
    next =>
      rw [List.append_nil]
      exact h.increasing id
  · exact fun id hid hwriter => (h.first id hid hwriter).trans (hgrows id)
  · intro k c hc
    have hwidens := h.widens k c hc
    exact ⟨hwidens.known, hwidens.writer, hwidens.stands,
      fun hid => (hwidens.old hid).trans (hgrows c.conversation)⟩

/-- A conversation that is new has no messages yet. -/
theorem Covering.insert (h : Covering s) {source : Source} (hid : conv.id = s.nextId)
    (hstands : source.writer = .compression → source.stands = []) : Covering (s.insert conv source) := by
  have hfind : ∀ id, id ≠ conv.id → (s.insert conv source).conversations.find id = s.conversations.find id :=
    fun id hne => Rows.find_insert_of_ne hne
  have hsource : ∀ id, id ≠ conv.id → (s.insert conv source).sources id = s.sources id :=
    fun id hne => Function.update_of_ne hne _ _
  refine ⟨?_, h.increasing, ?_, ?_, h.apart⟩
  · exact fun m hm => Rows.isSome_find_insert (h.owned m hm)
  · intro id
    by_cases hnew : id = conv.id
    · intro _ hwriter
      have hself : (s.insert conv source).sources id = source := by
        subst hnew
        exact Function.update_self _ _ _
      rw [hself] at hwriter ⊢
      rw [hstands hwriter]
      exact List.nil_prefix
    · unfold StandsFirst
      rw [hfind id hnew, hsource id hnew]
      exact h.first id
  · intro k c hc
    have hwidens := h.widens k c hc
    have hne : c.conversation ≠ conv.id := by
      have := hwidens.known
      omega
    refine ⟨Nat.lt_succ_of_lt hwidens.known, ?_, ?_, ?_⟩
    · rw [hsource _ hne]
      exact hwidens.writer
    · rw [hsource _ hne]
      exact hwidens.stands
    · rw [hfind _ hne]
      exact hwidens.old

theorem Covering.archive (h : Covering s) (id : Nat) (now : Int) : Covering (s.archive id now) := by
  have hfind : ∀ j, ((s.archive id now).conversations.find j).isSome = (s.conversations.find j).isSome :=
    fun j => Rows.isSome_find_updateAt _ (Conversation.archive_id now)
  refine ⟨?_, h.increasing, ?_, ?_, h.apart⟩
  · exact fun m hm => (hfind _).trans (h.owned m hm)
  · intro j hj
    exact h.first j ((hfind j).symm.trans hj)
  · intro k c hc
    have hwidens := h.widens k c hc
    exact ⟨hwidens.known, hwidens.writer, hwidens.stands, fun hj => hwidens.old ((hfind _).symm.trans hj)⟩

theorem Covering.delete (h : Covering s) (conversation : Nat) :
    Covering (s.next (.delete conversation)) := by
  have hgone : ∀ id, ((s.conversations.delete conversation).find id).isSome →
      id ≠ conversation ∧ (s.conversations.find id).isSome := by
    intro id hid
    rw [Rows.find_delete] at hid
    split at hid
    next => exact absurd hid (by simp)
    next hne => exact ⟨hne, hid⟩
  refine ⟨?_, ?_, ?_, ?_, h.apart⟩
  · intro m hm
    obtain ⟨hmem, hne⟩ := List.mem_filter.mp hm
    show ((s.conversations.delete conversation).find m.conversationId).isSome
    rw [Rows.find_delete, if_neg (of_decide_eq_true hne)]
    exact h.owned m hmem
  · intro id
    exact (h.increasing id).sublist (List.filter_sublist.filter _)
  · intro id hid hwriter
    obtain ⟨hne, hold⟩ := hgone id hid
    show _ <+: oldMessages (messagesOf (s.messages.filter _) id)
    rw [messagesOf_delete hne]
    exact h.first id hold hwriter
  · intro k c hc
    have hwidens := h.widens k c hc
    refine ⟨hwidens.known, hwidens.writer, hwidens.stands, fun hid => ?_⟩
    obtain ⟨hne, hold⟩ := hgone _ hid
    show _ <+: oldMessages (messagesOf (s.messages.filter _) c.conversation)
    rw [messagesOf_delete hne]
    exact hwidens.old hold

theorem waits_of_close {j : Nat} {c : Compression} (h : (s.close k).compressions j = some c) :
    j ≠ k ∧ s.compressions j = some c := by
  have happly : (if j = k then none else s.compressions j) = some c :=
    (Function.update_apply s.compressions k none j).symm.trans h
  split at happly
  next => exact absurd happly (by simp)
  next hne => exact ⟨hne, happly⟩

theorem Covering.close (h : Covering s) (k : Nat) : Covering (s.close k) := by
  have hstays : ∀ j c, (s.close k).compressions j = some c → s.compressions j = some c :=
    fun _ _ hc => (waits_of_close hc).2
  refine ⟨h.owned, h.increasing, h.first, ?_, ?_⟩
  · intro j c hc
    have hwidens := h.widens j c (hstays j c hc)
    exact ⟨hwidens.known, hwidens.writer, hwidens.stands, hwidens.old⟩
  · exact fun i j c d hc hd => h.apart i j c d (hstays i c hc) (hstays j d hd)

/-- A compression reads the beginning of the one order of the messages. -/
theorem Covering.compress (h : Covering s) (hsourced : Sourced s) {conversation : Nat}
    (horder : Chronological s.messages conversation order) (hlong : 10 < order.length)
    (hwriter : (s.sources conversation).writer = .compression)
    (hother : ∀ k c, s.compressions k = some c → c.conversation ≠ conversation) :
    Covering { s with
      compressions := Function.update s.compressions k (some ⟨conversation, oldMessages order⟩) } := by
  obtain rfl : order = messagesOf s.messages conversation := horder.eq_of_strict (h.increasing conversation)
  -- a conversation with messages is there
  obtain ⟨m, hm⟩ := List.exists_mem_of_length_pos (Nat.zero_lt_of_lt hlong)
  obtain ⟨hmem, hconv⟩ := List.mem_filter.mp hm
  have hfind := h.owned m hmem
  rw [of_decide_eq_true hconv] at hfind
  obtain ⟨row, hrow⟩ := Option.isSome_iff_exists.mp hfind
  obtain ⟨hmemRow, hidRow⟩ := Rows.find_eq_some.mp hrow
  refine ⟨h.owned, h.increasing, h.first, ?_, ?_⟩
  · intro j c hc
    by_cases hj : j = k
    · subst hj
      obtain rfl := Option.some.inj ((Function.update_self j _ s.compressions).symm.trans hc)
      exact ⟨hidRow ▸ hsourced.rows row hmemRow, hwriter, (h.first conversation hfind hwriter).subset,
        fun _ => List.prefix_refl _⟩
    · have hwidens := h.widens j c ((Function.update_of_ne hj _ _).symm.trans hc)
      exact ⟨hwidens.known, hwidens.writer, hwidens.stands, hwidens.old⟩
  · intro i j c d hc hd hsame
    by_cases hi : i = k <;> by_cases hj : j = k
    · exact hi.trans hj.symm
    · subst hi
      obtain rfl := Option.some.inj ((Function.update_self i _ s.compressions).symm.trans hc)
      exact absurd hsame.symm (hother j d ((Function.update_of_ne hj _ _).symm.trans hd))
    · subst hj
      obtain rfl := Option.some.inj ((Function.update_self j _ s.compressions).symm.trans hd)
      exact absurd hsame (hother i c ((Function.update_of_ne hi _ _).symm.trans hc))
    · exact h.apart i j c d ((Function.update_of_ne hi _ _).symm.trans hc)
        ((Function.update_of_ne hj _ _).symm.trans hd) hsame

/-- The answer makes the beginning that was read the one that the summary stands for. -/
theorem Covering.answer (h : Covering s) {c : Compression} (hc : s.compressions k = some c)
    (content : Text) : Covering ((s.summarise c content).close k) := by
  have hwidens := h.widens k c hc
  have hfind : ∀ j, ((s.summarise c content).conversations.find j).isSome
      = (s.conversations.find j).isSome := fun j =>
    Rows.isSome_find_updateAt (Conversation.summarise (shortened content)) fun _ => rfl
  have hother : ∀ j d, ((s.summarise c content).close k).compressions j = some d →
      s.compressions j = some d ∧ d.conversation ≠ c.conversation := by
    intro j d hd
    obtain ⟨hne, hold⟩ := waits_of_close hd
    exact ⟨hold, fun hsame => hne (h.apart j k d c hold hc hsame)⟩
  refine ⟨?_, h.increasing, ?_, ?_, ?_⟩
  · exact fun m hm => (hfind _).trans (h.owned m hm)
  · intro id hid hwriter
    have hold := (hfind id).symm.trans hid
    by_cases hsame : id = c.conversation
    · subst hsame
      show (Function.update s.sources c.conversation ⟨.compression, c.old⟩ c.conversation).stands <+: _
      rw [Function.update_self]
      exact hwidens.old hold
    · have hsource : ((s.summarise c content).close k).sources id = s.sources id :=
        Function.update_of_ne hsame _ _
      rw [hsource] at hwriter ⊢
      exact h.first id hold hwriter
  · intro j d hd
    obtain ⟨hold, hne⟩ := hother j d hd
    have hd := h.widens j d hold
    have hsource : ((s.summarise c content).close k).sources d.conversation = s.sources d.conversation :=
      Function.update_of_ne hne _ _
    exact ⟨hd.known, hsource ▸ hd.writer, hsource ▸ hd.stands,
      fun hid => hd.old ((hfind _).symm.trans hid)⟩
  · exact fun i j d e hd he => h.apart i j d e (hother i d hd).1 (hother j e he).1

theorem covering_next (hsourced : Sourced s) (h : Covering s) (e : HistoryEvent) (hapart : Apart s e) :
    Covering (s.next e) := by
  cases e with
  | start user title now => exact h.insert rfl fun _ => rfl
  | say message =>
    simp only [Histories.next]
    split
    next hfind => exact h.say hfind hapart
    next => exact h
  | forget message => exact hapart.elim
  | archive conversation now => exact h.archive conversation now
  | fork conversation now =>
    simp only [Histories.next]
    split
    next conv _ =>
      split
      next => exact h.insert rfl fun _ => rfl
      next => exact h
    next => exact h
  | rotate conversation order now =>
    simp only [Histories.next]
    split
    next conv hfind =>
      split
      next => exact (h.archive conv.id now).insert rfl fun hwriter => absurd hwriter (by simp)
      next => exact h
    next => exact h
  | delete conversation => exact h.delete conversation
  | compress k conversation order =>
    simp only [Histories.next]
    split
    next hread => exact h.compress hsourced hread.2.1 hread.2.2 hapart.1 hapart.2
    next => exact h
  | answer k content =>
    simp only [Histories.next]
    split
    next c content hc => exact h.answer hc content
    next => exact h.close k
  | crash k => exact h.close k

/-- Compressions that do not overlap replace summaries of messages that they have
read as well, when messages come one after the other and none is taken out: it
takes a hand-off, two compressions at once, a deletion or a tie to drop one. -/
theorem compressesOwn_of_apart {events : List HistoryEvent}
    (h : Throughout Histories.next Apart {} events) :
    Throughout Histories.next CompressesOwn {} events := by
  refine throughout_of_keeps (fun s => Sourced s ∧ Covering s) ?_ ?_ ⟨sourced_init, covering_init⟩ h
  · exact fun s e hs hapart => ⟨sourced_next hs.1 e, covering_next hs.1 hs.2 e hapart⟩
  · intro s e hs _
    cases e with
    | answer k content =>
      cases content with
      | none => exact trivial
      | some content =>
        intro c hc row _
        have hwidens := hs.2.widens k c hc
        exact .inr (.inr ⟨hwidens.writer, hwidens.stands⟩)
    | start user title now => exact trivial
    | say message => exact trivial
    | forget message => exact trivial
    | archive conversation now => exact trivial
    | fork conversation now => exact trivial
    | rotate conversation order now => exact trivial
    | delete conversation => exact trivial
    | compress k conversation order => exact trivial
    | crash k => exact trivial

/-! ## The first compression after a rotation -/

def diet : Message := ⟨0, 0, .user, "I am allergic to nuts.".toList, none, 0⟩

/-- Eleven messages of the next conversation. -/
def chatter : List Message :=
  (List.range 11).map fun i => ⟨i + 1, 1, .user, "And then?".toList, none, 345600 + i⟩

/-- The message is handed to a new conversation, which is compressed when it has
eleven of its own. -/
def handedOver : List HistoryEvent :=
  [.start 1 "Cooking".toList 0, .say diet, .rotate 0 [diet] 345600] ++ chatter.map .say ++
    [.compress 0 1 chatter]

/-- The system prompt has no capital U. -/
theorem not_mem_compressSystem : 'U' ∉ compressSystem := by
  unfold compressSystem
  rw [String.toList_append, String.toList_append]
  repeat rw [toList_literal rfl]
  decide

theorem handedOver_dropped : ¬ ∀ events : List HistoryEvent,
    Throughout Histories.next KeepsContext {} events := by
  intro h
  obtain ⟨_, hkeeps, _⟩ := throughout_append.mp (h (handedOver ++ [.answer 0 (some "Small talk.".toList)]))
  have hrow : ((run Histories.next {} handedOver).conversations.find 1).map
      (fun c => c.historySummary) = some (some "User: I am allergic to nuts.".toList) := by
    decide +kernel
  have hcompression : (run Histories.next {} handedOver).compressions 0 = some ⟨1, oldMessages chatter⟩ := by
    rfl
  obtain ⟨row, hfind, hsummary⟩ := Option.map_eq_some_iff.mp hrow
  have hown := (keepsContext_step (run_preserves Sourced (fun _ e h => sourced_next h e) sourced_init _)
    _).mp hkeeps _ hcompression row hfind
  rw [hsummary] at hown
  rcases hown with hnone | ⟨text, htext, hinfix⟩ | ⟨hwriter, _⟩
  · exact absurd hnone (by decide)
  · -- nothing in the prompt has the first letter of the hand-off
    have hfirst : 'U' ∈ "User: I am allergic to nuts.".toList := by
      rw [toList_literal rfl]
      exact List.mem_cons_self
    have hletter : 'U' ∈ text := hinfix.subset hfirst
    rcases List.mem_cons.mp htext with hsystem | hexcerpt
    · exact not_mem_compressSystem (hsystem ▸ hletter)
    · rw [List.mem_singleton.mp hexcerpt] at hletter
      exact absurd hletter (by decide)
  · have hrotation : (run Histories.next {} handedOver).sources 1 = ⟨.rotation, [diet]⟩ := by
      rfl
    rw [hrotation] at hwriter
    exact absurd hwriter (by simp)

end Eidetic.Conversations
