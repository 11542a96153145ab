import Eidetic.Lib.OrderBy
import Eidetic.Lib.Rows
import Eidetic.Py.Text

/-!
# Conversations and their messages

The rows of `conversations` and `messages` that the rotation and the compression
of a conversation read, and the hand-off text of a rotation.

A hand-off is a function of the summary of the old conversation and of the last
five of its messages in some order that the database may return (`handoffText`,
`IsHandoff`), cut to two thousand characters. Times are seconds, and two
messages may have the same one, which is why an order is a relation here and not
a function: the results hold for every order that `ORDER BY created_at` allows.
-/

namespace Eidetic.Conversations

open Eidetic.Lib Eidetic.Py

inductive Role
  | user
  | assistant
deriving DecidableEq

def Role.name : Role → Text
  | .user => "user".toList
  | .assistant => "assistant".toList

/-- `created_at` is in seconds. -/
structure Message where
  id : Nat
  conversationId : Nat
  role : Role
  content : Text
  totalTokens : Option Nat := none
  createdAt : Int
deriving DecidableEq

structure Conversation where
  id : Nat
  userId : Nat
  title : Text
  historySummary : Option Text := none
  systemPrompt : Option Text := none
  lockedModel : Option Text := none
  isArchived : Bool := false
  archivedAt : Option Int := none
  updatedAt : Int
deriving DecidableEq

def messagesOf (messages : List Message) (conversation : Nat) : List Message :=
  messages.filter fun m => m.conversationId = conversation

/-- An order that `ORDER BY created_at` allows of the messages of a conversation. -/
abbrev Chronological (messages : List Message) (conversation : Nat) (order : List Message) : Prop :=
  Orders Message.createdAt (messagesOf messages conversation) order

/-- `ORDER BY created_at DESC LIMIT n`, reversed. -/
def latest (n : Nat) (order : List Message) : List Message := order.drop (order.length - n)

def Role.label : Role → Text
  | .user => "User".toList
  | .assistant => "Assistant".toList

/-- `handoff_parts`. -/
def handoffParts (summary : Option Text) (recent : List Message) : List Text :=
  (match summary with
    | none | some [] => []
    | some text => ["Previous conversation summary:\n".toList ++ text])
  ++ recent.map fun m => m.role.label ++ ": ".toList ++ m.content.take 500

def handoff (summary : Option Text) (recent : List Message) : Text :=
  ['\n', '\n'].intercalate (handoffParts summary recent)

/-- The text that `_check_rotation` hands to the new conversation. -/
def handoffText (summary : Option Text) (recent : List Message) : Text :=
  (handoff summary recent).take 2000

/-- A hand-off of a conversation with these messages. -/
def IsHandoff (messages : List Message) (conv : Conversation) (text : Text) : Prop :=
  ∃ order, Chronological messages conv.id order ∧ text = handoffText conv.historySummary (latest 5 order)

end Eidetic.Conversations
