import Eidetic.Lib.Keep
import Eidetic.Py.Text

/-!
# Chat messages

A message dict of the chat-completions API. `content` is `none` when the dict
has no `"content"` key (an assistant message that only carries tool calls);
a list content (the multimodal user message) is only ever looked at through
`str(...)`, so that is what `Content.parts` holds.

`messageTokens` is the estimate of the source: a quarter of the characters of
the content as `str` prints it, and at least one; tool calls count for nothing.
It is the weight by which the allocator adds up a list, and the lemmas about
lists are those of the library on positions that are kept (`Lib.Keep`). A
message of the builder is `Message.ofText`, of which the role, the content and
the cost are known at once.
-/

namespace Eidetic.Context

open Eidetic.Lib Eidetic.Py

inductive Role
  | system
  | user
  | assistant
  | tool
deriving DecidableEq, Repr

inductive Content
  | text (s : Text)
  | parts (str : Text)
deriving DecidableEq, Repr

structure ToolCall where
  id : Text
  name : Text
  arguments : Text
deriving DecidableEq, Repr

structure Message where
  role : Role
  content : Option Content
  toolCalls : List ToolCall := []
  toolCallId : Option Text := none
deriving DecidableEq, Repr

/-- A message with a text content. -/
def Message.ofText (role : Role) (s : Text) : Message := ⟨role, some (.text s), [], none⟩

/-- `msg.get("content", "")`. -/
def Message.getContent (m : Message) : Content := m.content.getD (.text [])

@[simp] theorem Message.ofText_role (role : Role) (s : Text) :
    (Message.ofText role s).role = role := rfl

@[simp] theorem Message.ofText_getContent (role : Role) (s : Text) :
    (Message.ofText role s).getContent = .text s := rfl

/-- `str(content)`. -/
def Content.str : Content → Text
  | .text s => s
  | .parts s => s

/-- `_estimate_tokens`: four characters a token, at least one. -/
def estimateTokens (s : Text) : Nat := max 1 (s.length / 4)

/-- What a message counts against the context window. -/
def messageTokens (m : Message) : Nat := estimateTokens m.getContent.str

theorem messageTokens_ofText (role : Role) (s : Text) :
    messageTokens (.ofText role s) = max 1 (s.length / 4) := rfl

/-- The summed estimate of a list of messages. -/
def tokensOf (ms : List Message) : Nat := totalWeight messageTokens ms

end Eidetic.Context
