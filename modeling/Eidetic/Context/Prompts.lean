import Eidetic.Py.Text

/-!
# The prompt texts of `context.py`

The constant texts `build_context_messages` puts into the context, verbatim.
Nothing below reads into them; what matters is their length (they count
against the context window) and the tag they start with.

They are kept with their line breaks, as the source has them, since a token is a
quarter of a character count. `DEPTH_HINTS` is a function on intents, with the
default for a value that is no key of it.
-/

namespace Eidetic.Context

open Eidetic.Py

/-- A text written as consecutive string literals. -/
def textOf (parts : List String) : Text := parts.flatMap String.toList

/-- `STYLE_BLOCK`. -/
def styleBlock : Text := textOf [
    "Response style — defaults for every reply:\n",
    "- Lead with the answer. State the conclusion first; supporting detail comes ",
    "after, and only what is needed.\n",
    "- Be brief. For casual or simple messages, a few sentences of plain prose is ",
    "the right length. Never pad.\n",
    "- Explain at a high level first. Give a summary, not an exhaustive treatment; ",
    "go deep only when the user asks for depth.\n",
    "- Write plain prose by default. Use lists, headings, or tables only when the ",
    "user asks or the content truly requires them. Use the minimum formatting ",
    "needed for clarity.\n",
    "- Keep caveats and disclaimers to one short line at most; spend the response ",
    "on the answer itself.\n",
    "- Ask at most one question per response.\n",
    "- If you deliberately left out significant depth, end with one short offer to ",
    "expand (e.g. \"Want the full details?\"). If nothing significant was omitted, ",
    "do not add an offer.\n",
    "\n",
    "Precedence: these are defaults, not rules. If [USER STATE] preferences or ",
    "corrections say otherwise (e.g. verbosity: detailed, response_style: ",
    "step-by-step), or the user asks in this chat for more detail, a full ",
    "explanation, or a specific format, follow the user instead. The user's most ",
    "recent explicit request always wins."]

/-- `ANTI_FABRICATION`. -/
def antiFabrication : Text := textOf [
    "If information is not present in your current context (not in memory, not in ",
    "conversation history): say so directly and concisely. Never fabricate ",
    "answers, invent logs, or guess at content that should come from files or ",
    "prior sessions. NEVER say 'Memory updated', 'Saved to memory', or any ",
    "variant. Memory is only saved when the system displays a green confirmation ",
    "card with Accept/Dismiss buttons — that is the only real memory save path. ",
    "Without that card, nothing is persisted. Do not simulate or pretend to save memory."]

theorem styleBlock_length : styleBlock.length = 1188 := by
  unfold styleBlock textOf
  simp only [List.flatMap_cons, List.flatMap_nil]
  repeat rw [toList_literal rfl]
  decide +kernel

theorem antiFabrication_length : antiFabrication.length = 524 := by
  unfold antiFabrication textOf
  simp only [List.flatMap_cons, List.flatMap_nil]
  repeat rw [toList_literal rfl]
  decide +kernel

/-- `CUSTOM_PROMPT_BRIDGE`. -/
def customPromptBridge : Text := textOf [
    "Conversation-specific instructions (these override the defaults above ",
    "wherever they conflict):"]

/-- What `classify_intent` can say about the user's message; `other` stands for
any value that is no key of `DEPTH_HINTS`. -/
inductive Intent
  | question
  | task
  | exploration
  | closing
  | other
deriving DecidableEq, Repr

/-- `DEPTH_HINTS.get(intent, "")`. -/
def depthHint : Intent → Text
  | .question => textOf [
      "This turn is a direct question. Give the answer immediately, in 1-4 sentences ",
      "of prose, then stop. Add brief support only if the answer needs it. Do not ",
      "expand into a tutorial."]
  | .task => textOf [
      "This turn is a task. Do it, then report the outcome first in one or two ",
      "sentences. Show only the result the user needs - no extended commentary."]
  | .exploration => textOf [
      "The user is exploring a topic. Start with a short high-level overview, then ",
      "the two or three most important points. Offer to go deeper on any of them ",
      "instead of covering everything now."]
  | .closing => textOf [
      "The user is wrapping up. Reply with one short, warm sentence. Do not ",
      "re-answer earlier questions or introduce new information."]
  | .other => []

/-- The rules for file tools that follow the list of attached files. -/
def fileToolRules : Text := textOf [
    "\n",
    "Rules for file tools:\n",
    "- To ANSWER a question about file content: use read_file or search_in_file, ",
    "then reply in chat. For specific sections of large files, prefer ",
    "search_in_file over read_file.\n",
    "- NEVER use write tools (write_file, append_to_file, patch_file) to answer ",
    "questions. To 'show', 'explain', 'display', 'summarize', or 'describe' file ",
    "content — read it (read_file / search_in_file) and reply in chat text; never ",
    "write to the file. (Enumerating which files exist is fine — use list_files.)\n",
    "- To ADD new content to a file: use append_to_file — ONLY when user ",
    "explicitly asks to add/write/append to the file.\n",
    "- To EDIT a specific passage: use read_file first, then ",
    "patch_file(old_text=<exact passage>, new_text=<replacement>)\n",
    "- To REWRITE the whole file: use read_file first, then write_file with the ",
    "COMPLETE rewritten content — never write_file without reading first\n",
    "- NEVER use write_file for partial updates — it permanently deletes ",
    "everything not included. Use patch_file.\n",
    "- To CREATE a new file: use create_file — only for genuinely new files, never ",
    "to reconstruct missing context\n",
    "- After any write/append/patch/create succeeds, respond to the user ",
    "immediately — do NOT read the file back to verify\n",
    "- Never call the same tool more than twice in a single turn\n",
    "- If information is not in your current context: say so directly. Never ",
    "fabricate content, invent logs, or create files to substitute for missing context.\n",
    "- NEVER say 'Memory updated', 'Saved to memory', or any variant. Memory is ",
    "only saved when the system shows a green confirmation card with ",
    "Accept/Dismiss buttons. Without that card, nothing is saved — do not pretend ",
    "otherwise."]

end Eidetic.Context
