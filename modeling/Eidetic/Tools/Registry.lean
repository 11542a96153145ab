import Eidetic.Context.Prompts
import Eidetic.Lib.Shape
import Eidetic.Py.JsonText

/-!
# The tool registry

The registered tools with the gates that offer them, their limits and hints,
and the texts they return. A gate is read once, when a turn assembles the
schemas; `run_tool` looks a tool up by the name alone.

What a tool returns is given by the shapes of its results: the holes stand for
whatever files, pages, events and messages contain, and for the text of an
exception.
-/

namespace Eidetic.Tools

open Eidetic.Lib Eidetic.Py Eidetic.Context

/-- `ToolContext`, as far as the gates read it. -/
structure ToolContext where
  message : Text
  /-- The contents of the history, where they are strings. -/
  history : List (Option Text)
  db : Bool
  fileIds : List Text
  isReasoning : Bool
  webSearchEnabled : Bool
  driveActive : Bool
  driveLatched : Bool
  calendarActive : Bool
  calendarLatched : Bool
  gmailActive : Bool
  gmailLatched : Bool

/-- What a call of a tool can return. -/
inductive Returns
  | shapes (options : List (Shape Char))
  /-- A confirmation request with its operation and the shape of its summary. -/
  | calendarWrite (op : String) (summary : Shape Char)

/-- A registered tool. -/
structure Tool where
  name : Text
  shouldInject : ToolContext → Bool
  maxIdenticalCalls : Option Nat := none
  behavioralRules : Option Text := none
  postCallSystemMsg : Option Text := none
  returns : Returns

/-! ## The gates -/

/-- `str.split()`, and the intersection with a set of words. -/
def hasWord (tokens : List Text) (wanted : List String) : Bool :=
  tokens.any fun token => wanted.any fun word => word.toList == token

/-- `_needs_memory_tool`; `lower` is `str.lower`. -/
def needsMemoryTool (lower : Text → Text) (message : Text) : Bool :=
  let tokens := words (lower message)
  if hasWord tokens ["remember", "memorize"] then true
  else hasWord tokens ["save", "add", "store", "write", "put", "keep", "insert", "remember",
      "memorize", "record"]
    && hasWord tokens ["memory", "memories"]

/-- `_URL_RE.search`. -/
def hasUrl (s : Text) : Bool :=
  s.tails.any fun t => startsWith t "http://".toList || startsWith t "https://".toList

def fileGate (ctx : ToolContext) : Bool := !ctx.fileIds.isEmpty && ctx.db

def writeMemoryGate (lower : Text → Text) (ctx : ToolContext) : Bool :=
  if !(ctx.db && ctx.isReasoning) then false else needsMemoryTool lower ctx.message

def webSearchGate (ctx : ToolContext) : Bool := ctx.webSearchEnabled

def fetchUrlGate (ctx : ToolContext) : Bool :=
  if hasUrl ctx.message then true
  else (ctx.history.drop (ctx.history.length - 6)).any fun content =>
    match content with
    | some s => hasUrl s
    | none => false

def driveGate (ctx : ToolContext) : Bool := ctx.driveActive && ctx.driveLatched

def calendarGate (ctx : ToolContext) : Bool := ctx.calendarActive && ctx.calendarLatched

def gmailGate (ctx : ToolContext) : Bool := ctx.gmailActive && ctx.gmailLatched

/-! ## Rules and hints -/

/-- `_DRIVE_RULES`. -/
def driveRules : Text := textOf [
    "## Google Drive access\n",
    "\n",
    "You have Google Drive tools available this session. Having access does not mean you ",
    "should use it. On most turns you should not.\n",
    "\n",
    "Call a Drive tool ONLY when the user's CURRENT message refers to their own files, ",
    "documents, folders, or Drive contents — explicitly or by clear implication (asking ",
    "what they have, to open or find a document, to look something up in their files).\n",
    "\n",
    "Do NOT call any Drive tool for:\n",
    "- greetings, small talk, or acknowledgements (\"hi\", \"hello?\", \"thanks\")\n",
    "- general questions you can answer directly\n",
    "- coding help, explanations, or discussion\n",
    "- any turn where the user has not pointed at their own files\n",
    "\n",
    "Base the decision on the user's CURRENT message only. A previous file listing in ",
    "the conversation is not a reason to call again.\n",
    "\n",
    "When unsure whether a turn needs Drive, do not call it — answer directly. A wrong ",
    "file listing is worse than a missing one; the user can always ask.\n",
    "\n",
    "When you DO call drive_list_files and results return, present the file names ",
    "concisely and stop."]

/-- `_POST_LISTING`. -/
def postListing : Text := textOf [
    "You have the Drive file listing above. Respond NOW in plain text: present the file ",
    "names and types to the user. Note any [unreadable] files. Ask which file(s) they ",
    "want opened. Do NOT call any tool. Do NOT call drive_list_files again."]

/-- `_CALENDAR_RULES`. -/
def calendarRules : Text := textOf [
    "Rules for Google Calendar tools:\n",
    "- After calendar_list_events: present the events to the user with their times. If ",
    "the user wants details on a specific event, call calendar_get_event with its ID.\n",
    "- For calendar_search_events: present matching events. If the user wants details, ",
    "call calendar_get_event with its ID.\n",
    "- For create/update/delete operations: present a clear summary of what will happen. ",
    "The system will show a confirmation card to the user before the change is made.\n",
    "- Do NOT call calendar_list_events immediately before calendar_get_event — if the ",
    "user names or references a specific event, use its ID directly."]

/-- `_GMAIL_RULES`. -/
def gmailRules : Text := textOf [
    "Rules for Gmail tools:\n",
    "- After gmail_list_messages or gmail_search_messages: present the message previews ",
    "(subject, sender, date) to the user, then ASK which message(s) to read — do NOT ",
    "automatically call gmail_get_message.\n",
    "- When the user specifies a message by its ID or subject, call gmail_get_message ",
    "with the message ID.\n",
    "- Only call gmail_get_message when the user explicitly asks to read a specific ",
    "message.\n",
    "- Gmail is read-only — you cannot send, delete, or modify messages."]

/-! ## Results -/

/-- `ASK_USER_PREFIX`. -/
def askUserPrefix : Text := "__ASK_USER__:".toList

/-- `CONFIRM_WRITE_PREFIX`. -/
def confirmWritePrefix : Text := "__CONFIRM_WRITE_MEMORY__:".toList

/-- `CONFIRM_CALENDAR_PREFIX`. -/
def confirmCalendarPrefix : Text := "__CONFIRM_CALENDAR_WRITE__:".toList

def lit (s : String) : Piece Char := .lit s.toList

def hole : Piece Char := .hole

/-- A fixed text. -/
def exactly (s : String) : Shape Char := [lit s]

/-- A fixed beginning. -/
def opening (s : String) : Shape Char := [lit s, hole]

def fileNotFound : Shape Char := exactly "Error: file not found or access denied."

def notEmbedded : Shape Char :=
  exactly "Error: could not embed query (embedding API unavailable)."

/-- What a connector's tools return when they do not reach its service. -/
def unreachable (service : String) : List (Shape Char) :=
  [exactly (service ++ " not connected. Please connect via the Integrations panel."),
    exactly (service ++ " access expired. Please reconnect via the Integrations panel."),
    exactly "Internal error: HTTP client unavailable."]

/-- `_forbidden`. -/
def calendarForbidden : Shape Char := [.lit (textOf [
    "Google Calendar denied access (403). The Calendar API may not be enabled for this ",
    "project, or the calendar.events scope wasn't granted. Enable the Google Calendar API ",
    "in Google Cloud, then reconnect Google Calendar in the Integrations panel."])]

/-- An event: its summary comes first. -/
def calendarEvent : Shape Char := [hole, lit " | ", hole, lit " (id=", hole, lit ")"]

def calendarReturns (more : List (Shape Char)) : Returns :=
  .shapes (unreachable "Google Calendar" ++ calendarForbidden :: calendarEvent :: more)

def driveReturns (more : List (Shape Char)) : Returns := .shapes (unreachable "Google Drive" ++ more)

def gmailReturns (more : List (Shape Char)) : Returns := .shapes (unreachable "Gmail" ++ more)

/-! ## The registry -/

def fileTool (name : String) (returns : List (Shape Char)) (limit : Option Nat := none) : Tool :=
  { name := name.toList, shouldInject := fileGate, maxIdenticalCalls := limit,
    returns := .shapes returns }

def fileTools : List Tool :=
  [fileTool "list_files" [exactly "No files available.", opening "- "] (some 1),
    fileTool "read_file"
      [fileNotFound,
        [hole, .lit (textOf ["\n\n[File truncated at 100,000 characters — use search_in_file to ",
          "find specific sections]"])],
        [hole, lit "\n\n[Complete file — ", hole, lit " chars. No further reads needed.]"],
        opening "Error reading file: "],
    fileTool "write_file"
      [fileNotFound, [lit "File updated (", hole, lit " chars). Re-embedding in background."],
        opening "Error writing file: "],
    fileTool "create_file"
      [[lit "File '", hole, lit "' created and attached to conversation (id=", hole,
          lit "). Processing in background."],
        opening "Error creating file: "],
    fileTool "append_to_file"
      [fileNotFound, [lit "Appended ", hole, lit " chars. Re-embedding in background."],
        opening "Error appending: "],
    fileTool "patch_file"
      [fileNotFound,
        [.lit (textOf ["Error: text not found in file. Use read_file to get the exact text, ",
          "then retry."])],
        [lit "Patched: replaced ", hole, lit " chars with ", hole,
          lit " chars. Re-embedding in background."],
        opening "Error patching: "],
    fileTool "search_in_file"
      [fileNotFound, notEmbedded, exactly "No matching content found in this file.",
        [hole, lit "\n\n[", hole, lit " chunk(s) matched. Use read_file for full file content.]"]],
    fileTool "search_across_files"
      [exactly "No files available.", notEmbedded,
        exactly "No matching content found across attached files.",
        [hole, lit "\n\n[", hole, lit " chunk(s) matched across ", hole,
          lit " file(s). Use read_file for full file content.]"]],
    fileTool "query_graph" [exactly "No entities found for that query.", opening "- "]]

def memoryTools (lower : Text → Text) : List Tool :=
  [{ name := "ask_user".toList, shouldInject := fileGate,
      returns := .shapes [[.lit askUserPrefix, hole]] },
    { name := "write_memory".toList, shouldInject := writeMemoryGate lower,
      returns := .shapes [[.lit confirmWritePrefix, hole]] }]

def webTools : List Tool :=
  [{ name := "web_search".toList, shouldInject := webSearchGate,
      returns := .shapes [exactly "Error: query must not be empty.", exactly "No results found.",
        opening "[1] "] },
    { name := "fetch_url".toList, shouldInject := fetchUrlGate,
      returns := .shapes [opening "Rejected: ", exactly "Error: beautifulsoup4 not installed",
        opening "Rejected redirect: ",
        [lit "Could not extract content from ", hole, lit " (empty or oversized response)"],
        opening "Could not extract text content from ",
        [lit "Title: ", hole, lit "\nURL: ", hole, lit "\n\n", hole],
        [lit "URL: ", hole, lit "\n\n", hole],
        [lit "HTTP error fetching ", hole, lit ": ", hole],
        [lit "Error fetching ", hole, lit ": ", hole]] }]

def driveTools : List Tool :=
  [{ name := "drive_list_files".toList, shouldInject := driveGate, maxIdenticalCalls := some 1,
      behavioralRules := some driveRules, postCallSystemMsg := some postListing,
      returns := driveReturns [exactly "No files found.", opening "- "] },
    { name := "drive_read_file".toList, shouldInject := driveGate,
      behavioralRules := some driveRules,
      returns := driveReturns [opening "Cannot read '", opening "Cannot export '",
        [lit "--- ", hole, lit " ---\n", hole]] },
    { name := "drive_search".toList, shouldInject := driveGate, maxIdenticalCalls := some 1,
      behavioralRules := some driveRules, postCallSystemMsg := some postListing,
      returns := driveReturns [exactly "No files found matching that query.", opening "- "] }]

def calendarTool (name : String) (returns : Returns) (limit : Option Nat := none) : Tool :=
  { name := name.toList, shouldInject := calendarGate, maxIdenticalCalls := limit,
    behavioralRules := some calendarRules, returns }

def calendarTools : List Tool :=
  [calendarTool "calendar_list_events"
      (calendarReturns [exactly "No upcoming events found."]) (some 1),
    calendarTool "calendar_get_event" (calendarReturns [opening "Event not found: "]),
    calendarTool "calendar_search_events"
      (calendarReturns [exactly "No events found matching that query."]) (some 1),
    calendarTool "calendar_create_event"
      (.calendarWrite "create" [lit "Create event: ", hole, lit " (", hole, lit " → ", hole,
        lit ")"]),
    calendarTool "calendar_update_event"
      (.calendarWrite "update" [lit "Update event ", hole, lit ": ", hole]),
    calendarTool "calendar_delete_event" (.calendarWrite "delete" (opening "Delete event: "))]

def gmailTool (name : String) (returns : List (Shape Char)) (limit : Option Nat := none) : Tool :=
  { name := name.toList, shouldInject := gmailGate, maxIdenticalCalls := limit,
    behavioralRules := some gmailRules, returns := gmailReturns returns }

def gmailTools : List Tool :=
  [gmailTool "gmail_list_messages"
      [exactly "No messages found.", opening "- ",
        exactly "\n\nTo read a specific message, call gmail_get_message with its ID."] (some 1),
    gmailTool "gmail_get_message"
      [[lit "Message ", hole, lit " not found."], opening "From: "],
    gmailTool "gmail_search_messages"
      [exactly "No messages found matching that query.", opening "- ",
        opening "\n\n[Search complete — "] (some 1)]

/-- `TOOL_REGISTRY`, in the order of registration. -/
def toolRegistry (lower : Text → Text) : List Tool :=
  fileTools ++ memoryTools lower ++ webTools ++ driveTools ++ calendarTools ++ gmailTools

/-- `get_tool`. -/
def getTool (lower : Text → Text) (name : Text) : Option Tool :=
  (toolRegistry lower).find? fun tool => tool.name == name

/-- `_call_limit`. -/
def callLimit (lower : Text → Text) (name : Text) : Nat :=
  match getTool lower name with
  | some tool => tool.maxIdenticalCalls.getD 3
  | none => 3

/-- `select_tool_schemas`, on the names of the schemas. -/
def selectToolSchemas (schemas : List Text) : List Text :=
  if schemas.length ≤ 32 then schemas else schemas

/-- `injected_tools`: the tools whose gate is open, by name, if the switch keeps them. -/
def injectedTools (lower : Text → Text) (ctx : ToolContext) : List Tool :=
  let injected := ((toolRegistry lower).filter fun tool => tool.shouldInject ctx).insertionSort
    fun a b => a.name ≤ b.name
  injected.filter fun tool => (selectToolSchemas (injected.map (·.name))).contains tool.name

/-! ## Running a tool -/

/-- A text that a call with these arguments may return. -/
def Returns.Of (n : Numerals) (args : List (Text × Json)) (t : Text) : Returns → Prop
  | .shapes options => ∃ shape ∈ options, shape.Matches t
  | .calendarWrite op summary => ∃ preview, summary.Matches preview ∧
      t = confirmCalendarPrefix ++ dumps n (.obj [("op".toList, .str op.toList),
        ("args".toList, .obj args), ("summary".toList, .str preview)])

/-- `run_tool`: an exception of the tool becomes a text. -/
def RunTool (n : Numerals) (lower : Text → Text) (name : Text) (args : List (Text × Json))
    (t : Text) : Prop :=
  match getTool lower name with
  | none => t = "Unknown tool: ".toList ++ name
  | some tool => tool.returns.Of n args t ∨ ∃ e, t = "Error: ".toList ++ e

end Eidetic.Tools
