import Eidetic.Context.Prompts
import Eidetic.Context.Tier

/-!
# `build_context_messages`

The context of a turn, in the order of the source: the system preamble, the
injected `[TAG] …` blocks, each with its acknowledgement, the history, the
file block and the depth hint. `baseMessages` is what `generate_stream` makes
of it: the rules of the offered tools go in at index 1, the user's message at
the end.

The parts are concatenated: `contextHead` before the history and `contextTail`
after it are made of `contextBlock`, one for each tag, so a block that the
source adds is one more line in one of them. `Paired` is the form of such a
part: every user message in it begins with a tag of tier 2 to 8, or is empty,
and its acknowledgement comes next. System messages are no blocks, and a
concatenation of paired parts is paired.

That a tag has its tier whatever follows it is one evaluation over the list of
tags (`textTier_tags`). The results on what the budget does to these parts are
in `Context.Blocks` and `Context.UserState`.
-/

namespace Eidetic.Context

open Eidetic.Py

/-- The arguments of `build_context_messages`. A chunk is its content. -/
structure ContextInput where
  memorySheet : Text
  projectSummary : Text
  retrievedChunks : List Text
  historySummary : Text
  history : List Message
  systemPrompt : Option Text := none
  fileChunks : List Text := []
  fileNames : List Text := []
  fileIds : List Text := []
  graphContext : Text := []
  graphFacts : Text := []
  activeGoals : Text := []
  recentInsights : List Text := []
  conflictedFacts : List Text := []
  lastSession : Text := []
  intent : Intent := .question

/-- `sep.join(parts)`. -/
def joinWith (sep : String) (parts : List Text) : Text := sep.toList.intercalate parts

/-- The notice about the attached files; none without a name. -/
def fileNotice (a : ContextInput) : List Text :=
  if a.fileNames.isEmpty then []
  else if a.fileIds.isEmpty then
    ["The user has attached these files: ".toList ++ joinWith ", " a.fileNames
      ++ ". Use file tools to read or edit them.".toList]
  else
    let filesList := (a.fileNames.zip a.fileIds).map fun nameId =>
      "  - ".toList ++ nameId.1 ++ " (id=".toList ++ nameId.2 ++ ")".toList
    ["The user has attached these files:\n".toList ++ joinLines filesList ++ fileToolRules]

/-- The conversation's own prompt, after the defaults it overrides. -/
def customPrompt (a : ContextInput) : List Text :=
  match a.systemPrompt with
  | some (c :: s) => [customPromptBridge ++ '\n' :: rstrip (c :: s)]
  | _ => []

/-- The content of the first system message. -/
def preamble (a : ContextInput) : Text :=
  joinWith "\n\n" ([styleBlock, antiFabrication] ++ customPrompt a ++ fileNotice a)

/-- Without a prompt of its own and without files a conversation has the defaults. -/
theorem preamble_tokens {a : ContextInput} (hprompt : customPrompt a = [])
    (hfiles : fileNotice a = []) : messageTokens (.ofText .system (preamble a)) = 428 := by
  have hjoin : ∀ x y : Text, x.length = 1188 → y.length = 524 →
      (joinWith "\n\n" ([x, y] ++ [] ++ [])).length = 1714 := by
    intro x y hx hy
    simp [joinWith, List.intercalate, hx, hy]
  unfold preamble
  rw [messageTokens_ofText, hprompt, hfiles, hjoin _ _ styleBlock_length antiFabrication_length]
  rfl

/-- The acknowledgement of an injected block. -/
def understood : Text := "Understood.".toList

/-- The acknowledgement of the file block. -/
def understoodFiles : Text :=
  "Understood, I will reference these documents in my response.".toList

/-- An injected block with its acknowledgement, when there is something to inject. -/
def contextBlock (isPresent : Bool) (content ack : Text) : List Message :=
  if isPresent then [.ofText .user content, .ofText .assistant ack] else []

/-- `_format_active_goals`. -/
def formatActiveGoals (activeGoals : Text) : Text :=
  if (strip activeGoals).isEmpty then [] else "[ACTIVE GOALS]\n".toList ++ activeGoals

/-- The memory sheet without its conflicted facts. -/
def filteredSheet (a : ContextInput) : Text :=
  if a.conflictedFacts.isEmpty then a.memorySheet
  else joinLines ((splitLines a.memorySheet).filter fun l => !a.conflictedFacts.contains (strip l))

/-- The user state is a system message. -/
def userState (a : ContextInput) : List Message :=
  if a.memorySheet.isEmpty || (strip (filteredSheet a)).isEmpty then []
  else [.ofText .system ("[USER STATE]\n".toList ++ filteredSheet a)]

/-- The injected blocks before the history, up to the user state. -/
def blocksBefore (a : ContextInput) : List Message :=
  contextBlock (!a.lastSession.isEmpty) ("[LAST SESSION]\n".toList ++ a.lastSession) understood
  ++ contextBlock (!a.graphContext.isEmpty) ("[GRAPH CONTEXT]\n".toList ++ a.graphContext) understood
  ++ contextBlock (!a.graphFacts.isEmpty) ("[GRAPH FACTS]\n".toList ++ a.graphFacts) understood

/-- The injected blocks before the history, from the user state on. -/
def blocksAfter (a : ContextInput) : List Message :=
  contextBlock (!a.activeGoals.isEmpty) (formatActiveGoals a.activeGoals) understood
  ++ contextBlock (!a.recentInsights.isEmpty)
    ("[RECENT INSIGHTS]\n".toList ++ joinLines a.recentInsights) understood
  ++ contextBlock (!a.projectSummary.isEmpty)
    ("[PROJECT STATE]\n".toList ++ a.projectSummary) understood
  ++ contextBlock (!a.retrievedChunks.isEmpty)
    ("[RELEVANT CONTEXT FROM EARLIER]\n".toList ++ joinWith "\n\n" a.retrievedChunks) understood
  ++ contextBlock (!a.historySummary.isEmpty)
    ("[EARLIER IN THIS CONVERSATION]\n".toList ++ a.historySummary) understood

/-- The messages between the preamble and the history. -/
def contextHead (a : ContextInput) : List Message := blocksBefore a ++ userState a ++ blocksAfter a

/-- The messages after the history. -/
def contextTail (a : ContextInput) : List Message :=
  contextBlock (!a.fileChunks.isEmpty)
    ("[FILE CONTEXT]\n".toList ++ joinWith "\n\n---\n\n" a.fileChunks) understoodFiles
  ++ (if (depthHint a.intent).isEmpty then [] else [.ofText .system (depthHint a.intent)])

/-- `build_context_messages`. -/
def buildContextMessages (a : ContextInput) : List Message :=
  [.ofText .system (preamble a)] ++ contextHead a ++ a.history ++ contextTail a

/-- `messages[1:1] = rules`, the rules being system messages. -/
def insertRules (rules : List Text) (messages : List Message) : List Message :=
  messages.take 1 ++ rules.map (.ofText .system) ++ messages.drop 1

/-- What `generate_stream` passes to the budget: the rules of the offered
tools after the preamble, and the user's message last. -/
def baseMessages (a : ContextInput) (rules : List Text) (rest : List Message) : List Message :=
  insertRules rules (buildContextMessages a ++ rest)

theorem baseMessages_eq (a : ContextInput) (rules : List Text) (rest : List Message) :
    baseMessages a rules rest
      = .ofText .system (preamble a) :: rules.map (.ofText .system) ++ contextHead a
          ++ a.history ++ contextTail a ++ rest := by
  simp [baseMessages, insertRules, buildContextMessages]

/-! ## The injected blocks -/

/-- A list in which every user message is an injected block: it carries a tag
of tier 2 to 8, or nothing, and its acknowledgement comes next. -/
def Paired (ms : List Message) : Prop :=
  ∀ i m, ms[i]? = some m → m.role = .user →
    2 ≤ messageTier m false ∧ ∃ ack, ms[i + 1]? = some ack ∧ isAck ack = true

theorem paired_nil : Paired [] := fun _ _ h => absurd h (by simp)

/-- System messages are no blocks. -/
theorem paired_of_system {ms : List Message} (h : ∀ m ∈ ms, m.role = .system) : Paired ms := by
  intro i m hm hrole
  rw [h m (List.mem_of_getElem? hm)] at hrole
  exact absurd hrole (by simp)

theorem paired_append {xs ys : List Message} (hx : Paired xs) (hy : Paired ys) :
    Paired (xs ++ ys) := by
  intro i m hm hrole
  by_cases hi : i < xs.length
  · rw [List.getElem?_append_left hi] at hm
    obtain ⟨htier, ack, hack, his⟩ := hx i m hm hrole
    have hlt := (List.getElem?_eq_some_iff.mp hack).1
    exact ⟨htier, ack, by rw [List.getElem?_append_left hlt]; exact hack, his⟩
  · rw [List.getElem?_append_right (by omega)] at hm
    obtain ⟨htier, ack, hack, his⟩ := hy _ m hm hrole
    refine ⟨htier, ack, ?_, his⟩
    rw [List.getElem?_append_right (by omega), show i + 1 - xs.length = i - xs.length + 1 by omega]
    exact hack

theorem paired_contextBlock {isPresent : Bool} {content ack : Text} (htier : 2 ≤ textTier content)
    (hack : isAck (.ofText .assistant ack) = true) :
    Paired (contextBlock isPresent content ack) := by
  unfold contextBlock
  split
  next =>
    intro i m hm hrole
    match i with
    | 0 =>
      have hm : Message.ofText .user content = m := by simpa using hm
      rw [← hm]
      exact ⟨htier, _, rfl, hack⟩
    | 1 =>
      have hm : Message.ofText .assistant ack = m := by simpa using hm
      rw [← hm] at hrole
      exact absurd hrole Role.noConfusion
    | i + 2 => exact absurd hm (by simp)
  next => exact paired_nil

/-- The tags of the injected blocks are of tiers 2 to 8, whatever follows. -/
theorem textTier_tags (s : Text) :
    textTier ("[LAST SESSION]\n".toList ++ s) = 8 ∧
    textTier ("[GRAPH CONTEXT]\n".toList ++ s) = 4 ∧
    textTier ("[GRAPH FACTS]\n".toList ++ s) = 4 ∧
    textTier ("[ACTIVE GOALS]\n".toList ++ s) = 3 ∧
    textTier ("[RECENT INSIGHTS]\n".toList ++ s) = 2 ∧
    textTier ("[PROJECT STATE]\n".toList ++ s) = 2 ∧
    textTier ("[RELEVANT CONTEXT FROM EARLIER]\n".toList ++ s) = 6 ∧
    textTier ("[EARLIER IN THIS CONVERSATION]\n".toList ++ s) = 5 ∧
    textTier ("[FILE CONTEXT]\n".toList ++ s) = 7 :=
  ⟨rfl, rfl, rfl, rfl, rfl, rfl, rfl, rfl, rfl⟩

theorem formatActiveGoals_tier (s : Text) : 2 ≤ textTier (formatActiveGoals s) := by
  unfold formatActiveGoals
  split
  next => exact (by decide : 2 ≤ textTier [])
  next => rw [(textTier_tags s).2.2.2.1]; omega

theorem contextHead_paired (a : ContextInput) : Paired (contextHead a) := by
  have hack : isAck (.ofText .assistant understood) = true := rfl
  have hsystem : Paired (userState a) := by
    apply paired_of_system
    intro m hm
    unfold userState at hm
    split at hm
    next => exact absurd hm (by simp)
    next => rw [List.mem_singleton.mp hm]; rfl
  have hblock : ∀ isPresent tag s, 2 ≤ textTier (tag ++ s) →
      Paired (contextBlock isPresent (tag ++ s) understood) :=
    fun _ _ _ h => paired_contextBlock h hack
  have hbefore : Paired (blocksBefore a) := by
    unfold blocksBefore
    refine paired_append (paired_append (hblock _ _ _ ?_) (hblock _ _ _ ?_)) (hblock _ _ _ ?_)
    · rw [(textTier_tags _).1]; omega
    · rw [(textTier_tags _).2.1]; omega
    · rw [(textTier_tags _).2.2.1]; omega
  have hafter : Paired (blocksAfter a) := by
    unfold blocksAfter
    refine paired_append (paired_append (paired_append (paired_append
      (paired_contextBlock (formatActiveGoals_tier _) hack) (hblock _ _ _ ?_))
      (hblock _ _ _ ?_)) (hblock _ _ _ ?_)) (hblock _ _ _ ?_)
    · rw [(textTier_tags _).2.2.2.2.1]
    · rw [(textTier_tags _).2.2.2.2.2.1]
    · rw [(textTier_tags _).2.2.2.2.2.2.1]; omega
    · rw [(textTier_tags _).2.2.2.2.2.2.2.1]; omega
  exact paired_append (paired_append hbefore hsystem) hafter

theorem contextTail_paired (a : ContextInput) : Paired (contextTail a) := by
  have hack : isAck (.ofText .assistant understoodFiles) = true := rfl
  unfold contextTail
  refine paired_append (paired_contextBlock ?_ hack) (paired_of_system fun m hm => ?_)
  · rw [(textTier_tags _).2.2.2.2.2.2.2.2]; omega
  · split at hm
    next => exact absurd hm (by simp)
    next => rw [List.mem_singleton.mp hm]; rfl

end Eidetic.Context
