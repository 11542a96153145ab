import Eidetic.Chat.Closing

/-!
# The rows of a turn

The user's message waits in the session that the tools share, and is committed
with the assistant's. A tool that commits, and the rollback after a rejected row
of its log, part the two: `allOrNothing_iff` says when both are saved or none.

Before the last row there is the user's row in the session, and what the tools
have made of it: nothing, or its commit, or its loss, as their first end of the
transaction says. The last row is then saved with what is pending, saved alone
after a rollback, or lost (`Closing`). So there are three cases with a condition
each (`allOrNothing_saved`, `allOrNothing_alone`, `allOrNothing_lost`): a saved
row needs that no tool has rolled back, a row that is saved alone needs that a
tool has committed, and a lost one that none has.

Which of the three it is depends on how the turn is over and on what the
database accepts (`keepsLast`, `notesUndone`), and `Closes.together_iff` reads
that off the closing. Turns from the route's own look at the cache save both
rows in one commit or none; a comparison saves nothing.
-/

namespace Eidetic.Chat

open Eidetic.Lib Eidetic.Stream

/-- Both messages are saved, in their order, or none. -/
def AllOrNothing (rows : List Row) : Prop :=
  rows = [] ∨ ∃ metering, rows = [.user, .assistant metering]

/-- What the turn leaves in `messages`. -/
def Served.rows (c : Config) (x : RouteWorld) (t : Served) : List Row :=
  (t.route c x).session.committed

/-! ## The condition -/

/-- The assistant's message is committed where it is first added: with its cost,
as the note of the error event, or as that of the handler of an exception. -/
def RouteWorld.keepsLast (x : RouteWorld) (ending : Ending) (log : List Action) : Bool :=
  if x.comesToSave ending log then x.isCharged ending log
  else if x.comesToError ending log then x.noted
  else x.handlerNoted

/-- The message is refused where it is first added, the rollback after that
raises, and the handler commits its note. -/
def RouteWorld.notesUndone (x : RouteWorld) (ending : Ending) (log : List Action) : Bool :=
  (if x.comesToSave ending log then x.saveRollbackRaises
    else x.comesToError ending log && x.noteRollbackRaises) && x.handlerNoted

/-- What the executions first do to the transaction of the turn is no rollback
where the assistant's message is kept, and no commit where there is none; it is
a commit where there is only the handler's note. -/
def Served.KeepsTogether (c : Config) (x : RouteWorld) : Served → Prop
  | .streamed r w =>
    let (ending, s) := generateStream c r w
    let first := (x.ends (executionsOf s.log).length).head?
    if x.keepsLast ending s.log then first ≠ some .rollback
    else if x.notesUndone ending s.log then first = some .commit
    else first ≠ some .commit
  | _ => True

/-! ## The rows of a closing -/

theorem allOrNothing_nil : AllOrNothing [] := Or.inl rfl

theorem allOrNothing_pair (metering : Option Metering) :
    AllOrNothing [.user, .assistant metering] := Or.inr ⟨metering, rfl⟩

/-- A message without the other. -/
theorem not_allOrNothing_singleton (row : Row) : ¬ AllOrNothing [row] := by
  rintro (h | ⟨metering, h⟩)
  · exact absurd h (by simp)
  · exact absurd h (by simp)

variable {ends : List TxEnd} {metering : Option Metering}

theorem allOrNothing_saved :
    AllOrNothing ((Closing.saved (.assistant metering)).apply
        ((TxSession.add {} Row.user).finishAll ends)).committed
      ↔ ends.head? ≠ some .rollback := by
  rw [TxSession.finishAll_eq]
  cases ends.head? with
  | none => exact iff_of_true (allOrNothing_pair metering) (by simp)
  | some e =>
    cases e with
    | commit => exact iff_of_true (allOrNothing_pair metering) (by simp)
    | rollback => exact iff_of_false (not_allOrNothing_singleton _) (by simp)

theorem allOrNothing_alone :
    AllOrNothing ((Closing.alone (.assistant metering)).apply
        ((TxSession.add {} Row.user).finishAll ends)).committed
      ↔ ends.head? = some .commit := by
  rw [TxSession.finishAll_eq]
  cases ends.head? with
  | none => exact iff_of_false (not_allOrNothing_singleton _) (by simp)
  | some e =>
    cases e with
    | commit => exact iff_of_true (allOrNothing_pair metering) rfl
    | rollback => exact iff_of_false (not_allOrNothing_singleton _) (by simp)

theorem allOrNothing_lost :
    AllOrNothing (Closing.lost.apply ((TxSession.add {} Row.user).finishAll ends)).committed
      ↔ ends.head? ≠ some .commit := by
  rw [TxSession.finishAll_eq]
  cases ends.head? with
  | none => exact iff_of_true allOrNothing_nil (by simp)
  | some e =>
    cases e with
    | commit => exact iff_of_false (not_allOrNothing_singleton _) (by simp)
    | rollback => exact iff_of_true allOrNothing_nil (by simp)

/-- After a rollback either the handler's note is left or nothing is. -/
theorem allOrNothing_undoneBy {x : RouteWorld} {rollbackRaises : Bool} :
    AllOrNothing ((x.undoneBy rollbackRaises).apply
        ((TxSession.add {} Row.user).finishAll ends)).committed ↔
      if rollbackRaises && x.handlerNoted then ends.head? = some .commit
      else ends.head? ≠ some .commit := by
  unfold RouteWorld.undoneBy
  cases rollbackRaises && x.handlerNoted with
  | true => exact allOrNothing_alone
  | false => exact allOrNothing_lost

/-- Which of the three it is. -/
theorem Closes.together_iff {x : RouteWorld} {ending : Ending} {log : List Action}
    {closing : Closing} (h : Closes x ending log closing) :
    AllOrNothing (closing.apply ((TxSession.add {} Row.user).finishAll ends)).committed
      ↔ if x.keepsLast ending log then ends.head? ≠ some .rollback
        else if x.notesUndone ending log then ends.head? = some .commit
        else ends.head? ≠ some .commit := by
  unfold RouteWorld.keepsLast RouteWorld.notesUndone
  cases h with
  | aborted comes fails =>
    rw [comes, fails]
    unfold RouteWorld.aborts
    cases x.handlerNoted with
    | true => exact allOrNothing_saved
    | false => exact allOrNothing_lost
  | failed comes fails =>
    rw [comes, fails]
    unfold RouteWorld.fails
    cases x.noted with
    | true => exact allOrNothing_saved
    | false => exact allOrNothing_undoneBy
  | done text metering comes response_eq charged_eq =>
    have hundoes :
        AllOrNothing (x.undoes.apply ((TxSession.add {} Row.user).finishAll ends)).committed ↔
          if x.saveRollbackRaises && x.handlerNoted then ends.head? = some .commit
          else ends.head? ≠ some .commit := allOrNothing_undoneBy
    have hcharged : x.isCharged ending log = (metering.isSome && x.saved) := by
      rw [RouteWorld.isCharged, comes, ← charged_isSome x _ text, ← charged_eq,
        Option.isSome_map, Bool.true_and]
    rw [comes, hcharged]
    cases metering with
    | none => exact hundoes
    | some metering =>
      unfold RouteWorld.saves
      cases x.saved with
      | true => exact allOrNothing_saved
      | false => exact hundoes

theorem eventGenerator_together (c : Config) (x : RouteWorld) (r : Request) (w : World)
    (hruns : (Served.streamed r w).RunsTools c) :
    AllOrNothing ((Served.streamed r w).rows c x) ↔ (Served.streamed r w).KeepsTogether c x := by
  obtain ⟨closing, hcloses, hsession⟩ := eventGenerator_closes c r w x hruns
  rw [Served.rows, Served.route, hsession]
  exact hcloses.together_iff

/-- A call of an unknown tool, and an answer. The name has a character that the
columns of the log cannot hold. -/
def inventedTool : World :=
  meets [callsTool "forecast\x00" "\x7b\x7d", answers "It will rain."]
    ["Unknown tool: forecast\x00"]

theorem inventedTool_runsTools :
    (Served.streamed (question "Will it rain?" []) inventedTool).RunsTools smallConfig := by
  have hexecutions : (executionsOf (generateStream smallConfig
      (question "Will it rain?" []) inventedTool).2.log).map (fun x => (x.name, x.result))
      = [("forecast\x00".toList, "Unknown tool: forecast\x00".toList)] := by
    decide
  refine runsTools_of hexecutions fun run hrun args => ?_
  have hunknown : Tools.getTool smallConfig.lower "forecast\x00".toList = none :=
    Option.isNone_iff_eq_none.mp (by decide)
  rw [List.mem_singleton.mp hrun, Tools.RunTool, hunknown]
  rfl

end Eidetic.Chat
