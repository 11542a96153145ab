import Mathlib.Algebra.Order.Monoid.Prod
import Mathlib.Algebra.BigOperators.Group.List.Basic
import Mathlib.Data.Rat.Defs
import Mathlib.Algebra.Order.Ring.Rat
import Eidetic.Chat.Closing

/-!
# What a turn is charged for

The cost of a turn is computed from the usage that the `done` event carries,
which is that of the last call of a model, and recorded with the assistant's
message. `metered_iff` says when no other call has reported any.

What the models report are the usages in the log of the turn, a call each; what
is recorded is what the rows that are committed have. Between them are the usage
that the generator passes on, which is the last one only, the tokens and the
cost that the route computes of it, and the closing of the turn, which may save
no row.

The proof follows that order. A usage that is reported last is charged as it is
(`charged_of_reported`), and where the last one is empty the tokens are
estimated from the texts (`charged_of_empty`). Of each way of closing,
`Closes.tokens_eq` says that the rows that are left have what the turn is
charged, or nothing. Tokens are not negative, so what is charged for the last
report makes up for the sum exactly when the others report nothing
(`total_le_last`); an estimate may be enough for all.
-/

namespace Eidetic.Chat

open Eidetic.Lib Eidetic.Py Eidetic.Stream

/-! ## Reports and records -/

/-- The tokens of a usage record; what is no number counts for none. -/
def reported (usage : Usage) : Tokens :=
  ((tokensOf usage "prompt_tokens").getD 0, (tokensOf usage "completion_tokens").getD 0)

def total (usages : List Usage) : Tokens := (usages.map reported).sum

/-- The last usage of a call that is compared. -/
def lastUsage (events : List Upstream.Event) : Usage :=
  (events.filterMap fun event =>
    match event with
    | .usage items => some items
    | _ => none).getLastD []

/-- What the calls of models that the turn makes report. -/
def Served.usages (c : Config) : Served → List Usage
  | .cached _ => []
  | .compared _ models _ => models.map fun m => lastUsage m.call.events
  | .streamed r w => reports (generateStream c r w).2.log

def Row.tokens : Row → Tokens
  | .user => 0
  | .assistant none => 0
  | .assistant (some metering) => metering.tokens

/-- The tokens on which the recorded cost is computed. -/
def recorded (session : TxSession Row) : Tokens := (session.committed.map Row.tokens).sum

/-- What is recorded is at least what is reported. -/
def Served.Metered (c : Config) (x : RouteWorld) (t : Served) : Prop :=
  total (t.usages c) ≤ recorded (t.route c x).session

/-! ## The condition -/

/-- In a turn that is saved no call but the last reports any tokens, or, where
the last reports none, no more than are estimated; in any other no call does. -/
def Served.LastReports (c : Config) (x : RouteWorld) : Served → Prop
  | .cached _ => True
  | .compared _ models _ => total (models.map fun m => lastUsage m.call.events) ≤ 0
  | .streamed r w =>
    let (ending, s) := generateStream c r w
    if x.isCharged ending s.log then
      if ((reports s.log).getLastD []).isEmpty then
        total (reports s.log) ≤ x.estimated ((response ending).getD [])
      else total (reports s.log).dropLast ≤ 0
    else total (reports s.log) ≤ 0

/-! ## What is charged -/

variable {x : RouteWorld} {usage : Usage} {text : Text}

theorem charged_of_empty (h : usage.isEmpty = true) :
    x.charged usage text = some (x.estimated text) := if_pos h

theorem charged_of_reported (h : usage.isEmpty = false) (hcountable : countable usage = true) :
    x.charged usage text = some (reported usage) := by
  unfold countable at hcountable
  rw [h, Bool.false_or, Bool.and_eq_true] at hcountable
  obtain ⟨prompt, hprompt⟩ := Option.isSome_iff_exists.mp hcountable.1
  obtain ⟨completion, hcompletion⟩ := Option.isSome_iff_exists.mp hcountable.2
  unfold RouteWorld.charged reported
  rw [h, if_neg (by simp), hprompt, hcompletion]
  rfl

/-- All but the last report are uncharged. -/
theorem total_le_last {usages : List Usage} (h : (usages.getLastD []).isEmpty = false) :
    total usages ≤ reported (usages.getLastD []) ↔ total usages.dropLast ≤ 0 := by
  rcases List.eq_nil_or_concat usages with rfl | ⟨earlier, last, rfl⟩
  · exact absurd h (by simp)
  · rw [List.concat_eq_append, List.getLastD_concat, List.dropLast_concat, total, total,
      List.map_append, List.sum_append, List.map_singleton, List.sum_singleton]
    exact add_le_iff_nonpos_left

/-! ## What is recorded -/

/-- Before the last row there is nothing that costs. -/
theorem begun_tokens (ends : List TxEnd) :
    ∀ row ∈ ((TxSession.add {} Row.user).finishAll ends).committed
      ++ ((TxSession.add {} Row.user).finishAll ends).pending, row.tokens = 0 := by
  have huser : ∀ row ∈ [Row.user], row.tokens = 0 := by
    intro row hrow
    rw [List.mem_singleton.mp hrow]
    rfl
  rw [TxSession.finishAll_eq]
  cases ends.head? with
  | none => exact huser
  | some e =>
    cases e with
    | commit => exact huser
    | rollback => exact fun row hrow => absurd hrow (by simp [TxSession.finish, TxSession.rollback,
        TxSession.add])

theorem sum_tokens {rows : List Row} (h : ∀ row ∈ rows, row.tokens = 0) :
    (rows.map Row.tokens).sum = 0 :=
  List.sum_eq_zero (List.forall_mem_map.mpr h)

def Closing.tokens : Closing → Tokens
  | .saved row => row.tokens
  | .alone row => row.tokens
  | .lost => 0

theorem recorded_closing (ends : List TxEnd) (closing : Closing) :
    recorded (closing.apply ((TxSession.add {} Row.user).finishAll ends)) = closing.tokens := by
  have hrows := begun_tokens ends
  generalize (TxSession.add {} Row.user).finishAll ends = session at hrows ⊢
  have hcommitted : (session.committed.map Row.tokens).sum = 0 :=
    sum_tokens fun row hrow => hrows row (List.mem_append_left _ hrow)
  cases closing with
  | saved row =>
    change ((session.committed ++ (session.pending ++ [row])).map Row.tokens).sum = row.tokens
    rw [← List.append_assoc, List.map_append, List.sum_append, sum_tokens hrows, zero_add]
    exact List.sum_singleton
  | alone row =>
    change ((session.committed ++ [row]).map Row.tokens).sum = row.tokens
    rw [List.map_append, List.sum_append, hcommitted, zero_add]
    exact List.sum_singleton
  | lost => exact hcommitted

theorem aborts_tokens (x : RouteWorld) : x.aborts.tokens = 0 := by
  unfold RouteWorld.aborts
  split
  next => rfl
  next => rfl

theorem undoneBy_tokens (x : RouteWorld) (rollbackRaises : Bool) :
    (x.undoneBy rollbackRaises).tokens = 0 := by
  unfold RouteWorld.undoneBy
  split
  next => rfl
  next => rfl

theorem fails_tokens (x : RouteWorld) : x.fails.tokens = 0 := by
  unfold RouteWorld.fails
  split
  next => rfl
  next => exact undoneBy_tokens x _

theorem saves_tokens (x : RouteWorld) (metering : Option Metering) :
    (x.saves metering).tokens
      = if x.saved then ((metering.map Metering.tokens).getD 0) else 0 := by
  cases metering with
  | none =>
    rw [RouteWorld.saves, RouteWorld.undoes, undoneBy_tokens]
    split
    next => rfl
    next => rfl
  | some metering =>
    unfold RouteWorld.saves
    cases x.saved with
    | true => rfl
    | false => exact undoneBy_tokens x _

/-- A closing records what the turn is charged, if it is. -/
theorem Closes.tokens_eq {ending : Ending} {log : List Action} {closing : Closing}
    (h : Closes x ending log closing) :
    closing.tokens = if x.isCharged ending log then
      (x.charged ((reports log).getLastD []) ((response ending).getD [])).getD 0 else 0 := by
  cases h with
  | aborted h =>
    rw [RouteWorld.isCharged, h, aborts_tokens]
    rfl
  | failed h =>
    rw [RouteWorld.isCharged, h, fails_tokens]
    rfl
  | done text metering h response_eq charged_eq =>
    rw [saves_tokens, charged_eq, response_eq, Option.getD_some]
    unfold RouteWorld.isCharged
    rw [h, ← charged_isSome x _ text]
    cases x.saved with
    | false => simp
    | true =>
      cases x.charged ((reports log).getLastD []) text with
      | none => rfl
      | some tokens => simp

theorem metered_iff (c : Config) (x : RouteWorld) (t : Served) (hruns : t.RunsTools c) :
    t.Metered c x ↔ t.LastReports c x := by
  cases t with
  | cached entry =>
    refine iff_of_true ?_ trivial
    unfold Served.Metered
    rw [Served.route, cachedGenerator_session]
    have hrows : recorded (if x.saved then ⟨[.user, .assistant none], []⟩ else ⟨[], []⟩) = 0 := by
      split
      next => exact sum_tokens (by simp [Row.tokens])
      next => rfl
    rw [hrows]
    exact le_refl (0 : Tokens)
  | compared label models queue =>
    unfold Served.Metered
    rw [Served.route, compareGenerator_session]
    exact Iff.rfl
  | streamed r w =>
    obtain ⟨closing, hcloses, hsession⟩ := eventGenerator_closes c r w x hruns
    unfold Served.Metered
    rw [Served.route, hsession, recorded_closing, hcloses.tokens_eq]
    unfold Served.LastReports Served.usages
    dsimp only
    split
    next hcharged =>
      split
      next hempty =>
        rw [charged_of_empty hempty]
        exact Iff.rfl
      next hreports =>
        have hcountable :
            countable ((reports (generateStream c r w).2.log).getLastD []) = true := by
          unfold RouteWorld.isCharged at hcharged
          rw [Bool.and_eq_true, Bool.and_eq_true] at hcharged
          exact hcharged.1.2
        rw [charged_of_reported (by simpa using hreports) hcountable]
        exact total_le_last (by simpa using hreports)
    next => exact Iff.rfl

def usageOf (prompt completion : Rat) : Usage :=
  dict [("prompt_tokens", .num prompt), ("completion_tokens", .num completion)]

/-- A route whose prices are those of the tokens. -/
def plainRoute : RouteWorld := { price := fun _ prompt completion => prompt + completion }

/-- An answer of one call, which reports its usage. -/
def reportedAnswer : World :=
  meets [{ chunks := [(.text "Hello you!".toList, 0), (.usage (usageOf 900 5), 0)] }] []

theorem reportedAnswer_metered :
    (Served.streamed (question "Hello." []) reportedAnswer).Metered smallConfig plainRoute := by
  refine (metered_iff _ _ _ ?_).mpr ?_
  · have hexecutions : (executionsOf (generateStream smallConfig (question "Hello." [])
        reportedAnswer).2.log).map (fun x => (x.name, x.result)) = [] := by
      decide
    exact runsTools_of hexecutions fun run hrun => absurd hrun (by simp)
  · unfold Served.LastReports
    decide

/-- An answer after a tool call, both of which report their usage. -/
def reportedRounds : World :=
  meets [
    { chunks := [(.toolCalls [⟨"c1".toList, "read_file".toList, "\x7b\x7d".toList⟩], 0),
        (.usage (usageOf 900 20), 0)] },
    { chunks := [(.text "It is not there.".toList, 0), (.usage (usageOf 950 5), 0)] }]
    ["Error: No such file"]

/-- The tokens of the first round escape. -/
theorem reportedRounds_unmetered :
    (Served.streamed (question "Sum it up." ["notes.txt"]) reportedRounds).RunsTools smallConfig ∧
    ¬ (Served.streamed (question "Sum it up." ["notes.txt"]) reportedRounds).Metered smallConfig
        plainRoute := by
  refine ⟨?_, ?_⟩
  · have hexecutions : (executionsOf (generateStream smallConfig
        (question "Sum it up." ["notes.txt"]) reportedRounds).2.log).map
          (fun x => (x.name, x.result))
        = [("read_file".toList, "Error: No such file".toList)] := by
      decide
    refine runsTools_of hexecutions fun run hrun args => ?_
    rw [List.mem_singleton.mp hrun]
    exact Or.inr ⟨"No such file".toList, rfl⟩
  · unfold Served.Metered
    decide +kernel

end Eidetic.Chat
