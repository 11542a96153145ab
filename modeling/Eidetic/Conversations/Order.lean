import Eidetic.Chat.Closing
import Eidetic.Lib.OrderBy
import Eidetic.Lib.Run
import Eidetic.Lib.Stamps

/-!
# The order of a conversation's messages

`created_at` is the start of the transaction in which a row is inserted, and the
rows of a turn are inserted in one transaction unless a tool ends it in between.
So a query that sorts by it may return an answer before its question: the order
of the turns is kept, and that of the messages exactly when no turn saves both
in one transaction (`recoverable_iff`).

The transactions of a turn are counted, and `StartTimes` gives each the time at
which it starts, increasing with their number. Of a turn only its path matters:
what the tools have done to the session before the answer, and how the route has
closed it. `turnRows` computes the rows of each path, and `TurnRows.order` what
a conversation needs of them: they lie in the transactions of the turn, in
order, and strictly so exactly when the path parts the question from the answer.
That every turn which the route serves takes such a path is `exists_takes`.

The invariant over turns is `Made`: all rows so far are of earlier transactions,
each once, and in order. A turn adds its rows at the end (`Made.next`), so
between turns the times are strictly increasing and only the two rows of one
turn can be equal (`strict_next`). What `ORDER BY` may return is `Orders` of the
library, which is one order exactly when the keys are strict.
-/

namespace Eidetic.Conversations

open Eidetic.Lib Eidetic.Chat Eidetic.Stream

/-! ## The transactions of a turn -/

/-- What becomes of the assistant's row at the end of a turn: it is committed with
what is pending, or alone after a rollback, or not at all. -/
inductive Answered
  | saved (metering : Option Metering)
  | alone (metering : Option Metering)
  | lost

def Answered.closing : Answered → Closing
  | .saved metering => .saved (.assistant metering)
  | .alone metering => .alone (.assistant metering)
  | .lost => .lost

/-- The closing of a session that stamps its rows. -/
def Answered.apply (s : StampedSession Row) : Answered → StampedSession Row
  | .saved metering => (s.add (.assistant metering)).finish .commit
  | .alone metering => ((s.finish .rollback).add (.assistant metering)).finish .commit
  | .lost => s.finish .rollback

/-- How a turn goes: the early cache path, a comparison, or the full path, where
the tools end transactions before the route closes the session. -/
inductive TurnPath
  | cached (saved : Bool)
  | compared
  | full (ends : List TxEnd) (answered : Answered)

/-- The session of a turn, from the transaction of the user's row on. -/
def TurnPath.session (tx : Nat) : TurnPath → StampedSession Row
  | .cached saved =>
    let s := (StampedSession.mk tx {}).add .user
    if saved then (s.add (.assistant none)).finish .commit else s.finish .rollback
  | .compared => (StampedSession.mk tx {}).finish .commit
  | .full ends answered => answered.apply (((StampedSession.mk tx {}).add .user).finishAll ends)

/-- The path of a turn that the route has served. -/
inductive Takes (c : Config) (x : RouteWorld) : Served → TurnPath → Prop
  | cached (entry : Cache.Cached) : Takes c x (.cached entry) (.cached x.saved)
  | compared (label : Py.Text → Py.Text) (models : List Compared) (queue : List (Nat × QueueItem)) :
    Takes c x (.compared label models queue) .compared
  | streamed (r : Request) (w : World) (answered : Answered)
      (closes : Closes x (generateStream c r w).1 (generateStream c r w).2.log answered.closing) :
    Takes c x (.streamed r w)
      (.full (x.ends (executionsOf (generateStream c r w).2.log).length) answered)

theorem plain_apply (s : StampedSession Row) (answered : Answered) :
    (answered.apply s).plain = answered.closing.apply s.plain := by
  cases answered with
  | saved metering =>
    show ((s.add _).finish .commit).plain = _
    rw [StampedSession.plain_finish, StampedSession.plain_add]
    rfl
  | alone metering =>
    show (((s.finish .rollback).add _).finish .commit).plain = _
    rw [StampedSession.plain_finish, StampedSession.plain_add, StampedSession.plain_finish]
    rfl
  | lost =>
    show (s.finish .rollback).plain = _
    rw [StampedSession.plain_finish]
    rfl

/-- The route closes a turn with an assistant's row or none. -/
theorem exists_answered {x : RouteWorld} {ending : Ending} {log : List Action} {closing : Closing}
    (h : Closes x ending log closing) : ∃ answered : Answered, answered.closing = closing := by
  -- after a raising rollback the outer handler can still commit a lone note
  have hundone : ∀ rollbackRaises,
      ∃ answered : Answered, answered.closing = x.undoneBy rollbackRaises := by
    intro rollbackRaises
    unfold RouteWorld.undoneBy
    split
    next => exact ⟨.alone none, rfl⟩
    next => exact ⟨.lost, rfl⟩
  cases h with
  | aborted comes =>
    unfold RouteWorld.aborts
    split
    next => exact ⟨.saved none, rfl⟩
    next => exact ⟨.lost, rfl⟩
  | failed comes =>
    unfold RouteWorld.fails
    split
    next => exact ⟨.saved none, rfl⟩
    next => exact hundone x.noteRollbackRaises
  | done text metering comes response_eq charged_eq =>
    cases metering with
    | none => exact hundone x.saveRollbackRaises
    | some metering =>
      cases hsaved : x.saved with
      | true =>
        refine ⟨.saved (some metering), ?_⟩
        unfold RouteWorld.saves
        rw [hsaved]
        rfl
      | false =>
        unfold RouteWorld.saves
        rw [hsaved]
        exact hundone x.saveRollbackRaises

/-- Every turn that is served takes a path, and leaves the rows of the path. -/
theorem exists_takes (c : Config) (x : RouteWorld) (t : Served) (hruns : t.RunsTools c) :
    ∃ path, Takes c x t path ∧ ∀ tx, (path.session tx).plain = (t.route c x).session := by
  cases t with
  | cached entry =>
    refine ⟨_, .cached entry, ?_⟩
    intro tx
    rw [Served.route, cachedGenerator_session]
    unfold TurnPath.session
    cases x.saved with
    | true => rfl
    | false => rfl
  | compared label models queue =>
    refine ⟨_, .compared label models queue, ?_⟩
    intro tx
    rw [Served.route, compareGenerator_session]
    rfl
  | streamed r w =>
    obtain ⟨closing, hcloses, hsession⟩ := eventGenerator_closes c r w x hruns
    obtain ⟨answered, rfl⟩ := exists_answered hcloses
    refine ⟨_, .streamed r w answered hcloses, ?_⟩
    intro tx
    rw [Served.route, hsession]
    unfold TurnPath.session
    rw [plain_apply, StampedSession.plain_finishAll]
    rfl

/-! ## Turns, one after the other -/

/-- A row of `messages`: its turn, and the transaction that has inserted it. -/
structure MessageRow where
  turn : Nat
  row : Row
  tx : Nat

/-- A turn, and the transactions there are between it and the one before. -/
structure ChatTurn where
  between : Nat := 0
  path : TurnPath

/-- The rows that are committed, in the order in which they were made. -/
structure Transcript where
  tx : Nat := 0
  turns : Nat := 0
  rows : List MessageRow := []

/-- The rows of a turn. -/
def TurnPath.rows (path : TurnPath) (turn tx : Nat) : List MessageRow :=
  (path.session tx).session.committed.map fun r => ⟨turn, r.1, r.2⟩

def Transcript.next (s : Transcript) (t : ChatTurn) : Transcript where
  tx := (t.path.session (s.tx + t.between)).tx + 1
  turns := s.turns + 1
  rows := s.rows ++ t.path.rows s.turns (s.tx + t.between)

/-- The times at which transactions start. -/
structure StartTimes (τ : Type) [LinearOrder τ] where
  start : Nat → τ
  increasing : StrictMono start

variable {τ : Type} [LinearOrder τ]

/-- `now()`. -/
def MessageRow.createdAt (times : StartTimes τ) (r : MessageRow) : τ := times.start r.tx

/-- `ORDER BY created_at` returns the rows as they were made. -/
def Recoverable (times : StartTimes τ) (rows : List MessageRow) : Prop :=
  ∀ order, Orders (MessageRow.createdAt times) rows order → order = rows

/-- The turn does not save both its rows in one transaction: it is no hit of the
early cache, and where it saves the answer with what is pending, a tool has ended
the transaction of the question. -/
def TurnPath.parts : TurnPath → Prop
  | .cached saved => saved = false
  | .full ends (.saved _) => ends ≠ []
  | _ => True

/-! ## The rows of one turn -/

variable {path : TurnPath} {turn tx : Nat}

/-- What the tools leave of the user's row. -/
theorem finishAll_user (ends : List TxEnd) :
    ((StampedSession.mk tx {}).add Row.user).finishAll ends =
      ⟨tx + ends.length,
        match ends with
        | [] => ⟨[], [(.user, tx)]⟩
        | .commit :: _ => ⟨[(.user, tx)], []⟩
        | .rollback :: _ => {}⟩ := by
  have htx := (((StampedSession.mk tx {}).add Row.user).finishAll_tx ends)
  have hsession := (((StampedSession.mk tx {}).add Row.user).finishAll_session ends)
  rw [TxSession.finishAll_eq] at hsession
  cases h : ((StampedSession.mk tx {}).add Row.user).finishAll ends with
  | mk tx' session =>
    rw [h] at htx hsession
    obtain rfl : tx' = tx + ends.length := htx
    obtain rfl : session = _ := hsession
    cases ends with
    | nil => rfl
    -- what follows the tools' first commit or rollback no longer touches the row
    | cons e ends =>
      cases e with
      | commit => rfl
      | rollback => rfl

/-- A turn leaves its two rows, the question first, or one of them, or none. -/
inductive TurnRows (turn tx : Nat) (path : TurnPath) : List MessageRow → Prop
  | none : path.parts → TurnRows turn tx path []
  | user : path.parts → TurnRows turn tx path [⟨turn, .user, tx⟩]
  | assistant (metering : Option Metering) (tx' : Nat) : path.parts → tx ≤ tx' →
    tx' < (path.session tx).tx → TurnRows turn tx path [⟨turn, .assistant metering, tx'⟩]
  | together (metering : Option Metering) : ¬ path.parts →
    TurnRows turn tx path [⟨turn, .user, tx⟩, ⟨turn, .assistant metering, tx⟩]
  | parted (metering : Option Metering) (tx' : Nat) : path.parts → tx < tx' →
    tx' < (path.session tx).tx →
    TurnRows turn tx path [⟨turn, .user, tx⟩, ⟨turn, .assistant metering, tx'⟩]

theorem turnRows (path : TurnPath) (turn tx : Nat) : TurnRows turn tx path (path.rows turn tx) := by
  cases path with
  | cached saved =>
    cases saved with
    | true => exact .together none (by simp [TurnPath.parts])
    | false => exact .none rfl
  | compared => exact .none trivial
  | full ends answered =>
    -- the session begins with the user's row, which the first tool decides about
    have hsession : (TurnPath.full ends answered).session tx = answered.apply _ :=
      congrArg answered.apply (finishAll_user ends)
    have hlt : tx + ends.length < ((TurnPath.full ends answered).session tx).tx := by
      rw [hsession]
      cases answered with
      | saved metering => exact Nat.lt_succ_self _
      | alone metering => exact Nat.lt_succ_of_lt (Nat.lt_succ_self _)
      | lost => exact Nat.lt_succ_self _
    unfold TurnPath.rows
    cases answered with
    | saved metering =>
      rw [hsession]
      cases ends with
      | nil => exact .together metering fun h => h rfl
      | cons e ends =>
        have hparts : (TurnPath.full (e :: ends) (.saved metering)).parts := List.cons_ne_nil e ends
        have htx : tx < tx + (e :: ends).length := Nat.lt_add_of_pos_right (Nat.succ_pos _)
        cases e with
        | commit => exact .parted metering _ hparts htx hlt
        | rollback => exact .assistant metering _ hparts (Nat.le_of_lt htx) hlt
    -- the failed commit takes a transaction of its own before the note's
    | alone metering =>
      have hnext : tx + ends.length + 1 < ((TurnPath.full ends (.alone metering)).session tx).tx := by
        rw [hsession]
        exact Nat.lt_succ_self _
      have htx : tx < tx + ends.length + 1 := Nat.lt_succ_of_le (Nat.le_add_right _ _)
      rw [hsession]
      cases ends with
      | nil => exact .assistant metering _ trivial (Nat.le_of_lt htx) hnext
      | cons e ends =>
        cases e with
        | commit => exact .parted metering _ trivial htx hnext
        | rollback => exact .assistant metering _ trivial (Nat.le_of_lt htx) hnext
    | lost =>
      rw [hsession]
      cases ends with
      | nil => exact .none trivial
      | cons e ends =>
        cases e with
        | commit => exact .user trivial
        | rollback => exact .none trivial

theorem tx_lt_session (path : TurnPath) (tx : Nat) : tx < (path.session tx).tx := by
  cases path with
  | cached saved =>
    cases saved with
    | true => exact Nat.lt_succ_self tx
    | false => exact Nat.lt_succ_self tx
  | compared => exact Nat.lt_succ_self tx
  | full ends answered =>
    have hends : (((StampedSession.mk tx {}).add Row.user).finishAll ends).tx = tx + ends.length :=
      StampedSession.finishAll_tx _ ends
    unfold TurnPath.session
    cases answered with
    | saved metering =>
      show tx < (((StampedSession.mk tx {}).add Row.user).finishAll ends).tx + 1
      omega
    | alone metering =>
      show tx < (((StampedSession.mk tx {}).add Row.user).finishAll ends).tx + 1 + 1
      omega
    | lost =>
      show tx < (((StampedSession.mk tx {}).add Row.user).finishAll ends).tx + 1
      omega

/-- What the order of a conversation needs of the rows of one turn. -/
structure TurnOrder (turn tx : Nat) (path : TurnPath) (rows : List MessageRow) : Prop where
  of_turn : ∀ r ∈ rows, r.turn = turn ∧ tx ≤ r.tx ∧ r.tx < (path.session tx).tx
  nodup : rows.Nodup
  sorted : rows.Pairwise fun a b => a.tx ≤ b.tx
  strict_iff : (rows.Pairwise fun a b => a.tx < b.tx) ↔ path.parts

theorem TurnRows.order {rows : List MessageRow} (h : TurnRows turn tx path rows) :
    TurnOrder turn tx path rows := by
  have hlt := tx_lt_session path tx
  cases h with
  | none hparts =>
    exact ⟨fun _ hr => absurd hr List.not_mem_nil, List.nodup_nil, List.Pairwise.nil,
      iff_of_true List.Pairwise.nil hparts⟩
  | user hparts =>
    refine ⟨?_, List.nodup_singleton _, List.pairwise_singleton .., ?_⟩
    · intro r hr
      obtain rfl := List.mem_singleton.mp hr
      exact ⟨rfl, Nat.le_refl _, hlt⟩
    · exact iff_of_true (List.pairwise_singleton ..) hparts
  | assistant metering tx' hparts hle hlt' =>
    refine ⟨?_, List.nodup_singleton _, List.pairwise_singleton .., ?_⟩
    · intro r hr
      obtain rfl := List.mem_singleton.mp hr
      exact ⟨rfl, hle, hlt'⟩
    · exact iff_of_true (List.pairwise_singleton ..) hparts
  | together metering hparts =>
    refine ⟨?_, by simp, by simp, iff_of_false (by simp) hparts⟩
    intro r hr
    rcases List.mem_pair.mp hr with rfl | rfl
    · exact ⟨rfl, Nat.le_refl _, hlt⟩
    · exact ⟨rfl, Nat.le_refl _, hlt⟩
  | parted metering tx' hparts hlt' hend =>
    refine ⟨?_, by simp, by simpa using Nat.le_of_lt hlt', iff_of_true (by simpa using hlt') hparts⟩
    intro r hr
    rcases List.mem_pair.mp hr with rfl | rfl
    · exact ⟨rfl, Nat.le_refl _, hlt⟩
    · exact ⟨rfl, Nat.le_of_lt hlt', hend⟩

/-! ## The rows of a conversation -/

/-- The rows of the turns so far, in order. -/
structure Made (s : Transcript) : Prop where
  bounded : ∀ r ∈ s.rows, r.turn < s.turns ∧ r.tx < s.tx
  nodup : s.rows.Nodup
  sorted : s.rows.Pairwise fun a b => a.tx ≤ b.tx

variable {s : Transcript} {t : ChatTurn}

theorem made_init : Made {} := ⟨fun _ hr => absurd hr List.not_mem_nil, List.nodup_nil, List.Pairwise.nil⟩

theorem Made.next (h : Made s) (t : ChatTurn) : Made (s.next t) := by
  obtain ⟨hturn, hnodup, hsorted, _⟩ := (turnRows t.path s.turns (s.tx + t.between)).order
  constructor
  · intro r hr
    rcases List.mem_append.mp hr with hold | hnew
    · obtain ⟨hlt, htx⟩ := h.bounded r hold
      have hend := tx_lt_session t.path (s.tx + t.between)
      refine ⟨Nat.lt_succ_of_lt hlt, ?_⟩
      show r.tx < (t.path.session (s.tx + t.between)).tx + 1
      omega
    · obtain ⟨heq, _, hend⟩ := hturn r hnew
      exact ⟨Nat.lt_succ_of_le (Nat.le_of_eq heq), Nat.lt_succ_of_lt hend⟩
  · refine List.nodup_append'.mpr ⟨h.nodup, hnodup, ?_⟩
    intro r hold hnew
    have hlt := (h.bounded r hold).1
    rw [(hturn r hnew).1] at hlt
    exact Nat.lt_irrefl _ hlt
  · refine List.pairwise_append.mpr ⟨h.sorted, hsorted, ?_⟩
    intro a ha b hb
    have hlt := (h.bounded a ha).2
    have hle := (hturn b hb).2.1
    omega

/-- The messages of a turn are later than those before, so only they matter. -/
theorem strict_next (h : Made s) (t : ChatTurn) :
    ((s.next t).rows.Pairwise fun a b => a.tx < b.tx) ↔
      (s.rows.Pairwise fun a b => a.tx < b.tx) ∧ t.path.parts := by
  obtain ⟨hturn, _, _, hiff⟩ := (turnRows t.path s.turns (s.tx + t.between)).order
  show (List.Pairwise _ (s.rows ++ t.path.rows s.turns (s.tx + t.between))) ↔ _
  rw [List.pairwise_append, ← hiff]
  constructor
  · exact fun ⟨hold, hnew, _⟩ => ⟨hold, hnew⟩
  · intro ⟨hold, hnew⟩
    refine ⟨hold, hnew, ?_⟩
    intro a ha b hb
    have hlt := (h.bounded a ha).2
    have hle := (hturn b hb).2.1
    omega

theorem strict_run (turns : List ChatTurn) (h : Made s) :
    ((run Transcript.next s turns).rows.Pairwise fun a b => a.tx < b.tx) ↔
      (s.rows.Pairwise fun a b => a.tx < b.tx) ∧ ∀ t ∈ turns, t.path.parts := by
  induction turns generalizing s with
  | nil => simp [run]
  | cons t turns ih =>
    show ((run Transcript.next (s.next t) turns).rows.Pairwise _) ↔ _
    rw [ih (h.next t), strict_next h t, List.forall_mem_cons, and_assoc]

theorem recoverable_of_made (times : StartTimes τ) (h : Made s) :
    Recoverable times s.rows ↔ s.rows.Pairwise fun a b => a.tx < b.tx := by
  have hsorted : s.rows.Pairwise fun a b => a.createdAt times ≤ b.createdAt times :=
    h.sorted.imp fun hle => times.increasing.monotone hle
  unfold Recoverable
  rw [orders_eq_iff hsorted h.nodup]
  exact List.Pairwise.iff fun a b => times.increasing.lt_iff_lt

/-- After any turns of a conversation, at any increasing times, sorting by
`created_at` gives the messages back in the order in which they were made exactly
when no turn has saved its question and its answer in one transaction. -/
theorem recoverable_iff (times : StartTimes τ) (turns : List ChatTurn) :
    Recoverable times (run Transcript.next {} turns).rows ↔ ∀ t ∈ turns, t.path.parts := by
  have hmade : Made (run Transcript.next {} turns) :=
    run_preserves Made (fun _ t h => h.next t) made_init turns
  rw [recoverable_of_made times hmade, strict_run turns made_init]
  exact and_iff_right List.Pairwise.nil

/-! ## A turn without tools -/

def counted : StartTimes Nat := ⟨id, strictMono_id⟩

/-- The question and the answer of one turn, in one transaction. -/
def plainTurn : List ChatTurn := [{ path := .full [] (.saved none) }]

theorem plainTurn_reversed : ¬ ∀ turns : List ChatTurn,
    Recoverable counted (run Transcript.next {} turns).rows := by
  intro h
  have horder : Orders (MessageRow.createdAt counted) (run Transcript.next {} plainTurn).rows
      [⟨0, .assistant none, 0⟩, ⟨0, .user, 0⟩] := by
    refine ⟨List.Perm.swap .., ?_⟩
    simp [MessageRow.createdAt, counted]
  have hrows : [Row.assistant none, Row.user] = [Row.user, Row.assistant none] :=
    congrArg (List.map MessageRow.row) (h plainTurn _ horder)
  exact absurd hrows (by simp)

end Eidetic.Conversations
