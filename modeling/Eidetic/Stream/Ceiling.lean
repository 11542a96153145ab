import Eidetic.Stream.Step

/-!
# The output budget of a turn

The characters of the tokens are counted over all models and rounds, and the
turn ends with the chunk after which their number, divided by 4 and rounded
down, exceeds the budget.

The counter and the log agree as long as the loops run (`Counts`): a token adds
its length to both, and nothing else does. The estimate is checked right after
each token, so that the one that exceeds the budget is the last one. A log is
`Within` the budget when the tokens before every one of its tokens are; when the
check stops the turn, the log ends with the error (`Within.stopped`), and no
transition leaves that point.
-/

namespace Eidetic.Stream

open Eidetic.Py Eidetic.Context Eidetic.Tools

def StreamEvent.tokenLength : StreamEvent → Nat
  | .token t => t.length
  | _ => 0

/-- The characters that a log sends as tokens. -/
def tokenChars (log : List Action) : Nat := ((eventsOf log).map StreamEvent.tokenLength).sum

def Action.isCall : Action → Bool
  | .call .. => true
  | _ => false

/-- The output budget is kept. -/
structure KeepsBudget (c : Config) (ending : Ending) (log : List Action) : Prop where
  /-- Little more than the budget is sent before a token, the last one included. -/
  bounded : ∀ before t rest, log = before ++ .emit (.token t) :: rest →
    (tokenChars before : Int) ≤ 4 * c.streamMaxTurnTokens + 3
  /-- After the token of a model that takes the estimate over the budget, there
  is only the status and the error of a budget. -/
  stops : ∀ before t rest, log = before ++ .emit (.token t) :: rest →
    before.any Action.isCall = true →
    c.streamMaxTurnTokens < ((tokenChars before + t.length) / 4 : Nat) →
    ending = .failed ∧ ∃ reason, (reason = timeBudgetReason c ∨ reason = tokenBudgetReason c) ∧
      rest = [.emit (.alert "budget" reason), .emit (.error reason)]

/-! ## Counting -/

theorem tokenChars_append (xs ys : List Action) :
    tokenChars (xs ++ ys) = tokenChars xs + tokenChars ys := by
  unfold tokenChars
  rw [eventsOf_append, List.map_append, List.sum_append]

theorem tokenChars_token (t : Text) : tokenChars [.emit (.token t)] = t.length := rfl

def Action.isSilent : Action → Bool
  | .emit (.token _) => false
  | _ => true

theorem tokenChars_silent {log : List Action} (h : log.all Action.isSilent = true) :
    tokenChars log = 0 := by
  induction log with
  | nil => rfl
  | cons a log ih =>
    rw [List.all_cons, Bool.and_eq_true] at h
    rw [← List.singleton_append, tokenChars_append, ih h.2]
    cases a with
    | emit e =>
      cases e with
      | token t => exact absurd h.1 (by simp [Action.isSilent])
      | _ => rfl
    | _ => rfl

/-- Where a token stands in a log that ends without one. -/
theorem token_split {log more before rest : List Action} {t : Text}
    (hmore : more.all Action.isSilent = true)
    (h : log ++ more = before ++ .emit (.token t) :: rest) :
    ∃ rest', log = before ++ .emit (.token t) :: rest' := by
  rcases List.append_eq_append_iff.mp h with ⟨gap, hbefore, hmore'⟩ | ⟨gap, hlog, hrest⟩
  · rw [hmore'] at hmore
    simp [Action.isSilent] at hmore
  · cases gap with
    | nil =>
      rw [List.nil_append] at hrest
      rw [← hrest] at hmore
      simp [Action.isSilent] at hmore
    | cons a gap =>
      rw [List.cons_append, List.cons.injEq] at hrest
      exact ⟨gap, by rw [hlog, ← hrest.1]⟩

variable {c : Config}

/-! ## The invariant -/

/-- A log within the budget. -/
def Within (c : Config) (log : List Action) : Prop :=
  (tokenChars log : Int) ≤ 4 * c.streamMaxTurnTokens + 3

theorem within_of_check {elapsed : Rat} {chars : Nat} (hmax : 0 < c.streamMaxTurnTokens)
    (h : checkTurnBudget c elapsed chars = none) :
    (chars : Int) ≤ 4 * c.streamMaxTurnTokens + 3 := by
  unfold checkTurnBudget at h
  split at h
  next => exact absurd h (by simp)
  next =>
    split at h
    next => exact absurd h (by simp)
    next hle =>
      have hquarter : ¬ c.streamMaxTurnTokens < ((chars / 4 : Nat) : Int) := fun hlt =>
        hle ⟨hmax, hlt⟩
      omega

theorem reason_of_check {elapsed : Rat} {chars : Nat} {reason : Text}
    (h : checkTurnBudget c elapsed chars = some reason) :
    reason = timeBudgetReason c ∨ reason = tokenBudgetReason c := by
  unfold checkTurnBudget at h
  split at h
  next => exact Or.inl (Option.some.inj h).symm
  next =>
    split at h
    next => exact Or.inr (Option.some.inj h).symm
    next => exact absurd h (by simp)

/-- A log within the budget keeps it, whatever its end. -/
theorem Within.keeps {log more : List Action} {ending : Ending} (h : Within c log)
    (hmore : more.all Action.isSilent = true) : KeepsBudget c ending (log ++ more) := by
  have hbound : ∀ before t rest, log ++ more = before ++ .emit (.token t) :: rest →
      (tokenChars before + t.length : Int) ≤ 4 * c.streamMaxTurnTokens + 3 := by
    intro before t rest heq
    obtain ⟨rest', hlog⟩ := token_split hmore heq
    unfold Within at h
    rw [hlog, ← List.singleton_append, tokenChars_append, tokenChars_append,
      tokenChars_token] at h
    omega
  refine ⟨fun before t rest heq => ?_, fun before t rest heq _ hover => ?_⟩
  · have := hbound before t rest heq
    omega
  · have := hbound before t rest heq
    omega

/-- A token that exceeds a budget keeps it if the turn stops. -/
theorem Within.stopped {log : List Action} {t reason : Text} (h : Within c log)
    (hreason : reason = timeBudgetReason c ∨ reason = tokenBudgetReason c) :
    KeepsBudget c .failed (log ++ [.emit (.token t)]
      ++ [.emit (.alert "budget" reason), .emit (.error reason)]) := by
  have hcases : ∀ before t' rest, log ++ [.emit (.token t)]
      ++ [.emit (.alert "budget" reason), .emit (.error reason)]
        = before ++ .emit (.token t') :: rest →
      (before = log ∧ rest = [.emit (.alert "budget" reason), .emit (.error reason)]) ∨
        (tokenChars before + t'.length : Int) ≤ 4 * c.streamMaxTurnTokens + 3 := by
    intro before t' rest heq
    obtain ⟨rest', hlog⟩ := token_split rfl heq
    rcases List.eq_nil_or_concat rest' with rfl | ⟨rest'', a, rfl⟩
    · obtain ⟨rfl, -⟩ := List.append_inj' hlog rfl
      rw [List.append_assoc] at heq
      obtain ⟨-, hrest⟩ := List.append_inj heq rfl
      exact Or.inl ⟨rfl, (List.cons.inj hrest).2.symm⟩
    · have hinit : log = before ++ .emit (.token t') :: rest'' := by
        rw [List.concat_eq_append, ← List.cons_append, ← List.append_assoc] at hlog
        exact (List.append_inj' hlog rfl).1
      unfold Within at h
      rw [hinit, ← List.singleton_append, tokenChars_append, tokenChars_append,
        tokenChars_token] at h
      exact Or.inr (by omega)
  refine ⟨fun before t' rest heq => ?_, fun before t' rest heq _ hover => ?_⟩
  · rcases hcases before t' rest heq with ⟨rfl, -⟩ | hbound
    · exact h
    · omega
  · rcases hcases before t' rest heq with ⟨-, hrest⟩ | hbound
    · exact ⟨rfl, reason, hreason, hrest⟩
    · omega

/-- The characters are counted, and so far they are within the budget. -/
def Counts (c : Config) (s : Turn) : Prop := s.chars = tokenChars s.log ∧ Within c s.log

def Spent (c : Config) (m : Moment) : Prop :=
  match m.point with
  | .ended e => KeepsBudget c e m.turn.log
  | _ => Counts c m.turn

theorem Counts.extend {s s' : Turn} {more : List Action} (h : Counts c s)
    (heq : s'.log = s.log ++ more) (hchars : s'.chars = s.chars)
    (hmore : more.all Action.isSilent = true) : Counts c s' := by
  have htotal : tokenChars s'.log = tokenChars s.log := by
    rw [heq, tokenChars_append, tokenChars_silent hmore, Nat.add_zero]
  refine ⟨by rw [htotal, hchars, h.1], ?_⟩
  unfold Within
  rw [htotal]
  exact h.2

theorem Counts.close {s s' : Turn} {ending : Ending} {more : List Action} (h : Counts c s)
    (heq : s'.log = s.log ++ more) (hmore : more.all Action.isSilent = true) :
    KeepsBudget c ending s'.log := by
  rw [heq]
  exact h.2.keeps hmore

theorem startStatus_silent (p : Plan) (idx : Nat) (model : Text) :
    Action.isSilent (.emit (startStatus c p idx model)) = true :=
  startStatus_of (fun e => Action.isSilent (.emit e) = true) (fun _ => rfl) (fun _ => rfl) c p idx
    model

theorem controlOf_silent {n : Numerals} {result : Text} {e : StreamEvent}
    (h : controlOf n result = .event e) : Action.isSilent (.emit e) = true :=
  controlOf_of (fun e => Action.isSilent (.emit e) = true) (fun _ => rfl) (fun _ => rfl)
    (fun _ => rfl) h

theorem Counts.runTool {s : Turn} (h : Counts c s) (tc : ToolCall) (args : List (Text × Json))
    (result : ToolResult) :
    Counts c (Stream.runTool c (s.act (.request tc)) tc.name args result) :=
  (h.extend (Turn.act_log s (.request tc)) rfl rfl).extend (runTool_log _ c tc.name args result) rfl
    rfl

theorem Spent.step {p : Plan} (hmax : 0 < c.streamMaxTurnTokens) (m m' : Moment)
    (hstep : Step c p m m') (h : Spent c m) : Spent c m' := by
  cases hstep with
  | start idx model s =>
    refine h.extend (startModel_log s c p idx model) (startModel_chars s c p idx model) ?_
    rw [List.all_cons, List.all_cons, startStatus_silent]
    rfl
  | exhausted s => exact h.close (Turn.emit_log s _) rfl
  | limit a s => exact h.close (Turn.emit_log s _) rfl
  | overBudget a s hcheck => exact h.close (Turn.stopFor_log s _) rfl
  | call a s hcheck => exact h.extend (Turn.callModel_log s a _) rfl rfl
  | text a r s t hcheck =>
    have htotal : tokenChars (s.sendToken t).log = tokenChars s.log + t.length := by
      rw [Turn.sendToken_log, tokenChars_append, tokenChars_token]
    have hchars : (s.sendToken t).chars = tokenChars (s.sendToken t).log := by
      rw [htotal, Turn.sendToken_chars, h.1]
    refine ⟨hchars, ?_⟩
    unfold Within
    rw [← hchars]
    exact within_of_check hmax hcheck
  | textOver a r s t hcheck =>
    change KeepsBudget c .failed ((s.sendToken t).stopFor _).log
    rw [Turn.stopFor_log, Turn.sendToken_log]
    exact h.2.stopped (reason_of_check hcheck)
  | late a r s => exact h.close (Turn.stopFor_log s _) rfl
  | toolCalls a r s calls => exact h
  | usage a r s items => exact h.extend (Turn.act_log s _) rfl rfl
  | interrupted a r s hstarted => exact h.close (Turn.emit_log s _) rfl
  | broken a r s hstarted => exact h
  | requested a r s ms hcalls =>
    exact (h.extend (Turn.emit_log s (modelCallStatus a.model r.toolCalls ms)) rfl rfl).extend
      (discardPreamble_log _ r) (discardPreamble_chars _ r) (discardActions_all rfl r)
  | empty a r s ms hcalls hempty => exact h.extend (Turn.emit_log s _) rfl rfl
  | answered a r s ms hcalls hne =>
    refine (h.extend (Turn.emit_log s (modelCallStatus a.model r.toolCalls ms)) rfl rfl).close
      ((finish_log _ p a r).trans (List.append_assoc ..)) ?_
    rw [List.all_append, cacheActions_all (fun _ _ => rfl)]
    rfl
  | badArguments a usage tc rest s hargs => exact h.close (Turn.act_log s _) rfl
  | guarded a usage tc rest s hargs hlimit =>
    exact (h.extend (Turn.act_log s (.request tc)) rfl rfl).extend (Turn.emit_log _ _) rfl rfl
  | badControl a usage tc rest s result hargs hlimit hcontrol =>
    exact (h.extend (Turn.act_log s (.request tc)) rfl rfl).close (runTool_log _ c tc.name _ result)
      rfl
  | @controlled a usage tc rest s args result e hargs hlimit hcontrol =>
    refine ((h.runTool tc args result).extend (Turn.emit_log _ e) rfl ?_).close
      (Turn.emit_log _ _) rfl
    rw [List.all_cons, controlOf_silent hcontrol]
    rfl
  | @executed a usage tc rest s args result hargs hlimit hcontrol =>
    exact (h.runTool tc args result).extend (Turn.emit_log _ _) rfl rfl
  | callsDone a usage s => exact h

theorem within_nil (hmax : 0 < c.streamMaxTurnTokens) : Within c [] := by
  change (0 : Int) ≤ _
  omega

/-- No estimate is made of a stored response. -/
theorem serveCached_keepsBudget {ending : Ending} (hmax : 0 < c.streamMaxTurnTokens)
    (cached : Cache.Cached) : KeepsBudget c ending (serveCached cached {}).log := by
  have hbefore : ∀ before t rest,
      (serveCached cached {}).log = before ++ .emit (.token t) :: rest →
      tokenChars before = 0 ∧ before.any Action.isCall = false := by
    intro before t rest heq
    match before with
    | [] => exact ⟨rfl, rfl⟩
    | [a] =>
      obtain ⟨rfl, -⟩ := List.cons.inj heq
      exact ⟨rfl, rfl⟩
    | [a, b] => exact absurd heq (by simp [serveCached, Turn.emit, Turn.act])
    | a :: b :: d :: before => exact absurd heq (by simp [serveCached, Turn.emit, Turn.act])
  refine ⟨fun before t rest heq => ?_, fun before t rest heq hcall _ => ?_⟩
  · rw [(hbefore before t rest heq).1]
    exact within_nil hmax
  · rw [(hbefore before t rest heq).2] at hcall
    exact absurd hcall (by simp)

/-- With a budget for the output, every turn keeps it. -/
theorem keepsBudget (c : Config) (r : Request) (w : World) (hmax : 0 < c.streamMaxTurnTokens) :
    KeepsBudget c (generateStream c r w).1 (generateStream c r w).2.log := by
  cases generateStream_begins c r w with
  | cached cached huse hcached h =>
    rw [h]
    exact serveCached_keepsBudget hmax cached
  | undecodable huser h =>
    rw [h]
    exact (within_nil hmax).keeps rfl
  | runs user status huser hplan h =>
    have hsilent : ((routeStatus c r w :: status).map Action.emit).all Action.isSilent = true := by
      refine List.all_eq_true.mpr fun a ha => ?_
      obtain ⟨e, he, rfl⟩ := List.mem_map.mp ha
      obtain ⟨stage, detail, rfl⟩ := hplan e he
      rfl
    have hstart : Spent c ⟨.between, ⟨(routeStatus c r w :: status).map .emit, 0, 0, 0⟩⟩ := by
      refine ⟨(tokenChars_silent hsilent).symm, ?_⟩
      unfold Within
      rw [tokenChars_silent hsilent]
      exact within_nil hmax
    exact Steps.invariant (Spent.step hmax) h hstart

/-- A budget of one token, and an answer of ten characters. -/
theorem keepsBudget_oneToken :
    KeepsBudget { smallConfig with streamMaxTurnTokens := 1 }
      (generateStream { smallConfig with streamMaxTurnTokens := 1 } (question "Hello." [])
        (meets [answers "Hello you!"] [])).1
      (generateStream { smallConfig with streamMaxTurnTokens := 1 } (question "Hello." [])
        (meets [answers "Hello you!"] [])).2.log :=
  keepsBudget _ _ _ (by decide)

end Eidetic.Stream
