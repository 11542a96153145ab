import Eidetic.Stream.Calls

/-!
# Repeated tool calls

The loop guard counts the calls with the same arguments and stops at the limit
of the tool. Its counts are locals of the loop over the models, so every model
of the chain begins to count anew: a turn keeps the limits if and only if what
its models ask for, up to the limit each, adds up to no more
(`keepsLimits_iff`).

By `Stream.Calls` the executions of a turn are the calls come to, rationed by
the model and the signature. So the number of executions of one signature is a
sum over the models, of what each asked for up to the limit
(`executionCount_eq`), and the claim is an inequality about this sum. It is met
when no call is asked for under two models (`AskedOnce`), which is so unless a
model fails after a tool has run.
-/

namespace Eidetic.Stream

open Eidetic.Py Eidetic.Context Eidetic.Tools Eidetic.Lib

/-- How often a turn executes a tool with these arguments. -/
def executionCount (c : Config) (log : List Action) (sig : Signature) : Nat :=
  ((executionsOf log).map fun x => signatureOf c.numerals x.name x.args).count sig

/-- No call is executed more often than the limit of its tool allows. -/
def KeepsLimits (c : Config) (log : List Action) : Prop :=
  ∀ sig, executionCount c log sig ≤ callLimit c.lower sig.1

/-- How often a turn comes to a call with these arguments under a model. -/
def requestCount (c : Config) (log : List Action) (model : Nat) (sig : Signature) : Nat :=
  (((requested c).notes {} log).map ToolUse.key).count (model, sig)

/-- How many models of the chain a turn comes to. -/
def modelCount (c : Config) (log : List Action) : Nat := ((requested c).after {} log).model

/-- What the models ask for, up to the limit each, adds up to no more than the limit. -/
def AsksWithinLimits (c : Config) (log : List Action) : Prop :=
  ∀ sig, ∑ model ∈ Finset.range (modelCount c log + 1),
    min (callLimit c.lower sig.1) (requestCount c log model sig) ≤ callLimit c.lower sig.1

/-! ## The executions of a turn -/

theorem executed_signatures (c : Config) (s : Standing) (log : List Action) :
    ((executed c).notes s log).map (·.signature)
      = (executionsOf log).map fun x => signatureOf c.numerals x.name x.args := by
  induction log generalizing s with
  | nil => rfl
  | cons a log ih =>
    rw [Observer.notes, List.map_append, ih]
    cases a with
    | execute name args result => rfl
    | _ => rfl

/-- Each model executes what it is asked for, up to the limit. -/
theorem executionCount_eq (c : Config) (r : Request) (w : World) (sig : Signature) :
    executionCount c (generateStream c r w).2.log sig
      = ∑ model ∈ Finset.range (modelCount c (generateStream c r w).2.log + 1),
        min (callLimit c.lower sig.1)
          (requestCount c (generateStream c r w).2.log model sig) := by
  obtain ⟨p, -, htallied⟩ := calls_tallied c r w
  have huses : (executed c).notes {} (generateStream c r w).2.log
      = rationed ToolUse.key (keyLimit c) ((requested c).notes {} (generateStream c r w).2.log) :=
    htallied.rationed
  have hmodels : ∀ x ∈ ((executed c).notes {} (generateStream c r w).2.log).map ToolUse.key,
      x.1 < modelCount c (generateStream c r w).2.log + 1 := by
    intro x hx
    obtain ⟨y, hy, rfl⟩ := List.mem_map.mp hx
    rw [huses] at hy
    exact Nat.lt_succ_of_le (htallied.models y ((rationed_sublist _).mem hy))
  have hgroups := count_groups _ hmodels sig
  rw [List.map_map] at hgroups
  have hsignatures := executed_signatures c {} (generateStream c r w).2.log
  rw [executionCount, ← hsignatures]
  refine hgroups.trans (Finset.sum_congr rfl fun model _ => ?_)
  rw [huses, count_rationed]
  rfl

/-- A turn keeps the limits if and only if what its models ask for, up to the
limit each, adds up to no more. -/
theorem keepsLimits_iff (c : Config) (r : Request) (w : World) :
    KeepsLimits c (generateStream c r w).2.log ↔
      AsksWithinLimits c (generateStream c r w).2.log := by
  unfold KeepsLimits AsksWithinLimits
  exact forall_congr' fun sig => by rw [executionCount_eq]

/-- No call is asked for under two models of the chain. -/
def AskedOnce (c : Config) (log : List Action) : Prop :=
  ∀ sig j k, 0 < requestCount c log j sig → 0 < requestCount c log k sig → j = k

/-- Then the limits are kept: as long as no model fails after a tool has run,
or the one that takes over asks for something else. -/
theorem AskedOnce.asksWithinLimits {c : Config} {log : List Action} (h : AskedOnce c log) :
    AsksWithinLimits c log := by
  intro sig
  by_cases hasked : ∃ k, 0 < requestCount c log k sig
  · obtain ⟨k, hk⟩ := hasked
    have hothers : ∀ j ∈ Finset.range (modelCount c log + 1), j ≠ k →
        min (callLimit c.lower sig.1) (requestCount c log j sig) = 0 := by
      intro j _ hne
      have hzero : requestCount c log j sig = 0 :=
        Nat.eq_zero_of_not_pos fun hj => hne (h sig j k hj hk)
      rw [hzero, Nat.min_zero]
    by_cases hrange : k ∈ Finset.range (modelCount c log + 1)
    · rw [Finset.sum_eq_single_of_mem k hrange hothers]
      exact Nat.min_le_left _ _
    · have hsum : ∑ j ∈ Finset.range (modelCount c log + 1),
          min (callLimit c.lower sig.1) (requestCount c log j sig) = 0 :=
        Finset.sum_eq_zero fun j hj => hothers j hj fun heq => hrange (heq ▸ hj)
      rw [hsum]
      exact Nat.zero_le _
  · have hsum : ∑ j ∈ Finset.range (modelCount c log + 1),
        min (callLimit c.lower sig.1) (requestCount c log j sig) = 0 := by
      refine Finset.sum_eq_zero fun j _ => ?_
      have hzero : requestCount c log j sig = 0 :=
        Nat.eq_zero_of_not_pos fun hj => hasked ⟨j, hj⟩
      rw [hzero, Nat.min_zero]
    rw [hsum]
    exact Nat.zero_le _

def listCall : ToolCall := ⟨"c1".toList, "list_files".toList, "\x7b\x7d".toList⟩

def oneFile : Text := textOf
  ["- notes.txt (id=0b9a4f2e-5d7c-", "4c1a-9e63-2f8d1a7b6c05, ", "size=2 bytes, status=ready)\n",
    "[1 file(s) total. This list is ", "complete — use search_in_file ", "or read_file to access content.]"]

/-- A model lists the files and then says nothing; the next model of the chain
lists them again. -/
def listingWorld : World :=
  let generations : List Generation :=
    [{ chunks := [(.toolCalls [listCall], 0)] }, { chunks := [] },
      { chunks := [(.toolCalls [listCall], 0)] }, { chunks := [], elapsed := 301 }]
  { meets generations [] with results := fun _ => ⟨oneFile, 0⟩ }

/-- A question about a file, put to a model that the user has chosen. -/
def chosenModel : Request :=
  { question "What is there?" ["notes.txt"] with modelOverride := "coder".toList }

/-- `list_files` runs twice with the same arguments, and its limit is one. -/
theorem listingWorld_repeats :
    ¬ KeepsLimits smallConfig (generateStream smallConfig chosenModel listingWorld).2.log := by
  have hcount : ¬ executionCount smallConfig
      (generateStream smallConfig chosenModel listingWorld).2.log
      (listCall.name, listCall.arguments)
      ≤ callLimit smallConfig.lower "list_files".toList := by
    decide +kernel
  intro h
  exact hcount (h (listCall.name, listCall.arguments))

end Eidetic.Stream
