import Eidetic.Lib.Double
import Eidetic.Py.Text
import Mathlib.Algebra.Order.Ring.Unbundled.Rat

/-!
# The writers of the memory sheet

What each writer of `UserMemory.content` makes of the row it has read: `none`
where it returns without a write. What a model answers to the current sheet is
an argument, `none` for a call that fails.

The salience and the confidence are doubles. A sum of them is rounded as the sum
of doubles is; a product that is then rounded to four decimals is taken exactly,
and the decimal stands for the double next to it.
-/

namespace Eidetic.Memory

open Eidetic.Lib Eidetic.Py

/-- A row of `user_memory`. -/
structure MemoryRow where
  content : Text
  projectSummary : Option Text := none
  version : Nat
  salience : Rat := 1
  confidence : Rat := 1
deriving DecidableEq

/-- `_truncate`: at most so many words. -/
def truncate (text : Text) (maxWords : Nat) : Text :=
  if (words text).length > maxWords then joinWords ((words text).take maxWords) else text

/-- `round(x, 4)`, a half going to the even side. -/
def round4 (x : Rat) : Rat :=
  let scaled := x * 10000
  let down := scaled.floor
  let rest := scaled - down
  (if rest > 1 / 2 ∨ rest = 1 / 2 ∧ down % 2 = 1 then down + 1 else down : Rat) / 10000

/-- `decay_salience`, one cycle. -/
def decaySalience (salience : Rat) : Rat := round4 (max (salience * 95 / 100) 0)

/-- `_write_memory`: the sheet and the summary of a request. -/
def writeMemory (content projectSummary : Text) : Option MemoryRow → MemoryRow
  | some row =>
    { row with
      content := truncate (strip content) 500
      projectSummary := some (truncate (strip projectSummary) 300)
      version := row.version + 1 }
  | none =>
    { content := truncate (strip content) 500
      projectSummary := some (truncate (strip projectSummary) 300)
      version := 1 }

/-- `write_memory_fact`: one more line. -/
def writeMemoryFact (body : Text) : Option MemoryRow → MemoryRow
  | some row =>
    let fact := (strip body).take 500
    let existing := strip row.content
    { row with
      content := if existing.isEmpty then fact else existing ++ "\n".toList ++ fact
      version := row.version + 1
      salience := addDouble row.salience (1 / 10) }
  | none => { content := (strip body).take 500, version := 1, salience := 1 / 10 }

/-- The sheet a model has answered with, if it has one. -/
def updatedSheet (answer : Option Text) : Option Text :=
  let updated := strip (answer.getD [])
  if updated.isEmpty ∨ updated = "NO_UPDATE".toList then none else some (truncate updated 500)

/-- `_update_memory`; it returns at once when there are no new messages. -/
def updateMemory (newMessages : Bool) (answer : Text → Option Text) :
    Option MemoryRow → Option MemoryRow
  | some row =>
    if newMessages then
      (updatedSheet (answer row.content)).map fun updated =>
        { row with content := updated, version := row.version + 1 }
    else none
  | none =>
    if newMessages then
      (updatedSheet (answer [])).map fun updated => { content := updated, version := 1 }
    else none

/-- `_restructure_memory`. -/
def restructureMemory (answer : Text → Option Text) : Option MemoryRow → Option MemoryRow
  | some row =>
    if row.content.isEmpty then none
    else
      (updatedSheet (answer (strip row.content))).map fun updated =>
        { row with content := updated, version := row.version + 1 }
  | none => none

/-- `_compact_memory`: a sheet of low salience is cleared. -/
def compactMemory (answer : Text → Option Text) : Option MemoryRow → Option MemoryRow
  | some row =>
    let current := strip row.content
    let salience := decaySalience row.salience
    if row.content.isEmpty ∨ (words current).length < 100 then none
    -- cleared without asking a model
    else if salience < 3 / 10 then
      some
        { row with
          content := [], projectSummary := some [], version := row.version + 1
          salience := 0, confidence := 0 }
    else
      (updatedSheet (answer current)).map fun updated =>
        { row with
          content := updated, version := row.version + 1
          salience := min (addDouble salience (1 / 10)) 2
          confidence := min (addDouble row.confidence (5 / 100)) 1 }
  | none => none

def preferencesMarker : Text := "[PREFERENCES]".toList

/-- What stands before and after the first marker. -/
def splitAtMarker : Text → Option (Text × Text)
  | [] => none
  | c :: cs =>
    if startsWith (c :: cs) preferencesMarker then
      some ([], (c :: cs).drop preferencesMarker.length)
    else (splitAtMarker cs).map fun parts => (c :: parts.1, parts.2)

/-- What `.*?(?=\[|$)` leaves: the text from the next bracket or the end on. -/
def afterSection : Text → Text
  | [] => []
  -- `$` also stands before a newline at the very end
  | c :: cs => if c = '[' ∨ c = '\n' ∧ cs = [] then c :: cs else afterSection cs

/-- `_replace_or_append_pref`; `template` is what `re` makes of a replacement,
`none` for the `re.error` of a bad escape. -/
def replaceOrAppendPref (template : Text → Option Text) (current prefBlock : Text) : Option Text :=
  let newPref := preferencesMarker ++ "\n".toList ++ prefBlock
  match splitAtMarker current with
  | some (before, after) =>
    -- `re.sub` takes the new section as a template, with its escapes
    (template newPref).map fun replaced => before ++ replaced ++ afterSection after
  | none =>
    let kept := strip current
    some (if kept.isEmpty then newPref else kept ++ "\n\n".toList ++ newPref)

/-- `extract_preferences`, once it has a block; a missing row is inserted first. -/
def extractPreferences (template : Text → Option Text) (prefBlock : Text) :
    Option MemoryRow → Option MemoryRow
  | some row =>
    (replaceOrAppendPref template row.content prefBlock).map fun content =>
      { row with content := content, version := row.version + 1 }
  | none =>
    (replaceOrAppendPref template [] prefBlock).map fun content =>
      { content := content, version := 1 }

/-- The lines of a sheet that are not blank. -/
def factLines (content : Text) : List Text :=
  (splitLines content).filter fun l => !(strip l).isEmpty

inductive Strategy
  | keepA
  | keepB
  | merge
  | discardBoth
deriving DecidableEq, Repr

/-- The lines a strategy leaves. -/
def resolvedLines (strategy : Strategy) (factA factB : Text) (lines : List Text) : List Text :=
  match strategy with
  | .keepA => lines.filter fun l => strip l ≠ factB
  | .keepB => lines.filter fun l => strip l ≠ factA
  | .discardBoth => lines.filter fun l => strip l ≠ factA ∧ strip l ≠ factB
  | .merge =>
    (lines.filter fun l => strip l ≠ factA ∧ strip l ≠ factB) ++ [factA ++ " / ".toList ++ factB]

/-- `resolve_conflict`. -/
def resolveConflict (strategy : Strategy) (factA factB : Text) :
    Option MemoryRow → Option MemoryRow
  | some row =>
    let lines := (splitLines row.content).filter fun l => !(strip l).isEmpty
    some
      { row with
        content := joinLines (resolvedLines strategy factA factB lines)
        version := row.version + 1 }
  | none => none

/-- `memory_restore` of a snapshot. -/
def memoryRestore (content : Text) (projectSummary : Option Text) :
    Option MemoryRow → Option MemoryRow
  | some row =>
    some
      { row with
        content := content
        projectSummary := some (projectSummary.getD [])
        version := row.version + 1 }
  | none => none

/-! ## What is written -/

/-- A first row, or another sheet in the row there is: the version is the next
one, the salience and the confidence stay. -/
inductive Rewrites (seen : Option MemoryRow) (new : MemoryRow) : Prop
  | inserted (row : seen = none) (version : new.version = 1) (salience : new.salience = 1)
      (confidence : new.confidence = 1)
  | kept (old : MemoryRow) (row : seen = some old) (version : new.version = old.version + 1)
      (salience : new.salience = old.salience) (confidence : new.confidence = old.confidence)

variable {seen : Option MemoryRow} {new : MemoryRow}

theorem writeMemory_rewrites (content projectSummary : Text) :
    Rewrites seen (writeMemory content projectSummary seen) := by
  cases seen with
  | none => exact .inserted rfl rfl rfl rfl
  | some old => exact .kept old rfl rfl rfl rfl

theorem updateMemory_rewrites {newMessages : Bool} {answer : Text → Option Text}
    (h : updateMemory newMessages answer seen = some new) : Rewrites seen new := by
  unfold updateMemory at h
  split at h
  next old =>
    split at h
    next =>
      obtain ⟨_, _, rfl⟩ := Option.map_eq_some_iff.mp h
      exact .kept old rfl rfl rfl rfl
    next => exact absurd h (by simp)
  next =>
    split at h
    next =>
      obtain ⟨_, _, rfl⟩ := Option.map_eq_some_iff.mp h
      exact .inserted rfl rfl rfl rfl
    next => exact absurd h (by simp)

theorem restructureMemory_rewrites {answer : Text → Option Text}
    (h : restructureMemory answer seen = some new) : Rewrites seen new := by
  unfold restructureMemory at h
  split at h
  next old =>
    split at h
    next => exact absurd h (by simp)
    next =>
      obtain ⟨_, _, rfl⟩ := Option.map_eq_some_iff.mp h
      exact .kept old rfl rfl rfl rfl
  next => exact absurd h (by simp)

theorem extractPreferences_rewrites {template : Text → Option Text} {prefBlock : Text}
    (h : extractPreferences template prefBlock seen = some new) : Rewrites seen new := by
  unfold extractPreferences at h
  split at h
  next old =>
    obtain ⟨_, _, rfl⟩ := Option.map_eq_some_iff.mp h
    exact .kept old rfl rfl rfl rfl
  next =>
    obtain ⟨_, _, rfl⟩ := Option.map_eq_some_iff.mp h
    exact .inserted rfl rfl rfl rfl

theorem resolveConflict_rewrites {strategy : Strategy} {factA factB : Text}
    (h : resolveConflict strategy factA factB seen = some new) : Rewrites seen new := by
  unfold resolveConflict at h
  split at h
  next old =>
    obtain rfl := Option.some.inj h
    exact .kept old rfl rfl rfl rfl
  next => exact absurd h (by simp)

theorem memoryRestore_rewrites {content : Text} {projectSummary : Option Text}
    (h : memoryRestore content projectSummary seen = some new) : Rewrites seen new := by
  unfold memoryRestore at h
  split at h
  next old =>
    obtain rfl := Option.some.inj h
    exact .kept old rfl rfl rfl rfl
  next => exact absurd h (by simp)

/-- A compaction takes the next version; it clears the numbers or raises them. -/
theorem compactMemory_cases {answer : Text → Option Text}
    (h : compactMemory answer seen = some new) :
    ∃ old, seen = some old ∧ new.version = old.version + 1 ∧
      (new.salience = 0 ∧ new.confidence = 0 ∨
        new.salience = min (addDouble (decaySalience old.salience) (1 / 10)) 2 ∧
          new.confidence = min (addDouble old.confidence (5 / 100)) 1) := by
  unfold compactMemory at h
  split at h
  next old =>
    dsimp only at h
    split at h
    next => exact absurd h (by simp)
    next =>
      -- cleared, or compacted by a model
      split at h
      next =>
        obtain rfl := Option.some.inj h
        exact ⟨old, rfl, rfl, Or.inl ⟨rfl, rfl⟩⟩
      next =>
        obtain ⟨_, _, rfl⟩ := Option.map_eq_some_iff.mp h
        exact ⟨old, rfl, rfl, Or.inr ⟨rfl, rfl⟩⟩
  next => exact absurd h (by simp)

end Eidetic.Memory
