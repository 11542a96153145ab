import Eidetic.Context.UserState
import Eidetic.Memory.History
import Eidetic.Py.Spacing

/-!
# The word limit and the facts of the sheet

The writers cut a sheet that is too long to its first 500 words and join these
with single spaces. The other readers of the sheet take each line for a fact,
and of a sheet that was cut there is one line left. Its facts are those of what
was submitted only where a line of it begins with all the words that are kept
(`cutsAtFacts_iff`), so never in a sheet of lines of less than 500 words.

Which operations submit a sheet, and that each stores it cut in the same way, is
`compute_of_submitted`. The rest is about one text: its first words joined with
spaces are one line (`factsOf_joinWords`), so what is stored has one fact, and
that is the beginning of a fact of the sheet only where that line has the same
words with the same spaces between them (`Opens`).
-/

namespace Eidetic.Memory

open Eidetic.Lib Eidetic.Py

/-- The sheet a model has answered with, before it is cut. -/
def answeredSheet (answer : Option Text) : Option Text :=
  let updated := strip (answer.getD [])
  if updated.isEmpty ∨ updated = "NO_UPDATE".toList then none else some updated

/-- The sheet that an operation submits to the word limit. -/
def submitted (s : History) : Operation → Option Text
  | .writeMemory content _ => some (strip content)
  | .updateMemory newMessages answer =>
    if newMessages then answeredSheet (answer ((s.row.map (·.content)).getD [])) else none
  | .restructureMemory answer =>
    s.row.bind fun row =>
      if row.content.isEmpty then none else answeredSheet (answer (strip row.content))
  | .compactMemory answer =>
    s.row.bind fun row =>
      if row.content.isEmpty ∨ (words (strip row.content)).length < 100 then none
      else if decaySalience row.salience < 3 / 10 then none
      else answeredSheet (answer (strip row.content))
  | _ => none

/-- What is stored of a sheet that was submitted: at most so many words, and
facts of the sheet, the last of them perhaps cut. -/
structure KeepsFacts (sheet stored : Text) : Prop where
  limit : (words stored).length ≤ 500
  facts : ∀ before last, Context.factsOf stored = before ++ [last] →
    (∀ f ∈ before, f ∈ Context.factsOf sheet) ∧ ∃ f ∈ Context.factsOf sheet, last <+: f

/-- An operation that submits a sheet above the limit stores its facts. -/
def CutsAtFacts (s : History) (op : Operation) : Prop :=
  ∀ sheet, submitted s op = some sheet → 500 < (words sheet).length →
    ∀ new, op.compute s = some new → KeepsFacts sheet new.content

/-- A line of the sheet begins with its first 500 words, one space apart. -/
def Opens (sheet : Text) : Prop :=
  ∃ f ∈ Context.factsOf sheet, joinWords ((words sheet).take 500) <+: f

/-! ## The writers -/

theorem updatedSheet_eq (answer : Option Text) :
    updatedSheet answer = (answeredSheet answer).map fun updated => truncate updated 500 := by
  unfold updatedSheet answeredSheet
  dsimp only
  split
  next => rfl
  next => rfl

/-- What is submitted is stored up to the limit. -/
theorem compute_of_submitted {s : History} {op : Operation} {sheet : Text}
    (h : submitted s op = some sheet) :
    ∃ new, op.compute s = some new ∧ new.content = truncate sheet 500 := by
  cases op with
  | writeMemory content projectSummary =>
    obtain rfl := Option.some.inj h
    refine ⟨_, rfl, ?_⟩
    unfold writeMemory
    split
    next => rfl
    next => rfl
  | updateMemory newMessages answer =>
    unfold submitted at h
    dsimp only at h
    unfold Operation.compute updateMemory
    dsimp only
    cases hrow : s.row with
    | none =>
      rw [hrow] at h
      dsimp only
      split
      next hnew =>
        rw [if_pos hnew] at h
        rw [updatedSheet_eq, show answeredSheet (answer []) = some sheet from h]
        exact ⟨_, rfl, rfl⟩
      next hnew => exact absurd h (by rw [if_neg hnew]; simp)
    | some row =>
      rw [hrow] at h
      dsimp only
      split
      next hnew =>
        rw [if_pos hnew] at h
        rw [updatedSheet_eq, show answeredSheet (answer row.content) = some sheet from h]
        exact ⟨_, rfl, rfl⟩
      next hnew => exact absurd h (by rw [if_neg hnew]; simp)
  | restructureMemory answer =>
    obtain ⟨row, hrow, hsheet⟩ := Option.bind_eq_some_iff.mp h
    unfold Operation.compute restructureMemory
    dsimp only
    rw [hrow]
    dsimp only
    split
    next hempty => exact absurd hsheet (by rw [if_pos hempty]; simp)
    next hempty =>
      rw [if_neg hempty] at hsheet
      rw [updatedSheet_eq, hsheet]
      exact ⟨_, rfl, rfl⟩
  | compactMemory answer =>
    obtain ⟨row, hrow, hsheet⟩ := Option.bind_eq_some_iff.mp h
    unfold Operation.compute compactMemory
    dsimp only
    rw [hrow]
    dsimp only
    split
    next hskip => exact absurd hsheet (by rw [if_pos hskip]; simp)
    next hskip =>
      rw [if_neg hskip] at hsheet
      split
      next hcleared => exact absurd hsheet (by rw [if_pos hcleared]; simp)
      next hcleared =>
        rw [if_neg hcleared] at hsheet
        rw [updatedSheet_eq, hsheet]
        exact ⟨_, rfl, rfl⟩
  | _ => exact absurd h (by simp [submitted])

/-! ## What is left of a sheet that is cut -/

/-- Words joined with spaces are one fact. -/
theorem factsOf_joinWords {ws : List Text} (h : ∀ w ∈ ws, IsWord w) (hne : ws ≠ []) :
    Context.factsOf (joinWords ws) = [joinWords ws] := by
  have hbreak : '\n' ∉ joinWords ws := by
    intro hmem
    rcases mem_joinWords hmem with heq | ⟨w, hw, hc⟩
    · exact absurd heq (by decide)
    · exact absurd ((h w hw).solid '\n' hc) (by decide)
  have htext : (joinWords ws).isEmpty = false := by
    simpa using joinWords_ne_nil h hne
  unfold Context.factsOf
  rw [splitLines_line hbreak, List.map_singleton, strip_trimmed (joinWords_spaces h).2,
    List.filter_cons_of_pos (by simp [htext]), List.filter_nil]

theorem keepsFacts_iff {sheet : Text} (hlong : 500 < (words sheet).length) :
    KeepsFacts sheet (truncate sheet 500) ↔ Opens sheet := by
  have hwords : ∀ w ∈ (words sheet).take 500, IsWord w :=
    fun w hw => words_isWord sheet w (List.mem_of_mem_take hw)
  have hlength : ((words sheet).take 500).length = 500 := by
    rw [List.length_take]
    omega
  have hne : (words sheet).take 500 ≠ [] := List.ne_nil_of_length_pos (by omega)
  have hstored : truncate sheet 500 = joinWords ((words sheet).take 500) := by
    unfold truncate
    rw [if_pos hlong]
  rw [hstored]
  constructor
  · intro h
    exact (h.facts [] _ (factsOf_joinWords hwords hne)).2
  · intro hopens
    refine ⟨?_, ?_⟩
    · rw [words_joinWords hwords, hlength]
    · intro before last hsplit
      rw [factsOf_joinWords hwords hne] at hsplit
      -- the one fact is the last
      obtain ⟨rfl, rfl⟩ : before = [] ∧ joinWords ((words sheet).take 500) = last := by
        cases before with
        | nil => exact ⟨rfl, (List.cons.inj hsplit).1⟩
        | cons f before =>
          have hnil := (List.cons.inj hsplit).2
          exact absurd hnil.symm (by simp)
      exact ⟨by simp, hopens⟩

/-- A writer that submits a sheet above the limit stores its facts exactly when a
line of the sheet begins with its first 500 words, one space apart. -/
theorem cutsAtFacts_iff (s : History) (op : Operation) :
    CutsAtFacts s op ↔
      ∀ sheet, submitted s op = some sheet → 500 < (words sheet).length → Opens sheet := by
  constructor
  · intro h sheet hsheet hlong
    obtain ⟨new, hnew, hcontent⟩ := compute_of_submitted hsheet
    have hkeeps := h sheet hsheet hlong new hnew
    rw [hcontent] at hkeeps
    exact (keepsFacts_iff hlong).mp hkeeps
  · intro h sheet hsheet hlong new hnew
    obtain ⟨new', hnew', hcontent⟩ := compute_of_submitted hsheet
    obtain rfl := Option.some.inj (hnew.symm.trans hnew')
    rw [hcontent]
    exact (keepsFacts_iff hlong).mpr (h sheet hsheet hlong)

/-- A sheet of one header and 500 words below it. -/
def headedSheet : Text := "[STACK]\n".toList ++ joinWords (List.replicate 500 "tea".toList)

theorem headedSheet_flattened : ¬ ∀ (s : History) (op : Operation), CutsAtFacts s op := by
  intro h
  have hsheet : submitted {} (.writeMemory headedSheet []) = some headedSheet := by decide +kernel
  have hlong : 500 < (words headedSheet).length := by decide +kernel
  obtain ⟨new, hnew, hcontent⟩ := compute_of_submitted hsheet
  have hkeeps := h {} (.writeMemory headedSheet []) headedSheet hsheet hlong new hnew
  rw [hcontent] at hkeeps
  obtain ⟨f, hf, hprefix⟩ := (keepsFacts_iff hlong).mp hkeeps
  have hnone : ∀ f ∈ Context.factsOf headedSheet,
      ¬ joinWords ((words headedSheet).take 500) <+: f := by
    decide +kernel
  exact hnone f hf hprefix

end Eidetic.Memory
