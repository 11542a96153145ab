import Eidetic.Memory.Conflicts
import Eidetic.Memory.Salience

/-!
# The expiry of a conflict

The first chat turn after the expiry of a conflict marks it as resolved with
`keep_a`. It leaves the sheet alone, where a resolution through the endpoint
rewrites it, so the fact that was to go is back in the context from then on.
And the conflicts that a compaction finds have no expiry at all: they suppress
both of their facts until the user resolves them (`expiresAsResolved_iff`).

What should happen is stated by the other path: `resolveDue` is what the
endpoint does with `keep_a` to each conflict that is due, and `TurnResolves`
compares a turn with it, in the conflicts, the sheet and the facts of the
context. The context is followed from the sheet through the suppression, the
ranking and the user state (`mem_contextFacts`), and the sheet that the
resolutions leave is its lines without the facts that go (`resolved_content`).

So a turn is right exactly when these have nothing to do (`turnResolves_iff`).
In a run an expiry is lost only where a compaction stores a conflict
(`hasExpiries_next`), and the condition of the theorem is asked of every step.
-/

namespace Eidetic.Memory

open Eidetic.Lib Eidetic.Py

/-- The sheet of a user and its conflicts. -/
structure Desk where
  row : Option MemoryRow := none
  conflicts : List MemoryConflict := []

/-- What a chat turn reads besides: the clock, the decay of the ranking, the
saliences of the facts and the rest of the context. -/
structure ChatTurn where
  now : Nat
  timeDecay : Option Rat
  saliences : Context.Saliences
  context : Context.ContextInput

/-- What happens at a desk. -/
inductive DeskEvent
  /-- Any writer of the sheet. -/
  | write (row : Option MemoryRow)
  | scanConflicts (verdict : Nat → Text × Text → Bool) (now : Nat)
  | compactMemory (answer : Text → Option Text) (verdict : Nat → Text × Text → Bool)
  | resolve (index : Nat) (req : ResolveRequest)
  | chat (turn : ChatTurn)

/-- The conflicts of some pairs, still to resolve. -/
def stored (pairs : List (Text × Text)) (expiresAt : Option Nat) : List MemoryConflict :=
  pairs.map fun pair => { factA := pair.1, factB := pair.2, expiresAt := expiresAt }

/-- `timedelta(days=7)`, in microseconds. -/
def sevenDays : Nat := 7 * 24 * 60 * 60 * 1000000

/-- `scan_conflicts`. -/
def Desk.scan (s : Desk) (verdict : Nat → Text × Text → Bool) (now : Nat) : Desk :=
  match s.row with
  | some row =>
    if row.content.isEmpty then s
    else
      { s with
        conflicts := s.conflicts ++ stored (detectConflicts verdict row.content) (some (now + sevenDays)) }
  | none => s

/-- `_compact_memory`; a sheet that it clears has no facts to conflict. -/
def Desk.compact (s : Desk) (answer : Text → Option Text) (verdict : Nat → Text × Text → Bool) :
    Desk :=
  match Memory.compactMemory answer s.row with
  | some new =>
    { row := some new, conflicts := s.conflicts ++ stored (detectConflicts verdict new.content) none }
  | none => s

/-- `resolve_conflict_endpoint`; an index is an id, and one that is not there a 404. -/
def Desk.resolve (s : Desk) (index : Nat) (req : ResolveRequest) : Desk :=
  match s.conflicts[index]?, parseStrategy req.strategy with
  | some c, some strategy =>
    { row := resolveConflict strategy c.factA c.factB s.row
      conflicts := s.conflicts.set index (c.resolve strategy req.now) }
  | _, _ => s

/-- The conflict is still unresolved, and its expiry has passed. -/
def isDue (now : Nat) (c : MemoryConflict) : Bool :=
  c.resolution.isNone && match c.expiresAt with
    | some expiresAt => expiresAt ≤ now
    | none => false

/-- The conflict is unresolved and not due. -/
def isActive (now : Nat) (c : MemoryConflict) : Bool := c.resolution.isNone && !isDue now c

/-- `memory_sheet` of a turn: the facts it loads. -/
def Desk.memorySheet (s : Desk) (turn : ChatTurn) : Text :=
  match s.row with
  | some row => joinLines (loadedFacts turn.timeDecay row.content turn.saliences)
  | none => []

/-- `_build_stream_context`: what is due is marked, where there is a sheet. -/
def Desk.chat (s : Desk) (turn : ChatTurn) : Desk :=
  { row := s.row.map fun row => { row with salience := computeSalience row.salience 1 }
    conflicts :=
      if (s.memorySheet turn).isEmpty then s.conflicts
      else s.conflicts.map fun c => if isDue turn.now c then c.resolve .keepA turn.now else c }

/-- The facts that the turn suppresses. -/
def Desk.conflictedFacts (s : Desk) (turn : ChatTurn) : List Text :=
  if (s.memorySheet turn).isEmpty then []
  else (s.conflicts.filter (isActive turn.now)).flatMap fun c => [c.factA, c.factB]

/-- What the turn builds the context of the model from. -/
def Desk.contextInput (s : Desk) (turn : ChatTurn) : Context.ContextInput :=
  { turn.context with memorySheet := s.memorySheet turn, conflictedFacts := s.conflictedFacts turn }

def Desk.next (s : Desk) : DeskEvent → Desk
  | .write row => { s with row := row }
  | .scanConflicts verdict now => s.scan verdict now
  | .compactMemory answer verdict => s.compact answer verdict
  | .resolve index req => s.resolve index req
  | .chat turn => s.chat turn

/-! ## What the expiry is to do -/

/-- Every conflict that is due is resolved with `keep_a`, as the user would. -/
def Desk.resolveDue (s : Desk) (now : Nat) : Desk :=
  { row := (s.conflicts.filter (isDue now)).foldl
      (fun row c => resolveConflict .keepA c.factA c.factB row) s.row
    conflicts := s.conflicts.map fun c => if isDue now c then c.resolve .keepA now else c }

/-- The facts in the user state of the model's context. -/
def Desk.contextFacts (s : Desk) (turn : ChatTurn) : List Text :=
  (Context.userState (s.contextInput turn)).flatMap Context.shownFacts

/-- A turn leaves the sheet and the conflicts as the user's resolution would, and
its context has the fact that is kept and not the other. -/
structure TurnResolves (s : Desk) (turn : ChatTurn) : Prop where
  conflicts : (s.chat turn).conflicts = (s.resolveDue turn.now).conflicts
  sheet : (s.chat turn).row.map (·.content) = (s.resolveDue turn.now).row.map (·.content)
  context : ∀ c ∈ s.conflicts, isDue turn.now c →
    c.factA ∈ s.contextFacts turn ∧ c.factB ∉ s.contextFacts turn

/-- Every stored conflict has an expiry. -/
def HasExpiries (s : Desk) : Prop := ∀ c ∈ s.conflicts, c.expiresAt.isSome

/-- What an event is to do with the conflicts. -/
def ExpiresAsResolved (s : Desk) (event : DeskEvent) : Prop :=
  HasExpiries (s.next event) ∧
    match event with
    | .chat turn => TurnResolves s turn
    | _ => True

/-- A compaction finds no conflict; and a turn that finds a conflict due finds a
sheet without the fact that is to go and without blank lines, loads the fact
that is kept, and finds no other conflict about it. -/
def Harmless (s : Desk) : DeskEvent → Prop
  | .compactMemory answer verdict =>
    ∀ new, Memory.compactMemory answer s.row = some new → detectConflicts verdict new.content = []
  | .chat turn =>
    ∀ c ∈ s.conflicts, isDue turn.now c →
      ∃ row, s.row = some row ∧
        (∀ l ∈ splitLines row.content, strip l ≠ [] ∧ strip l ≠ c.factB) ∧
        (∃ l ∈ loadedFacts turn.timeDecay row.content turn.saliences, strip l = c.factA) ∧
        ∀ d ∈ s.conflicts, isActive turn.now d → c.factA ≠ d.factA ∧ c.factA ≠ d.factB
  | _ => True

/-! ## The context of a turn -/

theorem factsOf_joinLines {lines : List Text} (h : ∀ l ∈ lines, '\n' ∉ l) :
    Context.factsOf (joinLines lines) = (lines.map strip).filter fun f => !f.isEmpty := by
  by_cases hnil : lines = []
  · rw [hnil]
    rfl
  · unfold Context.factsOf
    rw [splitLines_joinLines h hnil]

/-- The facts that are left are those of the sheet that are in no conflict. -/
theorem mem_filteredSheet {a : Context.ContextInput} {f : Text} :
    f ∈ Context.factsOf (Context.filteredSheet a) ↔
      f ∈ Context.factsOf a.memorySheet ∧ f ∉ a.conflictedFacts := by
  unfold Context.filteredSheet
  split
  next hnone => simp [List.isEmpty_iff.mp hnone]
  next =>
    rw [factsOf_joinLines fun l hl => not_mem_of_mem_splitLines (List.mem_of_mem_filter hl),
      Context.factsOf]
    simp only [List.mem_filter, List.mem_map]
    constructor
    · rintro ⟨⟨l, ⟨hl, hfree⟩, rfl⟩, hblank⟩
      exact ⟨⟨⟨l, hl, rfl⟩, hblank⟩, by simpa using hfree⟩
    · rintro ⟨⟨⟨l, hl, rfl⟩, hblank⟩, hfree⟩
      exact ⟨⟨l, ⟨hl, by simpa using hfree⟩, rfl⟩, hblank⟩

/-- The user state shows the facts of the sheet that is left. -/
theorem flatMap_shownFacts (a : Context.ContextInput) :
    (Context.userState a).flatMap Context.shownFacts = Context.factsOf (Context.filteredSheet a) := by
  unfold Context.userState
  split
  next hnone =>
    rw [Bool.or_eq_true, List.isEmpty_iff, List.isEmpty_iff] at hnone
    rcases hnone with hsheet | hblank
    · symm
      show _ = []
      rw [List.eq_nil_iff_forall_not_mem]
      intro f hf
      have hmem := (mem_filteredSheet.mp hf).1
      rw [hsheet] at hmem
      exact absurd hmem List.not_mem_nil
    · rw [Context.factsOf_eq_nil.mpr hblank]
      rfl
  next => rw [List.flatMap_singleton, Context.shownFacts_userState]

/-- A turn loads lines that are not blank. -/
theorem loadedFacts_lines {timeDecay : Option Rat} {content : Text} {saliences : Context.Saliences} :
    ∀ l ∈ loadedFacts timeDecay content saliences, '\n' ∉ l ∧ strip l ≠ [] :=
  fun _ hl => factLines_line (mem_loadedFacts hl)

theorem mem_contextFacts {s : Desk} {turn : ChatTurn} {f : Text} :
    f ∈ s.contextFacts turn ↔
      (∃ row, s.row = some row ∧
        ∃ l ∈ loadedFacts turn.timeDecay row.content turn.saliences, strip l = f) ∧
      f ∉ s.conflictedFacts turn := by
  unfold Desk.contextFacts
  rw [flatMap_shownFacts, mem_filteredSheet]
  refine and_congr_left fun _ => ?_
  show f ∈ Context.factsOf (s.memorySheet turn) ↔ _
  unfold Desk.memorySheet
  cases s.row with
  | none => simp [show Context.factsOf [] = [] from rfl]
  | some row =>
    dsimp only
    rw [factsOf_eq_map, factLines_joinLines loadedFacts_lines, List.mem_map]
    simp

/-! ## The sheet that the user would have -/

theorem factLines_keepA (factA factB content : Text) :
    factLines (joinLines (resolvedLines .keepA factA factB (factLines content))) =
      (factLines content).filter fun l => strip l ≠ factB :=
  factLines_joinLines fun _ hl => factLines_line (List.mem_of_mem_filter hl)

/-- After one resolution or more the sheet is its lines without the facts that go. -/
theorem resolved_content (due : List MemoryConflict) (row : MemoryRow) (c : MemoryConflict) :
    ∃ new, (c :: due).foldl (fun row c => resolveConflict .keepA c.factA c.factB row) (some row) =
        some new ∧
      new.content = joinLines ((factLines row.content).filter fun l =>
        strip l ∉ (c :: due).map (·.factB)) := by
  induction due generalizing row c with
  | nil =>
    refine ⟨_, rfl, ?_⟩
    show joinLines ((factLines row.content).filter _) = _
    congr 1
    refine List.filter_congr fun l _ => ?_
    simp
  | cons d due ih =>
    obtain ⟨new, hnew, hcontent⟩ := ih
      { row with
        content := joinLines (resolvedLines .keepA c.factA c.factB (factLines row.content))
        version := row.version + 1 } d
    refine ⟨new, hnew, ?_⟩
    rw [hcontent, factLines_keepA, List.filter_filter]
    congr 1
    refine List.filter_congr fun l _ => ?_
    by_cases hl : strip l = c.factB
    · simp [hl]
    · simp [hl]

/-- The resolutions leave a sheet with a fact as it is when no line is blank or goes. -/
theorem joinLines_filter_eq {content : Text} {gone : List Text} (hfact : factLines content ≠ []) :
    content = joinLines ((factLines content).filter fun l => strip l ∉ gone) ↔
      ∀ l ∈ splitLines content, strip l ≠ [] ∧ strip l ∉ gone := by
  have hfilter : (factLines content).filter (fun l => strip l ∉ gone) =
      (splitLines content).filter fun l => strip l ≠ [] ∧ strip l ∉ gone := by
    unfold factLines
    rw [List.filter_filter]
    refine List.filter_congr fun l _ => ?_
    by_cases hl : strip l = []
    · simp [hl]
    · simp [hl]
  rw [hfilter]
  constructor
  · intro heq
    -- were every line to go the sheet would be empty, and it has a fact
    by_cases hnil : (splitLines content).filter (fun l => strip l ≠ [] ∧ strip l ∉ gone) = []
    · rw [hnil] at heq
      exact absurd (by rw [heq]; rfl) hfact
    · have hsplit := splitLines_joinLines
        (fun l hl => not_mem_of_mem_splitLines (List.mem_of_mem_filter hl)) hnil
      rw [← heq] at hsplit
      intro l hl
      rw [hsplit] at hl
      simpa using (List.mem_filter.mp hl).2
  · intro h
    rw [List.filter_eq_self.mpr fun l hl => by simpa using h l hl, joinLines_splitLines]

/-! ## A turn -/

theorem memorySheet_ne_nil {s : Desk} {turn : ChatTurn} {row : MemoryRow} (hrow : s.row = some row)
    {l : Text} (hl : l ∈ loadedFacts turn.timeDecay row.content turn.saliences) :
    (s.memorySheet turn).isEmpty = false := by
  unfold Desk.memorySheet
  rw [hrow]
  dsimp only
  by_contra hempty
  rw [Bool.not_eq_false, List.isEmpty_iff] at hempty
  have hlines : factLines (joinLines (loadedFacts turn.timeDecay row.content turn.saliences)) = _ :=
    factLines_joinLines loadedFacts_lines
  rw [hempty] at hlines
  rw [← hlines] at hl
  exact absurd hl List.not_mem_nil

/-- A turn where nothing is due leaves what there is. -/
theorem turnResolves_of_none {s : Desk} {turn : ChatTurn}
    (h : ∀ c ∈ s.conflicts, isDue turn.now c = false) : TurnResolves s turn := by
  have hsame : (s.conflicts.map fun c => if isDue turn.now c then c.resolve .keepA turn.now else c) =
      s.conflicts := by
    conv_rhs => rw [← List.map_id s.conflicts]
    refine List.map_congr_left fun c hc => ?_
    rw [if_neg (by simp [h c hc])]
    rfl
  have hnone : s.conflicts.filter (isDue turn.now) = [] :=
    List.filter_eq_nil_iff.mpr fun c hc => by simp [h c hc]
  refine ⟨?_, ?_, ?_⟩
  · unfold Desk.chat Desk.resolveDue
    dsimp only
    rw [hsame, ite_self]
  · unfold Desk.chat Desk.resolveDue
    dsimp only
    rw [hnone, List.foldl_nil, Option.map_map]
    rfl
  · intro c hc hdue
    exact absurd hdue (by simp [h c hc])

/-- The sheet after a turn where something is due is what the resolutions leave
when no line of it is blank or goes. -/
theorem chat_sheet_iff {s : Desk} {turn : ChatTurn} {row : MemoryRow} (hrow : s.row = some row)
    (hfact : factLines row.content ≠ []) (hdue : ∃ c ∈ s.conflicts, isDue turn.now c) :
    (s.chat turn).row.map (·.content) = (s.resolveDue turn.now).row.map (·.content) ↔
      ∀ l ∈ splitLines row.content,
        strip l ≠ [] ∧ ∀ c ∈ s.conflicts, isDue turn.now c → strip l ≠ c.factB := by
  obtain ⟨c, hc, hcdue⟩ := hdue
  cases hfilter : s.conflicts.filter (isDue turn.now) with
  | nil =>
    have hmem := List.mem_filter.mpr ⟨hc, hcdue⟩
    rw [hfilter] at hmem
    exact absurd hmem List.not_mem_nil
  | cons d due =>
    obtain ⟨new, hnew, hcontent⟩ := resolved_content due row d
    unfold Desk.chat Desk.resolveDue
    dsimp only
    rw [hfilter, hrow, hnew]
    simp only [Option.map_some, Option.some.injEq]
    rw [hcontent, joinLines_filter_eq hfact]
    refine forall₂_congr fun l _ => and_congr_right fun _ => ?_
    rw [← hfilter, List.mem_map]
    constructor
    · intro h b hb hbdue heq
      exact h ⟨b, List.mem_filter.mpr ⟨hb, hbdue⟩, heq.symm⟩
    · rintro h ⟨b, hb, heq⟩
      exact h b (List.mem_of_mem_filter hb) (List.mem_filter.mp hb).2 heq.symm

theorem not_mem_conflictedFacts {s : Desk} {turn : ChatTurn} {f : Text}
    (hsheet : (s.memorySheet turn).isEmpty = false) :
    f ∉ s.conflictedFacts turn ↔
      ∀ d ∈ s.conflicts, isActive turn.now d → f ≠ d.factA ∧ f ≠ d.factB := by
  unfold Desk.conflictedFacts
  rw [if_neg (by simp [hsheet]), List.mem_flatMap]
  constructor
  · intro h d hd hactive
    have hno : f ∉ [d.factA, d.factB] := fun hf => h ⟨d, List.mem_filter.mpr ⟨hd, hactive⟩, hf⟩
    simpa using hno
  · rintro h ⟨d, hd, hf⟩
    obtain ⟨hd, hactive⟩ := List.mem_filter.mp hd
    have := h d hd hactive
    simp [this] at hf

/-- A turn does what the user's resolutions would exactly when these have nothing
to do on the sheet. -/
theorem turnResolves_iff (s : Desk) (turn : ChatTurn) :
    TurnResolves s turn ↔ Harmless s (.chat turn) := by
  constructor
  · intro h c hc hdue
    obtain ⟨hkept, _⟩ := h.context c hc hdue
    obtain ⟨⟨row, hrow, l, hl, hstrip⟩, hfree⟩ := mem_contextFacts.mp hkept
    have hfact := List.ne_nil_of_mem (mem_loadedFacts hl)
    have hlines := (chat_sheet_iff hrow hfact ⟨c, hc, hdue⟩).mp h.sheet
    refine ⟨row, hrow, fun x hx => ?_, ⟨l, hl, hstrip⟩, ?_⟩
    · exact ⟨(hlines x hx).1, (hlines x hx).2 c hc hdue⟩
    · exact (not_mem_conflictedFacts (memorySheet_ne_nil hrow hl)).mp hfree
  · intro h
    by_cases hsome : ∃ c ∈ s.conflicts, isDue turn.now c
    · obtain ⟨c, hc, hdue⟩ := hsome
      obtain ⟨row, hrow, hlines, ⟨l, hl, _⟩, _⟩ := h c hc hdue
      have hsheet := memorySheet_ne_nil hrow hl
      have hfact := List.ne_nil_of_mem (mem_loadedFacts hl)
      -- all that is due is about the same sheet
      have hall : ∀ d ∈ s.conflicts, isDue turn.now d →
          ∀ x ∈ splitLines row.content, strip x ≠ d.factB := by
        intro d hd hddue x hx
        obtain ⟨row', hrow', hlines', _⟩ := h d hd hddue
        obtain rfl := Option.some.inj (hrow.symm.trans hrow')
        exact (hlines' x hx).2
      refine ⟨?_, ?_, ?_⟩
      · unfold Desk.chat Desk.resolveDue
        dsimp only
        rw [if_neg (by simp [hsheet])]
      · refine (chat_sheet_iff hrow hfact ⟨c, hc, hdue⟩).mpr fun x hx => ?_
        exact ⟨(hlines x hx).1, fun d hd hddue => hall d hd hddue x hx⟩
      · intro d hd hddue
        obtain ⟨row', hrow', _, hloaded, hfree⟩ := h d hd hddue
        refine ⟨mem_contextFacts.mpr ⟨⟨row', hrow', hloaded⟩, ?_⟩, fun hmem => ?_⟩
        · exact (not_mem_conflictedFacts hsheet).mpr hfree
        · obtain ⟨⟨row'', hrow'', x, hx, hstrip⟩, _⟩ := mem_contextFacts.mp hmem
          obtain rfl := Option.some.inj (hrow.symm.trans hrow'')
          have hline := List.mem_of_mem_filter (mem_loadedFacts hx)
          exact hall d hd hddue x hline hstrip
    · refine turnResolves_of_none fun c hc => ?_
      by_contra hdue
      exact hsome ⟨c, hc, by simpa using hdue⟩

/-! ## Runs -/

theorem hasExpiries_append {s : Desk} (h : HasExpiries s) (row : Option MemoryRow)
    (pairs : List (Text × Text)) (expiresAt : Option Nat) :
    HasExpiries { row := row, conflicts := s.conflicts ++ stored pairs expiresAt } ↔
      pairs = [] ∨ expiresAt.isSome := by
  constructor
  · intro hall
    cases pairs with
    | nil => exact Or.inl rfl
    | cons pair rest =>
      refine Or.inr (hall { factA := pair.1, factB := pair.2, expiresAt := expiresAt } ?_)
      exact List.mem_append_right _ (List.mem_cons_self ..)
  · intro hsome c hc
    rcases List.mem_append.mp hc with hold | hnew
    · exact h c hold
    · obtain ⟨pair, hpair, rfl⟩ := List.mem_map.mp hnew
      rcases hsome with rfl | hsome
      · exact absurd hpair List.not_mem_nil
      · exact hsome

/-- Only a compaction stores a conflict without an expiry. -/
theorem hasExpiries_next {s : Desk} (h : HasExpiries s) (event : DeskEvent) :
    HasExpiries (s.next event) ↔
      match event with
      | .compactMemory answer verdict =>
        ∀ new, Memory.compactMemory answer s.row = some new →
          detectConflicts verdict new.content = []
      | _ => True := by
  cases event with
  | write row => exact iff_true_intro h
  | scanConflicts verdict now =>
    refine iff_true_intro ?_
    show HasExpiries (s.scan verdict now)
    unfold Desk.scan
    split
    next row _ =>
      split
      next => exact h
      next => exact (hasExpiries_append h _ _ _).mpr (Or.inr rfl)
    next => exact h
  | compactMemory answer verdict =>
    show HasExpiries (s.compact answer verdict) ↔ _
    unfold Desk.compact
    split
    next new hnew =>
      rw [hasExpiries_append h]
      simp [hnew]
    next hnone => simp [h, hnone]
  | resolve index req =>
    refine iff_true_intro ?_
    show HasExpiries (s.resolve index req)
    unfold Desk.resolve
    split
    next c strategy hc _ =>
      intro d hd
      rcases List.mem_or_eq_of_mem_set hd with hd | rfl
      · exact h d hd
      · exact h c (List.mem_of_getElem? hc)
    next => exact h
  | chat turn =>
    -- a chat turn only marks conflicts, and keeps their expiry
    refine iff_true_intro fun d hd => ?_
    have hd : d ∈ (s.chat turn).conflicts := hd
    unfold Desk.chat at hd
    dsimp only at hd
    split at hd
    next => exact h d hd
    next =>
      obtain ⟨c, hc, rfl⟩ := List.mem_map.mp hd
      split
      next => exact h c hc
      next => exact h c hc

theorem expiresAsResolved_step {s : Desk} (h : HasExpiries s) (event : DeskEvent) :
    ExpiresAsResolved s event ↔ Harmless s event := by
  unfold ExpiresAsResolved
  rw [hasExpiries_next h]
  cases event with
  | chat turn => exact (iff_of_eq (true_and _)).trans (turnResolves_iff s turn)
  | compactMemory answer verdict => exact iff_of_eq (and_true _)
  | write row => exact iff_of_eq (and_true _)
  | scanConflicts verdict now => exact iff_of_eq (and_true _)
  | resolve index req => exact iff_of_eq (and_true _)

/-- In a run all conflicts expire as the user would resolve them, and every stored
one has an expiry, exactly when each step is harmless. -/
theorem expiresAsResolved_iff (events : List DeskEvent) :
    Throughout Desk.next ExpiresAsResolved {} events ↔ Throughout Desk.next Harmless {} events :=
  throughout_congr_of_keeps HasExpiries (fun _ _ _ h => h.1)
    (fun _ event h => expiresAsResolved_step h event) (fun _ hc => absurd hc List.not_mem_nil) events

/-- A sheet of two facts is scanned, and the next turn comes a week later. -/
def forgottenWeek : List DeskEvent :=
  [.write (some { content := "a\nb".toList, version := 1 }), .scanConflicts (fun _ _ => true) 0,
    .chat
      { now := sevenDays, timeDecay := none, saliences := []
        context :=
          { memorySheet := [], projectSummary := [], retrievedChunks := [], historySummary := []
            history := [] } }]

theorem forgottenWeek_kept :
    ¬ ∀ events : List DeskEvent, Throughout Desk.next ExpiresAsResolved {} events := by
  intro h
  obtain ⟨_, _, ⟨_, hturn⟩, _⟩ := h forgottenWeek
  have hdue := (turnResolves_iff _ _).mp hturn
    { factA := "a".toList, factB := "b".toList, expiresAt := some sevenDays } (by decide) (by decide)
  obtain ⟨row, hrow, hlines, _⟩ := hdue
  obtain rfl := Option.some.inj hrow
  exact (hlines "b".toList (by decide)).2 (by decide)

end Eidetic.Memory
