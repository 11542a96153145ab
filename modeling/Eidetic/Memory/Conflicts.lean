import Eidetic.Context.UserState
import Eidetic.Lib.Run
import Eidetic.Memory.Writers
import Eidetic.Py.Spacing

/-!
# Resolving a conflict

A conflict is a pair of facts of a sheet. A resolution rewrites the lines of the
sheet as it is by then, and the endpoint does not look whether the conflict has
been resolved before: `keep_a` and then `keep_b` leave neither fact
(`resolvesAsSaid_iff`, `keptBoth_lost`).

What a strategy says is stated of the sheets: the facts that stay, those that
are gone, and that the other lines are the same (`Keeps`, `Merges`, `Discards`).
The code edits lines, so `resolvedLines_lines` describes the lines that it
leaves, and since a sheet of lines that are not blank has just these as its
facts (`factLines_joinLines`), when one resolution obeys is a statement about
the facts alone (`obeys_iff`).

A sequence is `Throughout` of the library: `Allowed` is what each request has to
be, and the induction carries `StillTold`, that both facts are there until the
conflict is resolved and one of them, or the merged line, from then on. What
`detect_conflicts` has found are two different facts of a sheet, as pairs are
only made of these (`mem_detectConflicts`).
-/

namespace Eidetic.Memory

open Eidetic.Lib Eidetic.Py

/-! ## Detection -/

/-- `itertools.combinations(xs, 2)`. -/
def combinations {α : Type} : List α → List (α × α)
  | [] => []
  | x :: rest => rest.map (fun y => (x, y)) ++ combinations rest

/-- `detect_conflicts`; `verdict` says of each call whether it ended with a
`conflict_type` other than `none`. -/
def detectConflicts (verdict : Nat → Text × Text → Bool) (content : Text) : List (Text × Text) :=
  let facts := Context.factsOf content
  if facts.length < 2 then []
  else
    ((combinations facts).zipIdx.filter fun pair => verdict pair.2 pair.1).map fun pair => pair.1

/-- A row of `memory_conflicts`; `none` is the resolution `unresolved`. -/
structure MemoryConflict where
  factA : Text
  factB : Text
  resolution : Option Strategy := none
  resolvedAt : Option Nat := none
  expiresAt : Option Nat := none
deriving DecidableEq

/-- The facts are a pair that `detect_conflicts` has found on some sheet. -/
def Detected (c : MemoryConflict) : Prop :=
  ∃ verdict content, (c.factA, c.factB) ∈ detectConflicts verdict content

/-! ## The endpoint -/

/-- The strategies that the endpoint takes. -/
def parseStrategy (strategy : Text) : Option Strategy :=
  if strategy = "keep_a".toList then some .keepA
  else if strategy = "keep_b".toList then some .keepB
  else if strategy = "merge".toList then some .merge
  else if strategy = "discard_both".toList then some .discardBoth
  else none

/-- A conflict and the sheet of its user. -/
structure Case where
  row : Option MemoryRow
  conflict : MemoryConflict
  detected : Detected conflict

structure ResolveRequest where
  strategy : Text
  now : Nat

/-- The conflict of a case with a resolution; `resolve_conflict` sets it before it
looks for the sheet. -/
def MemoryConflict.resolve (c : MemoryConflict) (strategy : Strategy) (now : Nat) : MemoryConflict :=
  { c with resolution := some strategy, resolvedAt := some now }

/-- `resolve_conflict_endpoint`: a strategy it does not know is refused. -/
def Case.next (s : Case) (req : ResolveRequest) : Case :=
  match parseStrategy req.strategy with
  | none => s
  | some strategy =>
    { row := resolveConflict strategy s.conflict.factA s.conflict.factB s.row
      conflict := s.conflict.resolve strategy req.now
      detected := s.detected }

/-! ## What a strategy says -/

/-- The line that `merge` adds. -/
def mergedFact (factA factB : Text) : Text := factA ++ " / ".toList ++ factB

/-- The lines of a sheet that are none of some facts. -/
def others (facts : List Text) (content : Text) : List Text :=
  (factLines content).filter fun l => strip l ∉ facts

/-- One fact is kept and the other is gone. -/
structure Keeps (kept dropped : Text) (old new : Text) : Prop where
  stays : kept ∈ Context.factsOf old → kept ∈ Context.factsOf new
  gone : dropped ∉ Context.factsOf new
  rest : others [kept, dropped] new = others [kept, dropped] old

/-- One merged line stands for both facts. -/
structure Merges (factA factB : Text) (old new : Text) : Prop where
  once : (Context.factsOf new).count (mergedFact factA factB) = 1
  goneA : factA ∉ Context.factsOf new
  goneB : factB ∉ Context.factsOf new
  rest : others [factA, factB, mergedFact factA factB] new =
    others [factA, factB, mergedFact factA factB] old

/-- Both facts are gone. -/
structure Discards (factA factB : Text) (old new : Text) : Prop where
  goneA : factA ∉ Context.factsOf new
  goneB : factB ∉ Context.factsOf new
  rest : others [factA, factB] new = others [factA, factB] old

/-- The sheet after a resolution is what the strategy says. -/
def Obeys (strategy : Strategy) (factA factB : Text) (old new : Text) : Prop :=
  match strategy with
  | .keepA => Keeps factA factB old new
  | .keepB => Keeps factB factA old new
  | .merge => Merges factA factB old new
  | .discardBoth => Discards factA factB old new

/-- A request does what its strategy says, and nothing to a conflict that is
resolved. -/
def Lawful (s : Case) (req : ResolveRequest) : Prop :=
  match parseStrategy req.strategy with
  | none => s.next req = s
  | some strategy =>
    if s.conflict.resolution.isSome then s.next req = s
    else
      (s.next req).conflict.resolution = some strategy ∧
        ∀ row, s.row = some row →
          ∃ new, (s.next req).row = some new ∧
            Obeys strategy s.conflict.factA s.conflict.factB row.content new.content

/-- Some line of the sheet still tells one of the facts. -/
def Survives (s : Case) : Prop :=
  ∃ row, s.row = some row ∧ ∃ f ∈ Context.factsOf row.content,
    f = s.conflict.factA ∨ f = s.conflict.factB ∨ f = mergedFact s.conflict.factA s.conflict.factB

/-- Both facts are on the sheet. -/
def BothThere (s : Case) : Prop :=
  ∃ row, s.row = some row ∧ s.conflict.factA ∈ Context.factsOf row.content ∧
    s.conflict.factB ∈ Context.factsOf row.content

/-- Every request of a sequence does what its strategy says, and without
`discard_both` the sequence does not lose both facts. -/
structure ResolvesAsSaid (s : Case) (reqs : List ResolveRequest) : Prop where
  lawful : Throughout Case.next Lawful s reqs
  survives : BothThere s → (∀ req ∈ reqs, parseStrategy req.strategy ≠ some .discardBoth) →
    Survives (run Case.next s reqs)

/-- A request that is refused, or the first on a conflict of two facts that differ
and a sheet without the merged line; or one that finds no sheet. -/
def Allowed (s : Case) (req : ResolveRequest) : Prop :=
  ∀ strategy, parseStrategy req.strategy = some strategy →
    if s.conflict.resolution.isSome then
      s.row = none ∧ s.conflict.resolution = some strategy ∧ s.conflict.resolvedAt = some req.now
    else
      ∀ row, s.row = some row →
        match strategy with
        | .keepA | .keepB =>
          s.conflict.factA ≠ s.conflict.factB ∨ s.conflict.factA ∉ Context.factsOf row.content
        | .merge =>
          mergedFact s.conflict.factA s.conflict.factB ∉ Context.factsOf row.content
        | .discardBoth => True

/-! ## Facts and lines -/

/-- A stripped line. -/
structure IsFact (f : Text) : Prop where
  ne_nil : f ≠ []
  stripped : strip f = f
  line : '\n' ∉ f

theorem factsOf_eq_map (content : Text) : Context.factsOf content = (factLines content).map strip := by
  unfold Context.factsOf factLines
  rw [List.filter_map]
  rfl

theorem mem_factsOf {content f : Text} :
    f ∈ Context.factsOf content ↔ ∃ l ∈ factLines content, strip l = f := by
  rw [factsOf_eq_map, List.mem_map]

theorem factLines_line {content l : Text} (h : l ∈ factLines content) : '\n' ∉ l ∧ strip l ≠ [] := by
  obtain ⟨hl, hblank⟩ := List.mem_filter.mp h
  exact ⟨not_mem_of_mem_splitLines hl, by simpa using hblank⟩

theorem isFact_of_mem {content f : Text} (h : f ∈ Context.factsOf content) : IsFact f := by
  obtain ⟨l, hl, rfl⟩ := mem_factsOf.mp h
  obtain ⟨hline, hblank⟩ := factLines_line hl
  exact ⟨hblank, strip_strip l, fun hmem => hline (strip_subset hmem)⟩

/-- A sheet of lines that are not blank has just these. -/
theorem factLines_joinLines {lines : List Text} (h : ∀ l ∈ lines, '\n' ∉ l ∧ strip l ≠ []) :
    factLines (joinLines lines) = lines := by
  by_cases hnil : lines = []
  · rw [hnil]
    rfl
  · unfold factLines
    rw [splitLines_joinLines (fun l hl => (h l hl).1) hnil, List.filter_eq_self]
    intro l hl
    simpa using (h l hl).2

theorem mem_combinations {α : Type} {xs : List α} {x y : α} (h : (x, y) ∈ combinations xs) :
    x ∈ xs ∧ y ∈ xs := by
  induction xs with
  | nil => exact absurd h (by simp [combinations])
  | cons z rest ih =>
    rcases List.mem_append.mp h with hfirst | hrest
    · obtain ⟨w, hw, heq⟩ := List.mem_map.mp hfirst
      obtain ⟨rfl, rfl⟩ := Prod.mk.inj heq
      exact ⟨List.mem_cons_self .., List.mem_cons_of_mem _ hw⟩
    · exact ⟨List.mem_cons_of_mem _ (ih hrest).1, List.mem_cons_of_mem _ (ih hrest).2⟩

/-- What is detected on a sheet are facts of it. -/
theorem mem_detectConflicts {verdict : Nat → Text × Text → Bool} {content a b : Text}
    (h : (a, b) ∈ detectConflicts verdict content) :
    a ∈ Context.factsOf content ∧ b ∈ Context.factsOf content := by
  unfold detectConflicts at h
  dsimp only at h
  split at h
  next => exact absurd h (by simp)
  next =>
    obtain ⟨pair, hpair, heq⟩ := List.mem_map.mp h
    have hmem := List.mem_of_mem_filter hpair
    have hfst : pair.1 ∈ combinations (Context.factsOf content) := by
      have := List.mem_map_of_mem (f := Prod.fst) hmem
      rwa [List.zipIdx_map_fst] at this
    rw [heq] at hfst
    exact mem_combinations hfst

theorem Detected.facts {c : MemoryConflict} (h : Detected c) : IsFact c.factA ∧ IsFact c.factB := by
  obtain ⟨verdict, content, hmem⟩ := h
  obtain ⟨ha, hb⟩ := mem_detectConflicts hmem
  exact ⟨isFact_of_mem ha, isFact_of_mem hb⟩

theorem isFact_mergedFact {a b : Text} (ha : IsFact a) (hb : IsFact b) : IsFact (mergedFact a b) := by
  have htrimmed : Trimmed (mergedFact a b) := by
    have hta : Trimmed a := ha.stripped ▸ trimmed_strip a
    have htb : Trimmed b := hb.stripped ▸ trimmed_strip b
    refine ⟨?_, ?_⟩
    · intro c hc
      unfold mergedFact at hc
      rw [List.append_assoc, List.head?_append_of_ne_nil _ ha.ne_nil] at hc
      exact hta.head c hc
    · intro c hc
      unfold mergedFact at hc
      rw [List.getLast?_append_of_ne_nil _ hb.ne_nil] at hc
      exact htb.last c hc
  refine ⟨?_, strip_trimmed htrimmed, ?_⟩
  · exact List.append_ne_nil_of_right_ne_nil _ hb.ne_nil
  · intro hmem
    rcases List.mem_append.mp hmem with hmem | hmem
    · rcases List.mem_append.mp hmem with hmem | hmem
      · exact ha.line hmem
      · exact absurd hmem (by decide)
    · exact hb.line hmem

theorem mergedFact_ne (a b : Text) : mergedFact a b ≠ a ∧ mergedFact a b ≠ b := by
  have hlength : (mergedFact a b).length = a.length + 3 + b.length := by
    simp [mergedFact]
    omega
  refine ⟨?_, ?_⟩
  · intro heq
    have := congrArg List.length heq
    omega
  · intro heq
    have := congrArg List.length heq
    omega

/-! ## One resolution -/

/-- What a resolution leaves is lines of the sheet and the merged line. -/
theorem resolvedLines_lines {a b : Text} (ha : IsFact a) (hb : IsFact b) (strategy : Strategy)
    (content : Text) :
    ∀ l ∈ resolvedLines strategy a b (factLines content), '\n' ∉ l ∧ strip l ≠ [] := by
  intro l hl
  cases strategy with
  | keepA => exact factLines_line (List.mem_of_mem_filter hl)
  | keepB => exact factLines_line (List.mem_of_mem_filter hl)
  | discardBoth => exact factLines_line (List.mem_of_mem_filter hl)
  | merge =>
    rcases List.mem_append.mp hl with hl | hl
    · exact factLines_line (List.mem_of_mem_filter hl)
    · obtain rfl : l = mergedFact a b := List.mem_singleton.mp hl
      have hmerged := isFact_mergedFact ha hb
      exact ⟨hmerged.line, by rw [hmerged.stripped]; exact hmerged.ne_nil⟩

/-- The lines of a sheet that is resolved. -/
theorem factLines_resolved {a b : Text} (ha : IsFact a) (hb : IsFact b) (strategy : Strategy)
    (content : Text) :
    factLines (joinLines (resolvedLines strategy a b (factLines content))) =
      resolvedLines strategy a b (factLines content) :=
  factLines_joinLines (resolvedLines_lines ha hb strategy content)

/-- A sheet without the lines of one fact keeps the other unless they are the same. -/
theorem keeps_iff {kept dropped old new : Text}
    (hnew : factLines new = (factLines old).filter fun l => strip l ≠ dropped) :
    Keeps kept dropped old new ↔ kept ≠ dropped ∨ kept ∉ Context.factsOf old := by
  have hgone : dropped ∉ Context.factsOf new := by
    intro hmem
    obtain ⟨l, hl, hstrip⟩ := mem_factsOf.mp hmem
    rw [hnew, List.mem_filter] at hl
    simp [hstrip] at hl
  constructor
  · intro h
    by_cases hsame : kept = dropped
    · refine Or.inr fun hmem => hgone ?_
      rw [← hsame]
      exact h.stays hmem
    · exact Or.inl hsame
  · intro h
    refine ⟨?_, hgone, ?_⟩
    · intro hmem
      have hne : kept ≠ dropped := h.resolve_right fun hno => hno hmem
      obtain ⟨l, hl, rfl⟩ := mem_factsOf.mp hmem
      refine mem_factsOf.mpr ⟨l, ?_, rfl⟩
      rw [hnew, List.mem_filter]
      exact ⟨hl, by simpa using hne⟩
    · unfold others
      rw [hnew, List.filter_filter]
      refine List.filter_congr fun l _ => ?_
      by_cases hl : strip l = dropped
      · simp [hl]
      · simp [hl]

theorem discards_of_lines {a b old new : Text}
    (hnew : factLines new = (factLines old).filter fun l => strip l ≠ a ∧ strip l ≠ b) :
    Discards a b old new := by
  have hgone : ∀ f ∈ Context.factsOf new, f ≠ a ∧ f ≠ b := by
    intro f hf
    obtain ⟨l, hl, rfl⟩ := mem_factsOf.mp hf
    rw [hnew, List.mem_filter] at hl
    simpa using hl.2
  refine ⟨fun h => (hgone a h).1 rfl, fun h => (hgone b h).2 rfl, ?_⟩
  unfold others
  rw [hnew, List.filter_filter]
  refine List.filter_congr fun l _ => ?_
  by_cases ha : strip l = a
  · simp [ha]
  · simp [ha]

/-- A merge leaves one merged line when there was none. -/
theorem merges_iff {a b old new : Text} (ha : IsFact a) (hb : IsFact b)
    (hnew : factLines new =
      ((factLines old).filter fun l => strip l ≠ a ∧ strip l ≠ b) ++ [mergedFact a b]) :
    Merges a b old new ↔ mergedFact a b ∉ Context.factsOf old := by
  have hmerged : strip (mergedFact a b) = mergedFact a b := (isFact_mergedFact ha hb).stripped
  have hne := mergedFact_ne a b
  have hgone : ∀ f ∈ Context.factsOf new, f ≠ a ∧ f ≠ b := by
    intro f hf
    obtain ⟨l, hl, rfl⟩ := mem_factsOf.mp hf
    rw [hnew] at hl
    rcases List.mem_append.mp hl with hl | hl
    · simpa using (List.mem_filter.mp hl).2
    · rw [List.mem_singleton.mp hl, hmerged]
      exact hne
  -- the merged lines that were there, and one more
  have hcount : (Context.factsOf new).count (mergedFact a b) =
      (Context.factsOf old).count (mergedFact a b) + 1 := by
    rw [factsOf_eq_map, factsOf_eq_map, hnew, List.map_append, List.count_append,
      List.map_singleton, hmerged, List.count_singleton_self]
    simp only [List.count, List.countP_map, List.countP_filter]
    congr 1
    refine List.countP_congr fun l _ => ?_
    by_cases hl : strip l = mergedFact a b
    · simp [hl, hne]
    · simp [hl]
  constructor
  · intro h
    have hzero : (Context.factsOf old).count (mergedFact a b) = 0 := by
      have := h.once
      omega
    exact List.count_eq_zero.mp hzero
  · intro h
    refine ⟨?_, fun h => (hgone a h).1 rfl, fun h => (hgone b h).2 rfl, ?_⟩
    · rw [hcount, List.count_eq_zero.mpr h]
    · unfold others
      rw [hnew, List.filter_append, List.filter_filter,
        List.filter_cons_of_neg (by simp [hmerged]), List.filter_nil, List.append_nil]
      refine List.filter_congr fun l _ => ?_
      by_cases hla : strip l = a
      · simp [hla]
      · by_cases hlb : strip l = b
        · simp [hlb]
        · simp [hla, hlb]

/-- When the sheet after one resolution is what the strategy says. -/
theorem obeys_iff {a b : Text} (ha : IsFact a) (hb : IsFact b) (strategy : Strategy)
    (content : Text) :
    Obeys strategy a b content (joinLines (resolvedLines strategy a b (factLines content))) ↔
      match strategy with
      | .keepA | .keepB => a ≠ b ∨ a ∉ Context.factsOf content
      | .merge => mergedFact a b ∉ Context.factsOf content
      | .discardBoth => True := by
  have hlines := factLines_resolved ha hb strategy content
  cases strategy with
  | keepA => exact keeps_iff hlines
  | keepB =>
    refine (keeps_iff hlines).trans ?_
    dsimp only
    -- the same condition with the facts exchanged
    by_cases hsame : a = b
    · rw [hsame]
    · simp [hsame, Ne.symm hsame]
  | merge => exact merges_iff ha hb hlines
  | discardBoth => exact iff_true_intro (discards_of_lines hlines)

/-! ## Sequences of requests -/

theorem lawful_iff (s : Case) (req : ResolveRequest) : Lawful s req ↔ Allowed s req := by
  unfold Lawful Allowed Case.next
  cases hstrategy : parseStrategy req.strategy with
  | none => simp
  | some strategy =>
    dsimp only
    obtain ⟨ha, hb⟩ := s.detected.facts
    constructor
    · intro h strategy' heq
      obtain rfl := Option.some.inj heq
      split
      next hresolved =>
        rw [if_pos hresolved] at h
        refine ⟨?_, ?_, ?_⟩
        · have hrow := congrArg Case.row h
          dsimp only at hrow
          cases hs : s.row with
          | none => rfl
          | some row =>
            -- each resolution counts the version up
            rw [hs] at hrow
            have hversion := congrArg MemoryRow.version (Option.some.inj hrow)
            dsimp only at hversion
            omega
        · exact (congrArg (fun c : Case => c.conflict.resolution) h).symm
        · exact (congrArg (fun c : Case => c.conflict.resolvedAt) h).symm
      next hresolved =>
        rw [if_neg hresolved] at h
        intro row hrow
        obtain ⟨new, hnew, hobeys⟩ := h.2 row hrow
        rw [hrow] at hnew
        obtain rfl := Option.some.inj hnew
        exact (obeys_iff ha hb strategy row.content).mp hobeys
    · intro h
      have h := h strategy rfl
      split
      next hresolved =>
        rw [if_pos hresolved] at h
        obtain ⟨hrow, hresolution, hat⟩ := h
        obtain ⟨row, conflict, detected⟩ := s
        dsimp only at hrow hresolution hat
        subst hrow
        congr 1
        show conflict.resolve strategy req.now = conflict
        unfold MemoryConflict.resolve
        rw [← hresolution, ← hat]
      next hresolved =>
        rw [if_neg hresolved] at h
        refine ⟨rfl, fun row hrow => ?_⟩
        rw [hrow]
        exact ⟨_, rfl, (obeys_iff ha hb strategy row.content).mpr (h row hrow)⟩

/-- What the requests keep: both facts until the conflict is resolved, and from
then on a line that tells one of them. -/
def StillTold (s : Case) : Prop := if s.conflict.resolution.isSome then Survives s else BothThere s

theorem BothThere.survives {s : Case} (h : BothThere s) : Survives s := by
  obtain ⟨row, hrow, ha, _⟩ := h
  exact ⟨row, hrow, _, ha, Or.inl rfl⟩

theorem StillTold.survives {s : Case} (h : StillTold s) : Survives s := by
  unfold StillTold at h
  split at h
  next => exact h
  next => exact h.survives

theorem stillTold_step (s : Case) (req : ResolveRequest) (h : StillTold s)
    (hreq : Lawful s req ∧ parseStrategy req.strategy ≠ some .discardBoth) :
    StillTold (s.next req) := by
  obtain ⟨hlawful, hkeeps⟩ := hreq
  unfold Lawful at hlawful
  cases hstrategy : parseStrategy req.strategy with
  | none =>
    rw [hstrategy] at hlawful
    rw [show s.next req = s from hlawful]
    exact h
  | some strategy =>
    rw [hstrategy] at hlawful hkeeps
    dsimp only at hlawful
    by_cases hresolved : s.conflict.resolution.isSome
    · rw [if_pos hresolved] at hlawful
      rw [hlawful]
      exact h
    · rw [if_neg hresolved] at hlawful
      unfold StillTold at h ⊢
      rw [if_neg hresolved] at h
      obtain ⟨row, hrow, ha, hb⟩ := h
      obtain ⟨hresolution, hobeys⟩ := hlawful
      obtain ⟨new, hnew, hobeys⟩ := hobeys row hrow
      rw [if_pos (by rw [hresolution]; rfl)]
      have hfacts : (s.next req).conflict.factA = s.conflict.factA ∧
          (s.next req).conflict.factB = s.conflict.factB := by
        unfold Case.next
        rw [hstrategy]
        exact ⟨rfl, rfl⟩
      unfold Survives
      rw [hfacts.1, hfacts.2]
      refine ⟨new, hnew, ?_⟩
      cases strategy with
      | keepA => exact ⟨_, hobeys.stays ha, Or.inl rfl⟩
      | keepB => exact ⟨_, hobeys.stays hb, Or.inr (Or.inl rfl)⟩
      | merge =>
        have hmem : mergedFact s.conflict.factA s.conflict.factB ∈ Context.factsOf new.content :=
          List.count_pos_iff.mp (by rw [hobeys.once]; omega)
        exact ⟨_, hmem, Or.inr (Or.inr rfl)⟩
      | discardBoth => exact absurd rfl hkeeps

/-- Every request of a sequence does what its strategy says, and without
`discard_both` a fact is left, exactly when each is allowed. -/
theorem resolvesAsSaid_iff (s : Case) (reqs : List ResolveRequest) :
    ResolvesAsSaid s reqs ↔ Throughout Case.next Allowed s reqs := by
  have hsame : Throughout Case.next Lawful s reqs ↔ Throughout Case.next Allowed s reqs :=
    throughout_congr (fun _ => True) (fun _ _ _ => trivial) (fun s req _ => lawful_iff s req)
      trivial reqs
  rw [← hsame]
  constructor
  · exact fun h => h.lawful
  · intro h
    refine ⟨h, fun hboth hreqs => ?_⟩
    have hstart : StillTold s := by
      unfold StillTold
      split
      next => exact hboth.survives
      next => exact hboth
    exact (run_invariant StillTold stillTold_step hstart (throughout_and h hreqs)).survives

/-- A sheet of two facts that were found to conflict. -/
def keptBoth : Case where
  row := some { content := "a\nb".toList, version := 1 }
  conflict := { factA := "a".toList, factB := "b".toList }
  detected := ⟨fun _ _ => true, "a\nb".toList, by decide⟩

theorem keptBoth_lost : ¬ ∀ (s : Case) (reqs : List ResolveRequest), ResolvesAsSaid s reqs := by
  intro h
  have hsurvives := (h keptBoth [⟨"keep_a".toList, 0⟩, ⟨"keep_b".toList, 1⟩]).survives
  obtain ⟨row, hrow, f, hf, _⟩ := hsurvives ⟨_, rfl, by decide, by decide⟩ (by decide)
  have hempty : (run Case.next keptBoth [⟨"keep_a".toList, 0⟩, ⟨"keep_b".toList, 1⟩]).row =
      some { content := [], version := 3 } := by
    decide
  rw [hempty] at hrow
  obtain rfl := Option.some.inj hrow
  have hnone : Context.factsOf [] = [] := by decide
  rw [hnone] at hf
  exact absurd hf (List.not_mem_nil)

end Eidetic.Memory
