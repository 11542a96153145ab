import Mathlib.Data.List.Sort
import Eidetic.Filter.Written

/-!
# What `compress_tool_dumps` removes

The filter is there to cut the bodies of tool dumps out of a stored answer:
long fenced blocks and long runs of line-numbered lines. `blocks` reads the
fences of a text the way a reader of Markdown does, from the top, each opening
fence closed by the next closing fence of its kind; a line is *protected* when
no long block and no long run holds it.

The fence passes do not read a text that way. When a block is short its lines
are copied one by one, so the scan comes to the closing fence again and takes
it for an opening one, up to the next closing fence further down; and the
backtick pass goes through the tilde blocks as well. `removesOnlyDumps_iff`
says on which texts this costs a protected line.

Whether a line is lost is followed by its position, through the three passes as
`Filter.Written` runs them. A fence pass cuts its lines into segments and drops
the body of a long one, so what it drops is known with its segment
(`length_of_fenceSegment`), and each position is either copied or dropped
(`mem_origins_fencePass_iff`). If the segment is a block of the text nothing
protected is lost; `DropsDumps` says it of the others. The line-numbered pass
loses only what is in a long run, because lines that it takes together are
copies of lines that stand together in the text (`inLongRun_of_run`).
-/

namespace Eidetic.Filter

open Eidetic.Lib Eidetic.Py

/-! ## Blocks, runs, and what is protected -/

/-- How many of the lines after `line` belong to the block it opens: none,
unless it is an opening fence with a closing fence below it. -/
def blockTake (isidentifier : Text → Bool) (line : Text) (rest : List Text) : Nat :=
  if fenceOpens isidentifier "```".toList (strip line) then
    ((closing "```".toList rest).map (· + 1)).getD 0
  else if fenceOpens isidentifier "~~~".toList (strip line) then
    ((closing "~~~".toList rest).map (· + 1)).getD 0
  else 0

/-- The text as fenced blocks, from the top, and lines outside of them. -/
def blocks (isidentifier : Text → Bool) (text : Text) : List (List Line) :=
  segments (onTexts (blockTake isidentifier)) (textLines text)

/-- A block with more than 20 lines between its fences. -/
def isLongBlock (block : List Line) : Bool := maxBlockLines + 2 < block.length

/-- Line `k` of the text is in a long fenced block. -/
def InLongBlock (isidentifier : Text → Bool) (text : Text) (k : Nat) : Prop :=
  ∃ block ∈ blocks isidentifier text, isLongBlock block = true ∧ k ∈ origins block

/-- Line `j` of these lines has a line-number marker. -/
def numberedAt (lines : List Text) (j : Nat) : Bool :=
  (lines[j]?.bind matchNumbered).isSome

/-- Line `k` of the text is in a run of more than 20 line-numbered lines: it is
one of 21 such lines in a row, from `a` on. -/
def InLongRun (text : Text) (k : Nat) : Prop :=
  ∃ a ≤ k, k ≤ a + maxBlockLines ∧
    ∀ d ≤ maxBlockLines, numberedAt (splitLines text) (a + d) = true

instance (isidentifier : Text → Bool) (text : Text) (k : Nat) :
    Decidable (InLongBlock isidentifier text k) :=
  inferInstanceAs (Decidable (∃ block ∈ blocks isidentifier text, _))

instance (text : Text) (k : Nat) : Decidable (InLongRun text k) :=
  inferInstanceAs (Decidable (∃ a ≤ k, _))

/-- Line `k` of the text is in no dump. -/
def Protected (isidentifier : Text → Bool) (text : Text) (k : Nat) : Prop :=
  k < (splitLines text).length ∧ ¬ InLongBlock isidentifier text k ∧ ¬ InLongRun text k

instance (isidentifier : Text → Bool) (text : Text) (k : Nat) :
    Decidable (Protected isidentifier text k) :=
  inferInstanceAs (Decidable (_ ∧ _ ∧ _))

/-- The lines of the text that are in no dump. -/
def protectedLines (isidentifier : Text → Bool) (text : Text) : List Text :=
  ((List.range (splitLines text).length).filter fun k => Protected isidentifier text k).map
    fun k => (splitLines text).getD k []

/-! ## What the fence passes drop -/

/-- The lines of a segment that a fence pass does not copy. -/
def droppedLines (fence : Text) : List Line → List Line
  | first :: next :: rest =>
    (if openingFence fence first.text = first.text then [] else [first])
      ++ (next :: rest).dropLast
      ++ (if fence = ((next :: rest).getLast (List.cons_ne_nil next rest)).text then []
          else [(next :: rest).getLast (List.cons_ne_nil next rest)])
  | _ => []

/-- The positions of a segment are the ones copied and the ones dropped. -/
theorem origins_collapseBlock_perm (fence label : Text) (seg : List Line) :
    (origins (collapseBlock fence label seg) ++ origins (droppedLines fence seg)).Perm
      (origins seg) := by
  match seg with
  | [] => simp [collapseBlock, droppedLines, origins]
  | [x] => simp [collapseBlock, droppedLines, origins]
  | first :: next :: rest =>
    have hnil : origins [] = [] := rfl
    rw [origins_block, origins_collapseBlock, origins_inPlaceOf, origins_inPlaceOf]
    simp only [droppedLines, origins_append]
    split
    next =>
      split
      next =>
        simp only [hnil, List.nil_append, List.append_nil, List.append_assoc]
        exact List.Perm.append_left _ List.perm_append_comm
      next => simp [hnil]
    next =>
      split
      next =>
        simp only [hnil, List.nil_append, List.append_nil]
        rw [← List.append_assoc (origins [first])]
        exact List.perm_append_comm
      next => simp

/-- The lines a fence pass does not copy. -/
def fenceDropped (isidentifier : Text → Bool) (fence : Text) (ls : List Line) : List Line :=
  (fenceSegments isidentifier fence ls).flatMap (droppedLines fence)

/-- The positions of the lines are the ones a fence pass copies and the ones
it drops. -/
theorem origins_fencePass_perm (isidentifier : Text → Bool) (fence label : Text)
    (ls : List Line) :
    (origins (fencePass isidentifier fence label ls)
      ++ origins (fenceDropped isidentifier fence ls)).Perm (origins ls) := by
  rw [origins_segments (onTexts (fenceTake isidentifier fence)) ls, fencePass, fenceDropped,
    origins_flatMap, origins_flatMap]
  exact (List.flatMap_append_perm _ _ _).trans
    (List.Perm.flatMap_left _ fun seg _ => origins_collapseBlock_perm fence label seg)

/-- When the lines have distinct positions, a position is copied or dropped,
not both. -/
theorem mem_origins_fencePass_iff {isidentifier : Text → Bool} {fence label : Text}
    {lines : List Text} {ls : List Line} (h : Traces lines ls) {k : Nat} :
    k ∈ origins (fencePass isidentifier fence label ls) ↔
      k ∈ origins ls ∧ k ∉ origins (fenceDropped isidentifier fence ls) := by
  have hperm := origins_fencePass_perm isidentifier fence label ls
  have hnodup : (origins (fencePass isidentifier fence label ls)
      ++ origins (fenceDropped isidentifier fence ls)).Nodup :=
    hperm.nodup_iff.mpr (h.inOrder.imp fun hlt => Nat.ne_of_lt hlt)
  constructor
  · intro hk
    exact ⟨hperm.mem_iff.mp (List.mem_append_left _ hk),
      fun hd => List.disjoint_of_nodup_append hnodup hk hd⟩
  · rintro ⟨hk, hd⟩
    exact (List.mem_append.mp (hperm.mem_iff.mpr hk)).resolve_right hd

/-- A fence pass takes a line alone or drops more than 20 lines between two
fences. -/
theorem length_of_fenceSegment {isidentifier : Text → Bool} {fence : Text}
    {ls seg : List Line} (hseg : seg ∈ fenceSegments isidentifier fence ls) :
    seg.length = 1 ∨ maxBlockLines + 2 < seg.length := by
  obtain ⟨before, x, after, -, rfl⟩ := segments_take hseg
  unfold onTexts fenceTake
  split
  next =>
    split
    next n hn =>
      split
      next hlong =>
        have hlt : n < after.length := by simpa using closing_lt hn
        rw [List.length_cons, List.length_take_of_le (by omega)]
        exact Or.inr (by omega)
      next => exact Or.inl rfl
    next => exact Or.inl rfl
  next => exact Or.inl rfl

theorem mem_of_mem_droppedLines {fence : Text} {seg : List Line} {l : Line}
    (h : l ∈ droppedLines fence seg) : l ∈ seg ∧ seg.length ≠ 1 := by
  match seg with
  | [] => exact absurd h (by simp [droppedLines])
  | [x] => exact absurd h (by simp [droppedLines])
  | first :: next :: rest =>
    refine ⟨?_, by simp⟩
    have hlast : (next :: rest).getLast (by simp) ∈ first :: next :: rest :=
      List.mem_cons_of_mem _ (List.getLast_mem _)
    simp only [droppedLines, List.mem_append] at h
    rcases h with (h | h) | h
    · split at h
      next => exact absurd h (by simp)
      next => exact List.mem_singleton.mp h ▸ List.mem_cons_self
    · exact List.mem_cons_of_mem _ (List.dropLast_subset _ h)
    · split at h
      next => exact absurd h (by simp)
      next => exact List.mem_singleton.mp h ▸ hlast

/-- What a fence pass drops of a block of the text is in a dump. -/
theorem not_protected_of_block {isidentifier : Text → Bool} {text fence : Text}
    {ls seg : List Line} (hseg : seg ∈ fenceSegments isidentifier fence ls)
    (hblock : seg ∈ blocks isidentifier text) {l : Line} (hl : l ∈ droppedLines fence seg)
    {k : Nat} (hk : k ∈ l.origin) : ¬ Protected isidentifier text k := by
  obtain ⟨hmem, hone⟩ := mem_of_mem_droppedLines hl
  have hlong := (length_of_fenceSegment hseg).resolve_left hone
  rintro ⟨-, hblocks, -⟩
  exact hblocks ⟨seg, hblock, by simpa [isLongBlock] using hlong,
    mem_origins.mpr ⟨l, hmem, hk⟩⟩

/-- What a fence pass drops beyond the blocks of the text is in dumps too. -/
def DropsDumps (isidentifier : Text → Bool) (text fence : Text) (ls : List Line) : Prop :=
  ∀ seg ∈ fenceSegments isidentifier fence ls, seg ∉ blocks isidentifier text →
    ∀ l ∈ droppedLines fence seg, ∀ k ∈ l.origin, ¬ Protected isidentifier text k

/-- A fence pass drops nothing but dumps exactly when no protected line is
among the dropped ones. -/
theorem dropsDumps_iff {isidentifier : Text → Bool} {text fence : Text} {ls : List Line} :
    DropsDumps isidentifier text fence ls ↔
      ∀ k ∈ origins (fenceDropped isidentifier fence ls), ¬ Protected isidentifier text k := by
  constructor
  · intro h k hk
    obtain ⟨l, hl, hlk⟩ := mem_origins.mp hk
    obtain ⟨seg, hseg, hl⟩ := List.mem_flatMap.mp hl
    by_cases hblock : seg ∈ blocks isidentifier text
    · exact not_protected_of_block hseg hblock hl hlk
    · exact h seg hseg hblock l hl k hlk
  · intro h seg hseg _ l hl k hk
    exact h k (mem_origins.mpr ⟨l, List.mem_flatMap.mpr ⟨seg, hseg, hl⟩, hk⟩)

/-! ## What the line-numbered pass drops -/

/-- Adjacent lines that all have a position have consecutive ones. -/
theorem origins_consecutive : ∀ (ls : List Line) (x : Line) (a : Nat),
    (x :: ls).IsChain Adjacent → x.origin = some a → (∀ l ∈ ls, l.origin ≠ none) →
      origins (x :: ls) = List.range' a (ls.length + 1)
  | [], x, a, _, hx, _ => by simp [origins, hx]
  | y :: ls, x, a, hchain, hx, hsome => by
    obtain ⟨hxy, hrest⟩ := List.isChain_cons_cons.mp hchain
    obtain ⟨b, hb⟩ := Option.ne_none_iff_exists'.mp (hsome y List.mem_cons_self)
    have hnext : b = a + 1 := hxy a hx b hb
    have ih := origins_consecutive ls y b hrest hb fun l hl =>
      hsome l (List.mem_cons_of_mem _ hl)
    rw [List.length_cons, List.range'_succ, ← hnext, ← ih]
    simp [origins, hx]

/-- The lines that the line-numbered pass takes together are numbered. -/
theorem numbered_of_mem_run {ls run : List Line}
    (hrun : run ∈ segments (onTexts numberedTake) ls) (hlong : maxBlockLines < run.length) :
    ∀ l ∈ run, (matchNumbered l.text).isSome = true := by
  obtain ⟨before, x, after, -, rfl⟩ := segments_take hrun
  have hx : (matchNumbered x.text).isSome = true := by
    by_contra hno
    have hzero : onTexts numberedTake x after = 0 := by
      unfold onTexts numberedTake
      rw [if_neg hno]
    rw [hzero] at hlong
    exact absurd hlong (by simp [maxBlockLines])
  intro l hl
  rcases List.mem_cons.mp hl with rfl | hl
  · exact hx
  · have hmem : l.text ∈ (after.map Line.text).takeWhile
        fun next => (matchNumbered (next.take maxLineLength)).isSome := by
      have htake := List.mem_map_of_mem (f := Line.text) hl
      unfold onTexts numberedTake at htake
      rw [if_pos hx, List.map_take] at htake
      rwa [List.prefix_iff_eq_take.mp (List.takeWhile_prefix _)]
    have hseen : (matchNumbered (l.text.take maxLineLength)).isSome = true :=
      List.mem_takeWhile_imp
        (p := fun next : Text => (matchNumbered (next.take maxLineLength)).isSome) hmem
    obtain ⟨e, he⟩ := Option.isSome_iff_exists.mp hseen
    rw [(matchNumbered_take.mp he).1]
    rfl

/-- A long run of the traced lines is a long run of the text. -/
theorem inLongRun_of_run {text : Text} {ls run : List Line}
    (h : Traces (splitLines text) ls) (hrun : run ∈ segments (onTexts numberedTake) ls)
    (hlong : maxBlockLines < run.length) : ∀ k ∈ origins run, InLongRun text k := by
  have hnumbered := numbered_of_mem_run hrun hlong
  have hof : ∀ l ∈ run, l ∈ ls := fun l hl => mem_of_mem_segment hrun hl
  have hsome : ∀ l ∈ run, l.origin ≠ none := by
    intro l hl hnone
    have hm := hnumbered l hl
    rw [h.unmarked l (hof l hl) hnone] at hm
    exact absurd hm (by simp)
  have hat : ∀ j ∈ origins run, numberedAt (splitLines text) j = true := by
    intro j hj
    obtain ⟨l, hl, hlj⟩ := mem_origins.mp hj
    rw [numberedAt, h.copied l (hof l hl) j hlj]
    exact hnumbered l hl
  cases run with
  | nil => exact absurd hlong (by simp)
  | cons x rest =>
    obtain ⟨a, ha⟩ := Option.ne_none_iff_exists'.mp (hsome x List.mem_cons_self)
    have hchain : (x :: rest).IsChain Adjacent := by
      refine h.adjacent.infix ?_
      rw [← segments_flatten (onTexts numberedTake) ls]
      exact List.infix_of_mem_flatten hrun
    have horigins := origins_consecutive rest x a hchain ha fun l hl =>
      hsome l (List.mem_cons_of_mem _ hl)
    rw [horigins] at hat ⊢
    rw [List.length_cons] at hlong
    intro k hk
    obtain ⟨hak, hkb⟩ := List.mem_range'_1.mp hk
    -- 21 lines from `k` on, or the last 21 lines of the run
    refine ⟨min k (a + rest.length - maxBlockLines), Nat.min_le_left _ _, ?_, ?_⟩
    · omega
    · intro d hd
      exact hat _ (List.mem_range'_1.mpr (by omega))

/-- The line-numbered pass drops only long runs. -/
theorem origins_numberedPass {text : Text} {ls : List Line} (h : Traces (splitLines text) ls)
    {k : Nat} (hk : k ∈ origins ls) :
    k ∈ origins (numberedPass ls) ∨ InLongRun text k := by
  obtain ⟨l, hl, hlk⟩ := mem_origins.mp hk
  rw [← segments_flatten (onTexts numberedTake) ls] at hl
  obtain ⟨run, hrun, hl⟩ := List.mem_flatten.mp hl
  by_cases hlong : maxBlockLines < run.length
  · exact Or.inr (inLongRun_of_run h hrun hlong k (mem_origins.mpr ⟨l, hl, hlk⟩))
  · refine Or.inl (mem_origins.mpr ⟨l, List.mem_flatMap.mpr ⟨run, hrun, ?_⟩, hlk⟩)
    rw [collapseRun, if_neg hlong]
    exact hl

/-! ## A whole call -/

/-- Positions kept are lines kept, in order. -/
theorem protectedLines_sublist {isidentifier : Text → Bool} {text : Text}
    (h : ∀ k, Protected isidentifier text k → k ∈ origins (written isidentifier text)) :
    (protectedLines isidentifier text).Sublist ((written isidentifier text).map Line.text) := by
  have htraces := written_traces isidentifier text
  refine List.Sublist.trans (List.Sublist.map _ ?_) htraces.copies_sublist
  have hsorted : ((List.range (splitLines text).length).filter fun k =>
      Protected isidentifier text k).Pairwise (· ≤ ·) :=
    (List.pairwise_lt_range.imp fun hlt => Nat.le_of_lt hlt).filter _
  refine List.sublist_of_subperm_of_pairwise ?_ hsorted
    (htraces.inOrder.imp fun hlt => Nat.le_of_lt hlt)
  refine List.subperm_of_subset (List.nodup_range.filter _) ?_
  intro k hk
  exact h k (by simpa using (List.mem_filter.mp hk).2)

/-- A protected line is written unless a fence pass drops it. -/
theorem mem_written_iff {isidentifier : Text → Bool} {text : Text}
    (hlen : ¬ text.length < 2000) {k : Nat} (hk : Protected isidentifier text k) :
    k ∈ origins (written isidentifier text) ↔
      k ∉ origins (fenceDropped isidentifier "```".toList (textLines text)) ∧
      k ∉ origins (fenceDropped isidentifier "~~~".toList (afterBackticks isidentifier text)) := by
  have htext : k ∈ origins (textLines text) := by
    rw [origins_textLines]
    exact List.mem_range.mpr hk.1
  have hnumbered : k ∈ origins (written isidentifier text) ↔
      k ∈ origins (afterFences isidentifier text) := by
    rw [written_of_long hlen]
    exact ⟨fun h => (collapseRun_copies.origins_sublist _ _).subset h,
      fun h => (origins_numberedPass (afterFences_traces isidentifier text) h).resolve_right
        hk.2.2⟩
  rw [hnumbered, afterFences, mem_origins_fencePass_iff (afterBackticks_traces isidentifier text),
    afterBackticks, mem_origins_fencePass_iff (textLines_traces text)]
  exact ⟨fun h => ⟨h.1.2, h.2⟩, fun h => ⟨⟨htext, h.1⟩, h.2⟩⟩

/-- What `compress_tool_dumps` is for, on one text: it returns, and every line
that is in no dump is among the lines it writes, as it was and in its order. -/
structure RemovesOnlyDumps (isidentifier : Text → Bool) (text : Text) : Prop where
  returns : ∃ fuel out, compressToolDumps isidentifier fuel text = some out
  kept : ∀ k, Protected isidentifier text k → k ∈ origins (written isidentifier text)
  inOrder : ∀ fuel out, compressToolDumps isidentifier fuel text = some out →
    (protectedLines isidentifier text).Sublist (splitLines out)

/-- The texts of which only dumps are removed. -/
structure SparesTheRest (isidentifier : Text → Bool) (text : Text) : Prop where
  markers : ∀ line ∈ numberedLines isidentifier text, MarkerFits line
  backticks : DropsDumps isidentifier text "```".toList (textLines text)
  tildes : DropsDumps isidentifier text "~~~".toList (afterBackticks isidentifier text)

/-- **When `compress_tool_dumps` removes only dumps.** Exactly when the text is
too short to be filtered, or all markers fit and, wherever a fence pass finds
more than 20 lines up to the next closing fence without being at a block of
the text, what it drops is in long blocks and long runs all the same. -/
theorem removesOnlyDumps_iff (isidentifier : Text → Bool) (text : Text) :
    RemovesOnlyDumps isidentifier text ↔
      text.length < 2000 ∨ SparesTheRest isidentifier text := by
  have hreturns := compressToolDumps_returns_iff isidentifier text
  by_cases hlen : text.length < 2000
  · have hkept : ∀ k, Protected isidentifier text k →
        k ∈ origins (written isidentifier text) := by
      intro k hk
      rw [written_of_short hlen, origins_textLines]
      exact List.mem_range.mpr hk.1
    refine ⟨fun _ => Or.inl hlen, fun _ => ⟨hreturns.mpr (Or.inl hlen), hkept, ?_⟩⟩
    intro fuel out hout
    rw [written_texts hout]
    exact protectedLines_sublist hkept
  · constructor
    · intro h
      refine Or.inr ⟨(hreturns.mp h.returns).resolve_left hlen, ?_, ?_⟩
      · rw [dropsDumps_iff]
        exact fun k hd hk => ((mem_written_iff hlen hk).mp (h.kept k hk)).1 hd
      · rw [dropsDumps_iff]
        exact fun k hd hk => ((mem_written_iff hlen hk).mp (h.kept k hk)).2 hd
    · intro h
      have hspares := h.resolve_left hlen
      have hkept : ∀ k, Protected isidentifier text k →
          k ∈ origins (written isidentifier text) := by
        intro k hk
        exact (mem_written_iff hlen hk).mpr
          ⟨fun hd => dropsDumps_iff.mp hspares.backticks k hd hk,
            fun hd => dropsDumps_iff.mp hspares.tildes k hd hk⟩
      refine ⟨hreturns.mpr (Or.inr hspares.markers), hkept, ?_⟩
      intro fuel out hout
      rw [written_texts hout]
      exact protectedLines_sublist hkept

/-- A block of one line, then 21 lines of prose, then another such block. -/
def twoSnippets : Text :=
  joinLines (["```".toList, "a = 1".toList, "```".toList]
    ++ List.replicate 21 (List.replicate 100 'p')
    ++ ["```".toList, "b = 2".toList, "```".toList])

/-- Neither block is long and no line is numbered, but the prose between the
blocks is gone: the closing fence of the first block is taken for an opening
one. -/
theorem twoSnippets_loseTheProse :
    List.replicate 100 'p' ∈ protectedLines asciiIdentifier twoSnippets ∧
      (∃ fuel out, compressToolDumps asciiIdentifier fuel twoSnippets = some out ∧
        List.replicate 100 'p' ∉ splitLines out) ∧
      ¬ RemovesOnlyDumps asciiIdentifier twoSnippets := by
  have hprotected : List.replicate 100 'p' ∈ protectedLines asciiIdentifier twoSnippets := by
    decide +kernel
  have hfits : ∀ line ∈ numberedLines asciiIdentifier twoSnippets, MarkerFits line := by
    rw [← afterFences_texts]
    decide +kernel
  have hlost : List.replicate 100 'p' ∉
      (written asciiIdentifier twoSnippets).map Line.text := by
    decide +kernel
  obtain ⟨fuel, out, hout⟩ :=
    (compressToolDumps_returns_iff asciiIdentifier twoSnippets).mpr (Or.inr hfits)
  rw [← written_texts hout] at hlost
  exact ⟨hprotected, ⟨fuel, out, hout, hlost⟩,
    fun h => hlost ((h.inOrder fuel out hout).subset hprotected)⟩

end Eidetic.Filter
