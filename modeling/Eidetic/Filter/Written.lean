import Mathlib.Data.List.Flatten
import Mathlib.Data.List.Perm.Basic
import Eidetic.Lib.Segments
import Eidetic.Filter.Progress
import Eidetic.Py.Spacing

/-!
# The lines `compress_tool_dumps` writes

To say which lines of a text a call of the filter drops, its three passes are
run over lines that know where they stood in the text. A pass cuts its lines
into segments and writes something for each (`fencePass`, `numberedPass`), and
`written` is what the three of them leave.

`written_texts`: these are the lines of what the code returns. `written_traces`:
the ones with a position are copies of the line there, in order, and two copies
that stand next to each other stand next to each other in the text.

The invariant of a pass over such lines is `Traces`. Each pass keeps it because
it `Copies`: what it writes for a segment are lines of the segment in their
order, or new lines without a marker, and the first and the last of them begin
and end the segment, so that neighbours in different segments stay apart or stay
neighbours (`Copies.traces`). That is proved once for the two fence passes,
which differ in `FenceLabel`, and once for the line-numbered pass.

That these passes write what the code writes is the connection to
`Filter.ContentFilter`: one round of the loop writes one segment
(`fenceBody_segment`, `numberedBody_segment`), so the loop writes the segments
one after the other.
-/

namespace Eidetic.Filter

open Eidetic.Lib Eidetic.Py

/-! ## Lines that know their position -/

/-- A line and its position in the text, if it was copied from there. -/
structure Line where
  text : Text
  origin : Option Nat
deriving DecidableEq, Repr

/-- The positions of the text that these lines were copied from. -/
def origins (ls : List Line) : List Nat := ls.filterMap Line.origin

/-- The lines of a text, each at its position. -/
def textLines (text : Text) : List Line :=
  (splitLines text).zipIdx.map fun line => ⟨line.1, some line.2⟩

/-- How many lines stand before the next closing fence. -/
def closing (fence : Text) (rest : List Text) : Option Nat :=
  rest.findIdx? fun line => strip line == fence

/-- A scan of texts, on lines. -/
def onTexts (take : Text → List Text → Nat) (line : Line) (rest : List Line) : Nat :=
  take line.text (rest.map Line.text)

/-! ## The passes on such lines -/

/-- How many of the lines after `line` a fence pass takes with it: none, unless
it opens a block of more than 20 lines. -/
def fenceTake (isidentifier : Text → Bool) (fence line : Text) (rest : List Text) : Nat :=
  if fenceOpens isidentifier fence (strip line) then
    match closing fence rest with
    | some n => if maxBlockLines < n then n + 1 else 0
    | none => 0
  else 0

/-- The line `text` in the place of `line`: a copy of it, if it is the same. -/
def inPlaceOf (line : Line) (text : Text) : Line :=
  ⟨text, if text = line.text then line.origin else none⟩

/-- The opening fence a pass writes for `line`. -/
def openingFence (fence line : Text) : Text :=
  fence ++ strip ((strip line).drop fence.length)

/-- What a fence pass writes for a segment. -/
def collapseBlock (fence label : Text) : List Line → List Line
  | first :: next :: rest =>
    [inPlaceOf first (openingFence fence first.text),
      ⟨compressedNote label rest.length, none⟩,
      inPlaceOf ((next :: rest).getLast (by simp)) fence]
  | seg => seg

/-- The segments a fence pass cuts the lines into. -/
def fenceSegments (isidentifier : Text → Bool) (fence : Text) (ls : List Line) :
    List (List Line) :=
  segments (onTexts (fenceTake isidentifier fence)) ls

/-- `_collapse_code_fence_block` on such lines. -/
def fencePass (isidentifier : Text → Bool) (fence label : Text) (ls : List Line) : List Line :=
  (fenceSegments isidentifier fence ls).flatMap (collapseBlock fence label)

/-- How many of the lines after `line` the line-numbered pass takes with it. -/
def numberedTake (line : Text) (rest : List Text) : Nat :=
  if (matchNumbered line).isSome then
    (rest.takeWhile fun next => (matchNumbered (next.take maxLineLength)).isSome).length
  else 0

/-- What the line-numbered pass writes for a segment. -/
def collapseRun (run : List Line) : List Line :=
  if maxBlockLines < run.length then
    [⟨compressedNote "numbered-block".toList run.length, none⟩]
  else run

/-- `_collapse_line_numbered_blocks` on such lines. -/
def numberedPass (ls : List Line) : List Line :=
  (segments (onTexts numberedTake) ls).flatMap collapseRun

/-- The lines the tilde pass of a call scans. -/
def afterBackticks (isidentifier : Text → Bool) (text : Text) : List Line :=
  fencePass isidentifier "```".toList "code-block".toList (textLines text)

/-- The lines the line-numbered pass of a call scans. -/
def afterFences (isidentifier : Text → Bool) (text : Text) : List Line :=
  fencePass isidentifier "~~~".toList "code-block".toList (afterBackticks isidentifier text)

/-- The lines a call of the filter writes. -/
def written (isidentifier : Text → Bool) (text : Text) : List Line :=
  if text = [] ∨ text.length < 2000 then textLines text
  else numberedPass (afterFences isidentifier text)

/-! ## The passes write these lines -/

/-- Searching the indices of a list from `i` on is searching its tail. -/
theorem find?_range'_getD {α : Type} (p : α → Bool) (d : α) (xs : List α) :
    ∀ (i : Nat), (List.range' i (xs.length - i)).find? (fun j => p (xs.getD j d))
      = ((xs.drop i).findIdx? p).map (· + i)
  | i => by
    by_cases hi : i < xs.length
    · have hlen : xs.length - i = (xs.length - (i + 1)) + 1 := by omega
      have ih := find?_range'_getD p d xs (i + 1)
      rw [hlen, List.range'_succ, List.find?_cons, List.getD_eq_getElem xs d hi,
        List.drop_eq_getElem_cons hi, List.findIdx?_cons]
      cases hp : p xs[i] with
      | true => simp
      | false =>
        rw [ih]
        cases (xs.drop (i + 1)).findIdx? p with
        | none => simp
        | some k =>
          simp
          omega
    · have hlen : xs.length - i = 0 := by omega
      rw [hlen, List.drop_eq_nil_of_le (by omega)]
      simp
  termination_by i => xs.length - i

/-- The closing fence of line `i` is the next one in the lines below it. -/
theorem fenceEnd_eq (lines : List Text) (fence : Text) (i : Nat) :
    fenceEnd lines fence i
      = ((closing fence (lines.drop (i + 1))).map (· + (i + 1))).getD i := by
  rw [fenceEnd, find?_range'_getD (fun line => strip line == fence) [] lines (i + 1)]
  rfl

theorem closing_lt {fence : Text} {rest : List Text} {n : Nat}
    (h : closing fence rest = some n) : n < rest.length :=
  (List.findIdx?_eq_some_iff_findIdx_eq.mp h).1

/-- A loop that writes segment after segment writes the pass. -/
theorem result_of_segments {take : Text → List Text → Nat} {write : List Line → List Line}
    {body : Scan → Scan} {ls : List Line}
    (hbody : ∀ i result line rest, ls.drop i = line :: rest →
      body ⟨i, result⟩ = ⟨i + 1 + onTexts take line rest,
        result ++ (write (line :: rest.take (onTexts take line rest))).map Line.text⟩) :
    ∀ (fuel : Nat) (s r : Scan),
      whileFuel (inLines (ls.map Line.text)) body fuel s = some r →
      r.result = s.result
        ++ ((segments (onTexts take) (ls.drop s.i)).flatMap write).map Line.text := by
  intro fuel
  induction fuel with
  | zero => intro s r h; exact absurd h (by simp [whileFuel])
  | succ fuel ih =>
    intro s r h
    -- the induction is on the fuel: a round writes the first segment of what is left
    by_cases hi : s.i < ls.length
    · have hc : inLines (ls.map Line.text) s = true := inLines_iff.mpr (by simpa using hi)
      rw [whileFuel_round hc] at h
      have hdrop := List.drop_eq_getElem_cons hi
      have hround := hbody s.i s.result ls[s.i] (ls.drop (s.i + 1)) hdrop
      rw [hround] at h
      rw [ih _ r h, hdrop, segments_cons, List.flatMap_cons, List.map_append,
        List.append_assoc, List.drop_drop]
    · have hc : inLines (ls.map Line.text) s = false := by simpa [inLines] using hi
      rw [whileFuel_exit hc] at h
      rw [List.drop_eq_nil_of_le (by omega), ← Option.some.inj h]
      simp

theorem collapseBlock_texts (fence label : Text) (first : Line) {more : List Line}
    (hmore : more ≠ []) :
    (collapseBlock fence label (first :: more)).map Line.text
      = [openingFence fence first.text, compressedNote label (more.length - 1), fence] := by
  cases more with
  | nil => exact absurd rfl hmore
  | cons next rest => rfl

theorem getD_of_drop {ls : List Line} {i : Nat} {line : Line} {rest : List Line}
    (hdrop : ls.drop i = line :: rest) : (ls.map Line.text).getD i [] = line.text := by
  have hget : ls[i]? = some line := by
    rw [← List.head?_drop, hdrop]
    rfl
  rw [List.getD_eq_getElem?_getD, List.getElem?_map, hget]
  rfl

/-- A round of a fence pass writes one segment. -/
theorem fenceBody_segment (isidentifier : Text → Bool) (fence label : Text) (ls : List Line) :
    ∀ i result line rest, ls.drop i = line :: rest →
      fenceBody isidentifier (ls.map Line.text) fence label ⟨i, result⟩
        = ⟨i + 1 + onTexts (fenceTake isidentifier fence) line rest,
          result ++ (collapseBlock fence label
            (line :: rest.take (onTexts (fenceTake isidentifier fence) line rest))).map
              Line.text⟩ := by
  intro i result line rest hdrop
  have hline : (ls.map Line.text).getD i [] = line.text := getD_of_drop hdrop
  have hrest : (ls.map Line.text).drop (i + 1) = rest.map Line.text := by
    rw [← List.map_drop, ← List.drop_drop, hdrop]
    rfl
  unfold fenceBody
  dsimp only
  rw [hline, fenceEnd_eq, hrest]
  unfold onTexts fenceTake
  by_cases hopens : fenceOpens isidentifier fence (strip line.text) = true
  · rw [if_pos hopens, if_pos hopens]
    -- a block that is not closed is an opening line that is copied alone
    cases hclose : closing fence (rest.map Line.text) with
    | none =>
      have hnone : slice (ls.map Line.text) (i + 1) i = [] :=
        List.drop_eq_nil_of_le (by rw [List.length_take]; omega)
      simp only [Option.map_none, Option.getD_none, hnone]
      rfl
    | some n =>
      have hn : n < rest.length := by simpa using closing_lt hclose
      have hlen : (slice (ls.map Line.text) (i + 1) (n + (i + 1))).length = n := by
        have := congrArg List.length hdrop
        simp only [List.length_drop, List.length_cons] at this
        simp only [slice, List.length_drop, List.length_take, List.length_map]
        omega
      simp only [Option.map_some, Option.getD_some, hlen]
      -- a block within the limit is copied as it stands, so its segment is its first line
      by_cases hlong : maxBlockLines < n
      · have hne : rest.take (n + 1) ≠ [] := by
          intro h
          have := congrArg List.length h
          rw [List.length_take_of_le (by omega)] at this
          exact absurd this (by simp)
        rw [if_pos hlong, if_pos hlong, collapseBlock_texts fence label line hne,
          List.length_take_of_le (by omega)]
        simp only [Scan.mk.injEq]
        exact ⟨by omega, rfl⟩
      · rw [if_neg hlong, if_neg hlong]
        rfl
  · rw [if_neg hopens, if_neg hopens]
    rfl

/-- A fence pass over these lines writes what the code writes. -/
theorem fencePass_texts (isidentifier : Text → Bool) (fence label : Text) {ls : List Line}
    {text : Text} (hls : ls.map Line.text = splitLines text) :
    joinLines ((fencePass isidentifier fence label ls).map Line.text)
      = collapseCodeFenceBlock isidentifier text fence label := by
  unfold collapseCodeFenceBlock
  dsimp only
  obtain ⟨fuel, hfuel⟩ := whileFuel_runLoop
    (fun s : Scan => (splitLines text).length - s.i)
    (fenceBody_remaining isidentifier (splitLines text) fence label) ⟨0, []⟩
  have hresult := result_of_segments (fenceBody_segment isidentifier fence label ls) fuel
    ⟨0, []⟩ _ (by rw [hls]; exact hfuel)
  rw [hresult]
  rfl

/-- The inner loop of the line-numbered pass stops at the first line whose
marker it does not see. -/
theorem numberedEnd_eq (lines : List Text) (i : Nat) :
    numberedEnd lines i = i + ((lines.drop i).takeWhile fun next =>
      (matchNumbered (next.take maxLineLength)).isSome).length := by
  induction i using numberedEnd.induct lines with
  | case1 i hi hm ih =>
    unfold numberedEnd
    rw [dif_pos hi, if_pos hm, ih, List.drop_eq_getElem_cons hi, List.takeWhile_cons,
      if_pos hm, List.length_cons]
    omega
  | case2 i hi hm =>
    unfold numberedEnd
    rw [dif_pos hi, if_neg hm, List.drop_eq_getElem_cons hi, List.takeWhile_cons,
      if_neg hm]
    rfl
  | case3 i hi =>
    unfold numberedEnd
    rw [dif_neg hi, List.drop_eq_nil_of_le (by omega)]
    rfl

/-- A round of the line-numbered pass writes one segment, when the two tests
agree on the line it is at. -/
theorem numberedBody_segment {ls : List Line} (hfits : ∀ l ∈ ls, MarkerFits l.text) :
    ∀ i result line rest, ls.drop i = line :: rest →
      numberedBody (ls.map Line.text) ⟨i, result⟩
        = ⟨i + 1 + onTexts numberedTake line rest,
          result ++ (collapseRun
            (line :: rest.take (onTexts numberedTake line rest))).map Line.text⟩ := by
  intro i result line rest hdrop
  have hline : (ls.map Line.text).getD i [] = line.text := getD_of_drop hdrop
  have hrest : (ls.map Line.text).drop i = (line :: rest).map Line.text := by
    rw [← List.map_drop, hdrop]
  have hmem : line ∈ ls := List.mem_of_mem_drop (hdrop ▸ List.mem_cons_self)
  unfold numberedBody
  dsimp only
  rw [hline]
  by_cases hm : (matchNumbered line.text).isSome = true
  -- the loop within the round goes on while the lines match, with the first one counted in
  · have htake : onTexts numberedTake line rest = ((rest.map Line.text).takeWhile
        fun next => (matchNumbered (next.take maxLineLength)).isSome).length := by
      unfold onTexts numberedTake
      rw [if_pos hm]
    have hend : numberedEnd (ls.map Line.text) i = i + 1 + onTexts numberedTake line rest := by
      rw [numberedEnd_eq, hrest, htake, List.map_cons, List.takeWhile_cons,
        if_pos (matchNumbered_take_isSome (hfits line hmem) hm), List.length_cons]
      omega
    have hle : onTexts numberedTake line rest ≤ rest.length := by
      rw [htake]
      simpa using (List.takeWhile_prefix _ (l := rest.map Line.text)).length_le
    have hlen : (line :: rest.take (onTexts numberedTake line rest)).length
        = onTexts numberedTake line rest + 1 := by
      rw [List.length_cons, List.length_take_of_le hle]
    have hcount : i + 1 + onTexts numberedTake line rest - i
        = onTexts numberedTake line rest + 1 := by omega
    have hslice : slice (ls.map Line.text) i (i + 1 + onTexts numberedTake line rest)
        = (line :: rest.take (onTexts numberedTake line rest)).map Line.text := by
      unfold slice
      rw [List.drop_take, hrest, hcount, ← List.map_take, List.take_succ_cons]
    rw [if_pos hm, hend, hcount, hslice]
    unfold collapseRun
    rw [hlen]
    split
    next => rfl
    next => rfl
  · have htake : onTexts numberedTake line rest = 0 := by
      unfold onTexts numberedTake
      rw [if_neg hm]
    rw [if_neg hm, htake]
    rfl

/-! ## What the passes keep -/

/-- Lines are adjacent when their positions are. -/
def Adjacent (x y : Line) : Prop := ∀ a ∈ x.origin, ∀ b ∈ y.origin, b = a + 1

/-- Lines written on the way, for a text with the lines `lines`: the ones with
an origin are copies of the line at that position, in order, two of them that
stand next to each other also stand next to each other in the text; the others
are no line-numbered lines. -/
structure Traces (lines : List Text) (ls : List Line) : Prop where
  copied : ∀ l ∈ ls, ∀ k ∈ l.origin, lines[k]? = some l.text
  unmarked : ∀ l ∈ ls, l.origin = none → matchNumbered l.text = none
  adjacent : ls.IsChain Adjacent
  inOrder : (origins ls).Pairwise (· < ·)
  newlineFree : ∀ l ∈ ls, '\n' ∉ l.text
  nonempty : ls ≠ []

theorem mem_origins {ls : List Line} {k : Nat} :
    k ∈ origins ls ↔ ∃ l ∈ ls, k ∈ l.origin := by
  simp [origins]

theorem origins_append (xs ys : List Line) : origins (xs ++ ys) = origins xs ++ origins ys :=
  List.filterMap_append

theorem origins_flatMap (segs : List (List Line)) (f : List Line → List Line) :
    origins (segs.flatMap f) = segs.flatMap fun seg => origins (f seg) := by
  induction segs with
  | nil => rfl
  | cons seg segs ih => rw [List.flatMap_cons, origins_append, ih, List.flatMap_cons]

theorem origins_segments (take : Line → List Line → Nat) (ls : List Line) :
    origins ls = (segments take ls).flatMap origins := by
  have h := origins_flatMap (segments take ls) id
  rwa [List.flatMap_id, segments_flatten] at h

/-- What is written for a segment copies lines of it, in order, or writes new
ones that are no line-numbered lines and keep the copies apart. -/
structure Copies (write : List Line → List Line) : Prop where
  line : ∀ seg, ∀ y ∈ write seg, y ∈ seg ∨ (y.origin = none ∧ matchNumbered y.text = none)
  newlineFree : ∀ seg, (∀ l ∈ seg, '\n' ∉ l.text) → ∀ y ∈ write seg, '\n' ∉ y.text
  nonempty : ∀ seg, seg ≠ [] → write seg ≠ []
  inOrder : ∀ seg, (origins (write seg)).Sublist (origins seg)
  adjacent : ∀ seg, seg.IsChain Adjacent → (write seg).IsChain Adjacent
  head : ∀ seg, ∀ y ∈ (write seg).head?, ∃ x ∈ seg.head?, ∀ k ∈ y.origin, k ∈ x.origin
  last : ∀ seg, ∀ y ∈ (write seg).getLast?, ∃ x ∈ seg.getLast?, ∀ k ∈ y.origin, k ∈ x.origin

theorem mem_of_mem_segment {take : Line → List Line → Nat} {ls seg : List Line} {l : Line}
    (hseg : seg ∈ segments take ls) (hl : l ∈ seg) : l ∈ ls := by
  rw [← segments_flatten take ls]
  exact List.mem_flatten_of_mem hseg hl

theorem Copies.origins_sublist {write : List Line → List Line} (hwrite : Copies write)
    (take : Line → List Line → Nat) (ls : List Line) :
    (origins ((segments take ls).flatMap write)).Sublist (origins ls) := by
  rw [origins_flatMap, origins_segments take ls]
  exact List.Sublist.flatMap_right _ fun seg _ => hwrite.inOrder seg

/-- A pass that copies keeps the lines traced. -/
theorem Copies.traces {write : List Line → List Line} (hwrite : Copies write)
    {take : Line → List Line → Nat} {lines : List Text} {ls : List Line}
    (h : Traces lines ls) : Traces lines ((segments take ls).flatMap write) := by
  refine ⟨?_, ?_, ?_, ?_, ?_, ?_⟩
  · intro y hy k hk
    obtain ⟨seg, hseg, hy⟩ := List.mem_flatMap.mp hy
    -- a line that is written is one of its segment, or is new and has no origin
    rcases hwrite.line seg y hy with hy | ⟨hnone, -⟩
    · exact h.copied y (mem_of_mem_segment hseg hy) k hk
    · rw [hnone] at hk
      exact absurd hk (by simp)
  · intro y hy hnone
    obtain ⟨seg, hseg, hy⟩ := List.mem_flatMap.mp hy
    rcases hwrite.line seg y hy with hy | ⟨-, hm⟩
    · exact h.unmarked y (mem_of_mem_segment hseg hy) hnone
    · exact hm
  · refine isChain_segments hwrite.nonempty hwrite.adjacent ?_ ?_ h.adjacent
    · intro seg y hy
      obtain ⟨x, hx, hxy⟩ := hwrite.head seg y hy
      exact ⟨x, hx, fun z hz a ha b hb => hz a ha b (hxy b hb)⟩
    · intro seg y hy
      obtain ⟨x, hx, hxy⟩ := hwrite.last seg y hy
      exact ⟨x, hx, fun z hz a ha b hb => hz a (hxy a ha) b hb⟩
  · exact h.inOrder.sublist (hwrite.origins_sublist take ls)
  · intro y hy
    obtain ⟨seg, hseg, hy⟩ := List.mem_flatMap.mp hy
    exact hwrite.newlineFree seg
      (fun l hl => h.newlineFree l (mem_of_mem_segment hseg hl)) y hy
  · intro hnil
    have hsegs : segments take ls ≠ [] := by
      intro he
      have hflat := segments_flatten take ls
      rw [he] at hflat
      exact h.nonempty hflat.symm
    obtain ⟨seg, hseg⟩ := List.exists_mem_of_ne_nil _ hsegs
    exact hwrite.nonempty seg (segments_ne_nil take ls seg hseg)
      (List.flatMap_eq_nil_iff.mp hnil seg hseg)

theorem inPlaceOf_same (line : Line) : inPlaceOf line line.text = line := by
  simp [inPlaceOf]

theorem inPlaceOf_origin {line : Line} {text : Text} (h : text ≠ line.text) :
    (inPlaceOf line text).origin = none := by
  simp [inPlaceOf, h]

/-- A line that a fence pass writes is a line of the segment or a new one: an
opening fence, a placeholder or a closing fence. -/
theorem mem_collapseBlock {fence label : Text} {seg : List Line} {y : Line}
    (h : y ∈ collapseBlock fence label seg) :
    y ∈ seg ∨ (y.origin = none ∧ ((∃ l ∈ seg, y.text = openingFence fence l.text)
      ∨ (∃ n, y.text = compressedNote label n) ∨ y.text = fence)) := by
  match seg with
  | [] => exact Or.inl h
  | [x] => exact Or.inl h
  | first :: next :: rest =>
    -- a fence that the pass would write as it stands is the line itself, with its origin
    have hlast : (next :: rest).getLast (by simp) ∈ first :: next :: rest :=
      List.mem_cons_of_mem _ (List.getLast_mem _)
    simp only [collapseBlock, List.mem_cons, List.not_mem_nil, or_false] at h
    rcases h with rfl | rfl | rfl
    · by_cases hsame : openingFence fence first.text = first.text
      · rw [hsame, inPlaceOf_same]
        exact Or.inl List.mem_cons_self
      · exact Or.inr ⟨inPlaceOf_origin hsame, Or.inl ⟨first, List.mem_cons_self, rfl⟩⟩
    · exact Or.inr ⟨rfl, Or.inr (Or.inl ⟨_, rfl⟩)⟩
    · by_cases hsame : fence = ((next :: rest).getLast (by simp)).text
      · refine Or.inl ?_
        rw [hsame, inPlaceOf_same]
        exact hlast
      · exact Or.inr ⟨inPlaceOf_origin hsame, Or.inr (Or.inr rfl)⟩

theorem origins_inPlaceOf (line : Line) (text : Text) :
    origins [inPlaceOf line text] = if text = line.text then origins [line] else [] := by
  by_cases h : text = line.text
  · rw [if_pos h, h, inPlaceOf_same]
  · rw [if_neg h]
    simp [origins, inPlaceOf, h]

theorem origins_block (first next : Line) (rest : List Line) :
    origins (first :: next :: rest)
      = origins [first] ++ (origins (next :: rest).dropLast
        ++ origins [(next :: rest).getLast (by simp)]) := by
  rw [← origins_append, List.dropLast_append_getLast, ← origins_append]
  rfl

theorem origins_collapseBlock (fence label : Text) (first next : Line) (rest : List Line) :
    origins (collapseBlock fence label (first :: next :: rest))
      = origins [inPlaceOf first (openingFence fence first.text)]
        ++ origins [inPlaceOf ((next :: rest).getLast (by simp)) fence] := by
  show origins ([_] ++ ([⟨_, none⟩] ++ [_])) = _
  rw [origins_append, origins_append]
  rfl

/-- What a fence pass copies of a segment stays in its order. -/
theorem origins_collapseBlock_sublist (fence label : Text) (seg : List Line) :
    (origins (collapseBlock fence label seg)).Sublist (origins seg) := by
  match seg with
  | [] => exact List.Sublist.refl _
  | [x] => exact List.Sublist.refl _
  | first :: next :: rest =>
    have hcut : ∀ (l : Line) (t : Text), (origins [inPlaceOf l t]).Sublist (origins [l]) := by
      intro l t
      rw [origins_inPlaceOf]
      split
      next => exact List.Sublist.refl _
      next => exact List.nil_sublist _
    rw [origins_block, origins_collapseBlock]
    exact (hcut _ _).append ((hcut _ _).trans (List.sublist_append_right _ _))

theorem collapseBlock_ne_nil (fence label : Text) {seg : List Line} (h : seg ≠ []) :
    collapseBlock fence label seg ≠ [] := by
  match seg with
  | [] => exact absurd rfl h
  | [x] => simp [collapseBlock]
  | first :: next :: rest => simp [collapseBlock]

theorem mem_origin_of_inPlaceOf {line : Line} {text : Text} {k : Nat}
    (h : k ∈ (inPlaceOf line text).origin) : k ∈ line.origin := by
  by_cases hsame : text = line.text
  · rwa [hsame, inPlaceOf_same] at h
  · rw [inPlaceOf_origin hsame] at h
    exact absurd h (by simp)

/-- The placeholder keeps the two fences apart. -/
theorem collapseBlock_adjacent (fence label : Text) {seg : List Line}
    (h : seg.IsChain Adjacent) : (collapseBlock fence label seg).IsChain Adjacent := by
  match seg with
  | [] => exact h
  | [x] => exact h
  | first :: next :: rest =>
    refine List.IsChain.cons_cons ?_ (List.IsChain.cons_cons ?_ (List.IsChain.singleton _))
    · intro a _ b hb
      exact absurd hb (by simp)
    · intro a ha b _
      exact absurd ha (by simp)

theorem collapseBlock_head {fence label : Text} {seg : List Line} {y : Line}
    (h : y ∈ (collapseBlock fence label seg).head?) :
    ∃ x ∈ seg.head?, ∀ k ∈ y.origin, k ∈ x.origin := by
  match seg with
  | [] => exact absurd h (by simp [collapseBlock])
  | [x] => exact ⟨y, h, fun k hk => hk⟩
  | first :: next :: rest =>
    have hy : inPlaceOf first (openingFence fence first.text) = y := by
      simpa [collapseBlock] using h
    exact ⟨first, by simp, fun k hk => mem_origin_of_inPlaceOf (hy ▸ hk)⟩

theorem collapseBlock_getLast {fence label : Text} {seg : List Line} {y : Line}
    (h : y ∈ (collapseBlock fence label seg).getLast?) :
    ∃ x ∈ seg.getLast?, ∀ k ∈ y.origin, k ∈ x.origin := by
  match seg with
  | [] => exact absurd h (by simp [collapseBlock])
  | [x] => exact ⟨y, h, fun k hk => hk⟩
  | first :: next :: rest =>
    have hy : inPlaceOf ((next :: rest).getLast (by simp)) fence = y := by
      simpa [collapseBlock] using h
    refine ⟨(next :: rest).getLast (by simp), ?_, fun k hk =>
      mem_origin_of_inPlaceOf (hy ▸ hk)⟩
    rw [List.getLast?_cons_cons, List.getLast?_eq_getLast_of_ne_nil (by simp)]
    rfl

/-- A line that begins with a character that is no blank and no digit has no
line-number marker. -/
theorem matchNumbered_of_mark {c : Char} (hs : isSpace c = false) (hd : isDecimal c = false)
    (t : Text) : matchNumbered (c :: t) = none := by
  unfold matchNumbered
  dsimp only
  rw [List.dropWhile_cons_of_neg (by simp [hs]), List.dropWhile_cons_of_neg (by simp [hd]),
    List.takeWhile_cons_of_neg (by simp [hd])]
  cases t with
  | nil => rfl
  | cons s t => simp

theorem newline_not_mem_toString (n : Nat) : '\n' ∉ (toString n).toList := by
  intro h
  have hdigits : '\n' ∈ Nat.toDigits 10 n := by
    simpa [Nat.repr_eq_ofList_toDigits] using h
  exact absurd (Nat.isDigit_of_mem_toDigits (by decide) (by decide) hdigits) (by decide)

/-- A fence the filter knows, and the label it writes for its blocks. -/
structure FenceLabel (fence label : Text) : Prop where
  unmarked : ∀ t, matchNumbered (fence ++ t) = none
  fenceFree : '\n' ∉ fence
  labelFree : '\n' ∉ label

theorem backtickLabel : FenceLabel "```".toList "code-block".toList :=
  ⟨fun _ => matchNumbered_of_mark (by decide) (by decide) _, by decide, by decide⟩

theorem tildeLabel : FenceLabel "~~~".toList "code-block".toList :=
  ⟨fun _ => matchNumbered_of_mark (by decide) (by decide) _, by decide, by decide⟩

theorem compressedNote_unmarked (label : Text) (n : Nat) :
    matchNumbered (compressedNote label n) = none :=
  matchNumbered_of_mark (by decide) (by decide) _

theorem newline_not_mem_compressedNote {label : Text} (h : '\n' ∉ label) (n : Nat) :
    '\n' ∉ compressedNote label n := by
  unfold compressedNote
  simp only [List.mem_append, not_or]
  exact ⟨⟨⟨⟨by decide, h⟩, by decide⟩, newline_not_mem_toString n⟩, by decide⟩

theorem newline_not_mem_openingFence {fence line : Text} (hfence : '\n' ∉ fence)
    (hline : '\n' ∉ line) : '\n' ∉ openingFence fence line := by
  intro h
  rcases List.mem_append.mp h with h | h
  · exact hfence h
  · exact hline (strip_subset (List.mem_of_mem_drop (strip_subset h)))

/-- A fence pass copies, in order, and writes no line-numbered lines. -/
theorem collapseBlock_copies {fence label : Text} (hlabel : FenceLabel fence label) :
    Copies (collapseBlock fence label) where
  line seg y hy := by
    rcases mem_collapseBlock hy with hy | ⟨hnone, ⟨l, -, ht⟩ | ⟨n, ht⟩ | ht⟩
    · exact Or.inl hy
    · exact Or.inr ⟨hnone, by rw [ht]; exact hlabel.unmarked _⟩
    · exact Or.inr ⟨hnone, by rw [ht]; exact compressedNote_unmarked label n⟩
    · exact Or.inr ⟨hnone, by rw [ht, ← List.append_nil fence]; exact hlabel.unmarked []⟩
  newlineFree seg hseg y hy := by
    rcases mem_collapseBlock hy with hy | ⟨-, ⟨l, hl, ht⟩ | ⟨n, ht⟩ | ht⟩
    · exact hseg y hy
    · rw [ht]
      exact newline_not_mem_openingFence hlabel.fenceFree (hseg l hl)
    · rw [ht]
      exact newline_not_mem_compressedNote hlabel.labelFree n
    · rw [ht]
      exact hlabel.fenceFree
  nonempty _ hseg := collapseBlock_ne_nil fence label hseg
  inOrder seg := origins_collapseBlock_sublist fence label seg
  adjacent _ hseg := collapseBlock_adjacent fence label hseg
  head _ _ hy := collapseBlock_head hy
  last _ _ hy := collapseBlock_getLast hy

/-- So does the line-numbered pass. -/
theorem collapseRun_copies : Copies collapseRun := by
  -- either the run is left, or one placeholder stands for it
  have hcases : ∀ run, collapseRun run = run
      ∨ (run ≠ [] ∧ ∃ n, collapseRun run
        = [⟨compressedNote "numbered-block".toList n, none⟩]) := by
    intro run
    by_cases hlong : maxBlockLines < run.length
    · refine Or.inr ⟨?_, run.length, by rw [collapseRun, if_pos hlong]⟩
      rintro rfl
      exact absurd hlong (by simp)
    · exact Or.inl (by rw [collapseRun, if_neg hlong])
  refine ⟨?_, ?_, ?_, ?_, ?_, ?_, ?_⟩
  · intro run y hy
    rcases hcases run with he | ⟨-, n, he⟩
    · exact Or.inl (he ▸ hy)
    · rw [he, List.mem_singleton] at hy
      exact Or.inr (hy ▸ ⟨rfl, compressedNote_unmarked _ n⟩)
  · intro run hrun y hy
    rcases hcases run with he | ⟨-, n, he⟩
    · exact hrun y (he ▸ hy)
    · rw [he, List.mem_singleton] at hy
      rw [hy]
      exact newline_not_mem_compressedNote (by decide) n
  · intro run hne
    rcases hcases run with he | ⟨-, n, he⟩
    · rwa [he]
    · rw [he]
      simp
  · intro run
    rcases hcases run with he | ⟨-, n, he⟩
    · rw [he]
    · rw [he]
      exact List.nil_sublist _
  · intro run hrun
    rcases hcases run with he | ⟨-, n, he⟩
    · rwa [he]
    · rw [he]
      exact List.IsChain.singleton _
  · intro run y hy
    rcases hcases run with he | ⟨hne, n, he⟩
    · exact ⟨y, he ▸ hy, fun k hk => hk⟩
    · obtain ⟨x, rest, rfl⟩ := List.exists_cons_of_ne_nil hne
      rw [he] at hy
      refine ⟨x, rfl, fun k hk => ?_⟩
      rw [← Option.some.inj hy] at hk
      exact absurd hk (by simp)
  · intro run y hy
    rcases hcases run with he | ⟨hne, n, he⟩
    · exact ⟨y, he ▸ hy, fun k hk => hk⟩
    · refine ⟨run.getLast hne, List.getLast?_eq_some_getLast hne, fun k hk => ?_⟩
      rw [he] at hy
      rw [← Option.some.inj hy] at hk
      exact absurd hk (by simp)

/-! ## A whole call -/

theorem textLines_texts (text : Text) : (textLines text).map Line.text = splitLines text := by
  rw [textLines, List.map_map]
  exact List.zipIdx_map_fst 0 _

theorem origins_textLines (text : Text) :
    origins (textLines text) = List.range (splitLines text).length := by
  rw [origins, textLines, List.filterMap_map, List.range_eq_range',
    ← List.zipIdx_map_snd 0, ← List.filterMap_eq_map]
  rfl

theorem mem_textLines {text : Text} {l : Line} (h : l ∈ textLines text) :
    ∃ k, l.origin = some k ∧ (splitLines text)[k]? = some l.text := by
  obtain ⟨⟨t, k⟩, hk, rfl⟩ := List.mem_map.mp h
  exact ⟨k, rfl, List.mk_mem_zipIdx_iff_getElem?.mp hk⟩

theorem textLines_traces (text : Text) : Traces (splitLines text) (textLines text) := by
  refine ⟨?_, ?_, ?_, ?_, ?_, ?_⟩
  · intro l hl k hk
    obtain ⟨k', hk', hget⟩ := mem_textLines hl
    rw [hk'] at hk
    rwa [← Option.some.inj hk]
  · intro l hl hnone
    obtain ⟨k, hk, -⟩ := mem_textLines hl
    rw [hk] at hnone
    exact absurd hnone (by simp)
  · rw [List.isChain_iff_getElem]
    intro i hi a ha b hb
    simp only [textLines, List.getElem_map, List.getElem_zipIdx, Option.mem_def,
      Option.some.injEq] at ha hb
    omega
  · rw [origins_textLines]
    exact List.pairwise_lt_range
  · intro l hl
    obtain ⟨k, -, hget⟩ := mem_textLines hl
    exact not_mem_of_mem_splitLines (List.mem_of_getElem? hget)
  · intro hnil
    have := textLines_texts text
    rw [hnil] at this
    exact splitLines_ne_nil text this.symm

theorem afterBackticks_traces (isidentifier : Text → Bool) (text : Text) :
    Traces (splitLines text) (afterBackticks isidentifier text) :=
  (collapseBlock_copies backtickLabel).traces (textLines_traces text)

theorem afterFences_traces (isidentifier : Text → Bool) (text : Text) :
    Traces (splitLines text) (afterFences isidentifier text) :=
  (collapseBlock_copies tildeLabel).traces (afterBackticks_traces isidentifier text)

theorem Traces.splitLines_texts {lines : List Text} {ls : List Line} (h : Traces lines ls) :
    splitLines (joinLines (ls.map Line.text)) = ls.map Line.text := by
  refine splitLines_joinLines ?_ ?_
  · intro t ht
    obtain ⟨l, hl, rfl⟩ := List.mem_map.mp ht
    exact h.newlineFree l hl
  · simpa using h.nonempty

theorem afterBackticks_texts (isidentifier : Text → Bool) (text : Text) :
    (afterBackticks isidentifier text).map Line.text
      = splitLines (collapseCodeFenceBlock isidentifier text "```".toList
        "code-block".toList) := by
  rw [← fencePass_texts isidentifier _ _ (textLines_texts text)]
  exact (afterBackticks_traces isidentifier text).splitLines_texts.symm

theorem afterFences_texts (isidentifier : Text → Bool) (text : Text) :
    (afterFences isidentifier text).map Line.text = numberedLines isidentifier text := by
  rw [numberedLines, collapseFences,
    ← fencePass_texts isidentifier _ _ (afterBackticks_texts isidentifier text)]
  exact (afterFences_traces isidentifier text).splitLines_texts.symm

theorem written_of_short {isidentifier : Text → Bool} {text : Text} (h : text.length < 2000) :
    written isidentifier text = textLines text := by
  rw [written, if_pos (Or.inr h)]

theorem not_short {text : Text} (h : ¬ text.length < 2000) :
    ¬ (text = [] ∨ text.length < 2000) := by
  rintro (rfl | h')
  · exact h (by simp)
  · exact h h'

theorem written_of_long {isidentifier : Text → Bool} {text : Text} (h : ¬ text.length < 2000) :
    written isidentifier text = numberedPass (afterFences isidentifier text) := by
  rw [written, if_neg (not_short h)]

theorem written_traces (isidentifier : Text → Bool) (text : Text) :
    Traces (splitLines text) (written isidentifier text) := by
  by_cases hlen : text.length < 2000
  · rw [written_of_short hlen]
    exact textLines_traces text
  · rw [written_of_long hlen]
    exact collapseRun_copies.traces (afterFences_traces isidentifier text)

/-- The lines of what a call returns are the lines written. -/
theorem written_texts {isidentifier : Text → Bool} {text out : Text} {fuel : Nat}
    (h : compressToolDumps isidentifier fuel text = some out) :
    splitLines out = (written isidentifier text).map Line.text := by
  by_cases hlen : text.length < 2000
  · rw [compressToolDumps, if_pos (Or.inr hlen)] at h
    rw [written_of_short hlen, textLines_texts, Option.some.inj h]
  · have hfits := ((compressToolDumps_returns_iff isidentifier text).mp ⟨fuel, out, h⟩).resolve_left
      hlen
    have htexts := afterFences_texts isidentifier text
    have htraces := afterFences_traces isidentifier text
    rw [compressToolDumps, if_neg (not_short hlen), collapseLineNumberedBlocks] at h
    obtain ⟨s, hs, rfl⟩ := Option.map_eq_some_iff.mp h
    -- the call has returned, so the two tests agree on every line
    have hmarkers : ∀ l ∈ afterFences isidentifier text, MarkerFits l.text := fun l hl =>
      hfits _ (htexts ▸ List.mem_map_of_mem hl)
    have hresult := result_of_segments (numberedBody_segment hmarkers) fuel ⟨0, []⟩ s
      (by rw [htexts]; exact hs)
    have hwritten : s.result = (written isidentifier text).map Line.text := by
      rw [hresult, written_of_long hlen]
      rfl
    rw [hwritten]
    exact (written_traces isidentifier text).splitLines_texts

/-- The copies are a part of the lines written. -/
theorem Traces.copies_sublist {lines : List Text} {ls : List Line} (h : Traces lines ls) :
    ((origins ls).map fun k => lines.getD k []).Sublist (ls.map Line.text) := by
  have hcopied := h.copied
  clear h
  induction ls with
  | nil => exact List.Sublist.refl _
  | cons l ls ih =>
    have ih := ih fun x hx => hcopied x (List.mem_cons_of_mem _ hx)
    cases hl : l.origin with
    | none =>
      rw [show origins (l :: ls) = origins ls by simp [origins, hl], List.map_cons]
      exact ih.cons _
    | some k =>
      have hget := hcopied l List.mem_cons_self k hl
      rw [show origins (l :: ls) = k :: origins ls by simp [origins, hl], List.map_cons,
        List.map_cons, List.getD_eq_getElem?_getD, hget]
      exact ih.cons_cons _

end Eidetic.Filter
