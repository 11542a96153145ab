import Mathlib.Data.List.TakeWhile
import Mathlib.Tactic.ByContra
import Mathlib.Data.List.GetD
import Eidetic.Filter.ContentFilter

/-!
# When `compress_tool_dumps` returns

The outer loop of the line-numbered pass tests a whole line, the inner one
only its first 120 characters. `matchNumbered_take` relates the two tests: a
prefix of a line matches exactly when the match of the line ends inside it.
So the tests disagree on the lines whose marker (indent, one to four digits,
`:` or `.`, one blank) ends beyond column 120, and only on them.

On such a line the outer loop starts a block, the inner loop consumes nothing,
and the round repeats with the same state (`numberedBody_stuck`). No round
steps over one (`numberedEnd_le_of_overlong`), so a single such line anywhere
in the text is enough to keep the pass from returning:
`collapseLineNumberedBlocks_returns_iff`.

The rounds of a pass are those of the library's loops: `numberedBody_lt` says
that a round moves the index when the marker fits, `numberedBody_stuck` that it
does not otherwise, and `returns_of_measure` and `not_returns_of_stuck` make of
this when the pass returns. `Progresses` states the claim on all three passes,
round by round; its last field, that the call returns, follows from the others
and gives them back, so the theorem has one condition.
-/

namespace Eidetic.Filter

open Eidetic.Lib Eidetic.Py

/-! ## The marker of a numbered line -/

/-- `line` starts with a marker that ends at `e`. -/
def IsNumbered (line : Text) (e : Nat) : Prop :=
  ∃ (ws ds : Text) (c s : Char) (t : Text), line = ws ++ ds ++ c :: s :: t ∧
    (∀ x ∈ ws, isSpace x = true) ∧ (∀ x ∈ ds, isDecimal x = true) ∧
    1 ≤ ds.length ∧ ds.length ≤ 4 ∧ (c = ':' ∨ c = '.') ∧ isSpace s = true ∧
    e = ws.length + ds.length + 2

/-- No character is both whitespace and a digit. -/
theorem isSpace_eq_false_of_isDecimal {c : Char} (h : isDecimal c = true) :
    isSpace c = false := by
  have hdisj : ∀ n ∈ spaces, (digitZeros.any fun z => z ≤ n && n < z + 10) = false := by
    decide
  cases hs : isSpace c with
  | false => rfl
  | true =>
    have hmem : c.toNat ∈ spaces := by simpa [isSpace] using hs
    rw [isDecimal, hdisj _ hmem] at h
    exact absurd h (by simp)

theorem isDecimal_separator {c : Char} (h : c = ':' ∨ c = '.') : isDecimal c = false := by
  rcases h with rfl | rfl <;> decide

/-- A run of characters satisfying `p`, up to one that does not. -/
theorem takeWhile_run {p : Char → Bool} {xs : Text} {y : Char} (ys : Text)
    (hxs : ∀ x ∈ xs, p x = true) (hy : p y = false) :
    (xs ++ y :: ys).takeWhile p = xs ∧ (xs ++ y :: ys).dropWhile p = y :: ys := by
  constructor
  · rw [List.takeWhile_append_of_pos hxs, List.takeWhile_cons_of_neg (by simp [hy])]
    simp
  · rw [List.dropWhile_append_of_pos hxs, List.dropWhile_cons_of_neg (by simp [hy])]

/-- The scanner finds the match of the pattern. -/
theorem matchNumbered_eq_some {line : Text} {e : Nat} :
    matchNumbered line = some e ↔ IsNumbered line e := by
  constructor
  · intro h
    unfold matchNumbered at h
    dsimp only at h
    split at h
    next c s t hrest =>
      split at h
      next hg =>
        obtain ⟨h1, h4, hc, hs⟩ := hg
        refine ⟨line.takeWhile isSpace, (line.dropWhile isSpace).takeWhile isDecimal,
          c, s, t, ?_, ?_, ?_, h1, h4, hc, hs, (Option.some.inj h).symm⟩
        · rw [List.append_assoc, ← hrest, List.takeWhile_append_dropWhile,
            List.takeWhile_append_dropWhile]
        · exact fun x hx => List.mem_takeWhile_imp hx
        · exact fun x hx => List.mem_takeWhile_imp hx
      next => exact absurd h (by simp)
    next => exact absurd h (by simp)
  · rintro ⟨ws, ds, c, s, t, rfl, hws, hds, h1, h4, hc, hs, rfl⟩
    obtain ⟨d, ds', rfl⟩ : ∃ d ds', ds = d :: ds' := by
      cases ds with
      | nil => exact absurd h1 (by simp)
      | cons d ds' => exact ⟨d, ds', rfl⟩
    have hd : isSpace d = false :=
      isSpace_eq_false_of_isDecimal (hds d (List.mem_cons_self ..))
    obtain ⟨hw1, hw2⟩ := takeWhile_run (ds' ++ c :: s :: t) hws hd
    obtain ⟨hd1, hd2⟩ := takeWhile_run (s :: t) hds (isDecimal_separator hc)
    have hline : ws ++ d :: ds' ++ c :: s :: t = ws ++ d :: (ds' ++ c :: s :: t) := by
      simp
    have hrest : d :: (ds' ++ c :: s :: t) = (d :: ds') ++ c :: s :: t := by simp
    unfold matchNumbered
    dsimp only
    rw [hline, hw1, hw2, hrest, hd1, hd2]
    exact if_pos ⟨h1, h4, hc, hs⟩

/-- A prefix of a line matches exactly when the match ends inside it. -/
theorem matchNumbered_take {line : Text} {n e : Nat} :
    matchNumbered (line.take n) = some e ↔ matchNumbered line = some e ∧ e ≤ n := by
  rw [matchNumbered_eq_some, matchNumbered_eq_some]
  constructor
  · rintro ⟨ws, ds, c, s, t, hl, hws, hds, h1, h4, hc, hs, rfl⟩
    have hlen : ws.length + ds.length + 2 ≤ n := by
      have := congrArg List.length hl
      simp only [List.length_take, List.length_append, List.length_cons] at this
      omega
    refine ⟨⟨ws, ds, c, s, t ++ line.drop n, ?_, hws, hds, h1, h4, hc, hs, rfl⟩, hlen⟩
    calc line = line.take n ++ line.drop n := (List.take_append_drop n line).symm
      _ = (ws ++ ds ++ c :: s :: t) ++ line.drop n := by rw [hl]
      _ = ws ++ ds ++ c :: s :: (t ++ line.drop n) := by simp
  · rintro ⟨⟨ws, ds, c, s, t, rfl, hws, hds, h1, h4, hc, hs, rfl⟩, hn⟩
    refine ⟨ws, ds, c, s, t.take (n - (ws.length + ds.length + 2)), ?_, hws, hds, h1, h4,
      hc, hs, rfl⟩
    have hsplit : ws ++ ds ++ c :: s :: t = (ws ++ ds ++ [c, s]) ++ t := by simp
    have hpre : (ws ++ ds ++ [c, s]).length = ws.length + ds.length + 2 := by simp; omega
    rw [hsplit, List.take_append, List.take_of_length_le (by omega), hpre]
    simp

/-! ## Overlong markers -/

/-- The two tests agree on `line`: its marker, if it has one, ends within the
first 120 characters. -/
def MarkerFits (line : Text) : Prop :=
  ∀ e, matchNumbered line = some e → e ≤ maxLineLength

instance (line : Text) : Decidable (MarkerFits line) :=
  match h : matchNumbered line with
  | none => isTrue fun e he => by rw [h] at he; exact absurd he (by simp)
  | some e =>
    if hle : e ≤ maxLineLength then
      isTrue fun e' he => by rw [h] at he; exact Option.some.inj he ▸ hle
    else isFalse fun hf => hle (hf e h)

theorem matchNumbered_take_isSome {line : Text} (hf : MarkerFits line)
    (h : (matchNumbered line).isSome = true) :
    (matchNumbered (line.take maxLineLength)).isSome = true := by
  obtain ⟨e, he⟩ := Option.isSome_iff_exists.mp h
  rw [matchNumbered_take.mpr ⟨he, hf e he⟩]
  rfl

theorem matchNumbered_of_not_fits {line : Text} (hf : ¬ MarkerFits line) :
    (matchNumbered line).isSome = true ∧
      (matchNumbered (line.take maxLineLength)).isSome = false := by
  obtain ⟨e, he, hlt⟩ : ∃ e, matchNumbered line = some e ∧ ¬ e ≤ maxLineLength := by
    by_contra hno
    exact hf fun e he => by_contra fun hlt => hno ⟨e, he, hlt⟩
  refine ⟨by rw [he]; rfl, ?_⟩
  cases ht : matchNumbered (line.take maxLineLength) with
  | none => rfl
  | some e' =>
    obtain ⟨he', hle⟩ := matchNumbered_take.mp ht
    rw [he] at he'
    exact absurd (Option.some.inj he' ▸ hle) hlt

/-! ## One round of the line-numbered pass -/

theorem le_numberedEnd (lines : List Text) : ∀ (i : Nat), i ≤ numberedEnd lines i
  | i => by
    unfold numberedEnd
    split
    next _h =>
      split
      next => exact Nat.le_trans (Nat.le_succ i) (le_numberedEnd lines (i + 1))
      next => exact Nat.le_refl _
    next => exact Nat.le_refl _
  termination_by i => lines.length - i
  decreasing_by omega

/-- The inner loop consumes a line whose marker it sees. -/
theorem lt_numberedEnd {lines : List Text} {i : Nat} (hi : i < lines.length)
    (h : (matchNumbered (lines[i].take maxLineLength)).isSome = true) :
    i < numberedEnd lines i := by
  unfold numberedEnd
  rw [dif_pos hi, if_pos h]
  exact le_numberedEnd lines (i + 1)

/-- The inner loop never steps over a line whose marker is overlong. -/
theorem numberedEnd_le_of_overlong {lines : List Text} {k : Nat} (hk : k < lines.length)
    (hbad : ¬ MarkerFits lines[k]) : ∀ (i : Nat), i ≤ k → numberedEnd lines i ≤ k
  | i, hik => by
    unfold numberedEnd
    split
    next _h =>
      split
      next hm =>
        have hne : i ≠ k := by
          rintro rfl
          rw [(matchNumbered_of_not_fits hbad).2] at hm
          exact absurd hm (by simp)
        exact numberedEnd_le_of_overlong hk hbad (i + 1) (by omega)
      next => exact hik
    next => exact hik
  termination_by i _ => lines.length - i
  decreasing_by omega

theorem numberedBody_i (lines : List Text) (s : Scan) (hs : s.i < lines.length) :
    (numberedBody lines s).i
      = if (matchNumbered lines[s.i]).isSome then numberedEnd lines s.i else s.i + 1 := by
  unfold numberedBody
  dsimp only
  rw [List.getD_eq_getElem lines [] hs]
  split
  next => split <;> rfl
  next => rfl

/-- A round moves the line index forward when the line's marker fits. -/
theorem numberedBody_lt {lines : List Text} {s : Scan} (hs : s.i < lines.length)
    (hf : MarkerFits lines[s.i]) : s.i < (numberedBody lines s).i := by
  rw [numberedBody_i lines s hs]
  split
  next hm => exact lt_numberedEnd hs (matchNumbered_take_isSome hf hm)
  next => exact Nat.lt_succ_self _

/-- On an overlong marker the round leaves the state as it was. -/
theorem numberedBody_stuck {lines : List Text} {s : Scan} (hs : s.i < lines.length)
    (hbad : ¬ MarkerFits lines[s.i]) : numberedBody lines s = s := by
  obtain ⟨hfull, hcut⟩ := matchNumbered_of_not_fits hbad
  have hend : numberedEnd lines s.i = s.i := by
    unfold numberedEnd
    rw [dif_pos hs, if_neg (by simp [hcut])]
  unfold numberedBody
  dsimp only
  rw [List.getD_eq_getElem lines [] hs, if_pos hfull, hend]
  simp

/-! ## The whole pass -/

/-- From before an overlong marker the pass never returns. -/
theorem not_returns_of_overlong {lines : List Text} {k : Nat} (hk : k < lines.length)
    (hbad : ¬ MarkerFits lines[k]) : ∀ (s : Scan), s.i ≤ k →
      ¬ Returns (inLines lines) (numberedBody lines) s := by
  intro s hsk
  induction hm : k - s.i using Nat.strongRecOn generalizing s with
  | ind m ih =>
    have hs : s.i < lines.length := by omega
    have hc := inLines_iff.mpr hs
    by_cases hf : MarkerFits lines[s.i]
    · rw [returns_round_iff hc]
      have hne : s.i ≠ k := fun h => hbad (by simpa only [h] using hf)
      have hlt := numberedBody_lt hs hf
      have hle : (numberedBody lines s).i ≤ k := by
        rw [numberedBody_i lines s hs]
        split
        next => exact numberedEnd_le_of_overlong hk hbad s.i hsk
        next => omega
      exact ih (k - (numberedBody lines s).i) (by omega) _ hle rfl
    · exact not_returns_of_stuck hc (numberedBody_stuck hs hf)

theorem numbered_returns_iff (lines : List Text) :
    Returns (inLines lines) (numberedBody lines) ⟨0, []⟩ ↔
      ∀ line ∈ lines, MarkerFits line := by
  constructor
  · intro h line hline
    obtain ⟨k, hk, rfl⟩ := List.mem_iff_getElem.mp hline
    by_contra hbad
    exact not_returns_of_overlong hk hbad ⟨0, []⟩ (Nat.zero_le k) h
  · intro h
    refine returns_of_measure (fun s => lines.length - s.i) (fun s hs => ?_) _
    have hs' := inLines_iff.mp hs
    have := numberedBody_lt hs' (h _ (List.getElem_mem hs'))
    omega

/-- The line-numbered pass returns exactly when every marker of the text ends
within the first 120 characters of its line. -/
theorem collapseLineNumberedBlocks_returns_iff (text : Text) :
    (∃ fuel out, collapseLineNumberedBlocks fuel text = some out) ↔
      ∀ line ∈ splitLines text, MarkerFits line := by
  rw [← numbered_returns_iff]
  constructor
  · rintro ⟨fuel, out, h⟩
    obtain ⟨s, hs, -⟩ := Option.map_eq_some_iff.mp h
    exact ⟨fuel, s, hs⟩
  · rintro ⟨fuel, s, hs⟩
    exact ⟨fuel, joinLines s.result, by rw [collapseLineNumberedBlocks, hs]; rfl⟩

/-! ## The filter -/

/-- The lines the line-numbered pass of a call scans. -/
def numberedLines (isidentifier : Text → Bool) (text : Text) : List Text :=
  splitLines (collapseFences isidentifier text)

/-- What a call of the filter on `text` does round by round: when the text is
long enough to be filtered, every round of the three scans moves its line
index forward, and the inner loop consumes every line that opens a numbered
block; and the call returns. -/
structure Progresses (isidentifier : Text → Bool) (text : Text) : Prop where
  backticks : 2000 ≤ text.length →
    Advances (inLines (splitLines text))
      (fenceBody isidentifier (splitLines text) "```".toList "code-block".toList)
      Scan.i ⟨0, []⟩
  tildes : 2000 ≤ text.length → ∀ lines, lines = splitLines
      (collapseCodeFenceBlock isidentifier text "```".toList "code-block".toList) →
    Advances (inLines lines)
      (fenceBody isidentifier lines "~~~".toList "code-block".toList) Scan.i ⟨0, []⟩
  numbered : 2000 ≤ text.length →
    Advances (inLines (numberedLines isidentifier text))
      (numberedBody (numberedLines isidentifier text)) Scan.i ⟨0, []⟩
  block : 2000 ≤ text.length → ∀ s,
    Reaches (inLines (numberedLines isidentifier text))
      (numberedBody (numberedLines isidentifier text)) ⟨0, []⟩ s →
    s.i < (numberedLines isidentifier text).length →
    (matchNumbered ((numberedLines isidentifier text).getD s.i [])).isSome = true →
    s.i < numberedEnd (numberedLines isidentifier text) s.i
  returns : ∃ fuel out, compressToolDumps isidentifier fuel text = some out

/-- The filter returns exactly when the text is too short to be filtered, or
every line the fence passes leave has its marker inside its first 120
characters. -/
theorem compressToolDumps_returns_iff (isidentifier : Text → Bool) (text : Text) :
    (∃ fuel out, compressToolDumps isidentifier fuel text = some out) ↔
      text.length < 2000 ∨ ∀ line ∈ numberedLines isidentifier text, MarkerFits line := by
  by_cases hlen : text.length < 2000
  · have hgo : text = [] ∨ text.length < 2000 := Or.inr hlen
    exact ⟨fun _ => Or.inl hlen, fun _ => ⟨0, text, by rw [compressToolDumps, if_pos hgo]⟩⟩
  · have hgo : ¬ (text = [] ∨ text.length < 2000) := by
      rintro (rfl | h')
      · exact hlen (by simp)
      · exact hlen h'
    have hpass := collapseLineNumberedBlocks_returns_iff (collapseFences isidentifier text)
    constructor
    · rintro ⟨fuel, out, hout⟩
      rw [compressToolDumps, if_neg hgo] at hout
      exact Or.inr (hpass.mp ⟨fuel, out, hout⟩)
    · rintro (h | h)
      · exact absurd h hlen
      · obtain ⟨fuel, out, hout⟩ := hpass.mpr h
        exact ⟨fuel, out, by rw [compressToolDumps, if_neg hgo]; exact hout⟩

/-- **When `compress_tool_dumps` makes progress.** Exactly when the text is too
short to be filtered, or every line left by the two code-fence passes has its
line-number marker, if it has one, inside its first 120 characters. -/
theorem compressToolDumps_progresses_iff (isidentifier : Text → Bool) (text : Text) :
    Progresses isidentifier text ↔
      text.length < 2000 ∨ ∀ line ∈ numberedLines isidentifier text, MarkerFits line := by
  constructor
  · intro h
    exact (compressToolDumps_returns_iff isidentifier text).mp h.returns
  · intro h
    have hfits : 2000 ≤ text.length →
        ∀ line ∈ numberedLines isidentifier text, MarkerFits line := by
      intro hlen
      rcases h with h | h
      · omega
      · exact h
    refine ⟨fun _ s _ _ => fenceBody_lt .., fun _ lines _ s _ _ => fenceBody_lt ..,
      ?_, ?_, (compressToolDumps_returns_iff isidentifier text).mpr h⟩
    · intro hlen s _ hs
      have hs' := inLines_iff.mp hs
      exact numberedBody_lt hs' (hfits hlen _ (List.getElem_mem hs'))
    · intro hlen s _ hs hm
      rw [List.getD_eq_getElem _ [] hs] at hm
      exact lt_numberedEnd hs
        (matchNumbered_take_isSome (hfits hlen _ (List.getElem_mem hs)) hm)

/-- An answer of a single line is not changed by a fence pass: a fence on it
is never closed. -/
theorem collapseCodeFenceBlock_of_single_line (isidentifier : Text → Bool)
    {text : Text} (h : splitLines text = [text]) (fence label : Text) :
    collapseCodeFenceBlock isidentifier text fence label = text := by
  have hend : fenceEnd [text] fence 0 = 0 := rfl
  have hround : fenceBody isidentifier [text] fence label ⟨0, []⟩ = ⟨1, [text]⟩ := by
    unfold fenceBody
    dsimp only
    split
    next => rw [hend, if_neg (by simp [slice, maxBlockLines])]; rfl
    next => rfl
  unfold collapseCodeFenceBlock
  dsimp only
  rw [h, runLoop, dif_pos (by rfl), hround, runLoop, dif_neg (by simp [inLines])]
  simp [joinLines]

/-- One line, indented so far that its marker `1:` straddles column 120. -/
def hangingAnswer : Text :=
  List.replicate 119 ' ' ++ "1: ".toList ++ List.replicate 2000 'x'

/-- On `hangingAnswer` the filter never returns. -/
theorem hangingAnswer_not_returns :
    ¬ ∃ fuel out, compressToolDumps asciiIdentifier fuel hangingAnswer = some out := by
  have hlines : splitLines hangingAnswer = [hangingAnswer] := by decide +kernel
  have hm : matchNumbered hangingAnswer = some 122 := by decide +kernel
  rw [compressToolDumps_returns_iff]
  rintro (hlen | hfits)
  · exact absurd hlen (by decide +kernel)
  · rw [numberedLines, collapseFences, collapseCodeFenceBlock_of_single_line _ hlines,
      collapseCodeFenceBlock_of_single_line _ hlines, hlines] at hfits
    exact absurd (hfits _ (List.mem_singleton.mpr rfl) _ hm) (by decide)

end Eidetic.Filter
