import Eidetic.Memory.Writers
import Eidetic.Py.Spacing
import Eidetic.Py.Template

/-!
# The preferences section of the sheet

`_replace_or_append_pref` takes all of the sheet from the first `[PREFERENCES]`
to the next bracket for the section, and puts the new block in as a template of
`re`. The block takes the line breaks before the next header with it, a bracket
within the old block stays behind, and a backslash in the new one is an escape.
The edit is of one section only where it is the last of the sheet
(`editsOneSection_iff`).

A sheet is read as lines under headers (`Sections`), and `Edited` says on this
reading what an edit is: the body is the block, the other lines are the same,
and the edit again changes nothing. The code works on the text. The two are
brought together by cutting the sheet at its first marker, which does not
overlap itself (`infix_of_opens`), and at the next bracket, where the section
ends (`exists_section`, `EndsAt`).

Then there are the cases of the code. With a marker the edit replaces the
section, and what may go wrong is in it: a template escape, a marker within a
line, a bracket after it (`edited_of_ready` one way, `ready_of_edited` the
other). Without a marker the block is put behind the stripped sheet, where the
lines of the sheet stay as they are if its first and its last line have no space
at the ends (`nonBlank_strip`). A block that a model's answer gives is stripped
and has no bracket, and any such text is one (`extractPrefSection_block`).
-/

namespace Eidetic.Memory

open Eidetic.Py

/-- The text of a section, from its marker to the next bracket or the end. -/
def sectionText (after : Text) : Text := after.take (after.length - (afterSection after).length)

/-- `_extract_pref_section`. -/
def extractPrefSection (text : Text) : Option Text :=
  (splitAtMarker text).map fun parts => strip (sectionText parts.2)

/-- A block that can be extracted. -/
structure PrefBlock where
  text : Text
  answer : Text
  extracted : extractPrefSection answer = some text

/-- `_replace_or_append_pref`, with the templates of `re`. -/
def replacePref (groupNumber : Text → Option Nat) (current prefBlock : Text) : Option Text :=
  let whole := match splitAtMarker current with
    | some (_, after) => preferencesMarker ++ sectionText after
    | none => []
  replaceOrAppendPref (expandTemplate groupNumber whole) current prefBlock

/-! ## Sections -/

/-- Nothing stands before, or a line break. -/
def startsLine (before : Text) : Bool := before.getLast?.all fun c => c = '\n'

/-- A line that starts a section. -/
def isHeader (line : Text) : Bool := line.head? = some '['

/-- A sheet around its preferences. -/
structure Sections where
  before : List Text
  body : Text
  after : List Text
deriving DecidableEq

/-- The preferences begin with the first marker, if a line does, and end before the
next header. -/
def sectionsOf (sheet : Text) : Option Sections :=
  match splitAtMarker sheet with
  | some (before, after) =>
    if startsLine before then
      let lines := (splitLines after).tail
      some
        { before := splitLines before
          body := strip (joinLines
            ((splitLines after).take 1 ++ lines.takeWhile fun l => !isHeader l))
          after := lines.dropWhile fun l => !isHeader l }
    else none
  | none => none

def nonBlank (lines : List Text) : List Text := lines.filter fun l => !(strip l).isEmpty

/-- The lines of the other sections. -/
def otherLines (sheet : Text) : List Text :=
  match sectionsOf sheet with
  | some s => nonBlank (s.before ++ s.after)
  | none => nonBlank (splitLines sheet)

/-- The sheet has the block as its preferences, its other lines are as they were,
and a second edit changes nothing. -/
structure Edited (groupNumber : Text → Option Nat) (current prefBlock result : Text) : Prop where
  body : ∃ s, sectionsOf result = some s ∧ s.body = prefBlock
  others : otherLines result = otherLines current
  again : replacePref groupNumber result prefBlock = some result

/-- The edit does not raise, and is of one section. -/
def EditsOneSection (groupNumber : Text → Option Nat) (current prefBlock : Text) : Prop :=
  ∃ result, replacePref groupNumber current prefBlock = some result ∧
    Edited groupNumber current prefBlock result

/-- No bracket comes after the marker; an empty block needs a line break before what
follows. -/
def Ready (after prefBlock : Text) : Prop :=
  if prefBlock = [] then (after.takeWhile fun c => c ≠ '[').getLast? = some '\n'
  else '[' ∉ after

/-- The block has no escape. The first marker, if there is one, starts a line and
its section is ready. Without a marker the block is not empty, the first line that
is not blank has no space before it and the last none after it. -/
def Editable (current prefBlock : Text) : Prop :=
  isLiteral prefBlock ∧
    match splitAtMarker current with
    | some (before, after) => startsLine before ∧ Ready after prefBlock
    | none =>
      prefBlock ≠ [] ∧
        (strip current ≠ [] →
          startsLine (current.takeWhile isSpace) ∧ startsLine (current.reverse.takeWhile isSpace))

/-! ## The marker -/

theorem preferencesMarker_eq : preferencesMarker = '[' :: "PREFERENCES]".toList := by decide

theorem preferencesMarker_ne_nil : preferencesMarker ≠ [] := by
  rw [preferencesMarker_eq]
  exact List.cons_ne_nil _ _

/-- The marker does not overlap itself. -/
theorem infix_of_opens {u a : Text} (hu : u ≠ []) (h : preferencesMarker <+: u ++ (preferencesMarker ++ a)) :
    preferencesMarker <:+: u := by
  obtain ⟨w, hw⟩ := h
  rcases List.append_eq_append_iff.mp hw with ⟨x, hx, hrest⟩ | ⟨x, hx, hrest⟩
  · exact ⟨[], x, by rw [hx]; rfl⟩
  · cases x with
    | nil => exact ⟨[], [], by rw [hx]; simp⟩
    | cons y x =>
      cases u with
      | nil => exact absurd rfl hu
      | cons c u =>
        -- the second bracket would stand within the marker
        rw [preferencesMarker_eq] at hx hrest
        obtain ⟨_, hx⟩ : _ ∧ "PREFERENCES]".toList = u ++ y :: x := List.cons.inj hx
        obtain ⟨rfl, _⟩ := List.cons.inj hrest
        have hmem : '[' ∈ "PREFERENCES]".toList := by
          rw [hx]
          exact List.mem_append_right u (List.mem_cons_self ..)
        exact absurd hmem (by decide)

theorem splitAtMarker_cons (c : Char) (cs : Text) :
    splitAtMarker (c :: cs) =
      if startsWith (c :: cs) preferencesMarker then
        some ([], (c :: cs).drop preferencesMarker.length)
      else (splitAtMarker cs).map fun parts => (c :: parts.1, parts.2) := rfl

/-- A text that starts with the marker. -/
theorem splitAtMarker_marker (a : Text) : splitAtMarker (preferencesMarker ++ a) = some ([], a) := by
  rw [preferencesMarker_eq, List.cons_append, splitAtMarker_cons, ← List.cons_append,
    ← preferencesMarker_eq, if_pos (startsWith_iff.mpr (List.prefix_append _ _)), List.drop_left]

theorem splitAtMarker_append {b : Text} (h : ¬ preferencesMarker <:+: b) (a : Text) :
    splitAtMarker (b ++ (preferencesMarker ++ a)) = some (b, a) := by
  induction b with
  | nil => exact splitAtMarker_marker a
  | cons c b ih =>
    rw [List.cons_append, splitAtMarker_cons, if_neg]
    · rw [ih fun hb => h (hb.trans (List.suffix_cons c b).isInfix)]
      rfl
    · rw [startsWith_iff]
      exact fun hprefix => h (infix_of_opens (by simp) hprefix)

theorem splitAtMarker_some {t b a : Text} (h : splitAtMarker t = some (b, a)) :
    t = b ++ (preferencesMarker ++ a) ∧ ¬ preferencesMarker <:+: b := by
  induction t generalizing b with
  | nil => exact absurd h (by simp [splitAtMarker])
  | cons c t ih =>
    rw [splitAtMarker_cons] at h
    split at h
    next hstart =>
      obtain ⟨rfl, rfl⟩ := Prod.mk.inj (Option.some.inj h)
      obtain ⟨w, hw⟩ := startsWith_iff.mp hstart
      refine ⟨?_, by rw [List.infix_nil]; exact preferencesMarker_ne_nil⟩
      rw [← hw, List.drop_left, List.nil_append]
    next hstart =>
      obtain ⟨parts, hparts, heq⟩ := Option.map_eq_some_iff.mp h
      obtain ⟨rfl, rfl⟩ := Prod.mk.inj heq
      obtain ⟨rfl, hno⟩ := ih hparts
      refine ⟨rfl, fun hinfix => ?_⟩
      rw [List.infix_cons_iff] at hinfix
      refine hinfix.elim (fun hprefix => hstart ?_) hno
      rw [startsWith_iff]
      exact hprefix.trans (List.prefix_append (c :: parts.1) _)

theorem splitAtMarker_none {t : Text} (h : splitAtMarker t = none) : ¬ preferencesMarker <:+: t := by
  rintro ⟨u, v, rfl⟩
  -- the marker is somewhere, so there is a first
  induction u with
  | nil =>
    rw [List.nil_append, splitAtMarker_marker] at h
    exact absurd h (by simp)
  | cons c u ih =>
    rw [List.append_assoc, List.cons_append, splitAtMarker_cons] at h
    split at h
    next => exact absurd h (by simp)
    next => exact ih (by rw [List.append_assoc]; exact Option.map_eq_none_iff.mp h)

/-- A marker within two texts apart by a line break is within one of them. -/
theorem infix_of_break {x y : Text} (h : preferencesMarker <:+: x ++ '\n' :: y) :
    preferencesMarker <:+: x ∨ preferencesMarker <:+: y := by
  have hbreak : '\n' ∉ preferencesMarker := by decide
  rcases List.infix_append_iff.mp h with hx | hy | ⟨u, v, huv, hu, hv⟩
  · exact Or.inl hx
  · rcases List.infix_cons_iff.mp hy with hprefix | hy
    · obtain ⟨w, hw⟩ := hprefix
      rw [preferencesMarker_eq] at hw
      exact absurd (List.cons.inj hw).1 (by decide)
    · exact Or.inr hy
  · cases v with
    | nil =>
      rw [List.append_nil] at huv
      exact Or.inl (huv ▸ hu.isInfix)
    | cons c v =>
      obtain ⟨w, hw⟩ := hv
      obtain ⟨rfl, _⟩ := List.cons.inj hw
      rw [huv] at hbreak
      exact absurd (List.mem_append_right u (List.mem_cons_self ..)) hbreak

/-! ## The end of a section -/

/-- Where the section that a text begins with ends. -/
def EndsAt (body rest : Text) : Prop :=
  rest = [] ∧ body.getLast? ≠ some '\n' ∨ rest = ['\n'] ∨ rest.head? = some '['

theorem EndsAt.plain {body rest : Text} (h : EndsAt body rest) (hhead : rest.head? ≠ some '[') :
    '[' ∉ rest := by
  rcases h with ⟨rfl, _⟩ | rfl | h
  · simp
  · decide
  · exact absurd h hhead

theorem afterSection_append {body rest : Text} (hfree : '[' ∉ body) (h : EndsAt body rest) :
    afterSection (body ++ rest) = rest := by
  induction body with
  | nil =>
    rcases h with ⟨rfl, _⟩ | rfl | h
    · rfl
    · rfl
    · cases rest with
      | nil => rfl
      | cons c rest =>
        obtain rfl : c = '[' := by simpa using h
        rfl
  | cons c body ih =>
    rw [List.mem_cons, not_or] at hfree
    rw [List.cons_append, afterSection, if_neg]
    · refine ih hfree.2 ?_
      rcases h with ⟨rfl, hlast⟩ | h
      · refine Or.inl ⟨rfl, ?_⟩
        cases body with
        | nil => simp
        | cons d body => simpa using hlast
      · exact Or.inr h
    · rintro (rfl | ⟨rfl, hnil⟩)
      · exact hfree.1 rfl
      · obtain ⟨rfl, rfl⟩ := List.append_eq_nil_iff.mp hnil
        rcases h with ⟨_, hlast⟩ | h | h
        · exact hlast rfl
        · exact absurd h (by simp)
        · exact absurd h (by simp)

/-- A text is a section without brackets and what follows it. -/
theorem exists_section (a : Text) :
    ∃ body, a = body ++ afterSection a ∧ '[' ∉ body ∧ EndsAt body (afterSection a) := by
  induction a with
  | nil => exact ⟨[], rfl, by simp, Or.inl ⟨rfl, by simp⟩⟩
  | cons c a ih =>
    rw [afterSection]
    split
    next hend =>
      refine ⟨[], rfl, by simp, ?_⟩
      rcases hend with rfl | ⟨rfl, rfl⟩
      · exact Or.inr (Or.inr rfl)
      · exact Or.inr (Or.inl rfl)
    next hend =>
      obtain ⟨body, ha, hfree, hends⟩ := ih
      rw [not_or] at hend
      refine ⟨c :: body, ?_, ?_, ?_⟩
      · rw [List.cons_append, ← ha]
      · rw [List.mem_cons, not_or]
        exact ⟨Ne.symm hend.1, hfree⟩
      · rcases hends with ⟨hnil, hlast⟩ | hends
        · refine Or.inl ⟨hnil, ?_⟩
          cases body with
          | nil =>
            rw [hnil, List.append_nil] at ha
            intro hc
            exact hend.2 ⟨by simpa using hc, ha⟩
          | cons d body => simpa using hlast
        · exact Or.inr hends

theorem sectionText_append {body rest : Text} (hfree : '[' ∉ body) (h : EndsAt body rest) :
    sectionText (body ++ rest) = body := by
  unfold sectionText
  rw [afterSection_append hfree h, List.length_append, Nat.add_sub_cancel, List.take_left]

/-- A block is a stripped text without a bracket. -/
theorem PrefBlock.plain (b : PrefBlock) : '[' ∉ b.text ∧ strip b.text = b.text := by
  obtain ⟨parts, _, htext⟩ := Option.map_eq_some_iff.mp b.extracted
  obtain ⟨body, hbody, hfree, hends⟩ := exists_section parts.2
  rw [hbody, sectionText_append hfree hends] at htext
  rw [← htext]
  exact ⟨fun hmem => hfree (strip_subset hmem), strip_strip body⟩

/-- And any such text is one. -/
theorem extractPrefSection_block {text : Text} (hfree : '[' ∉ text) (hstrip : strip text = text) :
    extractPrefSection (preferencesMarker ++ text) = some text := by
  have hends : EndsAt text [] := by
    refine Or.inl ⟨rfl, fun hlast => ?_⟩
    have hspace := (trimmed_strip text).last '\n' (by rw [hstrip]; exact hlast)
    exact absurd hspace (by decide)
  have hbody := sectionText_append hfree hends
  rw [List.append_nil] at hbody
  unfold extractPrefSection
  rw [splitAtMarker_marker, Option.map_some, hbody, hstrip]

/-! ## An edited section -/

variable {groupNumber : Text → Option Nat} {b a x prefBlock : Text}

theorem replacePref_mark (hb : ¬ preferencesMarker <:+: b) (a prefBlock : Text) :
    replacePref groupNumber (b ++ (preferencesMarker ++ a)) prefBlock =
      (expandTemplate groupNumber (preferencesMarker ++ sectionText a) prefBlock).map fun expanded =>
        b ++ (preferencesMarker ++ '\n' :: (expanded ++ afterSection a)) := by
  have hplain : '\\' ∉ preferencesMarker ++ "\n".toList := by decide
  unfold replacePref replaceOrAppendPref
  rw [splitAtMarker_append hb]
  dsimp only
  rw [expandTemplate_append hplain, Option.map_map]
  congr 1
  funext expanded
  simp

theorem splitLines_break (x : Text) : splitLines ('\n' :: x) = [] :: splitLines x :=
  splitLines_append [] x

theorem sectionsOf_mark (hb : ¬ preferencesMarker <:+: b) (x : Text) :
    sectionsOf (b ++ (preferencesMarker ++ '\n' :: x)) =
      if startsLine b then
        some
          { before := splitLines b
            body := strip (joinLines ((splitLines x).takeWhile fun l => !isHeader l))
            after := (splitLines x).dropWhile fun l => !isHeader l }
      else none := by
  unfold sectionsOf
  rw [splitAtMarker_append hb]
  dsimp only
  rw [splitLines_break, List.tail_cons, List.take_succ_cons, List.take_zero, List.singleton_append]
  congr 2
  cases (splitLines x).takeWhile fun l => !isHeader l with
  | nil => rfl
  | cons l lines =>
    rw [joinLines_cons_cons, List.nil_append, strip_cons_space (by decide)]

theorem otherLines_mark (hb : ¬ preferencesMarker <:+: b) (hstart : startsLine b) (a : Text) :
    otherLines (b ++ (preferencesMarker ++ a)) =
      nonBlank (splitLines b) ++ nonBlank ((splitLines a).tail.dropWhile fun l => !isHeader l) := by
  unfold otherLines sectionsOf
  rw [splitAtMarker_append hb]
  dsimp only
  rw [if_pos hstart]
  exact List.filter_append ..

/-! ## The body -/

theorem takeWhile_free {t : Text} (hfree : '[' ∉ t) (rest : Text) :
    ((t ++ rest).takeWhile fun c => c ≠ '[') = t ++ rest.takeWhile fun c => c ≠ '[' := by
  refine List.takeWhile_append_of_pos fun c hc => ?_
  simp only [ne_eq, decide_not, Bool.not_eq_true', decide_eq_false_iff_not]
  rintro rfl
  exact hfree hc

theorem takeWhile_bracket {t : Text} (h : t.head? = some '[') :
    (t.takeWhile fun c => c ≠ '[') = [] := by
  cases t with
  | nil => rfl
  | cons c t =>
    obtain rfl : c = '[' := by simpa using h
    exact List.takeWhile_cons_of_neg (by simp)

/-- A text is the lines before its first header and what comes from there on. -/
theorem bodyLines_cases (x : Text) :
    x = joinLines ((splitLines x).takeWhile fun l => !isHeader l) ∨
      ((splitLines x).takeWhile fun l => !isHeader l) = [] ∧ x.head? = some '[' ∨
      ∃ y, x = joinLines ((splitLines x).takeWhile fun l => !isHeader l) ++ '\n' :: y ∧
        y.head? = some '[' := by
  have hsplit := List.takeWhile_append_dropWhile (p := fun l => !isHeader l) (l := splitLines x)
  have hx := joinLines_splitLines x
  cases hafter : (splitLines x).dropWhile fun l => !isHeader l with
  | nil =>
    left
    rw [hafter, List.append_nil] at hsplit
    rw [hsplit, hx]
  | cons header lines =>
    right
    have hheader : header.head? = some '[' := by
      have hnot := List.head?_dropWhile_not (fun l => !isHeader l) (splitLines x)
      rw [hafter] at hnot
      simpa [isHeader] using hnot
    have hhead : (joinLines (header :: lines)).head? = some '[' := by
      cases lines with
      | nil => simpa [joinLines] using hheader
      | cons l lines => rw [joinLines_cons_cons, List.head?_append, hheader]; rfl
    rw [hafter] at hsplit
    by_cases hnil : ((splitLines x).takeWhile fun l => !isHeader l) = []
    · refine Or.inl ⟨hnil, ?_⟩
      rw [hnil, List.nil_append] at hsplit
      rw [← hx, ← hsplit]
      exact hhead
    · refine Or.inr ⟨joinLines (header :: lines), ?_, hhead⟩
      rw [← joinLines_append hnil (by simp), hsplit, hx]

/-- The body, when it has no bracket, is the text before the first. -/
theorem strip_bodyLines
    (hfree : '[' ∉ joinLines ((splitLines x).takeWhile fun l => !isHeader l)) :
    strip (joinLines ((splitLines x).takeWhile fun l => !isHeader l)) =
      strip (x.takeWhile fun c => c ≠ '[') := by
  rcases bodyLines_cases x with hall | ⟨hnil, hhead⟩ | ⟨y, hy, hhead⟩
  · conv_rhs => rw [hall, ← List.append_nil (joinLines _), takeWhile_free hfree]
    simp
  · rw [hnil, takeWhile_bracket hhead]
    rfl
  · conv_rhs => rw [hy, takeWhile_free hfree]
    rw [List.takeWhile_cons_of_pos (by decide), takeWhile_bracket hhead,
      strip_append_space (by decide)]

/-- A header that follows a block at once is no header any more. -/
theorem bracket_mem_bodyLines {rest : Text} (hfree : '[' ∉ prefBlock)
    (hstrip : strip prefBlock = prefBlock) (hne : prefBlock ≠ []) (hrest : rest.head? = some '[') :
    '[' ∈ joinLines ((splitLines (prefBlock ++ rest)).takeWhile fun l => !isHeader l) := by
  by_contra hno
  rcases bodyLines_cases (prefBlock ++ rest) with hall | ⟨_, hhead⟩ | ⟨y, hy, hhead⟩
  · rw [← hall] at hno
    exact hno (List.mem_append_right _ (List.mem_of_mem_head? hrest))
  · rw [List.head?_append_of_ne_nil _ hne] at hhead
    exact hfree (List.mem_of_mem_head? hhead)
  · have htake := takeWhile_free hfree rest
    rw [takeWhile_bracket hrest, List.append_nil, hy, takeWhile_free hno,
      List.takeWhile_cons_of_pos (by decide), takeWhile_bracket hhead] at htake
    have hlast := (trimmed_strip prefBlock).last '\n'
    rw [hstrip, ← htake] at hlast
    exact absurd (hlast (by simp)) (by decide)

/-- A block that is not empty does not end with a line break. -/
theorem endsAt_block (hstrip : strip prefBlock = prefBlock) (hne : prefBlock ≠ []) :
    EndsAt ('\n' :: prefBlock) [] := by
  refine Or.inl ⟨rfl, ?_⟩
  rw [List.getLast?_cons, List.getLast?_eq_some_getLast hne, Option.getD_some]
  intro heq
  have hspace := (trimmed_strip prefBlock).last '\n'
  rw [hstrip, List.getLast?_eq_some_getLast hne] at hspace
  exact absurd (hspace heq) (by decide)

theorem break_free (hfree : '[' ∉ prefBlock) : '[' ∉ '\n' :: prefBlock := by
  rw [List.mem_cons, not_or]
  exact ⟨by decide, hfree⟩

/-- A section whose body is the block has it unchanged. -/
theorem expanded_eq {whole expanded body rest : Text} (hwhole : whole.head? = some '[')
    (hfree : '[' ∉ prefBlock) (hexpand : expandTemplate groupNumber whole prefBlock = some expanded)
    (hends : EndsAt body rest)
    (hbody : strip (joinLines
      ((splitLines (expanded ++ rest)).takeWhile fun l => !isHeader l)) = prefBlock) :
    expanded = prefBlock ∧ isLiteral prefBlock := by
  have hno : '[' ∉ joinLines ((splitLines (expanded ++ rest)).takeWhile fun l => !isHeader l) :=
    fun hmem => hfree (hbody ▸ mem_strip hmem (by decide))
  rw [strip_bodyLines hno, List.takeWhile_append] at hbody
  have hlength : prefBlock.length ≤ (expanded.takeWhile fun c => c ≠ '[').length := by
    split at hbody
    next hall =>
      have hspaces : strip (expanded ++ rest.takeWhile fun c => c ≠ '[') = strip expanded := by
        rcases hends with ⟨rfl, _⟩ | rfl | hhead
        · simp
        · rw [List.takeWhile_cons_of_pos (by decide), List.takeWhile_nil,
            strip_append_space (by decide)]
        · rw [takeWhile_bracket hhead, List.append_nil]
      rw [hall, ← hbody, hspaces]
      exact strip_length_le expanded
    next =>
      rw [← hbody]
      exact strip_length_le _
  refine (expandTemplate_cases hfree hwhole hexpand).resolve_right ?_
  omega

/-! ## The other lines -/

theorem no_header {t : Text} (hfree : '[' ∉ t) : ∀ l ∈ splitLines t, isHeader l = false := by
  intro l hl
  by_contra hheader
  have hhead : l.head? = some '[' := by simpa [isHeader] using hheader
  refine hfree ?_
  rw [← joinLines_splitLines t, mem_joinLines (by decide)]
  exact ⟨l, hl, List.mem_of_mem_head? hhead⟩

theorem dropWhile_no_header {lines : List Text} (h : ∀ l ∈ lines, isHeader l = false)
    (rest : List Text) :
    ((lines ++ rest).dropWhile fun l => !isHeader l) = rest.dropWhile fun l => !isHeader l :=
  List.dropWhile_append_of_pos fun l hl => by simp [h l hl]

/-- What stands before the bracket keeps its header on a line of its own. -/
theorem otherLines_bracket {body rest : Text} (hfree : '[' ∉ body) (hrest : rest.head? = some '[') :
    nonBlank ((splitLines rest).dropWhile fun l => !isHeader l) =
        nonBlank ((splitLines (body ++ rest)).tail.dropWhile fun l => !isHeader l) ↔
      body.getLast? = some '\n' := by
  obtain ⟨f, more, hlines, hheader⟩ := splitLines_first hrest (by decide)
  obtain ⟨init, l, hbody, hlast⟩ := splitLines_last body
  have hf : isHeader f = true := by simp [isHeader, hheader]
  have hplain := no_header hfree
  rw [hbody] at hplain
  rw [splitLines_meet hbody hlines, hlines, List.dropWhile_cons_of_neg (by simp [hf])]
  -- the first line with the bracket counts when it is a line of its own
  have hcount : (nonBlank (f :: more)).length = (nonBlank more).length + 1 := by
    unfold nonBlank
    rw [List.filter_cons_of_pos, List.length_cons]
    have hmem := mem_strip (List.mem_of_mem_head? hheader) (by decide)
    simpa using List.ne_nil_of_mem hmem
  have hless : (nonBlank (more.dropWhile fun l => !isHeader l)).length ≤ (nonBlank more).length :=
    ((List.dropWhile_sublist _).filter _).length_le
  cases init with
  | nil =>
    have hbreak : body.getLast? ≠ some '\n' := by
      rcases hlast with ⟨_, _, rfl⟩ | ⟨rfl, hbreak⟩ | ⟨_, _, hbreak⟩
      · simp
      · rw [← joinLines_splitLines body, hbody] at hbreak
        exact absurd hbreak (by decide)
      · exact hbreak
    rw [List.nil_append, List.tail_cons]
    refine iff_of_false (fun heq => ?_) hbreak
    have := congrArg List.length heq
    omega
  | cons first init =>
    rw [List.cons_append, List.tail_cons, dropWhile_no_header fun l hl => hplain l (by simp [hl])]
    rcases hlast with ⟨_, hinit, _⟩ | ⟨rfl, hbreak⟩ | ⟨hne, _, hbreak⟩
    · exact absurd hinit (by simp)
    · rw [List.nil_append, List.dropWhile_cons_of_neg (by simp [hf])]
      exact iff_of_true rfl hbreak
    · have hjoined : isHeader (l ++ f) = false := by
        have hl := hplain l (by simp)
        unfold isHeader at hl ⊢
        rw [List.head?_append_of_ne_nil _ hne]
        exact hl
      rw [List.dropWhile_cons_of_pos (by simp [hjoined])]
      refine iff_of_false (fun heq => ?_) hbreak
      have := congrArg List.length heq
      omega

/-! ## A sheet with preferences -/

theorem mark_head (t : Text) : (preferencesMarker ++ t).head? = some '[' := by
  rw [preferencesMarker_eq]
  rfl

theorem ready_of_edited (hb : ¬ preferencesMarker <:+: b) (hfree : '[' ∉ prefBlock)
    (hstrip : strip prefBlock = prefBlock) :
    EditsOneSection groupNumber (b ++ (preferencesMarker ++ a)) prefBlock →
      isLiteral prefBlock ∧ startsLine b ∧ Ready a prefBlock := by
  obtain ⟨body, ha, hbody, hends⟩ := exists_section a
  generalize hrest : afterSection a = rest at ha hends
  have htake : (a.takeWhile fun c => c ≠ '[') = body ++ rest.takeWhile fun c => c ≠ '[' := by
    rw [ha, takeWhile_free hbody]
  rintro ⟨result, hresult, ⟨s, hs, hsbody⟩, hothers, hagain⟩
  rw [replacePref_mark hb, hrest] at hresult
  obtain ⟨expanded, hexpand, rfl⟩ := Option.map_eq_some_iff.mp hresult
  rw [sectionsOf_mark hb] at hs
  split at hs
  next hstart =>
    obtain rfl := Option.some.inj hs
    obtain ⟨rfl, hliteral⟩ := expanded_eq (mark_head _) hfree hexpand hends hsbody
    refine ⟨hliteral, hstart, ?_⟩
    unfold Ready
    split
    next hempty =>
      subst hempty
      rcases hends with ⟨rfl, _⟩ | rfl | hhead
      · -- a second edit adds a line break
        rw [replacePref_mark hb] at hagain
        obtain ⟨expanded, _, heq⟩ := Option.map_eq_some_iff.mp hagain
        have hlength := congrArg List.length heq
        have hafter : afterSection ('\n' :: ([] ++ [])) = ['\n'] := rfl
        rw [hafter] at hlength
        simp only [List.length_append, List.length_cons, List.length_nil] at hlength
        omega
      · rw [htake]
        simp
      · rw [otherLines_mark hb hstart, otherLines_mark hb hstart, splitLines_break, List.tail_cons,
          List.nil_append, List.append_cancel_left_eq, ha] at hothers
        rw [htake, takeWhile_bracket hhead, List.append_nil]
        exact (otherLines_bracket hbody hhead).mp hothers
    next hne =>
      intro hmem
      rw [ha] at hmem
      have hmem := (List.mem_append.mp hmem).resolve_left hbody
      rcases hends with ⟨rfl, _⟩ | rfl | hhead
      · exact absurd hmem (by simp)
      · exact absurd hmem (by decide)
      · have hin := bracket_mem_bodyLines hfree hstrip hne hhead
        exact hfree (hsbody ▸ mem_strip hin (by decide))
  next => exact absurd hs (by simp)

theorem Ready.empty {body rest : Text} (h : Ready (body ++ rest) prefBlock)
    (hhead : rest.head? = some '[') : prefBlock = [] := by
  by_contra hne
  unfold Ready at h
  rw [if_neg hne] at h
  exact h (List.mem_append_right _ (List.mem_of_mem_head? hhead))

/-- The section that the edit leaves ends where the old one did. -/
theorem Ready.endsAt {body rest : Text} (h : Ready (body ++ rest) prefBlock)
    (hstrip : strip prefBlock = prefBlock) (hbody : '[' ∉ body) (hends : EndsAt body rest) :
    EndsAt ('\n' :: prefBlock) rest := by
  rcases hends with ⟨rfl, hlast⟩ | hends
  · by_cases hempty : prefBlock = []
    · unfold Ready at h
      rw [if_pos hempty, takeWhile_free hbody, List.takeWhile_nil, List.append_nil] at h
      exact absurd h hlast
    · exact endsAt_block hstrip hempty
  · exact Or.inr hends

theorem Ready.body {body rest : Text} (h : Ready (body ++ rest) prefBlock) (hfree : '[' ∉ prefBlock)
    (hstrip : strip prefBlock = prefBlock) (hends : EndsAt body rest) :
    strip (joinLines ((splitLines (prefBlock ++ rest)).takeWhile fun l => !isHeader l)) =
      prefBlock := by
  by_cases hhead : rest.head? = some '['
  · obtain ⟨f, more, hlines, hheader⟩ := splitLines_first hhead (by decide)
    rw [h.empty hhead, List.nil_append, hlines,
      List.takeWhile_cons_of_neg (by simp [isHeader, hheader])]
    rfl
  · have hplain : '[' ∉ prefBlock ++ rest := by
      rw [List.mem_append, not_or]
      exact ⟨hfree, hends.plain hhead⟩
    rw [List.takeWhile_eq_self_iff.mpr fun l hl => by simp [no_header hplain l hl],
      joinLines_splitLines]
    rcases hends with ⟨rfl, _⟩ | rfl | hhead'
    · rw [List.append_nil, hstrip]
    · rw [strip_append_space (by decide), hstrip]
    · exact absurd hhead' hhead

theorem Ready.others {body rest : Text} (h : Ready (body ++ rest) prefBlock)
    (hfree : '[' ∉ prefBlock) (hbody : '[' ∉ body) (hends : EndsAt body rest) :
    nonBlank ((splitLines (prefBlock ++ rest)).dropWhile fun l => !isHeader l) =
      nonBlank ((splitLines (body ++ rest)).tail.dropWhile fun l => !isHeader l) := by
  by_cases hhead : rest.head? = some '['
  · have hempty := h.empty hhead
    unfold Ready at h
    rw [if_pos hempty, takeWhile_free hbody, takeWhile_bracket hhead, List.append_nil] at h
    rw [hempty, List.nil_append]
    exact (otherLines_bracket hbody hhead).mpr h
  · have hnone : ∀ t : Text, '[' ∉ t → ∀ lines, lines <:+ splitLines (t ++ rest) →
        (lines.dropWhile fun l => !isHeader l) = [] := by
      intro t ht lines hlines
      have hplain : '[' ∉ t ++ rest := by
        rw [List.mem_append, not_or]
        exact ⟨ht, hends.plain hhead⟩
      rw [List.dropWhile_eq_nil_iff]
      exact fun l hl => by simp [no_header hplain l (hlines.subset hl)]
    rw [hnone prefBlock hfree _ (List.suffix_refl _), hnone body hbody _ (List.tail_suffix _)]

theorem edited_of_ready (hb : ¬ preferencesMarker <:+: b) (hfree : '[' ∉ prefBlock)
    (hstrip : strip prefBlock = prefBlock) (hliteral : isLiteral prefBlock) (hstart : startsLine b)
    (hready : Ready a prefBlock) :
    EditsOneSection groupNumber (b ++ (preferencesMarker ++ a)) prefBlock := by
  obtain ⟨body, ha, hbody, hends⟩ := exists_section a
  generalize hrest : afterSection a = rest at ha hends
  subst ha
  have hexpand : ∀ whole, expandTemplate groupNumber whole prefBlock = some prefBlock :=
    fun _ => expandTemplate_literal hliteral
  have hresult : replacePref groupNumber (b ++ (preferencesMarker ++ (body ++ rest))) prefBlock =
      some (b ++ (preferencesMarker ++ '\n' :: (prefBlock ++ rest))) := by
    rw [replacePref_mark hb, hexpand, Option.map_some, hrest]
  have hagain : replacePref groupNumber (b ++ (preferencesMarker ++ '\n' :: (prefBlock ++ rest)))
      prefBlock = some (b ++ (preferencesMarker ++ '\n' :: (prefBlock ++ rest))) := by
    have hafter : afterSection ('\n' :: (prefBlock ++ rest)) = rest :=
      afterSection_append (break_free hfree) (hready.endsAt hstrip hbody hends)
    rw [replacePref_mark hb, hexpand, Option.map_some, hafter]
  have hsections := sectionsOf_mark hb (prefBlock ++ rest)
  rw [if_pos hstart] at hsections
  refine ⟨_, hresult, ⟨_, hsections, hready.body hfree hstrip hends⟩, ?_, hagain⟩
  rw [otherLines_mark hb hstart, otherLines_mark hb hstart, splitLines_break, List.tail_cons,
    hready.others hfree hbody hends]

/-! ## A sheet without preferences -/

theorem nonBlank_blank {t : Text} (h : ∀ c ∈ t, isSpace c = true) : nonBlank (splitLines t) = [] := by
  unfold nonBlank
  rw [List.filter_eq_nil_iff]
  intro l hl
  have hblank : strip l = [] := by
    rw [strip_eq_nil]
    intro c hc
    by_cases hbreak : c = '\n'
    · rw [hbreak]
      decide
    · refine h c ?_
      rw [← joinLines_splitLines t, mem_joinLines hbreak]
      exact ⟨l, hl, hc⟩
  simp [hblank]

theorem nonBlank_append (xs ys : List Text) : nonBlank (xs ++ ys) = nonBlank xs ++ nonBlank ys :=
  List.filter_append ..

theorem nonBlank_cons {l : Text} {c : Char} (hmem : c ∈ l) (hc : isSpace c = false)
    (lines : List Text) : nonBlank (l :: lines) = l :: nonBlank lines := by
  refine List.filter_cons_of_pos ?_
  simpa using List.ne_nil_of_mem (mem_strip hmem hc)

theorem not_break {c : Char} (hc : isSpace c = false) : c ≠ '\n' := by
  rintro rfl
  exact absurd hc (by decide)

theorem nonBlank_first {t : Text} {c : Char} (h : t.head? = some c) (hc : isSpace c = false) :
    ∃ l more, nonBlank (splitLines t) = l :: more ∧ l.head? = some c := by
  obtain ⟨l, more, hlines, hl⟩ := splitLines_first h (not_break hc)
  exact ⟨l, nonBlank more, by rw [hlines, nonBlank_cons (List.mem_of_mem_head? hl) hc], hl⟩

theorem nonBlank_last {t : Text} {c : Char} (h : t.getLast? = some c) (hc : isSpace c = false) :
    ∃ init l, nonBlank (splitLines t) = init ++ [l] ∧ l.getLast? = some c := by
  obtain ⟨init, l, hlines, hlast⟩ := splitLines_last t
  have hl : l.getLast? = some c := by
    rcases hlast with ⟨_, _, rfl⟩ | ⟨_, hbreak⟩ | ⟨_, hlast, _⟩
    · exact absurd h (by simp)
    · exact absurd (Option.some.inj (h.symm.trans hbreak)) (not_break hc)
    · rw [hlast, h]
  refine ⟨nonBlank init, l, ?_, hl⟩
  rw [hlines, nonBlank_append, nonBlank_cons (List.mem_of_mem_getLast? hl) hc]
  rfl

/-- Whole lines of spaces before a text leave its lines as they are. -/
theorem nonBlank_lead {lead : Text} (hlead : ∀ c ∈ lead, isSpace c = true) (hstart : startsLine lead)
    (t : Text) : nonBlank (splitLines (lead ++ t)) = nonBlank (splitLines t) := by
  by_cases hnil : lead = []
  · rw [hnil, List.nil_append]
  · obtain ⟨c, hc⟩ := Option.ne_none_iff_exists'.mp (mt List.getLast?_eq_none_iff.mp hnil)
    obtain rfl : c = '\n' := by simpa [startsLine, hc] using hstart
    obtain ⟨init, rfl⟩ := List.getLast?_eq_some_iff.mp hc
    rw [List.append_assoc, List.singleton_append, splitLines_append, nonBlank_append,
      nonBlank_blank fun c hc => hlead c (List.mem_append_left _ hc), List.nil_append]

theorem nonBlank_trail {trail : Text} (htrail : ∀ c ∈ trail, isSpace c = true)
    (hstart : startsLine trail.reverse) (t : Text) :
    nonBlank (splitLines (t ++ trail)) = nonBlank (splitLines t) := by
  cases trail with
  | nil => rw [List.append_nil]
  | cons c trail =>
    obtain rfl : c = '\n' := by simpa [startsLine] using hstart
    rw [splitLines_append, nonBlank_append,
      nonBlank_blank fun c hc => htrail c (List.mem_cons_of_mem _ hc), List.append_nil]

/-- A space on the first line begins it. -/
theorem nonBlank_indent {lead t : Text} {c : Char} (hlead : ∀ c ∈ lead, isSpace c = true)
    (hstart : ¬ startsLine lead) (h : t.head? = some c) (hc : isSpace c = false) :
    ∃ l more, nonBlank (splitLines (lead ++ t)) = l :: more ∧ ∃ d, l.head? = some d ∧ isSpace d := by
  obtain ⟨f, more, hlines, hf⟩ := splitLines_first h (not_break hc)
  obtain ⟨init, l, hinit, hlast⟩ := splitLines_last lead
  rcases hlast with ⟨_, _, rfl⟩ | ⟨_, hbreak⟩ | ⟨hne, hlast, _⟩
  · exact absurd rfl hstart
  · exact absurd (by simp [startsLine, hbreak]) hstart
  · have hmem : ∀ d ∈ l, d ∈ lead := by
      intro d hd
      have hbreak : d ≠ '\n' := by
        rintro rfl
        exact not_mem_of_mem_splitLines (hinit ▸ List.mem_append_right init (by simp)) hd
      rw [← joinLines_splitLines lead, mem_joinLines hbreak, hinit]
      exact ⟨l, by simp, hd⟩
    have hblank : nonBlank init = [] := by
      have hall := nonBlank_blank hlead
      rw [hinit, nonBlank_append] at hall
      exact (List.append_eq_nil_iff.mp hall).1
    refine ⟨l ++ f, nonBlank more, ?_, ?_⟩
    · rw [splitLines_meet hinit hlines, nonBlank_append, hblank, List.nil_append,
        nonBlank_cons (List.mem_append_right l (List.mem_of_mem_head? hf)) hc]
    · cases l with
      | nil => exact absurd rfl hne
      | cons d l => exact ⟨d, rfl, hlead d (hmem d (List.mem_cons_self ..))⟩

/-- A space on the last line ends it. -/
theorem nonBlank_dangling {trail t : Text} {c : Char} (htrail : ∀ c ∈ trail, isSpace c = true)
    (hstart : ¬ startsLine trail.reverse) (h : t.getLast? = some c) (hc : isSpace c = false) :
    ∃ init l, nonBlank (splitLines (t ++ trail)) = init ++ [l] ∧
      ∃ d, l.getLast? = some d ∧ isSpace d := by
  cases trail with
  | nil => exact absurd rfl hstart
  | cons e trail =>
    have hbreak : e ≠ '\n' := by
      rintro rfl
      exact hstart (by simp [startsLine])
    obtain ⟨f, more, hlines, hf⟩ := splitLines_first (t := e :: trail) rfl hbreak
    obtain ⟨init, l, hinit, hlast⟩ := splitLines_last t
    have hl : l.getLast? = some c := by
      rcases hlast with ⟨_, _, rfl⟩ | ⟨_, hlast⟩ | ⟨_, hlast, _⟩
      · exact absurd h (by simp)
      · exact absurd (Option.some.inj (h.symm.trans hlast)) (not_break hc)
      · rw [hlast, h]
    have hblank : nonBlank (f :: more) = [] := by
      rw [← hlines]
      exact nonBlank_blank htrail
    have hmore : nonBlank more = [] := by
      unfold nonBlank at hblank ⊢
      rw [List.filter_eq_nil_iff] at hblank ⊢
      exact fun l hl => hblank l (List.mem_cons_of_mem _ hl)
    have hne : f ≠ [] := by
      rintro rfl
      exact absurd hf (by simp)
    have hmem : f.getLast hne ∈ e :: trail := by
      rw [← joinLines_splitLines (e :: trail), mem_joinLines, hlines]
      · exact ⟨f, List.mem_cons_self .., List.getLast_mem hne⟩
      · intro heq
        refine not_mem_of_mem_splitLines (s := e :: trail) (l := f) ?_ (heq ▸ List.getLast_mem hne)
        rw [hlines]
        exact List.mem_cons_self ..
    refine ⟨nonBlank init, l ++ f, ?_, f.getLast hne, ?_, htrail _ hmem⟩
    · rw [splitLines_meet hinit hlines, nonBlank_append,
        nonBlank_cons (List.mem_append_left f (List.mem_of_mem_getLast? hl)) hc, hmore]
    · rw [List.getLast?_append_of_ne_nil _ hne, List.getLast?_eq_some_getLast hne]

/-- A text with something in it is its stripped text between spaces. -/
theorem around_strip {t : Text} (h : strip t ≠ []) :
    t = t.takeWhile isSpace ++ (strip t ++ (t.reverse.takeWhile isSpace).reverse) := by
  have hrest : lstrip t = strip t ++ ((lstrip t).reverse.takeWhile isSpace).reverse := by
    have hsplit := congrArg List.reverse
      (List.takeWhile_append_dropWhile (p := isSpace) (l := (lstrip t).reverse))
    rw [List.reverse_append, List.reverse_reverse] at hsplit
    exact hsplit.symm
  have hsame : (lstrip t).reverse.takeWhile isSpace = t.reverse.takeWhile isSpace := by
    have ht := List.takeWhile_append_dropWhile (p := isSpace) (l := t)
    conv_rhs => rw [← ht, List.reverse_append]
    show _ = ((lstrip t).reverse ++ _).takeWhile isSpace
    rw [List.takeWhile_append, if_neg]
    intro hall
    refine h ?_
    rw [strip, rstrip, List.reverse_eq_nil_iff, List.dropWhile_eq_nil_iff]
    have hself : (lstrip t).reverse.takeWhile isSpace = (lstrip t).reverse :=
      (List.takeWhile_prefix isSpace).eq_of_length hall
    exact List.takeWhile_eq_self_iff.mp hself
  rw [hsame] at hrest
  rw [← hrest]
  exact (List.takeWhile_append_dropWhile (p := isSpace) (l := t)).symm

/-- Stripping a sheet leaves its lines when its first has no space before it and
its last none after it. -/
theorem nonBlank_strip {current : Text} (h : strip current ≠ []) :
    nonBlank (splitLines (strip current)) = nonBlank (splitLines current) ↔
      startsLine (current.takeWhile isSpace) ∧ startsLine (current.reverse.takeWhile isSpace) := by
  have hcurrent := around_strip h
  have hlead : ∀ c ∈ current.takeWhile isSpace, isSpace c = true := fun c hc =>
    List.mem_takeWhile_imp hc
  have htrail : ∀ c ∈ (current.reverse.takeWhile isSpace).reverse, isSpace c = true := fun c hc =>
    List.mem_takeWhile_imp (List.mem_reverse.mp hc)
  have hstarts : startsLine (current.reverse.takeWhile isSpace) =
      startsLine (current.reverse.takeWhile isSpace).reverse.reverse := by
    rw [List.reverse_reverse]
  rw [hstarts]
  generalize current.takeWhile isSpace = lead at *
  generalize (current.reverse.takeWhile isSpace).reverse = trail at *
  generalize hkept : strip current = kept at *
  have htrimmed : Trimmed kept := hkept ▸ trimmed_strip current
  rw [hcurrent]
  cases kept with
  | nil => exact absurd rfl h
  | cons c kept =>
    have hc : isSpace c = false := htrimmed.head c rfl
    have hlast : (c :: kept).getLast? = some ((c :: kept).getLast h) :=
      List.getLast?_eq_some_getLast h
    have hd : isSpace ((c :: kept).getLast h) = false := htrimmed.last _ hlast
    constructor
    · intro heq
      refine ⟨?_, ?_⟩
      · by_contra hno
        obtain ⟨l, more, hl, e, he, hspace⟩ :=
          nonBlank_indent hlead hno (t := c :: kept ++ trail) rfl hc
        obtain ⟨l', more', hl', hhead⟩ := nonBlank_first (t := c :: kept) rfl hc
        rw [hl, hl'] at heq
        obtain ⟨rfl, _⟩ := List.cons.inj heq
        obtain rfl := Option.some.inj (hhead.symm.trans he)
        exact absurd hspace (by simp [hc])
      · by_contra hno
        have hlast' : (lead ++ c :: kept).getLast? = some ((c :: kept).getLast h) := by
          rw [List.getLast?_append_of_ne_nil _ h, hlast]
        obtain ⟨init, l, hl, e, he, hspace⟩ := nonBlank_dangling htrail hno hlast' hd
        obtain ⟨init', l', hl', htail⟩ := nonBlank_last hlast hd
        rw [← List.append_assoc, hl, hl'] at heq
        obtain ⟨_, heq⟩ := List.append_inj' heq rfl
        obtain rfl := (List.cons.inj heq).1
        obtain rfl := Option.some.inj (htail.symm.trans he)
        exact absurd hspace (by simp [hd])
    · rintro ⟨hstart, hend⟩
      rw [nonBlank_lead hlead hstart, nonBlank_trail htrail hend]

theorem strip_within (t : Text) : strip t <:+: t := by
  have hprefix : strip t <+: lstrip t := by
    have hsuffix := List.dropWhile_suffix isSpace (l := (lstrip t).reverse)
    simpa [strip, rstrip] using List.reverse_prefix.mpr hsuffix
  exact hprefix.isInfix.trans (List.dropWhile_suffix isSpace).isInfix

/-- What is put before a new section: the stripped sheet and a blank line. -/
theorem replacePref_none (groupNumber : Text → Option Nat) {current : Text}
    (h : splitAtMarker current = none) (prefBlock : Text) :
    ∃ before, replacePref groupNumber current prefBlock =
        some (before ++ (preferencesMarker ++ '\n' :: prefBlock)) ∧
      ¬ preferencesMarker <:+: before ∧ startsLine before ∧
      nonBlank (splitLines before) = nonBlank (splitLines (strip current)) := by
  unfold replacePref replaceOrAppendPref
  rw [h]
  dsimp only
  by_cases hnil : strip current = []
  · refine ⟨[], ?_, ?_, rfl, by rw [hnil]⟩
    · rw [if_pos (by simp [hnil])]
      simp
    · rw [List.infix_nil]
      exact preferencesMarker_ne_nil
  · refine ⟨strip current ++ "\n\n".toList, ?_, ?_, ?_, ?_⟩
    · rw [if_neg (by simp [hnil])]
      simp
    · intro hinfix
      rcases infix_of_break (x := strip current) (y := ['\n']) hinfix with hin | hin
      · exact splitAtMarker_none h (hin.trans (strip_within current))
      · rcases infix_of_break (x := []) (y := []) hin with hin | hin
        · rw [List.infix_nil] at hin
          exact absurd hin preferencesMarker_ne_nil
        · rw [List.infix_nil] at hin
          exact absurd hin preferencesMarker_ne_nil
    · unfold startsLine
      rw [List.getLast?_append_of_ne_nil _ (by decide)]
      rfl
    · have hbreak : isSpace '\n' = true := by decide
      exact nonBlank_trail (by simp [hbreak]) (by decide) _

/-- A second edit of a section at the end of the sheet changes nothing when the block
is not empty and no template. -/
theorem again_iff (hb : ¬ preferencesMarker <:+: b) (hfree : '[' ∉ prefBlock)
    (hstrip : strip prefBlock = prefBlock) :
    replacePref groupNumber (b ++ (preferencesMarker ++ '\n' :: prefBlock)) prefBlock =
        some (b ++ (preferencesMarker ++ '\n' :: prefBlock)) ↔
      isLiteral prefBlock ∧ prefBlock ≠ [] := by
  rw [replacePref_mark hb]
  by_cases hempty : prefBlock = []
  · subst hempty
    refine iff_of_false ?_ (by simp)
    intro h
    obtain ⟨expanded, _, heq⟩ := Option.map_eq_some_iff.mp h
    have hlength := congrArg List.length heq
    have hafter : afterSection ['\n'] = ['\n'] := rfl
    rw [hafter] at hlength
    simp only [List.length_append, List.length_cons, List.length_nil] at hlength
    omega
  · have hafter : afterSection ('\n' :: prefBlock) = [] := by
      have := afterSection_append (break_free hfree) (endsAt_block hstrip hempty)
      rwa [List.append_nil] at this
    rw [hafter]
    constructor
    · intro h
      obtain ⟨expanded, hexpand, heq⟩ := Option.map_eq_some_iff.mp h
      obtain rfl : expanded = prefBlock := by simpa using heq
      refine ⟨?_, hempty⟩
      rcases expandTemplate_cases hfree (mark_head _) hexpand with ⟨_, hliteral⟩ | hshort
      · exact hliteral
      · have htake := takeWhile_free hfree []
        rw [List.append_nil, List.takeWhile_nil, List.append_nil] at htake
        rw [htake] at hshort
        omega
    · rintro ⟨hliteral, _⟩
      rw [expandTemplate_literal hliteral, Option.map_some, List.append_nil]

theorem editsOneSection_none {current : Text} (h : splitAtMarker current = none)
    (hfree : '[' ∉ prefBlock) (hstrip : strip prefBlock = prefBlock) :
    EditsOneSection groupNumber current prefBlock ↔
      isLiteral prefBlock ∧ prefBlock ≠ [] ∧
        (strip current ≠ [] →
          startsLine (current.takeWhile isSpace) ∧
            startsLine (current.reverse.takeWhile isSpace)) := by
  obtain ⟨before, hresult, hfresh, hstart, hlines⟩ :=
    replacePref_none groupNumber h prefBlock
  have hsections := sectionsOf_mark hfresh prefBlock
  have hall : ((splitLines prefBlock).takeWhile fun l => !isHeader l) = splitLines prefBlock :=
    List.takeWhile_eq_self_iff.mpr fun l hl => by simp [no_header hfree l hl]
  have hnone : ((splitLines prefBlock).dropWhile fun l => !isHeader l) = [] :=
    List.dropWhile_eq_nil_iff.mpr fun l hl => by simp [no_header hfree l hl]
  rw [if_pos hstart, hall, hnone, joinLines_splitLines, hstrip] at hsections
  have hold : otherLines current = nonBlank (splitLines current) := by
    unfold otherLines sectionsOf
    rw [h]
  have hnew : otherLines (before ++ (preferencesMarker ++ '\n' :: prefBlock)) =
      nonBlank (splitLines (strip current)) := by
    rw [otherLines_mark hfresh hstart, splitLines_break, List.tail_cons, hnone, hlines]
    exact List.append_nil _
  have hsame : otherLines (before ++ (preferencesMarker ++ '\n' :: prefBlock)) = otherLines current ↔
      (strip current ≠ [] → startsLine (current.takeWhile isSpace) ∧
        startsLine (current.reverse.takeWhile isSpace)) := by
    rw [hold, hnew]
    by_cases hblank : strip current = []
    · rw [hblank, nonBlank_blank (strip_eq_nil.mp hblank)]
      exact iff_of_true rfl fun hne => absurd rfl hne
    · rw [nonBlank_strip hblank]
      exact ⟨fun hboth _ => hboth, fun hboth => hboth hblank⟩
  constructor
  · rintro ⟨result, hreplace, hedited⟩
    obtain rfl := Option.some.inj (hresult.symm.trans hreplace)
    obtain ⟨hliteral, hne⟩ := (again_iff hfresh hfree hstrip).mp hedited.again
    exact ⟨hliteral, hne, hsame.mp hedited.others⟩
  · rintro ⟨hliteral, hne, hedges⟩
    refine ⟨_, hresult, ⟨_, hsections, rfl⟩, hsame.mpr hedges, ?_⟩
    exact (again_iff hfresh hfree hstrip).mpr ⟨hliteral, hne⟩

/-! ## The edit -/

/-- The edit is of one section exactly when the block has no escape and comes last. -/
theorem editsOneSection_iff (groupNumber : Text → Option Nat) (current : Text)
    (prefBlock : PrefBlock) :
    EditsOneSection groupNumber current prefBlock.text ↔ Editable current prefBlock.text := by
  obtain ⟨hfree, hstrip⟩ := prefBlock.plain
  unfold Editable
  cases h : splitAtMarker current with
  | none => exact editsOneSection_none h hfree hstrip
  | some parts =>
    obtain ⟨before, after⟩ := parts
    obtain ⟨rfl, hfresh⟩ := splitAtMarker_some h
    constructor
    · exact ready_of_edited hfresh hfree hstrip
    · rintro ⟨hliteral, hstart, hready⟩
      exact edited_of_ready hfresh hfree hstrip hliteral hstart hready

/-- A sheet with a section after its preferences. -/
def stackedSheet : Text := "[PREFERENCES]\nold\n[STACK]\ntea".toList

/-- The block of an answer with one preference. -/
def newPreference : PrefBlock where
  text := "new".toList
  answer := preferencesMarker ++ "new".toList
  extracted := extractPrefSection_block (by decide) (by decide)

theorem stackedSheet_merged :
    ¬ ∀ (groupNumber : Text → Option Nat) (current : Text) (prefBlock : PrefBlock),
      EditsOneSection groupNumber current prefBlock.text := by
  intro h
  obtain ⟨result, hresult, hedited⟩ := h (fun _ => none) stackedSheet newPreference
  have hmark : splitAtMarker stackedSheet = some ([], "\nold\n[STACK]\ntea".toList) := by decide
  obtain ⟨hsheet, hfresh⟩ := splitAtMarker_some hmark
  rw [hsheet, replacePref_mark hfresh, show newPreference.text = "new".toList from rfl,
    expandTemplate_literal (by decide)] at hresult
  obtain rfl := Option.some.inj hresult
  obtain ⟨s, hs, hbody⟩ := hedited.body
  rw [show sectionsOf _ = some
    { before := [[]], body := "new[STACK]\ntea".toList, after := [] } by decide] at hs
  obtain rfl := Option.some.inj hs
  exact absurd hbody (by decide)

end Eidetic.Memory
