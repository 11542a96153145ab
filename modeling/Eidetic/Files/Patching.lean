import Eidetic.Files.Atomicity
import Eidetic.Lib.Splice
import Eidetic.Py.Words

/-!
# A patch is a splice

`_fuzzy_replace` finds a place and puts the new text there. The place is found
in a copy with other line ends in the second try, where it may be another place
of the content. `patch_content` reads the file as text and writes all of it, so
what is outside the place is kept only where reading and writing keep it.

The first part is about texts. Two texts are `Alike` when they differ in line
ends and in whitespace around them only; a part that one of the tries finds is
like the old text. `fuzzySplices_iff` says when the replacement is a splice: the
index is that of the place in the content itself, which fails only in the second
try, where every `\r\n` before the place moves it by one (`crLf_moves`).

The second part is about bytes. A patch reads the file, replaces in the text,
and writes the whole of it again, so what is outside the place stays as it was
only where reading and writing keep it (`KeptOutside`), as in a file that is the
encoding of a text without `\r` (`keptOutside_utf8`). The library's `Replaces`
with a marker says what a splice is without naming the index: whatever text is
put in, it stands between the same two ends. That is why the result is for every
new text at once.
-/

namespace Eidetic.Files

open Eidetic.Lib Eidetic.Py
open Eidetic.Stream (indexOf)

/-! ## Texts that are alike -/

/-- The same but for line ends and whitespace around. -/
def Alike (region old : Text) : Prop :=
  strip (universalNewlines region) = strip (universalNewlines old)

theorem universalNewlines_crlf (t : Text) :
    universalNewlines ('\r' :: '\n' :: t) = '\n' :: universalNewlines t := by
  rw [universalNewlines]

theorem universalNewlines_cons {c : Char} {t : Text} (h : c = '\r' → t.head? ≠ some '\n') :
    universalNewlines (c :: t) = (if c = '\r' then '\n' else c) :: universalNewlines t := by
  rw [universalNewlines]
  rintro rest hc rfl
  exact h hc rfl

/-- A line end may go on from one text to the next. -/
theorem universalNewlines_append (a : Text) {b : Text} (hb : '\r' ∉ b) :
    universalNewlines (a ++ b) = universalNewlines a ++ b ∨
      ∃ m, universalNewlines a = m ++ ['\n'] ∧ universalNewlines (a ++ b) = m ++ b := by
  have hplain : universalNewlines b = b := universalNewlines_of_not_mem hb
  fun_induction universalNewlines a with
  | case1 => exact Or.inl hplain
  | case2 rest ih =>
    rw [List.cons_append, List.cons_append, universalNewlines_crlf]
    rcases ih with heq | ⟨m, hm, heq⟩
    · exact Or.inl (by rw [heq]; rfl)
    · exact Or.inr ⟨'\n' :: m, by rw [hm]; rfl, by rw [heq]; rfl⟩
  | case3 c rest hno ih =>
    by_cases hmeet : c = '\r' ∧ rest = [] ∧ b.head? = some '\n'
    · obtain ⟨rfl, rfl, hhead⟩ := hmeet
      cases b with
      | nil => exact absurd hhead (by simp)
      | cons d b =>
        obtain rfl := Option.some.inj hhead
        rw [List.mem_cons, not_or] at hb
        refine Or.inr ⟨[], by simp [universalNewlines], ?_⟩
        rw [List.singleton_append, universalNewlines_crlf, universalNewlines_of_not_mem hb.2]
        rfl
    · have hstep : universalNewlines (c :: (rest ++ b))
          = (if c = '\r' then '\n' else c) :: universalNewlines (rest ++ b) := by
        refine universalNewlines_cons fun hc hhead => ?_
        cases rest with
        | nil => exact hmeet ⟨hc, rfl, hhead⟩
        | cons d rest => exact hno rest hc (congrArg (· :: rest) (Option.some.inj hhead))
      rw [List.cons_append, hstep]
      rcases ih with heq | ⟨m, hm, heq⟩
      · exact Or.inl (by rw [heq]; rfl)
      · exact Or.inr ⟨_ :: m, by rw [hm]; rfl, by rw [heq]; rfl⟩

/-- A text without `\r` before is read as it is. -/
theorem universalNewlines_plain_append {a : Text} (ha : '\r' ∉ a) (b : Text) :
    universalNewlines (a ++ b) = a ++ universalNewlines b := by
  induction a with
  | nil => rfl
  | cons c a ih =>
    rw [List.mem_cons, not_or] at ha
    rw [List.cons_append, universalNewlines_cons fun hc => absurd hc.symm ha.1,
      if_neg fun hc => ha.1 hc.symm, ih ha.2]
    rfl

theorem universalNewlines_append_cr (t : Text) :
    universalNewlines (t ++ ['\r']) = universalNewlines t ++ ['\n'] := by
  fun_induction universalNewlines t with
  | case1 => simp [universalNewlines]
  | case2 rest ih =>
    rw [List.cons_append, List.cons_append, universalNewlines_crlf, ih]
    rfl
  | case3 c rest hno ih =>
    rw [List.cons_append, universalNewlines_cons, ih]
    · rfl
    · intro hc hhead
      cases rest with
      | nil => exact absurd hhead (by simp)
      | cons d rest => exact hno rest hc (congrArg (· :: rest) (Option.some.inj hhead))

/-! ## Whitespace around -/

theorem isSpace_newline : isSpace '\n' = true := by decide

theorem strip_newlines_cons {c : Char} (hc : isSpace c = true) (t : Text) :
    strip (universalNewlines (c :: t)) = strip (universalNewlines t) := by
  by_cases hcrlf : c = '\r' ∧ t.head? = some '\n'
  · obtain ⟨rfl, hhead⟩ := hcrlf
    cases t with
    | nil => exact absurd hhead (by simp)
    | cons d t =>
      obtain rfl := Option.some.inj hhead
      rw [universalNewlines_crlf, universalNewlines_cons fun h => absurd h (by decide)]
      rfl
  · rw [universalNewlines_cons fun h hhead => hcrlf ⟨h, hhead⟩, strip_cons_space]
    split
    next => exact isSpace_newline
    next => exact hc

theorem strip_newlines_concat {c : Char} (hc : isSpace c = true) (t : Text) :
    strip (universalNewlines (t ++ [c])) = strip (universalNewlines t) := by
  by_cases hcr : c = '\r'
  · rw [hcr, universalNewlines_append_cr, strip_append_space isSpace_newline]
  · have hplain : '\r' ∉ [c] := fun h => hcr (List.mem_singleton.mp h).symm
    rcases universalNewlines_append t hplain with heq | ⟨m, hm, heq⟩
    · rw [heq, strip_append_space hc]
    · rw [heq, hm, strip_append_space hc, strip_append_space isSpace_newline]

/-- Whitespace around a text may be there or not. -/
theorem alike_strip (old : Text) : Alike (strip old) old := by
  have hl : ∀ before t : Text, (∀ c ∈ before, isSpace c = true) →
      strip (universalNewlines (before ++ t)) = strip (universalNewlines t) := by
    intro before t hbefore
    induction before with
    | nil => rfl
    | cons c before ih =>
      rw [List.cons_append, strip_newlines_cons (hbefore c (List.mem_cons_self ..))]
      exact ih fun d hd => hbefore d (List.mem_cons_of_mem _ hd)
  have hr : ∀ after t : Text, (∀ c ∈ after, isSpace c = true) →
      strip (universalNewlines (t ++ after)) = strip (universalNewlines t) := by
    intro after t hafter
    induction after generalizing t with
    | nil => rw [List.append_nil]
    | cons c after ih =>
      have hmore := ih (t ++ [c]) fun d hd => hafter d (List.mem_cons_of_mem _ hd)
      rw [List.append_assoc, List.singleton_append] at hmore
      rw [hmore, strip_newlines_concat (hafter c (List.mem_cons_self ..))]
  obtain ⟨before, after, hbefore, hafter, heq⟩ := strip_split old
  unfold Alike
  conv_rhs => rw [heq]
  rw [hr after _ hafter, hl before _ hbefore]

/-! ## Where the new text goes -/

theorem joinCrLf_of_not_mem {t : Text} (h : '\r' ∉ t) : joinCrLf t = t := by
  induction t with
  | nil => rfl
  | cons c t ih =>
    rw [List.mem_cons, not_or] at h
    rw [joinCrLf, ih h.2]
    rintro rest rfl _
    exact h.1 rfl

/-- When all `\r` go, they were in front of a `\n`. -/
theorem universalNewlines_of_joinCrLf {t : Text} (h : '\r' ∉ joinCrLf t) :
    universalNewlines t = joinCrLf t := by
  fun_induction joinCrLf t with
  | case1 => rfl
  | case2 rest ih =>
    rw [List.mem_cons, not_or] at h
    rw [universalNewlines_crlf, ih h.2]
  | case3 c rest hno ih =>
    rw [List.mem_cons, not_or] at h
    rw [universalNewlines_cons fun hc => absurd hc.symm h.1, if_neg fun hc => h.1 hc.symm, ih h.2]

theorem indexOf_slice {needle s : Text} {idx : Nat} (h : indexOf needle s = some idx) :
    slice s idx (idx + needle.length) = needle := by
  unfold indexOf at h
  obtain ⟨hlt, hstart, -⟩ := List.findIdx?_eq_some_iff_getElem.mp h
  rw [List.getElem_tails, startsWith_iff] at hstart
  obtain ⟨rest, hrest⟩ := hstart
  rw [slice, List.drop_take, ← hrest, Nat.add_sub_cancel_left, List.take_left]

theorem take_slice_drop (s : Text) (idx n : Nat) :
    s.take idx ++ slice s idx (idx + n) ++ s.drop (idx + n) = s := by
  rw [slice, List.drop_take, Nat.add_sub_cancel_left, List.append_assoc, ← List.drop_drop,
    List.take_append_drop, List.take_append_drop]

/-- Where `_fuzzy_replace` cuts, and how much. -/
def place (content old : Text) : Option (Nat × Nat) :=
  match indexOf old content with
  | some idx => some (idx, old.length)
  | none =>
    match indexOf (joinCrLf old) (joinCrLf content) with
    | some idx => some (idx, (joinCrLf old).length)
    | none =>
      if (strip old).isEmpty then none
      else (indexOf (strip old) content).map fun idx => (idx, (strip old).length)

theorem fuzzyReplace_eq (content old new : Text) :
    fuzzyReplace content old new
      = (place content old).map fun p => splice content p.1 p.2 new := by
  unfold fuzzyReplace place
  cases indexOf old content with
  | some idx => rfl
  | none =>
    dsimp only
    cases indexOf (joinCrLf old) (joinCrLf content) with
    | some idx => rfl
    | none =>
      dsimp only
      split
      next => rfl
      next => rw [Option.map_map]; rfl

/-- Where the old text is only in the copy with other line ends, it is at the
same index in the content. -/
def Lands (content old : Text) : Prop :=
  ∀ idx, indexOf old content = none → indexOf (joinCrLf old) (joinCrLf content) = some idx →
    Alike (slice content idx (idx + (joinCrLf old).length)) old

/-- The first and the last try find the old text. -/
theorem alike_place_iff {content old : Text} {p : Nat × Nat} (h : place content old = some p) :
    Alike (slice content p.1 (p.1 + p.2)) old ↔ Lands content old := by
  unfold place at h
  unfold Lands
  cases hexact : indexOf old content with
  | some idx =>
    rw [hexact] at h
    obtain rfl := Option.some.inj h
    refine iff_of_true ?_ fun _ hnone => absurd hnone (by simp)
    show Alike (slice content idx (idx + old.length)) old
    rw [indexOf_slice hexact]
    exact rfl
  | none =>
    rw [hexact] at h
    dsimp only at h
    cases hjoined : indexOf (joinCrLf old) (joinCrLf content) with
    | some idx =>
      rw [hjoined] at h
      obtain rfl := Option.some.inj h
      constructor
      · intro halike i _ hi
        obtain rfl := Option.some.inj hi
        exact halike
      · exact fun hlands => hlands idx rfl rfl
    | none =>
      rw [hjoined] at h
      dsimp only at h
      split at h
      next => exact absurd h (by simp)
      next =>
        obtain ⟨idx, hidx, rfl⟩ := Option.map_eq_some_iff.mp h
        refine iff_of_true ?_ fun _ _ hsome => absurd hsome (by simp)
        show Alike (slice content idx (idx + (strip old).length)) old
        rw [indexOf_slice hidx]
        exact alike_strip old

theorem lands_of_place_none {content old : Text} (h : place content old = none) :
    Lands content old := by
  unfold place at h
  intro idx hexact hjoined
  rw [hexact, hjoined] at h
  exact absurd h (by simp)

/-- In a text without `\r` the indices are the same. -/
theorem lands_of_not_mem {content : Text} (h : '\r' ∉ content) (old : Text) :
    Lands content old := by
  intro idx _ hjoined
  rw [joinCrLf_of_not_mem h] at hjoined
  have hslice := indexOf_slice hjoined
  have hplain : '\r' ∉ joinCrLf old := by
    rw [← hslice]
    exact fun hmem => h (List.mem_of_mem_take (List.mem_of_mem_drop hmem))
  unfold Alike
  rw [hslice, universalNewlines_of_not_mem hplain, universalNewlines_of_joinCrLf hplain]

/-! ## The splice -/

/-- What `_fuzzy_replace` returns. -/
def fuzzyReplacePair (content old new : Text) : Text × Bool :=
  match fuzzyReplace content old new with
  | some updated => (updated, true)
  | none => (content, false)

/-- One part of the content gives way to the new text, and it was like the old
one; or nothing does. -/
structure FuzzySplices (content old new : Text) : Prop where
  found : (fuzzyReplacePair content old new).2 = true →
    ∃ region, Alike region old ∧ Replaces content region new (fuzzyReplacePair content old new).1
  missed : (fuzzyReplacePair content old new).2 = false →
    (fuzzyReplacePair content old new).1 = content

/-- The result reports success. -/
def Outcome.Patched (o : Outcome) : Prop := startsWith o.result "Patched".toList = true

/-- The same for the bytes of a file. -/
def PatchSplices (userId : Nat) (old new : Text) (faults : Faults) (s : FileState) : Prop :=
  (patchContent userId old new faults s).Patched →
    ∃ region, Alike region old ∧
      Replaces s.disk (utf8 region) (utf8 new) (patchContent userId old new faults s).state.disk

theorem replaces_splice (content : Text) (p : Nat × Nat) (new : Text) :
    Replaces content (slice content p.1 (p.1 + p.2)) new (splice content p.1 p.2 new) :=
  ⟨_, _, (take_slice_drop content p.1 p.2).symm, rfl⟩

theorem fuzzySplices_iff (content old : Text) :
    (∀ new, FuzzySplices content old new) ↔ Lands content old := by
  cases hplace : place content old with
  | none =>
    refine iff_of_true (fun new => ?_) (lands_of_place_none hplace)
    have hpair : fuzzyReplacePair content old new = (content, false) := by
      rw [fuzzyReplacePair, fuzzyReplace_eq, hplace]
      rfl
    constructor
    · rw [hpair]
      exact fun h => absurd h (by simp)
    · rw [hpair]
      exact fun _ => rfl
  | some p =>
    have hpair : ∀ new, fuzzyReplacePair content old new = (splice content p.1 p.2 new, true) := by
      intro new
      rw [fuzzyReplacePair, fuzzyReplace_eq, hplace]
      rfl
    rw [← alike_place_iff hplace]
    constructor
    · intro h
      -- a text that shows where it is put
      have hlen : (content.take p.1).length + (content.drop (p.1 + p.2)).length
          < 2 * content.length + 1 := by
        rw [List.length_take, List.length_drop]
        omega
      have hfound := (h (marker 'a' 'b' (2 * content.length + 1))).found
      rw [hpair] at hfound
      obtain ⟨region, halike, hreplaces⟩ := hfound rfl
      have hcontent := (replaces_marker_iff (by decide) hlen).mp hreplaces
      have hsame := (take_slice_drop content p.1 p.2).trans hcontent
      rw [List.append_cancel_left (List.append_cancel_right hsame)]
      exact halike
    · intro halike new
      constructor
      · rw [hpair]
        exact fun _ => ⟨_, halike, replaces_splice content p new⟩
      · rw [hpair]
        exact fun h => absurd h (by simp)

/-- Outside the place of the old text, the file is what is written of it again. -/
def KeptOutside (disk : List UInt8) (old : Text) : Prop :=
  ∀ p, place (readText disk) old = some p →
    ∃ region, disk = utf8 ((readText disk).take p.1 ++ region ++ (readText disk).drop (p.1 + p.2))

theorem utf8_append (a b : Text) : utf8 (a ++ b) = utf8 a ++ utf8 b := List.flatMap_append

theorem utf8_marker (n : Nat) : utf8 (marker 'a' 'b' n) = marker 0x61 0x62 n := by
  have hrun : utf8 (List.replicate n 'a') = List.replicate n 0x61 := by
    induction n with
    | zero => rfl
    | succ n ih =>
      rw [List.replicate_succ, List.replicate_succ, ← ih]
      rfl
  rw [marker, marker, utf8_append, hrun]
  rfl

/-- What is read between two texts without `\r` is like what is there. -/
theorem strip_between {before after region found : Text} (hbefore : '\r' ∉ before)
    (hafter : '\r' ∉ after)
    (h : universalNewlines (before ++ region ++ after) = before ++ found ++ after) :
    strip (universalNewlines region) = strip found := by
  rw [List.append_assoc, universalNewlines_plain_append hbefore, List.append_assoc] at h
  have hrest := List.append_cancel_left h
  rcases universalNewlines_append region hafter with heq | ⟨m, hm, heq⟩
  · rw [List.append_cancel_right (heq.symm.trans hrest)]
  · rw [hm, List.append_cancel_right (heq.symm.trans hrest), strip_append_space isSpace_newline]

/-- What is at the place of the old text in such a file is like it. -/
theorem alike_of_kept {disk : List UInt8} {old region : Text} {p : Nat × Nat}
    (hplace : place (readText disk) old = some p)
    (hdisk : disk = utf8 ((readText disk).take p.1 ++ region ++ (readText disk).drop (p.1 + p.2))) :
    Alike region old := by
  have hplain : '\r' ∉ readText disk := not_mem_universalNewlines _
  have hread : universalNewlines ((readText disk).take p.1 ++ region ++
      (readText disk).drop (p.1 + p.2)) = readText disk := by
    have hdecoded : readText disk = universalNewlines (decodeAll disk) := rfl
    conv_rhs => rw [hdecoded, hdisk, decodeAll_utf8]
  have hfound := (alike_place_iff hplace).mpr (lands_of_not_mem hplain old)
  have hslice : '\r' ∉ slice (readText disk) p.1 (p.1 + p.2) :=
    fun hmem => hplain (List.mem_of_mem_take (List.mem_of_mem_drop hmem))
  unfold Alike at hfound ⊢
  rw [← hfound, universalNewlines_of_not_mem hslice]
  have hsame := hread.trans (take_slice_drop (readText disk) p.1 p.2).symm
  exact strip_between (fun hmem => hplain (List.mem_of_mem_take hmem))
    (fun hmem => hplain (List.mem_of_mem_drop hmem)) hsame

/-- An edit that does not report a failure has written all of it. -/
theorem rewrite_reported {failed answer reported : Text}
    (hfailed : ∀ e, startsWith (failed ++ e) reported = false) {write : DiskWrite}
    {faults : Faults} {s : FileState}
    (h : startsWith (rewrite failed answer write faults s).result reported = true) :
    (rewrite failed answer write faults s).state.disk = write.apply s.disk := by
  have hno : ∀ e, ¬ startsWith (failed ++ e) reported = true := by
    intro e
    rw [hfailed e]
    simp
  revert h
  unfold rewrite
  cases saveVersion faults s with
  | error e => exact fun h => absurd h (hno e)
  | ok pending =>
    cases faults.openFile with
    | some e => exact fun h => absurd h (hno e)
    | none =>
      cases faults.write with
      | some cut => exact fun h => absurd h (hno cut.2)
      | none =>
        cases faults.statement with
        | some e => exact fun h => absurd h (hno e)
        | none =>
          cases faults.commit with
          | some fault =>
            cases fault with
            | rolledBack e => exact fun h => absurd h (hno e)
            | lost e => exact fun h => absurd h (hno e)
          | none => exact fun _ => rfl

/-- What is written when a patch reports success. -/
theorem patched_disk {userId : Nat} {old new : Text} {faults : Faults} {s : FileState}
    (h : (patchContent userId old new faults s).Patched) :
    ∃ p, place (readText s.disk) old = some p ∧
      (patchContent userId old new faults s).state.disk
        = utf8 (splice (readText s.disk) p.1 p.2 new) := by
  have herror : ∀ e, startsWith ("Error patching: ".toList ++ e) "Patched".toList = false := by
    intro e
    rw [startsWith_append (by decide)]
    decide
  have hno : ∀ e, ¬ startsWith ("Error patching: ".toList ++ e) "Patched".toList = true := by
    intro e
    rw [herror e]
    simp
  revert h
  unfold Outcome.Patched patchContent
  split
  next =>
    intro h
    have hdenied : startsWith (denied s).result "Patched".toList = false := by
      show startsWith "Error: file not found or access denied.".toList "Patched".toList = false
      decide
    exact absurd h (by rw [hdenied]; simp)
  next =>
    cases faults.read with
    | some e => exact fun h => absurd h (hno e)
    | none =>
      dsimp only
      cases hfound : fuzzyReplace (readText s.disk) old new with
      | none =>
        intro h
        have hmissed : startsWith
            "Error: text not found in file. Use read_file to get the exact text, then retry.".toList
            "Patched".toList = false := by decide
        exact absurd h (by dsimp only; rw [hmissed]; simp)
      | some updated =>
        intro h
        rw [fuzzyReplace_eq] at hfound
        obtain ⟨p, hplace, rfl⟩ := Option.map_eq_some_iff.mp hfound
        refine ⟨p, hplace, ?_⟩
        rw [rewrite_reported herror h, DiskWrite.apply_replace]

/-- Where nothing goes wrong, a patch that finds its place reports success. -/
theorem patched_of_place {disk : List UInt8} {old : Text} {p : Nat × Nat}
    (hplace : place (readText disk) old = some p) (new : Text) :
    (patchContent 0 old new {}
      { disk := disk, db := { file := some ⟨0, [], none, none, 0⟩ } }).Patched := by
  have hfound : fuzzyReplace (readText disk) old new
      = some (splice (readText disk) p.1 p.2 new) := by
    rw [fuzzyReplace_eq, hplace]
    rfl
  unfold Outcome.Patched patchContent
  rw [if_neg fun hdenied => hdenied _ rfl rfl]
  dsimp only
  rw [hfound]
  show startsWith ("Patched: replaced ".toList ++ _ ++ _ ++ _ ++ _) "Patched".toList = true
  rw [List.append_assoc, List.append_assoc, List.append_assoc, startsWith_append (by decide)]
  decide

theorem patchSplices_iff (disk : List UInt8) (old : Text) :
    (∀ userId new faults (s : FileState), s.disk = disk → PatchSplices userId old new faults s)
      ↔ KeptOutside disk old := by
  constructor
  · intro h p hplace
    -- a text that shows where its bytes are put
    obtain ⟨n, hn⟩ : ∃ n, (utf8 ((readText disk).take p.1)).length
        + (utf8 ((readText disk).drop (p.1 + p.2))).length < n := ⟨_, Nat.lt_succ_self _⟩
    have hpatched := patched_of_place hplace (marker 'a' 'b' n)
    obtain ⟨region, -, hreplaces⟩ := h 0 _ {} _ rfl hpatched
    obtain ⟨q, hq, hwritten⟩ := patched_disk hpatched
    obtain rfl := Option.some.inj (hplace.symm.trans hq)
    rw [hwritten, splice, utf8_append, utf8_append, utf8_marker] at hreplaces
    refine ⟨region, ?_⟩
    rw [utf8_append, utf8_append]
    exact (replaces_marker_iff (by decide) hn).mp hreplaces
  · rintro hkept userId new faults s rfl hpatched
    obtain ⟨p, hplace, hwritten⟩ := patched_disk hpatched
    obtain ⟨region, hdisk⟩ := hkept p hplace
    refine ⟨region, alike_of_kept hplace hdisk, ?_⟩
    rw [hwritten]
    refine ⟨_, _, ?_, by rw [splice, utf8_append, utf8_append]⟩
    rw [utf8_append, utf8_append] at hdisk
    exact hdisk

/-- Patching replaces one part by the new text, for every new text, where the
old one is found in the content at the index of the copy, and where the file is
outside that place what is written of it again. -/
theorem patching_splices_iff (content old : Text) (disk : List UInt8) :
    ((∀ new, FuzzySplices content old new) ∧
        ∀ userId new faults (s : FileState), s.disk = disk →
          PatchSplices userId old new faults s)
      ↔ Lands content old ∧ KeptOutside disk old :=
  and_congr (fuzzySplices_iff content old) (patchSplices_iff disk old)

/-- Each `\r\n` before the place moves it, and each in the file is rewritten. -/
theorem crLf_moves :
    (¬ ∀ new, FuzzySplices "x\r\ny\r\nz".toList "y\nz".toList new) ∧
      ¬ ∀ userId new faults (s : FileState), s.disk = [0x61, 0x0d, 0x0a, 0x62] →
        PatchSplices userId ['b'] new faults s := by
  constructor
  · intro h
    have halike := (fuzzySplices_iff _ _).mp h 2 (by decide) (by decide)
    exact absurd halike (by unfold Alike; decide)
  · intro h
    have hread : readText [0x61, 0x0d, 0x0a, 0x62] = ['a', '\n', 'b'] := by decide
    obtain ⟨region, hdisk⟩ := (patchSplices_iff _ _).mp h (2, 1) (by rw [hread]; decide)
    rw [hread] at hdisk
    have hdecoded := congrArg decodeAll hdisk
    rw [decodeAll_utf8] at hdecoded
    have hsecond := congrArg (fun t : Text => t[1]?) hdecoded
    exact absurd hsecond (by simp; decide)

/-- A file that is the encoding of a text without `\r` keeps all around the place. -/
theorem keptOutside_utf8 {t : Text} (h : '\r' ∉ t) (old : Text) : KeptOutside (utf8 t) old := by
  intro p _
  refine ⟨slice t p.1 (p.1 + p.2), ?_⟩
  rw [readText_utf8 h, take_slice_drop]

end Eidetic.Files
