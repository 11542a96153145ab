import Eidetic.Py.Spacing

/-!
# The words of a text

A text has the words of its parts when these are cut at whitespace, and its
words hold all of it but the whitespace.
-/

namespace Eidetic.Py

theorem wordsAux_append_space {c : Char} (hc : isSpace c = true) (a b acc : Text) :
    wordsAux (a ++ c :: b) acc = wordsAux a acc ++ words b := by
  induction a generalizing acc with
  | nil =>
    have hstep : wordsAux (c :: b) acc = if acc = [] then words b else acc.reverse :: words b :=
      if_pos hc
    rw [List.nil_append, hstep]
    cases acc with
    | nil => rfl
    | cons x acc => exact if_neg (by simp)
  | cons d a ih =>
    rw [List.cons_append, wordsAux, wordsAux]
    split
    next =>
      split
      next => exact ih []
      next => rw [ih [], List.cons_append]
    next => exact ih (d :: acc)

theorem words_append_space {c : Char} (hc : isSpace c = true) (a b : Text) :
    words (a ++ c :: b) = words a ++ words b :=
  wordsAux_append_space hc a b []

theorem words_spaces_append {gap : Text} (hgap : ∀ c ∈ gap, isSpace c = true) (b : Text) :
    words (gap ++ b) = words b := by
  induction gap with
  | nil => rfl
  | cons c gap ih =>
    rw [List.cons_append, ← ih fun d hd => hgap d (List.mem_cons_of_mem _ hd)]
    exact words_append_space (hgap c (List.mem_cons_self ..)) [] (gap ++ b)

/-- Whitespace between two texts keeps their words apart. -/
theorem words_append_gap {gap : Text} (hne : gap ≠ []) (hgap : ∀ c ∈ gap, isSpace c = true)
    (a b : Text) : words (a ++ gap ++ b) = words a ++ words b := by
  cases gap with
  | nil => exact absurd rfl hne
  | cons c gap =>
    rw [List.append_assoc, List.cons_append, words_append_space (hgap c (List.mem_cons_self ..)),
      words_spaces_append fun d hd => hgap d (List.mem_cons_of_mem _ hd)]

theorem words_append_spaces {gap : Text} (hgap : ∀ c ∈ gap, isSpace c = true) (a : Text) :
    words (a ++ gap) = words a := by
  by_cases hne : gap = []
  · rw [hne, List.append_nil]
  · have h := words_append_gap hne hgap a []
    rwa [List.append_nil, show words [] = [] from rfl, List.append_nil] at h

/-- `strip()` takes away whitespace. -/
theorem strip_split (t : Text) : ∃ before after : Text, (∀ c ∈ before, isSpace c = true) ∧
    (∀ c ∈ after, isSpace c = true) ∧ t = before ++ strip t ++ after := by
  refine ⟨t.takeWhile isSpace, ((lstrip t).reverse.takeWhile isSpace).reverse, ?_, ?_, ?_⟩
  · exact fun c hc => List.mem_takeWhile_imp hc
  · exact fun c hc => List.mem_takeWhile_imp (List.mem_reverse.mp hc)
  · have hr : strip t ++ ((lstrip t).reverse.takeWhile isSpace).reverse = lstrip t := by
      rw [strip, rstrip, ← List.reverse_append, List.takeWhile_append_dropWhile,
        List.reverse_reverse]
    rw [List.append_assoc, hr]
    exact List.takeWhile_append_dropWhile.symm

/-- What `strip()` takes away holds no word. -/
theorem words_strip (t : Text) : words (strip t) = words t := by
  obtain ⟨before, after, hbefore, hafter, heq⟩ := strip_split t
  conv_rhs => rw [heq]
  rw [words_append_spaces hafter, words_spaces_append hbefore]

/-- The words of a text, one after the other, are the text without its whitespace. -/
theorem flatten_words (t : Text) : (words t).flatten = t.filter fun c => !isSpace c := by
  have haux : ∀ acc : Text, (wordsAux t acc).flatten = acc.reverse ++ t.filter fun c => !isSpace c := by
    induction t with
    | nil =>
      intro acc
      cases acc with
      | nil => rfl
      | cons x acc => simp [wordsAux]
    | cons c t ih =>
      intro acc
      unfold wordsAux
      by_cases hc : isSpace c = true
      · rw [if_pos hc, List.filter_cons_of_neg (by simp [hc])]
        split
        next hnil => rw [ih, hnil]
        next => rw [List.flatten_cons, ih, List.reverse_nil, List.nil_append]
      · rw [if_neg hc, ih, List.filter_cons_of_pos (by simp [hc]), List.reverse_cons,
          List.append_assoc, List.singleton_append]
  exact haux []

theorem words_ne_nil {t : Text} (h : strip t ≠ []) : words t ≠ [] := by
  intro hnil
  refine h (strip_eq_nil.mpr fun c hc => ?_)
  have hnone := flatten_words t
  rw [hnil, List.flatten_nil] at hnone
  by_contra hsolid
  have hmem : c ∈ t.filter fun c => !isSpace c := List.mem_filter.mpr ⟨hc, by simpa using hsolid⟩
  rw [← hnone] at hmem
  exact absurd hmem (by simp)

theorem length_le_of_mem_words {t w : Text} (h : w ∈ words t) : w.length ≤ t.length := by
  have hflat : w.length ≤ (words t).flatten.length :=
    (List.sublist_flatten_of_mem h).length_le
  rw [flatten_words] at hflat
  exact Nat.le_trans hflat (List.length_filter_le ..)

/-- A text that is one word. -/
theorem words_isWord_self {w : Text} (h : IsWord w) : words w = [w] := by
  have hall : ∀ x ∈ [w], IsWord x := by simpa using h
  have hjoin := words_joinWords hall
  rwa [show joinWords [w] = w by simp [joinWords]] at hjoin

/-- Every joined word costs its length and a space, but for the first space. -/
theorem joinWords_length (w : Text) (ws : List Text) :
    (joinWords (w :: ws)).length + 1 = ((w :: ws).map fun x => x.length + 1).sum := by
  induction ws generalizing w with
  | nil => simp [joinWords]
  | cons x rest ih =>
    rw [joinWords_cons_cons, List.length_append, List.length_cons, List.map_cons, List.sum_cons,
      ← ih x]
    omega

/-- A text that ends with no whitespace loses what it has in front. -/
theorem strip_suffix {t : Text} (hlast : ∀ c ∈ t.getLast?, isSpace c = false) : strip t <:+ t := by
  have hsuffix : lstrip t <:+ t := List.dropWhile_suffix isSpace
  have hl : ∀ c ∈ (lstrip t).reverse.head?, isSpace c = false := by
    intro c hc
    rw [List.head?_reverse] at hc
    refine hlast c ?_
    obtain ⟨front, hfront⟩ := hsuffix
    rw [← hfront, List.getLast?_append, Option.mem_def.mp hc]
    rfl
  have hr : strip t = lstrip t := by
    rw [strip, rstrip, dropWhile_trimmed hl, List.reverse_reverse]
  rw [hr]
  exact hsuffix

end Eidetic.Py
