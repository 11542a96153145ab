import Eidetic.Files.Chunks
import Eidetic.Py.Words

/-!
# What the units keep

Every level of `_split_semantic` cuts at whitespace, so the units have the words
of the text. A unit is over `CHUNK_SIZE` only where one word is.

`UnitsOf` is the relation between a text and its units, and it is closed under
what a level does: a text that fits is its own unit (`UnitsOf.self`), and if the
pieces of a text have its words then the units of the pieces are units of the
text (`UnitsOf.flatMap`). So each level proves only that its pieces have the
words of the text (`splitParagraphs_words`, `splitSentences_words`,
`packWords_words`), and the function is assembled from the levels
(`unitsOf_splitSemantic`).

Words are those of `str.split`. The two statements that others use are that the
units fit exactly when every word does, and that the units have every character
of the text but whitespace.
-/

namespace Eidetic.Files

open Eidetic.Py

/-- An entry of `units`: not empty, no whitespace at its ends. -/
structure AtomicUnit (unit : Text) : Prop where
  ne_nil : unit ≠ []
  trimmed : Trimmed unit

/-- The units of a text: they have its words, and fit where these do. -/
structure UnitsOf (text : Text) (units : List Text) : Prop where
  words : units.flatMap words = words text
  atomic : ∀ unit ∈ units, AtomicUnit unit
  size : (∀ word ∈ Py.words text, word.length ≤ chunkSize) →
    ∀ unit ∈ units, unit.length ≤ chunkSize

theorem UnitsOf.of_strip {text : Text} {units : List Text} (h : UnitsOf (strip text) units) :
    UnitsOf text units := by
  refine ⟨?_, h.atomic, ?_⟩
  · rw [h.words, words_strip]
  · have hsize := h.size
    rwa [words_strip] at hsize

theorem UnitsOf.nil : UnitsOf [] [] := ⟨rfl, by simp, by simp⟩

theorem UnitsOf.self {text : Text} (hatomic : AtomicUnit text) (hsize : text.length ≤ chunkSize) :
    UnitsOf text [text] := by
  refine ⟨by simp, by simpa using hatomic, ?_⟩
  intro _ unit hunit
  rwa [List.mem_singleton.mp hunit]

/-- A level: the pieces have the words of the text, and each has its units. -/
theorem UnitsOf.flatMap {text : Text} {pieces : List Text} {split : Text → List Text}
    (hwords : pieces.flatMap Py.words = Py.words text) (h : ∀ piece, UnitsOf piece (split piece)) :
    UnitsOf text (pieces.flatMap split) := by
  refine ⟨?_, ?_, ?_⟩
  · rw [List.flatMap_assoc, ← hwords]
    exact congrArg (pieces.flatMap ·) (funext fun piece => (h piece).words)
  · intro unit hunit
    obtain ⟨piece, _, hin⟩ := List.mem_flatMap.mp hunit
    exact (h piece).atomic unit hin
  · intro hsize unit hunit
    obtain ⟨piece, hpiece, hin⟩ := List.mem_flatMap.mp hunit
    refine (h piece).size (fun word hword => hsize word ?_) unit hin
    rw [← hwords]
    exact List.mem_flatMap.mpr ⟨piece, hpiece, hword⟩

/-! ## Paragraphs and sentences -/

theorem isSpace_newlines (n : Nat) : ∀ c ∈ List.replicate n '\n', isSpace c = true := by
  intro c hc
  rw [List.eq_of_mem_replicate hc]
  decide

theorem splitParagraphsAux_words (text piece : Text) (breaks : Nat) :
    (splitParagraphsAux text piece breaks).flatMap words
      = words (piece ++ List.replicate breaks '\n' ++ text) := by
  induction text generalizing piece breaks with
  | nil =>
    rw [splitParagraphsAux, List.append_nil]
    split
    next =>
      rw [words_append_spaces (isSpace_newlines breaks)]
      simp [words, wordsAux]
    next => simp
  | cons c rest ih =>
    rw [splitParagraphsAux]
    split
    next hc =>
      rw [ih, hc, List.replicate_succ']
      simp
    next =>
      split
      next hbreaks =>
        have hne : List.replicate breaks '\n' ≠ [] := by
          rw [ne_eq, List.replicate_eq_nil_iff]
          omega
        rw [List.flatMap_cons, ih, words_append_gap hne (isSpace_newlines breaks)]
        simp
      next =>
        rw [ih]
        simp

theorem splitParagraphs_words (text : Text) : (splitParagraphs text).flatMap words = words text :=
  splitParagraphsAux_words text [] 0

/-- In a gap the space after the sentence has been read. -/
theorem splitSentencesAux_words (text sentence : Text) (gap : Bool) :
    (splitSentencesAux text sentence gap).flatMap words
      = if gap then words sentence ++ words text else words (sentence ++ text) := by
  induction text generalizing sentence gap with
  | nil => cases gap <;> simp [splitSentencesAux]
  | cons c rest ih =>
    cases gap with
    | true =>
      rw [splitSentencesAux]
      split
      next hc =>
        rw [ih, if_pos rfl, if_pos rfl]
        exact congrArg _ (words_append_space hc [] rest).symm
      next =>
        rw [List.flatMap_cons, ih]
        rfl
    | false =>
      rw [splitSentencesAux]
      split
      next hc =>
        rw [ih, if_pos rfl, if_neg (by simp)]
        exact (words_append_space (Bool.and_eq_true_iff.mp hc).1 sentence rest).symm
      next =>
        rw [ih]
        simp

theorem splitSentences_words (para : Text) : (splitSentences para).flatMap words = words para :=
  splitSentencesAux_words para [] false

/-! ## Words -/

theorem isWord_concat {buf : List Text} {word : Text} (hbuf : ∀ w ∈ buf, IsWord w)
    (hword : IsWord word) : ∀ w ∈ buf ++ [word], IsWord w := by
  intro w hw
  rcases List.mem_append.mp hw with hw | hw
  · exact hbuf w hw
  · rwa [List.mem_singleton.mp hw]

theorem packWords_words {ws buf : List Text} (hws : ∀ w ∈ ws, IsWord w) (hbuf : ∀ w ∈ buf, IsWord w)
    (n : Nat) : (packWords ws buf n).flatMap words = buf ++ ws := by
  induction ws generalizing buf n with
  | nil =>
    rw [packWords]
    split
    next hempty => rw [List.isEmpty_iff.mp hempty]; rfl
    next => simp [words_joinWords hbuf]
  | cons word rest ih =>
    have hword := hws word (List.mem_cons_self ..)
    have hrest : ∀ w ∈ rest, IsWord w := fun w hw => hws w (List.mem_cons_of_mem _ hw)
    rw [packWords]
    split
    next =>
      rw [List.flatMap_cons, words_joinWords hbuf, ih hrest (by simpa using hword)]
      rfl
    next =>
      rw [ih hrest (isWord_concat hbuf hword), List.append_assoc]
      rfl

theorem atomicUnit_joinWords {ws : List Text} (hws : ∀ w ∈ ws, IsWord w) (hne : ws ≠ []) :
    AtomicUnit (joinWords ws) :=
  ⟨joinWords_ne_nil hws hne, (joinWords_spaces hws).2⟩

/-- `bufLen` counts a space after every word of `buf`. -/
def bufCost (buf : List Text) : Nat := (buf.map fun w => w.length + 1).sum

theorem bufCost_concat (buf : List Text) (word : Text) :
    bufCost (buf ++ [word]) = bufCost buf + (word.length + 1) := by
  simp [bufCost]

theorem joinWords_length_of_cost {buf : List Text} (hne : buf ≠ []) :
    (joinWords buf).length + 1 = bufCost buf := by
  cases buf with
  | nil => exact absurd rfl hne
  | cons w rest => exact joinWords_length w rest

theorem packWords_atomic {ws buf : List Text} (hws : ∀ w ∈ ws, IsWord w) (hbuf : ∀ w ∈ buf, IsWord w)
    (n : Nat) : ∀ unit ∈ packWords ws buf n, AtomicUnit unit := by
  induction ws generalizing buf n with
  | nil =>
    rw [packWords]
    split
    next => simp
    next hne => simpa using atomicUnit_joinWords hbuf (by simpa using hne)
  | cons word rest ih =>
    have hword := hws word (List.mem_cons_self ..)
    have hrest : ∀ w ∈ rest, IsWord w := fun w hw => hws w (List.mem_cons_of_mem _ hw)
    rw [packWords]
    split
    next hfull =>
      have hne : buf ≠ [] := by
        intro hnil
        simp [hnil] at hfull
      intro unit hunit
      rcases List.mem_cons.mp hunit with rfl | hunit
      · exact atomicUnit_joinWords hbuf hne
      · exact ih hrest (by simpa using hword) _ unit hunit
    next => exact ih hrest (isWord_concat hbuf hword) _

/-- The space after the last word is not part of the unit, so `bufLen` is at most
one over the size. -/
theorem packWords_size {ws buf : List Text} (hws : ∀ w ∈ ws, w.length ≤ chunkSize)
    (hbuf : bufCost buf ≤ chunkSize + 1) :
    ∀ unit ∈ packWords ws buf (bufCost buf), unit.length ≤ chunkSize := by
  induction ws generalizing buf with
  | nil =>
    rw [packWords]
    split
    next => simp
    next hne =>
      have hwords : buf ≠ [] := by simpa using hne
      have hlen := joinWords_length_of_cost hwords
      intro unit hunit
      rw [List.mem_singleton.mp hunit]
      omega
  | cons word rest ih =>
    have hword := hws word (List.mem_cons_self ..)
    have hrest : ∀ w ∈ rest, w.length ≤ chunkSize := fun w hw => hws w (List.mem_cons_of_mem _ hw)
    rw [packWords]
    split
    next hfull =>
      have hne : buf ≠ [] := by
        intro hnil
        simp [hnil] at hfull
      have hlen := joinWords_length_of_cost hne
      have hone : bufCost [word] = word.length + 1 := by simp [bufCost]
      intro unit hunit
      rcases List.mem_cons.mp hunit with rfl | hunit
      · omega
      · rw [← hone] at hunit
        exact ih hrest (by omega) unit hunit
    next hroom =>
      rw [← bufCost_concat]
      refine ih hrest ?_
      rw [bufCost_concat]
      by_cases hne : buf = []
      · rw [hne]
        show 0 + (word.length + 1) ≤ chunkSize + 1
        omega
      · have hfits : ¬ chunkSize < bufCost buf + word.length + 1 := by
          intro hover
          simp [hover, hne] at hroom
        omega

theorem unitsOf_packWords (sent : Text) : UnitsOf sent (packWords (words sent) [] 0) := by
  refine ⟨?_, ?_, ?_⟩
  · exact packWords_words (words_isWord sent) (by simp) 0
  · exact packWords_atomic (words_isWord sent) (by simp) 0
  · intro hsize
    have hcost : bufCost [] ≤ chunkSize + 1 := Nat.zero_le _
    exact packWords_size hsize hcost

/-! ## All of it -/

theorem atomicUnit_strip {t : Text} (h : ¬ (strip t).isEmpty = true) : AtomicUnit (strip t) :=
  ⟨fun hnil => h (List.isEmpty_iff.mpr hnil), trimmed_strip t⟩

/-- A stripped text that fits is one unit, and a larger one is divided. -/
theorem UnitsOf.divided {t : Text} {smaller : List Text} (h : UnitsOf (strip t) smaller) :
    UnitsOf (strip t) (if (strip t).isEmpty then [] else
      if (strip t).length ≤ chunkSize then [strip t] else smaller) := by
  split
  next hempty =>
    rw [List.isEmpty_iff.mp hempty]
    exact UnitsOf.nil
  next hempty =>
    split
    next hsize => exact UnitsOf.self (atomicUnit_strip hempty) hsize
    next => exact h

theorem unitsOf_sentenceUnits (sent : Text) : UnitsOf sent (sentenceUnits sent) :=
  UnitsOf.of_strip (unitsOf_packWords (strip sent)).divided

theorem unitsOf_paragraphUnits (para : Text) : UnitsOf para (paragraphUnits para) := by
  refine UnitsOf.of_strip (UnitsOf.divided ?_)
  exact UnitsOf.flatMap (splitSentences_words (strip para)) unitsOf_sentenceUnits

theorem unitsOf_splitSemantic (text : Text) : UnitsOf text (splitSemantic text) :=
  UnitsOf.flatMap (splitParagraphs_words text) unitsOf_paragraphUnits

/-- The units fit when the words do, and only then. -/
theorem splitSemantic_fits_iff (text : Text) :
    (∀ unit ∈ splitSemantic text, unit.length ≤ chunkSize)
      ↔ ∀ word ∈ words text, word.length ≤ chunkSize := by
  have hunits := unitsOf_splitSemantic text
  constructor
  · intro hsize word hword
    rw [← hunits.words] at hword
    obtain ⟨unit, hunit, hin⟩ := List.mem_flatMap.mp hword
    exact Nat.le_trans (length_le_of_mem_words hin) (hsize unit hunit)
  · exact hunits.size

/-- No character is lost but whitespace. -/
theorem splitSemantic_solid (text : Text) :
    (splitSemantic text).flatten.filter (fun c => !isSpace c) = text.filter fun c => !isSpace c := by
  have hwords := congrArg List.flatten (unitsOf_splitSemantic text).words
  rw [flatten_words] at hwords
  rw [← hwords, List.filter_flatten, List.flatMap_def, List.flatten_flatten, List.map_map]
  exact congrArg (fun f => ((splitSemantic text).map f).flatten)
    (funext fun unit => (flatten_words unit).symm)

theorem splitSemantic_blank {text : Text} (h : (strip text).isEmpty = true) :
    splitSemantic text = [] := by
  have hunits := unitsOf_splitSemantic text
  have hwords := hunits.words
  rw [← words_strip, List.isEmpty_iff.mp h] at hwords
  by_contra hne
  obtain ⟨unit, hunit⟩ := List.exists_mem_of_ne_nil _ hne
  have hatomic := hunits.atomic unit hunit
  refine words_ne_nil (t := unit) ?_ (List.flatMap_eq_nil_iff.mp hwords unit hunit)
  rw [strip_trimmed hatomic.trimmed]
  exact hatomic.ne_nil

end Eidetic.Files
