import Mathlib.Algebra.GroupWithZero.Nat
import Mathlib.Data.List.TakeWhile

/-!
# Python `str`, as lists of code points

The string operations the backend uses, on `Text := List Char`. Whitespace
is `str.isspace` (what `strip()`, `split()` and the `\s` of a `str` pattern
use), decimal digits are the Unicode class `Nd` (the `\d` of a `str`
pattern); both are written out as code-point tables.

Splitting at line breaks and joining are inverse to each other when no line has
a line break (`splitLines_joinLines`, `joinLines_splitLines`), and two texts
that meet share one line (`splitLines_meet`). Of `strip` what the lemmas need is
when nothing is left, and that it makes nothing longer; the finer facts are in
`Py.Spacing` and `Py.Words`.
-/

namespace Eidetic.Py

/-- A Python string: its code points. -/
abbrev Text := List Char

instance lawfulBEqText : LawfulBEq Text := inferInstance

/-- The code points `str.isspace` accepts. -/
def spaces : List Nat :=
  [0x9, 0xa, 0xb, 0xc, 0xd, 0x1c, 0x1d, 0x1e, 0x1f, 0x20, 0x85, 0xa0, 0x1680,
    0x2000, 0x2001, 0x2002, 0x2003, 0x2004, 0x2005, 0x2006, 0x2007, 0x2008,
    0x2009, 0x200a, 0x2028, 0x2029, 0x202f, 0x205f, 0x3000]

def isSpace (c : Char) : Bool := spaces.contains c.toNat

/-- The zeros of the Unicode class `Nd`; each starts a block of ten digits. -/
def digitZeros : List Nat :=
  [0x30, 0x660, 0x6f0, 0x7c0, 0x966, 0x9e6, 0xa66, 0xae6, 0xb66, 0xbe6, 0xc66,
    0xce6, 0xd66, 0xde6, 0xe50, 0xed0, 0xf20, 0x1040, 0x1090, 0x17e0, 0x1810,
    0x1946, 0x19d0, 0x1a80, 0x1a90, 0x1b50, 0x1bb0, 0x1c40, 0x1c50, 0xa620,
    0xa8d0, 0xa900, 0xa9d0, 0xa9f0, 0xaa50, 0xabf0, 0xff10, 0x104a0, 0x10d30,
    0x11066, 0x110f0, 0x11136, 0x111d0, 0x112f0, 0x11450, 0x114d0, 0x11650,
    0x116c0, 0x11730, 0x118e0, 0x11950, 0x11c50, 0x11d50, 0x11da0, 0x16a60,
    0x16ac0, 0x16b50, 0x1d7ce, 0x1d7d8, 0x1d7e2, 0x1d7ec, 0x1d7f6, 0x1e140,
    0x1e2f0, 0x1e950, 0x1fbf0]

/-- `\d`: a decimal digit of any script. -/
def isDecimal (c : Char) : Bool :=
  digitZeros.any fun z => z ≤ c.toNat && c.toNat < z + 10

/-- `str.lstrip()`. -/
def lstrip (s : Text) : Text := s.dropWhile isSpace

/-- `str.rstrip()`. -/
def rstrip (s : Text) : Text := (s.reverse.dropWhile isSpace).reverse

/-- `str.strip()`. -/
def strip (s : Text) : Text := rstrip (lstrip s)

/-- `s.startswith(p)`. -/
def startsWith (s p : Text) : Bool := p.isPrefixOf s

/-- `text.split("\n")`: never empty. -/
def splitLines (s : Text) : List Text := s.splitOn '\n'

/-- `"\n".join(lines)`. -/
def joinLines (ls : List Text) : Text := ['\n'].intercalate ls

/-- `xs[a:b]` for `0 ≤ a`. -/
def slice {α : Type} (xs : List α) (a b : Nat) : List α := (xs.take b).drop a

/-- Whitespace-separated words, `acc` being the reversed word in progress. -/
def wordsAux : Text → Text → List Text
  | [], [] => []
  | [], acc => [acc.reverse]
  | c :: cs, acc =>
    if isSpace c then
      (if acc = [] then wordsAux cs [] else acc.reverse :: wordsAux cs [])
    else wordsAux cs (c :: acc)

/-- `s.split()`: the maximal runs of non-whitespace. -/
def words (s : Text) : List Text := wordsAux s []

/-- `" ".join(words)`. -/
def joinWords (ws : List Text) : Text := [' '].intercalate ws

/-- The characters of a literal, without decoding it byte by byte. -/
theorem toList_literal {s : String} {cs : Text} (h : s = String.ofList cs) : s.toList = cs := by
  rw [h, String.toList_ofList]

@[simp] theorem slice_self {α : Type} (xs : List α) (a : Nat) : slice xs a a = [] := by
  simp [slice]

@[simp] theorem startsWith_iff {s p : Text} : startsWith s p = true ↔ p <+: s := by
  simp [startsWith, List.isPrefixOf_iff_prefix]

@[simp] theorem joinLines_splitLines (s : Text) : joinLines (splitLines s) = s := by
  rw [splitLines, joinLines, List.intercalate_splitOn]

theorem strip_length_le (s : Text) : (strip s).length ≤ s.length := by
  have hr : (rstrip (lstrip s)).length ≤ (lstrip s).length := by
    simpa [rstrip] using
      (List.dropWhile_sublist (l := (lstrip s).reverse) isSpace).length_le
  exact Nat.le_trans hr (List.dropWhile_sublist isSpace).length_le

theorem joinLines_cons_cons (l x : Text) (rest : List Text) :
    joinLines (l :: x :: rest) = l ++ '\n' :: joinLines (x :: rest) := by
  simp [joinLines, List.intercalate, List.intersperse]

/-- Every further line costs its length and a line break. -/
theorem joinLines_length (l : Text) (ls : List Text) :
    (joinLines (l :: ls)).length = l.length + (ls.map fun x => x.length + 1).sum := by
  induction ls generalizing l with
  | nil => simp [joinLines]
  | cons x rest ih =>
    rw [joinLines_cons_cons, List.length_append, List.length_cons, ih, List.map_cons, List.sum_cons]
    omega

theorem mem_joinLines {c : Char} (hc : c ≠ '\n') {ls : List Text} :
    c ∈ joinLines ls ↔ ∃ l ∈ ls, c ∈ l := by
  induction ls with
  | nil => simp [joinLines]
  | cons l rest ih =>
    cases rest with
    | nil => simp [joinLines]
    | cons x rest =>
      rw [joinLines_cons_cons, List.mem_append, List.mem_cons, ih]
      simp [hc]

/-- A text strips to nothing when all of it is whitespace. -/
theorem strip_eq_nil {s : Text} : strip s = [] ↔ ∀ c ∈ s, isSpace c = true := by
  unfold strip rstrip lstrip
  rw [List.reverse_eq_nil_iff, List.dropWhile_eq_nil_iff]
  constructor
  · intro h
    rw [← List.dropWhile_eq_nil_iff]
    cases hd : s.dropWhile isSpace with
    | nil => rfl
    | cons c rest =>
      have hno := List.head?_dropWhile_not isSpace s
      rw [hd] at hno h
      have := h c (by simp)
      simp [this] at hno
  · intro h c hc
    exact h c (List.dropWhile_sublist isSpace |>.subset (by simpa using hc))

/-- What is left of a text that is not blank ends with a character that is no space. -/
theorem strip_strip_ne_nil {s : Text} (h : strip s ≠ []) : strip (strip s) ≠ [] := by
  rw [ne_eq, strip_eq_nil]
  intro hall
  unfold strip rstrip at h hall
  have hno := List.head?_dropWhile_not isSpace (lstrip s).reverse
  cases hd : (lstrip s).reverse.dropWhile isSpace with
  | nil =>
    rw [hd] at h
    exact h rfl
  | cons c rest =>
    rw [hd] at hno hall
    have hspace := hall c (by simp)
    simp [hspace] at hno

theorem splitLines_ne_nil (s : Text) : splitLines s ≠ [] := by
  simp [splitLines]

theorem splitLines_line {line : Text} (h : '\n' ∉ line) : splitLines line = [line] :=
  List.splitOn_eq_singleton h

theorem splitLines_append (a b : Text) :
    splitLines (a ++ '\n' :: b) = splitLines a ++ splitLines b :=
  List.splitOn_append_cons_self a b

/-- Lines are split where they were joined. -/
theorem splitLines_joinLines {ls : List Text} (h : ∀ l ∈ ls, '\n' ∉ l) (hne : ls ≠ []) :
    splitLines (joinLines ls) = ls :=
  List.splitOn_intercalate '\n' h hne

theorem not_mem_of_mem_splitLines {s l : Text} (h : l ∈ splitLines s) : '\n' ∉ l := by
  unfold splitLines at h
  induction s generalizing l with
  | nil =>
    rw [List.splitOn_nil] at h
    obtain rfl := List.mem_singleton.mp h
    simp
  | cons c cs ih =>
    rw [List.splitOn_cons_eq_if_modifyHead] at h
    split at h
    next =>
      rcases List.mem_cons.mp h with rfl | h
      · simp
      · exact ih h
    next hc =>
      cases hcs : cs.splitOn '\n' with
      | nil => exact absurd hcs (List.splitOn_ne_nil '\n' cs)
      | cons first rest =>
        rw [hcs, List.modifyHead_cons] at h
        rcases List.mem_cons.mp h with rfl | h
        · have hfirst : '\n' ∉ first := ih (hcs ▸ List.mem_cons_self ..)
          have hne : '\n' ≠ c := fun heq => hc (by simp [← heq])
          simp [hne, hfirst]
        · exact ih (hcs ▸ List.mem_cons_of_mem _ h)

/-- Where two texts meet, the last line of one goes on with the first of the other. -/
theorem splitLines_meet {x y l f : Text} {init rest : List Text} (hx : splitLines x = init ++ [l])
    (hy : splitLines y = f :: rest) : splitLines (x ++ y) = init ++ (l ++ f) :: rest := by
  induction x generalizing init l with
  | nil =>
    have hnil : splitLines [] = [[]] := rfl
    obtain ⟨rfl, rfl⟩ : init = [] ∧ l = [] := by
      rw [hnil] at hx
      cases init with
      | nil => exact ⟨rfl, (List.cons.inj hx).1.symm⟩
      | cons first init => exact absurd (List.cons.inj hx).2 (by simp)
    exact hy
  | cons c x ih =>
    unfold splitLines at hx ih ⊢
    rw [List.cons_append, List.splitOn_cons_eq_if_modifyHead]
    rw [List.splitOn_cons_eq_if_modifyHead] at hx
    cases hlines : x.splitOn '\n' with
    | nil => exact absurd hlines (List.splitOn_ne_nil _ _)
    | cons g gs =>
      rw [hlines] at hx
      split
      next hc =>
        rw [if_pos hc] at hx
        cases init with
        | nil => exact absurd (List.cons.inj hx).2 (by simp)
        | cons first init =>
          obtain ⟨rfl, hrest⟩ := List.cons.inj hx
          rw [ih (hlines.trans hrest)]
          rfl
      next hc =>
        rw [if_neg hc, List.modifyHead_cons] at hx
        cases init with
        | nil =>
          obtain ⟨rfl, rfl⟩ := List.cons.inj hx
          rw [ih (show _ = [] ++ [g] from hlines)]
          rfl
        | cons first init =>
          obtain ⟨rfl, rfl⟩ := List.cons.inj hx
          rw [ih (show _ = (g :: init) ++ [l] from hlines)]
          rfl

/-- The first line begins as the text does. -/
theorem splitLines_first {t : Text} {c : Char} (h : t.head? = some c) (hc : c ≠ '\n') :
    ∃ f more, splitLines t = f :: more ∧ f.head? = some c := by
  cases hlines : splitLines t with
  | nil => exact absurd hlines (splitLines_ne_nil t)
  | cons f more =>
    refine ⟨f, more, rfl, ?_⟩
    rw [← joinLines_splitLines t, hlines] at h
    cases more with
    | nil => simpa [joinLines] using h
    | cons g more =>
      rw [joinLines_cons_cons] at h
      cases f with
      | nil => exact absurd (Option.some.inj h) (Ne.symm hc)
      | cons d f => simpa using h

theorem joinLines_append {xs ys : List Text} (hxs : xs ≠ []) (hys : ys ≠ []) :
    joinLines (xs ++ ys) = joinLines xs ++ '\n' :: joinLines ys := by
  induction xs with
  | nil => exact absurd rfl hxs
  | cons x xs ih =>
    cases xs with
    | nil =>
      cases ys with
      | nil => exact absurd rfl hys
      | cons y ys =>
        rw [List.singleton_append, joinLines_cons_cons]
        simp [joinLines]
    | cons x' xs =>
      rw [List.cons_append, List.cons_append, joinLines_cons_cons, ← List.cons_append,
        ih (by simp), joinLines_cons_cons]
      simp

/-- The last line ends as the text does, after a line break with nothing. -/
theorem splitLines_last (t : Text) :
    ∃ init l, splitLines t = init ++ [l] ∧
      ((l = [] ∧ init = [] ∧ t = []) ∨ (l = [] ∧ t.getLast? = some '\n') ∨
        (l ≠ [] ∧ l.getLast? = t.getLast? ∧ t.getLast? ≠ some '\n')) := by
  obtain ⟨init, l, hlines⟩ : ∃ init l, splitLines t = init ++ [l] :=
    ⟨_, _, (List.dropLast_concat_getLast (splitLines_ne_nil t)).symm⟩
  refine ⟨init, l, hlines, ?_⟩
  have hl : '\n' ∉ l := not_mem_of_mem_splitLines (hlines ▸ List.mem_append_right init (by simp))
  have hbreak : l.getLast? ≠ some '\n' := fun hlast => hl (List.mem_of_mem_getLast? hlast)
  have hone : joinLines [l] = l := by simp [joinLines]
  have ht := joinLines_splitLines t
  rw [hlines] at ht
  by_cases hinit : init = []
  · rw [hinit, List.nil_append, hone] at ht
    by_cases hnil : l = []
    · exact Or.inl ⟨hnil, hinit, by rw [← ht, hnil]⟩
    · exact Or.inr (Or.inr ⟨hnil, by rw [ht], by rw [← ht]; exact hbreak⟩)
  · rw [joinLines_append hinit (by simp), hone] at ht
    by_cases hnil : l = []
    · exact Or.inr (Or.inl ⟨hnil, by rw [← ht, hnil]; simp⟩)
    · have hlast : l.getLast? = t.getLast? := by
        rw [← ht, List.append_cons, List.getLast?_append, List.getLast?_eq_some_getLast hnil]
        rfl
      exact Or.inr (Or.inr ⟨hnil, hlast, by rw [← hlast]; exact hbreak⟩)

end Eidetic.Py
