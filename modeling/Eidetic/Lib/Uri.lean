import Mathlib.Data.List.TakeWhile
import Mathlib.Order.Basic

/-!
# References to resources

The components of a reference in the generic syntax of URIs, each of which may
be missing or empty, the removal of dot segments, and what a reference refers to
from a base.

`remove_dot_segments` works on characters, with an output buffer. The last part
of this file reads it by segments. The invariant is that the buffer is
`pathOf segments` for segments that are `Kept`: a kept segment goes to its end
(`removeDotsLoop_kept`), `.` leaves it alone, and `..` takes its last one
(`dropSegment_pathOf`). So the loop gets to the last segment of a path with such
a buffer (`exists_removeDotsLoop`), which says what the last segment does
(`removeDotSegments_last`) and that what is left has no dot segments any more
(`removeDotSegments_idem`).
-/

namespace Eidetic.Lib

/-- Path, query and fragment. -/
structure UriTail where
  path : List Char
  query : Option (List Char)
  fragment : Option (List Char)
deriving DecidableEq

/-- The components of a reference. -/
structure UriReference extends UriTail where
  scheme : Option (List Char)
  authority : Option (List Char)
deriving DecidableEq

/-! ## Components -/

/-- No `/`, `?` or `#`. -/
def inAuthority (c : Char) : Bool := c ≠ '/' && c ≠ '?' && c ≠ '#'

/-- No `?` or `#`. -/
def inPath (c : Char) : Bool := c ≠ '?' && c ≠ '#'

def uriFragment : List Char → Option (List Char)
  | '#' :: rest => some rest
  | _ => none

def uriQuery : List Char → Option (List Char)
  | '?' :: rest => some (rest.takeWhile (· ≠ '#'))
  | _ => none

/-- `([^?#]*)(\?([^#]*))?(#(.*))?`. -/
def uriTail (s : List Char) : UriTail where
  path := s.takeWhile inPath
  query := uriQuery (s.dropWhile inPath)
  fragment := uriFragment (s.dropWhile (· ≠ '#'))

/-- `(([^:/?#]+):)?`. -/
def splitUriScheme (s : List Char) : Option (List Char) × List Char :=
  let name := s.takeWhile fun c => c ≠ ':' && inAuthority c
  match s.drop name.length with
  | ':' :: rest => if name = [] then (none, s) else (some name, rest)
  | _ => (none, s)

/-- `(//([^/?#]*))?`. -/
def splitAuthority : List Char → Option (List Char) × List Char
  | '/' :: '/' :: rest => (some (rest.takeWhile inAuthority), rest.dropWhile inAuthority)
  | s => (none, s)

/-- A scheme is written in any case. -/
def uriReference (s : List Char) : UriReference :=
  let (scheme, s) := splitUriScheme s
  let (authority, s) := splitAuthority s
  { uriTail s with scheme := scheme.map (·.map Char.toLower), authority }

/-! ## Dot segments -/

/-- The output buffer without its last segment and the `/` before it. -/
def dropSegment (out : List Char) : List Char :=
  ((out.reverse.dropWhile (· ≠ '/')).drop 1).reverse

/-- `remove_dot_segments`, with the output buffer and whether a segment has begun
to move there. -/
def removeDotsLoop : Bool → List Char → List Char → List Char
  | _, out, [] => out
  | _, out, ['/', '.'] => out ++ ['/']
  | _, out, ['/', '.', '.'] => dropSegment out ++ ['/']
  | _, out, '/' :: '.' :: '/' :: rest => removeDotsLoop true out ('/' :: rest)
  | _, out, '/' :: '.' :: '.' :: '/' :: rest => removeDotsLoop true (dropSegment out) ('/' :: rest)
  | false, out, ['.'] => out
  | false, out, ['.', '.'] => out
  | false, out, '.' :: '/' :: rest => removeDotsLoop false out rest
  | false, out, '.' :: '.' :: '/' :: rest => removeDotsLoop false out rest
  | _, out, c :: rest => removeDotsLoop true (out ++ [c]) rest

def removeDotSegments (path : List Char) : List Char := removeDotsLoop false [] path

/-! ## Resolution -/

/-- The path of a reference after the base path up to its last `/`. -/
def mergePath (base : UriReference) (path : List Char) : List Char :=
  if base.authority.isSome && base.path.isEmpty then '/' :: path
  else (base.path.reverse.dropWhile (· ≠ '/')).reverse ++ path

/-- What a reference refers to from a base. -/
def resolveReference (base r : UriReference) : UriReference :=
  if r.scheme.isSome then { r with path := removeDotSegments r.path }
  else if r.authority.isSome then
    { r with scheme := base.scheme, path := removeDotSegments r.path }
  else if r.path = [] then
    { base with query := if r.query.isSome then r.query else base.query, fragment := r.fragment }
  else
    { base with
      path := removeDotSegments (if r.path.head? = some '/' then r.path else mergePath base r.path)
      query := r.query
      fragment := r.fragment }

/-- `..` from a base. -/
example : resolveReference (uriReference "http://a/b/c/d;p?q".toList) (uriReference "../g?y#s".toList)
    = uriReference "http://a/b/g?y#s".toList := by decide

section

variable {r : UriReference}

theorem resolve_scheme (base : UriReference) (h : r.scheme.isSome = true) :
    resolveReference base r = { r with path := removeDotSegments r.path } := if_pos h

/-- A reference without a path keeps the base path, and the query unless it has one. -/
theorem resolve_empty (base : UriReference) (hscheme : r.scheme = none) (hauthority : r.authority = none)
    (hpath : r.path = []) : resolveReference base r = { base with
      query := if r.query.isSome then r.query else base.query, fragment := r.fragment } := by
  unfold resolveReference
  rw [hscheme, hauthority, hpath]
  rfl

theorem resolve_path (base : UriReference) (hscheme : r.scheme = none) (hauthority : r.authority = none)
    (hpath : r.path ≠ []) : resolveReference base r = { base with
      path := removeDotSegments (if r.path.head? = some '/' then r.path else mergePath base r.path)
      query := r.query
      fragment := r.fragment } := by
  unfold resolveReference
  rw [hscheme, hauthority, if_neg (by simp), if_neg (by simp), if_neg hpath]

end

/-! ## What the components are -/

theorem length_dropSegment (out : List Char) : (dropSegment out).length ≤ out.length := by
  have hdrop : (out.reverse.dropWhile (· ≠ '/')).length ≤ out.reverse.length :=
    (List.dropWhile_sublist _).length_le
  rw [List.length_reverse] at hdrop
  rw [dropSegment, List.length_reverse, List.length_drop]
  omega

theorem takeWhile_inAuthority {a rest : List Char} (ha : ∀ c ∈ a, inAuthority c = true)
    (hrest : ∀ c ∈ rest.head?, inAuthority c = false) :
    (a ++ rest).takeWhile inAuthority = a ∧ (a ++ rest).dropWhile inAuthority = rest := by
  rw [List.takeWhile_append_of_pos ha, List.dropWhile_append_of_pos ha]
  cases rest with
  | nil => simp
  | cons c rest =>
    have hc : ¬ inAuthority c = true := by rw [hrest c rfl]; simp
    rw [List.takeWhile_cons_of_neg hc, List.dropWhile_cons_of_neg hc, List.append_nil]
    exact ⟨rfl, rfl⟩

theorem splitUriScheme_append {name rest : List Char} (hne : name ≠ [])
    (hname : ∀ c ∈ name, c ≠ ':' ∧ inAuthority c = true) :
    splitUriScheme (name ++ ':' :: rest) = (some name, rest) := by
  have htake : (name ++ ':' :: rest).takeWhile (fun c => c ≠ ':' && inAuthority c) = name := by
    rw [List.takeWhile_append_of_pos, List.takeWhile_cons_of_neg (by simp), List.append_nil]
    intro c hc
    simpa using hname c hc
  unfold splitUriScheme
  dsimp only
  rw [htake, List.drop_left]
  exact if_neg hne

/-- A scheme that was found is in front of the rest. -/
theorem of_splitUriScheme {s name rest : List Char} (h : splitUriScheme s = (some name, rest)) :
    s = name ++ ':' :: rest ∧ ∀ c ∈ name, inAuthority c = true := by
  unfold splitUriScheme at h
  dsimp only at h
  split at h
  next more hmore =>
    split at h
    next => exact absurd h (by simp)
    next =>
      obtain ⟨hname, rfl⟩ := Prod.mk.inj h
      obtain rfl := Option.some.inj hname
      have hsplit := List.prefix_iff_eq_append.mp
        (List.takeWhile_prefix (l := s) fun c => c ≠ ':' && inAuthority c)
      rw [hmore] at hsplit
      refine ⟨hsplit.symm, fun c hc => ?_⟩
      have htaken := List.mem_takeWhile_imp hc
      simp only [Bool.and_eq_true] at htaken
      exact htaken.2
  next => exact absurd h (by simp)

theorem of_splitUriScheme_none {s rest : List Char} (h : splitUriScheme s = (none, rest)) :
    rest = s := by
  unfold splitUriScheme at h
  dsimp only at h
  split at h
  next =>
    split at h
    next => exact (Prod.mk.inj h).2.symm
    next => exact absurd h (by simp)
  next => exact (Prod.mk.inj h).2.symm

theorem head_dropWhile_inAuthority (s : List Char) :
    ∀ c ∈ (s.dropWhile inAuthority).head?, inAuthority c = false := by
  intro c hc
  have hnot := List.head?_dropWhile_not inAuthority s
  rw [Option.mem_def.mp hc] at hnot
  exact hnot

/-- An authority that was found is between `//` and the rest. -/
theorem of_splitAuthority {s a rest : List Char} (h : splitAuthority s = (some a, rest)) :
    s = '/' :: '/' :: (a ++ rest) ∧ (∀ c ∈ a, inAuthority c = true) ∧
      ∀ c ∈ rest.head?, inAuthority c = false := by
  unfold splitAuthority at h
  split at h
  next more =>
    obtain ⟨ha, rfl⟩ := Prod.mk.inj h
    obtain rfl := Option.some.inj ha
    rw [List.takeWhile_append_dropWhile]
    exact ⟨rfl, fun c hc => List.mem_takeWhile_imp hc, head_dropWhile_inAuthority more⟩
  next => exact absurd h (by simp)

theorem of_splitAuthority_none {s rest : List Char} (h : splitAuthority s = (none, rest)) :
    rest = s := by
  unfold splitAuthority at h
  split at h
  next => exact absurd h (by simp)
  next => exact (Prod.mk.inj h).2.symm

/-- What is in an authority is in a path. -/
theorem inPath_of_inAuthority {c : Char} (h : inAuthority c = true) : inPath c = true := by
  simp only [inAuthority, Bool.and_eq_true] at h
  simp only [inPath, Bool.and_eq_true]
  exact ⟨h.1.2, h.2⟩

/-! ## Segments -/

/-- A segment that is not removed. -/
structure Kept (s : List Char) : Prop where
  inside : '/' ∉ s
  notDot : s ≠ ['.']
  notDots : s ≠ ['.', '.']

/-- Empty, or from a `/` on. -/
def PathAbempty (path : List Char) : Prop := path = [] ∨ path.head? = some '/'

/-- The path of some segments. -/
def pathOf (segments : List (List Char)) : List Char := segments.flatMap ('/' :: ·)

theorem pathOf_concat (segments : List (List Char)) (s : List Char) :
    pathOf (segments ++ [s]) = pathOf segments ++ '/' :: s := by
  simp [pathOf]

theorem dropSegment_concat {s : List Char} (out : List Char) (h : '/' ∉ s) :
    dropSegment (out ++ '/' :: s) = out := by
  have hdrop : (out ++ '/' :: s).reverse.dropWhile (· ≠ '/') = '/' :: out.reverse := by
    rw [List.reverse_append, List.reverse_cons, List.append_assoc,
      List.dropWhile_append_of_pos fun c hc => ?_]
    · exact List.dropWhile_cons_of_neg (by simp)
    · have hne : c ≠ '/' := fun heq => h (by rw [← heq]; exact List.mem_reverse.mp hc)
      simpa using hne
  rw [dropSegment, hdrop]
  simp

/-- The buffer without the last of its segments. -/
theorem dropSegment_pathOf {segments : List (List Char)} (h : ∀ s ∈ segments, Kept s) :
    ∃ fewer, dropSegment (pathOf segments) = pathOf fewer ∧ ∀ s ∈ fewer, Kept s := by
  rcases List.eq_nil_or_concat segments with rfl | ⟨fewer, s, rfl⟩
  · exact ⟨[], rfl, h⟩
  · rw [List.concat_eq_append] at h ⊢
    refine ⟨fewer, ?_, fun t ht => h t (List.mem_append_left _ ht)⟩
    rw [pathOf_concat, dropSegment_concat _ (h s (by simp)).inside]

/-- The characters of a segment are moved one by one. -/
theorem removeDotsLoop_segment {s : List Char} (h : '/' ∉ s) (out rest : List Char) :
    removeDotsLoop true out (s ++ rest) = removeDotsLoop true (out ++ s) rest := by
  induction s generalizing out with
  | nil => rw [List.nil_append, List.append_nil]
  | cons c s ih =>
    have hc : c ≠ '/' := fun heq => h (by simp [heq])
    have hs : '/' ∉ s := fun hmem => h (List.mem_cons_of_mem _ hmem)
    rw [List.cons_append, removeDotsLoop, ih hs, List.append_assoc, List.singleton_append]
    all_goals simp [hc]


/-- A segment is what stands before the first `/`. -/
theorem segment_unique {s t rest more : List Char} (hs : '/' ∉ s) (ht : '/' ∉ t)
    (hrest : PathAbempty rest) (hmore : PathAbempty more) (h : s ++ rest = t ++ more) : s = t := by
  have htake : ∀ {s rest : List Char}, '/' ∉ s → PathAbempty rest →
      (s ++ rest).takeWhile (· ≠ '/') = s := by
    intro s rest hs hrest
    rw [List.takeWhile_append_of_pos fun c hc => ?_]
    · rcases hrest with rfl | hhead
      · simp
      · obtain ⟨more, rfl⟩ := List.head?_eq_some_iff.mp hhead
        simp
    · have hne : c ≠ '/' := fun heq => hs (by rw [← heq]; exact hc)
      simpa using hne
  rw [← htake hs hrest, h, htake ht hmore]

/-- A segment without dots goes to the buffer. -/
theorem removeDotsLoop_kept {s rest : List Char} (h : Kept s) (hrest : PathAbempty rest)
    (moving : Bool) (out : List Char) :
    removeDotsLoop moving out ('/' :: (s ++ rest)) = removeDotsLoop true (out ++ '/' :: s) rest := by
  have hmoved : removeDotsLoop moving out ('/' :: (s ++ rest))
      = removeDotsLoop true (out ++ ['/']) (s ++ rest) := by
    rw [removeDotsLoop]
    -- no dot segment begins here
    case x_4 =>
      intro _ hs
      have hs : s ++ rest = ['.'] ++ [] := by simpa using hs
      exact h.notDot (segment_unique h.inside (by simp) hrest (.inl rfl) hs)
    case x_5 =>
      intro _ hs
      have hs : s ++ rest = ['.', '.'] ++ [] := by simpa using hs
      exact h.notDots (segment_unique h.inside (by simp) hrest (.inl rfl) hs)
    case x_6 =>
      intro more _ hs
      exact h.notDot (segment_unique h.inside (by simp) hrest (.inr rfl) hs)
    case x_7 =>
      intro more _ hs
      exact h.notDots (segment_unique h.inside (by simp) hrest (.inr rfl) hs)
    all_goals simp
  rw [hmoved, removeDotsLoop_segment h.inside, List.append_assoc, List.singleton_append]

/-- Up to the last segment the buffer has only segments without dots. -/
theorem exists_removeDotsLoop {init : List Char} (hinit : PathAbempty init) (moving : Bool)
    {segments : List (List Char)} (hkept : ∀ s ∈ segments, Kept s) :
    ∃ before now, (∀ s ∈ before, Kept s) ∧ ∀ last, '/' ∉ last →
      removeDotsLoop moving (pathOf segments) (init ++ '/' :: last)
        = removeDotsLoop now (pathOf before) ('/' :: last) := by
  induction hn : init.length using Nat.strong_induction_on generalizing init moving segments with
  | _ n ih =>
    rcases hinit with rfl | hhead
    · exact ⟨segments, moving, hkept, fun last _ => rfl⟩
    · obtain ⟨more, rfl⟩ := List.head?_eq_some_iff.mp hhead
      -- the first segment and the rest
      obtain ⟨s, rest, rfl, hs, hrest⟩ : ∃ s rest,
          more = s ++ rest ∧ '/' ∉ s ∧ PathAbempty rest := by
        refine ⟨more.takeWhile (· ≠ '/'), more.dropWhile (· ≠ '/'),
          (List.takeWhile_append_dropWhile).symm, fun hmem => ?_, ?_⟩
        · simpa using List.mem_takeWhile_imp hmem
        · cases hdrop : more.dropWhile (· ≠ '/') with
          | nil => exact .inl rfl
          | cons c rest =>
            have hc := List.head?_dropWhile_not (· ≠ '/') more
            rw [hdrop] at hc
            exact .inr (by simpa using hc)
      have hless : rest.length < n := by
        rw [← hn, List.length_cons, List.length_append]
        omega
      obtain ⟨next, hnext⟩ : ∃ next : List Char → List Char,
          ∀ last, rest ++ '/' :: last = '/' :: next last := by
        rcases hrest with rfl | hhead
        · exact ⟨id, fun _ => rfl⟩
        · obtain ⟨more, rfl⟩ := List.head?_eq_some_iff.mp hhead
          exact ⟨fun last => more ++ '/' :: last, fun _ => rfl⟩
      by_cases hdot : s = ['.']
      · obtain ⟨before, now, hbefore, heq⟩ := ih _ hless hrest true hkept rfl
        refine ⟨before, now, hbefore, fun last hlast => ?_⟩
        rw [← heq last hlast, hdot, hnext]
        show removeDotsLoop moving _ ('/' :: '.' :: (rest ++ '/' :: last)) = _
        rw [hnext, removeDotsLoop]
      by_cases hdots : s = ['.', '.']
      · obtain ⟨fewer, hdrop, hfewer⟩ := dropSegment_pathOf hkept
        obtain ⟨before, now, hbefore, heq⟩ := ih _ hless hrest true hfewer rfl
        refine ⟨before, now, hbefore, fun last hlast => ?_⟩
        rw [← heq last hlast, hdots, hnext]
        show removeDotsLoop moving _ ('/' :: '.' :: '.' :: (rest ++ '/' :: last)) = _
        rw [hnext, removeDotsLoop, hdrop]
      · have hs : Kept s := ⟨hs, hdot, hdots⟩
        have hkept' : ∀ t ∈ segments ++ [s], Kept t := by
          intro t ht
          rcases List.mem_append.mp ht with ht | ht
          · exact hkept t ht
          · rw [List.mem_singleton.mp ht]
            exact hs
        obtain ⟨before, now, hbefore, heq⟩ := ih _ hless hrest true hkept' rfl
        refine ⟨before, now, hbefore, fun last hlast => ?_⟩
        rw [← heq last hlast, pathOf_concat, List.cons_append, List.append_assoc]
        exact removeDotsLoop_kept hs (.inr (by rw [hnext]; rfl)) moving _

/-- Where no segment is a dot segment, every segment goes to the buffer. -/
theorem removeDotsLoop_pathOf {segments more : List (List Char)} (h : ∀ s ∈ more, Kept s)
    (moving : Bool) : ∃ now, removeDotsLoop moving (pathOf segments) (pathOf more)
      = removeDotsLoop now (pathOf (segments ++ more)) [] := by
  induction more generalizing segments moving with
  | nil => exact ⟨moving, by rw [List.append_nil]; rfl⟩
  | cons s more ih =>
    obtain ⟨now, heq⟩ := @ih (segments ++ [s])
      (fun t ht => h t (List.mem_cons_of_mem _ ht)) true
    refine ⟨now, ?_⟩
    rw [List.append_assoc, List.singleton_append] at heq
    rw [← heq, pathOf_concat]
    show removeDotsLoop moving _ ('/' :: (s ++ pathOf more)) = _
    refine removeDotsLoop_kept (h s (List.mem_cons_self ..)) ?_ moving _
    cases more with
    | nil => exact .inl rfl
    | cons t more => exact .inr rfl

theorem removeDotSegments_pathOf {segments : List (List Char)} (h : ∀ s ∈ segments, Kept s) :
    removeDotSegments (pathOf segments) = pathOf segments := by
  obtain ⟨now, heq⟩ := @removeDotsLoop_pathOf [] _ h false
  have hend : removeDotsLoop now (pathOf segments) [] = pathOf segments := by simp [removeDotsLoop]
  exact heq.trans hend

theorem kept_nil : Kept [] := ⟨by simp, by simp, by simp⟩

/-- What the last segment does: one that is kept follows those that are left of
the path before it, and a dot segment leaves a final `/` after at most those. -/
theorem removeDotSegments_last {init : List Char} (hinit : PathAbempty init) :
    ∃ before, (∀ s ∈ before, Kept s) ∧
      (∀ last, Kept last → removeDotSegments (init ++ '/' :: last) = pathOf (before ++ [last])) ∧
      ∀ last, last = ['.'] ∨ last = ['.', '.'] → ∃ fewer, (∀ s ∈ fewer, Kept s) ∧
        removeDotSegments (init ++ '/' :: last) = pathOf (fewer ++ [[]]) ∧
        (pathOf fewer).length ≤ (pathOf before).length := by
  obtain ⟨before, now, hbefore, heq⟩ := @exists_removeDotsLoop _ hinit false [] (by simp)
  refine ⟨before, hbefore, ?_, ?_⟩
  · intro last hlast
    have hloop := removeDotsLoop_kept hlast (.inl rfl) now (pathOf before)
    rw [List.append_nil] at hloop
    rw [pathOf_concat]
    refine (heq last hlast.inside).trans (hloop.trans ?_)
    rw [removeDotsLoop]
  · intro last hlast
    rcases hlast with rfl | rfl
    · refine ⟨before, hbefore, (heq _ (by simp)).trans ?_, Nat.le_refl _⟩
      rw [removeDotsLoop, pathOf_concat]
    · obtain ⟨fewer, hdrop, hfewer⟩ := dropSegment_pathOf hbefore
      refine ⟨fewer, hfewer, (heq _ (by simp)).trans ?_, ?_⟩
      · rw [removeDotsLoop, hdrop, pathOf_concat]
      · rw [← hdrop]
        exact length_dropSegment _

/-- What stands after the last `/`. -/
def lastSegment (path : List Char) : List Char := (path.reverse.takeWhile (· ≠ '/')).reverse

theorem lastSegment_append (init : List Char) {last : List Char} (h : '/' ∉ last) :
    lastSegment (init ++ '/' :: last) = last := by
  have htake : (init ++ '/' :: last).reverse.takeWhile (· ≠ '/') = last.reverse := by
    rw [List.reverse_append, List.reverse_cons, List.append_assoc,
      List.takeWhile_append_of_pos fun c hc => ?_]
    · simp
    · have hne : c ≠ '/' := fun heq => h (by rw [← heq]; exact List.mem_reverse.mp hc)
      simpa using hne
  rw [lastSegment, htake, List.reverse_reverse]

/-- A rooted path has a last segment. -/
theorem exists_lastSegment {path : List Char} (h : path.head? = some '/') :
    ∃ init, path = init ++ '/' :: lastSegment path ∧ PathAbempty init ∧ '/' ∉ lastSegment path := by
  have hsplit := List.takeWhile_append_dropWhile (p := (· ≠ '/')) (l := path.reverse)
  cases hdrop : path.reverse.dropWhile (· ≠ '/') with
  | nil =>
    obtain ⟨rest, rfl⟩ := List.head?_eq_some_iff.mp h
    exact absurd (List.dropWhile_eq_nil_iff.mp hdrop '/' (by simp)) (by simp)
  | cons c front =>
    have hc := List.head?_dropWhile_not (· ≠ '/') path.reverse
    rw [hdrop] at hc hsplit
    obtain rfl : c = '/' := by simpa using hc
    have hpath : path = front.reverse ++ '/' :: lastSegment path := by
      have hreverse := congrArg List.reverse hsplit
      rw [List.reverse_reverse, List.reverse_append, List.reverse_cons, List.append_assoc] at hreverse
      exact hreverse.symm
    refine ⟨front.reverse, hpath, ?_, fun hmem => ?_⟩
    · rw [hpath] at h
      cases hfront : front.reverse with
      | nil => exact .inl rfl
      | cons d more =>
        rw [hfront] at h
        exact .inr h
    · have hin := List.mem_takeWhile_imp (List.mem_reverse.mp hmem)
      simp at hin

/-- What is left is a path of segments that are kept. -/
theorem exists_removeDotSegments {path : List Char} (h : path.head? = some '/') :
    ∃ before last, (∀ s ∈ before ++ [last], Kept s) ∧
      removeDotSegments path = pathOf (before ++ [last]) := by
  obtain ⟨init, hpath, hinit, hlast⟩ := exists_lastSegment h
  generalize lastSegment path = last at hpath hlast
  subst hpath
  obtain ⟨before, hbefore, hkept, hdots⟩ := removeDotSegments_last hinit
  have hall : ∀ {segments : List (List Char)} {s : List Char}, (∀ t ∈ segments, Kept t) → Kept s →
      ∀ t ∈ segments ++ [s], Kept t := by
    intro segments s hsegments hs t ht
    rcases List.mem_append.mp ht with ht | ht
    · exact hsegments t ht
    · rwa [List.mem_singleton.mp ht]
  by_cases hdot : last = ['.'] ∨ last = ['.', '.']
  · obtain ⟨fewer, hfewer, heq, -⟩ := hdots last hdot
    exact ⟨fewer, [], hall hfewer kept_nil, heq⟩
  · rw [not_or] at hdot
    have hs : Kept last := ⟨hlast, hdot.1, hdot.2⟩
    exact ⟨before, last, hall hbefore hs, hkept last hs⟩

theorem removeDotSegments_idem {path : List Char} (h : PathAbempty path) :
    removeDotSegments (removeDotSegments path) = removeDotSegments path := by
  rcases h with rfl | h
  · rfl
  · obtain ⟨before, last, hkept, heq⟩ := exists_removeDotSegments h
    rw [heq, removeDotSegments_pathOf hkept]

/-- After an authority there is a rooted path or none. -/
theorem pathAbempty_of_stop {s : List Char} (h : ∀ c ∈ s.head?, inAuthority c = false) :
    PathAbempty (uriTail s).path := by
  cases s with
  | nil => exact .inl rfl
  | cons c rest =>
    have hno : inAuthority c = false := h c rfl
    by_cases hin : inPath c = true
    · have hslash : c = '/' := by
        simp only [inPath, Bool.and_eq_true] at hin
        simpa [inAuthority, hin] using hno
      refine .inr ?_
      rw [hslash]
      rfl
    · exact .inl (List.takeWhile_cons_of_neg hin)

end Eidetic.Lib
