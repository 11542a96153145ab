import Eidetic.Py.Text

/-!
# Replacement templates of `re`

What `re.sub` puts in for a match when the pattern has no groups: the template,
with its escapes expanded. A template without an escape stands for itself, and
any other stands for something shorter, up to the first match it puts back.

The parser of `re` reads an escape at a backslash: a group, a letter escape, an
octal number, or the character itself; an unknown letter and a bad number raise.
There are no groups but the match, so `\g<0>` puts the match back and any other
group raises. The converse is by length: an escape that does not stand for
itself is two characters or more, and stands for one or for the match
(`expandTemplate_cases`).
-/

namespace Eidetic.Py

def isOctal (c : Char) : Bool := '0' ≤ c && c ≤ '7'

/-- The number that some octal digits write. -/
def octal (digits : Text) : Nat := digits.foldl (fun n c => 8 * n + (c.toNat - '0'.toNat)) 0

/-- The letters that stand for one character, and the backslash. -/
def letterEscape (c : Char) : Option Char :=
  if c = 'a' then some (Char.ofNat 7)
  else if c = 'b' then some (Char.ofNat 8)
  else if c = 'f' then some (Char.ofNat 12)
  else if c = 'n' then some '\n'
  else if c = 'r' then some '\r'
  else if c = 't' then some '\t'
  else if c = 'v' then some (Char.ofNat 11)
  else if c = '\\' then some '\\'
  else none

/-- `\g<name>` from the bracket on; the only group is the match itself. A name is
never with a backslash. -/
def groupEscape (groupNumber : Text → Option Nat) (whole : Text) (rest : Text) :
    Option (Text × Text) :=
  match rest with
  | '<' :: rest =>
    let name := rest.takeWhile fun c => c ≠ '>'
    if name = [] ∨ '\\' ∈ name ∨ groupNumber name ≠ some 0 then none
    else
      match rest.dropWhile fun c => c ≠ '>' with
      | _ :: after => some (whole, after)
      | [] => none
  | _ => none

/-- One escape, from the character after its backslash on: what it stands for and
what is left of the template, or the error. -/
def templateEscape (groupNumber : Text → Option Nat) (whole : Text) (c : Char) (rest : Text) :
    Option (Text × Text) :=
  if c = 'g' then groupEscape groupNumber whole rest
  else if c = '0' then
    let digits := (rest.take 2).takeWhile isOctal
    some ([Char.ofNat (octal digits % 256)], rest.drop digits.length)
  else if c.isDigit then
    match rest with
    | d :: e :: after =>
      -- three octal digits, or a group that is not there
      if isOctal c ∧ isOctal d ∧ isOctal e ∧ octal [c, d, e] ≤ 255 then
        some ([Char.ofNat (octal [c, d, e])], after)
      else none
    | _ => none
  else
    match letterEscape c with
    | some x => some ([x], rest)
    | none => if c.isAlpha then none else some (['\\', c], rest)

theorem groupEscape_some {groupNumber : Text → Option Nat} {whole rest out after : Text}
    (h : groupEscape groupNumber whole rest = some (out, after)) : out = whole ∧ after <:+ rest := by
  unfold groupEscape at h
  split at h
  next rest =>
    dsimp only at h
    split at h
    next => exact absurd h (by simp)
    next =>
      split at h
      next x after' hdrop =>
        obtain ⟨rfl, rfl⟩ := Prod.mk.inj (Option.some.inj h)
        refine ⟨rfl, ?_⟩
        have hsuffix : x :: after' <:+ rest := hdrop ▸ List.dropWhile_suffix _
        exact ((List.suffix_cons x after').trans hsuffix).trans (List.suffix_cons '<' rest)
      next => exact absurd h (by simp)
  next => exact absurd h (by simp)

/-- An escape stands for itself, for one character or for the match. -/
theorem templateEscape_some {groupNumber : Text → Option Nat} {whole rest out after : Text} {c : Char}
    (h : templateEscape groupNumber whole c rest = some (out, after)) :
    after <:+ rest ∧
      ((out = ['\\', c] ∧ after = rest ∧ c.isAlphanum = false ∧ c ≠ '\\') ∨
        (∃ x, out = [x]) ∨ out = whole) := by
  unfold templateEscape at h
  split at h
  next =>
    obtain ⟨hout, hafter⟩ := groupEscape_some h
    exact ⟨hafter, Or.inr (Or.inr hout)⟩
  next =>
    split at h
    next =>
      obtain ⟨rfl, rfl⟩ := Prod.mk.inj (Option.some.inj h)
      exact ⟨List.drop_suffix _ _, Or.inr (Or.inl ⟨_, rfl⟩)⟩
    next =>
      split at h
      next =>
        split at h
        next d e after' =>
          split at h
          next =>
            obtain ⟨rfl, rfl⟩ := Prod.mk.inj (Option.some.inj h)
            refine ⟨?_, Or.inr (Or.inl ⟨_, rfl⟩)⟩
            exact (List.suffix_cons e _).trans (List.suffix_cons d _)
          next => exact absurd h (by simp)
        next => exact absurd h (by simp)
      next hdigit =>
        split at h
        next =>
          obtain ⟨rfl, rfl⟩ := Prod.mk.inj (Option.some.inj h)
          exact ⟨List.suffix_refl _, Or.inr (Or.inl ⟨_, rfl⟩)⟩
        next hletter =>
          split at h
          next => exact absurd h (by simp)
          next halpha =>
            obtain ⟨rfl, rfl⟩ := Prod.mk.inj (Option.some.inj h)
            refine ⟨List.suffix_refl _, Or.inl ⟨rfl, rfl, ?_, ?_⟩⟩
            · simp only [Char.isAlphanum, Bool.or_eq_false_iff]
              exact ⟨by simpa using halpha, by simpa using hdigit⟩
            · rintro rfl
              exact absurd hletter (by decide)

/-- A template with its escapes expanded, `none` for the error of a bad one. -/
def expandTemplate (groupNumber : Text → Option Nat) (whole : Text) : Text → Option Text
  | [] => some []
  | c :: rest =>
    if c = '\\' then
      match rest with
      | [] => none
      | d :: rest =>
        match _h : templateEscape groupNumber whole d rest with
        | some (out, after) => (expandTemplate groupNumber whole after).map (out ++ ·)
        | none => none
    else (expandTemplate groupNumber whole rest).map (c :: ·)
  termination_by t => t.length
  decreasing_by
    · have := (templateEscape_some _h).1.length_le
      simp only [List.length_cons]
      omega
    · simp

/-- No backslash comes before a letter, a digit, another backslash or the end. -/
def isLiteral : Text → Bool
  | [] => true
  | c :: rest =>
    (c ≠ '\\' || rest.head?.any fun d => !d.isAlphanum && d ≠ '\\') && isLiteral rest

variable {groupNumber : Text → Option Nat} {whole : Text}

theorem expandTemplate_cons {c : Char} (hc : c ≠ '\\') (rest : Text) :
    expandTemplate groupNumber whole (c :: rest) =
      (expandTemplate groupNumber whole rest).map (c :: ·) := by
  rw [expandTemplate.eq_def]
  dsimp only
  rw [if_neg hc]

theorem expandTemplate_escape {d : Char} {rest out after : Text}
    (h : templateEscape groupNumber whole d rest = some (out, after)) :
    expandTemplate groupNumber whole ('\\' :: d :: rest) =
      (expandTemplate groupNumber whole after).map (out ++ ·) := by
  rw [expandTemplate, if_pos rfl]
  split
  next hsome =>
    obtain ⟨rfl, rfl⟩ := Prod.mk.inj (Option.some.inj (hsome.symm.trans h))
    rfl
  next hnone => exact absurd (hnone.symm.trans h) (by simp)

theorem expandTemplate_badEscape {d : Char} {rest : Text}
    (h : templateEscape groupNumber whole d rest = none) :
    expandTemplate groupNumber whole ('\\' :: d :: rest) = none := by
  rw [expandTemplate, if_pos rfl]
  split
  next hsome => exact absurd (hsome.symm.trans h) (by simp)
  next => rfl

/-- What has no backslash is put in as it stands. -/
theorem expandTemplate_append {plain : Text} (h : '\\' ∉ plain) (rest : Text) :
    expandTemplate groupNumber whole (plain ++ rest) =
      (expandTemplate groupNumber whole rest).map (plain ++ ·) := by
  induction plain with
  | nil => simp
  | cons c plain ih =>
    rw [List.mem_cons, not_or] at h
    rw [List.cons_append, expandTemplate_cons (Ne.symm h.1), ih h.2, Option.map_map]
    rfl

theorem templateEscape_literal {c : Char} (halnum : c.isAlphanum = false) (hne : c ≠ '\\') (rest : Text) :
    templateEscape groupNumber whole c rest = some (['\\', c], rest) := by
  simp only [Char.isAlphanum, Bool.or_eq_false_iff] at halnum
  have hletter : letterEscape c = none := by
    unfold letterEscape
    iterate 7 rw [if_neg (by rintro rfl; exact absurd halnum.1 (by decide))]
    rw [if_neg hne]
  unfold templateEscape
  rw [if_neg (by rintro rfl; exact absurd halnum.1 (by decide)),
    if_neg (by rintro rfl; exact absurd halnum.2 (by decide)), if_neg (by simp [halnum.2]), hletter]
  simp [halnum.1]

/-- A literal template stands for itself. -/
theorem expandTemplate_literal {t : Text} (h : isLiteral t) :
    expandTemplate groupNumber whole t = some t := by
  induction t using expandTemplate.induct groupNumber whole with
  | case1 => rw [expandTemplate]
  | case2 => exact absurd h (by decide)
  | case3 d rest out after hescape ih =>
    rw [isLiteral, isLiteral] at h
    simp only [Bool.and_eq_true, Bool.or_eq_true] at h
    obtain ⟨hd, _, hrest⟩ := h
    have hd : d.isAlphanum = false ∧ d ≠ '\\' := by simpa using hd
    obtain ⟨rfl, rfl⟩ :=
      Prod.mk.inj (Option.some.inj (hescape.symm.trans (templateEscape_literal hd.1 hd.2 rest)))
    rw [expandTemplate_escape hescape, ih hrest]
    rfl
  | case4 d rest hnone =>
    rw [isLiteral] at h
    have hd : d.isAlphanum = false ∧ d ≠ '\\' := by
      simp only [Bool.and_eq_true, Bool.or_eq_true] at h
      simpa using h.1
    exact absurd (hnone.symm.trans (templateEscape_literal hd.1 hd.2 rest)) (by simp)
  | case5 c rest hc ih =>
    rw [isLiteral] at h
    rw [expandTemplate_cons hc, ih (Bool.and_eq_true_iff.mp h).2]
    rfl

/-- Any other template becomes shorter, up to the first bracket, when the match
begins with one. -/
theorem expandTemplate_cases {t e : Text} (hfree : '[' ∉ t) (hwhole : whole.head? = some '[')
    (h : expandTemplate groupNumber whole t = some e) :
    (e = t ∧ isLiteral t) ∨ (e.takeWhile fun c => c ≠ '[').length < t.length := by
  induction t using expandTemplate.induct groupNumber whole generalizing e with
  | case1 =>
    rw [expandTemplate] at h
    exact Or.inl ⟨(Option.some.inj h).symm, rfl⟩
  | case2 =>
    rw [expandTemplate, if_pos rfl] at h
    exact absurd h (by simp)
  | case3 d rest out after hescape ih =>
    rw [expandTemplate_escape hescape] at h
    obtain ⟨e, he, rfl⟩ := Option.map_eq_some_iff.mp h
    obtain ⟨hsuffix, hout⟩ := templateEscape_some hescape
    have hafter : '[' ∉ after := fun hmem =>
      hfree (List.mem_cons_of_mem _ (List.mem_cons_of_mem _ (hsuffix.subset hmem)))
    have hlength := hsuffix.length_le
    have hrec := ih hafter he
    have hshort : (e.takeWhile fun c => c ≠ '[').length ≤ after.length := by
      rcases hrec with ⟨rfl, _⟩ | hlt
      · exact (List.takeWhile_sublist _).length_le
      · omega
    simp only [List.length_cons]
    rcases hout with ⟨rfl, rfl, halnum, hne⟩ | ⟨x, rfl⟩ | rfl
    · have hd : d ≠ '[' := by
        rintro rfl
        exact hfree (by simp)
      rcases hrec with ⟨rfl, hliteral⟩ | hlt
      · refine Or.inl ⟨rfl, ?_⟩
        simp [isLiteral, halnum, hne, hliteral]
      · right
        simp only [List.cons_append, List.nil_append]
        rw [List.takeWhile_cons_of_pos (by decide), List.takeWhile_cons_of_pos (by simpa using hd)]
        simp only [List.length_cons]
        omega
    · right
      rw [List.singleton_append, List.takeWhile_cons]
      split
      next =>
        simp only [List.length_cons]
        omega
      next =>
        simp only [List.length_nil]
        omega
    · right
      cases out with
      | nil => exact absurd hwhole (by simp)
      | cons x more =>
        obtain rfl : x = '[' := by simpa using hwhole
        rw [List.cons_append, List.takeWhile_cons_of_neg (by simp)]
        simp only [List.length_nil]
        omega
  | case4 d rest hnone =>
    rw [expandTemplate_badEscape hnone] at h
    exact absurd h (by simp)
  | case5 c rest hc ih =>
    rw [expandTemplate_cons hc] at h
    obtain ⟨e, he, rfl⟩ := Option.map_eq_some_iff.mp h
    rw [List.mem_cons, not_or] at hfree
    rcases ih hfree.2 he with ⟨rfl, hliteral⟩ | hlt
    · refine Or.inl ⟨rfl, ?_⟩
      simp [isLiteral, hc, hliteral]
    · right
      rw [List.takeWhile_cons_of_pos (by simpa using Ne.symm hfree.1)]
      simp only [List.length_cons]
      omega

end Eidetic.Py
