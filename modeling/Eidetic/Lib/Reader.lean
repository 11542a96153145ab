import Mathlib.Data.List.Forall2

/-!
# Readers of separated lists

A reader takes a value off the front of a list of symbols. `readSeq` reads the
values between an opening symbol and `close`, separated by `sep`; it reads back
what `intercalate` prints, and what it has read ends with `close`.

What a reader leaves is the end of what there was (`Reader.Consumes`). That a
text is read back is stated with any rest behind it (`ReadsBack`), so that the
values of a list are read back one after the other, each from a text in which
the others still stand.
-/

namespace Eidetic.Lib

variable {σ α : Type}

/-- Takes a value off the front, if there is one. -/
abbrev Reader (σ α : Type) := List σ → Option (α × List σ)

/-- What is left is the end of what there was. -/
def Reader.Consumes (read : Reader σ α) : Prop :=
  ∀ t x rest, read t = some (x, rest) → rest <:+ t

/-- The text is read back as the value, before any rest that may follow it. -/
def ReadsBack (read : Reader σ α) (ok : List σ → Prop) (text : List σ) (x : α) : Prop :=
  ∀ rest, ok rest → read (text ++ rest) = some (x, rest)

/-- A text is no longer than the list it stands in. -/
theorem length_le_intercalate (sep : List σ) {text : List σ} {texts : List (List σ)}
    (h : text ∈ texts) :
    text.length ≤ (sep.intercalate texts).length := by
  induction texts with
  | nil => exact absurd h (by simp)
  | cons t ts ih =>
    cases ts with
    | nil =>
      rw [List.mem_singleton] at h
      exact Nat.le_of_eq (by rw [List.intercalate_singleton, h])
    | cons t' ts =>
      rw [List.intercalate_cons_cons, List.length_append, List.length_append]
      rcases List.mem_cons.mp h with rfl | hts
      · omega
      · have := ih hts
        omega

/-- There are no more texts than symbols. -/
theorem count_le_intercalate (sep : List σ) {texts : List (List σ)} (h : ∀ t ∈ texts, t ≠ []) :
    texts.length ≤ (sep.intercalate texts).length := by
  induction texts with
  | nil => exact Nat.le_refl _
  | cons t ts ih =>
    have ht := List.length_pos_iff.mpr (h t (by simp))
    cases ts with
    | nil =>
      rw [List.intercalate_singleton]
      exact ht
    | cons t' ts =>
      have hts := ih fun x hx => h x (List.mem_cons_of_mem _ hx)
      rw [List.intercalate_cons_cons, List.length_append, List.length_append, List.length_cons]
      omega

/-- The symbols around and between the values, and the blanks to skip. -/
structure ListSyntax (σ : Type) where
  skip : List σ → List σ
  sep : σ
  close : σ
  sep_ne_close : sep ≠ close
  skip_suffix : ∀ t, skip t <:+ t
  skip_sep : ∀ t, skip (sep :: t) = sep :: t
  skip_close : ∀ t, skip (close :: t) = close :: t

section

variable [DecidableEq σ] (l : ListSyntax σ) (read : Reader σ α)

/-- The values up to `close`, at least one and at most so many. -/
def readMore : Nat → Reader σ (List α)
  | 0, _ => none
  | n + 1, t =>
    match read t with
    | none => none
    | some (x, t) =>
      match l.skip t with
      | [] => none
      | c :: rest =>
        if c = l.close then some ([x], rest)
        else if c = l.sep then
          match readMore n (l.skip rest) with
          | none => none
          | some (xs, rest) => some (x :: xs, rest)
        else none

/-- The values after the opening symbol, perhaps none. -/
def readSeq (n : Nat) : Reader σ (List α) := fun t =>
  match l.skip t with
  | [] => none
  | c :: rest => if c = l.close then some ([], rest) else readMore l read n (c :: rest)

variable {l read}

theorem readMore_close (hread : read.Consumes) {n : Nat} {t rest : List σ} {xs : List α}
    (h : readMore l read n t = some (xs, rest)) : l.close :: rest <:+ t := by
  induction n generalizing t xs rest with
  | zero => exact absurd h (by simp [readMore])
  | succ n ih =>
    rw [readMore] at h
    split at h
    next => exact absurd h (by simp)
    next x t' hx =>
      have hskip := (l.skip_suffix t').trans (hread t x t' hx)
      split at h
      next => exact absurd h (by simp)
      next c rest' hc =>
        rw [hc] at hskip
        split at h
        next hclose =>
          obtain ⟨rfl, rfl⟩ := by simpa using h
          rw [hclose] at hskip
          exact hskip
        next =>
          split at h
          next =>
            split at h
            next => exact absurd h (by simp)
            next xs' rest'' hmore =>
              obtain ⟨rfl, rfl⟩ := by simpa using h
              have hrest : rest' <:+ t := (List.suffix_cons c rest').trans hskip
              exact ((ih hmore).trans (l.skip_suffix rest')).trans hrest
          next => exact absurd h (by simp)

/-- What is read ends with `close`. -/
theorem readSeq_close (hread : read.Consumes) {n : Nat} {t rest : List σ} {xs : List α}
    (h : readSeq l read n t = some (xs, rest)) : l.close :: rest <:+ t := by
  unfold readSeq at h
  have hskip := l.skip_suffix t
  split at h
  next => exact absurd h (by simp)
  next c rest' hc =>
    rw [hc] at hskip
    split at h
    next hclose =>
      obtain ⟨rfl, rfl⟩ := by simpa using h
      rw [hclose] at hskip
      exact hskip
    next => exact (readMore_close hread h).trans hskip

variable {ok : List σ → Prop} (hsep : ∀ t, ok (l.sep :: t)) (hclose : ∀ t, ok (l.close :: t))

include hsep hclose

theorem readMore_intercalate {gap : List σ} {text : List σ} {texts : List (List σ)} {x : α}
    {xs : List α} (hreads : List.Forall₂ (ReadsBack read ok) (text :: texts) (x :: xs))
    (hgap : ∀ text' ∈ texts, ∀ rest, l.skip (gap ++ (text' ++ rest)) = text' ++ rest)
    {n : Nat} (hn : texts.length < n) (rest : List σ) :
    readMore l read n ((l.sep :: gap).intercalate (text :: texts) ++ l.close :: rest)
      = some (x :: xs, rest) := by
  induction n generalizing text texts x xs with
  | zero => omega
  | succ n ih =>
    obtain ⟨hx, hxs⟩ := List.forall₂_cons.mp hreads
    rw [readMore]
    cases hxs with
    | nil =>
      rw [List.intercalate_singleton, hx _ (hclose rest)]
      dsimp only
      rw [l.skip_close]
      dsimp only
      rw [if_pos rfl]
    | @cons text' x' texts xs hx' hxs =>
      have hlen : texts.length < n := by
        rw [List.length_cons] at hn
        omega
      rw [List.intercalate_cons_cons, List.append_assoc, List.append_assoc, List.cons_append,
        hx _ (hsep _)]
      dsimp only
      rw [l.skip_sep]
      dsimp only
      rw [if_neg l.sep_ne_close, if_pos rfl]
      have hmore := ih (List.forall₂_cons.mpr ⟨hx', hxs⟩)
        (fun t ht => hgap t (List.mem_cons_of_mem _ ht)) hlen
      have hhead : ∃ more, (l.sep :: gap).intercalate (text' :: texts) = text' ++ more := by
        cases texts with
        | nil => exact ⟨[], by rw [List.intercalate_singleton, List.append_nil]⟩
        | cons t ts => exact ⟨_, by rw [List.intercalate_cons_cons, List.append_assoc]⟩
      obtain ⟨more, hhead⟩ := hhead
      rw [hhead, List.append_assoc, hgap text' (by simp), ← List.append_assoc, ← hhead, hmore]

/-- What `intercalate` prints is read back. -/
theorem readSeq_intercalate {gap : List σ} {texts : List (List σ)} {xs : List α}
    (hreads : List.Forall₂ (ReadsBack read ok) texts xs)
    (hgap : ∀ text ∈ texts, ∀ rest, l.skip (gap ++ (text ++ rest)) = text ++ rest)
    (hhead : ∀ text ∈ texts, ∃ c t, text = c :: t ∧ c ≠ l.close ∧ ∀ rest, l.skip (c :: rest) = c :: rest)
    {n : Nat} (hn : texts.length ≤ n) (rest : List σ) :
    readSeq l read n ((l.sep :: gap).intercalate texts ++ l.close :: rest) = some (xs, rest) := by
  unfold readSeq
  cases hreads with
  | nil =>
    rw [List.intercalate_nil, List.nil_append, l.skip_close]
    dsimp only
    rw [if_pos rfl]
  | @cons text x texts xs hx hxs =>
    obtain ⟨c, t, htext, hc, hskip⟩ := hhead text (by simp)
    have hmore := readMore_intercalate hsep hclose (List.forall₂_cons.mpr ⟨hx, hxs⟩)
      (fun t ht => hgap t (List.mem_cons_of_mem _ ht)) (Nat.lt_of_succ_le hn) rest
    have hcons : ∃ more, (l.sep :: gap).intercalate (text :: texts) = c :: more := by
      cases texts with
      | nil => exact ⟨t, by rw [List.intercalate_singleton, htext]⟩
      | cons t' ts => exact ⟨_, by rw [List.intercalate_cons_cons, htext]; rfl⟩
    obtain ⟨more, hcons⟩ := hcons
    rw [hcons, List.cons_append] at hmore ⊢
    rw [hskip]
    dsimp only
    rw [if_neg hc, hmore]

end

end Eidetic.Lib
