import Eidetic.Py.Text
import Mathlib.Data.List.Chain

/-!
# Single spaces

What `" ".join(text.split())` leaves of a text, and that it leaves a text as it
is exactly when its only whitespace is single spaces within it.

`SingleSpaces` is what matters within a text, and `Trimmed` what matters at its
ends; together they say that the text is its words joined. Both are shown of
joins, of parts and of what is put around a word, so that a text that is put
together from literals and words is known to be left as it is.
-/

namespace Eidetic.Py

/-- Whitespace is single spaces, but perhaps at the ends. -/
structure SingleSpaces (t : Text) : Prop where
  space : ∀ c ∈ t, isSpace c = true → c = ' '
  chain : t.IsChain fun a b => ¬ (isSpace a = true ∧ isSpace b = true)

/-- There is no whitespace at the ends. -/
structure Trimmed (t : Text) : Prop where
  head : ∀ c ∈ t.head?, isSpace c = false
  last : ∀ c ∈ t.getLast?, isSpace c = false

/-- A word: some characters that are no whitespace. -/
structure IsWord (w : Text) : Prop where
  ne_nil : w ≠ []
  solid : ∀ c ∈ w, isSpace c = false

/-! ## Joining and splitting -/

theorem wordsAux_isWord (t acc : Text) (hacc : ∀ c ∈ acc, isSpace c = false) :
    ∀ w ∈ wordsAux t acc, IsWord w := by
  have hfound : ∀ acc : Text, (∀ c ∈ acc, isSpace c = false) → acc ≠ [] → IsWord acc.reverse :=
    fun acc hacc hne => ⟨by simpa using hne, fun c hc => hacc c (List.mem_reverse.mp hc)⟩
  induction t generalizing acc with
  | nil =>
    cases acc with
    | nil => exact fun w hw => absurd hw (by simp [wordsAux])
    | cons a acc =>
      intro w hw
      obtain rfl := List.mem_singleton.mp hw
      exact hfound _ hacc (by simp)
  | cons c cs ih =>
    intro w hw
    unfold wordsAux at hw
    split at hw
    next =>
      split at hw
      next => exact ih [] (by simp) w hw
      next hne =>
        rcases List.mem_cons.mp hw with rfl | hw
        · exact hfound _ hacc hne
        · exact ih [] (by simp) w hw
    next hc =>
      refine ih (c :: acc) ?_ w hw
      intro x hx
      rcases List.mem_cons.mp hx with rfl | hx
      · exact Bool.not_eq_true _ ▸ hc
      · exact hacc x hx

theorem words_isWord (t : Text) : ∀ w ∈ words t, IsWord w := wordsAux_isWord t [] (by simp)

theorem joinWords_cons_cons (w x : Text) (rest : List Text) :
    joinWords (w :: x :: rest) = w ++ ' ' :: joinWords (x :: rest) := by
  simp [joinWords, List.intercalate, List.intersperse]

theorem mem_joinWords {c : Char} {ws : List Text} (h : c ∈ joinWords ws) :
    c = ' ' ∨ ∃ w ∈ ws, c ∈ w := by
  induction ws with
  | nil => exact absurd h (by simp [joinWords])
  | cons w rest ih =>
    cases rest with
    | nil => exact Or.inr ⟨w, List.mem_cons_self .., by simpa [joinWords] using h⟩
    | cons x rest =>
      rw [joinWords_cons_cons] at h
      rcases List.mem_append.mp h with h | h
      · exact Or.inr ⟨w, List.mem_cons_self .., h⟩
      · rcases List.mem_cons.mp h with h | h
        · exact Or.inl h
        · rcases ih h with h | ⟨y, hy, hc⟩
          · exact Or.inl h
          · exact Or.inr ⟨y, List.mem_cons_of_mem _ hy, hc⟩

theorem mem_wordsAux {c : Char} {t acc w : Text} (hw : w ∈ wordsAux t acc) (hc : c ∈ w) :
    c ∈ acc ∨ c ∈ t := by
  induction t generalizing acc with
  | nil =>
    cases acc with
    | nil => exact absurd hw (by simp [wordsAux])
    | cons a acc =>
      obtain rfl := List.mem_singleton.mp hw
      exact Or.inl (List.mem_reverse.mp hc)
  | cons x cs ih =>
    unfold wordsAux at hw
    split at hw
    next =>
      split at hw
      next =>
        rcases ih hw with h | h
        · exact absurd h (by simp)
        · exact Or.inr (List.mem_cons_of_mem _ h)
      next =>
        rcases List.mem_cons.mp hw with rfl | hw
        · exact Or.inl (List.mem_reverse.mp hc)
        · rcases ih hw with h | h
          · exact absurd h (by simp)
          · exact Or.inr (List.mem_cons_of_mem _ h)
    next =>
      rcases ih hw with h | h
      · rcases List.mem_cons.mp h with rfl | h
        · exact Or.inr (List.mem_cons_self ..)
        · exact Or.inl h
      · exact Or.inr (List.mem_cons_of_mem _ h)

theorem mem_joinWords_words {c : Char} {t : Text} (h : c ∈ joinWords (words t)) :
    c = ' ' ∨ c ∈ t := by
  rcases mem_joinWords h with h | ⟨w, hw, hc⟩
  · exact Or.inl h
  · rcases mem_wordsAux hw hc with h | h
    · exact absurd h (by simp)
    · exact Or.inr h

/-! ## Single spaces -/

theorem SingleSpaces.append {a b : Text} (ha : SingleSpaces a) (hb : SingleSpaces b)
    (h : ∀ x ∈ a.getLast?, ∀ y ∈ b.head?, ¬ (isSpace x = true ∧ isSpace y = true)) :
    SingleSpaces (a ++ b) := by
  refine ⟨?_, List.isChain_append.mpr ⟨ha.chain, hb.chain, h⟩⟩
  intro c hc
  rcases List.mem_append.mp hc with hc | hc
  · exact ha.space c hc
  · exact hb.space c hc

theorem SingleSpaces.part {a t : Text} (ht : SingleSpaces t) (h : a <:+: t) : SingleSpaces a :=
  ⟨fun c hc => ht.space c (h.subset hc), ht.chain.infix h⟩

theorem IsWord.singleSpaces {w : Text} (h : IsWord w) : SingleSpaces w := by
  refine ⟨fun c hc hspace => absurd hspace (by rw [h.solid c hc]; simp), ?_⟩
  refine List.Pairwise.isChain (List.pairwise_of_forall_mem_list ?_)
  intro a ha b hb hspaces
  exact absurd hspaces.1 (by rw [h.solid a ha]; simp)

theorem IsWord.trimmed {w : Text} (h : IsWord w) : Trimmed w :=
  ⟨fun c hc => h.solid c (List.mem_of_mem_head? hc),
    fun c hc => h.solid c (List.mem_of_mem_getLast? hc)⟩

/-- A word between two texts keeps their spaces apart. -/
theorem SingleSpaces.around {a w b : Text} (ha : SingleSpaces a) (hw : IsWord w)
    (hb : SingleSpaces b) : SingleSpaces (a ++ w ++ b) := by
  refine (ha.append hw.singleSpaces ?_).append hb ?_
  · intro x _ y hy hspaces
    exact absurd hspaces.2 (by rw [hw.trimmed.head y hy]; simp)
  · intro x hx y _ hspaces
    rw [List.getLast?_append_of_ne_nil _ hw.ne_nil] at hx
    exact absurd hspaces.1 (by rw [hw.trimmed.last x hx]; simp)

/-- What comes before a word has its start, or the word has. -/
theorem head_around {a w : Text} (ha : Trimmed a) (hw : IsWord w) (b : Text) :
    ∀ c ∈ (a ++ w ++ b).head?, isSpace c = false := by
  intro c hc
  rw [List.head?_append_of_ne_nil _ (List.append_ne_nil_of_right_ne_nil a hw.ne_nil)] at hc
  by_cases hnil : a = []
  · rw [hnil, List.nil_append] at hc
    exact hw.trimmed.head c hc
  · rw [List.head?_append_of_ne_nil _ hnil] at hc
    exact ha.head c hc

theorem last_around {b w : Text} (a : Text) (hw : IsWord w) (hb : Trimmed b) :
    ∀ c ∈ (a ++ w ++ b).getLast?, isSpace c = false := by
  intro c hc
  rw [List.append_assoc,
    List.getLast?_append_of_ne_nil _ (List.append_ne_nil_of_left_ne_nil hw.ne_nil b)] at hc
  by_cases hnil : b = []
  · rw [hnil, List.append_nil] at hc
    exact hw.trimmed.last c hc
  · rw [List.getLast?_append_of_ne_nil _ hnil] at hc
    exact hb.last c hc

/-! ## What splitting and joining leaves -/

theorem joinWords_cons (w : Text) (rest : List Text) : ∃ more, joinWords (w :: rest) = w ++ more := by
  cases rest with
  | nil => exact ⟨[], by simp [joinWords]⟩
  | cons x rest => exact ⟨_, joinWords_cons_cons w x rest⟩

theorem joinWords_ne_nil {ws : List Text} (h : ∀ w ∈ ws, IsWord w) (hne : ws ≠ []) :
    joinWords ws ≠ [] := by
  cases ws with
  | nil => exact absurd rfl hne
  | cons w rest =>
    obtain ⟨more, hmore⟩ := joinWords_cons w rest
    have hw := (h w (List.mem_cons_self ..)).ne_nil
    rw [hmore]
    exact fun hnil => hw (List.append_eq_nil_iff.mp hnil).1

theorem joinWords_spaces {ws : List Text} (h : ∀ w ∈ ws, IsWord w) :
    SingleSpaces (joinWords ws) ∧ Trimmed (joinWords ws) := by
  induction ws with
  | nil => exact ⟨⟨by simp [joinWords], by simp [joinWords]⟩,
      ⟨by simp [joinWords], by simp [joinWords]⟩⟩
  | cons w rest ih =>
    have hw := h w (List.mem_cons_self ..)
    have hrest : ∀ x ∈ rest, IsWord x := fun x hx => h x (List.mem_cons_of_mem _ hx)
    obtain ⟨hspaces, htrimmed⟩ := ih hrest
    cases rest with
    | nil =>
      have hone : joinWords [w] = w := by simp [joinWords]
      rw [hone]
      exact ⟨hw.singleSpaces, hw.trimmed⟩
    | cons x rest =>
      have hne := joinWords_ne_nil hrest (by simp)
      have hblank : SingleSpaces [' '] := ⟨by simp, by simp⟩
      rw [joinWords_cons_cons]
      refine ⟨?_, ?_, ?_⟩
      · refine hw.singleSpaces.append (hblank.append hspaces ?_) ?_
        · intro a _ b hb hboth
          exact absurd hboth.2 (by rw [htrimmed.head b hb]; simp)
        · intro a ha b _ hboth
          exact absurd hboth.1 (by rw [hw.trimmed.last a ha]; simp)
      · intro c hc
        rw [List.head?_append_of_ne_nil _ hw.ne_nil] at hc
        exact hw.trimmed.head c hc
      · intro c hc
        rw [← List.singleton_append, ← List.append_assoc,
          List.getLast?_append_of_ne_nil _ hne] at hc
        exact htrimmed.last c hc

/-- Splitting a text with single spaces only and joining it gives it back; `acc`
is the word the text goes on with. -/
theorem joinWords_wordsAux {t acc : Text} (hspaces : SingleSpaces t)
    (hlast : ∀ c ∈ t.getLast?, isSpace c = false)
    (hhead : acc = [] → ∀ c ∈ t.head?, isSpace c = false) :
    joinWords (wordsAux t acc) = acc.reverse ++ t := by
  induction t generalizing acc with
  | nil =>
    cases acc with
    | nil => rfl
    | cons a acc => simp [wordsAux, joinWords]
  | cons c cs ih =>
    have hcs : SingleSpaces cs := hspaces.part (List.suffix_cons c cs).isInfix
    have hlast' : ∀ x ∈ cs.getLast?, isSpace x = false := by
      intro x hx
      refine hlast x ?_
      rw [List.getLast?_cons]
      simp [Option.mem_def.mp hx]
    unfold wordsAux
    split
    next hc =>
      have hacc : acc ≠ [] := by
        intro hnil
        exact absurd hc (by rw [hhead hnil c rfl]; simp)
      -- the space is not the last character, and no space follows it
      cases cs with
      | nil => exact absurd hc (by rw [hlast c rfl]; simp)
      | cons d cs =>
        have hd : isSpace d = false := by
          by_contra hspace
          have hchain := (List.isChain_cons_cons.mp hspaces.chain).1
          exact hchain ⟨hc, Bool.not_eq_false _ ▸ hspace⟩
        have hmore : joinWords (wordsAux (d :: cs) []) = d :: cs :=
          ih hcs hlast' fun _ x hx => by
            obtain rfl := Option.some.inj hx
            exact hd
        rw [if_neg hacc]
        have hwords := wordsAux_isWord (d :: cs) [] (by simp)
        cases hws : wordsAux (d :: cs) [] with
        | nil => exact absurd hmore (by rw [hws]; simp [joinWords])
        | cons w rest =>
          rw [joinWords_cons_cons, ← hws, hmore, hspaces.space c (List.mem_cons_self ..) hc]
    next hc =>
      rw [ih hcs hlast' (fun hnil => absurd hnil (by simp)), List.reverse_cons, List.append_assoc]
      rfl

theorem joinWords_words {t : Text} (hspaces : SingleSpaces t) (htrimmed : Trimmed t) :
    joinWords (words t) = t :=
  joinWords_wordsAux hspaces htrimmed.last fun _ => htrimmed.head

/-- A word is read to its end. -/
theorem wordsAux_word {w : Text} (h : ∀ c ∈ w, isSpace c = false) (rest acc : Text) :
    wordsAux (w ++ rest) acc = wordsAux rest (w.reverse ++ acc) := by
  induction w generalizing acc with
  | nil => rfl
  | cons c cs ih =>
    have hc := h c (List.mem_cons_self ..)
    rw [List.cons_append, wordsAux, if_neg (by simp [hc]),
      ih (fun x hx => h x (List.mem_cons_of_mem _ hx)), List.reverse_cons, List.append_assoc]
    rfl

/-- The words that were joined are split again. -/
theorem words_joinWords {ws : List Text} (h : ∀ w ∈ ws, IsWord w) : words (joinWords ws) = ws := by
  unfold words
  induction ws with
  | nil => rfl
  | cons w rest ih =>
    have hw := h w (List.mem_cons_self ..)
    have hne : w.reverse ≠ [] := by simpa using hw.ne_nil
    cases rest with
    | nil =>
      have hone : joinWords [w] = w ++ [] := by simp [joinWords]
      rw [hone, wordsAux_word hw.solid, List.append_nil]
      cases hrev : w.reverse with
      | nil => exact absurd hrev hne
      | cons a acc =>
        show [(a :: acc).reverse] = [w]
        rw [← hrev, List.reverse_reverse]
    | cons x rest =>
      have hspace : isSpace ' ' = true := by decide
      rw [joinWords_cons_cons, wordsAux_word hw.solid, List.append_nil, wordsAux, if_pos hspace,
        if_neg hne, List.reverse_reverse, ih fun y hy => h y (List.mem_cons_of_mem _ hy)]

theorem dropWhile_trimmed {t : Text} (h : ∀ c ∈ t.head?, isSpace c = false) :
    t.dropWhile isSpace = t := by
  cases t with
  | nil => rfl
  | cons c cs =>
    rw [List.dropWhile_cons_of_neg]
    rw [h c rfl]
    simp

theorem strip_subset {c : Char} {t : Text} (h : c ∈ strip t) : c ∈ t := by
  have hr : c ∈ (lstrip t).reverse :=
    (List.dropWhile_sublist isSpace).subset (List.mem_reverse.mp h)
  exact (List.dropWhile_sublist isSpace).subset (List.mem_reverse.mp hr)

/-- What `strip()` leaves has no whitespace at its ends. -/
theorem trimmed_strip (t : Text) : Trimmed (strip t) := by
  have hno : ∀ u : Text, ∀ c ∈ (u.dropWhile isSpace).head?, isSpace c = false := by
    intro u c hc
    have hhead := List.head?_dropWhile_not isSpace u
    rw [Option.mem_def.mp hc] at hhead
    simpa using hhead
  have hprefix : strip t <+: lstrip t := by
    have hsuffix := (List.dropWhile_suffix isSpace (l := (lstrip t).reverse))
    simpa [strip, rstrip] using List.reverse_prefix.mpr hsuffix
  refine ⟨?_, ?_⟩
  · intro c hc
    -- the first character is the first after the leading whitespace
    obtain ⟨rest, hrest⟩ := hprefix
    refine hno t c ?_
    show c ∈ (lstrip t).head?
    rw [← hrest, List.head?_append, Option.mem_def.mp hc]
    rfl
  · intro c hc
    refine hno (lstrip t).reverse c ?_
    rw [← List.getLast?_reverse]
    exact hc

theorem strip_trimmed {t : Text} (h : Trimmed t) : strip t = t := by
  have hlast : ∀ c ∈ t.reverse.head?, isSpace c = false := by
    intro c hc
    rw [List.head?_reverse] at hc
    exact h.last c hc
  rw [strip, lstrip, dropWhile_trimmed h.head, rstrip, dropWhile_trimmed hlast, List.reverse_reverse]

theorem strip_strip (t : Text) : strip (strip t) = strip t := strip_trimmed (trimmed_strip t)

theorem mem_strip {c : Char} {t : Text} (h : c ∈ t) (hc : isSpace c = false) : c ∈ strip t := by
  have hkeep : ∀ u : Text, c ∈ u → c ∈ u.dropWhile isSpace := by
    intro u hu
    rw [← List.takeWhile_append_dropWhile (p := isSpace) (l := u), List.mem_append] at hu
    refine hu.resolve_left fun hmem => ?_
    rw [List.mem_takeWhile_imp hmem] at hc
    exact absurd hc (by simp)
  exact List.mem_reverse.mpr (hkeep _ (List.mem_reverse.mpr (hkeep t h)))

theorem strip_cons_space {c : Char} (hc : isSpace c = true) (t : Text) : strip (c :: t) = strip t := by
  rw [strip, lstrip, List.dropWhile_cons_of_pos hc]
  rfl

theorem strip_append_space {c : Char} (hc : isSpace c = true) (t : Text) :
    strip (t ++ [c]) = strip t := by
  by_cases hblank : strip t = []
  · rw [hblank, strip_eq_nil]
    intro d hd
    rcases List.mem_append.mp hd with hd | hd
    · exact strip_eq_nil.mp hblank d hd
    · rw [List.mem_singleton.mp hd]
      exact hc
  · have hlstrip : lstrip (t ++ [c]) = lstrip t ++ [c] := by
      unfold lstrip
      rw [List.dropWhile_append, if_neg]
      intro hempty
      refine hblank ?_
      rw [strip, lstrip, List.isEmpty_iff.mp hempty]
      rfl
    rw [strip, hlstrip, rstrip, List.reverse_append, List.reverse_singleton, List.singleton_append,
      List.dropWhile_cons_of_pos hc]
    rfl

end Eidetic.Py
