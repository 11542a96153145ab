import Eidetic.Files.Units
import Eidetic.Lib.Run

/-!
# What the chunks hold

Each chunk is a tail of the one before and then units as they come, so nothing
is lost between chunks. A chunk is over the size only where a tail and the unit
after it are.

The loop of `_chunk_units` keeps a buffer of units. Its invariant says what the
buffer has: units that follow one another in the text, behind a tail of the last
chunk, whose cost is what the loop has counted. A unit that does not fit closes
the chunk, and the next one begins with the tail, if tail and unit fit together.
So the chunks are within the size exactly when the units are and no tail with
the unit behind it is over (`chunkText_size_iff`).

That nothing is lost is about the same recursion. Every chunk ends with a group
of units, the groups are the units in order (`chunksFrom_groups`), and each
chunk begins with an end of the one before (`chunksFrom_overlap`). With what the
units keep of the text (`splitSemantic_solid`) the whole follows: no character
but whitespace is lost.
-/

namespace Eidetic.Files

open Eidetic.Py Eidetic.Lib

/-! ## The loop -/

/-- `buf` and `buf_len`. -/
structure Buffer where
  parts : List Text
  len : Nat

/-- `buf and buf_len + sep + len(unit) > size`. -/
def Buffer.full (size : Nat) (s : Buffer) (unit : Text) : Bool :=
  !s.parts.isEmpty && size < s.len + (if s.parts.isEmpty then 0 else 1) + unit.length

/-- What the loop makes of the buffer with a unit. -/
def Buffer.next (size overlap : Nat) (s : Buffer) (unit : Text) : Buffer :=
  let sep := if s.parts.isEmpty then 0 else 1
  if s.full size unit then
    let tail := overlapTail overlap (joinLines s.parts)
    ⟨(if tail.isEmpty then [] else [tail]) ++ [unit], tail.length + (sep + unit.length)⟩
  else ⟨s.parts ++ [unit], s.len + (sep + unit.length)⟩

/-- The chunks from a buffer on. -/
def chunksFrom (size overlap : Nat) (s : Buffer) (units : List Text) : List Text :=
  mergeLoop size overlap units s.parts s.len

theorem chunksFrom_cons (size overlap : Nat) (s : Buffer) (unit : Text) (rest : List Text) :
    chunksFrom size overlap s (unit :: rest)
      = (if s.full size unit then [joinLines s.parts] else [])
        ++ chunksFrom size overlap (s.next size overlap unit) rest := by
  unfold chunksFrom Buffer.next
  rw [mergeLoop]
  by_cases hfull : s.full size unit = true
  · rw [if_pos hfull, if_pos hfull]
    exact if_pos hfull
  · rw [if_neg hfull, if_neg hfull]
    exact if_neg hfull

/-- The parts are units or a tail, and `buf_len` is what they have joined. -/
structure Buffer.Built (s : Buffer) : Prop where
  parts : ∀ part ∈ s.parts, AtomicUnit part
  len : s.len = (joinLines s.parts).length

theorem built_empty : Buffer.Built ⟨[], 0⟩ := ⟨by simp, rfl⟩

/-! ## Joined parts -/

theorem joinLines_singleton (l : Text) : joinLines [l] = l := by
  simp [joinLines]

theorem joinLines_concat {ls : List Text} (hne : ls ≠ []) (l : Text) :
    joinLines (ls ++ [l]) = joinLines ls ++ '\n' :: l := by
  induction ls with
  | nil => exact absurd rfl hne
  | cons x rest ih =>
    cases rest with
    | nil => rw [List.singleton_append, joinLines_cons_cons, joinLines_singleton, joinLines_singleton]
    | cons y rest =>
      rw [List.cons_append, List.cons_append, joinLines_cons_cons, joinLines_cons_cons,
        ← List.cons_append, ih (by simp), List.append_assoc]
      rfl

theorem atomicUnit_append {a b : Text} (ha : AtomicUnit a) (hb : AtomicUnit b) (c : Char) :
    AtomicUnit (a ++ c :: b) := by
  refine ⟨by simp, ?_, ?_⟩
  · intro x hx
    rw [List.head?_append_of_ne_nil _ ha.ne_nil] at hx
    exact ha.trimmed.head x hx
  · intro x hx
    rw [← List.singleton_append, ← List.append_assoc, List.getLast?_append_of_ne_nil _ hb.ne_nil] at hx
    exact hb.trimmed.last x hx

theorem atomicUnit_joinLines {ls : List Text} (h : ∀ l ∈ ls, AtomicUnit l) (hne : ls ≠ []) :
    AtomicUnit (joinLines ls) := by
  induction ls with
  | nil => exact absurd rfl hne
  | cons x rest ih =>
    cases rest with
    | nil =>
      rw [joinLines_singleton]
      exact h x (List.mem_cons_self ..)
    | cons y rest =>
      rw [joinLines_cons_cons]
      refine atomicUnit_append (h x (List.mem_cons_self ..)) (ih ?_ (by simp)) '\n'
      exact fun l hl => h l (List.mem_cons_of_mem _ hl)

theorem joinLines_starts (ls more : List Text) : joinLines ls <+: joinLines (ls ++ more) := by
  induction ls with
  | nil => exact List.nil_prefix
  | cons x rest ih =>
    cases rest with
    | nil =>
      cases more with
      | nil => exact List.prefix_rfl
      | cons y more =>
        rw [List.singleton_append, joinLines_cons_cons, joinLines_singleton]
        exact List.prefix_append ..
    | cons y rest =>
      rw [List.cons_append, List.cons_append, joinLines_cons_cons, joinLines_cons_cons]
      exact (List.prefix_append_right_inj x).mpr (List.cons_prefix_cons.mpr ⟨rfl, ih⟩)

theorem joinLines_suffix (before ls : List Text) : joinLines ls <:+ joinLines (before ++ ls) := by
  induction before with
  | nil => exact List.suffix_rfl
  | cons x before ih =>
    cases hmore : before ++ ls with
    | nil =>
      obtain ⟨-, rfl⟩ := List.append_eq_nil_iff.mp hmore
      exact List.nil_suffix
    | cons y more =>
      rw [List.cons_append, hmore, joinLines_cons_cons, ← hmore]
      exact ih.trans ((List.suffix_cons '\n' _).trans (List.suffix_append ..))

theorem infix_joinLines {l : Text} {ls : List Text} (h : l ∈ ls) : l <:+: joinLines ls := by
  obtain ⟨before, after, rfl⟩ := List.append_of_mem h
  have hsuffix := (joinLines_suffix before (l :: after)).isInfix
  refine List.IsInfix.trans ?_ hsuffix
  have hprefix := (joinLines_starts [l] after).isInfix
  rwa [joinLines_singleton] at hprefix

/-! ## The tail -/

theorem afterBreak_suffix {t rest : Text} (h : afterBreak t = some rest) :
    rest <:+ t ∧ ∃ c ∈ rest, isSpace c = false := by
  induction t with
  | nil => exact absurd h (by simp [afterBreak])
  | cons c cs ih =>
    rw [afterBreak] at h
    split at h
    next hbreak =>
      obtain rfl := Option.some.inj h
      refine ⟨List.suffix_cons c cs, ?_⟩
      simpa using (Bool.and_eq_true_iff.mp hbreak).2
    next =>
      obtain ⟨hsuffix, hsolid⟩ := ih h
      exact ⟨hsuffix.trans (List.suffix_cons c cs), hsolid⟩

theorem lastChars_suffix (n : Nat) (chunk : Text) : lastChars n chunk <:+ chunk := by
  unfold lastChars
  split
  next => exact List.suffix_rfl
  next => exact List.drop_suffix ..

theorem lastChars_ne_nil {n : Nat} {chunk : Text} (h : chunk ≠ []) : lastChars n chunk ≠ [] := by
  unfold lastChars
  split
  next => exact h
  next hn =>
    have hpos := List.length_pos_iff.mpr h
    intro hnil
    have hlen := List.drop_eq_nil_iff.mp hnil
    omega

theorem atomicUnit_of_suffix {t chunk : Text} (hchunk : AtomicUnit chunk) (h : t <:+ chunk)
    (hne : t ≠ []) : AtomicUnit (strip t) ∧ strip t <:+ chunk := by
  have hlast : ∀ c ∈ t.getLast?, isSpace c = false := by
    intro c hc
    obtain ⟨front, rfl⟩ := h
    refine hchunk.trimmed.last c ?_
    rwa [List.getLast?_append_of_ne_nil _ hne]
  refine ⟨⟨fun hnil => ?_, trimmed_strip t⟩, (strip_suffix hlast).trans h⟩
  have hspace := strip_eq_nil.mp hnil _ (List.getLast_mem hne)
  rw [hlast _ (by rw [List.getLast?_eq_some_getLast hne]; rfl)] at hspace
  exact absurd hspace (by simp)

/-- What the next chunk begins with is the end of this one, and not empty. -/
theorem overlapTail_suffix (overlap : Nat) {chunk : Text} (hchunk : AtomicUnit chunk) :
    AtomicUnit (overlapTail overlap chunk) ∧ overlapTail overlap chunk <:+ chunk := by
  have hend : ∀ t : Text, t <:+ chunk → t ≠ [] →
      AtomicUnit (strip ((afterBreak t).getD t)) ∧ strip ((afterBreak t).getD t) <:+ chunk := by
    intro t ht hne
    cases hbreak : afterBreak t with
    | none => exact atomicUnit_of_suffix hchunk ht hne
    | some rest =>
      obtain ⟨hsuffix, c, hc, -⟩ := afterBreak_suffix hbreak
      exact atomicUnit_of_suffix hchunk (hsuffix.trans ht) (List.ne_nil_of_mem hc)
  unfold overlapTail
  dsimp only
  split
  next => exact hend _ (lastChars_suffix overlap chunk) (lastChars_ne_nil hchunk.ne_nil)
  next => exact hend _ List.suffix_rfl hchunk.ne_nil

theorem overlapTail_length {overlap : Nat} (hpos : 0 < overlap) (chunk : Text) :
    (overlapTail overlap chunk).length ≤ overlap := by
  have hend : ∀ t : Text, (strip ((afterBreak t).getD t)).length ≤ t.length := by
    intro t
    refine Nat.le_trans (strip_length_le _) ?_
    cases hbreak : afterBreak t with
    | none => exact Nat.le_refl _
    | some rest => exact (afterBreak_suffix hbreak).1.length_le
  unfold overlapTail
  dsimp only
  split
  next hlong =>
    refine Nat.le_trans (hend _) ?_
    rw [lastChars, if_neg (Nat.ne_of_gt hpos), List.length_drop]
    omega
  next hshort => exact Nat.le_trans (hend _) (Nat.le_of_not_lt hshort)

/-! ## A step -/

/-- The two things a unit can do to a buffer. -/
theorem next_cases (size overlap : Nat) {s : Buffer} (hs : s.Built) (unit : Text) :
    (s.full size unit = true ∧ s.parts ≠ [] ∧ (s.next size overlap unit).parts
        = [overlapTail overlap (joinLines s.parts), unit] ∧ (s.next size overlap unit).len
        = (overlapTail overlap (joinLines s.parts)).length + 1 + unit.length) ∨
    (s.full size unit = false ∧ (s.next size overlap unit).parts = s.parts ++ [unit] ∧
      (s.next size overlap unit).len
        = if s.parts = [] then unit.length else s.len + 1 + unit.length) := by
  cases hfull : s.full size unit with
  | true =>
    have hne : s.parts ≠ [] := by
      intro hnil
      simp [Buffer.full, hnil] at hfull
    -- a buffer that is flushed begins again with its overlap, which is never empty
    have htail := (overlapTail_suffix overlap (atomicUnit_joinLines hs.parts hne)).1.ne_nil
    refine Or.inl ⟨rfl, hne, ?_, ?_⟩
    · simp [Buffer.next, hfull, htail]
    · simp [Buffer.next, hfull, hne, Nat.add_assoc]
  | false =>
    refine Or.inr ⟨rfl, by simp [Buffer.next, hfull], ?_⟩
    by_cases hnil : s.parts = []
    · have hlen : s.len = 0 := by rw [hs.len, hnil]; rfl
      simp [Buffer.next, hfull, hnil, hlen]
    · simp [Buffer.next, hfull, hnil, Nat.add_assoc]

theorem built_next (size overlap : Nat) {s : Buffer} (hs : s.Built) {unit : Text}
    (hunit : AtomicUnit unit) : (s.next size overlap unit).Built := by
  rcases next_cases size overlap hs unit with ⟨-, hne, hparts, hlen⟩ | ⟨-, hparts, hlen⟩
  · have htail := (overlapTail_suffix overlap (atomicUnit_joinLines hs.parts hne)).1
    constructor
    · rw [hparts]
      intro part hpart
      rcases List.mem_cons.mp hpart with rfl | hpart
      · exact htail
      · rwa [List.mem_singleton.mp hpart]
    · rw [hparts, hlen, joinLines_cons_cons, joinLines_singleton, List.length_append,
        List.length_cons]
      omega
  · constructor
    · rw [hparts]
      intro part hpart
      rcases List.mem_append.mp hpart with hpart | hpart
      · exact hs.parts part hpart
      · rwa [List.mem_singleton.mp hpart]
    · rw [hparts, hlen]
      split
      next hnil => rw [hnil, List.nil_append, joinLines_singleton]
      next hne =>
        rw [joinLines_concat hne, List.length_append, List.length_cons, hs.len]
        omega

/-- The last buffer is a chunk as it is. -/
theorem chunksFrom_nil (size overlap : Nat) {s : Buffer} (hs : s.Built) :
    chunksFrom size overlap s [] = if s.parts = [] then [] else [joinLines s.parts] := by
  unfold chunksFrom
  rw [mergeLoop]
  by_cases hnil : s.parts = []
  · simp [hnil]
  · have hatomic := atomicUnit_joinLines hs.parts hnil
    simp [hnil, strip_trimmed hatomic.trimmed, hatomic.ne_nil]

/-- What the buffer holds is at the start of the next chunk. -/
theorem chunksFrom_head (size overlap : Nat) {s : Buffer} (hs : s.Built) (hne : s.parts ≠ [])
    {units : List Text} (hunits : ∀ unit ∈ units, AtomicUnit unit) :
    ∃ chunk more, chunksFrom size overlap s units = chunk :: more ∧ joinLines s.parts <+: chunk := by
  induction units generalizing s with
  | nil =>
    rw [chunksFrom_nil size overlap hs, if_neg hne]
    exact ⟨_, _, rfl, List.prefix_rfl⟩
  | cons unit rest ih =>
    have hunit := hunits unit (List.mem_cons_self ..)
    rw [chunksFrom_cons]
    rcases next_cases size overlap hs unit with ⟨hfull, -⟩ | ⟨hroom, hparts, -⟩
    · rw [hfull]
      exact ⟨_, _, rfl, List.prefix_rfl⟩
    · obtain ⟨chunk, more, heq, hprefix⟩ := ih (built_next size overlap hs hunit)
        (by rw [hparts]; simp) fun u hu => hunits u (List.mem_cons_of_mem _ hu)
      rw [hroom, heq]
      rw [hparts] at hprefix
      exact ⟨chunk, more, rfl, (joinLines_starts s.parts [unit]).trans hprefix⟩

/-! ## The size -/

/-- A unit that does not fit in the buffer fits in the next one, after the tail. -/
def TailFits (size overlap : Nat) (s : Buffer) (unit : Text) : Prop :=
  s.full size unit = true →
    (overlapTail overlap (joinLines s.parts)).length + 1 + unit.length ≤ size

/-- A step keeps to the size when the tail fits. -/
theorem next_len_le (size overlap : Nat) {s : Buffer} (hs : s.Built) {unit : Text}
    (hsize : unit.length ≤ size) :
    (s.next size overlap unit).len ≤ size ↔ TailFits size overlap s unit := by
  rcases next_cases size overlap hs unit with ⟨hfull, -, -, hlen⟩ | ⟨hroom, -, hlen⟩
  · rw [hlen]
    exact ⟨fun h _ => h, fun h => h hfull⟩
  · refine iff_of_true ?_ fun hfull => absurd hfull (by rw [hroom]; simp)
    rw [hlen]
    split
    next => exact hsize
    next hne =>
      simp only [Buffer.full, Bool.and_eq_false_iff, decide_eq_false_iff_not] at hroom
      rcases hroom with hempty | hroom
      · exact absurd hempty (by simpa using hne)
      · simpa [hne] using hroom

theorem chunksFrom_size_iff (size overlap : Nat) {s : Buffer} (hs : s.Built) (hfit : s.len ≤ size)
    {units : List Text} (hunits : ∀ unit ∈ units, AtomicUnit unit)
    (hsize : ∀ unit ∈ units, unit.length ≤ size) :
    (∀ chunk ∈ chunksFrom size overlap s units, chunk.length ≤ size)
      ↔ Throughout (Buffer.next size overlap) (TailFits size overlap) s units := by
  induction units generalizing s with
  | nil =>
    refine iff_of_true ?_ trivial
    rw [chunksFrom_nil size overlap hs]
    intro chunk hchunk
    split at hchunk
    next => exact absurd hchunk (by simp)
    next =>
      rw [List.mem_singleton.mp hchunk, ← hs.len]
      exact hfit
  | cons unit rest ih =>
    have hunit := hunits unit (List.mem_cons_self ..)
    have hrest : ∀ u ∈ rest, AtomicUnit u := fun u hu => hunits u (List.mem_cons_of_mem _ hu)
    have hnext := built_next size overlap hs hunit
    have hne : (s.next size overlap unit).parts ≠ [] := by
      rcases next_cases size overlap hs unit with ⟨-, -, hparts, -⟩ | ⟨-, hparts, -⟩
      · rw [hparts]; simp
      · rw [hparts]; simp
    -- the chunk that is cut off is the buffer, which fits
    have hcut : (∀ chunk ∈ chunksFrom size overlap s (unit :: rest), chunk.length ≤ size)
        ↔ ∀ chunk ∈ chunksFrom size overlap (s.next size overlap unit) rest, chunk.length ≤ size := by
      rw [chunksFrom_cons, List.forall_mem_append]
      refine and_iff_right fun chunk hchunk => ?_
      split at hchunk
      next =>
        rw [List.mem_singleton.mp hchunk, ← hs.len]
        exact hfit
      next => exact absurd hchunk (by simp)
    rw [hcut]
    show _ ↔ TailFits size overlap s unit ∧ _
    rw [← next_len_le size overlap hs (hsize unit (List.mem_cons_self ..))]
    constructor
    · intro hall
      obtain ⟨chunk, more, heq, hprefix⟩ := chunksFrom_head size overlap hnext hne hrest
      have hle : (s.next size overlap unit).len ≤ size := by
        rw [hnext.len]
        exact Nat.le_trans hprefix.length_le (hall chunk (by rw [heq]; simp))
      exact ⟨hle, (ih hnext hle hrest fun u hu => hsize u (List.mem_cons_of_mem _ hu)).mp hall⟩
    · rintro ⟨hle, hall⟩
      exact (ih hnext hle hrest fun u hu => hsize u (List.mem_cons_of_mem _ hu)).mpr hall

theorem chunkText_eq (text : Text) :
    chunkText text = chunksFrom chunkSize chunkOverlap ⟨[], 0⟩ (splitSemantic text) := by
  unfold chunkText
  split
  next hblank =>
    rw [splitSemantic_blank hblank, chunksFrom_nil _ _ built_empty]
    rfl
  next => rfl

/-- Units and chunks keep to the size where no word of the text is longer, and
no tail and the unit after it are. -/
theorem chunkText_size_iff (text : Text) :
    ((∀ unit ∈ splitSemantic text, unit.length ≤ chunkSize) ∧
        ∀ chunk ∈ chunkText text, chunk.length ≤ chunkSize)
      ↔ (∀ word ∈ words text, word.length ≤ chunkSize) ∧
        Throughout (Buffer.next chunkSize chunkOverlap) (TailFits chunkSize chunkOverlap) ⟨[], 0⟩
          (splitSemantic text) := by
  rw [splitSemantic_fits_iff, chunkText_eq]
  refine and_congr_right fun hwords => ?_
  have hunits := unitsOf_splitSemantic text
  exact chunksFrom_size_iff chunkSize chunkOverlap built_empty (Nat.zero_le _) hunits.atomic
    (hunits.size hwords)

/-- One word of 1601 letters is a unit, and a chunk. -/
theorem longWord_whole : ¬ ∀ text : Text,
    (∀ unit ∈ splitSemantic text, unit.length ≤ chunkSize) ∧
      ∀ chunk ∈ chunkText text, chunk.length ≤ chunkSize := by
  intro h
  have hword : IsWord (List.replicate 1601 'a') := by
    refine ⟨List.ne_nil_of_length_pos ?_, fun c hc => ?_⟩
    · rw [List.length_replicate]
      decide
    · rw [List.eq_of_mem_replicate hc]
      decide
  have hfits := (splitSemantic_fits_iff _).mp (h (List.replicate 1601 'a')).1
  rw [words_isWord_self hword] at hfits
  have hlen := hfits _ (List.mem_singleton_self _)
  rw [List.length_replicate] at hlen
  exact absurd hlen (by decide)

/-- A tail and a unit, each within the size. -/
example : mergeWithOverlap ["aaaa".toList, "bbbb".toList] 5 2
    = ["aaaa".toList, "aa\nbbbb".toList] := by decide

/-- Units that leave room for any tail keep the chunks within the size. -/
theorem tailFits_of_room {size overlap : Nat} (hpos : 0 < overlap) {s : Buffer} {units : List Text}
    (hroom : ∀ unit ∈ units, overlap + 1 + unit.length ≤ size) :
    Throughout (Buffer.next size overlap) (TailFits size overlap) s units := by
  induction units generalizing s with
  | nil => exact trivial
  | cons unit rest ih =>
    refine ⟨fun _ => ?_, ih fun u hu => hroom u (List.mem_cons_of_mem _ hu)⟩
    have htail := overlapTail_length hpos (joinLines s.parts)
    have hunit := hroom unit (List.mem_cons_self ..)
    omega

/-! ## Nothing is lost -/

/-- A chunk ends with the units it was given, which are all whole in it. -/
def Ends (group : List Text) (chunk : Text) : Prop :=
  (∀ unit ∈ group, unit <:+: chunk) ∧ joinLines group <:+ chunk

theorem ends_joinLines (before group : List Text) : Ends group (joinLines (before ++ group)) :=
  ⟨fun _ hunit => infix_joinLines (List.mem_append_right _ hunit), joinLines_suffix before group⟩

/-- Every unit goes into a chunk, in order; `group` is what the buffer has of them. -/
theorem chunksFrom_groups (size overlap : Nat) {s : Buffer} (hs : s.Built) (before group : List Text)
    (hparts : s.parts = before ++ group) {units : List Text} (hunits : ∀ unit ∈ units, AtomicUnit unit) :
    ∃ groups : List (List Text), groups.flatten = group ++ units ∧
      List.Forall₂ Ends groups (chunksFrom size overlap s units) := by
  induction units generalizing s before group with
  | nil =>
    rw [chunksFrom_nil size overlap hs]
    split
    next hnil =>
      obtain ⟨-, rfl⟩ := List.append_eq_nil_iff.mp (hparts.symm.trans hnil)
      exact ⟨[], rfl, .nil⟩
    next =>
      refine ⟨[group], by simp, .cons ?_ .nil⟩
      rw [hparts]
      exact ends_joinLines before group
  | cons unit rest ih =>
    have hnext := built_next size overlap hs (hunits unit (List.mem_cons_self ..))
    have hrest : ∀ u ∈ rest, AtomicUnit u := fun u hu => hunits u (List.mem_cons_of_mem _ hu)
    rw [chunksFrom_cons]
    rcases next_cases size overlap hs unit with ⟨hfull, -, hnow, -⟩ | ⟨hroom, hnow, -⟩
    · obtain ⟨groups, hflat, hends⟩ := ih hnext
        [overlapTail overlap (joinLines s.parts)] [unit] hnow hrest
      refine ⟨group :: groups, by rw [List.flatten_cons, hflat]; rfl, ?_⟩
      rw [hfull]
      refine .cons ?_ hends
      rw [hparts]
      exact ends_joinLines before group
    · obtain ⟨groups, hflat, hends⟩ := ih hnext before (group ++ [unit])
        (by rw [hnow, hparts, List.append_assoc]) hrest
      refine ⟨groups, by rw [hflat, List.append_assoc]; rfl, ?_⟩
      rw [hroom]
      exact hends

/-- What two chunks in a row share. -/
def Overlaps (overlap : Nat) (chunk following : Text) : Prop :=
  ∃ tail, tail ≠ [] ∧ tail.length ≤ overlap ∧ tail <:+ chunk ∧ tail <+: following

theorem chunksFrom_overlap {size overlap : Nat} (hpos : 0 < overlap) {s : Buffer} (hs : s.Built)
    {units : List Text} (hunits : ∀ unit ∈ units, AtomicUnit unit) :
    (chunksFrom size overlap s units).IsChain (Overlaps overlap) := by
  induction units generalizing s with
  | nil =>
    rw [chunksFrom_nil size overlap hs]
    split
    next => exact List.isChain_nil
    next => exact List.isChain_singleton _
  | cons unit rest ih =>
    have hnext := built_next size overlap hs (hunits unit (List.mem_cons_self ..))
    have hrest : ∀ u ∈ rest, AtomicUnit u := fun u hu => hunits u (List.mem_cons_of_mem _ hu)
    rw [chunksFrom_cons]
    rcases next_cases size overlap hs unit with ⟨hfull, hne, hnow, -⟩ | ⟨hroom, -, -⟩
    · obtain ⟨chunk, more, heq, hprefix⟩ := chunksFrom_head size overlap hnext
        (by rw [hnow]; simp) hrest
      have hmore := ih hnext hrest
      rw [hfull, if_pos rfl]
      rw [heq] at hmore ⊢
      rw [List.singleton_append, List.isChain_cons_cons]
      refine ⟨?_, hmore⟩
      obtain ⟨htail, hsuffix⟩ := overlapTail_suffix overlap (atomicUnit_joinLines hs.parts hne)
      rw [hnow, joinLines_cons_cons] at hprefix
      exact ⟨_, htail.ne_nil, overlapTail_length hpos _, hsuffix,
        (List.prefix_append ..).trans hprefix⟩
    · rw [hroom]
      exact ih hnext hrest

/-- The units have the text but its whitespace, the chunks the units in their
order, and each chunk begins with an end of the one before. -/
theorem chunkText_loses_nothing (text : Text) :
    (splitSemantic text).flatten.filter (fun c => !isSpace c) = text.filter (fun c => !isSpace c) ∧
    (∃ groups : List (List Text), groups.flatten = splitSemantic text ∧
      List.Forall₂ Ends groups (chunkText text)) ∧
    (chunkText text).IsChain (Overlaps chunkOverlap) := by
  have hatomic := (unitsOf_splitSemantic text).atomic
  rw [chunkText_eq]
  refine ⟨splitSemantic_solid text, ?_, ?_⟩
  · exact chunksFrom_groups chunkSize chunkOverlap built_empty [] [] rfl hatomic
  · exact chunksFrom_overlap (by decide) built_empty hatomic

end Eidetic.Files
