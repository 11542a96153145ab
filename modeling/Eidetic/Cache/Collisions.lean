import Eidetic.Cache.Keys
import Eidetic.Lib.Separators
import Eidetic.Py.Spacing
import Mathlib.Logic.Function.Basic

/-!
# Requests under one key

`make_key` joins its parts with the separators `|m:`, `|h:` and `|s:`, which
the parts may contain themselves. Another request has the key of a request
exactly when one of the request's separators can be moved to where a part
contains it (`separates_iff`).

The direction from unmovable separators is about texts that are cut at
separators. `make_key` normalises the message, the tail of the history and the
system prompt, and takes the model as it is. A part of a normal text is `Plain`,
a property of each character and its neighbours, so what lies between two
separators of a key can be compared piece by piece: the last separator first
(`plain_around`), then where the history starts (`no_later_history`,
`no_earlier_history`, `same_history`), and the rest is equal.

The other direction makes the colliding request: a separator that can be moved
gives parts that are normal, and so the parts of a request
(`unmovable_of_separates`). That sha256 does not collide is a hypothesis of
both, and what is known of `str.lower` is `Lowers`.
-/

namespace Eidetic.Cache

open Eidetic.Lib Eidetic.Py

/-- The arguments of `make_key`. -/
structure KeyParts where
  message : Text
  model : Text := []
  historyTail : Text := []
  systemPrompt : Text := []

def KeyParts.key (h : Hashing) (p : KeyParts) : Text :=
  makeKey h p.message p.model p.historyTail p.systemPrompt

/-- What the key is to tell apart. -/
structure SameParts (h : Hashing) (p q : KeyParts) : Prop where
  message : normalize h p.message = normalize h q.message
  model : p.model = q.model
  historyTail : normalize h p.historyTail = normalize h q.historyTail
  systemPrompt : normalize h p.systemPrompt = normalize h q.systemPrompt

/-- No other request has the key of this one. -/
def Separates (h : Hashing) (p : KeyParts) : Prop :=
  ∀ q : KeyParts, p.key h = q.key h → SameParts h p q

def mSep : Separator '|' 2 := ⟨['m', ':'], rfl, by decide⟩
def hSep : Separator '|' 2 := ⟨['h', ':'], rfl, by decide⟩
def sSep : Separator '|' 2 := ⟨['s', ':'], rfl, by decide⟩

/-- A text that `normalize` leaves as it is. -/
def Normal (h : Hashing) (t : Text) : Prop := normalize h t = t

/-- No separator of the request can be moved: wherever a part contains one that
stands next to the part, cutting there instead would leave a part that
`normalize` does not return. -/
structure Unmovable (h : Hashing) (p : KeyParts) : Prop where
  message : ∀ x y, normalize h p.message = x ++ mSep.text ++ y → ¬ Normal h x
  modelStart : ∀ x y, p.model = x ++ mSep.text ++ y →
    ¬ Normal h (normalize h p.message ++ mSep.text ++ x)
  modelEnd : ∀ x y, p.model = x ++ hSep.text ++ y →
    ¬ Normal h (y ++ hSep.text ++ normalize h p.historyTail)
  historyStart : ∀ x y, normalize h p.historyTail = x ++ hSep.text ++ y → ¬ Normal h y
  historyEnd : ∀ x y, normalize h p.historyTail = x ++ sSep.text ++ y →
    ¬ (Normal h x ∧ Normal h (y ++ sSep.text ++ normalize h p.systemPrompt))
  systemPrompt : ∀ x y, normalize h p.systemPrompt = x ++ sSep.text ++ y →
    ¬ (Normal h (normalize h p.historyTail ++ sSep.text ++ x) ∧ Normal h y)

/-- What `str.lower` is known to do: it leaves none of the characters it changes,
none of which is an ASCII character but a capital letter. -/
structure Lowers (lower : Text → Text) (changes : Char → Prop) : Prop where
  lowered : ∀ t, ∀ c ∈ lower t, ¬ changes c
  fixed : ∀ t, (∀ c ∈ t, ¬ changes c) → lower t = t
  ascii : ∀ c : Char, c.toNat < 128 → c.isUpper = false → ¬ changes c

/-! ## Normal texts -/

/-- The local side of a normal text: it holds of every part of it. -/
structure Plain (changes : Char → Prop) (t : Text) : Prop where
  lowered : ∀ c ∈ t, ¬ changes c
  spaces : SingleSpaces t

variable {h : Hashing} {changes : Char → Prop}

theorem Plain.part {a t : Text} (ht : Plain changes t) (hpart : a <:+: t) : Plain changes a :=
  ⟨fun c hc => ht.lowered c (hpart.subset hc), ht.spaces.part hpart⟩

theorem normalize_plain (hl : Lowers h.lower changes) (t : Text) :
    Plain changes (normalize h t) ∧ Trimmed (normalize h t) := by
  obtain ⟨hspaces, htrimmed⟩ := joinWords_spaces (words_isWord (strip (h.lower t)))
  refine ⟨⟨?_, hspaces⟩, htrimmed⟩
  intro c hc
  rcases mem_joinWords_words hc with rfl | hc
  · exact hl.ascii ' ' (by decide) (by decide)
  · exact hl.lowered t c (strip_subset hc)

theorem normal_iff (hl : Lowers h.lower changes) {t : Text} :
    Normal h t ↔ Plain changes t ∧ Trimmed t := by
  constructor
  · intro hnormal
    have hplain := normalize_plain hl t
    rw [hnormal] at hplain
    exact hplain
  · intro ⟨hplain, htrimmed⟩
    unfold Normal normalize
    rw [hl.fixed t hplain.lowered, strip_trimmed htrimmed, joinWords_words hplain.spaces htrimmed]

theorem normalize_normal (hl : Lowers h.lower changes) (t : Text) : Normal h (normalize h t) :=
  (normal_iff hl).mpr (normalize_plain hl t)

theorem isWord_sep {s : Separator '|' 2} (hs : (s.tail.all fun c => !isSpace c) = true) :
    IsWord s.text := by
  refine ⟨by simp [Separator.text], ?_⟩
  intro c hc
  rcases List.mem_cons.mp hc with rfl | hc
  · decide
  · exact Bool.not_eq_true' _ ▸ List.all_eq_true.mp hs c hc

theorem hSep_isWord : IsWord hSep.text := isWord_sep (by decide)
theorem sSep_isWord : IsWord sSep.text := isWord_sep (by decide)

/-- What stands around the last separator is plain. -/
theorem plain_around (hl : Lowers h.lower changes) {a b : Text} (ha : Plain changes a)
    (hb : Plain changes b) : Plain changes (a ++ sSep.text ++ b) := by
  refine ⟨?_, ha.spaces.around sSep_isWord hb.spaces⟩
  have hsep : ∀ c ∈ sSep.text, ¬ changes c := by
    intro c hc
    have hall : (sSep.text.all fun c => c.toNat < 128 && !c.isUpper) = true := by decide
    have hascii := Bool.and_eq_true_iff.mp (List.all_eq_true.mp hall c hc)
    exact hl.ascii c (of_decide_eq_true hascii.1) (by simpa using hascii.2)
  intro c hc
  rcases List.mem_append.mp hc with hc | hc
  · rcases List.mem_append.mp hc with hc | hc
    · exact ha.lowered c hc
    · exact hsep c hc
  · exact hb.lowered c hc

/-! ## Moving a separator -/

section Unmovable

variable {p : KeyParts} {b' c' d' x : Text}

/-- The history would start within what is the history or the system prompt. -/
theorem no_later_history (hl : Lowers h.lower changes) (hu : Unmovable h p) (hc' : Normal h c')
    (hd' : Normal h d')
    (heq : normalize h p.historyTail ++ sSep.text ++ normalize h p.systemPrompt
      = x ++ hSep.text ++ (c' ++ sSep.text ++ d')) : False := by
  obtain ⟨hplainc, htrimc⟩ := normalize_plain hl p.historyTail
  obtain ⟨hplaind, htrimd⟩ := normalize_plain hl p.systemPrompt
  obtain ⟨_, htrimc'⟩ := (normal_iff hl).mp hc'
  rcases cut_cases heq with ⟨_, hsep, _⟩ | ⟨y, hy, hd⟩ | ⟨y, hc, hrest⟩
  · exact absurd hsep (by decide)
  · refine hu.systemPrompt (y ++ hSep.text ++ c') d' (by rw [hd]; simp) ⟨?_, hd'⟩
    have hplain := plain_around hl hplainc hplaind
    refine (normal_iff hl).mpr ⟨hplain.part ⟨[], sSep.text ++ d', by rw [hd]; simp⟩,
      head_around htrimc sSep_isWord _, ?_⟩
    have hlast := last_around (normalize h p.historyTail ++ sSep.text ++ y) hSep_isWord htrimc'
    simpa using hlast
  · refine hu.historyStart x y hc ((normal_iff hl).mpr ⟨?_, ?_, ?_⟩)
    · exact hplainc.part ⟨x ++ hSep.text, [], by rw [hc, List.append_nil]⟩
    · -- the other reading has its history where this one would start
      intro c hhead
      have hother := head_around htrimc' sSep_isWord d'
      rw [hrest] at hother
      refine hother c ?_
      cases y with
      | nil => exact absurd hhead (by simp)
      | cons first y => exact hhead
    · intro c hlast
      refine htrimc.last c ?_
      rw [hc]
      cases hy : y with
      | nil => exact absurd hlast (by rw [hy]; simp)
      | cons first rest =>
        rw [← hy, List.getLast?_append_of_ne_nil _ (by rw [hy]; simp)]
        exact hlast

/-- The history would start within what is the model. -/
theorem no_earlier_history (hl : Lowers h.lower changes) (hu : Unmovable h p) (hc' : Normal h c')
    (hd' : Normal h d') (hmodel : p.model = b' ++ hSep.text ++ x)
    (heq : c' ++ sSep.text ++ d' = x ++ hSep.text ++
      (normalize h p.historyTail ++ sSep.text ++ normalize h p.systemPrompt)) : False := by
  obtain ⟨_, htrimc⟩ := normalize_plain hl p.historyTail
  obtain ⟨hplainc', htrimc'⟩ := (normal_iff hl).mp hc'
  obtain ⟨hplaind', _⟩ := (normal_iff hl).mp hd'
  refine hu.modelEnd b' x hmodel ((normal_iff hl).mpr ⟨?_, ?_, ?_⟩)
  · refine (plain_around hl hplainc' hplaind').part
      ⟨[], sSep.text ++ normalize h p.systemPrompt, ?_⟩
    rw [heq]
    simp
  · have hstarts : x ++ hSep.text ++
        (normalize h p.historyTail ++ sSep.text ++ normalize h p.systemPrompt)
          = (x ++ hSep.text ++ normalize h p.historyTail) ++
            (sSep.text ++ normalize h p.systemPrompt) := by simp
    have hother := head_around htrimc' sSep_isWord d'
    rw [heq, hstarts, List.head?_append_of_ne_nil _ (by simp [hSep_isWord.ne_nil])] at hother
    exact hother
  · exact last_around x hSep_isWord htrimc

theorem same_history (hu : Unmovable h p) (hc' : Normal h c') (hd' : Normal h d')
    (heq : normalize h p.historyTail ++ sSep.text ++ normalize h p.systemPrompt
      = c' ++ sSep.text ++ d') :
    normalize h p.historyTail = c' ∧ normalize h p.systemPrompt = d' := by
  rcases cut_cases heq with ⟨hc, _, hd⟩ | ⟨x, hc, hd⟩ | ⟨x, hc, hd⟩
  · exact ⟨hc, hd⟩
  · exact absurd ⟨hc ▸ hc', hd'⟩ (hu.systemPrompt x d' hd)
  · exact absurd ⟨hc', hd ▸ hd'⟩ (hu.historyEnd c' x hc)

end Unmovable

theorem rawKey_eq (h : Hashing) (message model historyTail systemPrompt : Text) :
    rawKey h message model historyTail systemPrompt
      = "v3:".toList ++ (normalize h message ++ mSep.text ++ (model ++ hSep.text ++
        (normalize h historyTail ++ sSep.text ++ normalize h systemPrompt))) := by
  simp [rawKey, cacheVersion, mSep, hSep, sSep, Separator.text]

theorem key_eq_iff (hs : Function.Injective h.sha256) {p q : KeyParts} :
    p.key h = q.key h ↔
      normalize h p.message ++ mSep.text ++ (p.model ++ hSep.text ++
          (normalize h p.historyTail ++ sSep.text ++ normalize h p.systemPrompt))
        = normalize h q.message ++ mSep.text ++ (q.model ++ hSep.text ++
          (normalize h q.historyTail ++ sSep.text ++ normalize h q.systemPrompt)) := by
  unfold KeyParts.key makeKey
  rw [hs.eq_iff, rawKey_eq, rawKey_eq, List.append_cancel_left_eq]

/-- With no separator to move, the key has one reading. -/
theorem separates_of_unmovable (hl : Lowers h.lower changes) (hs : Function.Injective h.sha256)
    {p : KeyParts} (hu : Unmovable h p) : Separates h p := by
  intro q hkey
  have ha' := normalize_normal hl q.message
  have hc' := normalize_normal hl q.historyTail
  have hd' := normalize_normal hl q.systemPrompt
  rcases cut_cases ((key_eq_iff hs).mp hkey) with ⟨ha, _, hrest⟩ | ⟨x, hx, hrest⟩ | ⟨x, hx, hrest⟩
  · rcases cut_cases hrest with ⟨hb, _, htail⟩ | ⟨y, _, htail⟩ | ⟨y, hy, htail⟩
    · obtain ⟨hc, hd⟩ := same_history hu hc' hd' htail
      exact ⟨ha, hb, hc, hd⟩
    · exact (no_later_history hl hu hc' hd' htail).elim
    · exact (no_earlier_history hl hu hc' hd' hy htail).elim
  · -- the model of the other request would start later
    rcases cut_cases hrest with ⟨_, hsep, _⟩ | ⟨y, _, htail⟩ | ⟨y, hy, _⟩
    · exact absurd hsep (by decide)
    · refine (no_later_history (x := y ++ mSep.text ++ q.model) hl hu hc' hd' ?_).elim
      rw [htail]
      simp
    · exact absurd (hx ▸ ha') (hu.modelStart x y hy)
  · exact absurd ha' (hu.message _ x hx)

/-- What moving a separator gives has the key, and other parts. -/
theorem unmovable_of_separates (hs : Function.Injective h.sha256) {p : KeyParts}
    (hsep : Separates h p) :
    Unmovable h p := by
  have hmoved : ∀ q : KeyParts, p.key h = q.key h → SameParts h p q := hsep
  refine ⟨?_, ?_, ?_, ?_, ?_, ?_⟩
  · intro x y hxy hx
    have hq := hmoved ⟨x, y ++ mSep.text ++ p.model, p.historyTail, p.systemPrompt⟩
      ((key_eq_iff hs).mpr (by rw [show normalize h x = x from hx, hxy]; simp))
    exact absurd (congrArg List.length hq.model) (by simp [mSep, Separator.text]; omega)
  · intro x y hxy hx
    have hq := hmoved ⟨normalize h p.message ++ mSep.text ++ x, y, p.historyTail, p.systemPrompt⟩
      ((key_eq_iff hs).mpr (by rw [show normalize h _ = _ from hx, hxy]; simp))
    exact absurd (congrArg List.length (hxy.symm.trans hq.model))
      (by simp [mSep, Separator.text]; omega)
  · intro x y hxy hy
    have hq := hmoved ⟨p.message, x, y ++ hSep.text ++ normalize h p.historyTail, p.systemPrompt⟩
      ((key_eq_iff hs).mpr (by rw [show normalize h (y ++ _ ++ _) = _ from hy, hxy]; simp))
    exact absurd (congrArg List.length (hxy.symm.trans hq.model)) (by simp [hSep, Separator.text])
  · intro x y hxy hy
    have hq := hmoved ⟨p.message, p.model ++ hSep.text ++ x, y, p.systemPrompt⟩
      ((key_eq_iff hs).mpr (by rw [show normalize h y = y from hy, hxy]; simp))
    exact absurd (congrArg List.length hq.model) (by simp [hSep, Separator.text])
  · intro x y hxy hnormal
    have hq := hmoved ⟨p.message, p.model, x, y ++ sSep.text ++ normalize h p.systemPrompt⟩
      ((key_eq_iff hs).mpr (by
        rw [show normalize h x = x from hnormal.1,
          show normalize h (y ++ _ ++ _) = _ from hnormal.2, hxy]
        simp))
    have hhistory := hq.historyTail
    rw [show normalize h x = x from hnormal.1, hxy] at hhistory
    exact absurd (congrArg List.length hhistory) (by simp [sSep, Separator.text])
  · intro x y hxy hnormal
    have hq := hmoved ⟨p.message, p.model, normalize h p.historyTail ++ sSep.text ++ x, y⟩
      ((key_eq_iff hs).mpr (by
        rw [show normalize h (_ ++ _ ++ x) = _ from hnormal.1,
          show normalize h y = y from hnormal.2, hxy]
        simp))
    have hprompt := hq.systemPrompt
    rw [show normalize h y = y from hnormal.2, hxy] at hprompt
    exact absurd (congrArg List.length hprompt) (by simp [sSep, Separator.text]; omega)

/-- Parts that contain none of the separators beside them are told apart. -/
theorem unmovable_of_free {p : KeyParts} (hmessage : ¬ mSep.text <:+: normalize h p.message)
    (hmodel : ¬ mSep.text <:+: p.model ∧ ¬ hSep.text <:+: p.model)
    (hhistory : ¬ hSep.text <:+: normalize h p.historyTail ∧
      ¬ sSep.text <:+: normalize h p.historyTail)
    (hprompt : ¬ sSep.text <:+: normalize h p.systemPrompt) : Unmovable h p where
  message := fun x y hxy => (hmessage ⟨x, y, hxy.symm⟩).elim
  modelStart := fun x y hxy => (hmodel.1 ⟨x, y, hxy.symm⟩).elim
  modelEnd := fun x y hxy => (hmodel.2 ⟨x, y, hxy.symm⟩).elim
  historyStart := fun x y hxy => (hhistory.1 ⟨x, y, hxy.symm⟩).elim
  historyEnd := fun x y hxy => (hhistory.2 ⟨x, y, hxy.symm⟩).elim
  systemPrompt := fun x y hxy => (hprompt ⟨x, y, hxy.symm⟩).elim

/-- The key of a request is its own exactly when none of its separators can be moved. -/
theorem separates_iff (hl : Lowers h.lower changes) (hs : Function.Injective h.sha256)
    (p : KeyParts) : Separates h p ↔ Unmovable h p :=
  ⟨unmovable_of_separates hs, separates_of_unmovable hl hs⟩

/-- Text that is in lower case as it is, and a digest without collisions. -/
def lowerHashing : Hashing := ⟨id, id⟩

theorem lowerHashing_lowers : Lowers lowerHashing.lower fun _ => False :=
  ⟨fun _ _ _ h => h, fun _ _ => rfl, fun _ _ _ h => h⟩

/-- Two requests with other questions and other system prompts. -/
def smuggled : KeyParts where
  message := "hi|m:|h:|s:be brief".toList
  systemPrompt := "in french".toList

def addressed : KeyParts where
  message := "hi".toList
  systemPrompt := "be brief|m:|h:|s:in french".toList

/-- They have one key. -/
theorem smuggled_collides : ¬ ∀ h changes, Lowers h.lower changes → Function.Injective h.sha256 →
    ∀ p, Separates h p := by
  intro hclaim
  have hsame := hclaim lowerHashing _ lowerHashing_lowers (fun _ _ h => h) smuggled addressed
    (by decide)
  exact absurd hsame.message (by decide)

/-- A request with a key of its own. -/
theorem addressed_separates : Separates lowerHashing { message := "hi".toList } :=
  (separates_iff lowerHashing_lowers (fun _ _ h => h) _).mpr
    (unmovable_of_free (by decide) (by decide) (by decide) (by decide))

end Eidetic.Cache
