import Eidetic.Lib.Dict

/-!
# A hash of a store

Fields with their values, as commands of a store read and write them. A hash is
given a new content in three commands: its fields are set, then its fields are
read, then those that the content does not have are deleted.

Two hashes are the `Same` when they have the same values, whatever the order.
What others may do meanwhile is described without saying who: a command keeps
the hash no further from a content (`Keeps`) if it sets its values, deletes what
it does not have, or finds nothing to do. So the three commands give the content
when all commands in between are of this kind.
-/

namespace Eidetic.Lib

variable {κ ν : Type*} [DecidableEq κ]

/-- Two hashes have the same fields with the same values; of a field that is
there twice the first counts. -/
def Same (h g : List (κ × ν)) : Prop := ∀ k, h.lookup k = g.lookup k

/-- `HSET`. -/
def hset (h mapping : List (κ × ν)) : List (κ × ν) := mapping ++ h

/-- `HKEYS`. -/
def hkeys (h : List (κ × ν)) : List κ := h.map Prod.fst

/-- `HDEL`. -/
def hdel (h : List (κ × ν)) (fields : List κ) : List (κ × ν) := h.filter fun p => p.1 ∉ fields

/-- The fields of a hash that a content does not have. -/
def staleFields (fields : List κ) (content : List (κ × ν)) : List κ :=
  fields.filter fun k => k ∉ hkeys content

variable {h g m : List (κ × ν)} {k : κ}

theorem Same.symm (hsame : Same h g) : Same g h := fun k => (hsame k).symm

theorem Same.trans (hsame : Same h g) (hother : Same g m) : Same h m :=
  fun k => (hsame k).trans (hother k)

theorem lookup_isSome : (h.lookup k).isSome = true ↔ k ∈ hkeys h := by
  rw [Option.isSome_iff_exists]
  constructor
  · intro ⟨v, hv⟩
    exact List.mem_map_of_mem (mem_of_lookup hv)
  · exact exists_lookup

theorem lookup_eq_none : h.lookup k = none ↔ k ∉ hkeys h := by
  rw [← lookup_isSome, Bool.not_eq_true, Option.isSome_eq_false_iff, Option.isNone_iff_eq_none]

theorem lookup_hset (h mapping : List (κ × ν)) (k : κ) :
    (hset h mapping).lookup k = (mapping.lookup k).or (h.lookup k) :=
  List.lookup_append

theorem lookup_hdel (h : List (κ × ν)) (fields : List κ) (k : κ) :
    (hdel h fields).lookup k = if k ∈ fields then none else h.lookup k := by
  unfold hdel
  induction h with
  | nil => simp
  | cons p rest ih =>
    by_cases hp : p.1 ∈ fields
    · rw [List.filter_cons_of_neg (by simpa using hp), ih, List.lookup_cons]
      by_cases hk : k = p.1
      · rw [hk, if_pos hp, if_pos hp]
      · rw [beq_eq_false_iff_ne.mpr hk]
    · rw [List.filter_cons_of_pos (by simpa using hp), List.lookup_cons, List.lookup_cons, ih]
      by_cases hk : k = p.1
      · rw [beq_iff_eq.mpr hk]
        exact (if_neg fun hmem => hp (hk ▸ hmem)).symm
      · rw [beq_eq_false_iff_ne.mpr hk]

theorem Same.mem_hkeys (hsame : Same h g) : k ∈ hkeys h ↔ k ∈ hkeys g := by
  rw [← lookup_isSome, ← lookup_isSome, hsame k]

theorem mem_staleFields {fields : List κ} :
    k ∈ staleFields fields m ↔ k ∈ fields ∧ k ∉ hkeys m := by
  unfold staleFields
  rw [List.mem_filter]
  simp

/-- The hash has every field of the content, with its value. -/
def Holds (h content : List (κ × ν)) : Prop := ∀ k, (content.lookup k).isSome → h.lookup k = content.lookup k

/-- What the hash has beyond the content is among some fields. -/
def Beyond (h content : List (κ × ν)) (fields : List κ) : Prop :=
  ∀ k, content.lookup k = none → (h.lookup k).isSome → k ∈ fields

theorem same_iff : Same h m ↔ Holds h m ∧ Beyond h m [] := by
  constructor
  · intro hsame
    refine ⟨fun k _ => hsame k, fun k hnone hsome => ?_⟩
    rw [hsame k, hnone] at hsome
    exact absurd hsome (by simp)
  · rintro ⟨hholds, hbeyond⟩ k
    cases hm : m.lookup k with
    | some v => exact (hholds k (by rw [hm]; rfl)).trans hm
    | none =>
      cases hh : h.lookup k with
      | none => rfl
      | some v => exact absurd (hbeyond k hm (by rw [hh]; rfl)) List.not_mem_nil

theorem Holds.hset (h m : List (κ × ν)) : Holds (hset h m) m := by
  intro k hk
  rw [lookup_hset, Option.or_of_isSome hk]

/-- The fields that are read once the content is set are all there is beyond it. -/
theorem beyond_staleFields (h m : List (κ × ν)) : Beyond h m (staleFields (hkeys h) m) :=
  fun _ hnone hsome => mem_staleFields.mpr ⟨lookup_isSome.mp hsome, lookup_eq_none.mp hnone⟩

theorem Holds.hdel (hholds : Holds h m) {fields : List κ} (hstale : ∀ k ∈ fields, k ∉ hkeys m) :
    Holds (hdel h fields) m := by
  intro k hk
  have hfresh : k ∉ fields := by
    intro hmem
    rw [lookup_eq_none.mpr (hstale k hmem)] at hk
    exact absurd hk (by simp)
  rw [lookup_hdel, if_neg hfresh]
  exact hholds k hk

/-- Once the fields beyond the content are deleted, the hash is the content. -/
theorem same_hdel {fields : List κ} (hholds : Holds h m) (hbeyond : Beyond h m fields)
    (hstale : ∀ k ∈ fields, k ∉ hkeys m) : Same (hdel h fields) m := by
  refine same_iff.mpr ⟨hholds.hdel hstale, ?_⟩
  intro k hnone hsome
  rw [lookup_hdel] at hsome
  split at hsome
  next => exact absurd hsome (by simp)
  next hk => exact absurd (hbeyond k hnone hsome) hk

/-- The three commands, with nobody else at the hash. -/
theorem same_rewrite (h m : List (κ × ν)) :
    Same (hdel (hset h m) (staleFields (hkeys (hset h m)) m)) m :=
  same_hdel (Holds.hset h m) (beyond_staleFields _ m) fun _ hk => (mem_staleFields.mp hk).2

/-- A command takes a hash no further away from a content. -/
structure Keeps (h g content : List (κ × ν)) : Prop where
  holds : Holds h content → Holds g content
  beyond : ∀ fields, Beyond h content fields → Beyond g content fields

theorem Keeps.refl (h content : List (κ × ν)) : Keeps h h content := ⟨id, fun _ => id⟩

theorem Keeps.same (hkeeps : Keeps h g m) (hsame : Same h m) : Same g m :=
  same_iff.mpr ⟨hkeeps.holds (same_iff.mp hsame).1, hkeeps.beyond _ (same_iff.mp hsame).2⟩

/-- Setting the fields of the same content, -/
theorem keeps_hset {other : List (κ × ν)} (hsame : Same other m) : Keeps h (hset h other) m where
  holds := fun _ k hk => by
    rw [lookup_hset, hsame k, Option.or_of_isSome hk]
  beyond := fun fields hbeyond k hnone hsome => by
    rw [lookup_hset, hsame k, hnone, Option.none_or] at hsome
    exact hbeyond k hnone hsome

/-- deleting fields that it does not have, -/
theorem keeps_hdel {fields : List κ} (hstale : ∀ k ∈ fields, k ∉ hkeys m) :
    Keeps h (hdel h fields) m where
  holds := fun hholds => hholds.hdel hstale
  beyond := fun more hbeyond k hnone hsome => by
    rw [lookup_hdel] at hsome
    split at hsome
    next => exact absurd hsome (by simp)
    next => exact hbeyond k hnone hsome

/-- and deleting the hash when it has none are such commands. -/
theorem keeps_nil (hsame : Same [] m) : Keeps h [] m where
  holds := fun _ => (same_iff.mp hsame).1
  beyond := fun _ _ _ _ hsome => absurd hsome (by simp)

end Eidetic.Lib
