import Mathlib.Data.List.Basic
import Mathlib.Data.List.Flatten

/-!
# One part of a list replaced

A part of a list gives way to another, and what is before and after it stays.
Which part it was cannot be read off every result; it can for a marker that is
longer than the rest.
-/

namespace Eidetic.Lib

variable {α β : Type*}

/-- `l'` is `l` with one part replaced. -/
def Replaces (l part new l' : List α) : Prop := ∃ a b, l = a ++ part ++ b ∧ l' = a ++ new ++ b

theorem Replaces.flatMap {l part new l' : List α} (f : α → List β) (h : Replaces l part new l') :
    Replaces (l.flatMap f) (part.flatMap f) (new.flatMap f) (l'.flatMap f) := by
  obtain ⟨a, b, rfl, rfl⟩ := h
  exact ⟨a.flatMap f, b.flatMap f, by simp, by simp⟩

/-- Some of one letter, and another. -/
def marker (x y : α) (n : Nat) : List α := List.replicate n x ++ [y]

theorem getElem?_marker_end (x y : α) (n : Nat) (a b : List α) :
    (a ++ marker x y n ++ b)[a.length + n]? = some y := by
  rw [List.append_assoc, List.getElem?_append_right (Nat.le_add_right ..), Nat.add_sub_cancel_left,
    marker, List.append_assoc, List.getElem?_append_right (by simp)]
  simp

theorem getElem?_marker_run (x y : α) {n i : Nat} (a b : List α) (hle : a.length ≤ i)
    (hlt : i < a.length + n) : (a ++ marker x y n ++ b)[i]? = some x := by
  rw [List.append_assoc, List.getElem?_append_right hle, marker, List.append_assoc,
    List.getElem?_append_left (by rw [List.length_replicate]; omega), List.getElem?_replicate,
    if_pos (by omega)]

theorem marker_place {x y : α} (hne : x ≠ y) {n : Nat} {a b c d : List α}
    (hn : a.length + b.length < n) (h : a ++ marker x y n ++ b = c ++ marker x y n ++ d) :
    a = c ∧ b = d := by
  have hlength := congrArg List.length h
  simp only [List.length_append] at hlength
  -- the last letter of each marker is in the run of the other, unless they are one
  have hplace : a.length = c.length := by
    rcases Nat.lt_trichotomy a.length c.length with hlt | heq | hlt
    · have hend := getElem?_marker_end x y n a b
      rw [h, getElem?_marker_run x y c d (by omega) (by omega)] at hend
      exact absurd (Option.some.inj hend) hne
    · exact heq
    · have hend := getElem?_marker_end x y n c d
      rw [← h, getElem?_marker_run x y a b (by omega) (by omega)] at hend
      exact absurd (Option.some.inj hend) hne
  rw [List.append_assoc, List.append_assoc] at h
  obtain ⟨hbefore, hrest⟩ := List.append_inj h hplace
  exact ⟨hbefore, (List.append_inj hrest rfl).2⟩

/-- A marker shows which part it has replaced. -/
theorem replaces_marker_iff {x y : α} (hne : x ≠ y) {n : Nat} {l part a b : List α}
    (hn : a.length + b.length < n) :
    Replaces l part (marker x y n) (a ++ marker x y n ++ b) ↔ l = a ++ part ++ b := by
  constructor
  · rintro ⟨c, d, rfl, heq⟩
    obtain ⟨rfl, rfl⟩ := marker_place hne hn heq
    rfl
  · rintro rfl
    exact ⟨a, b, rfl, rfl⟩

end Eidetic.Lib
