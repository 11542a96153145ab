import Mathlib.Data.List.Infix

/-!
# Shapes of texts

A shape is a sequence of fixed pieces and holes; a text has the shape if the
holes can be filled. What a text begins with is read off the first piece of its
shape, what it ends with off the last.
-/

namespace Eidetic.Lib

variable {σ : Type}

inductive Piece (σ : Type)
  | lit (s : List σ)
  | hole

abbrev Shape (σ : Type) := List (Piece σ)

/-- The text is the shape with its holes filled. -/
def Shape.Matches : Shape σ → List σ → Prop
  | [], t => t = []
  | .lit s :: shape, t => ∃ rest, t = s ++ rest ∧ Shape.Matches shape rest
  | .hole :: shape, t => ∃ filling rest, t = filling ++ rest ∧ Shape.Matches shape rest

/-- Some text of the shape may begin with `p`. -/
def Shape.mayOpen [DecidableEq σ] (p : List σ) : Shape σ → Bool
  | [] => p.isEmpty
  | .lit s :: _ => p.isPrefixOf s || s.isPrefixOf p
  | .hole :: _ => true

/-- The fixed piece at the end of the shape, if there is one. -/
def Shape.ending : Shape σ → List σ
  | [] => []
  | [.lit s] => s
  | _ :: shape => Shape.ending shape

theorem Shape.Matches.mayOpen [DecidableEq σ] {shape : Shape σ} {t p : List σ}
    (h : shape.Matches t) (hp : p <+: t) : shape.mayOpen p = true := by
  match shape with
  | [] =>
    rw [Shape.Matches] at h
    rw [h, List.prefix_nil] at hp
    rw [hp]
    rfl
  | .lit s :: shape =>
    obtain ⟨rest, rfl, -⟩ := h
    rw [Shape.mayOpen, Bool.or_eq_true, List.isPrefixOf_iff_prefix, List.isPrefixOf_iff_prefix]
    exact List.prefix_or_prefix_of_prefix hp (List.prefix_append s rest)
  | .hole :: shape => rfl

/-- A text ends as its shape does. -/
theorem Shape.Matches.ending {shape : Shape σ} {t : List σ} (h : shape.Matches t) :
    shape.ending <:+ t := by
  induction shape generalizing t with
  | nil => exact List.nil_suffix
  | cons piece shape ih =>
    cases shape with
    | nil =>
      cases piece with
      | lit s =>
        obtain ⟨rest, rfl, hrest⟩ := h
        rw [Shape.Matches] at hrest
        rw [hrest, List.append_nil]
        exact List.suffix_refl s
      | hole => exact List.nil_suffix
    | cons piece' shape =>
      cases piece with
      | lit s =>
        obtain ⟨rest, rfl, hrest⟩ := h
        exact (ih hrest).trans (List.suffix_append s rest)
      | hole =>
        obtain ⟨filling, rest, rfl, hrest⟩ := h
        exact (ih hrest).trans (List.suffix_append filling rest)

end Eidetic.Lib
