import Eidetic.Catalog.Store
import Eidetic.Py.JsonText

/-!
# An admin's edit of a model

`patch_catalog_model` checks what the request sets against the row and writes
it. A role model is not disabled and a model that has never answered a probe is
not enabled; no edit writes what a scan writes.

`patchCatalogModel` has the checks in the order of the source, each with the
status and the text of its answer, and the commit, which may fail. What other
modules need of it is one case analysis (`patchCatalogModel_cases`): the rows
are as they were, or they are those of a `write` that has been checked. `Writes`
says what was checked. So the results about runs of scans and edits never unfold
an edit; that one which is refused or sets nothing changes no row is a case of
the same lemma.
-/

namespace Eidetic.Catalog

open Eidetic.Lib Eidetic.Py

/-- The body of the request: a field that is not set is `none`, one that is set
to null is `some none`. -/
structure ModelPatch where
  enabled : Option (Option Bool) := none
  label : Option (Option Text) := none
  priceIn : Option (Option {q : Rat // 0 ≤ q ∧ q ≤ 100}) := none
  priceOut : Option (Option {q : Rat // 0 ≤ q ∧ q ≤ 100}) := none
  contextWindow : Option (Option {n : Nat // 1 ≤ n}) := none
  requestExtras : Option (Option (List (Text × Json))) := none
  minMaxTokens : Option (Option {n : Nat // 1 ≤ n ∧ n ≤ 4096}) := none

/-- `not updated`. -/
def ModelPatch.isEmpty (body : ModelPatch) : Bool :=
  body.enabled.isNone && body.label.isNone && body.priceIn.isNone && body.priceOut.isNone &&
    body.contextWindow.isNone && body.requestExtras.isNone && body.minMaxTokens.isNone

/-- `_EXTRAS_ALLOWED_KEYS`. -/
def extrasAllowedKeys : List Text := ["reasoning_effort".toList, "chat_template_kwargs".toList]

/-- `_EXTRAS_MAX_BYTES`. -/
def extrasMaxBytes : Nat := 1024

/-- The `setattr` loop, with the value of `enabled` if it is set. -/
def ModelPatch.write (body : ModelPatch) (enabled : Option Bool) (now : Nat) (row : ModelRow) :
    ModelRow :=
  { row with
    enabled := enabled.getD row.enabled
    label := body.label.getD row.label
    priceIn := (body.priceIn.map fun value => value.map Subtype.val).getD row.priceIn
    priceOut := (body.priceOut.map fun value => value.map Subtype.val).getD row.priceOut
    contextWindow := (body.contextWindow.map fun value => value.map Subtype.val).getD row.contextWindow
    requestExtras := body.requestExtras.getD row.requestExtras
    minMaxTokens := (body.minMaxTokens.map fun value => value.map Subtype.val).getD row.minMaxTokens
    updatedAt := now }

theorem ModelPatch.write_id (body : ModelPatch) (enabled : Option Bool) (now : Nat)
    (row : ModelRow) : (body.write enabled now row).id = row.id := rfl

/-- The answer: the row and whether it is a role model, an `HTTPException`, or
an error of the database. -/
inductive PatchAnswer
  | row (row : ModelRow) (isRoleModel : Bool)
  | refused (status : Nat) (detail : String)
  | failed

structure PatchInput where
  modelId : Text
  body : ModelPatch
  now : Nat
  /-- Whether the database takes the commit. -/
  committed : Bool

/-- What the extras of the request are refused for. -/
def refusedExtras (n : Numerals) : Option (Option (List (Text × Json))) → Option String
  | some (some extras) =>
    if !extras.all fun item => extrasAllowedKeys.contains item.1 then
      some ("request_extras must be a JSON object with keys from " ++
        "['chat_template_kwargs', 'reasoning_effort']")
    else if extrasMaxBytes < (dumps n (.obj extras)).length then
      some "request_extras must be <= 1024 bytes"
    else none
  | _ => none

/-- `patch_catalog_model` up to its commit. -/
def patchCatalogModel (n : Numerals) (roles : List Text) (rows : ModelCatalog) (i : PatchInput) :
    ModelCatalog × PatchAnswer :=
  match rows.find i.modelId with
  | none => (rows, .refused 404 "Model not found in catalog")
  | some row =>
    if i.body.isEmpty then (rows, .row row (isRole roles row.id))
    else if i.body.enabled = some (some false) ∧ isRole roles i.modelId then
      (rows, .refused 409 "Cannot disable a role model (llama/coder/reasoning)")
    else if i.body.enabled = some (some true) ∧ row.lastLiveAt = none then
      (rows, .refused 409 "never_live")
    else if i.body.priceIn.isSome ≠ i.body.priceOut.isSome then
      (rows, .refused 400 "price_in and price_out must be set together")
    else
      match refusedExtras n i.body.requestExtras with
      | some detail => (rows, .refused 400 detail)
      | none =>
        -- the column `enabled` is not nullable
        if i.body.enabled = some none ∨ i.committed = false then (rows, .failed)
        else
          let enabled := i.body.enabled.join
          let written := i.body.write enabled i.now
          (rows.updateAt i.modelId written (i.body.write_id enabled i.now),
            .row (written row) (isRole roles row.id))

/-! ## What an edit does to the rows -/

/-- An edit that writes, with what it has checked. -/
structure Writes (roles : List Text) (i : PatchInput) (row : ModelRow) : Prop where
  enables : i.body.enabled = some (some true) → row.lastLiveAt ≠ none
  disables : i.body.enabled = some (some false) → i.modelId ∉ roles
  committed : i.committed = true

variable {n : Numerals} {roles : List Text} {rows : ModelCatalog} {i : PatchInput}

/-- An edit leaves the rows as they are, or writes one that it has checked. -/
theorem patchCatalogModel_cases (n : Numerals) (roles : List Text) (rows : ModelCatalog)
    (i : PatchInput) :
    (patchCatalogModel n roles rows i).1 = rows ∨
      ∃ row, rows.find i.modelId = some row ∧ Writes roles i row ∧
        (patchCatalogModel n roles rows i).1 =
          rows.updateAt i.modelId (i.body.write i.body.enabled.join i.now)
            (i.body.write_id i.body.enabled.join i.now) := by
  unfold patchCatalogModel
  split
  next => exact Or.inl rfl
  next row hrow =>
    split
    next => exact Or.inl rfl
    next =>
      split
      next => exact Or.inl rfl
      next hdisables =>
        split
        next => exact Or.inl rfl
        next henables =>
          split
          next => exact Or.inl rfl
          next =>
            split
            next => exact Or.inl rfl
            next =>
              split
              next => exact Or.inl rfl
              next hfails =>
                refine Or.inr ⟨row, hrow, ⟨?_, ?_, ?_⟩, rfl⟩
                · exact fun h hnever => henables ⟨h, hnever⟩
                · exact fun h hrole => hdisables ⟨h, isRole_iff.mpr hrole⟩
                · by_contra hcommitted
                  exact hfails (Or.inr (by simpa using hcommitted))

/-- An edit that sets nothing changes no row. -/
theorem patchCatalogModel_empty (h : i.body.isEmpty = true) :
    (patchCatalogModel n roles rows i).1 = rows := by
  unfold patchCatalogModel
  split
  next => rfl
  next => rw [if_pos h]

/-- An edit that is not answered with a row changes no row. -/
theorem patchCatalogModel_refused (h : ∀ row role, (patchCatalogModel n roles rows i).2 ≠ .row row role) :
    (patchCatalogModel n roles rows i).1 = rows := by
  rcases patchCatalogModel_cases n roles rows i with hsame | ⟨row, hrow, hwrites, hrows⟩
  · exact hsame
  · revert h hrows
    unfold patchCatalogModel
    rw [hrow]
    dsimp only
    repeat' split
    all_goals first
      | exact fun _ _ => rfl
      | exact fun h _ => absurd rfl (h _ _)

end Eidetic.Catalog
