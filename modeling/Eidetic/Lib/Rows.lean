import Mathlib.Data.List.Nodup

/-!
# A table with a primary key

Rows of which no two have the same key. What is written under one key leaves
the row of every other as it was.

The key is a function of the row, so that the uniqueness of the keys is a field
of the table and every change of a row has to say that it keeps the key. What is
found under a key after each operation is the API; the proofs about tables use
`find` and never the list.
-/

namespace Eidetic.Lib

/-- Rows of which no two have the same key. -/
structure Rows {κ ρ : Type*} (key : ρ → κ) where
  list : List ρ
  unique : (list.map key).Nodup

namespace Rows

variable {κ ρ : Type*} {key : ρ → κ}

def empty : Rows key := ⟨[], List.nodup_nil⟩

/-- Every row changed, but for its key. -/
def update (t : Rows key) (f : ρ → ρ) (hf : ∀ r, key (f r) = key r) : Rows key where
  list := t.list.map f
  unique := by
    have hkeys : (t.list.map f).map key = t.list.map key := by
      rw [List.map_map]
      exact List.map_congr_left fun r _ => hf r
    rw [hkeys]
    exact t.unique

/-- The rows that meet a condition. -/
def filter (t : Rows key) (p : ρ → Bool) : Rows key where
  list := t.list.filter p
  unique := t.unique.sublist (List.filter_sublist.map key)

variable [DecidableEq κ]

/-- The row with a key. -/
def find (t : Rows key) (k : κ) : Option ρ := t.list.find? fun r => key r = k

/-- A new row, unless its key is taken. -/
def insert (t : Rows key) (row : ρ) : Rows key :=
  if h : key row ∈ t.list.map key then t
  else
    { list := t.list ++ [row]
      unique := by
        rw [List.map_append, List.nodup_append']
        refine ⟨t.unique, List.nodup_singleton _, ?_⟩
        intro k hk hrow
        rw [List.map_singleton, List.mem_singleton] at hrow
        exact h (hrow ▸ hk) }

/-- The row with a key changed, but for the key. -/
def updateAt (t : Rows key) (k : κ) (f : ρ → ρ) (hf : ∀ r, key (f r) = key r) : Rows key :=
  t.update (fun r => if key r = k then f r else r) fun r => by
    split
    · exact hf r
    · rfl

/-- The table without the row that has a key. -/
def delete (t : Rows key) (k : κ) : Rows key where
  list := t.list.filter fun r => key r ≠ k
  unique := t.unique.sublist (List.filter_sublist.map key)

/-- A row, instead of the one that has its key. -/
def put (t : Rows key) (row : ρ) : Rows key := (t.delete (key row)).insert row

variable {t : Rows key} {k : κ} {r row : ρ}

@[simp] theorem find_empty : (empty : Rows key).find k = none := rfl

theorem key_of_find (h : t.find k = some r) : key r = k := by
  unfold find at h
  simpa using List.find?_some h

theorem find_eq_some : t.find k = some r ↔ r ∈ t.list ∧ key r = k := by
  constructor
  · intro h
    exact ⟨List.mem_of_find?_eq_some h, key_of_find h⟩
  · rintro ⟨hmem, rfl⟩
    cases hfind : t.find (key r) with
    | none =>
      have hnone := List.find?_eq_none.mp hfind r hmem
      exact absurd (decide_eq_true rfl) hnone
    | some other =>
      have hother : other ∈ t.list := List.mem_of_find?_eq_some hfind
      rw [List.inj_on_of_nodup_map t.unique hother hmem (key_of_find hfind)]

theorem find_eq_none : t.find k = none ↔ k ∉ t.list.map key := by
  unfold find
  rw [List.find?_eq_none]
  simp

theorem find_update (f : ρ → ρ) (hf : ∀ r, key (f r) = key r) :
    (t.update f hf).find k = (t.find k).map f := by
  unfold find update
  rw [List.find?_map]
  congr 2
  funext r
  simp only [Function.comp, hf]

omit [DecidableEq κ] in
theorem update_eq_self (f : ρ → ρ) (hf : ∀ r, key (f r) = key r) :
    t.update f hf = t ↔ ∀ r ∈ t.list, f r = r := by
  cases t with
  | mk list unique =>
    unfold update
    rw [Rows.mk.injEq]
    exact ⟨fun h => List.map_inj_left.mp (h.trans (List.map_id list).symm),
      fun h => (List.map_inj_left.mpr h).trans (List.map_id list)⟩

theorem find_updateAt_self (f : ρ → ρ) (hf : ∀ r, key (f r) = key r) :
    (t.updateAt k f hf).find k = (t.find k).map f := by
  unfold updateAt
  rw [find_update]
  cases h : t.find k with
  | none => rfl
  | some r => exact congrArg some (if_pos (key_of_find h))

theorem find_updateAt_of_ne {j : κ} (hne : j ≠ k) (f : ρ → ρ) (hf : ∀ r, key (f r) = key r) :
    (t.updateAt k f hf).find j = t.find j := by
  unfold updateAt
  rw [find_update]
  cases h : t.find j with
  | none => rfl
  | some r => exact congrArg some (if_neg fun hkey => hne ((key_of_find h).symm.trans hkey))

/-- A change of a row takes none away. -/
theorem isSome_find_updateAt {j : κ} (f : ρ → ρ) (hf : ∀ r, key (f r) = key r) :
    ((t.updateAt j f hf).find k).isSome = (t.find k).isSome := by
  by_cases hk : k = j
  · rw [hk, find_updateAt_self, Option.isSome_map]
  · rw [find_updateAt_of_ne hk]

theorem find_insert_self (h : t.find (key row) = none) : (t.insert row).find (key row) = some row := by
  unfold insert
  rw [dif_neg (find_eq_none.mp h)]
  exact find_eq_some.mpr ⟨List.mem_append_right _ (List.mem_singleton_self _), rfl⟩

theorem find_insert_of_ne (hne : k ≠ key row) : (t.insert row).find k = t.find k := by
  unfold insert
  split
  · rfl
  · unfold find
    rw [List.find?_append, List.find?_singleton, if_neg (by simpa using Ne.symm hne), Option.or_none]

theorem mem_insert (h : key row ∉ t.list.map key) : r ∈ (t.insert row).list ↔ r ∈ t.list ∨ r = row := by
  unfold insert
  rw [dif_neg h]
  simp

theorem mem_of_mem_insert (h : r ∈ (t.insert row).list) : r ∈ t.list ∨ r = row := by
  unfold insert at h
  split at h
  next => exact .inl h
  next =>
    rcases List.mem_append.mp h with hold | hnew
    · exact .inl hold
    · exact .inr (List.mem_singleton.mp hnew)

theorem mem_insert_of_mem (h : r ∈ t.list) : r ∈ (t.insert row).list := by
  unfold insert
  split
  · exact h
  · exact List.mem_append_left _ h

theorem isSome_find_insert (h : (t.find k).isSome) : ((t.insert row).find k).isSome := by
  obtain ⟨r, hr⟩ := Option.isSome_iff_exists.mp h
  obtain ⟨hmem, hkey⟩ := find_eq_some.mp hr
  exact Option.isSome_iff_exists.mpr ⟨r, find_eq_some.mpr ⟨mem_insert_of_mem hmem, hkey⟩⟩

theorem mem_delete : r ∈ (t.delete k).list ↔ r ∈ t.list ∧ key r ≠ k := by
  unfold delete
  rw [List.mem_filter, decide_eq_true_eq]

theorem find_delete (j : κ) : (t.delete j).find k = if k = j then none else t.find k := by
  unfold find delete
  rw [List.find?_filter]
  by_cases hk : k = j
  · rw [if_pos hk, List.find?_eq_none]
    intro r _ hr
    simp_all
  · rw [if_neg hk]
    refine congrArg (t.list.find? ·) (funext fun r => ?_)
    by_cases hr : key r = k <;> simp_all

theorem find_put (row : ρ) : (t.put row).find k = if k = key row then some row else t.find k := by
  unfold put
  by_cases hk : k = key row
  · rw [if_pos hk, hk]
    refine find_insert_self ?_
    rw [find_delete, if_pos rfl]
  · rw [if_neg hk, find_insert_of_ne hk, find_delete, if_neg hk]

/-- The table after rows are deleted one after the other. -/
theorem find_foldl_delete (ks : List κ) (t : Rows key) :
    (ks.foldl delete t).find k = if k ∈ ks then none else t.find k := by
  induction ks generalizing t with
  | nil => simp
  | cons j ks ih =>
    rw [List.foldl_cons, ih, find_delete]
    by_cases hk : k ∈ ks
    · rw [if_pos hk, if_pos (List.mem_cons_of_mem _ hk)]
    · by_cases hj : k = j <;> simp [hk, hj]

theorem mem_of_find (h : t.find k = some r) : r ∈ t.list := (find_eq_some.mp h).1

/-- The row with the key, changed, and the others. -/
theorem mem_updateAt (hfind : t.find k = some row) (f : ρ → ρ) (hf : ∀ r, key (f r) = key r) :
    r ∈ (t.updateAt k f hf).list ↔ r = f row ∨ r ∈ t.list ∧ key r ≠ k := by
  obtain ⟨hrow, hkey⟩ := find_eq_some.mp hfind
  unfold updateAt update
  rw [List.mem_map]
  constructor
  · rintro ⟨r', hr', rfl⟩
    split
    next heq =>
      obtain rfl : row = r' := by
        have hfind' := find_eq_some.mpr ⟨hr', heq⟩
        exact Option.some.inj (hfind.symm.trans hfind')
      exact .inl rfl
    next hne => exact .inr ⟨hr', hne⟩
  · rintro (rfl | ⟨hr, hne⟩)
    · exact ⟨row, hrow, if_pos hkey⟩
    · exact ⟨r, hr, if_neg hne⟩

end Rows

end Eidetic.Lib
