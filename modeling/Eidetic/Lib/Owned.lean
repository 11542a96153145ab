import Eidetic.Lib.Rows

/-!
# Rows that have an owner

A table whose keys are given out one after the other. A row may be changed, but
not its owner, and a key that was given out once is not given out again. So what
has once been found to be someone's is theirs, as long as it is there.

`Evolves` is the relation between a table and a later one, which every operation
has and which is transitive; what `Belongs` to someone before still does after
it. So a machine whose steps are such operations needs no induction of its own
for what its phases have found.
-/

namespace Eidetic.Lib

variable {ρ υ : Type*} {key : ρ → Nat} {owner : ρ → υ}

/-- A table, and the first key that has not been given out. -/
structure Owned (key : ρ → Nat) (owner : ρ → υ) where
  rows : Rows key
  next : Nat
  keyLt : ∀ r ∈ rows.list, key r < next

namespace Owned

def empty : Owned key owner := ⟨Rows.empty, 0, fun _ h => absurd h List.not_mem_nil⟩

def find (t : Owned key owner) (k : Nat) : Option ρ := t.rows.find k

/-- A new row, under the next key. -/
def add (t : Owned key owner) (row : Nat → ρ) (hkey : ∀ n, key (row n) = n) : Owned key owner where
  rows := t.rows.insert (row t.next)
  next := t.next + 1
  keyLt r hr := by
    rcases Rows.mem_of_mem_insert hr with hold | rfl
    · exact Nat.lt_succ_of_lt (t.keyLt r hold)
    · rw [hkey]
      exact Nat.lt_succ_self _

def delete (t : Owned key owner) (k : Nat) : Owned key owner where
  rows := t.rows.delete k
  next := t.next
  keyLt r hr := t.keyLt r (Rows.mem_delete.mp hr).1

def change (t : Owned key owner) (k : Nat) (f : ρ → ρ) (hf : ∀ r, key (f r) = key r) :
    Owned key owner where
  rows := t.rows.updateAt k f hf
  next := t.next
  keyLt r hr := by
    obtain ⟨r', hr', rfl⟩ := List.mem_map.mp hr
    split
    next => rw [hf]; exact t.keyLt r' hr'
    next => exact t.keyLt r' hr'

variable {t t' : Owned key owner} {k j : Nat} {u : υ} {r : ρ}

theorem lt_of_find (h : t.find k = some r) : k < t.next := by
  obtain ⟨hmem, rfl⟩ := Rows.find_eq_some.mp h
  exact t.keyLt r hmem

theorem find_add_next (row : Nat → ρ) (hkey : ∀ n, key (row n) = n) :
    (t.add row hkey).find t.next = some (row t.next) := by
  have hnone : t.rows.find (key (row t.next)) = none := by
    rw [hkey]
    cases hfind : t.rows.find t.next with
    | none => rfl
    | some r => exact absurd (lt_of_find hfind) (Nat.lt_irrefl _)
  have hself := Rows.find_insert_self hnone
  rw [hkey] at hself
  exact hself

theorem find_add_of_lt (row : Nat → ρ) (hkey : ∀ n, key (row n) = n) (h : k < t.next) :
    (t.add row hkey).find k = t.find k :=
  Rows.find_insert_of_ne (by rw [hkey]; omega)

theorem find_delete_of_ne (h : k ≠ j) : (t.delete j).find k = t.find k :=
  (Rows.find_delete j).trans (if_neg h)

/-- A row that is changed is there with its owner. -/
theorem find_change {f : ρ → ρ} (hf : ∀ r, key (f r) = key r) (howner : ∀ r, owner (f r) = owner r)
    (h : t.find k = some r) : ∃ r', (t.change j f hf).find k = some r' ∧ owner r' = owner r := by
  by_cases hk : k = j
  · subst hk
    exact ⟨f r, (Rows.find_updateAt_self f hf).trans (by rw [show t.rows.find k = some r from h]; rfl),
      howner r⟩
  · exact ⟨r, (Rows.find_updateAt_of_ne hk f hf).trans h, rfl⟩

/-! ## What stays someone's -/

/-- A row with the key has the owner, and there has been one. -/
def Belongs (t : Owned key owner) (k : Nat) (u : υ) : Prop :=
  k < t.next ∧ ∀ r, t.find k = some r → owner r = u

theorem belongs_of_find (h : t.find k = some r) : t.Belongs k (owner r) := by
  refine ⟨lt_of_find h, ?_⟩
  intro r' hr'
  rw [h] at hr'
  rw [Option.some.inj hr']

/-- Whether the row with a key is someone's, as it is asked. -/
theorem any_owner_iff [DecidableEq υ] :
    ((t.find k).any fun r => decide (owner r = u)) = true ↔ ∃ r, t.find k = some r ∧ owner r = u := by
  cases h : t.find k with
  | none => simp
  | some r => simp

theorem belongs_of_any [DecidableEq υ] (h : ((t.find k).any fun r => decide (owner r = u)) = true) :
    t.Belongs k u := by
  obtain ⟨r, hfind, rfl⟩ := any_owner_iff.mp h
  exact belongs_of_find hfind

/-- Rows are added, deleted and changed, but not given away. -/
structure Evolves (t t' : Owned key owner) : Prop where
  next_le : t.next ≤ t'.next
  kept : ∀ k r', k < t.next → t'.find k = some r' → ∃ r, t.find k = some r ∧ owner r' = owner r

theorem Evolves.refl (t : Owned key owner) : t.Evolves t :=
  ⟨Nat.le_refl _, fun _ r' _ h => ⟨r', h, rfl⟩⟩

theorem evolves_add (row : Nat → ρ) (hkey : ∀ n, key (row n) = n) : t.Evolves (t.add row hkey) := by
  refine ⟨Nat.le_succ _, ?_⟩
  intro k r' hlt h
  rw [find_add_of_lt row hkey hlt] at h
  exact ⟨r', h, rfl⟩

theorem evolves_delete (j : Nat) : t.Evolves (t.delete j) := by
  refine ⟨Nat.le_refl _, ?_⟩
  intro k r' _ h
  have hfind : (if k = j then none else t.rows.find k) = some r' := (Rows.find_delete j).symm.trans h
  split at hfind
  next => exact absurd hfind (by simp)
  next => exact ⟨r', hfind, rfl⟩

theorem evolves_change (j : Nat) {f : ρ → ρ} (hf : ∀ r, key (f r) = key r)
    (howner : ∀ r, owner (f r) = owner r) : t.Evolves (t.change j f hf) := by
  refine ⟨Nat.le_refl _, ?_⟩
  intro k r' _ h
  by_cases hk : k = j
  · subst hk
    have hfind := (Rows.find_updateAt_self f hf).symm.trans h
    obtain ⟨r, hr, rfl⟩ := Option.map_eq_some_iff.mp hfind
    exact ⟨r, hr, howner r⟩
  · exact ⟨r', (Rows.find_updateAt_of_ne hk f hf).symm.trans h, rfl⟩

theorem Belongs.evolves (h : t.Belongs k u) (he : t.Evolves t') : t'.Belongs k u := by
  refine ⟨Nat.lt_of_lt_of_le h.1 he.next_le, ?_⟩
  intro r' hr'
  obtain ⟨r, hr, hsame⟩ := he.kept k r' h.1 hr'
  rw [hsame]
  exact h.2 r hr

end Owned

end Eidetic.Lib
