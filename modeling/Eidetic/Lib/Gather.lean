import Eidetic.Lib.Dict
import Mathlib.Data.List.Sort

/-!
# Gathering by key

Items come one after the other, and each is merged into the entry of its key,
which is made when the key is new. What an entry holds in the end are the items
of its own key, merged in their order, however the items of different keys were
interleaved (`lookup_gather`).

The entries are in the order in which the keys came. What is under a key is a
fold over the items with this key (`lookup_foldl_absorb`), and which keys there
are does not depend on what is merged (`mem_keys_gather`). Grouping is the
instance that appends (`groupsOf`): the groups are the items by their key, in
order, and different groups have no item in common.
-/

namespace Eidetic.Lib

variable {κ ν φ : Type*} [DecidableEq κ] (key : φ → κ) (start : ν) (merge : ν → φ → ν)

/-- Makes the entry of a key, if it is not there yet. -/
def ensureKey (p : List (κ × ν)) (k : κ) : List (κ × ν) :=
  if p.any fun e => e.1 = k then p else p ++ [(k, start)]

/-- Changes the entry of a key. -/
def modifyKey (p : List (κ × ν)) (k : κ) (f : ν → ν) : List (κ × ν) :=
  p.map fun e => if e.1 = k then (e.1, f e.2) else e

/-- Merges an item into the entry of its key. -/
def absorb (p : List (κ × ν)) (x : φ) : List (κ × ν) :=
  modifyKey (ensureKey start p (key x)) (key x) fun v => merge v x

/-- The entries of a list of items. -/
def gather (xs : List φ) : List (κ × ν) := xs.foldl (absorb key start merge) []

/-! ## One key at a time -/

theorem keys_modifyKey (p : List (κ × ν)) (k : κ) (f : ν → ν) :
    (modifyKey p k f).map (·.1) = p.map (·.1) := by
  unfold modifyKey
  rw [List.map_map]
  apply List.map_congr_left
  intro e _
  by_cases hk : e.1 = k
  · simp [hk]
  · simp [hk]

theorem keys_ensureKey (p : List (κ × ν)) (k : κ) :
    (ensureKey start p k).map (·.1) = if k ∈ p.map (·.1) then p.map (·.1) else p.map (·.1) ++ [k] := by
  unfold ensureKey
  by_cases hk : k ∈ p.map (·.1)
  · rw [if_pos ((any_key p k).mpr hk), if_pos hk]
  · rw [if_neg (fun h => hk ((any_key p k).mp h)), if_neg hk, List.map_append]
    rfl

theorem lookup_modifyKey (p : List (κ × ν)) (k k' : κ) (f : ν → ν) :
    (modifyKey p k f).lookup k' = if k' = k then (p.lookup k').map f else p.lookup k' := by
  unfold modifyKey
  induction p with
  | nil => simp
  | cons e p ih =>
    obtain ⟨k₀, v⟩ := e
    rw [List.map_cons]
    by_cases hk' : k' = k₀
    · rw [hk']
      by_cases hk : k₀ = k
      · simp [hk]
      · simp [hk]
    · have hne : (k' == k₀) = false := by simpa using hk'
      by_cases hk : k₀ = k
      · rw [if_pos hk, List.lookup_cons, List.lookup_cons, hne]
        exact ih
      · rw [if_neg hk, List.lookup_cons, List.lookup_cons, hne]
        exact ih

theorem lookup_ensureKey (p : List (κ × ν)) (k k' : κ) :
    (ensureKey start p k).lookup k'
      = if k' = k then some ((p.lookup k).getD start) else p.lookup k' := by
  unfold ensureKey
  by_cases hk : k ∈ p.map (·.1)
  · rw [if_pos ((any_key p k).mpr hk)]
    split
    next heq =>
      rw [heq]
      obtain ⟨e, he, hek⟩ := List.mem_map.mp hk
      cases hl : p.lookup k with
      | none =>
        have hno := (List.lookup_eq_none_iff.mp hl) e he
        rw [hek] at hno
        simp at hno
      | some v => rfl
    next => rfl
  · rw [if_neg (fun h => hk ((any_key p k).mp h)), List.lookup_append]
    split
    next heq => simp [heq, lookup_eq_none_of_not_mem hk]
    next hne =>
      have hne' : (k' == k) = false := by simpa using hne
      simp [List.lookup_cons, hne']

theorem lookup_absorb (p : List (κ × ν)) (x : φ) (k : κ) :
    (absorb key start merge p x).lookup k
      = if k = key x then some (merge ((p.lookup k).getD start) x) else p.lookup k := by
  unfold absorb
  rw [lookup_modifyKey, lookup_ensureKey]
  by_cases hk : k = key x
  · rw [if_pos hk, if_pos hk, if_pos hk, Option.map_some, hk]
  · rw [if_neg hk, if_neg hk, if_neg hk]

/-! ## All of them -/

/-- The entry of a key holds the key's own items, merged in their order. -/
theorem lookup_foldl_absorb (xs : List φ) (p : List (κ × ν)) (k : κ) :
    (xs.foldl (absorb key start merge) p).lookup k
      = if k ∈ xs.map key then
          some ((xs.filter fun x => key x = k).foldl merge ((p.lookup k).getD start))
        else p.lookup k := by
  induction xs generalizing p with
  | nil => simp
  | cons x xs ih =>
    rw [List.foldl_cons, ih, lookup_absorb, List.map_cons, List.filter_cons]
    by_cases hx : k = key x
    · have hown : decide (key x = k) = true := by simp [hx]
      rw [if_pos hx, if_pos hown, if_pos (List.mem_cons.mpr (Or.inl hx)), List.foldl_cons,
        Option.getD_some]
      split
      next => rfl
      next hnot =>
        -- no further item of this key
        have hnil : (xs.filter fun x => decide (key x = k)) = [] := by
          rw [List.filter_eq_nil_iff]
          intro y hy
          simp only [decide_eq_true_eq]
          intro hk
          exact hnot (hk ▸ List.mem_map_of_mem hy)
        rw [hnil]
        rfl
    · have hown : ¬ decide (key x = k) = true := by
        simp only [decide_eq_true_eq]
        exact fun h => hx h.symm
      rw [if_neg hx, if_neg hown]
      simp [hx]

theorem lookup_gather (xs : List φ) (k : κ) :
    (gather key start merge xs).lookup k
      = if k ∈ xs.map key then some ((xs.filter fun x => key x = k).foldl merge start)
        else none :=
  lookup_foldl_absorb key start merge xs [] k

theorem keys_absorb (p : List (κ × ν)) (x : φ) :
    (absorb key start merge p x).map (·.1)
      = if key x ∈ p.map (·.1) then p.map (·.1) else p.map (·.1) ++ [key x] := by
  unfold absorb
  rw [keys_modifyKey, keys_ensureKey]

theorem mem_keys_foldl_absorb (xs : List φ) (p : List (κ × ν)) (k : κ) :
    k ∈ (xs.foldl (absorb key start merge) p).map (·.1) ↔ k ∈ p.map (·.1) ∨ k ∈ xs.map key := by
  induction xs generalizing p with
  | nil => simp
  | cons x xs ih =>
    rw [List.foldl_cons, ih, keys_absorb, List.map_cons, List.mem_cons]
    split
    next hx =>
      constructor
      · exact fun h => h.imp id Or.inr
      · rintro (h | h | h)
        · exact Or.inl h
        · exact Or.inl (h ▸ hx)
        · exact Or.inr h
    next => rw [List.mem_append, List.mem_singleton, or_assoc]

/-- The keys are those of the items. -/
theorem mem_keys_gather (xs : List φ) (k : κ) :
    k ∈ (gather key start merge xs).map (·.1) ↔ k ∈ xs.map key := by
  unfold gather
  rw [mem_keys_foldl_absorb]
  simp

theorem nodup_keys_foldl_absorb (xs : List φ) {p : List (κ × ν)} (h : (p.map (·.1)).Nodup) :
    ((xs.foldl (absorb key start merge) p).map (·.1)).Nodup := by
  induction xs generalizing p with
  | nil => exact h
  | cons x xs ih =>
    rw [List.foldl_cons]
    apply ih
    rw [keys_absorb]
    split
    next => exact h
    next hx =>
      refine List.nodup_append.mpr ⟨h, List.nodup_singleton _, ?_⟩
      intro k hk k' hk' heq
      rw [heq, List.mem_singleton.mp hk'] at hk
      exact hx hk

/-- No key has two entries. -/
theorem nodup_keys_gather (xs : List φ) : ((gather key start merge xs).map (·.1)).Nodup :=
  nodup_keys_foldl_absorb key start merge xs (by simp)

/-! ## Groups -/

/-- `groups.setdefault(key(x), []).append(x)` for items in a row. -/
def groupsOf (key : φ → κ) (xs : List φ) : List (κ × List φ) :=
  gather key [] (fun group x => group ++ [x]) xs

theorem foldl_snoc (xs acc : List φ) : xs.foldl (fun group x => group ++ [x]) acc = acc ++ xs := by
  induction xs generalizing acc with
  | nil => exact (List.append_nil acc).symm
  | cons x xs ih => rw [List.foldl_cons, ih, List.append_assoc, List.singleton_append]

theorem nodup_keys_groupsOf (key : φ → κ) (xs : List φ) : ((groupsOf key xs).map Prod.fst).Nodup :=
  nodup_keys_gather ..

/-- A group has the items of its key, in their order. -/
theorem mem_groupsOf {key : φ → κ} {xs : List φ} {k : κ} {group : List φ} :
    (k, group) ∈ groupsOf key xs ↔ k ∈ xs.map key ∧ group = xs.filter fun x => key x = k := by
  have hlookup : (groupsOf key xs).lookup k
      = if k ∈ xs.map key then some (xs.filter fun x => key x = k) else none := by
    rw [groupsOf, lookup_gather, foldl_snoc, List.nil_append]
  constructor
  · intro h
    rw [lookup_of_mem (nodup_keys_groupsOf key xs) h] at hlookup
    split at hlookup
    next hk => exact ⟨hk, Option.some.inj hlookup⟩
    next => exact absurd hlookup (by simp)
  · intro ⟨hk, hgroup⟩
    rw [if_pos hk] at hlookup
    rw [hgroup]
    exact mem_of_lookup hlookup

/-- What is in a group is an item of its key. -/
theorem mem_of_mem_groupsOf {key : φ → κ} {xs : List φ} {group : κ × List φ}
    (h : group ∈ groupsOf key xs) {x : φ} : x ∈ group.2 ↔ x ∈ xs ∧ key x = group.1 := by
  rw [(mem_groupsOf.mp h).2, List.mem_filter, decide_eq_true_eq]

/-- Items that have no name in common with others are in one group only. -/
theorem group_unique {ι : Type*} {name : φ → ι} {key : φ → κ} {xs : List φ}
    (hnodup : (xs.map name).Nodup) {group group' : κ × List φ} (hgroup : group ∈ groupsOf key xs)
    (hgroup' : group' ∈ groupsOf key xs) {x x' : φ} (hx : x ∈ group.2) (hx' : x' ∈ group'.2)
    (hname : name x = name x') : group = group' := by
  obtain ⟨hx, hkey⟩ := (mem_of_mem_groupsOf hgroup).mp hx
  obtain ⟨hx', hkey'⟩ := (mem_of_mem_groupsOf hgroup').mp hx'
  have hsame : x = x' := List.inj_on_of_nodup_map hnodup hx hx' hname
  have hkeys : group.1 = group'.1 := hkey.symm.trans (hsame ▸ hkey')
  refine Prod.ext hkeys ?_
  rw [(mem_groupsOf.mp hgroup).2, (mem_groupsOf.mp hgroup').2, hkeys]

end Eidetic.Lib
