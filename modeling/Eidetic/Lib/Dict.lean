import Mathlib.Algebra.Group.Defs
import Mathlib.Data.List.Nodup

/-!
# Dictionaries

Entries under keys, in the order in which the keys came. What is built from
pairs of different keys is these pairs.

`putItem` is `d[k] = v`, `putDefault` is `setdefault`, and `popKey` is `pop`.
What is under a key, which keys there are, and that there are none twice is said
of each, and of a row of them from pairs.
-/

namespace Eidetic.Lib

variable {κ ν : Type*} [DecidableEq κ]

/-- `d[k] = v`. -/
def putItem (d : List (κ × ν)) (k : κ) (v : ν) : List (κ × ν) :=
  if k ∈ d.map Prod.fst then d.map fun e => if e.1 = k then (k, v) else e else d ++ [(k, v)]

/-- `d.setdefault(k, v)`. -/
def putDefault (d : List (κ × ν)) (k : κ) (v : ν) : List (κ × ν) :=
  if k ∈ d.map Prod.fst then d else d ++ [(k, v)]

/-- `d[k] = v` for pairs in a row. -/
def putItems (d ps : List (κ × ν)) : List (κ × ν) := ps.foldl (fun d p => putItem d p.1 p.2) d

/-- `d[k] = d.get(k, 0) + v` for pairs in a row. -/
def addItems [Zero ν] [Add ν] (d ps : List (κ × ν)) : List (κ × ν) :=
  ps.foldl (fun d p => putItem d p.1 ((d.lookup p.1).getD 0 + p.2)) d

/-- `d.setdefault(k, v)` for pairs in a row. -/
def putDefaults (d ps : List (κ × ν)) : List (κ × ν) := ps.foldl (fun d p => putDefault d p.1 p.2) d

/-- `d.pop(k, None)`. -/
def popKey (d : List (κ × ν)) (k : κ) : List (κ × ν) := d.filter fun e => e.1 ≠ k

/-- `d.move_to_end(k)` of an `OrderedDict`, for a key that is there. -/
def moveToEnd (d : List (κ × ν)) (k : κ) : List (κ × ν) :=
  match d.lookup k with
  | some v => popKey d k ++ [(k, v)]
  | none => d

theorem putItems_cons (d ps : List (κ × ν)) (p : κ × ν) :
    putItems d (p :: ps) = putItems (putItem d p.1 p.2) ps := rfl

/-- New keys are appended. -/
theorem putItems_of_new {d ps : List (κ × ν)} (h : ((d ++ ps).map Prod.fst).Nodup) :
    putItems d ps = d ++ ps := by
  induction ps generalizing d with
  | nil => exact (List.append_nil d).symm
  | cons p ps ih =>
    have hnew : p.1 ∉ d.map Prod.fst := by
      rw [List.map_append, List.map_cons] at h
      exact fun hmem => (List.nodup_append.mp h).2.2 _ hmem _ (List.mem_cons_self ..) rfl
    rw [putItems_cons, putItem, if_neg hnew, ih]
    · rw [List.append_assoc, List.singleton_append]
    · rwa [List.append_assoc, List.singleton_append]

/-- What is under a key is what was put there. -/
theorem lookup_of_mem {d : List (κ × ν)} (h : (d.map Prod.fst).Nodup) {k : κ} {v : ν}
    (hmem : (k, v) ∈ d) : d.lookup k = some v := by
  induction d with
  | nil => exact absurd hmem List.not_mem_nil
  | cons e d ih =>
    obtain ⟨hnew, hrest⟩ := List.nodup_cons.mp (by rwa [List.map_cons] at h)
    rcases List.mem_cons.mp hmem with heq | hmem
    · rw [← heq, List.lookup_cons_self]
    · have hne : k ≠ e.1 := fun heq => hnew (heq ▸ List.mem_map_of_mem (f := Prod.fst) hmem)
      rw [List.lookup_cons, beq_false_of_ne hne]
      exact ih hrest hmem

theorem mem_of_lookup {d : List (κ × ν)} {k : κ} {v : ν} (h : d.lookup k = some v) : (k, v) ∈ d := by
  obtain ⟨before, after, rfl, -⟩ := List.lookup_eq_some_iff.mp h
  simp

theorem any_key (d : List (κ × ν)) (k : κ) :
    (d.any fun e => decide (e.1 = k)) = true ↔ k ∈ d.map Prod.fst := by
  simp only [List.any_eq_true, decide_eq_true_eq, List.mem_map]

theorem lookup_eq_none_of_not_mem {d : List (κ × ν)} {k : κ} (h : k ∉ d.map Prod.fst) :
    d.lookup k = none := by
  rw [List.lookup_eq_none_iff]
  intro e he
  rw [bne_iff_ne]
  exact fun heq => h (List.mem_map.mpr ⟨e, he, heq.symm⟩)

/-! ## Keys -/

theorem keys_putItem (d : List (κ × ν)) (k : κ) (v : ν) :
    (putItem d k v).map Prod.fst
      = if k ∈ d.map Prod.fst then d.map Prod.fst else d.map Prod.fst ++ [k] := by
  unfold putItem
  split
  next =>
    rw [List.map_map]
    refine List.map_congr_left fun e _ => ?_
    show (if e.1 = k then (k, v) else e).1 = e.1
    split
    next heq => exact heq.symm
    next => rfl
  next => rw [List.map_append, List.map_cons, List.map_nil]

theorem mem_keys_putItem {d : List (κ × ν)} {k k' : κ} {v : ν} :
    k' ∈ (putItem d k v).map Prod.fst ↔ k' ∈ d.map Prod.fst ∨ k' = k := by
  rw [keys_putItem]
  split
  next hk => exact (or_iff_left_of_imp fun heq => heq ▸ hk).symm
  next => rw [List.mem_append, List.mem_singleton]

theorem nodup_keys_putItem {d : List (κ × ν)} (h : (d.map Prod.fst).Nodup) (k : κ) (v : ν) :
    ((putItem d k v).map Prod.fst).Nodup := by
  rw [keys_putItem]
  split
  next => exact h
  next hk => exact List.nodup_append.mpr ⟨h, List.nodup_singleton k, fun a ha b hb heq =>
      hk (List.mem_singleton.mp hb ▸ heq ▸ ha)⟩

theorem mem_keys_putDefault {d : List (κ × ν)} {k k' : κ} {v : ν} :
    k' ∈ (putDefault d k v).map Prod.fst ↔ k' ∈ d.map Prod.fst ∨ k' = k := by
  unfold putDefault
  split
  next hk => exact (or_iff_left_of_imp fun heq => heq ▸ hk).symm
  next => rw [List.map_append, List.map_cons, List.map_nil, List.mem_append, List.mem_singleton]

theorem mem_keys_putItems {d ps : List (κ × ν)} {k : κ} :
    k ∈ (putItems d ps).map Prod.fst ↔ k ∈ d.map Prod.fst ∨ k ∈ ps.map Prod.fst := by
  induction ps generalizing d with
  | nil => simp [putItems]
  | cons p ps ih =>
    rw [putItems_cons, ih, mem_keys_putItem, List.map_cons, List.mem_cons, or_assoc]

theorem mem_keys_putDefaults {d ps : List (κ × ν)} {k : κ} :
    k ∈ (putDefaults d ps).map Prod.fst ↔ k ∈ d.map Prod.fst ∨ k ∈ ps.map Prod.fst := by
  induction ps generalizing d with
  | nil => simp [putDefaults]
  | cons p ps ih =>
    show k ∈ (putDefaults (putDefault d p.1 p.2) ps).map Prod.fst ↔ _
    rw [ih, mem_keys_putDefault, List.map_cons, List.mem_cons, or_assoc]

theorem exists_lookup {d : List (κ × ν)} {k : κ} (h : k ∈ d.map Prod.fst) :
    ∃ v, d.lookup k = some v := by
  cases hv : d.lookup k with
  | some v => exact ⟨v, rfl⟩
  | none =>
    obtain ⟨e, he, rfl⟩ := List.mem_map.mp h
    rw [List.lookup_eq_none_iff] at hv
    exact absurd (hv e he) (by simp)

/-! ## What is found -/

/-- Putting a value under the keys `k` of a list. -/
theorem lookup_replaced (d : List (κ × ν)) (k k' : κ) (v : ν) :
    (d.map fun e => if e.1 = k then (k, v) else e).lookup k'
      = if k' = k then (d.lookup k).map fun _ => v else d.lookup k' := by
  induction d with
  | nil => simp
  | cons e d ih =>
    rw [List.map_cons]
    by_cases hk : e.1 = k
    · rw [if_pos hk, List.lookup_cons, List.lookup_cons, List.lookup_cons, ih, hk]
      by_cases hk' : k' = k
      · simp [hk']
      · have hne : (k' == k) = false := beq_false_of_ne hk'
        simp only [if_neg hk', hne]
    · rw [if_neg hk, List.lookup_cons, List.lookup_cons, List.lookup_cons, ih,
        beq_false_of_ne (Ne.symm hk)]
      by_cases hk' : k' = k
      · rw [hk', beq_false_of_ne (Ne.symm hk)]
      · simp only [if_neg hk']

theorem lookup_putItem (d : List (κ × ν)) (k k' : κ) (v : ν) :
    (putItem d k v).lookup k' = if k' = k then some v else d.lookup k' := by
  unfold putItem
  split
  next hk =>
    obtain ⟨w, hw⟩ := exists_lookup hk
    rw [lookup_replaced, hw]
    rfl
  next hk =>
    rw [List.lookup_append, List.lookup_cons, List.lookup_nil]
    by_cases hk' : k' = k
    · rw [hk', lookup_eq_none_of_not_mem hk]
      simp
    · rw [beq_false_of_ne hk', if_neg hk', Option.or_none]

theorem addItems_cons [Zero ν] [Add ν] (d ps : List (κ × ν)) (p : κ × ν) :
    addItems d (p :: ps) = addItems (putItem d p.1 ((d.lookup p.1).getD 0 + p.2)) ps := rfl

theorem mem_keys_addItems [Zero ν] [Add ν] {d ps : List (κ × ν)} {k : κ} :
    k ∈ (addItems d ps).map Prod.fst ↔ k ∈ d.map Prod.fst ∨ k ∈ ps.map Prod.fst := by
  induction ps generalizing d with
  | nil => simp [addItems]
  | cons p ps ih =>
    rw [addItems_cons, ih, mem_keys_putItem, List.map_cons, List.mem_cons, or_assoc]

theorem nodup_keys_addItems [Zero ν] [Add ν] {d : List (κ × ν)} (h : (d.map Prod.fst).Nodup)
    (ps : List (κ × ν)) : ((addItems d ps).map Prod.fst).Nodup := by
  induction ps generalizing d with
  | nil => exact h
  | cons p ps ih =>
    rw [addItems_cons]
    exact ih (nodup_keys_putItem h _ _)

/-- What is under a key is the sum of what was there and what was added. -/
theorem lookup_addItems [AddMonoid ν] (d : List (κ × ν)) {ps : List (κ × ν)}
    (h : (ps.map Prod.fst).Nodup) (k : κ) :
    ((addItems d ps).lookup k).getD 0 = (d.lookup k).getD 0 + (ps.lookup k).getD 0 := by
  induction ps generalizing d with
  | nil => exact (add_zero _).symm
  | cons p ps ih =>
    obtain ⟨hnew, hrest⟩ := List.nodup_cons.mp (by rwa [List.map_cons] at h)
    rw [addItems_cons, ih _ hrest, lookup_putItem, List.lookup_cons]
    by_cases hk : k = p.1
    · rw [hk, if_pos rfl, lookup_eq_none_of_not_mem hnew, beq_self_eq_true]
      exact add_zero _
    · rw [if_neg hk, beq_false_of_ne hk]

/-! ## Removing and reordering -/

theorem keys_popKey (d : List (κ × ν)) (k : κ) :
    (popKey d k).map Prod.fst = (d.map Prod.fst).filter fun k' => k' ≠ k := by
  rw [popKey, List.filter_map]
  rfl

theorem mem_keys_popKey {d : List (κ × ν)} {k k' : κ} :
    k' ∈ (popKey d k).map Prod.fst ↔ k' ∈ d.map Prod.fst ∧ k' ≠ k := by
  rw [keys_popKey, List.mem_filter, decide_eq_true_eq]

theorem nodup_keys_popKey {d : List (κ × ν)} (h : (d.map Prod.fst).Nodup) (k : κ) :
    ((popKey d k).map Prod.fst).Nodup := by
  rw [keys_popKey]
  exact h.filter _

theorem lookup_popKey (d : List (κ × ν)) (k k' : κ) :
    (popKey d k).lookup k' = if k' = k then none else d.lookup k' := by
  by_cases hk : k' = k
  · rw [if_pos hk]
    exact lookup_eq_none_of_not_mem fun hmem => (mem_keys_popKey.mp hmem).2 hk
  · rw [if_neg hk]
    induction d with
    | nil => rfl
    | cons e d ih =>
      unfold popKey at ih ⊢
      by_cases he : e.1 = k
      · rw [List.filter_cons_of_neg (by simpa using he), ih, List.lookup_cons, he,
          beq_false_of_ne hk]
      · rw [List.filter_cons_of_pos (by simpa using he), List.lookup_cons, List.lookup_cons, ih]

theorem popKey_putItem (d : List (κ × ν)) (k : κ) (v : ν) :
    popKey (putItem d k v) k = popKey d k := by
  unfold putItem popKey
  split
  next hk =>
    clear hk
    induction d with
    | nil => rfl
    | cons e d ih =>
      rw [List.map_cons]
      by_cases he : e.1 = k
      · rw [if_pos he, List.filter_cons_of_neg (by simp), List.filter_cons_of_neg (by simpa using he),
          ih]
      · rw [if_neg he, List.filter_cons_of_pos (by simpa using he),
          List.filter_cons_of_pos (by simpa using he), ih]
  next => simp

/-- A key that is set and moved is the last one. -/
theorem moveToEnd_putItem (d : List (κ × ν)) (k : κ) (v : ν) :
    moveToEnd (putItem d k v) k = popKey d k ++ [(k, v)] := by
  have hset : (putItem d k v).lookup k = some v := by rw [lookup_putItem, if_pos rfl]
  rw [moveToEnd, hset, popKey_putItem]

end Eidetic.Lib
