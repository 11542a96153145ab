import Mathlib.Data.Finset.Card
import Mathlib.Data.Finset.Dedup
import Eidetic.Lib.Dict
import Eidetic.Lib.Run
import Eidetic.Cache.Keys

/-!
# The memory of the response cache

`cache/memory.py`. An entry lies in `_store` and its time in `_expiry`; a
lookup removes an expired entry from both, and a set moves its key to the end
and removes the first one of too many. The log of the sets is what the two are
held against. It is no part of the code.

The invariant is `Kept`. The two dictionaries have the same keys; each key that
is there has the payload and the time of its last set; the keys are in the order
of their last sets; and one that is gone has expired, or as many other keys as
the limit have been set since. The last part is what an eviction needs: the
first key of too many has all the others after it, so all of them were set since
(`kept_popOldest`).

A lookup and a set keep it (`kept_get`, `kept_set`), and time only makes more
entries expire (`Kept.later`). The limit of the size is an invariant beside it
(`MemoryStore.size_get`, `MemoryStore.size_set`). The result on runs puts the
two together and reads off what a lookup finds (`memory_latest_or_none`).
-/

namespace Eidetic.Cache

open Eidetic.Lib

/-- `_MAX_SIZE`. -/
def maxSize : Nat := 1000

/-- `_store` and `_expiry`, each in its order. -/
structure MemoryStore (κ π : Type*) where
  store : List (κ × π)
  expiry : List (κ × Nat)

/-- A set, and when it expires. -/
structure SetRecord (κ π : Type*) where
  key : κ
  payload : π
  expires : Nat

variable {κ π : Type*}

def MemoryStore.empty : MemoryStore κ π := ⟨[], []⟩

variable [DecidableEq κ]

/-- `_store.pop(key, None)` and `_expiry.pop(key, None)`. -/
def MemoryStore.pop (m : MemoryStore κ π) (k : κ) : MemoryStore κ π :=
  ⟨popKey m.store k, popKey m.expiry k⟩

/-- An entry with the time zero never expires: `if expires and …`. -/
def MemoryStore.Expired (m : MemoryStore κ π) (now : Nat) (k : κ) : Prop :=
  ∃ expires, m.expiry.lookup k = some expires ∧ expires ≠ 0 ∧ now > expires

def MemoryStore.get (m : MemoryStore κ π) (now : Nat) (k : κ) : Option π × MemoryStore κ π :=
  match m.expiry.lookup k with
  | some expires => if expires ≠ 0 ∧ now > expires then (none, m.pop k) else (m.store.lookup k, m)
  | none => (m.store.lookup k, m)

/-- `popitem(last=False)`, and its time too. -/
def MemoryStore.popOldest (m : MemoryStore κ π) : MemoryStore κ π :=
  match m.store with
  | oldest :: rest => ⟨rest, popKey m.expiry oldest.1⟩
  | [] => m

def MemoryStore.set (m : MemoryStore κ π) (now : Nat) (k : κ) (payload : π) (ttl : Nat) :
    MemoryStore κ π :=
  let m : MemoryStore κ π :=
    ⟨moveToEnd (putItem m.store k payload) k, putItem m.expiry k (now + ttl)⟩
  if m.store.length > maxSize then m.popOldest else m

/-! ## What was set -/

/-- The last set of a key, in a log with the newest first. -/
def latest (k : κ) (log : List (SetRecord κ π)) : Option (SetRecord κ π) :=
  log.find? fun r => r.key = k

/-- The keys set since the last set of a key. -/
def since (k : κ) (log : List (SetRecord κ π)) : List κ :=
  (log.takeWhile fun r => r.key ≠ k).map SetRecord.key

theorem latest_cons_self (r : SetRecord κ π) (log : List (SetRecord κ π)) :
    latest r.key (r :: log) = some r := by
  rw [latest, List.find?_cons_of_pos (by simp)]

theorem latest_cons_of_ne {r : SetRecord κ π} {k : κ} (h : k ≠ r.key)
    (log : List (SetRecord κ π)) : latest k (r :: log) = latest k log := by
  rw [latest, List.find?_cons_of_neg (by simpa using Ne.symm h), latest]

theorem since_cons_of_ne {r : SetRecord κ π} {k : κ} (h : k ≠ r.key)
    (log : List (SetRecord κ π)) : since k (r :: log) = r.key :: since k log := by
  rw [since, List.takeWhile_cons_of_pos (by simpa using Ne.symm h), List.map_cons, since]

/-- The keys set since only become more. -/
theorem since_subset_cons {r : SetRecord κ π} {k : κ} (h : k ≠ r.key)
    (log : List (SetRecord κ π)) :
    (since k log).toFinset ⊆ (since k (r :: log)).toFinset := by
  rw [since_cons_of_ne h, List.toFinset_cons]
  exact Finset.subset_insert _ _

/-! ## The invariant -/

/-- The two dictionaries have the same keys, in the order of their last sets; a
key that is there has its last set, and one that is gone has expired or was
driven out. -/
structure Kept (now : Nat) (m : MemoryStore κ π) (log : List (SetRecord κ π)) : Prop where
  nodup : (m.store.map Prod.fst).Nodup
  nodupExpiry : (m.expiry.map Prod.fst).Nodup
  keys : ∀ k, k ∈ m.expiry.map Prod.fst ↔ k ∈ m.store.map Prod.fst
  order : (m.store.map Prod.fst).Pairwise fun a b => b ∈ since a log
  found : ∀ k ∈ m.store.map Prod.fst, ∃ r, latest k log = some r ∧
    m.store.lookup k = some r.payload ∧ m.expiry.lookup k = some r.expires
  gone : ∀ k ∉ m.store.map Prod.fst, ∀ r, latest k log = some r →
    r.expires < now ∨ maxSize ≤ (since k log).toFinset.card

theorem kept_empty (now : Nat) : Kept now (MemoryStore.empty : MemoryStore κ π) [] where
  nodup := List.nodup_nil
  nodupExpiry := List.nodup_nil
  keys _ := Iff.rfl
  order := List.Pairwise.nil
  found _ hk := absurd hk List.not_mem_nil
  gone _ _ _ hr := absurd hr (by simp [latest])

theorem Kept.later {now later : Nat} {m : MemoryStore κ π} {log : List (SetRecord κ π)}
    (h : Kept now m log) (hlater : now ≤ later) : Kept later m log :=
  { h with
    gone := fun k hk r hr => (h.gone k hk r hr).imp_left fun hexp => by omega }

/-! ## A lookup -/

theorem MemoryStore.get_cases (m : MemoryStore κ π) (now : Nat) (k : κ) :
    (m.Expired now k ∧ m.get now k = (none, m.pop k)) ∨
      (¬ m.Expired now k ∧ m.get now k = (m.store.lookup k, m)) := by
  unfold MemoryStore.get MemoryStore.Expired
  cases hexp : m.expiry.lookup k with
  | none =>
    refine Or.inr ⟨?_, rfl⟩
    rintro ⟨expires, heq, -⟩
    cases heq
  | some expires =>
    dsimp only
    by_cases hpast : expires ≠ 0 ∧ now > expires
    · rw [if_pos hpast]
      exact Or.inl ⟨⟨expires, rfl, hpast⟩, rfl⟩
    · rw [if_neg hpast]
      refine Or.inr ⟨?_, rfl⟩
      rintro ⟨expires', heq, hpast'⟩
      cases heq
      exact hpast hpast'

theorem kept_get {now : Nat} {m : MemoryStore κ π} {log : List (SetRecord κ π)}
    (h : Kept now m log) (k : κ) : Kept now (m.get now k).2 log := by
  rcases m.get_cases now k with ⟨⟨expires, hexp, hpast⟩, hget⟩ | ⟨-, hget⟩
  -- an expired key leaves both dictionaries and is looked up as missing
  · rw [hget]
    show Kept now (m.pop k) log
    refine ⟨nodup_keys_popKey h.nodup k, nodup_keys_popKey h.nodupExpiry k, fun k' => ?_, ?_,
      fun k' hk' => ?_, fun k' hk' r hr => ?_⟩
    · show k' ∈ (popKey m.expiry k).map Prod.fst ↔ k' ∈ (popKey m.store k).map Prod.fst
      rw [mem_keys_popKey, mem_keys_popKey, h.keys]
    · show ((popKey m.store k).map Prod.fst).Pairwise _
      rw [keys_popKey]
      exact h.order.filter _
    · obtain ⟨hmem, hne⟩ := mem_keys_popKey.mp hk'
      obtain ⟨r, hr, hpay, hexp'⟩ := h.found k' hmem
      refine ⟨r, hr, ?_, ?_⟩
      · show (popKey m.store k).lookup k' = _
        rw [lookup_popKey, if_neg hne, hpay]
      · show (popKey m.expiry k).lookup k' = _
        rw [lookup_popKey, if_neg hne, hexp']
    · by_cases hmem : k' ∈ m.store.map Prod.fst
      · -- the key that was removed had expired
        have hk : k' = k := by
          by_contra hne
          exact hk' (mem_keys_popKey.mpr ⟨hmem, hne⟩)
        obtain ⟨r', hr', -, hexp'⟩ := h.found k' hmem
        rw [hr] at hr'
        rw [hk, hexp] at hexp'
        cases hr'
        cases hexp'
        exact Or.inl hpast.2
      · exact h.gone k' hmem r hr
  · rw [hget]
    exact h

/-! ## A set -/

/-- The entry is the last one, before the limit is looked at. -/
def MemoryStore.put (m : MemoryStore κ π) (now : Nat) (k : κ) (payload : π) (ttl : Nat) :
    MemoryStore κ π :=
  ⟨popKey m.store k ++ [(k, payload)], putItem m.expiry k (now + ttl)⟩

theorem MemoryStore.set_eq (m : MemoryStore κ π) (now : Nat) (k : κ) (payload : π) (ttl : Nat) :
    m.set now k payload ttl
      = if (m.put now k payload ttl).store.length > maxSize
        then (m.put now k payload ttl).popOldest else m.put now k payload ttl := by
  rw [MemoryStore.set, moveToEnd_putItem]
  rfl

theorem MemoryStore.keys_put (m : MemoryStore κ π) (now : Nat) (k : κ) (payload : π) (ttl : Nat) :
    (m.put now k payload ttl).store.map Prod.fst
      = (m.store.map Prod.fst).filter (fun k' => k' ≠ k) ++ [k] := by
  rw [MemoryStore.put, List.map_append, keys_popKey]
  rfl

theorem MemoryStore.mem_keys_put {m : MemoryStore κ π} {now : Nat} {k k' : κ} {payload : π}
    {ttl : Nat} : k' ∈ (m.put now k payload ttl).store.map Prod.fst ↔
      k' ∈ m.store.map Prod.fst ∨ k' = k := by
  rw [MemoryStore.keys_put, List.mem_append, List.mem_singleton, List.mem_filter,
    decide_eq_true_eq]
  constructor
  · exact fun h => h.imp_left fun hmem => hmem.1
  · intro h
    by_cases hk : k' = k
    · exact Or.inr hk
    · exact Or.inl ⟨h.resolve_right hk, hk⟩

theorem MemoryStore.lookup_put (m : MemoryStore κ π) (now : Nat) (k k' : κ) (payload : π)
    (ttl : Nat) : (m.put now k payload ttl).store.lookup k'
      = if k' = k then some payload else m.store.lookup k' := by
  show (popKey m.store k ++ [(k, payload)]).lookup k' = _
  rw [List.lookup_append, lookup_popKey, List.lookup_cons, List.lookup_nil]
  by_cases hk : k' = k
  · rw [if_pos hk, if_pos hk, hk, beq_self_eq_true]
    rfl
  · rw [if_neg hk, if_neg hk, beq_false_of_ne hk]
    exact Option.or_none

theorem kept_put {now : Nat} {m : MemoryStore κ π} {log : List (SetRecord κ π)}
    (h : Kept now m log) (k : κ) (payload : π) (ttl : Nat) :
    Kept now (m.put now k payload ttl) (⟨k, payload, now + ttl⟩ :: log) := by
  refine ⟨?_, nodup_keys_putItem h.nodupExpiry _ _, fun k' => ?_, ?_, fun k' hk' => ?_,
    fun k' hk' r hr => ?_⟩
  · rw [MemoryStore.keys_put]
    refine List.nodup_append.mpr ⟨h.nodup.filter _, List.nodup_singleton k, fun a ha b hb heq => ?_⟩
    rw [List.mem_singleton.mp hb] at heq
    exact of_decide_eq_true (List.mem_filter.mp ha).2 heq
  · rw [MemoryStore.mem_keys_put]
    show k' ∈ (putItem m.expiry k (now + ttl)).map Prod.fst ↔ _
    rw [mem_keys_putItem, h.keys]
  -- the key that is set goes to the end: all others were set before it
  · rw [MemoryStore.keys_put, List.pairwise_append]
    refine ⟨?_, List.pairwise_singleton _ _, fun a ha b hb => ?_⟩
    · refine (h.order.filter _).imp_of_mem fun {a b} ha _ hab => ?_
      rw [since_cons_of_ne (of_decide_eq_true (List.mem_filter.mp ha).2)]
      exact List.mem_cons_of_mem _ hab
    · rw [since_cons_of_ne (of_decide_eq_true (List.mem_filter.mp ha).2),
        List.mem_singleton.mp hb]
      exact List.mem_cons_self ..
  · rw [MemoryStore.lookup_put]
    show ∃ r, _ ∧ _ ∧ (putItem m.expiry k (now + ttl)).lookup k' = _
    rw [lookup_putItem]
    by_cases hk : k' = k
    · rw [if_pos hk, if_pos hk, hk]
      exact ⟨_, latest_cons_self _ _, rfl, rfl⟩
    · rw [if_neg hk, if_neg hk, latest_cons_of_ne hk]
      exact h.found k' ((MemoryStore.mem_keys_put.mp hk').resolve_right hk)
  -- every key that was missing stays missing, with one more key set since
  · have hne : k' ≠ k := fun hk => hk' (MemoryStore.mem_keys_put.mpr (Or.inr hk))
    have hmem : k' ∉ m.store.map Prod.fst :=
      fun hmem => hk' (MemoryStore.mem_keys_put.mpr (Or.inl hmem))
    rw [latest_cons_of_ne hne] at hr
    refine (h.gone k' hmem r hr).imp_right fun hfull => ?_
    exact hfull.trans (Finset.card_le_card (since_subset_cons hne log))

/-- The first of too many keys is driven out by the keys after it. -/
theorem kept_popOldest {now : Nat} {m : MemoryStore κ π} {log : List (SetRecord κ π)}
    (h : Kept now m log) (hfull : maxSize < m.store.length) : Kept now m.popOldest log := by
  unfold MemoryStore.popOldest
  split
  next oldest rest hstore =>
    obtain ⟨hnodup, hexpiry, hkeys, horder, hfound, hgone⟩ := h
    rw [hstore] at hnodup hkeys horder hfound hgone hfull
    rw [List.map_cons] at hnodup hkeys horder hfound hgone
    obtain ⟨hfirst, hrest⟩ := List.nodup_cons.mp hnodup
    obtain ⟨hafter, horder⟩ := List.pairwise_cons.mp horder
    refine ⟨hrest, nodup_keys_popKey hexpiry _, fun k => ?_, horder, fun k hk => ?_, fun k hk r hr => ?_⟩
    · rw [mem_keys_popKey, hkeys, List.mem_cons]
      constructor
      · exact fun hk => hk.1.resolve_left hk.2
      · exact fun hk => ⟨Or.inr hk, fun heq => hfirst (heq ▸ hk)⟩
    · have hne : k ≠ oldest.1 := fun heq => hfirst (heq ▸ hk)
      obtain ⟨r, hr, hpay, hexp⟩ := hfound k (List.mem_cons_of_mem _ hk)
      rw [List.lookup_cons, beq_false_of_ne hne] at hpay
      refine ⟨r, hr, hpay, ?_⟩
      show (popKey m.expiry oldest.1).lookup k = _
      rw [lookup_popKey, if_neg hne, hexp]
    · by_cases hk' : k = oldest.1
      · -- the keys that stay were all set after it
        have hlen : (rest.map Prod.fst).toFinset.card = rest.length := by
          rw [List.toFinset_card_of_nodup hrest, List.length_map]
        have hsub : (rest.map Prod.fst).toFinset ⊆ (since k log).toFinset := by
          intro b hb
          rw [hk', List.mem_toFinset]
          exact hafter b (List.mem_toFinset.mp hb)
        have hcard := Finset.card_le_card hsub
        rw [hlen] at hcard
        rw [List.length_cons] at hfull
        exact Or.inr (by omega)
      · refine hgone k ?_ r hr
        rw [List.mem_cons]
        exact fun hmem => hmem.elim hk' hk
  next hstore =>
    rw [hstore] at hfull
    exact absurd hfull (Nat.not_lt_zero _)

theorem kept_set {now : Nat} {m : MemoryStore κ π} {log : List (SetRecord κ π)}
    (h : Kept now m log) (k : κ) (payload : π) (ttl : Nat) :
    Kept now (m.set now k payload ttl) (⟨k, payload, now + ttl⟩ :: log) := by
  rw [MemoryStore.set_eq]
  split
  next hfull => exact kept_popOldest (kept_put h k payload ttl) hfull
  next => exact kept_put h k payload ttl

/-! ## The limit -/

theorem MemoryStore.size_get {m : MemoryStore κ π} (h : m.store.length ≤ maxSize) (now : Nat)
    (k : κ) : (m.get now k).2.store.length ≤ maxSize := by
  rcases m.get_cases now k with ⟨-, hget⟩ | ⟨-, hget⟩
  · rw [hget]
    exact (List.length_filter_le _ _).trans h
  · rw [hget]
    exact h

theorem MemoryStore.size_set {m : MemoryStore κ π} (h : m.store.length ≤ maxSize) (now : Nat)
    (k : κ) (payload : π) (ttl : Nat) : (m.set now k payload ttl).store.length ≤ maxSize := by
  have hput : (m.put now k payload ttl).store.length ≤ maxSize + 1 := by
    show (popKey m.store k ++ [(k, payload)]).length ≤ _
    rw [List.length_append, List.length_singleton]
    exact Nat.succ_le_succ ((List.length_filter_le _ _).trans h)
  rw [MemoryStore.set_eq]
  split
  next hfull =>
    unfold MemoryStore.popOldest
    split
    next oldest rest hstore =>
      rw [hstore, List.length_cons] at hput
      exact Nat.le_of_succ_le_succ hput
    next hstore =>
      rw [hstore]
      exact Nat.zero_le _
  next hfits => exact Nat.le_of_not_lt hfits

/-! ## What a lookup finds -/

/-- A lookup finds the last set of its key or nothing, and nothing only when it
has expired or was driven out. -/
theorem Kept.get {now : Nat} {m : MemoryStore κ π} {log : List (SetRecord κ π)}
    (h : Kept now m log) (k : κ) :
    match latest k log with
    | none => (m.get now k).1 = none
    | some r =>
      ((m.get now k).1 = some r.payload ∨ (m.get now k).1 = none) ∧
        (now ≤ r.expires → (since k log).toFinset.card < maxSize →
          (m.get now k).1 = some r.payload) := by
  -- a stored key has the payload of its last set, a missing one no payload
  by_cases hk : k ∈ m.store.map Prod.fst
  · obtain ⟨r, hr, hpay, hexp⟩ := h.found k hk
    rw [hr]
    dsimp only
    rcases m.get_cases now k with ⟨⟨expires, hexp', hpast⟩, hget⟩ | ⟨-, hget⟩
    · rw [hexp] at hexp'
      cases hexp'
      rw [hget]
      exact ⟨Or.inr rfl, fun hnow => absurd hpast.2 (by omega)⟩
    · rw [hget]
      exact ⟨Or.inl hpay, fun _ _ => hpay⟩
  · have hnone : (m.get now k).1 = none := by
      rcases m.get_cases now k with ⟨-, hget⟩ | ⟨-, hget⟩
      · rw [hget]
      · rw [hget]
        exact lookup_eq_none_of_not_mem hk
    rw [hnone]
    cases hr : latest k log with
    | none => rfl
    | some r =>
      refine ⟨Or.inr rfl, fun hnow hroom => ?_⟩
      rcases h.gone k hk r hr with hexp | hfull
      · exact absurd hexp (by omega)
      · exact absurd hfull (by omega)

/-- What a lookup finds has not expired. -/
theorem Kept.unexpired {now : Nat} {m : MemoryStore κ π} {log : List (SetRecord κ π)}
    (h : Kept now m log) {k : κ} {payload : π} (hget : (m.get now k).1 = some payload) :
    ∃ r, latest k log = some r ∧ r.payload = payload ∧ (r.expires ≠ 0 → now ≤ r.expires) := by
  rcases m.get_cases now k with ⟨-, heq⟩ | ⟨hfresh, heq⟩
  · rw [heq] at hget
    cases hget
  · rw [heq] at hget
    have hk : k ∈ m.store.map Prod.fst := by
      by_contra hk
      rw [lookup_eq_none_of_not_mem hk] at hget
      cases hget
    obtain ⟨r, hr, hpay, hexp⟩ := h.found k hk
    refine ⟨r, hr, Option.some.inj (hpay.symm.trans hget), fun hne => ?_⟩
    by_contra hnow
    exact hfresh ⟨r.expires, hexp, hne, by omega⟩

/-! ## Runs -/

/-- The two dictionaries at a time, and the sets so far. -/
structure MemoryState (κ π : Type*) where
  now : Nat
  memory : MemoryStore κ π
  log : List (SetRecord κ π)

/-- Time passes, or a call is made. -/
inductive MemoryCall (κ π : Type*)
  | pass (d : Nat)
  | get (k : κ)
  | set (k : κ) (payload : π) (ttl : Nat)

def memoryStep (s : MemoryState κ π) : MemoryCall κ π → MemoryState κ π
  | .pass d => { s with now := s.now + d }
  | .get k => { s with memory := (s.memory.get s.now k).2 }
  | .set k payload ttl =>
    { s with
      memory := s.memory.set s.now k payload ttl
      log := ⟨k, payload, s.now + ttl⟩ :: s.log }

/-- The dictionaries are empty when the module is loaded. -/
def MemoryState.start (now : Nat) : MemoryState κ π := ⟨now, MemoryStore.empty, []⟩

def MemoryState.Inv (s : MemoryState κ π) : Prop :=
  Kept s.now s.memory s.log ∧ s.memory.store.length ≤ maxSize

theorem memoryStep_inv (s : MemoryState κ π) (call : MemoryCall κ π) (h : s.Inv) :
    (memoryStep s call).Inv := by
  cases call with
  | pass d => exact ⟨h.1.later (Nat.le_add_right _ _), h.2⟩
  | get k => exact ⟨kept_get h.1 k, MemoryStore.size_get h.2 s.now k⟩
  | set k payload ttl =>
    exact ⟨kept_set h.1 k payload ttl, MemoryStore.size_set h.2 s.now k payload ttl⟩

theorem memory_inv (now : Nat) (calls : List (MemoryCall κ π)) :
    (run memoryStep (MemoryState.start now) calls).Inv :=
  run_preserves MemoryState.Inv memoryStep_inv ⟨kept_empty now, Nat.zero_le _⟩ calls

/-- After any calls the two dictionaries have the same keys, at most the limit
of them, and a lookup finds the last set of its key or nothing: that set, if it
has not expired and fewer other keys than the limit were set since. -/
theorem memory_latest_or_none (now : Nat) (calls : List (MemoryCall κ π)) :
    let s := run memoryStep (MemoryState.start now) calls
    (s.memory.store.map Prod.fst).Nodup ∧
    (s.memory.store.map Prod.fst).Perm (s.memory.expiry.map Prod.fst) ∧
    s.memory.store.length ≤ maxSize ∧
    ∀ k, match latest k s.log with
      | none => (s.memory.get s.now k).1 = none
      | some r =>
        ((s.memory.get s.now k).1 = some r.payload ∨ (s.memory.get s.now k).1 = none) ∧
          (s.now ≤ r.expires → (since k s.log).toFinset.card < maxSize →
            (s.memory.get s.now k).1 = some r.payload) := by
  obtain ⟨hkept, hsize⟩ := memory_inv now calls
  refine ⟨hkept.nodup, ?_, hsize, fun k => hkept.get k⟩
  -- the two orders differ: `expiry` keeps the place of a key that is set again
  rw [List.perm_ext_iff_of_nodup hkept.nodup hkept.nodupExpiry]
  exact fun k => (hkept.keys k).symm

end Eidetic.Cache
