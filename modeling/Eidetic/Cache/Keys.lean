import Eidetic.Py.Text

/-!
# Keys and entries of the response cache

`cache/keys.py` and `cache/memory.py`. Redis is the memory store without its
limit: `SET` with `EX` and `GET` give back an entry until it expires.

A `Store` is `_store` and `_expiry` in one list, in the order of the store, with
an optional limit (`Mode`). What the users of a store need to know of it is what
a later lookup finds: a lookup or a removal of expired entries is not seen
(`Store.find_purge`), and a set is seen under its key alone as long as there is
room (`Store.entry_set`, `Store.find_set_self`, `Store.find_set_other`). Where a
store is full a set drives another entry out, which `Store.Roomy` excludes and
`Cache.Memory` is about.

Hashing is a parameter: `str.lower`, which the normalisation uses, and the
digest of the key. Whoever needs that digests do not collide assumes it by name.
-/

namespace Eidetic.Cache

open Eidetic.Py

def cacheVersion : Text := "v3".toList

/-- `str.lower` and the digest of the key, which are not ours. -/
structure Hashing where
  lower : Text → Text
  sha256 : Text → Text

def normalize (h : Hashing) (text : Text) : Text := joinWords (words (strip (h.lower text)))

/-- What `make_key` hashes. -/
def rawKey (h : Hashing) (message model historyTail systemPrompt : Text) : Text :=
  cacheVersion ++ ":".toList ++ normalize h message
    ++ "|m:".toList ++ model
    ++ "|h:".toList ++ normalize h historyTail
    ++ "|s:".toList ++ normalize h systemPrompt

def makeKey (h : Hashing) (message model historyTail systemPrompt : Text) : Text :=
  h.sha256 (rawKey h message model historyTail systemPrompt)

/-- A cached answer. -/
structure Cached where
  response : Text
  model : Text
deriving DecidableEq, Repr

/-- Where the entries live. -/
inductive Mode
  | redis
  | memory
deriving DecidableEq, Repr

/-- `_MAX_SIZE`, for the memory store. -/
def Mode.maxSize : Mode → Option Nat
  | .redis => none
  | .memory => some 1000

/-- `_store` and `_expiry`, in the order of the store. -/
structure Entry where
  key : Text
  payload : Cached
  expires : Nat

abbrev Store := List Entry

/-- The entry under a key. -/
def Store.entry (store : Store) (key : Text) : Option Entry := store.find? fun e => e.key = key

/-- What `get` returns: an expired entry is none. -/
def Store.find (store : Store) (now : Nat) (key : Text) : Option Cached :=
  match store.entry key with
  | some e => if now > e.expires then none else some e.payload
  | none => none

/-- What `get` leaves: an expired entry is removed. -/
def Store.purge (store : Store) (now : Nat) (key : Text) : Store :=
  match store.entry key with
  | some e => if now > e.expires then store.filter fun e => e.key ≠ key else store
  | none => store

def Store.get (store : Store) (now : Nat) (key : Text) : Option Cached × Store :=
  (store.find now key, store.purge now key)

/-- `set`: the entry moves to the end, and the first one goes if they are too many. -/
def Store.set (store : Store) (mode : Mode) (now : Nat) (key : Text) (payload : Cached)
    (ttl : Nat) : Store :=
  -- `move_to_end`: an entry that was there keeps no place
  let store := (store.filter fun e => e.key ≠ key) ++ [⟨key, payload, now + ttl⟩]
  match mode.maxSize with
  | some size => if store.length > size then store.drop 1 else store
  | none => store

/-- There is room for one more entry. -/
def Store.Roomy (store : Store) (mode : Mode) : Prop :=
  ∀ size, mode.maxSize = some size → store.length < size

/-! ## What a lookup sees afterwards -/

theorem Store.entry_filter_self (store : Store) (key : Text) :
    Store.entry (store.filter fun e => e.key ≠ key) key = none := by
  unfold Store.entry
  rw [List.find?_eq_none]
  intro e he
  simpa using (List.mem_filter.mp he).2

theorem Store.entry_filter_other (store : Store) {key key' : Text} (h : key' ≠ key) :
    Store.entry (store.filter fun e => e.key ≠ key) key' = store.entry key' := by
  unfold Store.entry
  rw [List.find?_filter]
  congr 1
  funext e
  by_cases he : e.key = key'
  · simp [he, h]
  · simp [he]

/-- Time does not run backwards, so removing an expired entry is not seen. -/
theorem Store.find_purge (store : Store) {now later : Nat} (hlater : now ≤ later)
    (key key' : Text) : (store.purge now key).find later key' = store.find later key' := by
  unfold Store.purge
  split
  next e he =>
    split
    next hexpired =>
      by_cases hkey : key' = key
      · -- the entry that was removed has expired for the later lookup too
        unfold Store.find
        rw [hkey, Store.entry_filter_self, he]
        dsimp only
        rw [if_pos (by omega)]
      · unfold Store.find
        rw [Store.entry_filter_other store hkey]
    next => rfl
  next => rfl

/-- With room, setting an entry is seen under its key only. -/
theorem Store.entry_set {store : Store} {mode : Mode} (hroom : store.Roomy mode)
    (now ttl : Nat) (key key' : Text) (payload : Cached) :
    (store.set mode now key payload ttl).entry key'
      = if key' = key then some ⟨key, payload, now + ttl⟩ else store.entry key' := by
  have hfits : ∀ size, mode.maxSize = some size →
      ¬ (store.filter (fun e => e.key ≠ key) ++ [Entry.mk key payload (now + ttl)]).length > size := by
    intro size hsize
    have hlt := hroom size hsize
    have hle := List.length_filter_le (fun e : Entry => decide (e.key ≠ key)) store
    rw [List.length_append, List.length_singleton]
    omega
  have hset : store.set mode now key payload ttl
      = (store.filter fun e => e.key ≠ key) ++ [⟨key, payload, now + ttl⟩] := by
    unfold Store.set
    dsimp only
    split
    next size hsize => rw [if_neg (hfits size hsize)]
    next => rfl
  rw [hset]
  by_cases hkey : key' = key
  · have hnone := Store.entry_filter_self store key
    unfold Store.entry at hnone ⊢
    rw [if_pos hkey, hkey, List.find?_append, hnone]
    simp
  · have hother := Store.entry_filter_other store hkey
    unfold Store.entry at hother ⊢
    rw [if_neg hkey, List.find?_append, hother]
    have hlast : List.find? (fun e : Entry => decide (e.key = key'))
        [⟨key, payload, now + ttl⟩] = none := by
      simp [Ne.symm hkey]
    rw [hlast, Option.or_none]

theorem Store.find_set_other {store : Store} {mode : Mode} (hroom : store.Roomy mode)
    (now ttl later : Nat) {key key' : Text} (h : key' ≠ key) (payload : Cached) :
    (store.set mode now key payload ttl).find later key' = store.find later key' := by
  unfold Store.find
  rw [Store.entry_set hroom, if_neg h]

theorem Store.find_set_self {store : Store} {mode : Mode} (hroom : store.Roomy mode)
    (now ttl later : Nat) (key : Text) (payload : Cached) :
    (store.set mode now key payload ttl).find later key
      = if later > now + ttl then none else some payload := by
  unfold Store.find
  rw [Store.entry_set hroom, if_pos rfl]

theorem Store.purge_roomy {store : Store} {mode : Mode} (h : store.Roomy mode) (now : Nat)
    (key : Text) : (store.purge now key).Roomy mode := by
  intro size hsize
  have hlt := h size hsize
  unfold Store.purge
  split
  next =>
    split
    next => exact Nat.lt_of_le_of_lt (List.length_filter_le _ _) hlt
    next => exact hlt
  next => exact hlt

end Eidetic.Cache
