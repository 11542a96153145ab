import Mathlib.Logic.Function.Basic
import Eidetic.Cache.Memory
import Eidetic.Lib.Lease
import Eidetic.Memory.Lock
import Eidetic.Py.JsonText
import Eidetic.Stream.Turn

/-!
# Redis and the memory of the response cache

`get_cached_response` and `set_cached_response`. Each call goes to Redis, and
to the memory of the process if that call fails; nothing is written to both on
purpose, and neither is read against the other. So a lookup finds the last set
that the store it reads has taken (`cached_of_taken`), which need not be the
last one there was (`older_after_failed_set`). The log of the sets is no part
of the code.

Each store has the invariant of its own, over the sets that it has taken: Redis
holds the text of the last set of each key until it expires (`RedisHolds`), the
memory is `Kept`. A call that Redis fails at goes to the memory and leaves Redis
as it was, and the other way round (`setCachedResponse_eq`), so the two parts of
`TwoLevel.Inv` are kept side by side (`cacheStep_inv`).

What a lookup gives is then read off the store that it has come to: from Redis
as the payload that `json.loads` makes of the text (`get_redis`), from the
memory as the payload itself (`get_local`). The texts are those of
`Py.JsonText`, whose round trip says when the two are the same; a float goes
through its printing, which is a parameter (`CacheCodec`).
-/

namespace Eidetic.Cache

open Eidetic.Lib Eidetic.Py Eidetic.Memory

/-- What the two functions have around them. -/
structure CacheCodec where
  hashing : Hashing
  numerals : Numerals
  /-- `USE_REDIS`, with a client to be had. -/
  useRedis : Bool

/-- What an answer is cached under. -/
structure CacheQuery where
  message : Text
  model : Text := []
  historyTail : Text := []
  systemPrompt : Text := []

def CacheCodec.key (c : CacheCodec) (q : CacheQuery) : Text :=
  makeKey c.hashing q.message q.model q.historyTail q.systemPrompt

/-- A set, and the stores that have taken it. -/
structure Written where
  record : SetRecord Text Json
  takenBy : List Mode

structure TwoLevel where
  now : Nat
  redis : Text → Option (Lease Text)
  memory : MemoryStore Text Json
  /-- Newest first. -/
  log : List Written

/-- What is stored for a `response`. -/
def cachePayload (now : Nat) (response : List (Text × Json)) : Json :=
  .obj [("response".toList, (getItem response "response").getD .null),
    ("model".toList, (getItem response "model").getD .null),
    ("timestamp".toList, .num now)]

/-- What Redis does with `SET` and `EX`, and whether the caller sees a
`RedisError`: an expire time of zero is one. -/
def redisSet (redis : Text → Option (Lease Text)) (now : Nat) (key data : Text) (ttl : Nat)
    (answer : Answer) : (Text → Option (Lease Text)) × Bool :=
  if ttl = 0 ∨ answer = .unreached then (redis, true)
  else (Function.update redis key (some ⟨data, now + ttl⟩), answer = .lost)

/-- The stores that take a set. -/
def takers (c : CacheCodec) (ttl : Nat) (answer : Answer) : List Mode :=
  (if c.useRedis ∧ ttl ≠ 0 ∧ answer ≠ .unreached then [.redis] else []) ++
    (if c.useRedis ∧ ttl ≠ 0 ∧ answer = .reply then [] else [.memory])

def setCachedResponse (c : CacheCodec) (s : TwoLevel) (q : CacheQuery)
    (response : List (Text × Json)) (ttl : Nat) (answer : Answer) : TwoLevel :=
  let key := c.key q
  let payload := cachePayload s.now response
  let log := ⟨⟨key, payload, s.now + ttl⟩, takers c ttl answer⟩ :: s.log
  let (redis, failed) :=
    if c.useRedis then redisSet s.redis s.now key (dumps c.numerals payload) ttl answer
    else (s.redis, true)
  if failed then
    { s with redis := redis, memory := s.memory.set s.now key payload ttl, log := log }
  else { s with redis := redis, log := log }

/-- The result and what is left; a text of Redis that is not JSON raises. -/
def getCachedResponse (c : CacheCodec) (s : TwoLevel) (q : CacheQuery) (answer : Answer) :
    Except Exc (Option Json) × TwoLevel :=
  let key := c.key q
  if c.useRedis ∧ answer = .reply then
    match live s.now (s.redis key) with
    | none => (.ok none, s)
    | some data =>
      if data.token = [] then (.ok none, s)
      else
        match loads .python c.numerals data.token with
        | some payload => (.ok (some payload), s)
        | none => (.error .malformed, s)
  else
    let (found, memory) := s.memory.get s.now key
    (.ok found, { s with memory := memory })

/-- The store a lookup reads. -/
def readFrom (c : CacheCodec) (answer : Answer) : Mode :=
  if c.useRedis ∧ answer = .reply then .redis else .memory

/-- The sets a store has taken. -/
def taken (mode : Mode) (log : List Written) : List (SetRecord Text Json) :=
  (log.filter fun w => mode ∈ w.takenBy).map Written.record

/-- Time passes, or a call is made. -/
inductive CacheCall
  | pass (d : Nat)
  | get (q : CacheQuery) (answer : Answer)
  | set (q : CacheQuery) (response : List (Text × Json)) (ttl : Nat) (answer : Answer)

def cacheStep (c : CacheCodec) (s : TwoLevel) : CacheCall → TwoLevel
  | .pass d => { s with now := s.now + d }
  | .get q answer => (getCachedResponse c s q answer).2
  | .set q response ttl answer => setCachedResponse c s q response ttl answer

def TwoLevel.start (now : Nat) : TwoLevel := ⟨now, fun _ => none, MemoryStore.empty, []⟩

/-! ## What each store holds -/

/-- Redis holds the last set of each key it has taken. -/
def RedisHolds (c : CacheCodec) (redis : Text → Option (Lease Text))
    (log : List (SetRecord Text Json)) : Prop :=
  ∀ key, redis key
    = (latest key log).map fun r => ⟨dumps c.numerals r.payload, r.expires⟩

structure TwoLevel.Inv (c : CacheCodec) (s : TwoLevel) : Prop where
  now : 0 < s.now
  redis : RedisHolds c s.redis (taken .redis s.log)
  memory : Kept s.now s.memory (taken .memory s.log)
  /-- No time is zero, the one that never comes. -/
  expires : ∀ r ∈ taken .memory s.log, r.expires ≠ 0

theorem inv_start (c : CacheCodec) {now : Nat} (h : 0 < now) : (TwoLevel.start now).Inv c where
  now := h
  redis _ := rfl
  memory := kept_empty now
  expires _ hr := absurd hr List.not_mem_nil

theorem RedisHolds.set {c : CacheCodec} {redis : Text → Option (Lease Text)}
    {log : List (SetRecord Text Json)} (h : RedisHolds c redis log) (r : SetRecord Text Json) :
    RedisHolds c (Function.update redis r.key (some ⟨dumps c.numerals r.payload, r.expires⟩))
      (r :: log) := by
  intro key
  by_cases hkey : key = r.key
  · rw [hkey, Function.update_self, latest_cons_self]
    rfl
  · rw [Function.update_of_ne hkey, latest_cons_of_ne hkey, h key]

theorem taken_cons (mode : Mode) (w : Written) (log : List Written) :
    taken mode (w :: log) = if mode ∈ w.takenBy then w.record :: taken mode log else taken mode log := by
  unfold taken
  rw [List.filter_cons]
  by_cases h : mode ∈ w.takenBy
  · rw [if_pos (decide_eq_true h), if_pos h, List.map_cons]
  · rw [if_neg (by simpa using h), if_neg h]

/-! ## One call -/

/-- Each store that takes a set has it, and the other is as it was. -/
theorem setCachedResponse_eq (c : CacheCodec) (s : TwoLevel) (q : CacheQuery)
    (response : List (Text × Json)) (ttl : Nat) (answer : Answer) :
    setCachedResponse c s q response ttl answer =
      { now := s.now
        redis :=
          if Mode.redis ∈ takers c ttl answer then
            Function.update s.redis (c.key q)
              (some ⟨dumps c.numerals (cachePayload s.now response), s.now + ttl⟩)
          else s.redis
        memory :=
          if Mode.memory ∈ takers c ttl answer then
            s.memory.set s.now (c.key q) (cachePayload s.now response) ttl
          else s.memory
        log := ⟨⟨c.key q, cachePayload s.now response, s.now + ttl⟩, takers c ttl answer⟩ :: s.log } := by
  unfold setCachedResponse
  by_cases huse : c.useRedis
  · by_cases httl : ttl = 0
    · simp [takers, redisSet, huse, httl]
    · cases answer <;> simp [takers, redisSet, huse, httl]
  · simp [takers, huse]

theorem set_inv {c : CacheCodec} {s : TwoLevel} (h : s.Inv c) (q : CacheQuery)
    (response : List (Text × Json)) (ttl : Nat) (answer : Answer) :
    (setCachedResponse c s q response ttl answer).Inv c := by
  rw [setCachedResponse_eq]
  refine ⟨h.now, ?_, ?_, fun r hr => ?_⟩
  · rw [taken_cons]
    dsimp only
    split
    next => exact h.redis.set ⟨_, _, _⟩
    next => exact h.redis
  · rw [taken_cons]
    dsimp only
    split
    next => exact kept_set h.memory _ _ _
    next => exact h.memory
  · rw [taken_cons] at hr
    split at hr
    next =>
      rcases List.mem_cons.mp hr with rfl | hr
      · exact Nat.ne_of_gt (Nat.add_pos_left h.now ttl)
      · exact h.expires r hr
    next => exact h.expires r hr

/-- A lookup at most removes an expired entry of the memory. -/
theorem get_memory (c : CacheCodec) (s : TwoLevel) (q : CacheQuery) (answer : Answer) :
    (getCachedResponse c s q answer).2 = s ∨
      (getCachedResponse c s q answer).2 = { s with memory := (s.memory.get s.now (c.key q)).2 } := by
  unfold getCachedResponse
  dsimp only
  split
  next =>
    refine Or.inl ?_
    split
    next => rfl
    next =>
      split
      next => rfl
      next =>
        split
        next => rfl
        next => rfl
  next => exact Or.inr rfl

theorem cacheStep_inv (c : CacheCodec) (s : TwoLevel) (call : CacheCall) (h : s.Inv c) :
    (cacheStep c s call).Inv c := by
  cases call with
  | pass d =>
    exact ⟨Nat.add_pos_left h.now d, h.redis, h.memory.later (Nat.le_add_right _ _), h.expires⟩
  | get q answer =>
    show (getCachedResponse c s q answer).2.Inv c
    rcases get_memory c s q answer with heq | heq
    · rw [heq]
      exact h
    · rw [heq]
      exact ⟨h.now, h.redis, kept_get h.memory _, h.expires⟩
  | set q response ttl answer => exact set_inv h q response ttl answer

/-! ## What a lookup finds -/

theorem dumps_ne_nil (n : Numerals) (v : Json) : dumps n v ≠ [] := by
  obtain ⟨x, t, heq, -⟩ := dumps_head n v
  rw [heq]
  exact List.cons_ne_nil x t

theorem latest_mem {κ π : Type*} [DecidableEq κ] {k : κ} {log : List (SetRecord κ π)}
    {r : SetRecord κ π} (h : latest k log = some r) : r ∈ log := List.mem_of_find?_eq_some h

/-- What Redis gives is read back from the text of the last set it has taken. -/
theorem get_redis {c : CacheCodec} {s : TwoLevel} (h : s.Inv c) (q : CacheQuery) {answer : Answer}
    (hread : c.useRedis ∧ answer = .reply) :
    (getCachedResponse c s q answer).1
      = .ok (((latest (c.key q) (taken .redis s.log)).filter fun r => s.now < r.expires).map
          fun r => reread c.numerals r.payload) := by
  unfold getCachedResponse
  dsimp only
  rw [if_pos hread, h.redis (c.key q)]
  cases hr : latest (c.key q) (taken .redis s.log) with
  | none => rfl
  | some r =>
    rw [Option.map_some]
    by_cases hnow : s.now < r.expires
    · have hlive : live s.now (some (Lease.mk (dumps c.numerals r.payload) r.expires))
          = some ⟨dumps c.numerals r.payload, r.expires⟩ := live_eq_some.mpr ⟨rfl, hnow⟩
      rw [hlive]
      dsimp only
      rw [if_neg (dumps_ne_nil _ _), loads_dumps, Option.filter_some, if_pos (decide_eq_true hnow)]
      rfl
    · have hlive : live s.now (some (Lease.mk (dumps c.numerals r.payload) r.expires)) = none := by
        refine live_eq_none fun l hl => ?_
        cases hl
        exact Nat.le_of_not_lt hnow
      rw [hlive, Option.filter_some, if_neg (by simpa using hnow)]
      rfl

/-- What the memory gives is the last set it has taken. -/
theorem get_local {c : CacheCodec} {s : TwoLevel} (h : s.Inv c) (q : CacheQuery) {answer : Answer}
    (hread : ¬ (c.useRedis ∧ answer = .reply)) :
    (getCachedResponse c s q answer).1 = .ok none ∨
      ∃ r, latest (c.key q) (taken .memory s.log) = some r ∧ s.now ≤ r.expires ∧
        (getCachedResponse c s q answer).1 = .ok (some r.payload) := by
  have heq : (getCachedResponse c s q answer).1 = .ok (s.memory.get s.now (c.key q)).1 := by
    unfold getCachedResponse
    dsimp only
    rw [if_neg hread]
  rw [heq]
  cases hget : (s.memory.get s.now (c.key q)).1 with
  | none => exact Or.inl rfl
  | some payload =>
    obtain ⟨r, hr, rfl, hnow⟩ := h.memory.unexpired hget
    exact Or.inr ⟨r, hr, hnow (h.expires r (latest_mem hr)), rfl⟩

/-- A lookup finds nothing or the last set of its key that the store it reads
has taken, before its time has passed; Redis gives it as its text is read. -/
theorem cached_of_taken (c : CacheCodec) {now : Nat} (hnow : 0 < now) (calls : List CacheCall)
    (q : CacheQuery) (answer : Answer) :
    let s := run (cacheStep c) (TwoLevel.start now) calls
    (getCachedResponse c s q answer).1 = .ok none ∨
      ∃ r, latest (c.key q) (taken (readFrom c answer) s.log) = some r ∧ s.now ≤ r.expires ∧
        ((getCachedResponse c s q answer).1 = .ok (some r.payload) ∨
          (getCachedResponse c s q answer).1 = .ok (some (reread c.numerals r.payload))) := by
  intro s
  have h : s.Inv c := run_preserves (TwoLevel.Inv c) (cacheStep_inv c) (inv_start c hnow) calls
  unfold readFrom
  by_cases hread : c.useRedis ∧ answer = .reply
  · rw [if_pos hread, get_redis h q hread]
    cases hr : latest (c.key q) (taken .redis s.log) with
    | none => exact Or.inl rfl
    | some r =>
      by_cases hlt : s.now < r.expires
      · rw [Option.filter_some, if_pos (decide_eq_true hlt)]
        exact Or.inr ⟨r, rfl, Nat.le_of_lt hlt, Or.inr rfl⟩
      · rw [Option.filter_some, if_neg (by simpa using hlt)]
        exact Or.inl rfl
  · rw [if_neg hread]
    refine (get_local h q hread).imp_right ?_
    rintro ⟨r, hr, hle, heq⟩
    exact ⟨r, hr, hle, Or.inl heq⟩

/-- A client of Redis and one question. -/
def smallCodec : CacheCodec := ⟨⟨id, id⟩, Stream.digitNumerals, true⟩

def smallQuery : CacheQuery := { message := "Hi".toList }

theorem cached_of_taken_small :
    let s := run (cacheStep smallCodec) (TwoLevel.start 1)
      [.set smallQuery [("response".toList, .str "old".toList)] 3600 .reply, .pass 60]
    (getCachedResponse smallCodec s smallQuery .reply).1 = .ok none ∨
      ∃ r, latest (smallCodec.key smallQuery) (taken (readFrom smallCodec .reply) s.log) = some r ∧
        s.now ≤ r.expires ∧
        ((getCachedResponse smallCodec s smallQuery .reply).1 = .ok (some r.payload) ∨
          (getCachedResponse smallCodec s smallQuery .reply).1
            = .ok (some (reread smallCodec.numerals r.payload))) :=
  cached_of_taken smallCodec Nat.one_pos _ smallQuery .reply

/-- It need not be the last set of all: after one that Redis failed at, Redis
still gives the one before. -/
theorem older_after_failed_set :
    ¬ ∀ (c : CacheCodec) (now : Nat) (calls : List CacheCall) (q : CacheQuery) (answer : Answer),
      0 < now →
        let s := run (cacheStep c) (TwoLevel.start now) calls
        (getCachedResponse c s q answer).1 = .ok none ∨
          ∃ r, latest (c.key q) (s.log.map Written.record) = some r ∧ s.now ≤ r.expires ∧
            ((getCachedResponse c s q answer).1 = .ok (some r.payload) ∨
              (getCachedResponse c s q answer).1 = .ok (some (reread c.numerals r.payload))) := by
  intro h
  let c : CacheCodec := smallCodec
  let q : CacheQuery := smallQuery
  let first : List (Text × Json) := [("response".toList, .str "old".toList)]
  let second : List (Text × Json) := [("response".toList, .str "new".toList)]
  -- Redis takes the first set and fails at the second
  let calls : List CacheCall := [.set q first 3600 .reply, .set q second 3600 .unreached]
  let s := run (cacheStep c) (TwoLevel.start 1) calls
  have hs : s.Inv c := run_preserves (TwoLevel.Inv c) (cacheStep_inv c) (inv_start c Nat.one_pos) calls
  have hlog : s.log =
      [⟨⟨c.key q, cachePayload 1 second, 3601⟩, [.memory]⟩,
        ⟨⟨c.key q, cachePayload 1 first, 3601⟩, [.redis]⟩] := rfl
  have hread : (getCachedResponse c s q .reply).1
      = .ok (some (reread c.numerals (cachePayload 1 first))) := by
    rw [get_redis hs q ⟨rfl, rfl⟩, hlog, taken_cons, if_neg (by decide), taken_cons,
      if_pos (by decide), latest_cons_self ⟨c.key q, cachePayload 1 first, 3601⟩]
    rfl
  rcases h c 1 calls q .reply Nat.one_pos with hnone | ⟨r, hr, -, hsame⟩
  · have heq := hread.symm.trans hnone
    cases heq
  · have hr' : latest (c.key q) (s.log.map Written.record) = some r := hr
    rw [hlog, List.map_cons, latest_cons_self ⟨c.key q, cachePayload 1 second, 3601⟩] at hr'
    cases hr'
    rcases hsame with heq | heq
    · have heq := hread.symm.trans heq
      simp [cachePayload, reread, rereadMembers, first, second, getItem, dictOf, setItem] at heq
    · have heq := hread.symm.trans heq
      simp [cachePayload, reread, rereadMembers, first, second, getItem, dictOf, setItem] at heq

end Eidetic.Cache
