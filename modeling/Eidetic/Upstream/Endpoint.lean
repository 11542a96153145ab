import Eidetic.Memory.Lock

/-!
# Which endpoint a call goes to

`pick_chat_url` and `mark_primary_unhealthy` of any number of requests in any
number of processes, interleaved at their reads, probes and writes. The verdict
on the primary is in Redis and, when a command to Redis fails, in the process.
A demotion holds as long as the stores that have taken it are not overwritten
by a probe that began before it, and the picks that come after it read such a
store (`holds_of_steady`). Both can fail: a late verdict undoes a demotion
(`undone_of_stale`), and a store that has not taken it knows nothing of it
(`undone_of_unread`).

A pick reads a store, probes if there is no verdict, and writes what it has
found, each a step; a demotion is one write, to Redis or, if that fails, to its
own process. The state remembers the demotions with the stores that took them,
and of each pick which demotions it started after. The invariant is `Held`: a
store holds each demotion in force that it has taken, and a pick that knows of
one in force has not got past its read. A step keeps it if it is steady: what it
reads has taken the demotions it knows of, and what it writes is not a healthy
verdict over one of them. There is one lemma for each kind of step.

The converses are runs of two or three steps from any state that is not so: a
pick that would read no unhealthy verdict probes and returns the primary, and so
does one after a late write.
-/

namespace Eidetic.Upstream

open Eidetic.Lib Eidetic.Py
open Eidetic.Memory (Answer)

/-- What `config` says of the endpoints. -/
structure EndpointConfig where
  /-- `LLM_FAILOVER_ENABLED`. -/
  failover : Bool
  primaryUrl : Text
  nimUrl : Text
  /-- `LLM_HEALTH_TTL`, in seconds. -/
  healthTtl : Nat := 15
  useRedis : Bool := true

/-- `max(1, config.LLM_HEALTH_TTL)`, in milliseconds. -/
def EndpointConfig.ttl (cfg : EndpointConfig) : Nat := 1000 * max 1 cfg.healthTtl

/-- The failover is on and has a primary. -/
def EndpointConfig.configured (cfg : EndpointConfig) : Bool :=
  cfg.failover && !cfg.primaryUrl.isEmpty

/-- The verdict in Redis and the one in each process, with the clock. -/
structure HealthCache where
  now : Nat := 0
  redis : Option (Lease Bool) := none
  locals : Nat → Option (Lease Bool) := fun _ => none

/-- `_get_cached`: Redis is authoritative when it answers. -/
def getCached (cfg : EndpointConfig) (s : HealthCache) (process : Nat) (reached : Bool) :
    Option Bool :=
  if cfg.useRedis && reached then (live s.now s.redis).map Lease.token
  else (live s.now (s.locals process)).map Lease.token

def HealthCache.setRedis (s : HealthCache) (cfg : EndpointConfig) (ok : Bool) : HealthCache :=
  { s with redis := some ⟨ok, s.now + cfg.ttl⟩ }

def HealthCache.setLocal (s : HealthCache) (cfg : EndpointConfig) (process : Nat) (ok : Bool) :
    HealthCache :=
  { s with locals := Function.update s.locals process (some ⟨ok, s.now + cfg.ttl⟩) }

/-- A write changes the verdict in Redis, that in the process, or, when its
answer is lost, both. -/
def writesRedis (cfg : EndpointConfig) (answer : Answer) : Bool :=
  cfg.useRedis && answer != .unreached

def writesLocal (cfg : EndpointConfig) (answer : Answer) : Bool :=
  !cfg.useRedis || answer != .reply

/-- `_set_cached`. -/
def setCached (cfg : EndpointConfig) (s : HealthCache) (process : Nat) (ok : Bool)
    (answer : Answer) : HealthCache :=
  let s := if writesRedis cfg answer then s.setRedis cfg ok else s
  if writesLocal cfg answer then s.setLocal cfg process ok else s

/-- The URL for a verdict. -/
def urlFor (cfg : EndpointConfig) (healthy : Bool) : Text :=
  if healthy then cfg.primaryUrl else cfg.nimUrl

/-- `is_primary`. -/
def isPrimary (cfg : EndpointConfig) (url : Text) : Bool :=
  !cfg.primaryUrl.isEmpty && url == cfg.primaryUrl

/-- What a pick meets: whether Redis answers the read, what the probe finds, and
how the write of its verdict ends. -/
structure PickInput where
  reached : Bool
  probe : Bool
  answer : Answer

/-- `pick_chat_url`, with no other request between its steps. -/
def pickChatUrl (cfg : EndpointConfig) (s : HealthCache) (process : Nat) (i : PickInput) :
    Text × HealthCache :=
  if cfg.configured then
    match getCached cfg s process i.reached with
    | some healthy => (urlFor cfg healthy, s)
    | none => (urlFor cfg i.probe, setCached cfg s process i.probe i.answer)
  else (cfg.nimUrl, s)

/-- `mark_primary_unhealthy`. -/
def markPrimaryUnhealthy (cfg : EndpointConfig) (s : HealthCache) (process : Nat)
    (answer : Answer) : HealthCache :=
  if cfg.configured then setCached cfg s process false answer else s

/-! ## Requests side by side -/

/-- Where a `pick_chat_url` is. -/
inductive PickPhase
  | idle
  | reading
  | probing
  | writing (healthy : Bool)
deriving DecidableEq

/-- A demotion that has completed: when, and which stores have taken it. -/
structure Demotion where
  time : Nat
  redis : Bool
  process : Option Nat
deriving DecidableEq

/-- A pick: its process, and the demotions that had completed when it started. -/
structure Pick where
  process : Nat := 0
  phase : PickPhase := .idle
  known : List Demotion := []

/-- A pick that has returned: the demotions it started after, when it returned,
and whether it chose the primary. -/
structure PickReport where
  known : List Demotion
  time : Nat
  primary : Bool

/-- The verdicts, the picks under way and those that have returned, and the
demotions so far. -/
structure Health extends HealthCache where
  picks : Nat → Pick := fun _ => {}
  demotions : List Demotion := []
  reports : List PickReport := []

/-- What can happen next. -/
inductive HealthEvent
  | pass (time : Nat)
  | pick (request process : Nat)
  | read (request : Nat) (reached : Bool)
  | probe (request : Nat) (healthy : Bool)
  | write (request : Nat) (answer : Answer)
  | mark (process : Nat) (answer : Answer)

def Health.setPick (s : Health) (request : Nat) (p : Pick) : Health :=
  { s with picks := Function.update s.picks request p }

/-- The pick of the request returns. -/
def Health.returns (s : Health) (request : Nat) (primary : Bool) : Health :=
  { s with
    picks := Function.update s.picks request {}
    reports := s.reports ++ [⟨(s.picks request).known, s.now, primary⟩] }

/-- The demotion that a write of `mark_primary_unhealthy` is. -/
def demotionOf (cfg : EndpointConfig) (now process : Nat) (answer : Answer) : Demotion :=
  ⟨now, writesRedis cfg answer, if writesLocal cfg answer then some process else none⟩

def Health.step (cfg : EndpointConfig) (s : Health) : HealthEvent → Health
  | .pass time => { s with now := s.now + time }
  | .pick request process =>
    match (s.picks request).phase with
    | .idle =>
      if cfg.configured then s.setPick request ⟨process, .reading, s.demotions⟩
      else { s with reports := s.reports ++ [⟨s.demotions, s.now, false⟩] }
    | _ => s
  | .read request reached =>
    match (s.picks request).phase with
    | .reading =>
      match getCached cfg s.toHealthCache (s.picks request).process reached with
      | some healthy => s.returns request healthy
      | none => s.setPick request { s.picks request with phase := .probing }
    | _ => s
  | .probe request healthy =>
    match (s.picks request).phase with
    | .probing => s.setPick request { s.picks request with phase := .writing healthy }
    | _ => s
  | .write request answer =>
    match (s.picks request).phase with
    | .writing healthy =>
      { s with
        toHealthCache :=
          setCached cfg s.toHealthCache (s.picks request).process healthy answer }.returns request
        healthy
    | _ => s
  | .mark process answer =>
    if cfg.configured then
      { s with
        toHealthCache := markPrimaryUnhealthy cfg s.toHealthCache process answer
        demotions := s.demotions ++ [demotionOf cfg s.now process answer] }
    else s

/-- The demotion is less than `LLM_HEALTH_TTL` ago. -/
def Demotion.inForce (cfg : EndpointConfig) (d : Demotion) (now : Nat) : Prop :=
  now < d.time + cfg.ttl

/-- No pick that has started after a demotion has returned the primary within
`LLM_HEALTH_TTL` of it. -/
def DemotionHolds (cfg : EndpointConfig) (s : Health) : Prop :=
  ∀ r ∈ s.reports, r.primary = true → ∀ d ∈ r.known, d.time + 1000 * cfg.healthTtl ≤ r.time

/-- The store that a pick of a process reads has taken the demotion. -/
def Demotion.tookRead (cfg : EndpointConfig) (d : Demotion) (process : Nat) (reached : Bool) : Prop :=
  if cfg.useRedis && reached then d.redis = true else d.process = some process

/-- A store that a write changes has taken the demotion. -/
def Demotion.tookWrite (cfg : EndpointConfig) (d : Demotion) (process : Nat) (answer : Answer) :
    Prop :=
  (writesRedis cfg answer = true ∧ d.redis = true) ∨
    (writesLocal cfg answer = true ∧ d.process = some process)

/-- A pick that knows of a demotion in force reads a store that has taken one,
and no healthy verdict is written to a store that has taken one in force. -/
def Steady (cfg : EndpointConfig) (s : Health) : HealthEvent → Prop
  | .read request reached =>
    (s.picks request).phase = .reading →
      (∃ d ∈ (s.picks request).known, d.inForce cfg s.now) →
        ∃ d ∈ s.demotions, d.inForce cfg s.now ∧ d.tookRead cfg (s.picks request).process reached
  | .write request answer =>
    (s.picks request).phase = .writing true →
      ∀ d ∈ s.demotions, d.inForce cfg s.now → ¬ d.tookWrite cfg (s.picks request).process answer
  | _ => True

variable {cfg : EndpointConfig}

@[simp] theorem setCached_now (s : HealthCache) (process : Nat) (ok : Bool) (answer : Answer) :
    (setCached cfg s process ok answer).now = s.now := by
  unfold setCached
  dsimp only
  split <;> split <;> rfl

theorem setCached_redis (s : HealthCache) (process : Nat) (ok : Bool) (answer : Answer) :
    (setCached cfg s process ok answer).redis =
      if writesRedis cfg answer then some ⟨ok, s.now + cfg.ttl⟩ else s.redis := by
  unfold setCached
  dsimp only
  split <;> split <;> rfl

theorem setCached_locals (s : HealthCache) (process : Nat) (ok : Bool) (answer : Answer) (k : Nat) :
    (setCached cfg s process ok answer).locals k =
      if writesLocal cfg answer = true ∧ k = process then some ⟨ok, s.now + cfg.ttl⟩
      else s.locals k := by
  have hlocal : ∀ s' : HealthCache, s'.now = s.now → s'.locals = s.locals →
      (s'.setLocal cfg process ok).locals k =
        if k = process then some ⟨ok, s.now + cfg.ttl⟩ else s.locals k := by
    intro s' hnow hlocals
    unfold HealthCache.setLocal
    dsimp only
    rw [Function.update_apply, hnow, hlocals]
  unfold setCached
  dsimp only
  cases writesLocal cfg answer with
  | true =>
    rw [if_pos rfl, hlocal]
    · simp only [true_and]
    · split <;> rfl
    · split <;> rfl
  | false =>
    simp only [Bool.false_eq_true, false_and, if_false]
    split <;> rfl

/-! ## Demotions in force -/

/-- The store has an unhealthy verdict for as long as the demotion is in force. -/
def Holding (cfg : EndpointConfig) (d : Demotion) (store : Option (Lease Bool)) : Prop :=
  ∃ l, store = some l ∧ l.token = false ∧ d.time + cfg.ttl ≤ l.expires

/-- What a pick reads in a store that holds a demotion in force. -/
theorem Holding.live {d : Demotion} {store : Option (Lease Bool)} (h : Holding cfg d store)
    {now : Nat} (hnow : d.inForce cfg now) : (live now store).map Lease.token = some false := by
  obtain ⟨l, hstore, htoken, hexpires⟩ := h
  rw [live_eq_some.mpr ⟨hstore, Nat.lt_of_lt_of_le hnow hexpires⟩]
  exact congrArg some htoken

/-- The stores hold the demotions in force that they have taken, and a pick that
knows of one has not got past its read. -/
structure Held (cfg : EndpointConfig) (s : Health) : Prop where
  past : ∀ d ∈ s.demotions, d.time ≤ s.now
  redis : ∀ d ∈ s.demotions, d.inForce cfg s.now → d.redis = true → Holding cfg d s.redis
  locals : ∀ d ∈ s.demotions, d.inForce cfg s.now → ∀ process, d.process = some process →
    Holding cfg d (s.locals process)
  known : ∀ i, ∀ d ∈ (s.picks i).known, d ∈ s.demotions
  beyond : ∀ i, (s.picks i).phase ≠ .idle → (s.picks i).phase ≠ .reading →
    ∀ d ∈ (s.picks i).known, ¬ d.inForce cfg s.now
  holds : ∀ r ∈ s.reports, r.primary = true → ∀ d ∈ r.known, d.time + cfg.ttl ≤ r.time

theorem healthTtl_le (cfg : EndpointConfig) : 1000 * cfg.healthTtl ≤ cfg.ttl :=
  Nat.mul_le_mul_left _ (Nat.le_max_right ..)

theorem Held.demotionHolds {s : Health} (h : Held cfg s) : DemotionHolds cfg s := by
  intro r hr hprimary d hd
  exact Nat.le_trans (Nat.add_le_add_left (healthTtl_le cfg) _) (h.holds r hr hprimary d hd)

/-- A pick goes to a phase that it may have with the demotions it knows. -/
theorem Held.setPick {s : Health} (h : Held cfg s) (request : Nat) {p : Pick}
    (hknown : ∀ d ∈ p.known, d ∈ s.demotions)
    (hbeyond : p.phase ≠ .idle → p.phase ≠ .reading → ∀ d ∈ p.known, ¬ d.inForce cfg s.now) :
    Held cfg (s.setPick request p) := by
  refine ⟨h.past, h.redis, h.locals, ?_, ?_, h.holds⟩
  · intro i
    show ∀ d ∈ (Function.update s.picks request p i).known, d ∈ s.demotions
    by_cases hi : i = request
    · subst hi
      rw [Function.update_self]
      exact hknown
    · rw [Function.update_of_ne hi]
      exact h.known i
  · intro i
    show (Function.update s.picks request p i).phase ≠ .idle →
      (Function.update s.picks request p i).phase ≠ .reading →
        ∀ d ∈ (Function.update s.picks request p i).known, ¬ d.inForce cfg s.now
    by_cases hi : i = request
    · subst hi
      rw [Function.update_self]
      exact hbeyond
    · rw [Function.update_of_ne hi]
      exact h.beyond i

/-- A pick returns the primary only if no demotion it knows of is in force. -/
theorem Held.returns {s : Health} (h : Held cfg s) (request : Nat) {primary : Bool}
    (hprimary : primary = true → ∀ d ∈ (s.picks request).known, ¬ d.inForce cfg s.now) :
    Held cfg (s.returns request primary) := by
  have hidle : Held cfg (s.setPick request {}) :=
    h.setPick request (fun d hd => absurd hd List.not_mem_nil) fun hne => absurd rfl hne
  refine ⟨h.past, h.redis, h.locals, hidle.known, hidle.beyond, ?_⟩
  intro r hr
  rcases List.mem_append.mp hr with hr | hr
  · exact h.holds r hr
  · rw [List.mem_singleton.mp hr]
    intro htrue d hd
    exact Nat.le_of_not_lt (hprimary htrue d hd)

/-- A write keeps the demotions in force when its verdict is unhealthy or it
goes to no store that has taken one. -/
theorem Held.setCached {s : Health} (h : Held cfg s) (process : Nat) (ok : Bool) (answer : Answer)
    (hok : ok = true → ∀ d ∈ s.demotions, d.inForce cfg s.now → ¬ d.tookWrite cfg process answer) :
    Held cfg
      { s with toHealthCache := setCached cfg s.toHealthCache process ok answer } := by
  have hnow : (Upstream.setCached cfg s.toHealthCache process ok answer).now = s.now :=
    setCached_now ..
  refine ⟨?_, ?_, ?_, h.known, ?_, h.holds⟩
  · intro d hd
    show d.time ≤ (Upstream.setCached cfg s.toHealthCache process ok answer).now
    rw [hnow]
    exact h.past d hd
  · intro d hd hforce hredis
    have hearlier : d.inForce cfg s.now := hnow ▸ hforce
    show Holding cfg d (Upstream.setCached cfg s.toHealthCache process ok answer).redis
    rw [setCached_redis]
    split
    next hwrites =>
      refine ⟨_, rfl, ?_, Nat.add_le_add_right (h.past d hd) _⟩
      cases hverdict : ok with
      | true => exact absurd (Or.inl ⟨hwrites, hredis⟩) (hok hverdict d hd hearlier)
      | false => rfl
    next => exact h.redis d hd hearlier hredis
  · intro d hd hforce k hk
    have hearlier : d.inForce cfg s.now := hnow ▸ hforce
    show Holding cfg d ((Upstream.setCached cfg s.toHealthCache process ok answer).locals k)
    rw [setCached_locals]
    split
    next hwrites =>
      obtain ⟨hlocal, rfl⟩ := hwrites
      refine ⟨_, rfl, ?_, Nat.add_le_add_right (h.past d hd) _⟩
      cases hverdict : ok with
      | true => exact absurd (Or.inr ⟨hlocal, hk⟩) (hok hverdict d hd hearlier)
      | false => rfl
    next => exact h.locals d hd hearlier k hk
  · intro i hidle hreading d hd
    show ¬ d.inForce cfg (Upstream.setCached cfg s.toHealthCache process ok answer).now
    rw [hnow]
    exact h.beyond i hidle hreading d hd

/-- Time only ends demotions. -/
theorem Held.pass {s : Health} (h : Held cfg s) (time : Nat) : Held cfg (s.step cfg (.pass time)) := by
  -- what is in force later was in force before
  have hforce : ∀ {d : Demotion}, d.inForce cfg (s.now + time) → d.inForce cfg s.now :=
    fun hd => Nat.lt_of_le_of_lt (Nat.le_add_right ..) hd
  refine ⟨fun d hd => Nat.le_add_right_of_le (h.past d hd), ?_, ?_, h.known, ?_, h.holds⟩
  · exact fun d hd hd' => h.redis d hd (hforce hd')
  · exact fun d hd hd' => h.locals d hd (hforce hd')
  · exact fun i hidle hreading d hd hd' => h.beyond i hidle hreading d hd (hforce hd')

theorem Held.pick {s : Health} (h : Held cfg s) (request process : Nat) :
    Held cfg (s.step cfg (.pick request process)) := by
  unfold Health.step
  dsimp only
  split
  next =>
    split
    next => exact h.setPick request (fun _ hd => hd) fun _ hne => absurd rfl hne
    next =>
      refine ⟨h.past, h.redis, h.locals, h.known, h.beyond, ?_⟩
      intro r hr
      rcases List.mem_append.mp hr with hr | hr
      · exact h.holds r hr
      · rw [List.mem_singleton.mp hr]
        exact fun hfalse => absurd hfalse Bool.false_ne_true
  next => exact h

/-- What a pick reads keeps it from the primary as long as a demotion it knows of is
in force. -/
theorem Held.read {s : Health} (h : Held cfg s) {request : Nat} {reached : Bool}
    (hsteady : Steady cfg s (.read request reached)) : Held cfg (s.step cfg (.read request reached)) := by
  unfold Health.step
  dsimp only
  split
  next hphase =>
    -- a pick that knows of a demotion in force reads an unhealthy verdict
    have hread : (∃ d ∈ (s.picks request).known, d.inForce cfg s.now) →
        getCached cfg s.toHealthCache (s.picks request).process reached = some false := by
      intro hknown
      obtain ⟨d, hd, hforce, htook⟩ := hsteady hphase hknown
      unfold getCached
      unfold Demotion.tookRead at htook
      split
      next hredis =>
        rw [if_pos hredis] at htook
        exact (h.redis d hd hforce htook).live hforce
      next hlocal =>
        rw [if_neg hlocal] at htook
        exact (h.locals d hd hforce _ htook).live hforce
    have hnone : getCached cfg s.toHealthCache (s.picks request).process reached ≠ some false →
        ∀ d ∈ (s.picks request).known, ¬ d.inForce cfg s.now :=
      fun hne d hd hforce => hne (hread ⟨d, hd, hforce⟩)
    split
    next healthy hcached =>
      refine h.returns request ?_
      rintro rfl
      exact hnone (by rw [hcached]; simp)
    next hcached =>
      refine h.setPick request (h.known request) ?_
      intro _ _
      exact hnone (by rw [hcached]; simp)
  next => exact h

theorem Held.probe {s : Health} (h : Held cfg s) (request : Nat) (healthy : Bool) :
    Held cfg (s.step cfg (.probe request healthy)) := by
  unfold Health.step
  dsimp only
  split
  next hphase =>
    refine h.setPick request (h.known request) ?_
    intro _ _
    exact h.beyond request (by rw [hphase]; simp) (by rw [hphase]; simp)
  next => exact h

/-- A probe's verdict is written where it undoes no demotion in force. -/
theorem Held.write {s : Health} (h : Held cfg s) {request : Nat} {answer : Answer}
    (hsteady : Steady cfg s (.write request answer)) : Held cfg (s.step cfg (.write request answer)) := by
  unfold Health.step
  dsimp only
  split
  next healthy hphase =>
    have hbeyond := h.beyond request (by rw [hphase]; simp) (by rw [hphase]; simp)
    have hset : Held cfg { s with
        toHealthCache :=
          Upstream.setCached cfg s.toHealthCache (s.picks request).process healthy answer } := by
      refine h.setCached _ healthy answer ?_
      rintro rfl
      exact hsteady hphase
    refine hset.returns request ?_
    intro _ d hd
    show ¬ d.inForce cfg
      (Upstream.setCached cfg s.toHealthCache (s.picks request).process healthy answer).now
    rw [setCached_now]
    exact hbeyond d hd
  next => exact h

/-- A demotion is held from its own write on. -/
theorem Held.mark {s : Health} (h : Held cfg s) (process : Nat) (answer : Answer) :
    Held cfg (s.step cfg (.mark process answer)) := by
  unfold Health.step
  dsimp only
  split
  next hconfigured =>
    have hmark : markPrimaryUnhealthy cfg s.toHealthCache process answer =
        Upstream.setCached cfg s.toHealthCache process false answer := if_pos hconfigured
    rw [hmark]
    have hset := h.setCached process false answer fun hfalse => absurd hfalse Bool.false_ne_true
    refine ⟨?_, ?_, ?_, fun i d hd => List.mem_append_left _ (h.known i d hd), hset.beyond,
      h.holds⟩
    · intro d hd
      rcases List.mem_append.mp hd with hd | hd
      · exact hset.past d hd
      · rw [List.mem_singleton.mp hd]
        show s.now ≤ (Upstream.setCached cfg s.toHealthCache process false answer).now
        rw [setCached_now]
    · intro d hd hforce hredis
      rcases List.mem_append.mp hd with hd | hd
      · exact hset.redis d hd hforce hredis
      · rw [List.mem_singleton.mp hd] at hredis ⊢
        show Holding cfg _ (Upstream.setCached cfg s.toHealthCache process false answer).redis
        rw [setCached_redis, if_pos (show writesRedis cfg answer = true from hredis)]
        exact ⟨_, rfl, rfl, Nat.le_refl _⟩
    · intro d hd hforce k hk
      rcases List.mem_append.mp hd with hd | hd
      · exact hset.locals d hd hforce k hk
      · rw [List.mem_singleton.mp hd] at hk ⊢
        have hlocal : writesLocal cfg answer = true ∧ process = k := by
          unfold demotionOf at hk
          dsimp only at hk
          split at hk
          next hlocal => exact ⟨hlocal, Option.some.inj hk⟩
          next => exact absurd hk (by simp)
        show Holding cfg _ ((Upstream.setCached cfg s.toHealthCache process false answer).locals k)
        rw [setCached_locals, if_pos ⟨hlocal.1, hlocal.2.symm⟩]
        exact ⟨_, rfl, rfl, Nat.le_refl _⟩
  next => exact h

theorem held_step (s : Health) (e : HealthEvent) (h : Held cfg s) (hsteady : Steady cfg s e) :
    Held cfg (s.step cfg e) := by
  cases e with
  | pass time => exact h.pass time
  | pick request process => exact h.pick request process
  | read request reached => exact h.read hsteady
  | probe request healthy => exact h.probe request healthy
  | write request answer => exact h.write hsteady
  | mark process answer => exact h.mark process answer

theorem held_initial : Held cfg {} := by
  refine ⟨?_, ?_, ?_, ?_, ?_, ?_⟩
  · exact fun d hd => absurd hd List.not_mem_nil
  · exact fun d hd => absurd hd List.not_mem_nil
  · exact fun d hd => absurd hd List.not_mem_nil
  · exact fun i d hd => absurd hd List.not_mem_nil
  · exact fun i hidle => absurd rfl hidle
  · exact fun r hr => absurd hr List.not_mem_nil

/-- In a run in which no demotion in force is overwritten or unknown where a
later pick reads, demotions hold. -/
theorem holds_of_steady {events : List HealthEvent}
    (h : Throughout (Health.step cfg) (Steady cfg) {} events) :
    DemotionHolds cfg (run (Health.step cfg) {} events) :=
  (run_invariant (Held cfg) held_step held_initial h).demotionHolds

/-! ## Demotions that are undone -/

/-- A pick reads the store that a write has changed. -/
def ReadsWritten (cfg : EndpointConfig) (process : Nat) (answer : Answer) (reader : Nat)
    (reached : Bool) : Prop :=
  if cfg.useRedis && reached then writesRedis cfg answer = true
  else writesLocal cfg answer = true ∧ reader = process

theorem ttl_pos (cfg : EndpointConfig) : 0 < cfg.ttl :=
  Nat.mul_pos (by decide) (Nat.lt_of_lt_of_le Nat.zero_lt_one (Nat.le_max_left ..))

theorem live_new (now : Nat) (ok : Bool) :
    (live now (some ⟨ok, now + cfg.ttl⟩)).map Lease.token = some ok := by
  rw [live_eq_some.mpr ⟨rfl, Nat.lt_add_of_pos_right (ttl_pos cfg)⟩]
  rfl

theorem getCached_setCached {s : HealthCache} {process reader : Nat} {ok reached : Bool}
    {answer : Answer} (h : ReadsWritten cfg process answer reader reached) :
    getCached cfg (setCached cfg s process ok answer) reader reached = some ok := by
  unfold getCached
  unfold ReadsWritten at h
  split
  next hredis =>
    rw [if_pos hredis] at h
    rw [setCached_redis, setCached_now, if_pos h]
    exact live_new s.now ok
  next hlocal =>
    rw [if_neg hlocal] at h
    rw [setCached_locals, setCached_now, if_pos h]
    exact live_new s.now ok

theorem pick_known {s : Health} (hconfigured : cfg.configured = true) {request : Nat}
    (hidle : (s.picks request).phase = .idle) (process : Nat) :
    s.step cfg (.pick request process) = s.setPick request ⟨process, .reading, s.demotions⟩ := by
  unfold Health.step
  dsimp only
  rw [hidle]
  exact if_pos hconfigured

@[simp] theorem Health.setPick_self (s : Health) (request : Nat) (p : Pick) :
    (s.setPick request p).picks request = p :=
  Function.update_self ..

/-- A pick that is probing returns the primary when it finds it healthy. -/
theorem probe_primary {s : Health} {request : Nat} {p : Pick} (hp : s.picks request = p)
    (hphase : p.phase = .probing) :
    ⟨p.known, s.now, true⟩ ∈
      (run (Health.step cfg) s [.probe request true, .write request .reply]).reports := by
  have hprobe : s.step cfg (.probe request true) =
      s.setPick request { p with phase := .writing true } := by
    unfold Health.step
    simp only [hp, hphase]
  rw [run, run, run, hprobe]
  unfold Health.step
  simp only [Health.setPick_self]
  refine List.mem_append_right _ (List.mem_singleton.mpr ?_)
  rw [setCached_now]
  show _ = PickReport.mk ((s.setPick request { p with phase := .writing true }).picks request).known
    s.now true
  rw [Health.setPick_self]

/-- A pick that reads no unhealthy verdict returns the primary when it probes healthy. -/
theorem pick_primary {s : Health} (hconfigured : cfg.configured = true) {request process : Nat}
    {reached : Bool} (hidle : (s.picks request).phase = .idle)
    (hread : getCached cfg s.toHealthCache process reached ≠ some false) :
    ∃ events, ⟨s.demotions, s.now, true⟩ ∈ (run (Health.step cfg) s events).reports := by
  have hpick := pick_known hconfigured hidle process
  cases hcached : getCached cfg s.toHealthCache process reached with
  | some healthy =>
    obtain rfl : healthy = true := by
      rw [hcached] at hread
      simpa using hread
    refine ⟨[.pick request process, .read request reached], ?_⟩
    have hreturn : (s.setPick request ⟨process, .reading, s.demotions⟩).step cfg
        (.read request reached) =
          (s.setPick request ⟨process, .reading, s.demotions⟩).returns request true := by
      unfold Health.step
      simp only [Health.setPick_self]
      rw [show getCached cfg (s.setPick request _).toHealthCache process reached = some true from
        hcached]
    rw [run, run, run, hpick, hreturn]
    refine List.mem_append_right _ (List.mem_singleton.mpr ?_)
    rw [Health.setPick_self]
    rfl
  | none =>
    refine ⟨[.pick request process, .read request reached, .probe request true,
      .write request .reply], ?_⟩
    have hread : (s.setPick request ⟨process, .reading, s.demotions⟩).step cfg
        (.read request reached) =
          (s.setPick request ⟨process, .reading, s.demotions⟩).setPick request
            ⟨process, .probing, s.demotions⟩ := by
      unfold Health.step
      simp only [Health.setPick_self]
      rw [show getCached cfg (s.setPick request _).toHealthCache process reached = none from hcached]
    rw [run, run, hpick, hread]
    exact probe_primary (Health.setPick_self ..) rfl

/-- While a pick would read no unhealthy verdict, a demotion in force can be undone. -/
theorem undone_of_unread {s : Health} (hconfigured : cfg.configured = true) {d : Demotion}
    (hd : d ∈ s.demotions) (hforce : s.now < d.time + 1000 * cfg.healthTtl)
    {request process : Nat} {reached : Bool} (hidle : (s.picks request).phase = .idle)
    (hread : getCached cfg s.toHealthCache process reached ≠ some false) :
    ∃ events, ¬ DemotionHolds cfg (run (Health.step cfg) s events) := by
  obtain ⟨events, hreport⟩ := pick_primary hconfigured hidle hread
  exact ⟨events, fun hholds => absurd (hholds _ hreport rfl d hd) (Nat.not_le_of_lt hforce)⟩

/-- A healthy verdict that is written while a demotion is in force undoes it for
whoever reads the store then. -/
theorem undone_of_stale {s : Health} (hconfigured : cfg.configured = true) {d : Demotion}
    (hd : d ∈ s.demotions) (hforce : s.now < d.time + 1000 * cfg.healthTtl)
    {stale request reader : Nat} {answer : Answer} {reached : Bool}
    (hstale : (s.picks stale).phase = .writing true) (hidle : (s.picks request).phase = .idle)
    (hreads : ReadsWritten cfg (s.picks stale).process answer reader reached) :
    ∃ events, ¬ DemotionHolds cfg (run (Health.step cfg) s (.write stale answer :: events)) := by
  have hne : request ≠ stale := by
    rintro rfl
    rw [hidle] at hstale
    exact absurd hstale (by simp)
  have hwrite : s.step cfg (.write stale answer) =
      { s with
        toHealthCache :=
          setCached cfg s.toHealthCache (s.picks stale).process true answer }.returns stale true := by
    unfold Health.step
    simp only [hstale]
  have hdemotions : d ∈ (s.step cfg (.write stale answer)).demotions := by
    rw [hwrite]
    exact hd
  have hnow : (s.step cfg (.write stale answer)).now < d.time + 1000 * cfg.healthTtl := by
    rw [hwrite]
    exact (setCached_now ..).symm ▸ hforce
  have hrequest : ((s.step cfg (.write stale answer)).picks request).phase = .idle := by
    rw [hwrite]
    show (Function.update s.picks stale {} request).phase = .idle
    rw [Function.update_of_ne hne]
    exact hidle
  have hread : getCached cfg (s.step cfg (.write stale answer)).toHealthCache reader reached ≠
      some false := by
    rw [hwrite]
    show getCached cfg (setCached cfg s.toHealthCache _ true answer) reader reached ≠ _
    rw [getCached_setCached hreads]
    simp
  exact undone_of_unread hconfigured hdemotions hnow hrequest hread

/-! ## Two runs -/

def twoEndpoints : EndpointConfig where
  failover := true
  primaryUrl := "http://10.8.0.2:8080/v1/chat/completions".toList
  nimUrl := "https://nim/v1/chat/completions".toList

/-- A pick, a demotion, and a pick a second after it. -/
theorem demotedInTime_holds :
    DemotionHolds twoEndpoints (run (Health.step twoEndpoints) {} [.pick 0 0, .read 0 true,
      .probe 0 true, .write 0 .reply, .mark 0 .reply, .pass 1000, .pick 1 0, .read 1 true]) := by
  refine holds_of_steady ⟨trivial, ?_, trivial, ?_, trivial, trivial, trivial, ?_, trivial⟩
  · rintro _ ⟨d, hd, _⟩
    exact absurd hd List.not_mem_nil
  · intro _ d hd
    exact absurd hd List.not_mem_nil
  · intro _ _
    exact ⟨⟨0, true, none⟩, List.mem_singleton_self _, by unfold Demotion.inForce; decide, rfl⟩

/-- The primary is demoted between a pick's probe and its write. -/
def lateVerdict : List HealthEvent :=
  [.pick 0 0, .read 0 true, .probe 0 true, .mark 0 .reply, .write 0 .reply, .pick 1 0, .read 1 true]

theorem lateVerdict_undoes :
    ¬ ∀ cfg events, cfg.configured = true → DemotionHolds cfg (run (Health.step cfg) {} events) := by
  intro h
  have hreports : (run (Health.step twoEndpoints) {} lateVerdict).reports =
      [⟨[], 0, true⟩, ⟨[⟨0, true, none⟩], 0, true⟩] := by
    rfl
  have hholds := h twoEndpoints lateVerdict rfl ⟨[⟨0, true, none⟩], 0, true⟩
    (by rw [hreports]; simp) rfl ⟨0, true, none⟩ (List.mem_singleton_self _)
  exact absurd hholds (by decide)

end Eidetic.Upstream
