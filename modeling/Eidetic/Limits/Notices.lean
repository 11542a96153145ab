import Eidetic.Lib.FixedWindow
import Eidetic.Lib.Run
import Eidetic.Py.Decimal
import Mathlib.Data.List.Perm.Basic
import Mathlib.Logic.Function.Basic

/-!
# The limit of notifications

`notify` counts the notifications of a user and an event type in Redis: `INCR`,
and `EXPIRE` when the reply is one. Jobs notify at any time, so the commands of
several calls come between each other; a command can fail before it has had its
effect or after it, and then the call goes on as if it was let through; and a
call can break off anywhere.

In every window there are twice as many notifications of a user and a type as the
limit allows, at most, that have been let through by their count (`checked_le`).
When the `EXPIRE` of a counter is lost, the counter is never begun again, and what
it has left is all that is ever let through by a count (`never_reset`).

The counter of a user and a type is the library's `FixedWindow`: `Paced` says of
the hits so far, and of what the counter has, how many fall in a window. The
invariant `Counts` is that of every key, with what each call is known to have
counted from its phase (`NoticeCall.Sound`), and that different users and types
have different keys (`rateKey_injective`). What a step can do is `next_cases`;
of the calls that go on without a command only `Moves` matters, that they
neither count nor are let through.

`Abandoned` is the invariant of the second result: the counter has no time to
go, no call is about to set one, and what is let through stays within what is
left. A call that counts finds more than one there, so it never sets a time
either.
-/

namespace Eidetic.Limits

open Eidetic.Lib Eidetic.Py

/-- What `notify` reads of `config`: the window in milliseconds, and whether a
mail host and the VAPID keys are set. -/
structure NoticeConfig where
  useRedis : Bool
  rateLimit : Int
  rateWindow : Nat
  smtpHost : Bool
  vapidKeys : Bool

/-- A row of `user_notification_preferences`, with the defaults of `_load_prefs`. -/
structure NoticePreferences where
  emailDigest : Bool := true
  emailScheduled : Bool := true
  emailInsights : Bool := true
  pushEnabled : Bool := false

/-- The field that `_EVENT_TO_PREF` names, if it names one. -/
def NoticePreferences.wantsEmail (p : NoticePreferences) (eventType : Text) : Bool :=
  if eventType = "digest".toList then p.emailDigest
  else if eventType = "scheduled".toList then p.emailScheduled
  else if eventType = "insight".toList then p.emailInsights
  else false

inductive NoticePhase
  /-- Before its `INCR`. -/
  | checking
  /-- The count is one, and its `EXPIRE` comes next. -/
  | expiring
  | refused
  | passed
  /-- The user has no preferences, and a row is added. -/
  | creating
  /-- The notification goes out by mail, to the browsers, or not at all. -/
  | sent (email push : Bool)
  | broken
  deriving DecidableEq

def NoticePhase.ended : NoticePhase → Bool
  | .refused | .sent .. | .broken => true
  | _ => false

/-- The limit has let the call through. -/
def NoticePhase.through : NoticePhase → Bool
  | .passed | .creating | .sent .. => true
  | _ => false

/-- A call of `notify`. -/
structure NoticeCall where
  user : Nat
  eventType : Text
  /-- When its `INCR` was answered, and with what. -/
  counted : Option (Nat × Nat) := none
  /-- No check was made, or it has caught an exception. -/
  unchecked : Bool := false
  phase : NoticePhase := .checking

/-- Redis, the preferences, and all calls there have been. -/
structure Notices where
  now : Nat := 0
  counters : Text → Option Counter := fun _ => none
  preferences : Nat → Option NoticePreferences := fun _ => none
  calls : List NoticeCall := []

/-- A command of Redis is answered, or fails after or before it has had its effect. -/
inductive RedisReply
  | answered
  | lost
  | unsent

inductive NoticeEvent
  | pass (ms : Nat)
  | notify (user : Nat) (eventType : Text)
  | incr (i : Nat) (reply : RedisReply)
  | expire (i : Nat) (reply : RedisReply)
  | load (i : Nat)
  | create (i : Nat)
  | breakOff (i : Nat)
  /-- A user changes his preferences, or they are added for him elsewhere. -/
  | update (user : Nat) (preferences : NoticePreferences)

/-- The key of `_check_rate_limit`. -/
def rateKey (user : Nat) (eventType : Text) : Text :=
  "notif:rl:".toList ++ (decimal user ++ ':' :: eventType)

namespace NoticeConfig

variable (cfg : NoticeConfig)

/-- `current > config.NOTIFICATION_RATE_LIMIT`. -/
def verdict (current : Nat) : NoticePhase :=
  if cfg.rateLimit < (current : Int) then .refused else .passed

/-- The channels of a notification. -/
def channels (p : NoticePreferences) (eventType : Text) : NoticePhase :=
  .sent (p.wantsEmail eventType && cfg.smtpHost) (p.pushEnabled && cfg.vapidKeys)

end NoticeConfig

namespace NoticeCall

variable (c : NoticeCall)

def key : Text := rateKey c.user c.eventType

/-- `_check_rate_limit` catches an exception. -/
def excused : NoticeCall := { c with unchecked := true, phase := .passed }

/-- What follows the answer of `INCR`. -/
def count (cfg : NoticeConfig) (now current : Nat) : NoticeCall :=
  { c with counted := some (now, current), phase := if current = 1 then .expiring else cfg.verdict current }

end NoticeCall

namespace Notices

/-- A call makes a step. -/
def goes (s : Notices) (i : Nat) (c : NoticeCall) : Notices := { s with calls := s.calls.set i c }

def setCounter (s : Notices) (key : Text) (counter : Option Counter) : Notices :=
  { s with counters := Function.update s.counters key counter }

def setPreferences (s : Notices) (user : Nat) (p : NoticePreferences) : Notices :=
  { s with preferences := Function.update s.preferences user (some p) }

/-- A step of a call that is in some phase. -/
def step (cfg : NoticeConfig) (s : Notices) (i : Nat) (c : NoticeCall) : NoticeEvent → Notices
  | .incr _ reply =>
    let counter := Counter.incr s.now (s.counters c.key)
    match reply with
    | .answered => (s.setCounter c.key (some counter)).goes i (c.count cfg s.now counter.value)
    | .lost => (s.setCounter c.key (some counter)).goes i c.excused
    | .unsent => s.goes i c.excused
  | .expire _ reply =>
    let counter := Counter.expire s.now cfg.rateWindow (s.counters c.key)
    match reply with
    | .answered => (s.setCounter c.key counter).goes i { c with phase := cfg.verdict 1 }
    | .lost => (s.setCounter c.key counter).goes i c.excused
    | .unsent => s.goes i c.excused
  | .load _ =>
    match s.preferences c.user with
    | some p => s.goes i { c with phase := cfg.channels p c.eventType }
    | none => s.goes i { c with phase := .creating }
  | .create _ =>
    match s.preferences c.user with
    -- another session has added the row meanwhile
    | some _ => s.goes i { c with phase := .broken }
    | none => (s.setPreferences c.user {}).goes i { c with phase := cfg.channels {} c.eventType }
  | .breakOff _ => s.goes i { c with phase := .broken }
  | _ => s

/-- The call that an event is a step of, and the phases in which it is one. -/
def place : NoticeEvent → Option (Nat × (NoticePhase → Bool))
  | .incr i _ => some (i, (· = .checking))
  | .expire i _ => some (i, (· = .expiring))
  | .load i => some (i, (· = .passed))
  | .create i => some (i, (· = .creating))
  | .breakOff i => some (i, fun phase => !phase.ended)
  | .pass _ | .notify .. | .update .. => none

def next (cfg : NoticeConfig) (s : Notices) (e : NoticeEvent) : Notices :=
  match e with
  | .pass ms => { s with now := s.now + ms }
  | .notify user eventType =>
    let c : NoticeCall :=
      if cfg.useRedis then { user, eventType }
      else { user, eventType, unchecked := true, phase := .passed }
    { s with calls := s.calls ++ [c] }
  | .update user p => s.setPreferences user p
  | e =>
    match place e with
    | some (i, fits) =>
      match s.calls[i]? with
      | some c => if fits c.phase then s.step cfg i c e else s
      | none => s
    | none => s

/-! ## What a step can do -/

end Notices

/-- The call has been let through by its count. -/
def NoticeCall.checked (c : NoticeCall) : Bool := c.phase.through && !c.unchecked

/-- A call that neither counts nor is let through. -/
structure NoticeCall.Moves (c c' : NoticeCall) : Prop where
  user : c'.user = c.user
  eventType : c'.eventType = c.eventType
  counted : c'.counted = c.counted
  unchecking : c'.phase ≠ .checking
  unexpiring : c'.phase ≠ .expiring
  checked : c'.checked = true → c.checked = true

theorem NoticeCall.moves_excused (c : NoticeCall) : c.Moves c.excused :=
  ⟨rfl, rfl, rfl, by simp [excused], by simp [excused], by simp [checked, excused]⟩

theorem NoticeCall.moves_broken (c : NoticeCall) : c.Moves { c with phase := .broken } :=
  ⟨rfl, rfl, rfl, by simp, by simp, by simp [checked, NoticePhase.through]⟩

/-- A call that was let through goes on. -/
theorem NoticeCall.moves_of_through {c : NoticeCall} {phase : NoticePhase} (h : c.phase.through = true)
    (hphase : phase.through = true) : c.Moves { c with phase } := by
  refine ⟨rfl, rfl, rfl, ?_, ?_, ?_⟩
  · rintro rfl
    exact absurd hphase (by simp [NoticePhase.through])
  · rintro rfl
    exact absurd hphase (by simp [NoticePhase.through])
  · unfold checked
    rw [h, hphase]
    exact id

namespace Notices

variable {cfg : NoticeConfig} {s s' : Notices} {e : NoticeEvent}

theorem next_of_place (cfg : NoticeConfig) (s : Notices) {i : Nat} {fits : NoticePhase → Bool}
    (h : place e = some (i, fits)) :
    next cfg s e = s ∨
      ∃ c, s.calls[i]? = some c ∧ fits c.phase = true ∧ next cfg s e = s.step cfg i c e := by
  have hnext : next cfg s e = match s.calls[i]? with
      | some c => if fits c.phase then s.step cfg i c e else s
      | none => s := by
    cases e with
    | pass ms => exact absurd h (by simp [place])
    | notify user eventType => exact absurd h (by simp [place])
    | update user p => exact absurd h (by simp [place])
    | incr j reply => obtain ⟨rfl, rfl⟩ := Prod.mk.inj (Option.some.inj h); rfl
    | expire j reply => obtain ⟨rfl, rfl⟩ := Prod.mk.inj (Option.some.inj h); rfl
    | load j => obtain ⟨rfl, rfl⟩ := Prod.mk.inj (Option.some.inj h); rfl
    | create j => obtain ⟨rfl, rfl⟩ := Prod.mk.inj (Option.some.inj h); rfl
    | breakOff j => obtain ⟨rfl, rfl⟩ := Prod.mk.inj (Option.some.inj h); rfl
  rw [hnext]
  cases hc : s.calls[i]? with
  | none => exact .inl rfl
  | some c =>
    -- an event that does not belong to the call's phase changes nothing
    by_cases hfits : fits c.phase = true
    · exact .inr ⟨c, rfl, hfits, if_pos hfits⟩
    · exact .inl (if_neg hfits)

/-- What a step can do: time passes, a call begins, preferences change, or a call
goes on, counts, or sets the time of its counter. -/
theorem next_cases (cfg : NoticeConfig) (s : Notices) (e : NoticeEvent) :
    (∃ ms, next cfg s e = { s with now := s.now + ms }) ∨
    (∃ c : NoticeCall, c.counted = none ∧ c.phase ≠ .expiring ∧ c.checked = false ∧
      next cfg s e = { s with calls := s.calls ++ [c] }) ∨
    (∃ preferences, next cfg s e = { s with preferences }) ∨
    ∃ i c, s.calls[i]? = some c ∧
      ((∃ c' preferences, c.Moves c' ∧ next cfg s e = { s.goes i c' with preferences }) ∨
      c.phase = .checking ∧ (∃ c', (c' = c.excused ∨
          c' = c.count cfg s.now (Counter.incr s.now (s.counters c.key)).value) ∧
        next cfg s e = (s.setCounter c.key (some (Counter.incr s.now (s.counters c.key)))).goes i c') ∨
      c.phase = .expiring ∧ ∃ c', (c' = c.excused ∨ c' = { c with phase := cfg.verdict 1 }) ∧
        next cfg s e =
          (s.setCounter c.key (Counter.expire s.now cfg.rateWindow (s.counters c.key))).goes i c') := by
  have hidle : next cfg s e = s → ∃ preferences, next cfg s e = { s with preferences } :=
    fun heq => ⟨s.preferences, heq⟩
  cases e with
  | pass ms => exact .inl ⟨ms, rfl⟩
  | notify user eventType =>
    refine .inr (.inl ⟨_, ?_, ?_, ?_, rfl⟩)
    · split <;> rfl
    · split <;> simp
    · split <;> rfl
  | update user p => exact .inr (.inr (.inl ⟨_, rfl⟩))
  | incr i reply =>
    rcases next_of_place cfg s (e := .incr i reply) rfl with hsame | ⟨c, hc, hphase, hnext⟩
    · exact .inr (.inr (.inl (hidle hsame)))
    · refine .inr (.inr (.inr ⟨i, c, hc, ?_⟩))
      have hchecking : c.phase = .checking := by simpa using hphase
      rw [hnext]
      cases reply with
      -- Redis has counted and the reply came, has counted and it was lost, or never got the command
      | answered => exact .inr (.inl ⟨hchecking, _, .inr rfl, rfl⟩)
      | lost => exact .inr (.inl ⟨hchecking, _, .inl rfl, rfl⟩)
      | unsent => exact .inl ⟨_, s.preferences, c.moves_excused, rfl⟩
  | expire i reply =>
    rcases next_of_place cfg s (e := .expire i reply) rfl with hsame | ⟨c, hc, hphase, hnext⟩
    · exact .inr (.inr (.inl (hidle hsame)))
    · refine .inr (.inr (.inr ⟨i, c, hc, ?_⟩))
      have hexpiring : c.phase = .expiring := by simpa using hphase
      rw [hnext]
      cases reply with
      | answered => exact .inr (.inr ⟨hexpiring, _, .inr rfl, rfl⟩)
      | lost => exact .inr (.inr ⟨hexpiring, _, .inl rfl, rfl⟩)
      | unsent => exact .inl ⟨_, s.preferences, c.moves_excused, rfl⟩
  | load i =>
    rcases next_of_place cfg s (e := .load i) rfl with hsame | ⟨c, hc, hphase, hnext⟩
    · exact .inr (.inr (.inl (hidle hsame)))
    · refine .inr (.inr (.inr ⟨i, c, hc, .inl ?_⟩))
      have hpassed : c.phase = .passed := by simpa using hphase
      rw [hnext]
      unfold step
      dsimp only
      split
      next p _ => exact ⟨_, s.preferences, NoticeCall.moves_of_through (by rw [hpassed]; rfl) rfl, rfl⟩
      next => exact ⟨_, s.preferences, NoticeCall.moves_of_through (by rw [hpassed]; rfl) rfl, rfl⟩
  | create i =>
    rcases next_of_place cfg s (e := .create i) rfl with hsame | ⟨c, hc, hphase, hnext⟩
    · exact .inr (.inr (.inl (hidle hsame)))
    · refine .inr (.inr (.inr ⟨i, c, hc, .inl ?_⟩))
      have hcreating : c.phase = .creating := by simpa using hphase
      rw [hnext]
      unfold step
      dsimp only
      split
      next p _ => exact ⟨_, s.preferences, c.moves_broken, rfl⟩
      next => exact ⟨_, _, NoticeCall.moves_of_through (by rw [hcreating]; rfl) rfl, rfl⟩
  | breakOff i =>
    rcases next_of_place cfg s (e := .breakOff i) rfl with hsame | ⟨c, hc, hphase, hnext⟩
    · exact .inr (.inr (.inl (hidle hsame)))
    · rw [hnext]
      exact .inr (.inr (.inr ⟨i, c, hc, .inl ⟨_, s.preferences, c.moves_broken, rfl⟩⟩))

end Notices

/-! ## Counts of one user and type -/

theorem rateKey_injective {user user' : Nat} {eventType eventType' : Text}
    (h : rateKey user eventType = rateKey user' eventType') : user = user' ∧ eventType = eventType' := by
  obtain ⟨hdecimal, htype⟩ := cut_first (not_mem_decimal rfl) (not_mem_decimal rfl) (List.append_cancel_left h)
  exact ⟨decimal_injective hdecimal, htype⟩

/-- Of a user and an event type. -/
def NoticeCall.isOf (user : Nat) (eventType : Text) (c : NoticeCall) : Bool :=
  c.user = user && c.eventType = eventType

/-- When the call was counted, if its count was within the limit. -/
def NoticeCall.hit (cfg : NoticeConfig) (c : NoticeCall) : Option Nat :=
  (c.counted.filter fun count => count.2 ≤ cfg.rateLimit.toNat).map Prod.fst

def NoticeCall.hitOf (cfg : NoticeConfig) (user : Nat) (eventType : Text) (c : NoticeCall) : Option Nat :=
  if c.isOf user eventType then c.hit cfg else none

/-- What is known of each call from its phase. -/
structure NoticeCall.Sound (cfg : NoticeConfig) (c : NoticeCall) : Prop where
  uncounted : c.phase = .checking → c.counted = none
  one : c.phase = .expiring → ∃ t, c.counted = some (t, 1)
  within : c.checked = true → (c.hit cfg).isSome = true

variable {cfg : NoticeConfig} {s : Notices} {c c' : NoticeCall} {i : Nat} {user : Nat} {eventType : Text}

theorem NoticeConfig.verdict_through {n : Nat} (h : (cfg.verdict n).through = true) :
    n ≤ cfg.rateLimit.toNat := by
  unfold verdict at h
  split at h
  next => exact absurd h (by simp [NoticePhase.through])
  next => omega

theorem NoticeConfig.verdict_ne (cfg : NoticeConfig) (n : Nat) :
    cfg.verdict n ≠ .checking ∧ cfg.verdict n ≠ .expiring := by
  unfold verdict
  split <;> simp

theorem NoticeCall.hit_of_counted (cfg : NoticeConfig) {t n : Nat} (h : c.counted = some (t, n)) :
    c.hit cfg = if n ≤ cfg.rateLimit.toNat then some t else none := by
  unfold hit
  rw [h, Option.filter_some]
  by_cases hn : n ≤ cfg.rateLimit.toNat
  · rw [if_pos (decide_eq_true hn), if_pos hn]
    rfl
  · rw [if_neg (by simpa using hn), if_neg hn]
    rfl

theorem NoticeCall.Moves.isOf (h : c.Moves c') : c'.isOf user eventType = c.isOf user eventType := by
  unfold NoticeCall.isOf
  rw [h.user, h.eventType]

theorem NoticeCall.Moves.hit (h : c.Moves c') : c'.hit cfg = c.hit cfg := by
  unfold NoticeCall.hit
  rw [h.counted]

theorem NoticeCall.Sound.moves (hc : c.Sound cfg) (h : c.Moves c') : c'.Sound cfg := by
  refine ⟨fun hphase => absurd hphase h.unchecking, fun hphase => absurd hphase h.unexpiring, ?_⟩
  intro hchecked
  rw [h.hit]
  exact hc.within (h.checked hchecked)

theorem NoticeCall.sound_count (now n : Nat) : (c.count cfg now n).Sound cfg := by
  have hhit := NoticeCall.hit_of_counted cfg (c := c.count cfg now n) (t := now) (n := n) rfl
  obtain ⟨hunchecking, hunexpiring⟩ := cfg.verdict_ne n
  refine ⟨?_, ?_, ?_⟩
  · intro hphase
    change (if n = 1 then NoticePhase.expiring else cfg.verdict n) = .checking at hphase
    split at hphase
    next => exact absurd hphase (by simp)
    next => exact absurd hphase hunchecking
  · intro hphase
    change (if n = 1 then NoticePhase.expiring else cfg.verdict n) = .expiring at hphase
    split at hphase
    next hone => exact ⟨now, by rw [← hone]; rfl⟩
    next => exact absurd hphase hunexpiring
  · intro hchecked
    -- the first call of a window is not through before its EXPIRE
    have hthrough : (if n = 1 then NoticePhase.expiring else cfg.verdict n).through = true :=
      (Bool.and_eq_true_iff.mp hchecked).1
    split at hthrough
    next => exact absurd hthrough (by simp [NoticePhase.through])
    next =>
      rw [hhit, if_pos (NoticeConfig.verdict_through hthrough)]
      rfl

/-- The count of one is decided on when its time is set. -/
theorem NoticeCall.Sound.expired (hc : c.Sound cfg) (hphase : c.phase = .expiring) :
    NoticeCall.Sound cfg { c with phase := cfg.verdict 1 } := by
  obtain ⟨hunchecking, hunexpiring⟩ := cfg.verdict_ne 1
  refine ⟨fun h => absurd h hunchecking, fun h => absurd h hunexpiring, ?_⟩
  intro hchecked
  obtain ⟨t, ht⟩ := hc.one hphase
  have hthrough : (cfg.verdict 1).through = true := (Bool.and_eq_true_iff.mp hchecked).1
  have hhit := NoticeCall.hit_of_counted cfg (c := { c with phase := cfg.verdict 1 }) ht
  rw [hhit, if_pos (NoticeConfig.verdict_through hthrough)]
  rfl

theorem filterMap_set_perm {α β : Type} (f : α → Option β) {l : List α} {i : Nat} {x : α}
    (h : l[i]? = some x) (y : α) :
    (l.filterMap f).Perm ((f x).toList ++ (l.eraseIdx i).filterMap f) ∧
      ((l.set i y).filterMap f).Perm ((f y).toList ++ (l.eraseIdx i).filterMap f) := by
  obtain ⟨hi, hget⟩ := List.getElem?_eq_some_iff.mp h
  have hcons : ∀ x : α, (x :: l.eraseIdx i).filterMap f = (f x).toList ++ (l.eraseIdx i).filterMap f := by
    intro x
    rw [List.filterMap_cons]
    cases f x <;> rfl
  rw [← hcons, ← hcons, ← hget]
  exact ⟨(List.getElem_cons_eraseIdx_perm hi).symm.filterMap f,
    (List.set_perm_cons_eraseIdx hi y).filterMap f⟩

namespace Notices

/-- When calls of a user and a type were counted within the limit. -/
def hits (cfg : NoticeConfig) (s : Notices) (user : Nat) (eventType : Text) : List Nat :=
  s.calls.filterMap (NoticeCall.hitOf cfg user eventType)

theorem hits_goes (h : s.calls[i]? = some c)
    (hsame : c'.hitOf cfg user eventType = c.hitOf cfg user eventType) :
    ((s.goes i c').hits cfg user eventType).Perm (s.hits cfg user eventType) := by
  obtain ⟨hbefore, hafter⟩ := filterMap_set_perm (NoticeCall.hitOf cfg user eventType) h c'
  rw [hsame] at hafter
  exact hafter.trans hbefore.symm

theorem hits_counted {t : Nat} (h : s.calls[i]? = some c) (hnone : c.hitOf cfg user eventType = none)
    (hsome : c'.hitOf cfg user eventType = some t) :
    ((s.goes i c').hits cfg user eventType).Perm (t :: s.hits cfg user eventType) := by
  obtain ⟨hbefore, hafter⟩ := filterMap_set_perm (NoticeCall.hitOf cfg user eventType) h c'
  rw [hnone] at hbefore
  rw [hsome] at hafter
  exact hafter.trans (hbefore.symm.cons t)

/-- What holds in every state that calls of `notify` come to. -/
structure Counts (cfg : NoticeConfig) (s : Notices) : Prop where
  paced : 0 < cfg.rateWindow → ∀ user eventType, ∃ birth, Paced cfg.rateLimit.toNat cfg.rateWindow s.now
    (s.counters (rateKey user eventType)) (s.hits cfg user eventType) birth
  sound : ∀ c ∈ s.calls, c.Sound cfg
  positive : ∀ key counter, s.counters key = some counter → 0 < counter.value

theorem key_of_isOf (h : c.isOf user eventType = true) : c.key = rateKey user eventType := by
  obtain ⟨huser, htype⟩ := Bool.and_eq_true_iff.mp h
  unfold NoticeCall.key
  rw [of_decide_eq_true huser, of_decide_eq_true htype]

theorem key_ne_of_isOf (h : c.isOf user eventType = false) : rateKey user eventType ≠ c.key := by
  intro heq
  obtain ⟨huser, htype⟩ := rateKey_injective heq
  have hof : c.isOf user eventType = true :=
    Bool.and_eq_true_iff.mpr ⟨decide_eq_true huser.symm, decide_eq_true htype.symm⟩
  rw [h] at hof
  exact absurd hof (by simp)

theorem setCounter_self (key : Text) (counter : Option Counter) :
    (s.setCounter key counter).counters key = counter := Function.update_self ..

theorem setCounter_of_ne {key key' : Text} (h : key' ≠ key) (counter : Option Counter) :
    (s.setCounter key counter).counters key' = s.counters key' := Function.update_of_ne h ..

theorem hitOf_none (h : c.isOf user eventType = false) : c.hitOf cfg user eventType = none := by
  unfold NoticeCall.hitOf
  rw [h]
  rfl

theorem sound_set {calls : List NoticeCall} (h : ∀ c ∈ calls, c.Sound cfg) (hc' : c'.Sound cfg) :
    ∀ c ∈ calls.set i c', c.Sound cfg := by
  intro c hc
  rcases List.mem_or_eq_of_mem_set hc with hold | rfl
  · exact h c hold
  · exact hc'

/-- The counter of another key, and the hits of the others, are left. -/
theorem Counts.paced_other (h : s.Counts cfg) (hw : 0 < cfg.rateWindow) (hc : s.calls[i]? = some c)
    (hother : c.isOf user eventType = false) (hother' : c'.isOf user eventType = false)
    (counter : Option Counter) :
    ∃ birth, Paced cfg.rateLimit.toNat cfg.rateWindow s.now
      (((s.setCounter c.key counter).goes i c').counters (rateKey user eventType))
      (((s.setCounter c.key counter).goes i c').hits cfg user eventType) birth := by
  obtain ⟨birth, hpaced⟩ := h.paced hw user eventType
  have hhits : (((s.setCounter c.key counter).goes i c').hits cfg user eventType).Perm
      (s.hits cfg user eventType) :=
    hits_goes (s := s.setCounter c.key counter) hc (by rw [hitOf_none hother, hitOf_none hother'])
  refine ⟨birth, ?_⟩
  show Paced _ _ _ ((s.setCounter c.key counter).counters _) _ _
  rw [setCounter_of_ne (key_ne_of_isOf hother)]
  exact hpaced.less hhits.subperm

/-- A call counts, and is let through by its count or goes on without. -/
theorem Counts.counting (h : s.Counts cfg) (hc : s.calls[i]? = some c) (hphase : c.phase = .checking)
    (hc' : c' = c.excused ∨ c' = c.count cfg s.now (Counter.incr s.now (s.counters c.key)).value) :
    ((s.setCounter c.key (some (Counter.incr s.now (s.counters c.key)))).goes i c').Counts cfg := by
  have hsound := h.sound c (List.mem_of_getElem? hc)
  refine ⟨fun hw user eventType => ?_, ?_, ?_⟩
  · have hsame : c'.isOf user eventType = c.isOf user eventType := by
      rcases hc' with rfl | rfl
      · rfl
      · rfl
    cases hof : c.isOf user eventType with
    | false => exact h.paced_other hw hc hof (hsame.trans hof) _
    | true =>
      obtain ⟨birth, hpaced⟩ := h.paced hw user eventType
      have hkey := key_of_isOf hof
      -- a call that is still checking has not been counted, so it may become a hit now
      have hnone : c.hitOf cfg user eventType = none := by
        unfold NoticeCall.hitOf NoticeCall.hit
        rw [hof, hsound.uncounted hphase]
        rfl
      show ∃ birth, Paced _ _ s.now ((s.setCounter c.key _).counters _) _ birth
      rw [hkey, setCounter_self]
      rw [hkey] at hc'
      by_cases hin : c'.hitOf cfg user eventType = none
      -- counted, but over the limit or with the reply lost
      · obtain ⟨birth', hincr, _⟩ := hpaced.incr
        have hhits := hits_goes (s := s.setCounter (rateKey user eventType)
          (some (Counter.incr s.now (s.counters (rateKey user eventType))))) hc (hin.trans hnone.symm)
        exact ⟨birth', hincr.less hhits.subperm⟩
      · -- only what was counted within the limit is a hit
        have hcount : c'.hitOf cfg user eventType = some s.now ∧
            (Counter.incr s.now (s.counters (rateKey user eventType))).value ≤ cfg.rateLimit.toNat := by
          unfold NoticeCall.hitOf at hin ⊢
          rw [hsame, hof, if_pos rfl] at hin ⊢
          rcases hc' with rfl | rfl
          · rw [c.moves_excused.hit] at hin
            unfold NoticeCall.hitOf at hnone
            rw [hof, if_pos rfl] at hnone
            exact absurd hnone hin
          · rw [NoticeCall.hit_of_counted cfg rfl] at hin ⊢
            split at hin
            next hle => exact ⟨if_pos hle, hle⟩
            next => exact absurd rfl hin
        obtain ⟨birth', hhit⟩ := hpaced.hit hcount.2
        have hhits := hits_counted (s := s.setCounter (rateKey user eventType)
          (some (Counter.incr s.now (s.counters (rateKey user eventType))))) hc hnone hcount.1
        exact ⟨birth', hhit.less hhits.subperm⟩
  · refine sound_set h.sound ?_
    rcases hc' with rfl | rfl
    · exact hsound.moves c.moves_excused
    · exact NoticeCall.sound_count _ _
  · intro key counter hcounter
    change (s.setCounter c.key _).counters key = some counter at hcounter
    by_cases hkey : key = c.key
    · rw [hkey, setCounter_self] at hcounter
      obtain rfl := Option.some.inj hcounter
      exact Counter.incr_pos
    · rw [setCounter_of_ne hkey] at hcounter
      exact h.positive key counter hcounter

/-- A call sets the time of its counter, whichever way it goes on. -/
theorem Counts.expiring (h : s.Counts cfg) (hc : s.calls[i]? = some c)
    (hphase : c.phase = .expiring) (hc' : c' = c.excused ∨ c' = { c with phase := cfg.verdict 1 }) :
    ((s.setCounter c.key (Counter.expire s.now cfg.rateWindow (s.counters c.key))).goes i c').Counts
      cfg := by
  have hsound := h.sound c (List.mem_of_getElem? hc)
  refine ⟨fun hw user eventType => ?_, ?_, ?_⟩
  · have hof : c'.isOf user eventType = c.isOf user eventType := by
      rcases hc' with rfl | rfl
      · rfl
      · rfl
    have hsame : c'.hitOf cfg user eventType = c.hitOf cfg user eventType := by
      rcases hc' with rfl | rfl
      · rfl
      · rfl
    -- setting a time changes no hit, and the counter only of its own key
    cases hown : c.isOf user eventType with
    | false => exact h.paced_other hw hc hown (hof.trans hown) _
    | true =>
      obtain ⟨birth, hpaced⟩ := h.paced hw user eventType
      have hkey := key_of_isOf hown
      have hhits := hits_goes (s := s.setCounter c.key
        (Counter.expire s.now cfg.rateWindow (s.counters c.key))) hc hsame
      show ∃ birth, Paced _ _ s.now ((s.setCounter c.key _).counters _) _ birth
      rw [hkey, setCounter_self]
      rw [hkey] at hhits
      exact ⟨birth, (hpaced.expire hw).less hhits.subperm⟩
  · refine sound_set h.sound ?_
    rcases hc' with rfl | rfl
    · exact hsound.moves c.moves_excused
    · exact hsound.expired hphase
  · intro key counter hcounter
    change (s.setCounter c.key _).counters key = some counter at hcounter
    by_cases hkey : key = c.key
    · rw [hkey, setCounter_self] at hcounter
      obtain ⟨counter₀, hold, hvalue⟩ := Counter.value_of_expire hcounter
      rw [hvalue]
      exact h.positive c.key counter₀ hold
    · rw [setCounter_of_ne hkey] at hcounter
      exact h.positive key counter hcounter

theorem Counts.next (h : s.Counts cfg) (e : NoticeEvent) :
    (next cfg s e).Counts cfg := by
  rcases next_cases cfg s e with ⟨ms, hnext⟩ | ⟨c, hnone, hphase, hunchecked, hnext⟩ | ⟨p, hnext⟩ |
    ⟨i, c, hc, ⟨c', p, hmoves, hnext⟩ | ⟨hphase, c', hc', hnext⟩ | ⟨hphase, c', hc', hnext⟩⟩
  · rw [hnext]
    refine ⟨fun hw user eventType => ?_, h.sound, h.positive⟩
    obtain ⟨birth, hpaced⟩ := h.paced hw user eventType
    exact ⟨birth, hpaced.pass ms⟩
  · rw [hnext]
    refine ⟨fun hw user eventType => ?_, ?_, h.positive⟩
    · have hhits : ({ s with calls := s.calls ++ [c] } : Notices).hits cfg user eventType =
          s.hits cfg user eventType := by
        have hhit : c.hitOf cfg user eventType = none := by
          unfold NoticeCall.hitOf NoticeCall.hit
          rw [hnone]
          exact ite_self _
        unfold hits
        rw [List.filterMap_append, List.filterMap_cons, hhit]
        exact List.append_nil _
      rw [hhits]
      exact h.paced hw user eventType
    · intro c' hc'
      rcases List.mem_append.mp hc' with hold | hnew
      · exact h.sound c' hold
      · obtain rfl := List.mem_singleton.mp hnew
        refine ⟨fun _ => hnone, fun hexpiring => absurd hexpiring hphase, fun hchecked => ?_⟩
        exact absurd (hunchecked.symm.trans hchecked) (by simp)
  · rw [hnext]
    exact ⟨h.paced, h.sound, h.positive⟩
  · rw [hnext]
    refine ⟨fun hw user eventType => ?_, ?_, h.positive⟩
    · obtain ⟨birth, hpaced⟩ := h.paced hw user eventType
      have hsame : c'.hitOf cfg user eventType = c.hitOf cfg user eventType := by
        unfold NoticeCall.hitOf
        rw [hmoves.isOf, hmoves.hit]
      exact ⟨birth, hpaced.less (hits_goes hc hsame).subperm⟩
    · exact sound_set h.sound ((h.sound c (List.mem_of_getElem? hc)).moves hmoves)
  · rw [hnext]
    exact h.counting hc hphase hc'
  · rw [hnext]
    exact h.expiring hc hphase hc'

theorem counts_init : ({} : Notices).Counts cfg :=
  ⟨fun _ _ _ => ⟨0, paced_nil rfl⟩, fun _ hc => absurd hc List.not_mem_nil, fun _ _ hc => absurd hc (by simp)⟩

theorem counts_run (cfg : NoticeConfig) (es : List NoticeEvent) : (run (Notices.next cfg) {} es).Counts cfg :=
  run_preserves (Counts cfg) (fun _ e h => h.next e) counts_init es

/-! ## In every window -/

/-- The call is one of a user and a type that was counted in a window, and let
through by its count. -/
def checkedIn (user : Nat) (eventType : Text) (a b : Nat) (c : NoticeCall) : Bool :=
  c.isOf user eventType && c.checked && c.counted.any fun count => a ≤ count.1 && count.1 < b

/-- However calls overlap, break off or lose their commands, a window has at most
twice the limit of notifications of a user and a type that their count has let
through. -/
theorem checked_le (cfg : NoticeConfig) (es : List NoticeEvent) (user : Nat) (eventType : Text) (a : Nat) :
    (run (next cfg) {} es).calls.countP (checkedIn user eventType a (a + cfg.rateWindow)) ≤
      2 * cfg.rateLimit.toNat := by
  generalize hs : run (next cfg) {} es = s
  by_cases hw : 0 < cfg.rateWindow
  · have hcounts : s.Counts cfg := hs ▸ counts_run cfg es
    obtain ⟨birth, hpaced⟩ := hcounts.paced hw user eventType
    -- every checked call in the window is a hit in it
    refine Nat.le_trans ?_ (hpaced.window_le a)
    unfold hits
    rw [List.countP_filterMap]
    refine List.countP_mono_left fun c hc hin => ?_
    obtain ⟨hfirst, htime⟩ := Bool.and_eq_true_iff.mp hin
    obtain ⟨hof, hchecked⟩ := Bool.and_eq_true_iff.mp hfirst
    obtain ⟨⟨t, n⟩, hcounted, hwindow⟩ := (Option.any_eq_true ..).mp htime
    have hwithin := (hcounts.sound c hc).within hchecked
    have hhit : c.hitOf cfg user eventType = some t := by
      unfold NoticeCall.hitOf
      rw [hof, if_pos rfl]
      rw [NoticeCall.hit_of_counted cfg hcounted] at hwithin ⊢
      split at hwithin
      next hle => exact if_pos hle
      next => exact absurd hwithin (by simp)
    rw [hhit]
    simpa using hwindow
  · -- no time is in an empty window
    have hnone : s.calls.countP (checkedIn user eventType a (a + cfg.rateWindow)) = 0 := by
      rw [List.countP_eq_zero]
      intro c _ hin
      obtain ⟨count, _, hwindow⟩ := (Option.any_eq_true ..).mp (Bool.and_eq_true_iff.mp hin).2
      simp only [Bool.and_eq_true, decide_eq_true_eq] at hwindow
      omega
    omega

/-- Six calls within a second, when five are allowed in a minute. -/
def sixCalls : List NoticeEvent :=
  (List.range 6).flatMap fun i =>
    [.notify 1 "insight".toList, .incr i .answered, .expire i .answered, .load i, .create i, .pass 100]

example : ((run (next ⟨true, 5, 60000, true, false⟩) {} sixCalls).calls.map fun c => c.phase) =
    List.replicate 5 (.sent true false) ++ [.refused] := by decide

/-! ## A counter that is not reset -/

/-- The call is one of a user and a type that its count has let through. -/
def checkedOf (user : Nat) (eventType : Text) (c : NoticeCall) : Bool :=
  c.isOf user eventType && c.checked

/-- The counter has no time to go, nobody sets one any more, and what it lets
through stays within a budget. -/
structure Abandoned (cfg : NoticeConfig) (user : Nat) (eventType : Text) (budget : Nat) (s : Notices) :
    Prop where
  stuck : Stuck cfg.rateLimit.toNat budget (s.counters (rateKey user eventType))
    (s.calls.countP (checkedOf user eventType))
  positive : ∀ counter, s.counters (rateKey user eventType) = some counter → 0 < counter.value
  unexpiring : ∀ c ∈ s.calls, c.isOf user eventType = true → c.phase ≠ .expiring

variable {budget : Nat}

theorem countP_goes_le (hc : s.calls[i]? = some c) {n : Nat}
    (hn : checkedOf user eventType c' = true → checkedOf user eventType c = true ∨ n = 1) :
    (s.goes i c').calls.countP (checkedOf user eventType) ≤ s.calls.countP (checkedOf user eventType) + n := by
  obtain ⟨hi, rfl⟩ := List.getElem?_eq_some_iff.mp hc
  show (s.calls.set i c').countP _ ≤ _
  rw [List.countP_set hi]
  by_cases hnew : checkedOf user eventType c' = true
  · rcases hn hnew with hold | rfl
    · have hpos : 0 < s.calls.countP (checkedOf user eventType) :=
        List.countP_pos_iff.mpr ⟨_, List.getElem_mem hi, hold⟩
      rw [if_pos hold, if_pos hnew]
      omega
    · rw [if_pos hnew]
      split <;> omega
  · rw [if_neg hnew]
    split <;> omega

theorem checkedOf_none (h : c.isOf user eventType = false) : checkedOf user eventType c = false := by
  unfold checkedOf
  rw [h]
  rfl

theorem Abandoned.unexpiring_set (h : s.Abandoned cfg user eventType budget)
    (hc' : c'.isOf user eventType = true → c'.phase ≠ .expiring) :
    ∀ c ∈ s.calls.set i c', c.isOf user eventType = true → c.phase ≠ .expiring := by
  intro c hc
  rcases List.mem_or_eq_of_mem_set hc with hold | rfl
  · exact h.unexpiring c hold
  · exact hc'

/-- The calls of others change other counters. -/
theorem Abandoned.other (h : s.Abandoned cfg user eventType budget) (hc : s.calls[i]? = some c)
    (hof : c.isOf user eventType = false) (hof' : c'.isOf user eventType = false)
    (counter : Option Counter) :
    ((s.setCounter c.key counter).goes i c').Abandoned cfg user eventType budget := by
  have hsame := setCounter_of_ne (s := s) (key_ne_of_isOf hof) counter
  have hle : ((s.setCounter c.key counter).goes i c').calls.countP (checkedOf user eventType) ≤
      s.calls.countP (checkedOf user eventType) + 0 :=
    countP_goes_le (s := s.setCounter c.key counter) hc fun hnew =>
      absurd ((checkedOf_none hof').symm.trans hnew) (by simp)
  refine ⟨?_, ?_, h.unexpiring_set fun hown => absurd (hof'.symm.trans hown) (by simp)⟩
  · show Stuck _ _ ((s.setCounter c.key counter).counters _) _
    rw [hsame]
    exact h.stuck.mono hle
  · intro counter' hcounter'
    exact h.positive counter' (hsame.symm.trans hcounter')

/-- A call of the user and the type finds a count above one, and sets no time. -/
theorem Abandoned.counting (h : s.Abandoned cfg user eventType budget) (hc : s.calls[i]? = some c)
    (hof : c.isOf user eventType = true)
    (hc' : c' = c.excused ∨ c' = c.count cfg s.now (Counter.incr s.now (s.counters c.key)).value) :
    ((s.setCounter c.key (some (Counter.incr s.now (s.counters c.key)))).goes i c').Abandoned cfg user
      eventType budget := by
  rw [key_of_isOf hof] at hc' ⊢
  generalize hincr : Counter.incr s.now (s.counters (rateKey user eventType)) = counter at hc' ⊢
  -- so no call comes to EXPIRE any more
  have hvalue : 1 < counter.value := hincr ▸ h.stuck.incr_value h.positive
  have hphase : c' = c.excused ∨ c'.phase = cfg.verdict counter.value :=
    hc'.imp_right fun heq => by rw [heq]; exact if_neg (by omega)
  have hself : ((s.setCounter (rateKey user eventType) (some counter)).goes i c').counters
      (rateKey user eventType) = some counter := setCounter_self ..
  refine ⟨?_, ?_, h.unexpiring_set fun _ => ?_⟩
  · rw [hself, ← hincr]
    refine h.stuck.hit ?_
    rw [hincr]
    refine countP_goes_le (s := s.setCounter (rateKey user eventType) (some counter)) hc fun hnew => .inr ?_
    have hthrough := (Bool.and_eq_true_iff.mp (Bool.and_eq_true_iff.mp hnew).2)
    rcases hphase with rfl | hphase
    · exact absurd hthrough.2 (by simp [NoticeCall.excused])
    · rw [hphase] at hthrough
      exact if_pos (NoticeConfig.verdict_through hthrough.1)
  · intro counter' hcounter'
    obtain rfl := Option.some.inj (hself.symm.trans hcounter')
    omega
  · rcases hphase with rfl | hphase
    · exact c.moves_excused.unexpiring
    · rw [hphase]
      exact (cfg.verdict_ne _).2

theorem Abandoned.next (h : s.Abandoned cfg user eventType budget) (e : NoticeEvent) :
    (next cfg s e).Abandoned cfg user eventType budget := by
  rcases next_cases cfg s e with ⟨ms, hnext⟩ | ⟨c, _, hphase, hunchecked, hnext⟩ | ⟨p, hnext⟩ |
    ⟨i, c, hc, ⟨c', p, hmoves, hnext⟩ | ⟨_, c', hc', hnext⟩ | ⟨hphase, c', hc', hnext⟩⟩
  · rw [hnext]
    exact ⟨h.stuck, h.positive, h.unexpiring⟩
  · rw [hnext]
    refine ⟨h.stuck.mono ?_, h.positive, ?_⟩
    · show (s.calls ++ [c]).countP _ ≤ _
      rw [List.countP_append, List.countP_singleton, checkedOf, hunchecked, Bool.and_false]
      exact Nat.le_refl _
    · intro c' hc'
      rcases List.mem_append.mp hc' with hold | hnew
      · exact h.unexpiring c' hold
      · obtain rfl := List.mem_singleton.mp hnew
        exact fun _ => hphase
  · rw [hnext]
    exact ⟨h.stuck, h.positive, h.unexpiring⟩
  · rw [hnext]
    refine ⟨h.stuck.mono ?_, h.positive, h.unexpiring_set fun _ => hmoves.unexpiring⟩
    refine countP_goes_le (n := 0) hc fun hnew => .inl ?_
    obtain ⟨hof, hchecked⟩ := Bool.and_eq_true_iff.mp hnew
    exact Bool.and_eq_true_iff.mpr ⟨hmoves.isOf ▸ hof, hmoves.checked hchecked⟩
  · rw [hnext]
    have hsame : c'.isOf user eventType = c.isOf user eventType := by
      rcases hc' with rfl | rfl
      · rfl
      · rfl
    cases hof : c.isOf user eventType with
    | false => exact h.other hc hof (hsame.trans hof) _
    | true => exact h.counting hc hof hc'
  · rw [hnext]
    have hsame : c'.isOf user eventType = c.isOf user eventType := by
      rcases hc' with rfl | rfl
      · rfl
      · rfl
    cases hof : c.isOf user eventType with
    | false => exact h.other hc hof (hsame.trans hof) _
    | true => exact absurd hphase (h.unexpiring c (List.mem_of_getElem? hc) hof)

/-- When the counter of a user and a type has no time to go, and no call is about
to set one, then however the calls go on, no more are ever let through by their
count than what the counter has left. -/
theorem never_reset (cfg : NoticeConfig) (before es : List NoticeEvent) (user : Nat) (eventType : Text)
    {counter : Counter}
    (hcounter : (run (next cfg) {} before).counters (rateKey user eventType) = some counter)
    (hexpires : counter.expires = none)
    (hnone : ∀ c ∈ (run (next cfg) {} before).calls, c.isOf user eventType = true → c.phase ≠ .expiring) :
    (run (next cfg) {} (before ++ es)).calls.countP (checkedOf user eventType) ≤
      (run (next cfg) {} before).calls.countP (checkedOf user eventType) +
        (cfg.rateLimit.toNat - counter.value) := by
  have hcounts := counts_run cfg before
  rw [run_append]
  generalize run (Notices.next cfg) {} before = s at *
  have hstart : s.Abandoned cfg user eventType
      (s.calls.countP (checkedOf user eventType) + (cfg.rateLimit.toNat - counter.value)) :=
    ⟨⟨counter, hcounter, hexpires, Nat.le_refl _⟩, hcounts.positive _, hnone⟩
  exact (run_preserves _ (fun _ e h => h.next e) hstart es).stuck.used_le

/-- A worker goes down right after the first `INCR`. -/
def lostExpire : List NoticeEvent := [.notify 1 "insight".toList, .incr 0 .answered, .breakOff 0]

/-- One notification a week. -/
def weekly : List NoticeEvent :=
  (List.range 6).flatMap fun i =>
    [.pass 604800000, .notify 1 "insight".toList, .incr (i + 1) .answered, .load (i + 1), .create (i + 1)]

theorem never_reset_weekly :
    (run (next ⟨true, 5, 60000, true, false⟩) {} (lostExpire ++ weekly)).calls.countP
      (checkedOf 1 "insight".toList) ≤ 4 :=
  never_reset ⟨true, 5, 60000, true, false⟩ lostExpire weekly 1 "insight".toList
    (show _ = some ⟨1, none⟩ from rfl) rfl (by decide)

end Notices

end Eidetic.Limits
