import Eidetic.Cache.Turn
import Eidetic.Lib.TwoRuns

/-!
# One user's data in another user's answers

Two runs that differ only in one user's data are compared by what the cache
serves the others. The cached answers are not the user's: the key names the
request and not who made it, so an answer made from one user's memory is served
to another who asks the same (`sharedQuestion_leaks`). The runs agree as long
as nobody else looks up a key the user has stored under, and the store never
has to make room (`served_of_clear`).

A request is split into its effect: what it is served, the entry that it stores,
and the messages that it leaves (`requestAt_effect`). Two states `Agree` for
everybody but `a` if they have the same clock, the same messages of the others,
and give the same to every later lookup of a key under which `a` has not stored.
A turn of `a` keeps that (`trackedStep_own`), since its effect is on messages
and a key of its own; a turn of anybody else has the same effect in both states
(`trackedStep_other`), as long as it does not look up a key of `a`.

This is the two-run pattern of the library (`TwoRuns`): a relation on pairs of
states that one step in each run keeps, and that gives the same observation. The
condition on a step is `Clear`. That it is needed is the other side: a step that
looks up a key of `a` within the hour is served his answer (`sharedKey_served`).
-/

namespace Eidetic.Cache

open Eidetic.Lib Eidetic.Py Eidetic.Context

/-- The two turns differ at most in the data of the user `a`. -/
def SameBut (a : Nat) (t t' : Turn) : Prop :=
  t' = { t with data := t'.data } ∧ (t.user ≠ a → t' = t)

/-- What the cache serves the users other than `a` in a run. -/
def servedOthers (b : Backend) (a : Nat) (s : State) (turns : List Turn) : List (Option Cached) :=
  observed (chatStream b) (fun t => t.user ≠ a) s turns

/-- The cache keeps the data of `a` from the others, in all runs from all states. -/
def Isolated (b : Backend) (a : Nat) : Prop :=
  ∀ (s : State) (turns turns' : List Turn), List.Forall₂ (SameBut a) turns turns' →
    servedOthers b a s turns = servedOthers b a s turns'

/-! ## What a turn does to the cache -/

/-- What the lookups of a turn find. -/
def seenEarly (b : Backend) (s : State) (t : Turn) : Option Cached :=
  if usesEarly t then s.store.find s.now (earlyKey b s t) else none

def seenStream (b : Backend) (s : State) (t : Turn) : Option Cached :=
  if useCache t then s.store.find s.now (streamKey b s t) else none

/-- The outcome in `generate_stream`. -/
def outcomeOf (b : Backend) (s : State) (t : Turn) : Outcome :=
  match seenStream b s t with
  | some cached => .answered cached.response cached.model
  | none => b.answer t (historyOf s t)

/-- The entry that `generate_stream` stores. -/
def written (b : Backend) (s : State) (t : Turn) : Option Cached :=
  match seenStream b s t, b.answer t (historyOf s t) with
  | none, .answered response model => if useCache t then some ⟨response, model⟩ else none
  | _, _ => none

/-- What a lookup finds after the store of an entry, if one is stored. -/
def findAfter (b : Backend) (s : State) (t : Turn) (entry : Option Cached) (later : Nat)
    (key : Text) : Option Cached :=
  match entry with
  | some payload =>
    if key = streamKey b s t then
      if later > s.now + t.took + 3600 then none else some payload
    else s.store.find later key
  | none => s.store.find later key

theorem generateStream_served (b : Backend) (s : State) (t : Turn) :
    (generateStream b s t).1 = seenStream b s t ∧
      (generateStream b s t).2.1 = outcomeOf b s t := by
  unfold generateStream outcomeOf seenStream Store.get
  split
  next =>
    cases s.store.find s.now (streamKey b s t) with
    | some cached => exact ⟨rfl, rfl⟩
    | none =>
      dsimp only
      split
      next heq => exact ⟨rfl, heq.symm⟩
      next => exact ⟨rfl, rfl⟩
  next => exact ⟨rfl, rfl⟩

theorem generateStream_find {b : Backend} {s : State} (hroom : s.store.Roomy b.mode) (t : Turn)
    {later : Nat} (hlater : s.now ≤ later) (key : Text) :
    (generateStream b s t).2.2.find later key
      = findAfter b s t (written b s t) later key := by
  have hpurge := s.store.find_purge hlater (streamKey b s t) key
  unfold generateStream written seenStream Store.get
  by_cases huse : useCache t = true
  · simp only [huse, if_true]
    cases s.store.find s.now (streamKey b s t) with
    | some cached => exact hpurge
    | none =>
      cases b.answer t (historyOf s t) with
      | answered response model =>
        have hroom' := Store.purge_roomy hroom s.now (streamKey b s t)
        by_cases hkey : key = streamKey b s t
        · simp only [findAfter, hkey, if_true]
          exact Store.find_set_self hroom' ..
        · simp only [findAfter, hkey, if_false]
          rw [Store.find_set_other hroom' _ _ _ hkey]
          exact hpurge
      | asked text => exact hpurge
      | failed note => exact hpurge
  · simp only [huse]
    cases b.answer t (historyOf s t) with
    | answered response model => rfl
    | asked text => rfl
    | failed note => rfl

/-- What a turn is served, the entry it stores, and the messages it leaves. -/
structure Effect where
  served : Option Cached
  written : Option Cached
  messages : Nat → Nat → List StoredMessage

def effect (b : Backend) (s : State) (t : Turn) : Effect :=
  match seenEarly b s t with
  | some cached => ⟨some cached, none, record s t (some cached.response)⟩
  | none =>
    if t.request.compare then ⟨none, none, s.messages⟩
    else ⟨seenStream b s t, written b s t, record s t (persisted b (outcomeOf b s t))⟩

/-- After the early lookup `generate_stream` meets the same cache. -/
theorem afterEarly_eq {b : Backend} {s : State} {store : Store}
    (h : ∀ later, s.now ≤ later → ∀ key, store.find later key = s.store.find later key)
    (t : Turn) :
    seenStream b { s with store } t = seenStream b s t ∧
      outcomeOf b { s with store } t = outcomeOf b s t ∧
      written b { s with store } t = written b s t := by
  have hseen : seenStream b { s with store } t = seenStream b s t := by
    unfold seenStream
    split
    next => exact h s.now (Nat.le_refl _) _
    next => rfl
  refine ⟨hseen, ?_, ?_⟩
  · unfold outcomeOf
    rw [hseen]
    rfl
  · unfold written
    rw [hseen]
    rfl

theorem findAfter_congr {b : Backend} {s : State} {store : Store} {later : Nat} {key : Text}
    (h : store.find later key = s.store.find later key) (t : Turn) (entry : Option Cached) :
    findAfter b { s with store } t entry later key = findAfter b s t entry later key := by
  unfold findAfter
  cases entry with
  | none => exact h
  | some payload =>
    dsimp only
    rw [h]
    rfl

theorem earlyLookup_find (b : Backend) (s : State) (t : Turn) {later : Nat} (h : s.now ≤ later)
    (key : Text) : (earlyLookup b s t).2.find later key = s.store.find later key := by
  unfold earlyLookup
  split
  next => exact s.store.find_purge h _ key
  next => rfl

theorem earlyLookup_roomy {b : Backend} {s : State} (h : s.store.Roomy b.mode) (t : Turn) :
    (earlyLookup b s t).2.Roomy b.mode := by
  unfold earlyLookup
  split
  next => exact Store.purge_roomy h _ _
  next => exact h

theorem earlyLookup_seen (b : Backend) (s : State) (t : Turn) :
    (earlyLookup b s t).1 = seenEarly b s t := by
  unfold earlyLookup seenEarly
  split
  next => rfl
  next => rfl

/-- A request is its effect: what it is served, what it leaves, and what a
later lookup finds. -/
theorem requestAt_effect {b : Backend} {s : State} (hroom : s.store.Roomy b.mode) (t : Turn) :
    (requestAt b s t).2 = (effect b s t).served ∧
      (requestAt b s t).1.now = s.now + t.took ∧
      (requestAt b s t).1.messages = (effect b s t).messages ∧
      ∀ later, s.now ≤ later → ∀ key, (requestAt b s t).1.store.find later key
        = findAfter b s t (effect b s t).written later key := by
  have hseen := earlyLookup_seen b s t
  have hfind := fun later (h : s.now ≤ later) key => earlyLookup_find b s t h key
  have hroom' := earlyLookup_roomy hroom t
  unfold requestAt effect
  cases hlookup : earlyLookup b s t with | mk found store
  rw [hlookup] at hseen hfind hroom'
  rw [← hseen]
  cases found with
  | some cached => exact ⟨rfl, rfl, rfl, hfind⟩
  | none =>
    dsimp only
    -- past the early lookup, only `generate_stream` touches the store again
    by_cases hcompare : t.request.compare = true
    · rw [if_pos hcompare, if_pos hcompare]
      exact ⟨rfl, rfl, rfl, hfind⟩
    · rw [if_neg hcompare, if_neg hcompare]
      obtain ⟨hserved, houtcome⟩ := generateStream_served b { s with store } t
      obtain ⟨hseen', houtcome', hwritten⟩ := afterEarly_eq hfind t (b := b)
      have hstore := fun later (h : s.now ≤ later) key =>
        generateStream_find (s := { s with store }) hroom' t h key
      refine ⟨by rw [← hseen']; exact hserved, rfl, ?_, ?_⟩
      · show record s t (persisted b (generateStream b { s with store } t).2.1) = _
        rw [houtcome, houtcome']
      · intro later h key
        rw [← hwritten, ← findAfter_congr (hfind later h key)]
        exact hstore later h key

/-! ## Two runs -/

/-- The state with the keys under which `a` may have stored an answer so far. -/
structure Tracked where
  state : State
  keys : List Text

def trackedStep (b : Backend) (a : Nat) (x : Tracked) (t : Turn) : Tracked × Option Cached :=
  (⟨(chatStream b x.state t).1,
    if t.user = a ∧ useCache t then streamKey b x.state t :: x.keys else x.keys⟩,
    (chatStream b x.state t).2)

/-- The state with its keys after a turn. -/
def trackedNext (b : Backend) (a : Nat) (x : Tracked) (t : Turn) : Tracked :=
  (trackedStep b a x t).1

/-- The condition on a step: the store has room, and nobody but `a` looks up a
key that `a` may have stored under. -/
def Clear (b : Backend) (a : Nat) (x : Tracked) (t : Turn) : Prop :=
  x.state.store.Roomy b.mode ∧
    (t.user ≠ a → (usesEarly t = true → earlyKey b x.state t ∉ x.keys) ∧
      (useCache t = true → streamKey b x.state t ∉ x.keys))

/-- Two states agree for everybody but `a`. -/
structure Agree (a : Nat) (x x' : Tracked) : Prop where
  now : x.state.now = x'.state.now
  messages : ∀ user, user ≠ a → ∀ c, x.state.messages user c = x'.state.messages user c
  store : ∀ key, key ∉ x.keys → key ∉ x'.keys → ∀ later, x.state.now ≤ later →
    x.state.store.find later key = x'.state.store.find later key

theorem record_other {s : State} {t : Turn} {user : Nat} (h : user ≠ t.user) (reply : Option Text)
    (c : Nat) : record s t reply user c = s.messages user c := by
  unfold record
  rw [if_neg fun hboth => h hboth.1]

theorem effect_messages_other (b : Backend) (s : State) {t : Turn} {user : Nat}
    (h : user ≠ t.user) (c : Nat) : (effect b s t).messages user c = s.messages user c := by
  unfold effect
  split
  next cached _ => exact record_other h (some cached.response) c
  next =>
    split
    next => rfl
    next => exact record_other h (persisted b (outcomeOf b s t)) c

/-- Only its own key shows what a turn has stored. -/
theorem findAfter_foreign (b : Backend) (s : State) (t : Turn) {key : Text}
    (h : useCache t = true → key ≠ streamKey b s t) (later : Nat) :
    findAfter b s t (effect b s t).written later key = s.store.find later key := by
  by_cases huse : useCache t = true
  · unfold findAfter
    split
    next => rw [if_neg (h huse)]
    next => rfl
  · have hnone : (effect b s t).written = none := by
      unfold effect written
      split
      next => rfl
      next =>
        split
        next => rfl
        next =>
          dsimp only
          split
          next => rfl
          next => rfl
    rw [hnone]
    rfl

/-- A turn has the same effect on states with the same conversation, in which
its lookups find the same. -/
theorem effect_congr {b : Backend} {s s' : State} {t : Turn}
    (hconv : s.messages t.user t.conversation.id = s'.messages t.user t.conversation.id)
    (hearly : seenEarly b s t = seenEarly b s' t) (hstream : seenStream b s t = seenStream b s' t) :
    (effect b s t).served = (effect b s' t).served ∧
      (effect b s t).written = (effect b s' t).written ∧
      ∀ user c, s.messages user c = s'.messages user c →
        (effect b s t).messages user c = (effect b s' t).messages user c := by
  have hhistory : historyOf s t = historyOf s' t := by
    unfold historyOf
    rw [hconv]
  have houtcome : outcomeOf b s t = outcomeOf b s' t := by
    unfold outcomeOf
    rw [hstream, hhistory]
  have hwritten : written b s t = written b s' t := by
    unfold written
    rw [hstream, hhistory]
  have hrecord : ∀ reply user c, s.messages user c = s'.messages user c →
      record s t reply user c = record s' t reply user c := by
    intro reply user c h
    unfold record
    rw [h]
  unfold effect
  rw [hearly, hstream, houtcome, hwritten]
  split
  next cached _ => exact ⟨rfl, rfl, hrecord (some cached.response)⟩
  next =>
    split
    next => exact ⟨rfl, rfl, fun _ _ h => h⟩
    next => exact ⟨rfl, rfl, hrecord (persisted b (outcomeOf b s' t))⟩

theorem trackedStep_effect {b : Backend} {x : Tracked} {t : Turn} {a : Nat}
    (hclear : Clear b a x t) :
    (trackedStep b a x t).2 = (effect b (x.state.at t) t).served ∧
      (trackedStep b a x t).1.state.now = x.state.now + t.elapsed + t.took ∧
      (trackedStep b a x t).1.state.messages = (effect b (x.state.at t) t).messages ∧
      ∀ later, x.state.now + t.elapsed ≤ later → ∀ key,
        (trackedStep b a x t).1.state.store.find later key
          = findAfter b (x.state.at t) t (effect b (x.state.at t) t).written later key :=
  requestAt_effect (s := x.state.at t) hclear.1 t

/-- A turn of `a` changes nothing that the others can tell. -/
theorem trackedStep_own {b : Backend} {x : Tracked} {t : Turn} {a : Nat} (hclear : Clear b a x t)
    (hown : t.user = a) :
    (∀ user, user ≠ a → ∀ c,
      (trackedStep b a x t).1.state.messages user c = x.state.messages user c) ∧
    ∀ key, key ∉ (trackedStep b a x t).1.keys → key ∉ x.keys ∧
      ∀ later, x.state.now + t.elapsed ≤ later →
        (trackedStep b a x t).1.state.store.find later key = x.state.store.find later key := by
  obtain ⟨_, _, hmessages, hfind⟩ := trackedStep_effect hclear
  constructor
  · intro user huser c
    rw [hmessages]
    exact effect_messages_other b _ (by rw [hown]; exact huser) c
  · intro key hkey
    have hold : key ∉ x.keys ∧ (useCache t = true → key ≠ streamKey b x.state t) := by
      unfold trackedStep at hkey
      dsimp only at hkey
      split at hkey
      next =>
        rw [List.mem_cons, not_or] at hkey
        exact ⟨hkey.2, fun _ => hkey.1⟩
      next hnot => exact ⟨hkey, fun huse => absurd ⟨hown, huse⟩ hnot⟩
    refine ⟨hold.1, ?_⟩
    intro later hlater
    rw [hfind later hlater]
    exact findAfter_foreign b (x.state.at t) t hold.2 later

/-- A turn of anybody else is served the same in states that agree, and the
states still agree. -/
theorem trackedStep_other {b : Backend} {x x' : Tracked} {t : Turn} {a : Nat}
    (h : Agree a x x') (hclear : Clear b a x t) (hclear' : Clear b a x' t) (hother : t.user ≠ a) :
    Agree a (trackedStep b a x t).1 (trackedStep b a x' t).1 ∧
      (trackedStep b a x t).2 = (trackedStep b a x' t).2 := by
  obtain ⟨hserved, hnow, hmessages, hfind⟩ := trackedStep_effect hclear
  obtain ⟨hserved', hnow', hmessages', hfind'⟩ := trackedStep_effect hclear'
  have hconv := h.messages t.user hother t.conversation.id
  have hearlyKey : earlyKey b x.state t = earlyKey b x'.state t := by
    unfold earlyKey
    rw [hconv]
  have hstreamKey : streamKey b x.state t = streamKey b x'.state t := by
    unfold streamKey historyOf
    rw [hconv]
  -- the lookups ask for the same keys, and neither is one of `a`
  have hearly : seenEarly b (x.state.at t) t = seenEarly b (x'.state.at t) t := by
    unfold seenEarly
    split
    next huse =>
      show x.state.store.find (x.state.now + t.elapsed) (earlyKey b x.state t)
        = x'.state.store.find (x'.state.now + t.elapsed) (earlyKey b x'.state t)
      have hkey := (hclear.2 hother).1 huse
      have hkey' := (hclear'.2 hother).1 huse
      rw [hearlyKey] at hkey ⊢
      rw [← h.now]
      exact h.store _ hkey hkey' _ (Nat.le_add_right _ _)
    next => rfl
  have hstream : seenStream b (x.state.at t) t = seenStream b (x'.state.at t) t := by
    unfold seenStream
    split
    next huse =>
      show x.state.store.find (x.state.now + t.elapsed) (streamKey b x.state t)
        = x'.state.store.find (x'.state.now + t.elapsed) (streamKey b x'.state t)
      have hkey := (hclear.2 hother).2 huse
      have hkey' := (hclear'.2 hother).2 huse
      rw [hstreamKey] at hkey ⊢
      rw [← h.now]
      exact h.store _ hkey hkey' _ (Nat.le_add_right _ _)
    next => rfl
  have hconvAt : (x.state.at t).messages t.user t.conversation.id
      = (x'.state.at t).messages t.user t.conversation.id := hconv
  obtain ⟨heffServed, heffWritten, heffMessages⟩ := effect_congr hconvAt hearly hstream
  have hkeys : ∀ y : Tracked, (trackedStep b a y t).1.keys = y.keys := by
    intro y
    show (if t.user = a ∧ useCache t then _ else y.keys) = y.keys
    rw [if_neg fun hboth => hother hboth.1]
  refine ⟨⟨by rw [hnow, hnow', h.now], ?_, ?_⟩, by rw [hserved, hserved', heffServed]⟩
  · intro user huser c
    rw [hmessages, hmessages']
    exact heffMessages user c (h.messages user huser c)
  · intro key hkey hkey' later hlater
    rw [hkeys] at hkey hkey'
    rw [hnow] at hlater
    have hfind := hfind later (by omega) key
    have hfind' := hfind' later (by rw [← h.now]; omega) key
    rw [hfind, hfind', heffWritten]
    unfold findAfter
    rw [show streamKey b (x.state.at t) t = streamKey b (x'.state.at t) t from hstreamKey,
      show (x.state.at t).now = (x'.state.at t).now from congrArg (· + t.elapsed) h.now,
      show (x.state.at t).store.find later key = (x'.state.at t).store.find later key from
        h.store key hkey hkey' later (by omega)]

/-- One turn in each run. -/
theorem agree_step {b : Backend} {a : Nat} (x x' : Tracked) (t t' : Turn) (h : Agree a x x')
    (hsame : SameBut a t t') (hclear : Clear b a x t) (hclear' : Clear b a x' t') :
    Agree a (trackedStep b a x t).1 (trackedStep b a x' t').1 ∧
      decide (t.user ≠ a) = decide (t'.user ≠ a) ∧
      (decide (t.user ≠ a) = true → (trackedStep b a x t).2 = (trackedStep b a x' t').2) := by
  obtain ⟨hdata, hothers⟩ := hsame
  have huser : t'.user = t.user := by rw [hdata]
  by_cases hown : t.user = a
  · -- whatever the two turns of `a` do, neither is seen by the others
    obtain ⟨hmessages, hstore⟩ := trackedStep_own hclear hown
    obtain ⟨hmessages', hstore'⟩ := trackedStep_own hclear' (huser.trans hown)
    have hnow := (trackedStep_effect hclear).2.1
    have hnow' := (trackedStep_effect hclear').2.1
    have helapsed : t'.elapsed = t.elapsed ∧ t'.took = t.took := by
      rw [hdata]
      exact ⟨rfl, rfl⟩
    rw [helapsed.1, helapsed.2, ← h.now] at hnow'
    refine ⟨⟨by rw [hnow, hnow'], ?_, ?_⟩, by rw [huser],
      fun hvisible => absurd hown (by simpa using hvisible)⟩
    · intro user hne c
      rw [hmessages user hne, hmessages' user hne]
      exact h.messages user hne c
    · intro key hkey hkey' later hlater
      obtain ⟨hold, hfind⟩ := hstore key hkey
      obtain ⟨hold', hfind'⟩ := hstore' key hkey'
      rw [hnow] at hlater
      rw [hfind later (by omega), hfind' later (by rw [helapsed.1, ← h.now]; omega)]
      exact h.store key hold hold' later (by omega)
  · -- anybody else's turn is the same in both runs
    rw [hothers hown] at hclear' ⊢
    obtain ⟨hagree, hserved⟩ := trackedStep_other h hclear hclear' hown
    exact ⟨hagree, rfl, fun _ => hserved⟩

theorem observed_tracked (b : Backend) (a : Nat) (visible : Turn → Bool) (x : Tracked)
    (turns : List Turn) :
    observed (trackedStep b a) visible x turns = observed (chatStream b) visible x.state turns := by
  induction turns generalizing x with
  | nil => rfl
  | cons t turns ih =>
    unfold observed
    rw [ih]
    rfl

/-- When every step of both runs is clear, the cache serves the others the
same in both, whatever the data of `a`. -/
theorem served_of_clear (b : Backend) (a : Nat) (s : State) {turns turns' : List Turn}
    (hsame : List.Forall₂ (SameBut a) turns turns')
    (hclear : Throughout (trackedNext b a) (Clear b a) ⟨s, []⟩ turns)
    (hclear' : Throughout (trackedNext b a) (Clear b a) ⟨s, []⟩ turns') :
    servedOthers b a s turns = servedOthers b a s turns' := by
  have hstart : Agree a ⟨s, []⟩ ⟨s, []⟩ := ⟨rfl, fun _ _ _ => rfl, fun _ _ _ _ _ => rfl⟩
  unfold servedOthers
  rw [← observed_tracked b a _ ⟨s, []⟩, ← observed_tracked b a _ ⟨s, []⟩]
  exact observed_eq agree_step hsame hstart hclear hclear'

/-- What the early lookup finds is served. -/
theorem requestAt_early {b : Backend} {s : State} {t : Turn} {cached : Cached}
    (h : seenEarly b s t = some cached) : (requestAt b s t).2 = some cached := by
  rw [← earlyLookup_seen] at h
  unfold requestAt
  cases hlookup : earlyLookup b s t with | mk found store
  rw [hlookup] at h
  rw [show found = some cached from h]

/-- A step that is not clear leaks: whoever looks up the key within the hour is
served the very answer that was made from the other user's data. -/
theorem sharedKey_served {b : Backend} {s : State} (hroom : s.store.Roomy b.mode) {t u : Turn}
    {payload : Cached} (hwritten : (effect b (s.at t) t).written = some payload)
    (hearly : usesEarly u = true) (hkey : earlyKey b (chatStream b s t).1 u = streamKey b s t)
    (hsoon : u.elapsed ≤ 3600) :
    (chatStream b (chatStream b s t).1 u).2 = some payload := by
  obtain ⟨_, hnow, _, hfind⟩ := requestAt_effect (s := s.at t) hroom t
  have hafter : (chatStream b s t).1 = (requestAt b (s.at t) t).1 := rfl
  rw [hafter] at hkey ⊢
  generalize (requestAt b (s.at t) t).1 = s' at hkey hnow hfind
  refine requestAt_early ?_
  unfold seenEarly
  rw [if_pos hearly]
  show s'.store.find (s'.now + u.elapsed) (earlyKey b s' u) = some payload
  rw [hkey, hfind _ (by omega), hwritten]
  unfold findAfter
  dsimp only
  rw [if_pos (show streamKey b s t = streamKey b (s.at t) t from rfl), if_neg (by omega)]

/-- A backend whose models repeat the user's memory, with Redis. -/
def recalling : Backend where
  hashing := ⟨List.map Char.toLower, id⟩
  mode := .redis
  answer t _ := .answered t.data.memorySheet "llama".toList
  compressToolDumps := id

/-- Nothing cached, nobody has written anything. -/
def freshState : State := ⟨0, [], fun _ _ => []⟩

/-- A first message in a new conversation. -/
def ask (user : Nat) (message sheet : String) : Turn where
  user := user
  request := { message := message.toList }
  conversation := { id := user }
  data := { memorySheet := sheet.toList }

theorem ask_sameBut (a user : Nat) (message sheet sheet' : String) (h : user = a) :
    SameBut a (ask user message sheet) (ask user message sheet') :=
  ⟨rfl, fun hne => absurd h hne⟩

theorem clear_redis (a : Nat) {x : Tracked} {t : Turn}
    (h : t.user ≠ a → (usesEarly t = true → earlyKey recalling x.state t ∉ x.keys) ∧
      (useCache t = true → streamKey recalling x.state t ∉ x.keys)) : Clear recalling a x t :=
  ⟨fun _ hsize => absurd hsize (by simp [Mode.maxSize, recalling]), h⟩

/-- With different questions the second user is answered from their own memory. -/
theorem differentQuestions_served :
    servedOthers recalling 0 freshState [ask 0 "Where do I live?" "Oslo", ask 1 "Who am I?" "Kim"]
      = servedOthers recalling 0 freshState
        [ask 0 "Where do I live?" "Rome", ask 1 "Who am I?" "Kim"] := by
  refine served_of_clear recalling 0 freshState
    (.cons (ask_sameBut 0 0 _ _ _ rfl) (.cons ⟨rfl, fun _ => rfl⟩ .nil)) ?_ ?_
  · exact ⟨clear_redis 0 fun h => absurd rfl h,
      clear_redis 0 fun _ => ⟨fun _ => by decide, fun _ => by decide⟩, trivial⟩
  · exact ⟨clear_redis 0 fun h => absurd rfl h,
      clear_redis 0 fun _ => ⟨fun _ => by decide, fun _ => by decide⟩, trivial⟩

/-- With the same question the second user is told where the first one lives. -/
theorem sharedQuestion_leaks : ¬ Isolated recalling 0 := by
  intro h
  have hserved := h freshState
    [ask 0 "Where do I live?" "Oslo", ask 1 "Where do I live?" "Kyiv"]
    [ask 0 "Where do I live?" "Rome", ask 1 "Where do I live?" "Kyiv"]
    (.cons (ask_sameBut 0 0 _ _ _ rfl) (.cons ⟨rfl, fun _ => rfl⟩ .nil))
  exact absurd hserved (by decide)

end Eidetic.Cache
