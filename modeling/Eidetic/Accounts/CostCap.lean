import Eidetic.Accounts.Demo
import Eidetic.Lib.Admission
import Eidetic.Lib.CacheAside

/-!
# Caps on what users spend

`_check_cost_cap` before each call that costs, and the message that tells its
cost when it is over: the check adds up messages, so what is in flight is not
in its sum. For the accounts of the demo pool there is a second check, whose sum
is kept in Redis for half a minute.

What a user has spent in the window passes the limit by no more than what the
calls cost that can be in flight together (`userSpend_le`), and what the pool has
spent by what those cost that are in flight or were recorded since the sum was
read (`poolSpend_le`).

Both bounds are instances of the library. A check that adds up what is recorded
and lets calls in that are recorded later is an `Admission`: `spentBy_next` and
`flying_next` say what one step does to what is spent and to what is in flight.
The second sum comes through a cache, so `poolSpec` is a caller of a
`CacheAside`, and the sum that a request has is what the pool had spent at some
moment not too long ago (`exists_poolTotal`); the calls recorded since are those
of `recordedWithin`.

Costs and sums are rationals here. What a call costs is bounded by a hypothesis
(`CostsAtMost`), since the check knows nothing of the call that it lets through:
the bounds are in terms of how many calls are in flight.
-/

namespace Eidetic.Accounts

open Eidetic.Lib Eidetic.Py

/-- What the check reads of a user; a window is in milliseconds. -/
structure CapUser where
  username : Text
  costLimitUsd : Option ℚ≥0
  costWindow : Option Nat

/-- The users, and whose each request is. -/
structure CapWorld where
  demo : DemoConfig
  users : Nat → CapUser
  owner : Nat → Nat

/-- The messages, and the requests that are let in and neither recorded nor
given up. -/
structure Ledger where
  messages : List ChatMessage := []
  nextPlace : Nat := 0
  inFlight : List Nat := []

/-- `created_at >= cutoff`, if there is one. -/
def inWindow (window : Option Nat) (t : Nat) (m : ChatMessage) : Bool :=
  window.all fun w => decide (t - w ≤ m.createdAt)

/-- The costs of assistants' messages of some users in a window that ends at a time. -/
def spendOf (who : Nat → Bool) (window : Option Nat) (t : Nat) (messages : List ChatMessage) : ℚ≥0 :=
  sumOver ChatMessage.cost (fun m => who m.user && m.assistant && inWindow window t m) messages

/-- The `total` of `_check_cost_cap`. -/
def userSpend (w : CapWorld) (user t : Nat) (messages : List ChatMessage) : ℚ≥0 :=
  spendOf (fun u => u = user) (w.users user).costWindow t messages

/-- `User.username.like(r"demo\_%")`. -/
def inPool (w : CapWorld) (user : Nat) : Bool := like '\\' demoPattern (w.users user).username

/-- The query of `pool_spend_usd`. -/
def poolTotal (w : CapWorld) (t : Nat) (messages : List ChatMessage) : ℚ≥0 :=
  spendOf (inPool w) (some w.demo.globalWindow) t messages

/-- `pool_spend_usd`, as a caller of a cache; `_POOL_CACHE_TTL`, in milliseconds. -/
def poolSpec (w : CapWorld) : AsideSpec Ledger Unit Unit ℚ≥0 where
  key _ := ()
  worth _ := true
  ask t ledger _ := some (poolTotal w t ledger.messages)
  ttl := 30000

abbrev CapState := Aside Ledger Unit Unit ℚ≥0

def CapState.start : CapState := AsideSpec.start {}

/-- The first check, for an account of the pool: the sum is below the cap. -/
def poolChecked (w : CapWorld) (s : CapState) (request : Nat) : Bool :=
  if w.demo.ephemeralEnabled && isEphemeralDemo (w.users (w.owner request)).username then
    match s.call request with
    | .done _ (some total) _ => decide (total < w.demo.globalCapUsd)
    | _ => false
  else true

/-- The second check. -/
def userChecked (w : CapWorld) (s : CapState) (request : Nat) : Bool :=
  let user := w.owner request
  (w.users user).costLimitUsd.all fun limit =>
    decide (userSpend w user s.now s.store.messages < limit)

/-- `_check_cost_cap` lets a request through. -/
def letsThrough (w : CapWorld) (s : CapState) (request : Nat) : Bool :=
  poolChecked w s request && userChecked w s request

inductive CapInput
  | pass (d : Nat)
  /-- The read of the sum in Redis, its query, and its write. -/
  | look (request : Nat) (reached : Bool)
  | query (request : Nat) (answered : Bool)
  | put (request : Nat) (taken : Bool)
  /-- The rest of `_check_cost_cap`. -/
  | check (request : Nat)
  /-- The message of a call, whose transaction has begun at some time. -/
  | record (request : Nat) (costUsd : ℚ≥0) (begun : Nat)
  /-- A call that ends without one. -/
  | drop (request : Nat)
  /-- A message that costs nothing. -/
  | note (user : Nat) (assistant : Bool) (begun : Nat)
  /-- Messages are deleted, with their conversation or their user. -/
  | delete (gone : ChatMessage → Bool)

def Ledger.add (l : Ledger) (user : Nat) (assistant : Bool) (costUsd : Option ℚ≥0) (begun : Nat) :
    Ledger :=
  { l with
    messages := ⟨user, assistant, costUsd, begun, l.nextPlace⟩ :: l.messages
    nextPlace := l.nextPlace + 1 }

/-- The steps of the cache that an input makes. -/
def capSteps (w : CapWorld) (s : CapState) : CapInput → List (AsideInput Ledger Unit Unit)
  | .pass d => [.pass d]
  | .look request reached => [.look request () reached]
  | .query request answered => [.read request answered]
  | .put request taken => [.put request taken]
  | .check request =>
    if letsThrough w s request ∧ request ∉ s.store.inFlight then
      [.change { s.store with inFlight := request :: s.store.inFlight }]
    else []
  | .record request costUsd begun =>
    if request ∈ s.store.inFlight ∧ begun ≤ s.now then
      let l := s.store.add (w.owner request) true (some costUsd) begun
      [.change { l with inFlight := l.inFlight.erase request }]
    else []
  | .drop request => [.change { s.store with inFlight := s.store.inFlight.erase request }]
  | .note user assistant begun => [.change (s.store.add user assistant none begun)]
  | .delete gone => [.change { s.store with messages := s.store.messages.filter fun m => !gone m }]

def capNext (w : CapWorld) : CapState → CapInput → CapState :=
  through (poolSpec w).next (capSteps w)

/-! ## One step -/

variable {w : CapWorld} {s : CapState} {who : Nat → Bool} {window : Option Nat} {c : ℚ≥0}

/-- What some users have spent in a window. -/
def spentBy (who : Nat → Bool) (window : Option Nat) (s : CapState) : ℚ≥0 :=
  spendOf who window s.now s.store.messages

/-- The requests in flight of some users. -/
def flying (w : CapWorld) (who : Nat → Bool) (s : CapState) : Nat :=
  s.store.inFlight.countP fun request => who (w.owner request)

/-- A request of some users is let in. -/
def admitsOf (w : CapWorld) (who : Nat → Bool) (s : CapState) : CapInput → Bool
  | .check request =>
    who (w.owner request) && (letsThrough w s request && decide (request ∉ s.store.inFlight))
  | _ => false

/-- A call of some users is recorded. -/
def recordsOf (w : CapWorld) (who : Nat → Bool) (s : CapState) : CapInput → Bool
  | .record request _ begun =>
    who (w.owner request) && (decide (request ∈ s.store.inFlight) && decide (begun ≤ s.now))
  | _ => false

/-- A call costs no more than `c`. -/
def CostsAtMost (c : ℚ≥0) (i : CapInput) : Prop :=
  ∀ request costUsd begun, i = .record request costUsd begun → costUsd ≤ c

theorem inWindow_of_later {m : ChatMessage} {t d : Nat} (h : inWindow window (t + d) m = true) :
    inWindow window t m = true := by
  cases window with
  | none => rfl
  | some width =>
    have hle : t + d - width ≤ m.createdAt := of_decide_eq_true h
    exact decide_eq_true (by omega)

theorem spendOf_le {t d : Nat} {l l' : List ChatMessage} (hl : l.Sublist l') :
    spendOf who window (t + d) l ≤ spendOf who window t l' := by
  refine sumOver_le hl fun m _ hcounts => ?_
  obtain ⟨hwho, hwindow⟩ := Bool.and_eq_true_iff.mp hcounts
  exact Bool.and_eq_true_iff.mpr ⟨hwho, inWindow_of_later hwindow⟩

theorem spendOf_add (t : Nat) (l : Ledger) (user : Nat) (assistant : Bool) (costUsd : Option ℚ≥0)
    (begun : Nat) :
    spendOf who window t (l.add user assistant costUsd begun).messages ≤
      spendOf who window t l.messages + if who user then costUsd.getD 0 else 0 := by
  unfold spendOf Ledger.add
  rw [sumOver_cons, add_comm]
  refine add_le_add (le_refl _) ?_
  dsimp only
  cases who user with
  | false => exact le_refl _
  | true =>
    rw [Bool.true_and]
    split
    next => exact le_refl _
    next => exact zero_le

/-- What an input leaves of the messages and the requests in flight. -/
def ledgerAfter (w : CapWorld) (s : CapState) : CapInput → Ledger
  | .check request =>
    if letsThrough w s request ∧ request ∉ s.store.inFlight then
      { s.store with inFlight := request :: s.store.inFlight }
    else s.store
  | .record request costUsd begun =>
    if request ∈ s.store.inFlight ∧ begun ≤ s.now then
      let l := s.store.add (w.owner request) true (some costUsd) begun
      { l with inFlight := l.inFlight.erase request }
    else s.store
  | .drop request => { s.store with inFlight := s.store.inFlight.erase request }
  | .note user assistant begun => s.store.add user assistant none begun
  | .delete gone => { s.store with messages := s.store.messages.filter fun m => !gone m }
  | _ => s.store

def passed : CapInput → Nat
  | .pass d => d
  | _ => 0

theorem capNext_fields (i : CapInput) :
    (capNext w s i).store = ledgerAfter w s i ∧ (capNext w s i).now = s.now + passed i := by
  unfold capNext through
  cases i with
  | pass d => exact ⟨rfl, rfl⟩
  | look request reached => exact AsideSpec.store_next (i := .look request () reached) nofun nofun
  | query request answered => exact AsideSpec.store_next (i := .read request answered) nofun nofun
  | put request taken => exact AsideSpec.store_next (i := .put request taken) nofun nofun
  | check request =>
    dsimp only [capSteps, ledgerAfter]
    split
    next => exact ⟨rfl, rfl⟩
    next => exact ⟨rfl, rfl⟩
  | record request costUsd begun =>
    dsimp only [capSteps, ledgerAfter]
    split
    next => exact ⟨rfl, rfl⟩
    next => exact ⟨rfl, rfl⟩
  | drop request => exact ⟨rfl, rfl⟩
  | note user assistant begun => exact ⟨rfl, rfl⟩
  | delete gone => exact ⟨rfl, rfl⟩

theorem admitsOf_check {request : Nat} (h : letsThrough w s request = true ∧ request ∉ s.store.inFlight) :
    admitsOf w who s (.check request) = who (w.owner request) := by
  show (who (w.owner request) && (letsThrough w s request && decide (request ∉ s.store.inFlight))) = _
  rw [h.1, decide_eq_true h.2, Bool.and_true, Bool.and_true]

theorem recordsOf_record {request begun : Nat} (costUsd : ℚ≥0)
    (h : request ∈ s.store.inFlight ∧ begun ≤ s.now) :
    recordsOf w who s (.record request costUsd begun) = who (w.owner request) := by
  show (who (w.owner request) && (decide (request ∈ s.store.inFlight) && decide (begun ≤ s.now))) = _
  rw [decide_eq_true h.1, decide_eq_true h.2, Bool.and_true, Bool.and_true]

theorem recordsOf_of_not {request begun : Nat} (costUsd : ℚ≥0)
    (h : ¬ (request ∈ s.store.inFlight ∧ begun ≤ s.now)) :
    recordsOf w who s (.record request costUsd begun) = false := by
  show (who (w.owner request) && (decide (request ∈ s.store.inFlight) && decide (begun ≤ s.now))) = _
  rw [← Bool.decide_and, decide_eq_false h, Bool.and_false]

theorem spentBy_next {i : CapInput} (hcost : CostsAtMost c i) :
    spentBy who window (capNext w s i) ≤
      spentBy who window s + (if recordsOf w who s i then 1 else 0) • c := by
  obtain ⟨hstore, hnow⟩ := capNext_fields (w := w) (s := s) i
  -- deletions and time only lower the sum: rows go, and rows leave the window
  have hquiet : ∀ {l : List ChatMessage} {d : Nat}, l.Sublist s.store.messages →
      spendOf who window (s.now + d) l ≤
        spentBy who window s + (if recordsOf w who s i then 1 else 0) • c :=
    fun hl => (spendOf_le hl).trans (le_add_of_nonneg_right zero_le)
  unfold spentBy at *
  rw [hstore, hnow]
  cases i with
  | pass d => exact hquiet (List.Sublist.refl _)
  | look request reached => exact hquiet (List.Sublist.refl _)
  | query request answered => exact hquiet (List.Sublist.refl _)
  | put request taken => exact hquiet (List.Sublist.refl _)
  | check request =>
    dsimp only [ledgerAfter]
    split
    next => exact hquiet (List.Sublist.refl _)
    next => exact hquiet (List.Sublist.refl _)
  | record request costUsd begun =>
    dsimp only [ledgerAfter]
    split
    next h =>
      -- only a recorded answer adds to it, and no more than the call's cost
      refine (spendOf_add s.now s.store (w.owner request) true (some costUsd) begun).trans ?_
      refine add_le_add (le_refl _) ?_
      rw [recordsOf_record costUsd h]
      show (if who (w.owner request) then costUsd else 0) ≤ _
      split
      next =>
        rw [one_nsmul]
        exact hcost request costUsd begun rfl
      next => exact zero_le
    next => exact hquiet (List.Sublist.refl _)
  | drop request => exact hquiet (List.Sublist.refl _)
  | note user assistant begun =>
    refine (spendOf_add s.now s.store user assistant none begun).trans ?_
    refine add_le_add (le_refl _) ?_
    rw [Option.getD_none, ite_self]
    exact zero_le
  | delete gone => exact hquiet List.filter_sublist

theorem flying_next (i : CapInput) :
    flying w who (capNext w s i) + (if recordsOf w who s i then 1 else 0) ≤
      flying w who s + if admitsOf w who s i then 1 else 0 := by
  obtain ⟨hstore, _⟩ := capNext_fields (w := w) (s := s) i
  unfold flying
  rw [hstore]
  cases i with
  | pass d => exact Nat.le_refl _
  | look request reached => exact Nat.le_refl _
  | query request answered => exact Nat.le_refl _
  | put request taken => exact Nat.le_refl _
  | check request =>
    dsimp only [ledgerAfter]
    split
    next h =>
      rw [admitsOf_check h, List.countP_cons]
      exact Nat.le_refl _
    next => exact Nat.le_add_right _ _
  | record request costUsd begun =>
    dsimp only [ledgerAfter]
    split
    next h =>
      have hperm := (List.perm_cons_erase h.1).countP_eq fun request => who (w.owner request)
      rw [List.countP_cons] at hperm
      rw [recordsOf_record costUsd h, hperm]
      exact Nat.le_refl _
    next h =>
      -- nothing is recorded for a request that is not in flight
      rw [recordsOf_of_not costUsd h]
      exact Nat.le_refl _
  | drop request => exact List.Sublist.countP_le List.erase_sublist
  | note user assistant begun => exact Nat.le_refl _
  | delete gone => exact Nat.le_refl _

/-- The check lets calls in, and records tell what they cost. -/
theorem admission (w : CapWorld) (who : Nat → Bool) (window : Option Nat) (c : ℚ≥0) :
    Admission (capNext w) (spentBy who window) (flying w who) (admitsOf w who) (recordsOf w who) c
      fun _ i => CostsAtMost c i where
  cost_nonneg := zero_le
  spend_next _ _ := spentBy_next
  inFlight_next _ i _ := flying_next i

theorem spend_start (who : Nat → Bool) (window : Option Nat) (c b : ℚ≥0) :
    spentBy who window CapState.start + flying w who CapState.start • c ≤ b := by
  show (0 : ℚ≥0) + 0 • c ≤ b
  rw [zero_nsmul, add_zero]
  exact zero_le

theorem of_admitsOf {i : CapInput} (h : admitsOf w who s i = true) :
    ∃ request, i = .check request ∧ who (w.owner request) = true ∧
      letsThrough w s request = true ∧ request ∉ s.store.inFlight := by
  cases i with
  | check request =>
    obtain ⟨hwho, hrest⟩ := Bool.and_eq_true_iff.mp h
    obtain ⟨hlets, hnew⟩ := Bool.and_eq_true_iff.mp hrest
    exact ⟨request, rfl, hwho, hlets, of_decide_eq_true hnew⟩
  | pass d => cases h
  | look request reached => cases h
  | query request answered => cases h
  | put request taken => cases h
  | record request costUsd begun => cases h
  | drop request => cases h
  | note user assistant begun => cases h
  | delete gone => cases h

theorem flying_of_admitsOf {i : CapInput} (h : admitsOf w who s i = true) :
    flying w who (capNext w s i) = flying w who s + 1 := by
  obtain ⟨request, rfl, hwho, hlets⟩ := of_admitsOf h
  obtain ⟨hstore, _⟩ := capNext_fields (w := w) (s := s) (.check request)
  unfold flying
  rw [hstore]
  dsimp only [ledgerAfter]
  rw [if_pos hlets, List.countP_cons, if_pos hwho]

/-! ## A user -/

/-- The spend of a user with a limit passes it by no more than what the calls
cost that are in flight together. -/
theorem userSpend_le (w : CapWorld) {user : Nat} {limit c : ℚ≥0} {k : Nat} {is : List CapInput}
    (hlimit : (w.users user).costLimitUsd = some limit) (hcost : ∀ i ∈ is, CostsAtMost c i)
    (hk : ∀ before after, is = before ++ after →
      flying w (fun u => u = user) (run (capNext w) .start before) ≤ k) :
    userSpend w user (run (capNext w) .start is).now (run (capNext w) .start is).store.messages ≤
      limit + k • c := by
  -- each admitted call saw a sum below the limit, with at most `k - 1` others in flight
  have hlet : ∀ before i after, is = before ++ i :: after →
      admitsOf w (fun u => u = user) (run (capNext w) .start before) i = true →
      LetIn (capNext w) (spentBy (fun u => u = user) (w.users user).costWindow)
        (flying w fun u => u = user) (recordsOf w fun u => u = user) limit k .start before := by
    intro before i after heq hadmits
    have hflying := hk (before ++ [i]) after (by rw [heq, List.append_assoc]; rfl)
    rw [run_append] at hflying
    have hone := flying_of_admitsOf hadmits
    refine ⟨before, [], (List.append_nil before).symm, ?_, ?_⟩
    · -- what the check has summed up is the spend at that moment
      obtain ⟨request, rfl, howner, hlets, _⟩ := of_admitsOf hadmits
      have hchecked := (Bool.and_eq_true_iff.mp hlets).2
      unfold userChecked at hchecked
      dsimp only at hchecked
      rw [show w.owner request = user from of_decide_eq_true howner, hlimit] at hchecked
      exact le_of_lt (of_decide_eq_true hchecked)
    · show 0 + flying w (fun u => u = user) (run (capNext w) .start before) + 1 ≤ k
      rw [Nat.zero_add, ← hone]
      exact hflying
  have h := (admission w (fun u => u = user) (w.users user).costWindow c).spend_le
    (spend_start _ _ _ _) (throughout_of_forall hcost) hlet
  exact (le_add_of_nonneg_right zero_le).trans h

/-- A user with a limit, and an account of the pool. -/
def twoUsers : CapWorld where
  demo := {}
  users user :=
    if user = 0 then ⟨"ann".toList, some 1, none⟩ else ⟨"demo_a".toList, none, none⟩
  owner request := request / 2

/-- Two calls are let in before either is recorded. -/
def bothAtOnce : List CapInput := [.check 0, .check 1, .record 0 1 0, .record 1 1 0]

theorem userSpend_le_both :
    userSpend twoUsers 0 (run (capNext twoUsers) .start bothAtOnce).now
      (run (capNext twoUsers) .start bothAtOnce).store.messages ≤ 1 + 2 • 1 := by
  refine userSpend_le twoUsers rfl ?_ (of_take (by decide))
  rintro i hi request costUsd begun rfl
  have hcases : request = 0 ∧ costUsd = 1 ∧ begun = 0 ∨ request = 1 ∧ costUsd = 1 ∧ begun = 0 := by
    simpa [bothAtOnce] using hi
  rcases hcases with ⟨_, rfl, _⟩ | ⟨_, rfl, _⟩ <;> exact le_refl _

/-! ## The pool -/

/-- A sum is written within `d` after its query, and a request goes on within `e`
after it has its sum. -/
def PoolInTime (d e : Nat) (s : CapState) (i : CapInput) : Prop :=
  (∀ request taken q total t, i = .put request taken → s.call request = .read q total t → s.now ≤ t + d) ∧
    ∀ request q total t, i = .check request → s.call request = .done q total t → s.now ≤ t + e

/-- How many calls of the pool have been recorded within a time before the end of a run. -/
def recordedWithin (w : CapWorld) (time : Nat) (is : List CapInput) : Nat :=
  countSteps (capNext w)
    (fun s i => recordsOf w (inPool w) s i && decide ((run (capNext w) .start is).now < s.now + time))
    .start is

theorem inPool_eq (w : CapWorld) (user : Nat) :
    inPool w user = isEphemeralDemo (w.users user).username := like_demoPattern _

theorem length_capSteps (w : CapWorld) (s : CapState) (i : CapInput) : (capSteps w s i).length ≤ 1 := by
  cases i with
  | check request => dsimp only [capSteps]; split <;> simp
  | record request costUsd begun => dsimp only [capSteps]; split <;> simp
  | pass d => exact Nat.le_refl _
  | look request reached => exact Nat.le_refl _
  | query request answered => exact Nat.le_refl _
  | put request taken => exact Nat.le_refl _
  | drop request => exact Nat.le_refl _
  | note user assistant begun => exact Nat.le_refl _
  | delete gone => exact Nat.le_refl _

/-- The steps of the cache are in time when the inputs are. -/
theorem inTime_capSteps {d e : Nat} {i : CapInput} (h : PoolInTime d e s i) :
    Throughout (poolSpec w).next (AsideSpec.InTime d) s (capSteps w s i) := by
  -- only writing a sum into the cache can come too late
  have hother : ∀ {j : AsideInput Ledger Unit Unit}, (∀ c taken, j ≠ .put c taken) →
      AsideSpec.InTime d s j := fun hne c taken _ _ _ heq _ => absurd heq (hne c taken)
  cases i with
  | put request taken =>
    refine ⟨?_, trivial⟩
    intro c taken' q total t heq hread
    cases heq
    exact h.1 request taken q total t rfl hread
  | check request =>
    dsimp only [capSteps]
    split
    next => exact ⟨hother nofun, trivial⟩
    next => exact trivial
  | record request costUsd begun =>
    dsimp only [capSteps]
    split
    next => exact ⟨hother nofun, trivial⟩
    next => exact trivial
  | pass d => exact ⟨hother nofun, trivial⟩
  | look request reached => exact ⟨hother nofun, trivial⟩
  | query request answered => exact ⟨hother nofun, trivial⟩
  | drop request => exact ⟨hother nofun, trivial⟩
  | note user assistant begun => exact ⟨hother nofun, trivial⟩
  | delete gone => exact ⟨hother nofun, trivial⟩

/-- The sum that a request has is what the pool had spent at some moment. -/
theorem exists_poolTotal {d e : Nat} {is : List CapInput}
    (hin : Throughout (capNext w) (PoolInTime d e) .start is) {request t : Nat} {q : Unit} {total : ℚ≥0}
    (h : (run (capNext w) .start is).call request = .done q (some total) t) :
    ∃ early late, is = early ++ late ∧
      spentBy (inPool w) (some w.demo.globalWindow) (run (capNext w) .start early) = total ∧
      t < (run (capNext w) .start early).now + d + 30000 := by
  -- a step of the cap is none or one of the cache's, which then answers for the sum
  have hexpand := throughout_expand (throughout_mono (fun _ _ => inTime_capSteps) hin)
  rw [show run (capNext w) .start is = _ from (run_expand _ is).symm] at h
  obtain ⟨_, t₀, _, _, ⟨before, after, heq, rfl, hask⟩, _, hlt⟩ :=
    AsideSpec.answered_of_done (Q := fun _ => True) (by show 0 < 30000; omega)
      (fun _ _ _ _ _ _ => trivial) hexpand h
  obtain ⟨early, late, rfl, hrun⟩ := exists_prefix (length_capSteps w) heq
  refine ⟨early, late, rfl, ?_, ?_⟩
  · rw [show run (capNext w) .start early = _ from hrun]
    exact Option.some.inj hask
  · rw [show run (capNext w) .start early = _ from hrun]
    exact hlt

/-- What the pool has spent passes its cap by no more than what those calls cost
that are in flight, or have been recorded since a sum that may still be in use,
when a request of the pool is let in. -/
theorem poolSpend_le (w : CapWorld) (hon : w.demo.ephemeralEnabled = true) {c : ℚ≥0} {d e k : Nat}
    {is : List CapInput} (hcost : ∀ i ∈ is, CostsAtMost c i)
    (hin : Throughout (capNext w) (PoolInTime d e) .start is)
    (hk : ∀ before i after, is = before ++ i :: after →
      admitsOf w (inPool w) (run (capNext w) .start before) i = true →
      recordedWithin w (30000 + d + e) before + flying w (inPool w) (run (capNext w) .start before) + 1 ≤ k) :
    poolTotal w (run (capNext w) .start is).now (run (capNext w) .start is).store.messages ≤
      w.demo.globalCapUsd + k • c := by
  have hlet : ∀ before i after, is = before ++ i :: after →
      admitsOf w (inPool w) (run (capNext w) .start before) i = true →
      LetIn (capNext w) (spentBy (inPool w) (some w.demo.globalWindow)) (flying w (inPool w))
        (recordsOf w (inPool w)) w.demo.globalCapUsd k .start before := by
    intro before i after heq hadmits
    have hfew := hk before i after heq hadmits
    rw [heq, throughout_append] at hin
    obtain ⟨hbefore, htime, _⟩ := hin
    obtain ⟨request, rfl, howner, hlets, _⟩ := of_admitsOf hadmits
    have hchecked := (Bool.and_eq_true_iff.mp hlets).1
    unfold poolChecked at hchecked
    rw [hon, ← inPool_eq, howner, Bool.and_true, if_pos rfl] at hchecked
    -- the sum may have been read some time before: the run is split at that moment
    split at hchecked
    next q total t hdone =>
      obtain ⟨early, late, rfl, hspent, hlt⟩ := exists_poolTotal hbefore hdone
      have hle := htime.2 request q (some total) t rfl hdone
      refine ⟨early, late, rfl, ?_, ?_⟩
      · rw [hspent]
        exact le_of_lt (of_decide_eq_true hchecked)
      · -- the records since the sum are among those of the time in question
        have hlate : countSteps (capNext w) (recordsOf w (inPool w)) (run (capNext w) .start early) late ≤
            recordedWithin w (30000 + d + e) (early ++ late) := by
          unfold recordedWithin
          rw [countSteps_append]
          refine Nat.le_trans ?_ (Nat.le_add_left _ _)
          refine countSteps_le (fun s => (run (capNext w) .start early).now ≤ s.now) ?_ ?_ (Nat.le_refl _) late
          · intro s i hs
            rw [(capNext_fields i).2]
            omega
          · intro s i hs hrecords
            rw [hrecords, Bool.true_and]
            exact decide_eq_true (by omega)
        omega
    next => exact absurd hchecked (by simp)
  have h := (admission w (inPool w) (some w.demo.globalWindow) c).spend_le
    (spend_start _ _ _ _) (throughout_of_forall hcost) hlet
  exact (le_add_of_nonneg_right zero_le).trans h

/-- A call of an account of the pool. -/
def poolTurn : List CapInput := [.look 2 true, .query 2 true, .put 2 true, .check 2, .record 2 11 0]

theorem poolSpend_le_turn :
    poolTotal twoUsers (run (capNext twoUsers) .start poolTurn).now
      (run (capNext twoUsers) .start poolTurn).store.messages ≤ 10 + 1 • 11 := by
  have hin : Throughout (capNext twoUsers) (PoolInTime 0 0) .start poolTurn := by
    refine ⟨⟨nofun, nofun⟩, ⟨nofun, nofun⟩, ⟨?_, nofun⟩, ⟨nofun, ?_⟩, ⟨nofun, nofun⟩, trivial⟩
    · exact fun _ _ _ _ _ _ _ => Nat.zero_le _
    · exact fun _ _ _ _ _ _ => Nat.zero_le _
  have hcost : ∀ i ∈ poolTurn, CostsAtMost 11 i := by
    rintro i hi request costUsd begun rfl
    have hrecord : request = 2 ∧ costUsd = 11 ∧ begun = 0 := by simpa [poolTurn] using hi
    exact le_of_eq hrecord.2.1
  exact poolSpend_le twoUsers rfl (d := 0) (e := 0) hcost hin
    fun before i after heq => of_getElem (Q := fun before i =>
      admitsOf twoUsers (inPool twoUsers) (run (capNext twoUsers) .start before) i = true →
      recordedWithin twoUsers 30000 before +
        flying twoUsers (inPool twoUsers) (run (capNext twoUsers) .start before) + 1 ≤ 1)
      (by decide +kernel) before i after heq

end Eidetic.Accounts
