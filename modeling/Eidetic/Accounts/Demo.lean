import Eidetic.Accounts.Users
import Eidetic.Lib.Run
import Eidetic.Lib.SumOver
import Mathlib.Algebra.Field.Rat
import Mathlib.Data.List.MinMax
import Mathlib.Algebra.Order.Ring.NNRat
import Mathlib.Logic.Function.Basic

/-!
# Demo accounts

Logins that mint an account, registrations, the messages of chat turns, and
reaper passes, which read once who is idle and then purge one account after the
other. Whether an account is a demo account is read off its name.

A pass of the reaper is two things: the query, which reads for each account when
it was last active, and one purge for each row that is idle, at any later time.
Between them anything may happen, so a purge goes by what its query has seen and
not by what is there (`ReaperPass`, with the number of messages that there
were).

`purged`, the `origin` of a user and the `place` of a message are not columns of
the database: they record what each purge has deleted, who has created an
account and in which order messages were committed, which is what
`Accounts.Pool` and `Accounts.Reaper` speak about. Each of the two has an
invariant of its own; both go by the lemmas here on what a purge, a new user and
a new message leave as they were.
-/

namespace Eidetic.Accounts

open Eidetic.Lib Eidetic.Py

/-- Times are in milliseconds. -/
structure DemoConfig where
  ephemeralEnabled : Bool := true
  globalCapUsd : ℚ≥0 := 10
  globalWindow : Nat := 86400000
  idleTtl : Nat := 7200000
  maxLiveAccounts : Nat := 0

/-- A row of `messages`, with the user whose conversation it is in. -/
structure ChatMessage where
  user : Nat
  /-- `role == "assistant"`. -/
  assistant : Bool
  costUsd : Option ℚ≥0
  createdAt : Nat
  /-- How many messages had been committed before. -/
  place : Nat

/-- A call of `reap_idle_demos`: its cutoff, the rows that are left, each with
when the account was last active, and how many messages its query has seen. -/
structure ReaperPass where
  cutoff : Nat
  rows : List (Nat × Nat)
  seen : Nat

/-- A purge: the account, and its messages at that moment. -/
structure Purge where
  user : User
  messages : List ChatMessage
  cutoff : Nat

structure DemoState where
  now : Nat := 0
  users : Users := Rows.empty
  /-- No user has had this id or a later one. -/
  nextUser : Nat := 0
  messages : List ChatMessage := []
  nextPlace : Nat := 0
  passes : Nat → Option ReaperPass := fun _ => none
  purged : List Purge := []

inductive DemoEvent
  | pass (time : Nat)
  /-- `register`, with whether the invite gate lets the request through. -/
  | register (payload : RegisterRequest) (invited : Bool)
  /-- A login as the seed user, with the spend that Redis has. -/
  | login (hex : Text) (cached : Option ℚ≥0)
  /-- A message of a turn, whose transaction has begun at some time. -/
  | message (user : Nat) (assistant : Bool) (costUsd : Option ℚ≥0) (begun : Nat)
  | reap (pass : Nat)
  /-- The next row of the loop of `reap_idle_demos`. -/
  | purge (pass : Nat)
  /-- An exception, and the end of the pass. -/
  | abort (pass : Nat)

/-! ## Queries -/

def ChatMessage.cost (m : ChatMessage) : ℚ≥0 := m.costUsd.getD 0

def matchesDemo (u : User) : Bool := like '\\' demoPattern u.username

/-- An assistant's message in the window that ends at a time. -/
def ChatMessage.spentIn (cfg : DemoConfig) (t : Nat) (m : ChatMessage) : Bool :=
  m.assistant && decide (t - cfg.globalWindow ≤ m.createdAt)

/-- The query of `pool_spend_usd`. -/
def poolSpend (cfg : DemoConfig) (s : DemoState) (t : Nat) : ℚ≥0 :=
  sumOver ChatMessage.cost
    (fun m => (s.users.find m.user).any matchesDemo && m.spentIn cfg t) s.messages

/-- `pool_spend_usd`, with what Redis has. -/
def poolSpendUsd (cfg : DemoConfig) (s : DemoState) (cached : Option ℚ≥0) : ℚ≥0 :=
  cached.getD (poolSpend cfg s s.now)

def countLiveDemoAccounts (s : DemoState) : Nat := (s.users.list.filter matchesDemo).length

/-- `func.max(Message.created_at)` over the conversations of a user. -/
def lastMessageAt (s : DemoState) (user : Nat) : Option Nat :=
  ((s.messages.filter fun m => m.user = user).map ChatMessage.createdAt).max?

/-- The rows that `reap_idle_demos` reads. -/
def reaperRows (s : DemoState) : List (Nat × Nat) :=
  (s.users.list.filter matchesDemo).map fun u => (u.id, (lastMessageAt s u.id).getD u.createdAt)

/-! ## Steps -/

def DemoState.addUser (s : DemoState) (username : Text) (origin : Origin) : DemoState :=
  if nameFree s.users username then
    { s with
      users := s.users.insert ⟨s.nextUser, username, origin, s.now⟩
      nextUser := s.nextUser + 1 }
  else s

/-- The mint of `login`. -/
def mintLogin (cfg : DemoConfig) (s : DemoState) (hex : Text) (cached : Option ℚ≥0) : DemoState :=
  if !cfg.ephemeralEnabled then s
  else if cfg.globalCapUsd ≤ poolSpendUsd cfg s cached then s
  else if 0 < cfg.maxLiveAccounts ∧ cfg.maxLiveAccounts ≤ countLiveDemoAccounts s then s
  else s.addUser (mintedName hex) .minted

def addMessage (s : DemoState) (user : Nat) (assistant : Bool) (costUsd : Option ℚ≥0) (begun : Nat) :
    DemoState :=
  if (s.users.find user).isSome ∧ begun ≤ s.now then
    { s with
      -- `created_at` is the start of the transaction
      messages := ⟨user, assistant, costUsd, begun, s.nextPlace⟩ :: s.messages
      nextPlace := s.nextPlace + 1 }
  else s

def DemoState.setPass (s : DemoState) (pass : Nat) (p : Option ReaperPass) : DemoState :=
  { s with passes := Function.update s.passes pass p }

/-- `_purge_demo_user`, as far as its rows go: conversations and messages go
with the user. -/
def purgeDemoUser (s : DemoState) (id cutoff : Nat) : DemoState :=
  match s.users.find id with
  | none => s
  | some user =>
    { s with
      users := s.users.delete id
      messages := s.messages.filter fun m => !decide (m.user = id)
      purged := ⟨user, s.messages.filter fun m => decide (m.user = id), cutoff⟩ :: s.purged }

def DemoState.next (cfg : DemoConfig) (s : DemoState) : DemoEvent → DemoState
  | .pass time => { s with now := s.now + time }
  | .register payload invited =>
    if (refuseRegistration payload).isNone && invited then
      s.addUser (strip payload.username) .registered
    else s
  | .login hex cached => mintLogin cfg s hex cached
  | .message user assistant costUsd begun => addMessage s user assistant costUsd begun
  | .reap pass =>
    match s.passes pass with
    -- the only query of the pass; its rows are gone through one by one
    | none => s.setPass pass (some ⟨s.now - cfg.idleTtl, reaperRows s, s.nextPlace⟩)
    | some _ => s
  | .purge pass =>
    match s.passes pass with
    | some ⟨cutoff, (id, lastActive) :: rows, seen⟩ =>
      let s := s.setPass pass (some ⟨cutoff, rows, seen⟩)
      -- what the query has read decides, not the messages that are there now
      if lastActive < cutoff then purgeDemoUser s id cutoff else s
    | some ⟨_, [], _⟩ => s.setPass pass none
    | none => s
  | .abort pass => s.setPass pass none

variable {cfg : DemoConfig} {s : DemoState}

@[simp] theorem setPass_self (pass : Nat) (p : Option ReaperPass) :
    (s.setPass pass p).passes pass = p :=
  Function.update_self ..

theorem setPass_of_ne {i pass : Nat} (h : i ≠ pass) (p : Option ReaperPass) :
    (s.setPass pass p).passes i = s.passes i :=
  Function.update_of_ne h ..

/-- A pass purges the account of a row that is idle. -/
theorem next_purge {pass : Nat} {p : ReaperPass} {row : Nat × Nat} (hp : s.passes pass = some p)
    (hrow : row ∈ p.rows.head?) (hlate : row.2 < p.cutoff) : s.next cfg (.purge pass) =
      purgeDemoUser (s.setPass pass (some { p with rows := p.rows.tail })) row.1 p.cutoff := by
  obtain ⟨cutoff, rows, seen⟩ := p
  cases rows with
  | nil => exact absurd hrow (by simp)
  | cons first rows =>
    obtain rfl : first = row := by simpa using hrow
    obtain ⟨id, lastActive⟩ := first
    unfold DemoState.next
    dsimp only
    rw [hp]
    dsimp only
    rw [if_pos hlate]
    rfl

/-- A new user changes no message and no pass. -/
theorem addUser_fields (username : Text) (origin : Origin) :
    (s.addUser username origin).messages = s.messages ∧
      (s.addUser username origin).passes = s.passes ∧
        (s.addUser username origin).purged = s.purged ∧ (s.addUser username origin).now = s.now ∧
          (s.addUser username origin).nextPlace = s.nextPlace := by
  unfold DemoState.addUser
  split <;> exact ⟨rfl, rfl, rfl, rfl, rfl⟩

/-- A message is no newer than the last one of its user. -/
theorem createdAt_le_last {m : ChatMessage} (hm : m ∈ s.messages) (d : Nat) :
    m.createdAt ≤ (lastMessageAt s m.user).getD d := by
  have hmem : m.createdAt ∈ (s.messages.filter fun x => x.user = m.user).map ChatMessage.createdAt :=
    List.mem_map_of_mem (List.mem_filter.mpr ⟨hm, by simp⟩)
  unfold lastMessageAt
  cases hmax : ((s.messages.filter fun x => x.user = m.user).map ChatMessage.createdAt).max? with
  | none =>
    rw [List.max?_eq_none_iff.mp hmax] at hmem
    exact absurd hmem List.not_mem_nil
  | some last => exact (List.max?_eq_some_iff.mp hmax).2 _ hmem

end Eidetic.Accounts
