import Eidetic.Accounts.Demo

/-!
# What the demo pool has spent

`pool_spend_usd` adds up the messages that are in the database, and a purge
deletes those of its account, which were idle for `DEMO_IDLE_TTL_HOURS` and not
for the window. So the value is what the minted accounts have spent as long as
no purge of one deletes a cost in the window, and no account registered under
the name of a demo account has any (`counted_iff`).

The invariant is `Counted`: what the purges of minted accounts have deleted
costs nothing in the window, and no registered account that the query finds has
a cost in it. The window only moves on (`spentIn_of_later`), so what was outside
of it stays outside. A new message changes both sums alike (`sums_addMessage`),
and a purge takes the costs of its account from the sum of the query alone
(`sums_purge`), which is where the condition comes from.

The other direction is of one step: a step after which the value from the
database is right has met the condition (`keepsCosts_of_countsAll`), as costs
are not negative and can make up for nothing. So the value is right all along a
run exactly when every step meets it.
-/

namespace Eidetic.Accounts

open Eidetic.Lib Eidetic.Py

def User.minted (u : User) : Bool := u.origin = .minted

/-- The costs in the window of the purged minted accounts. -/
def purgedSpend (cfg : DemoConfig) (t : Nat) (purged : List Purge) : ℚ≥0 :=
  sumOver (fun p => sumOver ChatMessage.cost (·.spentIn cfg t) p.messages) (·.user.minted) purged

/-- What the minted accounts have spent in the window that ends at a time. -/
def mintedSpend (cfg : DemoConfig) (s : DemoState) (t : Nat) : ℚ≥0 :=
  sumOver ChatMessage.cost (fun m => (s.users.find m.user).any User.minted && m.spentIn cfg t)
      s.messages +
    purgedSpend cfg t s.purged

/-- The value from the database is what the minted accounts have spent. -/
def CountsAll (cfg : DemoConfig) (s : DemoState) : Prop :=
  poolSpend cfg s s.now = mintedSpend cfg s s.now

/-- No registered account with the name of a demo account has a cost, and no
purge of a minted one deletes a cost in the window. -/
def KeepsCosts (cfg : DemoConfig) (s : DemoState) : DemoEvent → Prop
  | .message user assistant costUsd begun =>
    begun ≤ s.now → ∀ u ∈ s.users.find user, matchesDemo u = true → u.minted = false →
      assistant = true → s.now - cfg.globalWindow ≤ begun → costUsd.getD 0 = 0
  | .purge pass =>
    ∀ p ∈ s.passes pass, ∀ row ∈ p.rows.head?, row.2 < p.cutoff → ∀ u ∈ s.users.find row.1,
      u.minted = true → ∀ m ∈ s.messages, m.user = row.1 → m.spentIn cfg s.now = true → m.cost = 0
  | _ => True

/-- Nothing in the window has been forgotten, and nothing counts in addition. -/
structure Counted (cfg : DemoConfig) (s : DemoState) : Prop where
  userLt : ∀ u ∈ s.users.list, u.id < s.nextUser
  ownerLt : ∀ m ∈ s.messages, m.user < s.nextUser
  mintedName : ∀ u ∈ s.users.list, u.minted = true → matchesDemo u = true
  registered : ∀ m ∈ s.messages, m.spentIn cfg s.now = true → ∀ u ∈ s.users.find m.user,
    matchesDemo u = true → u.minted = false → m.cost = 0
  purged : ∀ p ∈ s.purged, p.user.minted = true → ∀ m ∈ p.messages, m.spentIn cfg s.now = true →
    m.cost = 0

variable {cfg : DemoConfig} {s : DemoState}

/-- The window only moves on. -/
theorem spentIn_of_later {m : ChatMessage} {t time : Nat} (h : m.spentIn cfg (t + time) = true) :
    m.spentIn cfg t = true := by
  unfold ChatMessage.spentIn at h ⊢
  rw [Bool.and_eq_true, decide_eq_true_eq] at h ⊢
  exact ⟨h.1, by omega⟩

theorem Counted.purgedSpend (h : Counted cfg s) : purgedSpend cfg s.now s.purged = 0 := by
  refine sumOver_eq_zero_iff.mpr fun p hp hminted => ?_
  exact sumOver_eq_zero_iff.mpr fun m hm hspent => h.purged p hp hminted m hm hspent

theorem Counted.countsAll (h : Counted cfg s) : CountsAll cfg s := by
  unfold CountsAll mintedSpend
  rw [h.purgedSpend, add_zero]
  refine sumOver_congr fun m hm => ?_
  cases hspent : m.spentIn cfg s.now with
  | false => exact .inr (by rw [Bool.and_false, Bool.and_false])
  | true =>
    rw [Bool.and_true, Bool.and_true]
    cases hfind : s.users.find m.user with
    | none => exact .inr rfl
    | some u =>
      show m.cost = 0 ∨ matchesDemo u = u.minted
      cases hminted : u.minted with
      | true => exact .inr (h.mintedName u (Rows.mem_of_find hfind) hminted)
      | false =>
        by_cases hname : matchesDemo u = true
        · exact .inl (h.registered m hm hspent u hfind hname hminted)
        · exact .inr (by simpa using hname)

/-! ## Steps -/

theorem Counted.addUser (h : Counted cfg s) {username : Text} {origin : Origin}
    (hname : origin = .minted → isEphemeralDemo username = true) :
    Counted cfg (s.addUser username origin) := by
  unfold DemoState.addUser
  split
  next =>
    refine ⟨?_, fun m hm => Nat.lt_succ_of_lt (h.ownerLt m hm), ?_, ?_, h.purged⟩
    · intro u hu
      show u.id < s.nextUser + 1
      rcases Rows.mem_of_mem_insert hu with hold | rfl
      · exact Nat.lt_succ_of_lt (h.userLt u hold)
      · exact Nat.lt_succ_self _
    · intro u hu hminted
      rcases Rows.mem_of_mem_insert hu with hold | rfl
      · exact h.mintedName u hold hminted
      · unfold matchesDemo
        rw [like_demoPattern]
        exact hname (of_decide_eq_true hminted)
    · intro m hm hspent u hu
      have hfind : (s.users.insert ⟨s.nextUser, username, origin, s.now⟩).find m.user =
          s.users.find m.user :=
        Rows.find_insert_of_ne (Nat.ne_of_lt (h.ownerLt m hm))
      exact h.registered m hm hspent u (hfind ▸ hu)
  next => exact h

/-- The pool and the minted accounts with one more message. -/
theorem sums_addMessage (cfg : DemoConfig) {user : Nat} {u : User} (hfind : s.users.find user = some u)
    (assistant : Bool) (costUsd : Option ℚ≥0) {begun : Nat} (hbegun : begun ≤ s.now) (t : Nat) :
    let m : ChatMessage := ⟨user, assistant, costUsd, begun, s.nextPlace⟩
    poolSpend cfg (addMessage s user assistant costUsd begun) t =
        (if matchesDemo u && m.spentIn cfg t then m.cost else 0) + poolSpend cfg s t ∧
      mintedSpend cfg (addMessage s user assistant costUsd begun) t =
        (if u.minted && m.spentIn cfg t then m.cost else 0) + mintedSpend cfg s t := by
  intro m
  have hadd : addMessage s user assistant costUsd begun =
      { s with messages := m :: s.messages, nextPlace := s.nextPlace + 1 } := by
    unfold addMessage
    rw [if_pos ⟨by rw [hfind]; rfl, hbegun⟩]
  rw [hadd]
  unfold poolSpend mintedSpend
  dsimp only
  rw [sumOver_cons, sumOver_cons, show m.user = user from rfl, hfind, add_assoc]
  exact ⟨rfl, rfl⟩

theorem Counted.addMessage (h : Counted cfg s) {user : Nat} {assistant : Bool} {costUsd : Option ℚ≥0}
    {begun : Nat} (hkeeps : KeepsCosts cfg s (.message user assistant costUsd begun)) :
    Counted cfg (addMessage s user assistant costUsd begun) := by
  unfold Accounts.addMessage
  split
  next hadded =>
    refine ⟨h.userLt, ?_, h.mintedName, ?_, h.purged⟩
    · intro m hm
      rcases List.mem_cons.mp hm with rfl | hold
      · obtain ⟨u, hfind⟩ := Option.isSome_iff_exists.mp hadded.1
        obtain ⟨hu, hid⟩ := Rows.find_eq_some.mp hfind
        exact hid ▸ h.userLt u hu
      · exact h.ownerLt m hold
    · intro m hm hspent u hu hname hminted
      rcases List.mem_cons.mp hm with rfl | hold
      · obtain ⟨hassistant, hwindow⟩ : assistant = true ∧ s.now - cfg.globalWindow ≤ begun := by
          simpa [ChatMessage.spentIn] using hspent
        exact hkeeps hadded.2 u hu hname hminted hassistant hwindow
      · exact h.registered m hold hspent u hu hname hminted
  next => exact h

/-- The messages that a purge keeps are those of users that it keeps. -/
theorem find_kept_user {id : Nat} {m : ChatMessage}
    (hm : m ∈ s.messages.filter fun m => !decide (m.user = id)) :
    (s.users.delete id).find m.user = s.users.find m.user := by
  have hne : m.user ≠ id := by simpa using (List.mem_filter.mp hm).2
  rw [Rows.find_delete, if_neg hne]

/-- What the messages of the other users add up to is the same after a purge. -/
theorem sumOver_kept (id t : Nat) (counts : User → Bool) :
    sumOver ChatMessage.cost (fun m => ((s.users.delete id).find m.user).any counts && m.spentIn cfg t)
        (s.messages.filter fun m => !decide (m.user = id)) =
      sumOver ChatMessage.cost (fun m => (s.users.find m.user).any counts && m.spentIn cfg t)
        (s.messages.filter fun m => !decide (m.user = id)) :=
  sumOver_congr fun m hm => .inr (by rw [find_kept_user hm])

/-- What the messages of one user add up to. -/
theorem sumOver_own {id : Nat} {u : User} (hfind : s.users.find id = some u) (t : Nat)
    {counts : User → Bool} (hcounts : counts u = true) :
    sumOver ChatMessage.cost (fun m => (s.users.find m.user).any counts && m.spentIn cfg t)
        (s.messages.filter fun m => decide (m.user = id)) =
      sumOver ChatMessage.cost (·.spentIn cfg t) (s.messages.filter fun m => decide (m.user = id)) := by
  refine sumOver_congr fun m hm => .inr ?_
  have heq : m.user = id := of_decide_eq_true (List.mem_filter.mp hm).2
  rw [heq, hfind]
  show (counts u && _) = _
  rw [hcounts, Bool.true_and]

/-- A purge of a minted account takes its costs from the pool, and leaves what
the minted accounts have spent as it was. -/
theorem sums_purge (cfg : DemoConfig) {id : Nat} (cutoff : Nat) {u : User} (hfind : s.users.find id = some u)
    (hminted : u.minted = true) (hname : matchesDemo u = true) (t : Nat) :
    poolSpend cfg s t =
        sumOver ChatMessage.cost (·.spentIn cfg t) (s.messages.filter fun m => decide (m.user = id)) +
          poolSpend cfg (purgeDemoUser s id cutoff) t ∧
      mintedSpend cfg (purgeDemoUser s id cutoff) t = mintedSpend cfg s t := by
  have hpurge : purgeDemoUser s id cutoff =
      { s with
        users := s.users.delete id
        messages := s.messages.filter fun m => !decide (m.user = id)
        purged := ⟨u, s.messages.filter fun m => decide (m.user = id), cutoff⟩ :: s.purged } := by
    unfold purgeDemoUser
    rw [hfind]
  rw [hpurge]
  constructor
  · unfold poolSpend
    dsimp only
    rw [sumOver_kept, sumOver_split (fun m => decide (m.user = id)) s.messages, sumOver_own hfind t hname]
  · unfold mintedSpend purgedSpend
    dsimp only
    rw [sumOver_kept, sumOver_split (fun m => decide (m.user = id)) s.messages,
      sumOver_own hfind t hminted, sumOver_cons, if_pos hminted]
    rw [← add_assoc, add_comm (sumOver _ _ (s.messages.filter fun m => !decide (m.user = id)))]

theorem Counted.purgeDemoUser (h : Counted cfg s) {id cutoff : Nat}
    (hkeeps : ∀ u ∈ s.users.find id, u.minted = true → ∀ m ∈ s.messages, m.user = id →
      m.spentIn cfg s.now = true → m.cost = 0) :
    Counted cfg (purgeDemoUser s id cutoff) := by
  unfold Accounts.purgeDemoUser
  split
  next => exact h
  next u hfind =>
    refine ⟨fun v hv => h.userLt v (Rows.mem_delete.mp hv).1,
      fun m hm => h.ownerLt m (List.mem_filter.mp hm).1,
      fun v hv => h.mintedName v (Rows.mem_delete.mp hv).1, ?_, ?_⟩
    · intro m hm hspent v hv
      have hv' : s.users.find m.user = some v := find_kept_user hm ▸ hv
      exact h.registered m (List.mem_filter.mp hm).1 hspent v hv'
    · intro p hp hminted m hm hspent
      rcases List.mem_cons.mp hp with rfl | hold
      · obtain ⟨hmem, huser⟩ := List.mem_filter.mp hm
        exact hkeeps u hfind hminted m hmem (of_decide_eq_true huser) hspent
      · exact h.purged p hold hminted m hm hspent

theorem counted_step (s : DemoState) (e : DemoEvent) (h : Counted cfg s) (hkeeps : KeepsCosts cfg s e) :
    Counted cfg (s.next cfg e) := by
  cases e with
  | pass time =>
    exact { h with
      registered := fun m hm hspent => h.registered m hm (spentIn_of_later hspent)
      purged := fun p hp hminted m hm hspent => h.purged p hp hminted m hm (spentIn_of_later hspent) }
  | register payload invited =>
    unfold DemoState.next
    dsimp only
    split
    next => exact h.addUser (by simp)
    next => exact h
  | login hex cached =>
    show Counted cfg (mintLogin cfg s hex cached)
    unfold mintLogin
    split
    next => exact h
    next =>
      split
      next => exact h
      next =>
        split
        next => exact h
        next => exact h.addUser fun _ => isEphemeralDemo_mintedName hex
  | message user assistant costUsd begun => exact h.addMessage hkeeps
  | reap pass =>
    unfold DemoState.next
    dsimp only
    split
    next => exact { h with }
    next => exact h
  | purge pass =>
    unfold DemoState.next
    dsimp only
    split
    next cutoff id lastActive rows seen hpass =>
      have hset : Counted cfg (s.setPass pass (some ⟨cutoff, rows, seen⟩)) := { h with }
      split
      next hlate => exact hset.purgeDemoUser (hkeeps _ hpass _ rfl hlate)
      next => exact hset
    next => exact { h with }
    next => exact h
  | abort pass => exact { h with }

/-- A step after which the value is right had cost the pool nothing. -/
theorem keepsCosts_of_countsAll (s : DemoState) (e : DemoEvent) (h : Counted cfg s)
    (hnext : CountsAll cfg (s.next cfg e)) : KeepsCosts cfg s e := by
  have hbefore := h.countsAll
  cases e with
  | message user assistant costUsd begun =>
    intro hbegun u hu hname hregistered hassistant hwindow
    obtain ⟨hpool, hminted⟩ := sums_addMessage cfg hu assistant costUsd hbegun s.now
    have hspent : ChatMessage.spentIn cfg s.now ⟨user, assistant, costUsd, begun, s.nextPlace⟩ = true := by
      unfold ChatMessage.spentIn
      rw [hassistant, decide_eq_true hwindow, Bool.and_self]
    have hnow : (addMessage s user assistant costUsd begun).now = s.now := by
      unfold addMessage
      split <;> rfl
    have heq : poolSpend cfg (addMessage s user assistant costUsd begun) s.now =
        mintedSpend cfg (addMessage s user assistant costUsd begun) s.now := by
      rw [← hnow]
      exact hnext
    rw [hpool, hminted, hname, hregistered, hspent, Bool.and_self, if_pos rfl, Bool.false_and,
      if_neg Bool.false_ne_true, zero_add, hbefore] at heq
    exact add_eq_right.mp heq
  | purge pass =>
    intro p hp row hrow hlate u hu hminted
    have hname : matchesDemo u = true := h.mintedName u (Rows.mem_of_find hu) hminted
    obtain ⟨hpool, hspend⟩ := sums_purge cfg p.cutoff
      (s := s.setPass pass (some { p with rows := p.rows.tail })) hu hminted hname s.now
    rw [next_purge hp hrow hlate] at hnext
    have hnow : (purgeDemoUser (s.setPass pass (some { p with rows := p.rows.tail })) row.1
        p.cutoff).now = s.now := by
      unfold purgeDemoUser
      split <;> rfl
    have heq : poolSpend cfg (purgeDemoUser (s.setPass pass (some { p with rows := p.rows.tail }))
        row.1 p.cutoff) s.now = mintedSpend cfg s s.now := by
      rw [CountsAll, hnow] at hnext
      exact hnext.trans hspend
    rw [heq, show poolSpend cfg (s.setPass pass _) s.now = poolSpend cfg s s.now from rfl,
      show poolSpend cfg s s.now = mintedSpend cfg s s.now from hbefore] at hpool
    have hzero := sumOver_eq_zero_iff.mp (add_eq_right.mp hpool.symm)
    intro m hm huser hspent
    exact hzero m (List.mem_filter.mpr ⟨hm, decide_eq_true huser⟩) hspent
  | _ => trivial

theorem counted_init : Counted cfg {} where
  userLt := fun _ hu => absurd hu List.not_mem_nil
  ownerLt := fun _ hm => absurd hm List.not_mem_nil
  mintedName := fun _ hu => absurd hu List.not_mem_nil
  registered := fun _ hm => absurd hm List.not_mem_nil
  purged := fun _ hp => absurd hp List.not_mem_nil

/-- All along a run the database says what the minted accounts have spent exactly
when no purge of one deletes a cost in the window, and no registered account with
the name of a demo account has a cost in it. -/
theorem counted_iff (cfg : DemoConfig) (events : List DemoEvent) :
    (∀ before after, events = before ++ after → CountsAll cfg (run (DemoState.next cfg) {} before)) ↔
      Throughout (DemoState.next cfg) (KeepsCosts cfg) {} events :=
  along_iff (fun _ h => h.countsAll) counted_step keepsCosts_of_countsAll counted_init events

/-! ## A purge within the window -/

/-- A demo account that costs a dollar, is idle for three hours, and is purged. -/
def spentAndPurged : List DemoEvent :=
  [.login "0a1b2c3d4e5f".toList none, .message 0 true (some 1) 0, .pass 10800000, .reap 0, .purge 0]

theorem spentAndPurged_forgotten :
    ¬ ∀ cfg events, CountsAll cfg (run (DemoState.next cfg) {} events) := by
  intro h
  have hpool : poolSpend {} (run (DemoState.next {}) {} spentAndPurged) 10800000 = 0 := by
    decide
  have hspent : mintedSpend {} (run (DemoState.next {}) {} spentAndPurged) 10800000 = 1 := by
    decide +kernel
  have hnow : (run (DemoState.next {}) {} spentAndPurged).now = 10800000 := by
    decide
  have hcounts := h {} spentAndPurged
  rw [CountsAll, hnow, hpool, hspent] at hcounts
  exact absurd hcounts (by decide)

end Eidetic.Accounts
