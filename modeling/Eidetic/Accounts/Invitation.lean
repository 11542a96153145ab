import Eidetic.Accounts.Users
import Eidetic.Lib.Run
import Mathlib.Logic.Function.Basic

/-!
# How often an invitation is used

Any number of registrations, interleaved at their reads, at the lock of the
invitation's row and at their commits, with accounts deleted at any time. The
row lock keeps two registrations from taking one invitation together. What says
that an invitation is used is `used_by_id`, which the deletion of the account
sets back to null, and `used_at` is never read. So an invitation makes one
account as long as none of its accounts has been deleted when it is taken again
(`usedOnce_iff`).

The invariant is `Linked`. An invitation names the account that was created with
it as long as that account is there; a request that is past the gate holds the
lock of its invitation's row; and that row names nobody. It holds in any order
of the reads, locks and commits (`linked_step`), the deletion of accounts
included: that sets `used_by_id` to null and waits for the row that it changes,
so it does not come between the gate and the commit.

From it the condition is exact. A registration that is committed with an
invitation finds the row naming nobody; if all the accounts that were created
with it are still there then there is none (`Linked.createInvited`), and if one
of them has been deleted then this is another one (`takesUnused_of_usedOnce`).
-/

namespace Eidetic.Accounts

open Eidetic.Lib Eidetic.Py

structure Invitation where
  token : Text
  createdById : Nat
  usedById : Option Nat := none
  usedAt : Option Nat := none
  expiresAt : Option Nat
deriving DecidableEq

/-- Where a call of `register` is. -/
inductive RegisterPhase
  | outside
  /-- No user has the name. -/
  | named (payload : RegisterRequest)
  /-- The invite gate is passed, with the token of the invitation whose row is
  locked. -/
  | cleared (payload : RegisterRequest) (invite : Option Text)
  | answered (status : Nat)

/-- An account created with an invitation. -/
structure Creation where
  token : Text
  user : Nat
  time : Nat
  /-- Until when the invitation is valid. -/
  expiresAt : Option Nat

/-- The clock, the tables, the row locks, the calls, and what they have done. -/
structure Registry where
  now : Nat := 0
  users : Users := Rows.empty
  /-- No user has had this id or a later one. -/
  nextUser : Nat := 0
  invitations : Rows Invitation.token := Rows.empty
  /-- The tokens that `secrets` has given. -/
  issued : List Text := []
  locks : Text → Option Nat := fun _ => none
  requests : Nat → RegisterPhase := fun _ => .outside
  created : List Creation := []

inductive RegisterEvent
  | pass (time : Nat)
  /-- `create_invite`. -/
  | invite (token : Text) (creator : Nat)
  | register (request : Nat) (payload : RegisterRequest)
  /-- The invite gate, with `REQUIRE_INVITE` as it is then. -/
  | gate (request : Nat) (requireInvite : Bool)
  | commit (request : Nat)
  /-- The request ends in any other way. -/
  | abort (request : Nat)
  | deleteUser (id : Nat)

/-- The end of a request: its session is closed and its locks are released. -/
def Registry.finish (s : Registry) (request status : Nat) : Registry :=
  { s with
    locks := fun token => if s.locks token = some request then none else s.locks token
    requests := Function.update s.requests request (.answered status) }

def Registry.enter (s : Registry) (request : Nat) (phase : RegisterPhase) : Registry :=
  { s with requests := Function.update s.requests request phase }

/-- Seven days, in milliseconds. -/
def inviteTtl : Nat := 604800000

def createInvite (s : Registry) (token : Text) (creator : Nat) : Registry :=
  if s.issued.any (· = token) ∨ (s.users.find creator).isNone then s
  else
    { s with
      issued := token :: s.issued
      invitations := s.invitations.insert
        { token := token, createdById := creator, expiresAt := some (s.now + inviteTtl) } }

/-- The checks of the gate on the row it has read, with the status of a refusal. -/
def refuseInvite (now : Nat) (invite : Invitation) : Option Nat :=
  -- `used_at` is not looked at
  if invite.usedById.isSome then some 403
  else if invite.expiresAt.any (· < now) then some 403
  else none

def inviteGate (s : Registry) (request : Nat) (payload : RegisterRequest) (requireInvite : Bool) :
    Registry :=
  if !requireInvite then s.enter request (.cleared payload none)
  else
    match payload.inviteToken with
    | none | some [] => s.finish request 403
    | some token =>
      -- `SELECT … FOR UPDATE` waits for the lock
      if (s.locks token).isSome then s
      else
        match s.invitations.find token with
        | none => s.finish request 403
        | some invite =>
          match refuseInvite s.now invite with
          | some status => s.finish request status
          | none =>
            { s with locks := Function.update s.locks token (some request) }.enter request
              (.cleared payload (some token))

/-- `invite.used_by_id = user.id` and `used_at`. -/
def Invitation.use (invite : Invitation) (user now : Nat) : Invitation :=
  { invite with usedById := some user, usedAt := some now }

/-- The new account, and what it has been created with. -/
def Registry.create (s : Registry) (payload : RegisterRequest) (invite : Option Invitation) : Registry :=
  { s with
    users := s.users.insert ⟨s.nextUser, strip payload.username, .registered, s.now⟩
    nextUser := s.nextUser + 1
    invitations := match invite with
      | some invite => s.invitations.updateAt invite.token (fun i => i.use s.nextUser s.now) fun _ => rfl
      | none => s.invitations
    created := match invite with
      | some invite => ⟨invite.token, s.nextUser, s.now, invite.expiresAt⟩ :: s.created
      | none => s.created }

/-- The flush and the commit of `register`. -/
def commitRegistration (s : Registry) (request : Nat) (payload : RegisterRequest)
    (invite : Option Text) : Registry :=
  -- the column is unique: another registration has taken the name since
  if !nameFree s.users (strip payload.username) then s.finish request 500
  else
    match invite with
    | none => (s.create payload none).finish request 201
    | some token =>
      match s.invitations.find token with
      -- there is no row to update
      | none => s.finish request 500
      | some row => (s.create payload (some row)).finish request 201

/-- The foreign keys of `invitations` when a user is deleted. -/
def Invitation.unlink (id : Nat) (invite : Invitation) : Invitation :=
  { invite with usedById := if invite.usedById = some id then none else invite.usedById }

/-- A user is deleted. The deletion waits for the rows that it changes. -/
def deleteUser (s : Registry) (id : Nat) : Registry :=
  if s.invitations.list.any fun i =>
      (i.usedById = some id || i.createdById = id) && (s.locks i.token).isSome then s
  else
    { s with
      users := s.users.delete id
      invitations := (s.invitations.filter fun i => i.createdById ≠ id).update (Invitation.unlink id)
        fun _ => rfl }

def Registry.next (s : Registry) : RegisterEvent → Registry
  | .pass time => { s with now := s.now + time }
  | .invite token creator => createInvite s token creator
  | .register request payload =>
    match s.requests request with
    | .outside =>
      match refuseRegistration payload with
      | some (status, _) => s.finish request status
      | none =>
        if nameFree s.users (strip payload.username) then s.enter request (.named payload)
        else s.finish request 409
    | _ => s
  | .gate request requireInvite =>
    match s.requests request with
    | .named payload => inviteGate s request payload requireInvite
    | _ => s
  | .commit request =>
    match s.requests request with
    | .cleared payload invite => commitRegistration s request payload invite
    | _ => s
  | .abort request => s.finish request 500
  | .deleteUser id => deleteUser s id

/-- At most one account has been created with each token, and none after its
expiry. -/
structure UsedOnce (created : List Creation) : Prop where
  once : (created.map Creation.token).Nodup
  inTime : ∀ c ∈ created, ∀ e ∈ c.expiresAt, c.time ≤ e

/-- A registration is committed with an invitation when every account that has
been created with it is still there, and before it expires. -/
def TakesUnused (s : Registry) : RegisterEvent → Prop
  | .commit request =>
    match s.requests request with
    | .cleared payload (some token) =>
      nameFree s.users (strip payload.username) = true →
        ∀ row, s.invitations.find token = some row →
          (∀ c ∈ s.created, c.token = token → ∃ u ∈ s.users.list, u.id = c.user) ∧
            ∀ e ∈ row.expiresAt, s.now ≤ e
    | _ => True
  | _ => True

/-! ## What a run keeps -/

/-- An invitation names the account that was created with it as long as that is
there, and one whose row is locked names none. -/
structure Linked (s : Registry) : Prop where
  usedOnce : UsedOnce s.created
  linked : ∀ c ∈ s.created, ∀ u ∈ s.users.list, u.id = c.user →
    ∀ i ∈ s.invitations.list, i.token = c.token → i.usedById = some c.user
  locked : ∀ r payload token, s.requests r = .cleared payload (some token) → s.locks token = some r
  unlinked : ∀ r payload token, s.requests r = .cleared payload (some token) →
    ∀ i ∈ s.invitations.list, i.token = token → i.usedById = none
  userLt : ∀ u ∈ s.users.list, u.id < s.nextUser
  createdLt : ∀ c ∈ s.created, c.user < s.nextUser
  createdIssued : ∀ c ∈ s.created, c.token ∈ s.issued
  rowIssued : ∀ i ∈ s.invitations.list, i.token ∈ s.issued

variable {s : Registry} {request : Nat}

theorem linked_init : Linked {} where
  usedOnce := ⟨List.nodup_nil, fun _ hc => absurd hc List.not_mem_nil⟩
  linked := fun _ hc => absurd hc List.not_mem_nil
  locked := fun _ _ _ hr => absurd hr (by simp)
  unlinked := fun _ _ _ hr => absurd hr (by simp)
  userLt := fun _ hu => absurd hu List.not_mem_nil
  createdLt := fun _ hc => absurd hc List.not_mem_nil
  createdIssued := fun _ hc => absurd hc List.not_mem_nil
  rowIssued := fun _ hi => absurd hi List.not_mem_nil

/-- Where one request goes elsewhere, it is another that is past the gate with
an invitation. -/
theorem cleared_of_enter {phase : RegisterPhase} {r : Nat} {payload : RegisterRequest} {token : Text}
    (hphase : ∀ payload token, phase ≠ .cleared payload (some token))
    (hr : (s.enter request phase).requests r = .cleared payload (some token)) :
    r ≠ request ∧ s.requests r = .cleared payload (some token) := by
  change Function.update s.requests request phase r = .cleared payload (some token) at hr
  by_cases heq : r = request
  · rw [heq, Function.update_self] at hr
    exact absurd hr (hphase payload token)
  · rw [Function.update_of_ne heq] at hr
    exact ⟨heq, hr⟩

/-- The end of a request leaves the locks of the others. -/
theorem finish_locks {r status : Nat} {token : Text} (hne : r ≠ request) (hlock : s.locks token = some r) :
    (s.finish request status).locks token = some r := by
  show (if s.locks token = some request then none else s.locks token) = some r
  rw [hlock, if_neg fun heq => hne (Option.some.inj heq)]

/-- A request that is not past the gate with an invitation. -/
theorem Linked.enter (h : Linked s) {phase : RegisterPhase}
    (hphase : ∀ payload token, phase ≠ .cleared payload (some token)) :
    Linked (s.enter request phase) :=
  { h with
    locked := fun r payload token hr => h.locked r payload token (cleared_of_enter hphase hr).2
    unlinked := fun r payload token hr => h.unlinked r payload token (cleared_of_enter hphase hr).2 }

theorem Linked.finish (h : Linked s) (status : Nat) : Linked (s.finish request status) := by
  have hentered : Linked (s.enter request (.answered status)) := h.enter (by simp)
  refine { h with locked := ?_, unlinked := hentered.unlinked }
  intro r payload token hr
  obtain ⟨hne, hcleared⟩ := cleared_of_enter (by simp) hr
  exact finish_locks hne (h.locked r payload token hcleared)

theorem Linked.createInvite (h : Linked s) (token : Text) (creator : Nat) :
    Linked (createInvite s token creator) := by
  unfold Accounts.createInvite
  split
  next => exact h
  next hnew =>
    have hnew : token ∉ s.issued := by
      intro hmem
      exact hnew (.inl (List.any_eq_true.mpr ⟨token, hmem, decide_eq_true rfl⟩))
    have hrows : ∀ i, i ∈ (s.invitations.insert
        { token := token, createdById := creator, expiresAt := some (s.now + inviteTtl) }).list →
          i ∈ s.invitations.list ∨ i.token = token ∧ i.usedById = none := by
      intro i hi
      rcases Rows.mem_of_mem_insert hi with hold | rfl
      · exact .inl hold
      · exact .inr ⟨rfl, rfl⟩
    refine { h with linked := ?_, unlinked := ?_, createdIssued := ?_, rowIssued := ?_ }
    · intro c hc u hu hid i hi htoken
      rcases hrows i hi with hold | ⟨hi, _⟩
      · exact h.linked c hc u hu hid i hold htoken
      · exact absurd (h.createdIssued c hc) (by rw [← htoken, hi]; exact hnew)
    · intro r payload t hr i hi htoken
      rcases hrows i hi with hold | ⟨_, hnone⟩
      · exact h.unlinked r payload t hr i hold htoken
      · exact hnone
    · exact fun c hc => List.mem_cons_of_mem _ (h.createdIssued c hc)
    · intro i hi
      rcases hrows i hi with hold | ⟨heq, _⟩
      · exact List.mem_cons_of_mem _ (h.rowIssued i hold)
      · exact heq ▸ List.mem_cons_self

/-- The gate lets one request at a time through to a row that names no account. -/
theorem Linked.inviteGate (h : Linked s) (payload : RegisterRequest) (requireInvite : Bool) :
    Linked (inviteGate s request payload requireInvite) := by
  unfold Accounts.inviteGate
  split
  next => exact h.enter (by simp)
  next =>
    split
    next => exact h.finish 403
    next => exact h.finish 403
    next token _ _ =>
      split
      next => exact h
      next hfree =>
        split
        next => exact h.finish 403
        next invite hfind =>
          split
          next status _ => exact h.finish status
          next hpass =>
            have hunused : invite.usedById = none := by
              unfold refuseInvite at hpass
              split at hpass
              next => exact absurd hpass (by simp)
              next hnone => simpa using hnone
            have hrow : ∀ i ∈ s.invitations.list, i.token = token → i.usedById = none := by
              intro i hi htoken
              have hfind' := Rows.find_eq_some.mpr ⟨hi, htoken⟩
              rw [hfind] at hfind'
              exact Option.some.inj hfind' ▸ hunused
            refine { h with locked := ?_, unlinked := ?_ }
            · intro r payload' t hr
              show Function.update s.locks token (some request) t = some r
              by_cases heq : r = request
              · subst heq
                obtain ⟨-, rfl⟩ : payload = payload' ∧ token = t := by
                  have := hr
                  simpa [Registry.enter] using this
                exact Function.update_self ..
              · have hcleared : s.requests r = .cleared payload' (some t) := by
                  simpa [Registry.enter, Function.update_of_ne heq] using hr
                have hlock := h.locked r payload' t hcleared
                have hne : t ≠ token := by
                  intro heq'
                  rw [← heq', hlock] at hfree
                  exact hfree rfl
                rw [Function.update_of_ne hne]
                exact hlock
            · intro r payload' t hr
              by_cases heq : r = request
              · subst heq
                obtain ⟨-, rfl⟩ : payload = payload' ∧ token = t := by
                  simpa [Registry.enter] using hr
                exact hrow
              · have hcleared : s.requests r = .cleared payload' (some t) := by
                  simpa [Registry.enter, Function.update_of_ne heq] using hr
                exact h.unlinked r payload' t hcleared

/-- The users with a new one. -/
theorem mem_users {username : Text} {u : User}
    (hu : u ∈ (s.users.insert ⟨s.nextUser, username, .registered, s.now⟩).list) :
    u ∈ s.users.list ∨ u.id = s.nextUser := by
  rcases Rows.mem_of_mem_insert hu with hold | rfl
  · exact .inl hold
  · exact .inr rfl

theorem Linked.users_lt (h : Linked s) {username : Text} {u : User}
    (hu : u ∈ (s.users.insert ⟨s.nextUser, username, .registered, s.now⟩).list) :
    u.id < s.nextUser + 1 := by
  rcases mem_users hu with hold | heq
  · have := h.userLt u hold
    omega
  · omega

/-- An account without an invitation. -/
theorem Linked.createUninvited (h : Linked s) (payload : RegisterRequest) :
    Linked (s.create payload none) := by
  refine { h with linked := ?_, userLt := fun u hu => h.users_lt hu, createdLt := ?_ }
  · intro c hc u hu hid
    rcases mem_users hu with hold | heq
    · exact h.linked c hc u hold hid
    · have := h.createdLt c hc
      omega
  · intro c hc
    have := h.createdLt c hc
    show c.user < s.nextUser + 1
    omega

/-- An account with an invitation that no account has been created with. -/
theorem Linked.createInvited (h : Linked s) {payload : RegisterRequest} {row : Invitation}
    (hrequest : s.requests request = .cleared payload (some row.token))
    (hfind : s.invitations.find row.token = some row)
    (hnone : ∀ c ∈ s.created, c.token ≠ row.token) (htime : ∀ e ∈ row.expiresAt, s.now ≤ e) :
    Linked ((s.create payload (some row)).finish request 201) := by
  have hrow : row ∈ s.invitations.list := Rows.mem_of_find hfind
  have hrows : ∀ i, i ∈ (s.invitations.updateAt row.token (fun i => i.use s.nextUser s.now)
      fun _ => rfl).list →
        i = row.use s.nextUser s.now ∨ i ∈ s.invitations.list ∧ i.token ≠ row.token :=
    fun i => (Rows.mem_updateAt hfind _ _).mp
  have hother : ∀ r payload' token,
      ((s.create payload (some row)).finish request 201).requests r = .cleared payload' (some token) →
        r ≠ request ∧ s.requests r = .cleared payload' (some token) :=
    fun r payload' token hr => cleared_of_enter (s := s) (by simp) hr
  constructor
  · refine ⟨List.nodup_cons.mpr ⟨?_, h.usedOnce.once⟩, ?_⟩
    · intro hmem
      obtain ⟨c, hc, htoken⟩ := List.mem_map.mp hmem
      exact hnone c hc htoken
    · intro c hc
      rcases List.mem_cons.mp hc with rfl | hold
      · exact htime
      · exact h.usedOnce.inTime c hold
  · intro c hc u hu hid i hi htoken
    rcases List.mem_cons.mp hc with rfl | hold
    · rcases hrows i hi with rfl | ⟨_, hne⟩
      · rfl
      · exact absurd htoken hne
    · rcases hrows i hi with rfl | ⟨hmem, _⟩
      · exact absurd htoken.symm (hnone c hold)
      · rcases mem_users hu with hmem' | heq
        · exact h.linked c hold u hmem' hid i hmem htoken
        · have := h.createdLt c hold
          omega
  · intro r payload' token hr
    obtain ⟨hne, hcleared⟩ := hother r payload' token hr
    exact finish_locks hne (h.locked r payload' token hcleared)
  · intro r payload' token hr i hi htoken
    obtain ⟨hne, hcleared⟩ := hother r payload' token hr
    rcases hrows i hi with rfl | ⟨hmem, _⟩
    · -- no other request has the lock
      have hlock := h.locked r payload' token hcleared
      rw [← show row.token = token from htoken, h.locked request payload row.token hrequest] at hlock
      exact absurd (Option.some.inj hlock).symm hne
    · exact h.unlinked r payload' token hcleared i hmem htoken
  · exact fun u hu => h.users_lt hu
  · intro c hc
    show c.user < s.nextUser + 1
    rcases List.mem_cons.mp hc with rfl | hold
    · exact Nat.lt_succ_self _
    · have := h.createdLt c hold
      omega
  · intro c hc
    rcases List.mem_cons.mp hc with rfl | hold
    · exact h.rowIssued row hrow
    · exact h.createdIssued c hold
  · intro i hi
    rcases hrows i hi with rfl | ⟨hmem, _⟩
    · exact h.rowIssued row hrow
    · exact h.rowIssued i hmem

/-- The row that a registration has locked names no account, so none of those
that have been created with it is left. -/
theorem Linked.commit (h : Linked s) {payload : RegisterRequest} {invite : Option Text}
    (hrequest : s.requests request = .cleared payload invite)
    (htakes : TakesUnused s (.commit request)) :
    Linked (commitRegistration s request payload invite) := by
  unfold TakesUnused at htakes
  dsimp only at htakes
  rw [hrequest] at htakes
  unfold commitRegistration
  split
  next => exact h.finish 500
  next hfree =>
    split
    next => exact (h.createUninvited payload).finish 201
    next token =>
      split
      next => exact h.finish 500
      next row hfind =>
        obtain ⟨hrow, rfl⟩ := Rows.find_eq_some.mp hfind
        obtain ⟨hpresent, htime⟩ := htakes (by simpa using hfree) row hfind
        refine h.createInvited hrequest hfind ?_ htime
        intro c hc htoken
        obtain ⟨u, hu, hid⟩ := hpresent c hc htoken
        have hsome := h.linked c hc u hu hid row hrow htoken.symm
        rw [h.unlinked request payload row.token hrequest row hrow rfl] at hsome
        exact absurd hsome (by simp)

theorem Linked.deleteUser (h : Linked s) (id : Nat) : Linked (deleteUser s id) := by
  unfold Accounts.deleteUser
  split
  next => exact h
  next =>
    have hrows : ∀ i, i ∈ ((s.invitations.filter fun i => i.createdById ≠ id).update
        (Invitation.unlink id) fun _ => rfl).list → ∃ j ∈ s.invitations.list, j.unlink id = i := by
      intro i hi
      obtain ⟨j, hj, heq⟩ := List.mem_map.mp hi
      exact ⟨j, (List.mem_filter.mp hj).1, heq⟩
    refine { h with linked := ?_, unlinked := ?_, userLt := ?_, rowIssued := ?_ }
    · intro c hc u hu hid i hi htoken
      obtain ⟨j, hj, rfl⟩ := hrows i hi
      obtain ⟨hmem, hne⟩ := Rows.mem_delete.mp hu
      have hlinked := h.linked c hc u hmem hid j hj htoken
      show (if j.usedById = some id then none else j.usedById) = some c.user
      rw [hlinked, if_neg fun heq => hne (hid.trans (Option.some.inj heq))]
    · intro r payload token hr i hi htoken
      obtain ⟨j, hj, rfl⟩ := hrows i hi
      have hnone := h.unlinked r payload token hr j hj htoken
      show (if j.usedById = some id then none else j.usedById) = none
      rw [hnone, ite_self]
    · exact fun u hu => h.userLt u (Rows.mem_delete.mp hu).1
    · intro i hi
      obtain ⟨j, hj, rfl⟩ := hrows i hi
      exact h.rowIssued j hj

theorem linked_step (s : Registry) (e : RegisterEvent) (h : Linked s) (htakes : TakesUnused s e) :
    Linked (s.next e) := by
  cases e with
  | pass time => exact { h with }
  | invite token creator => exact h.createInvite token creator
  | register request payload =>
    unfold Registry.next
    dsimp only
    split
    next =>
      split
      next status _ _ => exact h.finish status
      next =>
        split
        next => exact h.enter (by simp)
        next => exact h.finish 409
    next => exact h
  | gate request requireInvite =>
    unfold Registry.next
    dsimp only
    split
    next payload _ => exact h.inviteGate payload requireInvite
    next => exact h
  | commit request =>
    unfold Registry.next
    dsimp only
    split
    next payload invite hrequest => exact h.commit hrequest htakes
    next => exact h
  | abort request => exact h.finish 500
  | deleteUser id => exact h.deleteUser id

/-- An account that has been created twice or late was not to be. -/
theorem takesUnused_of_usedOnce (s : Registry) (e : RegisterEvent)
    (hnext : UsedOnce (s.next e).created) : TakesUnused s e := by
  cases e with
  | commit request =>
    unfold TakesUnused
    dsimp only
    split
    next payload token hrequest =>
      intro hfree row hfind
      obtain ⟨_, rfl⟩ := Rows.find_eq_some.mp hfind
      have hcreated : (s.next (.commit request)).created =
          ⟨row.token, s.nextUser, s.now, row.expiresAt⟩ :: s.created := by
        unfold Registry.next
        dsimp only
        rw [hrequest]
        dsimp only
        unfold commitRegistration
        rw [if_neg (by simpa using hfree)]
        dsimp only
        rw [hfind]
        rfl
      rw [hcreated] at hnext
      constructor
      · intro c hc htoken
        have hnotin := (List.nodup_cons.mp hnext.once).1
        exact absurd (List.mem_map.mpr ⟨c, hc, htoken⟩) hnotin
      · exact hnext.inTime _ List.mem_cons_self
    next => trivial
  | _ => trivial

/-- All along a run each token has made at most one account, before it expired,
exactly when no registration is committed with an invitation of which an account
has been deleted, or that has expired since its check. -/
theorem usedOnce_iff (events : List RegisterEvent) :
    (∀ before after, events = before ++ after → UsedOnce (run Registry.next {} before).created) ↔
      Throughout Registry.next TakesUnused {} events :=
  along_iff (Q := fun s => UsedOnce s.created) (fun _ h => h.usedOnce) linked_step
    (fun s e _ => takesUnused_of_usedOnce s e) linked_init events

/-! ## An invitation whose account is gone -/

/-- An account, its invitation, two registrations with it, and the deletion of
the first one's account in between. -/
def deletedBetween : List RegisterEvent :=
  [.register 0 ⟨"admin".toList, "secret".toList, none⟩, .gate 0 false, .commit 0,
    .invite "token".toList 0,
    .register 1 ⟨"demo_guest".toList, "secret".toList, some "token".toList⟩, .gate 1 true, .commit 1,
    .deleteUser 1,
    .register 2 ⟨"friend".toList, "secret".toList, some "token".toList⟩, .gate 2 true, .commit 2]

theorem deletedBetween_twice : ¬ ∀ events, UsedOnce (run Registry.next {} events).created := by
  intro h
  have hcreated : (run Registry.next {} deletedBetween).created.map Creation.token =
      ["token".toList, "token".toList] := by
    decide
  have honce := (h deletedBetween).once
  rw [hcreated] at honce
  exact absurd honce (by simp)

end Eidetic.Accounts
