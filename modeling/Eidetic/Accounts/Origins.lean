import Eidetic.Accounts.Access

/-!
# What a step can do to the accounts

What a step does is one of a few things (`outcome_next`). From these cases it
follows what stays through every step, and where each session, each row and each
token or key comes from that is there after a step. The invariants of the accounts
are proved from that, and none of them unfolds a step.

The cases are of three kinds. `PhaseOrigin` says where the phase of a request
comes from: its password was right, or it was let in, or it has loaded a row,
each with what the code has checked. `RowOrigin` says it of a row: it was there,
or is that of a new account, or a commit has changed its key or whether it is
active. `GrantOrigin` says it of a token or a key.

`Outcome` puts them together: time passes, accounts are made, one is purged, a
request is put into a phase or draws a key, a login or a new demo account is
answered with a token, or a session commits. It is proved once for each event
(`outcome_login`, `outcome_issue`, `outcome_request`, `outcome_load`,
`outcome_commit`), where the guards of the source become the hypotheses of the
cases.

What stays is `Evolves`: an account keeps its identity or has a new id, only
those of demos go, what was given stays given, the clock does not go back.
`WellKept` is the invariant that ids and names are each one account's, and
`Known` what it gives of an account that was there at some time: who has its id
later is the same.
-/

namespace Eidetic.Accounts

open Eidetic.Lib Eidetic.Py

variable {c : Secrecy} {expire : Nat} {s s' s'' : AccessState} {k : Nat} {u : Account} {username : Text}

/-! ## The outcomes of a step -/

/-- Some accounts are new, and everything else is as it was. -/
inductive Grown (s : AccessState) : AccessState → Prop
  | none : Grown s s
  | add {s' : AccessState} {username hashed role : Text} (h : Grown s s')
      (hrole : role = adminRole → username = adminName) : Grown s (s'.add username hashed role)

/-- Where the phase of a request comes from. -/
inductive PhaseOrigin (c : Secrecy) (s : AccessState) (e : AccessEvent) (k : Nat) : AccessPhase → Prop
  | verified {user : Account} {password : Text} {mint : Bool}
      (huser : authenticateUser c s.users user.username password = some user) :
      PhaseOrigin c s e k (.verified user password mint)
  | allowed {user : Account} {token : Text} {op : AccountOp} (he : e = .request k token op)
      (hfree : s.phases k = none) (huser : currentUser c s.now s.users token = some user)
      (hpermits : op.permits user = true) (hfresh : s.isFresh op = true) :
      PhaseOrigin c s e k (.allowed user token s.now op)
  | loaded {admin target : Account} {token : Text} {asked id : Nat}
      (hphase : s.phases k = some (.allowed admin token asked (.toggleUserActive id)))
      (htarget : target ∈ s.users.list) (hne : target.id ≠ admin.id) :
      PhaseOrigin c s e k (.loaded admin target)

/-- A row of a new account. -/
structure IsNew (nextId : Nat) (u' : Account) : Prop where
  id : nextId ≤ u'.id
  active : u'.isActive = true
  key : u'.apiKey = none
  role : u'.role = adminRole → u'.username = adminName

/-- Where a row comes from. -/
inductive RowOrigin (c : Secrecy) (s : AccessState) (e : AccessEvent) (u' : Account) : Prop
  | kept (hu : u' ∈ s.users.list)
  | created (hnew : IsNew s.nextId u')
  | generated {k : Nat} {u user : Account} {token key : Text} {asked : Nat} {users : AccountRows}
      (he : e = .commit k) (hphase : s.phases k = some (.allowed user token asked (.generateApiKey key)))
      (hsave : saveKey s.users user (some (c.sha256 key)) = some users)
      (hu : u ∈ s.users.list) (hid : u.id = user.id) (heq : u' = setKey (some (c.sha256 key)) u)
  | revoked {u : Account} (hu : u ∈ s.users.list) (heq : u' = setKey none u)
  | toggled {k : Nat} {u admin target : Account} (hphase : s.phases k = some (.loaded admin target))
      (hu : u ∈ s.users.list) (hid : u.id = target.id) (heq : u' = setActive (!target.isActive) u)

/-- Where a token or a key comes from. -/
inductive GrantOrigin (c : Secrecy) (expire : Nat) (s : AccessState) (e : AccessEvent) :
    Grant Text Holder → Prop
  | kept {g : Grant Text Holder} (hg : g ∈ s.given) : GrantOrigin c expire s e g
  | password {k : Nat} {user : Account} {plain : Text}
      (hphase : s.phases k = some (.verified user plain false)) :
      GrantOrigin c expire s e
        { secret := createAccessToken c expire s.now user.username
          holder := ⟨user.id, user.username, some plain⟩
          time := s.now }
  | minted (hex : Text) :
      GrantOrigin c expire s e
        { secret := createAccessToken c expire s.now (mintedName hex)
          holder := ⟨s.nextId, mintedName hex, none⟩
          time := s.now }
  | key {k : Nat} {user : Account} {token key : Text} {asked : Nat} {users : AccountRows}
      (he : e = .commit k) (hphase : s.phases k = some (.allowed user token asked (.generateApiKey key)))
      (hsave : saveKey s.users user (some (c.sha256 key)) = some users) :
      GrantOrigin c expire s e
        { secret := key
          holder := ⟨user.id, user.username, none⟩
          time := s.now
          via := some (token, asked) }

/-- What a step does. -/
inductive Outcome (c : Secrecy) (expire : Nat) (s : AccessState) (e : AccessEvent) : AccessState → Prop
  | passed (seconds : Nat) : Outcome c expire s e { s with now := s.now + seconds }
  | grown {s' : AccessState} (h : Grown s s') : Outcome c expire s e s'
  | purged {id : Nat} {u : Account} (hfind : s.users.find id = some u)
      (hdemo : isEphemeralDemo u.username = true) :
      Outcome c expire s e { s with users := s.users.delete id }
  | put {k : Nat} {o : Option AccessPhase} (h : ∀ phase, o = some phase → PhaseOrigin c s e k phase) :
      Outcome c expire s e (s.put k o)
  | asked {k : Nat} {user : Account} {token : Text} {op : AccountOp}
      (h : PhaseOrigin c s e k (.allowed user token s.now op)) :
      Outcome c expire s e ((s.draw op).put k (some (.allowed user token s.now op)))
  | entered {k : Nat} {user : Account} {plain : Text} (hphase : s.phases k = some (.verified user plain false)) :
      Outcome c expire s e ((s.put k none).give
        { secret := createAccessToken c expire s.now user.username
          holder := ⟨user.id, user.username, some plain⟩
          time := s.now })
  | minted {k : Nat} {s' : AccessState} (hex : Text) (h : Grown (s.put k none) s') :
      Outcome c expire s e (s'.give
        { secret := createAccessToken c expire s.now (mintedName hex)
          holder := ⟨s.nextId, mintedName hex, none⟩
          time := s.now })
  | generated {k : Nat} {user : Account} {token key : Text} {asked : Nat} {users : AccountRows}
      (he : e = .commit k) (hphase : s.phases k = some (.allowed user token asked (.generateApiKey key)))
      (hsave : saveKey s.users user (some (c.sha256 key)) = some users) :
      Outcome c expire s e (({ s with users := users }.put k none).give
        { secret := key
          holder := ⟨user.id, user.username, none⟩
          time := s.now
          via := some (token, asked) })
  | revoked {k : Nat} {user : Account} {users : AccountRows} (hsave : saveKey s.users user none = some users) :
      Outcome c expire s e ({ s with users := users }.put k none)
  | toggled {k : Nat} {admin target : Account} (hphase : s.phases k = some (.loaded admin target)) :
      Outcome c expire s e
        ({ s with
            users := s.users.updateAt target.id (setActive !target.isActive) fun _ => rfl }.put k none)

variable {e : AccessEvent} {j : Nat} {phase : AccessPhase} {u' : Account} {g : Grant Text Holder}

theorem outcome_put_none (k : Nat) : Outcome c expire s e (s.put k none) :=
  .put fun _ h => absurd h (by simp)

theorem userRole_ne : userRole ≠ adminRole := by decide

theorem grown_user (username hashed : Text) : Grown s (s.add username hashed userRole) :=
  .add .none fun hrole => absurd hrole userRole_ne

theorem grown_seed (password salt : Text → Text) : Grown s (seed c s password salt) := by
  have hall : ∀ u ∈ seedUsers, u.2 = adminRole → u.1 = adminName := by decide
  have hfold : ∀ (users : List (Text × Text)) (s' : AccessState), Grown s s' →
      (∀ u ∈ users, u.2 = adminRole → u.1 = adminName) →
      Grown s (users.foldl (fun s u => s.add u.1 (c.hashpw (salt u.1) (password u.1)) u.2) s') := by
    intro users
    induction users with
    | nil => exact fun _ h _ => h
    | cons u users ih =>
      intro s' h hroles
      refine ih _ (.add h (hroles u (List.mem_cons_self ..))) ?_
      exact fun v hv => hroles v (List.mem_cons_of_mem _ hv)
  exact hfold seedUsers s .none hall

theorem outcome_login (username password : Text) (demo : Option Text) :
    Outcome c expire s e (login c s k username password demo) := by
  unfold login
  split
  next user _ huser =>
    refine .put fun phase hphase => ?_
    obtain rfl := Option.some.inj hphase
    have hname : user.username = username := by
      have hfind := List.find?_some (Option.filter_eq_some_iff.mp huser).1
      simpa using hfind
    exact .verified (hname ▸ huser)
  next => exact .grown .none

theorem outcome_issue (hex password salt : Text) :
    Outcome c expire s e (issue c expire s k hex password salt) := by
  unfold issue
  split
  next user plain hphase => exact .entered hphase
  next =>
    unfold mint
    split
    · exact outcome_put_none k
    · exact .minted hex (grown_user ..)
  next => exact .grown .none

theorem outcome_request (token : Text) (op : AccountOp) :
    Outcome c expire s (.request k token op) (request c s k token op) := by
  unfold request
  split
  next user hfree huser =>
    split
    next hmay =>
      obtain ⟨hpermits, hfresh⟩ := Bool.and_eq_true_iff.mp hmay
      exact .asked (.allowed rfl hfree huser hpermits hfresh)
    next => exact .grown .none
  next => exact .grown .none

theorem outcome_load : Outcome c expire s e (load s k) := by
  unfold load
  split
  next admin token asked id hphase =>
    split
    next target hfind =>
      refine .put fun phase h => ?_
      split at h
      next => exact absurd h (by simp)
      next hne =>
        obtain rfl := Option.some.inj h
        exact .loaded hphase (Rows.mem_of_find hfind) hne
    next => exact outcome_put_none k
  next => exact .grown .none

theorem outcome_commit : Outcome c expire s (.commit k) (commit c s k) := by
  unfold commit
  split
  next user token asked key hphase =>
    split
    next users hsave => exact .generated rfl hphase hsave
    next => exact outcome_put_none k
  next =>
    split
    next users hsave => exact .revoked hsave
    next => exact outcome_put_none k
  next admin target hphase =>
    split
    next => exact outcome_put_none k
    next => exact .toggled hphase
  next => exact .grown .none

theorem outcome_next (s : AccessState) (e : AccessEvent) : Outcome c expire s e (accessNext c expire s e) := by
  cases e with
  | pass seconds => exact .passed seconds
  | register payload salt =>
    show Outcome c expire s _ (register c s payload salt)
    unfold register
    split
    · exact .grown .none
    · exact .grown (grown_user ..)
  | seed password salt => exact .grown (grown_seed password salt)
  | purge id =>
    show Outcome c expire s _ (purge s id)
    unfold purge
    split
    next u hfind =>
      split
      next hdemo => exact .purged hfind hdemo
      next => exact .grown .none
    next => exact .grown .none
  | login k username password demo => exact outcome_login username password demo
  | issue k hex password salt => exact outcome_issue hex password salt
  | request k token op => exact outcome_request token op
  | load k => exact outcome_load
  | commit k => exact outcome_commit
  | leave k => exact outcome_put_none k

/-- What new accounts leave as it is. -/
structure SameElse (s s' : AccessState) : Prop where
  phases : s'.phases = s.phases
  given : s'.given = s.given
  drawn : s'.drawn = s.drawn

theorem sameElse_add (username hashed role : Text) : SameElse s (s.add username hashed role) := by
  unfold AccessState.add
  split
  · exact ⟨rfl, rfl, rfl⟩
  · exact ⟨rfl, rfl, rfl⟩

theorem Grown.sameElse (h : Grown s s') : SameElse s s' := by
  induction h with
  | none => exact ⟨rfl, rfl, rfl⟩
  | @add s' username hashed role _ _ ih =>
    have hadd : SameElse s' (s'.add username hashed role) := sameElse_add username hashed role
    exact ⟨hadd.phases.trans ih.phases, hadd.given.trans ih.given, hadd.drawn.trans ih.drawn⟩

/-! ## What stays through every step -/

/-- What a step does to the accounts and to what was given. -/
structure Evolves (s s' : AccessState) : Prop where
  now : s.now ≤ s'.now
  nextId : s.nextId ≤ s'.nextId
  /-- An account is an earlier one, or it has a new id. -/
  rows : ∀ u' ∈ s'.users.list,
    (∃ u ∈ s.users.list, u.toIdentity = u'.toIdentity) ∨ s.nextId ≤ u'.id ∧ u'.id < s'.nextId
  /-- Only accounts of demos go. -/
  stays : ∀ u ∈ s.users.list, isEphemeralDemo u.username = false →
    ∃ u' ∈ s'.users.list, u'.toIdentity = u.toIdentity
  given : ∀ g ∈ s.given, g ∈ s'.given

theorem Evolves.refl (s : AccessState) : Evolves s s where
  now := Nat.le_refl _
  nextId := Nat.le_refl _
  rows u hu := .inl ⟨u, hu, rfl⟩
  stays u hu _ := ⟨u, hu, rfl⟩
  given _ hg := hg

theorem Evolves.trans (h : Evolves s s') (h' : Evolves s' s'') : Evolves s s'' where
  now := Nat.le_trans h.now h'.now
  nextId := Nat.le_trans h.nextId h'.nextId
  rows u'' hu'' := by
    rcases h'.rows u'' hu'' with ⟨u', hu', hsame'⟩ | ⟨hge, hlt⟩
    · rcases h.rows u' hu' with ⟨u, hu, hsame⟩ | ⟨hge, hlt⟩
      · exact .inl ⟨u, hu, hsame.trans hsame'⟩
      · have hid : u'.id = u''.id := congrArg Identity.id hsame'
        have := h'.nextId
        exact .inr ⟨by omega, by omega⟩
    · have := h.nextId
      exact .inr ⟨by omega, hlt⟩
  stays u hu hdemo := by
    obtain ⟨u', hu', hsame⟩ := h.stays u hu hdemo
    have hname : u'.username = u.username := congrArg Identity.username hsame
    obtain ⟨u'', hu'', hsame'⟩ := h'.stays u' hu' (hname ▸ hdemo)
    exact ⟨u'', hu'', hsame'.trans hsame⟩
  given g hg := h'.given g (h.given g hg)

/-- The phases and the keys that were drawn have no part in it. -/
theorem Evolves.of_eq (hnow : s.now ≤ s'.now) (husers : s'.users = s.users) (hid : s'.nextId = s.nextId)
    (hgiven : s'.given = s.given) : Evolves s s' where
  now := hnow
  nextId := Nat.le_of_eq hid.symm
  rows u hu := .inl ⟨u, husers ▸ hu, rfl⟩
  stays u hu _ := ⟨u, husers ▸ hu, rfl⟩
  given _ hg := hgiven ▸ hg

theorem evolves_put (k : Nat) (phase : Option AccessPhase) : Evolves s (s.put k phase) :=
  .of_eq (Nat.le_refl _) rfl rfl rfl

theorem evolves_give (g : Grant Text Holder) : Evolves s (s.give g) :=
  { Evolves.refl s with given := fun _ hg => List.mem_cons_of_mem _ hg }

theorem evolves_draw (op : AccountOp) : Evolves s (s.draw op) := by
  cases op with
  | generateApiKey key => exact .of_eq (Nat.le_refl _) rfl rfl rfl
  | revokeApiKey => exact Evolves.refl s
  | toggleUserActive id => exact Evolves.refl s

/-- A row that is changed keeps who it is. -/
theorem evolves_updateAt {id : Nat} (f : Account → Account) (hf : ∀ u, (f u).toIdentity = u.toIdentity)
    (hid : ∀ u, (f u).id = u.id) : Evolves s { s with users := s.users.updateAt id f hid } := by
  have hrow : ∀ u : Account, (if u.id = id then f u else u).toIdentity = u.toIdentity := by
    intro u
    split
    · exact hf u
    · rfl
  refine { Evolves.refl s with rows := ?_, stays := ?_ }
  · intro u' hu'
    obtain ⟨u, hu, rfl⟩ := List.mem_map.mp hu'
    exact .inl ⟨u, hu, (hrow u).symm⟩
  · intro u hu _
    exact ⟨_, List.mem_map_of_mem hu, hrow u⟩

theorem evolves_add (username hashed role : Text) : Evolves s (s.add username hashed role) := by
  unfold AccessState.add
  split
  · exact Evolves.refl s
  · refine { Evolves.refl s with nextId := Nat.le_succ _, rows := ?_, stays := ?_ }
    · intro u' hu'
      rcases Rows.mem_of_mem_insert hu' with hold | rfl
      · exact .inl ⟨u', hold, rfl⟩
      · exact .inr ⟨Nat.le_refl _, Nat.lt_succ_self _⟩
    · intro u hu _
      exact ⟨u, Rows.mem_insert_of_mem hu, rfl⟩

theorem Grown.evolves (h : Grown s s') : Evolves s s' := by
  induction h with
  | none => exact Evolves.refl s
  | add _ _ ih => exact ih.trans (evolves_add ..)

theorem evolves_delete {id : Nat} (hfind : s.users.find id = some u)
    (hdemo : isEphemeralDemo u.username = true) : Evolves s { s with users := s.users.delete id } := by
  refine { Evolves.refl s with rows := ?_, stays := ?_ }
  · intro v hv
    exact .inl ⟨v, (Rows.mem_delete.mp hv).1, rfl⟩
  · intro v hv hv'
    refine ⟨v, Rows.mem_delete.mpr ⟨hv, ?_⟩, rfl⟩
    intro hid
    obtain rfl : v = u := Option.some.inj ((Rows.find_eq_some.mpr ⟨hv, hid⟩).symm.trans hfind)
    rw [hdemo] at hv'
    exact absurd hv' (by simp)

theorem evolves_saveKey {users : AccountRows} {user : Account} {wanted : Option Text}
    (h : saveKey s.users user wanted = some users) : Evolves s { s with users := users } := by
  unfold saveKey at h
  split at h
  next =>
    obtain rfl := Option.some.inj h
    exact Evolves.refl s
  next =>
    split at h
    next => exact absurd h (by simp)
    next =>
      split at h
      next => exact absurd h (by simp)
      next =>
        obtain rfl := Option.some.inj h
        exact evolves_updateAt (setKey wanted) (fun _ => rfl) fun _ => rfl

theorem Outcome.evolves (h : Outcome c expire s e s') : Evolves s s' := by
  cases h with
  | passed seconds => exact .of_eq (Nat.le_add_right ..) rfl rfl rfl
  | grown h => exact h.evolves
  | purged hfind hdemo => exact evolves_delete hfind hdemo
  | put _ => exact evolves_put ..
  | asked _ => exact (evolves_draw _).trans (evolves_put ..)
  | entered _ => exact (evolves_put ..).trans (evolves_give _)
  | minted hex h => exact ((evolves_put ..).trans h.evolves).trans (evolves_give _)
  | generated _ _ hsave => exact ((evolves_saveKey hsave).trans (evolves_put ..)).trans (evolves_give _)
  | revoked hsave => exact (evolves_saveKey hsave).trans (evolves_put ..)
  | toggled _ =>
    exact (evolves_updateAt (setActive _) (fun _ => rfl) fun _ => rfl).trans (evolves_put ..)

theorem evolves_next (s : AccessState) (e : AccessEvent) : Evolves s (accessNext c expire s e) :=
  (outcome_next s e).evolves

theorem evolves_run (s : AccessState) (es : List AccessEvent) :
    Evolves s (run (accessNext c expire) s es) := by
  induction es generalizing s with
  | nil => exact Evolves.refl s
  | cons e es ih => exact (evolves_next s e).trans (ih _)

/-! ## The accounts that were loaded -/

/-- An account that was there: its id is no other's, and it still is there unless
it is that of a demo. -/
structure Known (s : AccessState) (i : Identity) : Prop where
  old : i.id < s.nextId
  same : ∀ u ∈ s.users.list, u.id = i.id → u.toIdentity = i
  there : isEphemeralDemo i.username = false → ∃ u ∈ s.users.list, u.toIdentity = i

theorem Known.next {i : Identity} (h : Known s i) (hev : Evolves s s') : Known s' i where
  old := Nat.lt_of_lt_of_le h.old hev.nextId
  same u' hu' hid := by
    rcases hev.rows u' hu' with ⟨u, hu, hsame⟩ | ⟨hge, _⟩
    · have huid : u.id = u'.id := congrArg Identity.id hsame
      exact hsame.symm.trans (h.same u hu (huid.trans hid))
    · have := h.old
      omega
  there hdemo := by
    obtain ⟨u, hu, rfl⟩ := h.there hdemo
    obtain ⟨u', hu', hsame⟩ := hev.stays u hu hdemo
    exact ⟨u', hu', hsame⟩

/-- No id is to be given again, and no two accounts have one name. -/
structure WellKept (s : AccessState) : Prop where
  old : ∀ u ∈ s.users.list, u.id < s.nextId
  names : ∀ u ∈ s.users.list, ∀ v ∈ s.users.list, u.username = v.username → u = v

theorem WellKept.known (h : WellKept s) (hu : u ∈ s.users.list) : Known s u.toIdentity where
  old := h.old u hu
  same v hv hid := by rw [List.inj_on_of_nodup_map s.users.unique hv hu hid]
  there _ := ⟨u, hu, rfl⟩

theorem WellKept.old_next (h : WellKept s) (hev : Evolves s s') :
    ∀ u ∈ s'.users.list, u.id < s'.nextId := by
  intro u' hu'
  rcases hev.rows u' hu' with ⟨u, hu, hsame⟩ | ⟨_, hlt⟩
  · have hid : u.id = u'.id := congrArg Identity.id hsame
    have hold := h.old u hu
    have hgrow := hev.nextId
    omega
  · exact hlt

/-- A step that makes no account. -/
theorem WellKept.of_nextId (h : WellKept s) (hev : Evolves s s') (hid : s'.nextId = s.nextId) :
    WellKept s' := by
  have hrow : ∀ u' ∈ s'.users.list, ∃ u ∈ s.users.list, u.toIdentity = u'.toIdentity := by
    intro u' hu'
    rcases hev.rows u' hu' with hold | ⟨hge, hlt⟩
    · exact hold
    · omega
  refine ⟨h.old_next hev, ?_⟩
  intro u' hu' v' hv' hname
  obtain ⟨u, hu, hsu⟩ := hrow u' hu'
  obtain ⟨v, hv, hsv⟩ := hrow v' hv'
  have hnu : u.username = u'.username := congrArg Identity.username hsu
  have hnv : v.username = v'.username := congrArg Identity.username hsv
  obtain rfl : u = v := h.names u hu v hv (hnu.trans (hname.trans hnv.symm))
  exact List.inj_on_of_nodup_map s'.users.unique hu' hv' (congrArg Identity.id (hsu.symm.trans hsv))

theorem WellKept.add (h : WellKept s) (username hashed role : Text) :
    WellKept (s.add username hashed role) := by
  have hold := h.old_next (evolves_add username hashed role)
  unfold AccessState.add at hold ⊢
  split
  · exact h
  next hfree =>
    rw [if_neg hfree] at hold
    refine ⟨hold, ?_⟩
    have hnot : ∀ u ∈ s.users.list, u.username ≠ username := by
      intro u hu hname
      exact hfree (List.any_eq_true.mpr ⟨u, hu, decide_eq_true hname⟩)
    intro u hu v hv hname
    rcases Rows.mem_of_mem_insert hu with hu | rfl
    · rcases Rows.mem_of_mem_insert hv with hv | rfl
      · exact h.names u hu v hv hname
      · exact absurd hname (hnot u hu)
    · rcases Rows.mem_of_mem_insert hv with hv | rfl
      · exact absurd hname.symm (hnot v hv)
      · rfl

theorem nextId_draw (op : AccountOp) : (s.draw op).nextId = s.nextId := by
  cases op <;> rfl

theorem Grown.wellKept (h : Grown s s') (hkept : WellKept s) : WellKept s' := by
  induction h with
  | none => exact hkept
  | add _ _ ih => exact ih.add ..

theorem WellKept.next (h : WellKept s) (e : AccessEvent) : WellKept (accessNext c expire s e) := by
  have hout : Outcome c expire s e (accessNext c expire s e) := outcome_next s e
  have hev := hout.evolves
  generalize accessNext c expire s e = s' at hout hev ⊢
  cases hout with
  | grown hgrown => exact hgrown.wellKept h
  | @minted k s' hex hgrown =>
    have hput : WellKept (s.put k none) := h.of_nextId (evolves_put k none) rfl
    exact (hgrown.wellKept hput).of_nextId (evolves_give _) rfl
  | asked _ => exact h.of_nextId hev (nextId_draw _)
  | passed seconds => exact h.of_nextId hev rfl
  | purged _ _ => exact h.of_nextId hev rfl
  | put _ => exact h.of_nextId hev rfl
  | entered _ => exact h.of_nextId hev rfl
  | generated _ _ _ => exact h.of_nextId hev rfl
  | revoked _ => exact h.of_nextId hev rfl
  | toggled _ => exact h.of_nextId hev rfl

theorem wellKept_start : WellKept {} where
  old _ hu := absurd hu List.not_mem_nil
  names _ hu := absurd hu List.not_mem_nil

/-! ## Who is found -/

theorem getUser_eq_some (h : WellKept s) :
    getUser s.users username = some u ↔ u ∈ s.users.list ∧ u.username = username := by
  unfold getUser
  constructor
  · intro hfind
    exact ⟨List.mem_of_find?_eq_some hfind, by simpa using List.find?_some hfind⟩
  · rintro ⟨hu, rfl⟩
    cases hfind : s.users.list.find? fun v => v.username = u.username with
    | none => exact absurd (decide_eq_true rfl) (List.find?_eq_none.mp hfind u hu)
    | some v =>
      have hname : v.username = u.username := by simpa using List.find?_some hfind
      rw [h.names v (List.mem_of_find?_eq_some hfind) u hu hname]

theorem mem_of_keyUser {token : Text} (h : keyUser c s.users token = some u) :
    u ∈ s.users.list ∧ u.apiKey = some (c.sha256 token) :=
  ⟨List.mem_of_find?_eq_some h, by simpa using List.find?_some h⟩

/-- Who is let in is active, and has the name that a token tells or the key. -/
theorem currentUser_cases {now : Nat} {users : AccountRows} {token : Text}
    (h : currentUser c now users token = some u) :
    u.isActive = true ∧ token ≠ [] ∧
      ((∃ claims, c.decode now token = some claims ∧ getUser users claims.sub = some u) ∨
        keyUser c users token = some u) := by
  -- a token that is read is looked up by name; any other text may be a key
  have hfilter : ∀ {o : Option Account}, o.filter (·.isActive) = some u → o = some u ∧ u.isActive = true :=
    fun ho => Option.filter_eq_some_iff.mp ho
  unfold currentUser at h
  split at h
  next => exact absurd h (by simp)
  next htoken =>
    split at h
    next claims hdecode =>
      split at h
      next =>
        obtain ⟨hget, hactive⟩ := hfilter h
        exact ⟨hactive, htoken, .inl ⟨claims, hdecode, hget⟩⟩
      next =>
        obtain ⟨hkey, hactive⟩ := hfilter h
        exact ⟨hactive, htoken, .inr hkey⟩
    next =>
      obtain ⟨hkey, hactive⟩ := hfilter h
      exact ⟨hactive, htoken, .inr hkey⟩

theorem mem_of_currentUser {now : Nat} {token : Text} (hkept : WellKept s)
    (h : currentUser c now s.users token = some u) : u ∈ s.users.list := by
  obtain ⟨_, _, ⟨claims, _, hget⟩ | hkey⟩ := currentUser_cases h
  · exact ((getUser_eq_some hkept).mp hget).1
  · exact (mem_of_keyUser hkey).1

/-! ## Where what is there comes from -/

theorem phases_put {o : Option AccessPhase} (h : (s.put k o).phases j = some phase) :
    s.phases j = some phase ∧ j ≠ k ∨ j = k ∧ o = some phase := by
  change Function.update s.phases k o j = some phase at h
  by_cases hj : j = k
  · rw [hj, Function.update_self] at h
    exact .inr ⟨hj, h⟩
  · rw [Function.update_of_ne hj] at h
    exact .inl ⟨h, hj⟩

theorem phases_put_none (h : (s.put k none).phases j = some phase) : s.phases j = some phase ∧ j ≠ k := by
  rcases phases_put h with hold | ⟨_, hnew⟩
  · exact hold
  · exact absurd hnew (by simp)

@[simp] theorem phases_draw (op : AccountOp) : (s.draw op).phases = s.phases := by
  cases op <;> rfl

@[simp] theorem given_draw (op : AccountOp) : (s.draw op).given = s.given := by
  cases op <;> rfl

@[simp] theorem users_draw (op : AccountOp) : (s.draw op).users = s.users := by
  cases op <;> rfl

theorem phases_next (h : (accessNext c expire s e).phases j = some phase) :
    s.phases j = some phase ∨ PhaseOrigin c s e j phase := by
  have hout : Outcome c expire s e (accessNext c expire s e) := outcome_next s e
  generalize accessNext c expire s e = s' at hout h
  cases hout with
  | passed seconds => exact .inl h
  | grown hgrown => exact .inl (hgrown.sameElse.phases ▸ h)
  | purged _ _ => exact .inl h
  | put horigin =>
    rcases phases_put h with ⟨hold, _⟩ | ⟨rfl, hphase⟩
    · exact .inl hold
    · exact .inr (horigin phase hphase)
  | asked horigin =>
    rcases phases_put h with ⟨hold, _⟩ | ⟨rfl, hphase⟩
    · exact .inl (phases_draw _ ▸ hold)
    · obtain rfl := Option.some.inj hphase
      exact .inr horigin
  | @entered k _ _ _ => exact .inl (phases_put_none (k := k) h).1
  | @minted k s' hex hgrown =>
    change s'.phases j = some phase at h
    rw [hgrown.sameElse.phases] at h
    exact .inl (phases_put_none h).1
  -- the steps that end a request clear its phase and leave those of the others
  | @generated k _ _ _ _ users _ _ _ =>
    exact .inl (phases_put_none (s := { s with users := users }) (k := k) h).1
  | @revoked k _ users _ => exact .inl (phases_put_none (s := { s with users := users }) (k := k) h).1
  | @toggled k _ target _ =>
    exact .inl (phases_put_none (s := { s with users := s.users.updateAt target.id _ _ }) (k := k) h).1

/-- A row after an insertion. -/
theorem rows_add {username hashed role : Text} (hrole : role = adminRole → username = adminName)
    (h : u' ∈ (s.add username hashed role).users.list) : u' ∈ s.users.list ∨ IsNew s.nextId u' := by
  unfold AccessState.add at h
  split at h
  · exact .inl h
  · rcases Rows.mem_of_mem_insert h with hold | rfl
    · exact .inl hold
    · exact .inr ⟨Nat.le_refl _, rfl, rfl, hrole⟩

theorem Grown.rows (h : Grown s s') (hu' : u' ∈ s'.users.list) : u' ∈ s.users.list ∨ IsNew s.nextId u' := by
  induction h with
  | none => exact .inl hu'
  | add hgrown hrole ih =>
    rcases rows_add hrole hu' with hold | hnew
    · exact ih hold
    · exact .inr { hnew with id := Nat.le_trans hgrown.evolves.nextId hnew.id }

/-- A row of another account, or the one that is changed. -/
theorem rows_updateAt {id : Nat} {f : Account → Account} (hf : ∀ u, (f u).id = u.id)
    (h : u' ∈ (s.users.updateAt id f hf).list) :
    u' ∈ s.users.list ∧ u'.id ≠ id ∨ ∃ u ∈ s.users.list, u.id = id ∧ u' = f u := by
  obtain ⟨u, hu, rfl⟩ := List.mem_map.mp h
  by_cases hid : u.id = id
  · exact .inr ⟨u, hu, hid, if_pos hid⟩
  · left
    rw [if_neg hid]
    exact ⟨hu, hid⟩

theorem rows_saveKey {users : AccountRows} {user : Account} {wanted : Option Text}
    (hsave : saveKey s.users user wanted = some users) (h : u' ∈ users.list) :
    u' ∈ s.users.list ∧ (wanted ≠ user.apiKey → u'.id ≠ user.id) ∨
      ∃ u ∈ s.users.list, u.id = user.id ∧ u' = setKey wanted u := by
  unfold saveKey at hsave
  split at hsave
  next hsame =>
    obtain rfl := Option.some.inj hsave
    exact .inl ⟨h, fun hne => absurd hsame hne⟩
  next =>
    split at hsave
    next => exact absurd hsave (by simp)
    next =>
      split at hsave
      next => exact absurd hsave (by simp)
      next =>
        obtain rfl := Option.some.inj hsave
        rcases rows_updateAt (f := setKey wanted) (fun _ => rfl) h with ⟨hu, hid⟩ | hchanged
        · exact .inl ⟨hu, fun _ => hid⟩
        · exact .inr hchanged

theorem rows_next (h : u' ∈ (accessNext c expire s e).users.list) : RowOrigin c s e u' := by
  have hgrow : u' ∈ s.users.list ∨ IsNew s.nextId u' → RowOrigin c s e u' := by
    rintro (hold | hnew)
    · exact .kept hold
    · exact .created hnew
  have hout : Outcome c expire s e (accessNext c expire s e) := outcome_next s e
  generalize accessNext c expire s e = s' at hout h
  cases hout with
  | passed seconds => exact .kept h
  | grown hgrown => exact hgrow (hgrown.rows h)
  | purged _ _ => exact .kept (Rows.mem_delete.mp h).1
  | put _ => exact .kept h
  | @asked k user token op _ =>
    change u' ∈ (s.draw op).users.list at h
    rw [users_draw] at h
    exact .kept h
  | entered _ => exact .kept h
  | minted hex hgrown => exact hgrow (hgrown.rows h)
  -- only the row whose key is saved changes
  | generated he hphase hsave =>
    rcases rows_saveKey hsave h with ⟨hold, _⟩ | ⟨u, hu, hid, heq⟩
    · exact .kept hold
    · exact .generated he hphase hsave hu hid heq
  | revoked hsave =>
    rcases rows_saveKey hsave h with ⟨hold, _⟩ | ⟨u, hu, _, heq⟩
    · exact .kept hold
    · exact .revoked hu heq
  | @toggled k admin target hphase =>
    rcases rows_updateAt (f := setActive !target.isActive) (fun _ => rfl) h with
      ⟨hold, _⟩ | ⟨u, hu, hid, heq⟩
    · exact .kept hold
    · exact .toggled hphase hu hid heq

theorem given_next (h : g ∈ (accessNext c expire s e).given) : GrantOrigin c expire s e g := by
  have hout : Outcome c expire s e (accessNext c expire s e) := outcome_next s e
  generalize accessNext c expire s e = s' at hout h
  cases hout with
  | passed seconds => exact .kept h
  | grown hgrown => exact .kept (hgrown.sameElse.given ▸ h)
  | purged _ _ => exact .kept h
  | put _ => exact .kept h
  | @asked k user token op _ =>
    change g ∈ (s.draw op).given at h
    rw [given_draw] at h
    exact .kept h
  | entered hphase =>
    rcases List.mem_cons.mp h with rfl | hold
    · exact .password hphase
    · exact .kept hold
  -- what is new in the list is what the step has given
  | minted hex hgrown =>
    rcases List.mem_cons.mp h with rfl | hold
    · exact .minted hex
    · rw [hgrown.sameElse.given] at hold
      exact .kept hold
  | generated he hphase hsave =>
    rcases List.mem_cons.mp h with rfl | hold
    · exact .key he hphase hsave
    · exact .kept hold
  | revoked _ => exact .kept h
  | toggled _ => exact .kept h

/-- The commit of a request for a key. -/
theorem commit_generated {user : Account} {token key : Text} {asked : Nat} {users : AccountRows}
    (hphase : s.phases k = some (.allowed user token asked (.generateApiKey key)))
    (hsave : saveKey s.users user (some (c.sha256 key)) = some users) :
    commit c s k = ({ s with users := users }.put k none).give
      { secret := key
        holder := ⟨user.id, user.username, none⟩
        time := s.now
        via := some (token, asked) } := by
  unfold commit
  rw [hphase]
  dsimp only
  rw [hsave]

theorem mem_given_commit {user : Account} {token key : Text} {asked : Nat} {users : AccountRows}
    (hphase : s.phases k = some (.allowed user token asked (.generateApiKey key)))
    (hsave : saveKey s.users user (some (c.sha256 key)) = some users) :
    { secret := key, holder := ⟨user.id, user.username, none⟩, time := s.now, via := some (token, asked) } ∈
      (commit c s k).given := by
  rw [commit_generated hphase hsave]
  exact List.mem_cons_self ..

/-- A key is drawn by the request that is let in for it. -/
theorem drawn_request {user : Account} {token : Text} {op : AccountOp} (hfree : s.phases k = none)
    (huser : currentUser c s.now s.users token = some user) (hpermits : op.permits user = true)
    (hfresh : s.isFresh op = true) : (request c s k token op).drawn = (s.draw op).drawn := by
  unfold request
  rw [hfree, huser]
  dsimp only
  rw [if_pos (Bool.and_eq_true_iff.mpr ⟨hpermits, hfresh⟩)]
  rfl

theorem drawn_draw {key : Text} (op : AccountOp) (h : key ∈ s.drawn) : key ∈ (s.draw op).drawn := by
  cases op with
  | generateApiKey new => exact List.mem_cons_of_mem _ h
  | revokeApiKey => exact h
  | toggleUserActive id => exact h

/-- A key that was drawn stays so. -/
theorem drawn_next {key : Text} (h : key ∈ s.drawn) : key ∈ (accessNext c expire s e).drawn := by
  have hout : Outcome c expire s e (accessNext c expire s e) := outcome_next s e
  generalize accessNext c expire s e = s' at hout ⊢
  cases hout with
  | passed seconds => exact h
  | grown hgrown => exact hgrown.sameElse.drawn ▸ h
  | purged _ _ => exact h
  | put _ => exact h
  | asked _ => exact drawn_draw _ h
  | entered _ => exact h
  | @minted k s' hex hgrown =>
    show key ∈ s'.drawn
    rw [hgrown.sameElse.drawn]
    exact h
  | generated _ _ _ => exact h
  | revoked _ => exact h
  | toggled _ => exact h

end Eidetic.Accounts
