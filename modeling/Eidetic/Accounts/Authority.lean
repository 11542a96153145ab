import Eidetic.Accounts.Origins

/-!
# By what right a token or a key opens an account

`get_current_user` finds the account by the name that a token tells, or by the
hash of a key, and a key is generated by a request that was let in with a token
or a key. So every request is let in through a chain that begins with a login
under the name of the account, of which each link was alive when it was used
(`let_in_rooted`). The name of an account of a demo is free again once it is
purged; for any other the login was with the password of this very account.

A key that a committed request has revoked or replaced never lets anyone in
again, whatever overlaps with it (`revoked_refused`).

The two results have an invariant each. `KeysOnce` says that every key is given
for one account: a key that a request has drawn is in no row until its commit
and is that of no other request, and the hash in a row is that of a key that was
given for its account. From it a key that its row no longer has is `Dead`, and
stays so through every step (`Dead.next`).

`Sound` adds where what is there comes from: each token from a login, the key of
each row from a request that was let in, the phase of each request from a text
that opened its account when it was asked. The chains are `Rooted` of the
library: each link was alive when it was used, and the oldest is a login.
`Sound.next` takes a step apart into tokens, keys and phases
(`Sound.tokens_next`, `Sound.keys_next`, `AccessPhase.Sound.next`), each by the
outcomes of a step.

That nobody else signs tokens is the hypothesis `NotForged`: a text that decodes
has been given. It is asked of what the requests of the run present
(`PresentsOwn`), and of the text that is presented at its end.
-/

namespace Eidetic.Accounts

open Eidetic.Lib Eidetic.Py

variable {c : Secrecy} {expire : Nat} {s s' : AccessState} {e : AccessEvent} {k : Nat} {u : Account}
  {g : Grant Text Holder}

/-! ## Every key is given once -/

/-- A key with a hash was given for an account. -/
def HasKey (c : Secrecy) (s : AccessState) (id : Nat) (hash : Text) : Prop :=
  ∃ g ∈ s.given, g.via ≠ none ∧ g.holder.account = id ∧ c.sha256 g.secret = hash

def IsPending (s : AccessState) (k : Nat) (key : Text) : Prop :=
  ∃ user token asked, s.phases k = some (.allowed user token asked (.generateApiKey key))

structure KeysOnce (c : Secrecy) (s : AccessState) : Prop extends WellKept s where
  drawn : ∀ g ∈ s.given, g.via ≠ none → g.secret ∈ s.drawn ∧ '.' ∉ g.secret
  once : ∀ g ∈ s.given, ∀ g' ∈ s.given, g.via ≠ none → g'.via ≠ none → g.secret = g'.secret →
    g.holder.account = g'.holder.account
  pending : ∀ k key, IsPending s k key →
    (key ∈ s.drawn ∧ '.' ∉ key) ∧ (∀ g ∈ s.given, g.via ≠ none → g.secret ≠ key) ∧
      ∀ j, IsPending s j key → j = k
  rows : ∀ u ∈ s.users.list, ∀ h, u.apiKey = some h → HasKey c s u.id h
  loaded : ∀ k user token asked op, s.phases k = some (.allowed user token asked op) →
    ∀ h, user.apiKey = some h → HasKey c s user.id h

theorem HasKey.next {id : Nat} {hash : Text} (h : HasKey c s id hash) (hev : Evolves s s') :
    HasKey c s' id hash := by
  obtain ⟨g, hg, hrest⟩ := h
  exact ⟨g, hev.given g hg, hrest⟩

theorem isFresh_generate {key : Text} (h : s.isFresh (.generateApiKey key) = true) :
    key ∉ s.drawn ∧ '.' ∉ key := by
  unfold AccessState.isFresh at h
  simp only [Bool.and_eq_true, Bool.not_eq_true', List.any_eq_false, decide_eq_true_eq] at h
  exact ⟨fun hmem => h.1 key hmem rfl, fun hmem => h.2 '.' hmem rfl⟩

/-- A request for a key that is there after a step was there, or has drawn it. -/
theorem isPending_next {key : Text} (h : IsPending (accessNext c expire s e) k key) :
    IsPending s k key ∨ key ∉ s.drawn ∧ '.' ∉ key ∧ key ∈ (accessNext c expire s e).drawn ∧
      ∃ token, e = .request k token (.generateApiKey key) := by
  obtain ⟨user, token, asked, hphase⟩ := h
  rcases phases_next hphase with hold | hnew
  · exact .inl ⟨user, token, asked, hold⟩
  · cases hnew with
    | allowed he hfree huser hpermits hfresh =>
      obtain ⟨hdrawn, hdot⟩ := isFresh_generate hfresh
      refine .inr ⟨hdrawn, hdot, ?_, token, he⟩
      rw [he]
      show key ∈ (request c s k token (.generateApiKey key)).drawn
      rw [drawn_request hfree huser hpermits hfresh]
      exact List.mem_cons_self ..

/-- A key that is given by a step was pending, and its request is over. -/
theorem given_key (hg : g ∈ (accessNext c expire s e).given) (hvia : g.via ≠ none) :
    g ∈ s.given ∨ ∃ k user token asked users, e = .commit k ∧
      s.phases k = some (.allowed user token asked (.generateApiKey g.secret)) ∧
      saveKey s.users user (some (c.sha256 g.secret)) = some users ∧ g.holder.account = user.id := by
  cases given_next hg with
  | kept hold => exact .inl hold
  | password _ => exact absurd rfl hvia
  | minted hex => exact absurd rfl hvia
  | key he hphase hsave => exact .inr ⟨_, _, _, _, _, he, hphase, hsave, rfl⟩

theorem not_pending_commit {key : Text} {user : Account} {token : Text} {asked : Nat} {users : AccountRows}
    (hphase : s.phases k = some (.allowed user token asked (.generateApiKey key)))
    (hsave : saveKey s.users user (some (c.sha256 key)) = some users) :
    (accessNext c expire s (.commit k)).phases k = none := by
  show (commit c s k).phases k = none
  rw [commit_generated hphase hsave]
  exact Function.update_self ..

theorem KeysOnce.pending_next (h : KeysOnce c s) {key : Text}
    (hpending : IsPending (accessNext c expire s e) k key) :
    (key ∈ (accessNext c expire s e).drawn ∧ '.' ∉ key) ∧
      (∀ g ∈ (accessNext c expire s e).given, g.via ≠ none → g.secret ≠ key) ∧
      ∀ j, IsPending (accessNext c expire s e) j key → j = k := by
  rcases isPending_next hpending with hold | ⟨hfresh, hdot, hdrawn, token, he⟩
  · obtain ⟨⟨hdrawn, hdot⟩, hgiven, honly⟩ := h.pending k key hold
    refine ⟨⟨drawn_next hdrawn, hdot⟩, ?_, ?_⟩
    · intro g hg hvia
      rcases given_key hg hvia with hg | ⟨j, user, token, asked, users, rfl, hphase, hsave, _⟩
      · exact hgiven g hg hvia
      · rintro rfl
        -- the request that has given it is over, so it is not the one that is pending
        obtain rfl := honly j ⟨user, token, asked, hphase⟩
        obtain ⟨_, _, _, hstill⟩ := hpending
        rw [not_pending_commit hphase hsave] at hstill
        exact absurd hstill (by simp)
    · intro j hj
      rcases isPending_next hj with hj | ⟨hfresh, _, _, _⟩
      · exact honly j hj
      · exact absurd hdrawn hfresh
  · refine ⟨⟨hdrawn, hdot⟩, ?_, ?_⟩
    · rintro g hg hvia rfl
      rcases given_key hg hvia with hg | ⟨_, _, _, _, _, hcommit, _⟩
      · exact hfresh (h.drawn g hg hvia).1
      · rw [he] at hcommit
        exact absurd hcommit (by simp)
    · intro j hj
      rcases isPending_next hj with hj | ⟨_, _, _, token', he'⟩
      · exact absurd (h.pending j key hj).1.1 hfresh
      · rw [he] at he'
        exact (AccessEvent.request.inj he').1.symm

theorem KeysOnce.once_next (h : KeysOnce c s) {g' : Grant Text Holder}
    (hg : g ∈ (accessNext c expire s e).given) (hg' : g' ∈ (accessNext c expire s e).given)
    (hvia : g.via ≠ none) (hvia' : g'.via ≠ none) (hsecret : g.secret = g'.secret) :
    g.holder.account = g'.holder.account := by
  rcases given_key hg hvia with hold | ⟨k, user, token, asked, users, he, hphase, _, haccount⟩
  · rcases given_key hg' hvia' with hold' | ⟨k, user, token, asked, users, _, hphase, _, _⟩
    · exact h.once g hold g' hold' hvia hvia' hsecret
    · have hnot := (h.pending k g'.secret ⟨user, token, asked, hphase⟩).2.1 g hold hvia
      exact absurd hsecret hnot
  · rcases given_key hg' hvia' with hold' | ⟨k', user', token', asked', users', he', hphase', _, haccount'⟩
    · have hnot := (h.pending k g.secret ⟨user, token, asked, hphase⟩).2.1 g' hold' hvia'
      exact absurd hsecret.symm hnot
    · obtain rfl := AccessEvent.commit.inj (he.symm.trans he')
      rw [hphase] at hphase'
      obtain ⟨rfl, _⟩ := AccessPhase.allowed.inj (Option.some.inj hphase')
      exact haccount.trans haccount'.symm

theorem KeysOnce.next (h : KeysOnce c s) (e : AccessEvent) : KeysOnce c (accessNext c expire s e) := by
  have hev : Evolves s (accessNext c expire s e) := evolves_next s e
  have hrows : ∀ u' ∈ (accessNext c expire s e).users.list, ∀ hash, u'.apiKey = some hash →
      HasKey c (accessNext c expire s e) u'.id hash := by
    intro u' hu' hash hkey
    cases rows_next hu' with
    | kept hu => exact (h.rows u' hu hash hkey).next hev
    | created hnew =>
      rw [hnew.key] at hkey
      exact absurd hkey (by simp)
    | @generated k u user token key asked users he hphase hsave hu hid heq =>
      rw [heq] at hkey ⊢
      rw [he]
      exact ⟨_, mem_given_commit hphase hsave, Option.some_ne_none _, hid.symm, Option.some.inj hkey⟩
    | revoked hu heq =>
      rw [heq] at hkey
      exact absurd hkey (by simp [setKey])
    | toggled _ hu _ heq =>
      rw [heq] at hkey ⊢
      have hold := h.rows _ hu hash hkey
      exact hold.next hev
  -- a new secret is drawn when its request is let in, and given when it commits
  refine { h.toWellKept.next e with drawn := ?_, once := ?_, pending := ?_, rows := hrows, loaded := ?_ }
  · intro g hg hvia
    rcases given_key hg hvia with hold | ⟨k, user, token, asked, users, _, hphase, _, _⟩
    · obtain ⟨hdrawn, hdot⟩ := h.drawn g hold hvia
      exact ⟨drawn_next hdrawn, hdot⟩
    · obtain ⟨hdrawn, hdot⟩ := (h.pending k g.secret ⟨user, token, asked, hphase⟩).1
      exact ⟨drawn_next hdrawn, hdot⟩
  · exact fun g hg g' hg' hvia hvia' hsecret => h.once_next hg hg' hvia hvia' hsecret
  · exact fun k key hpending => h.pending_next hpending
  · intro k user token asked op hphase hash hkey
    rcases phases_next hphase with hold | hnew
    · exact (h.loaded k user token asked op hold hash hkey).next hev
    · cases hnew with
      | allowed _ _ huser _ _ =>
        exact (h.rows user (mem_of_currentUser h.toWellKept huser) hash hkey).next hev

theorem keysOnce_start : KeysOnce c {} :=
  { wellKept_start with
    drawn := fun _ hg => absurd hg List.not_mem_nil
    once := fun _ hg => absurd hg List.not_mem_nil
    pending := fun _ _ ⟨_, _, _, h⟩ => absurd h (by simp)
    rows := fun _ hu => absurd hu List.not_mem_nil
    loaded := fun _ _ _ _ _ h => absurd h (by simp) }

/-! ## A key that is no account's any more -/

/-- A key that was given, and is that of no account. -/
def Dead (c : Secrecy) (s : AccessState) (key : Text) : Prop :=
  (∃ g ∈ s.given, g.via ≠ none ∧ g.secret = key) ∧ ∀ u ∈ s.users.list, u.apiKey ≠ some (c.sha256 key)

theorem Dead.next {key : Text} (hdead : Dead c s key) (h : KeysOnce c s) (hinj : c.sha256.Injective)
    (e : AccessEvent) : Dead c (accessNext c expire s e) key := by
  obtain ⟨⟨g, hg, hvia, rfl⟩, hrows⟩ := hdead
  refine ⟨⟨g, (evolves_next s e).given g hg, hvia, rfl⟩, ?_⟩
  intro u' hu' hkey
  cases rows_next hu' with
  | kept hu => exact hrows u' hu hkey
  | created hnew =>
    rw [hnew.key] at hkey
    exact absurd hkey (by simp)
  | @generated k u user token key asked users he hphase hsave hu hid heq =>
    rw [heq] at hkey
    have hsame : key = g.secret := hinj (Option.some.inj hkey)
    exact (h.pending k key ⟨user, token, asked, hphase⟩).2.1 g hg hvia hsame.symm
  | revoked hu heq =>
    rw [heq] at hkey
    exact absurd hkey (by simp [setKey])
  | toggled _ hu _ heq =>
    rw [heq] at hkey
    exact hrows _ hu hkey

theorem Dead.refused {key : Text} (hdead : Dead c s key) (h : KeysOnce c s) (now : Nat) :
    currentUser c now s.users key = none := by
  obtain ⟨⟨g, hg, hvia, rfl⟩, hrows⟩ := hdead
  cases hu : currentUser c now s.users g.secret with
  | none => rfl
  | some u =>
    obtain ⟨_, _, ⟨claims, hdecode, _⟩ | hkey⟩ := currentUser_cases hu
    · exact absurd (c.dot_mem _ _ _ hdecode) (h.drawn g hg hvia).2
    · obtain ⟨hmem, hhash⟩ := mem_of_keyUser hkey
      exact absurd hhash (hrows u hmem)

/-- What a request makes of the key of the account, if it makes something of it. -/
def AccountOp.newKey (c : Secrecy) : AccountOp → Option (Option Text)
  | .generateApiKey key => some (some (c.sha256 key))
  | .revokeApiKey => some none
  | .toggleUserActive _ => none

/-- The key that the account had when the request was let in is dead after its commit. -/
theorem dead_commit (h : KeysOnce c s) (hinj : c.sha256.Injective) {user : Account} {token key : Text}
    {asked : Nat} {op : AccountOp} {wanted : Option Text} {users : AccountRows}
    (hphase : s.phases k = some (.allowed user token asked op)) (hkey : user.apiKey = some (c.sha256 key))
    (hop : op.newKey c = some wanted) (hsave : saveKey s.users user wanted = some users) :
    Dead c (accessNext c expire s (.commit k)) key := by
  obtain ⟨g, hg, hvia, haccount, hsha⟩ := h.loaded k user token asked op hphase _ hkey
  obtain rfl := hinj hsha
  -- the hash that is written is of a key that was drawn later, or none
  have hne : wanted ≠ some (c.sha256 g.secret) := by
    cases op with
    | generateApiKey new =>
      obtain rfl := Option.some.inj hop
      intro hsame
      have hnew := hinj (Option.some.inj hsame)
      exact (h.pending k new ⟨user, token, asked, hphase⟩).2.1 g hg hvia hnew.symm
    | revokeApiKey =>
      obtain rfl := Option.some.inj hop
      exact fun hsame => absurd hsame (by simp)
    | toggleUserActive id => exact absurd hop (by simp [AccountOp.newKey])
  refine ⟨⟨g, (evolves_next s _).given g hg, hvia, rfl⟩, ?_⟩
  have hcommit : (accessNext c expire s (.commit k)).users = users := by
    show (commit c s k).users = users
    unfold commit
    rw [hphase]
    cases op with
    | generateApiKey new =>
      obtain rfl := Option.some.inj hop
      dsimp only
      rw [hsave]
      rfl
    | revokeApiKey =>
      obtain rfl := Option.some.inj hop
      dsimp only
      rw [hsave]
      rfl
    | toggleUserActive id => exact absurd hop (by simp [AccountOp.newKey])
  rw [hcommit]
  intro u' hu' hkey'
  rcases rows_saveKey hsave hu' with ⟨hold, hother⟩ | ⟨u, _, _, rfl⟩
  · obtain ⟨g', hg', hvia', haccount', hsha'⟩ := h.rows u' hold _ hkey'
    have hsame := h.once g' hg' g hg hvia' hvia (hinj hsha')
    exact hother (hkey ▸ hne) (haccount'.symm.trans (hsame.trans haccount))
  · exact hne hkey'

/-- Once a request that revokes or replaces the key of an account has committed,
the key that the account had when the request was let in lets nobody in again. -/
theorem revoked_refused (hinj : c.sha256.Injective) {es : List AccessEvent} {user : Account}
    {token key : Text} {asked : Nat} {op : AccountOp} {wanted : Option Text}
    (hphase : (run (accessNext c expire) {} es).phases k = some (.allowed user token asked op))
    (hkey : user.apiKey = some (c.sha256 key)) (hop : op.newKey c = some wanted)
    (hsave : (saveKey (run (accessNext c expire) {} es).users user wanted).isSome)
    (after : List AccessEvent) :
    currentUser c (run (accessNext c expire) {} (es ++ .commit k :: after)).now
      (run (accessNext c expire) {} (es ++ .commit k :: after)).users key = none := by
  have honce : KeysOnce c (run (accessNext c expire) {} es) :=
    run_preserves (KeysOnce c) (fun s e h => h.next e) keysOnce_start es
  obtain ⟨users, hsave⟩ := Option.isSome_iff_exists.mp hsave
  have hdead : Dead c (accessNext c expire (run (accessNext c expire) {} es) (.commit k)) key :=
    dead_commit honce hinj hphase hkey hop hsave
  rw [run_append]
  obtain ⟨hend, hfinal⟩ := run_preserves (fun s => KeysOnce c s ∧ Dead c s key)
    (fun s e h => ⟨h.1.next e, h.2.next h.1 hinj e⟩) ⟨honce.next (.commit k), hdead⟩ after
  exact hfinal.refused hend _

def demoName : Text := ['d', 'e', 'm', 'o']

/-- The token of the seeded account after its login at time 0. -/
def demoToken : Text := createAccessToken plainSecrecy 3 0 demoName

/-- A login, and a key that is generated with its token. -/
def keyRun : List AccessEvent :=
  [.seed (fun name => name) fun _ => [], .login 0 demoName demoName none, .issue 0 [] [] [],
    .request 1 demoToken (.generateApiKey ['k']), .commit 1]

/-- The account with its key. -/
def demoAccount : Account := ⟨⟨2, demoName, demoName, userRole⟩, true, some ['k']⟩

theorem revoked_refused_key :
    currentUser plainSecrecy
      (run (accessNext plainSecrecy 3) {}
        ((keyRun ++ [.request 2 ['k'] .revokeApiKey]) ++ .commit 2 :: [.pass 1])).now
      (run (accessNext plainSecrecy 3) {}
        ((keyRun ++ [.request 2 ['k'] .revokeApiKey]) ++ .commit 2 :: [.pass 1])).users ['k'] = none := by
  have hrefused := @revoked_refused plainSecrecy 3 2 (fun _ _ h => h)
    (keyRun ++ [.request 2 ['k'] .revokeApiKey]) demoAccount ['k'] ['k'] 0 .revokeApiKey none (by decide)
    rfl rfl (by decide) [.pass 1]
  exact hrefused

/-! ## Through what one is let in -/

/-- What was given for an account: under its name, and if that is not of a demo,
for this very account and with its password. -/
def Fits (c : Secrecy) (i : Identity) (g : Grant Text Holder) : Prop :=
  g.holder.name = i.username ∧
    (isEphemeralDemo i.username = false → g.holder.account = i.id ∧
      (g.via = none → ∃ p, g.holder.password = some p ∧ c.checkpw p i.hashedPassword = true))

/-- A text was given that has the hash of a key. -/
abbrev SameKey (c : Secrecy) (given presented : Text) : Prop := c.sha256 given = c.sha256 presented

/-- Through which logins and keys a text opens the account of someone. -/
abbrev OpensAs (c : Secrecy) (expire : Nat) (i : Identity) (given : List (Grant Text Holder)) :
    Text → Nat → Prop :=
  Rooted (SameKey c) expire (Fits c i) given

abbrev KeyOf (c : Secrecy) (expire : Nat) (i : Identity) (given : List (Grant Text Holder)) :
    Grant Text Holder → Nat → Prop :=
  Granted (SameKey c) expire (Fits c i) given

/-- A text that is presented and decoded was given: no one else can sign one. -/
def NotForged (c : Secrecy) (s : AccessState) (token : Text) : Prop :=
  ∀ now claims, c.decode now token = some claims → ∃ g ∈ s.given, g.secret = token

def PresentsOwn (c : Secrecy) (s : AccessState) : AccessEvent → Prop
  | .request _ token _ => NotForged c s token
  | _ => True

/-- A token that was given at a login, and whose it is. -/
structure IsToken (c : Secrecy) (expire : Nat) (s : AccessState) (g : Grant Text Holder) : Prop where
  secret : g.secret = createAccessToken c expire g.time g.holder.name
  past : g.time ≤ s.now
  there : isEphemeralDemo g.holder.name = false →
    ∃ u ∈ s.users.list, u.id = g.holder.account ∧ u.username = g.holder.name ∧
      ∃ p, g.holder.password = some p ∧ c.checkpw p u.hashedPassword = true

def AccessPhase.Sound (c : Secrecy) (expire : Nat) (s : AccessState) : AccessPhase → Prop
  | .verified user password _ =>
    Known s user.toIdentity ∧ c.checkpw password user.hashedPassword = true
  | .allowed user token asked _ =>
    Known s user.toIdentity ∧ asked ≤ s.now ∧ OpensAs c expire user.toIdentity s.given token asked
  | .loaded .. => True

structure Sound (c : Secrecy) (expire : Nat) (s : AccessState) : Prop extends KeysOnce c s where
  tokens : ∀ g ∈ s.given, g.via = none → IsToken c expire s g
  keys : ∀ u ∈ s.users.list, ∀ h, u.apiKey = some h →
    ∃ g, KeyOf c expire u.toIdentity s.given g s.now ∧ c.sha256 g.secret = h
  phases : ∀ k phase, s.phases k = some phase → phase.Sound c expire s

theorem IsToken.next (h : IsToken c expire s g) (hev : Evolves s s') : IsToken c expire s' g where
  secret := h.secret
  past := Nat.le_trans h.past hev.now
  there hdemo := by
    obtain ⟨u, hu, hid, hname, p, hp, hcheck⟩ := h.there hdemo
    obtain ⟨u', hu', hsame⟩ := hev.stays u hu (hname.symm ▸ hdemo)
    refine ⟨u', hu', ?_, ?_, p, hp, ?_⟩
    · exact (congrArg Identity.id hsame).trans hid
    · exact (congrArg Identity.username hsame).trans hname
    · rwa [congrArg Identity.hashedPassword hsame]

theorem AccessPhase.Sound.next {phase : AccessPhase} (h : phase.Sound c expire s) (hev : Evolves s s') :
    phase.Sound c expire s' := by
  cases phase with
  | verified user password mint => exact ⟨h.1.next hev, h.2⟩
  | allowed user token asked op =>
    obtain ⟨hknown, hasked, hopens⟩ := h
    exact ⟨hknown.next hev, Nat.le_trans hasked hev.now, hopens.mono hev.given⟩
  | loaded admin target => exact trivial

/-! ## Who is let in -/

/-- A text that decodes is a token, of the account with the name it tells. -/
theorem Sound.token (h : Sound c expire s) {token : Text} (hown : NotForged c s token)
    {claims : TokenClaims} (hdecode : c.decode s.now token = some claims)
    (hget : getUser s.users claims.sub = some u) :
    OpensAs c expire u.toIdentity s.given token s.now := by
  obtain ⟨g, hg, rfl⟩ := hown _ _ hdecode
  -- an API key has no dot, and every text that decodes has one
  have hvia : g.via = none := by
    by_contra hvia
    exact (h.drawn g hg hvia).2 (c.dot_mem _ _ _ hdecode)
  have htoken : IsToken c expire s g := h.tokens g hg hvia
  have hclaims := c.decode_encode s.now g.holder.name (g.time + expire)
  rw [htoken.secret] at hdecode
  unfold createAccessToken at hdecode
  rw [hclaims] at hdecode
  split at hdecode
  next huntil =>
    obtain rfl := Option.some.inj hdecode
    obtain ⟨hu, hname⟩ := (getUser_eq_some h.toWellKept).mp hget
    refine .proved hg ⟨hname.symm, ?_⟩ hvia htoken.past huntil
    intro hdemo
    change isEphemeralDemo u.username = false at hdemo
    rw [hname] at hdemo
    obtain ⟨v, hv, hid, hvname, p, hp, hcheck⟩ := htoken.there hdemo
    obtain rfl : v = u := h.names v hv u hu (hvname.trans hname.symm)
    exact ⟨hid.symm, fun _ => ⟨p, hp, hcheck⟩⟩
  next => exact absurd hdecode (by simp)

theorem Sound.opens (h : Sound c expire s) {token : Text} (hown : NotForged c s token)
    (hu : currentUser c s.now s.users token = some u) :
    OpensAs c expire u.toIdentity s.given token s.now := by
  obtain ⟨_, _, ⟨claims, hdecode, hget⟩ | hkey⟩ := currentUser_cases hu
  · exact h.token hown hdecode hget
  · obtain ⟨hmem, hhash⟩ := mem_of_keyUser hkey
    obtain ⟨g, hg, hsha⟩ := h.keys u hmem _ hhash
    exact hg.rooted hsha

/-! ## One step, and a run -/

theorem Sound.tokens_next (h : Sound c expire s) (hev : Evolves s (accessNext c expire s e))
    (hg : g ∈ (accessNext c expire s e).given) (hvia : g.via = none) :
    IsToken c expire (accessNext c expire s e) g := by
  cases given_next hg with
  | kept hold => exact (h.tokens g hold hvia).next hev
  | @password k user plain hphase =>
    obtain ⟨hknown, hcheck⟩ := h.phases k _ hphase
    refine IsToken.next (s := s) ⟨rfl, Nat.le_refl _, ?_⟩ hev
    intro hdemo
    obtain ⟨u, hu, hsame⟩ := hknown.there hdemo
    refine ⟨u, hu, congrArg Identity.id hsame, congrArg Identity.username hsame, plain, rfl, ?_⟩
    rwa [congrArg Identity.hashedPassword hsame]
  | minted hex =>
    refine ⟨rfl, hev.now, ?_⟩
    intro hdemo
    change isEphemeralDemo (mintedName hex) = false at hdemo
    rw [isEphemeralDemo_mintedName] at hdemo
    exact absurd hdemo (by simp)
  | key _ _ _ => exact absurd hvia (by simp)

/-- The key that a commit writes was generated by a request of the account. -/
theorem Sound.keys_next (h : Sound c expire s) (hev : Evolves s (accessNext c expire s e)) {u' : Account}
    (hu' : u' ∈ (accessNext c expire s e).users.list) {hash : Text} (hkey : u'.apiKey = some hash) :
    ∃ g, KeyOf c expire u'.toIdentity (accessNext c expire s e).given g (accessNext c expire s e).now ∧
      c.sha256 g.secret = hash := by
  have hold : ∀ u ∈ s.users.list, u.apiKey = some hash → ∃ g,
      KeyOf c expire u.toIdentity (accessNext c expire s e).given g (accessNext c expire s e).now ∧
        c.sha256 g.secret = hash := by
    intro u hu hu'
    obtain ⟨g, hg, hsha⟩ := h.keys u hu hash hu'
    exact ⟨g, hg.mono hev.given hev.now, hsha⟩
  cases rows_next hu' with
  | kept hu => exact hold u' hu hkey
  | created hnew =>
    rw [hnew.key] at hkey
    exact absurd hkey (by simp)
  | revoked hu heq =>
    rw [heq] at hkey
    exact absurd hkey (by simp [setKey])
  | @toggled k u admin target hphase hu hid heq =>
    rw [heq] at hkey ⊢
    exact hold u hu hkey
  -- the key is its own witness, and the token that the request had the one before it
  | @generated k u user token key asked users he hphase hsave hu hid heq =>
    rw [heq] at hkey ⊢
    obtain ⟨hknown, hasked, hopens⟩ := h.phases k _ hphase
    have hsame : u.toIdentity = user.toIdentity := hknown.same u hu hid
    rw [he] at hev ⊢
    have hmem := mem_given_commit hphase hsave
    refine ⟨_, ⟨hmem, ⟨?_, ?_⟩, ⟨token, asked, rfl, hasked, ?_⟩, hev.now⟩, Option.some.inj hkey⟩
    · exact (congrArg Identity.username hsame).symm
    · exact fun _ => ⟨(congrArg Identity.id hsame).symm, fun hvia => absurd hvia (by simp)⟩
    · show OpensAs c expire u.toIdentity _ token asked
      rw [hsame]
      exact hopens.mono hev.given

theorem Sound.next (h : Sound c expire s) (hown : PresentsOwn c s e) :
    Sound c expire (accessNext c expire s e) := by
  have hev : Evolves s (accessNext c expire s e) := evolves_next s e
  refine { h.toKeysOnce.next e with tokens := ?_, keys := ?_, phases := ?_ }
  · exact fun g hg hvia => h.tokens_next hev hg hvia
  · exact fun u' hu' hash hkey => h.keys_next hev hu' hkey
  · intro k phase hphase
    rcases phases_next hphase with hold | hnew
    · exact (h.phases k phase hold).next hev
    · refine AccessPhase.Sound.next (s := s) ?_ hev
      cases hnew with
      | verified huser =>
        obtain ⟨hget, hcheck⟩ := Option.filter_eq_some_iff.mp huser
        exact ⟨h.known ((getUser_eq_some h.toWellKept).mp hget).1, hcheck⟩
      | allowed he _ huser _ _ =>
        subst he
        exact ⟨h.known (mem_of_currentUser h.toWellKept huser), Nat.le_refl _, h.opens hown huser⟩
      | loaded _ _ _ => exact trivial

theorem sound_start : Sound c expire {} :=
  { keysOnce_start with
    tokens := fun _ hg => absurd hg List.not_mem_nil
    keys := fun _ hu => absurd hu List.not_mem_nil
    phases := fun _ _ h => absurd h (by simp) }

theorem sound_run {es : List AccessEvent} (h : Throughout (accessNext c expire) (PresentsOwn c) {} es) :
    Sound c expire (run (accessNext c expire) {} es) :=
  run_invariant (Sound c expire) (fun _ _ hs hown => hs.next hown) sound_start h

/-- Every request is let in by a chain of tokens and keys that begins with a login
under the name of the account it is let in for. If the name is not that of a demo
the login was with the password of this account, and each key was generated for it. -/
theorem let_in_rooted {es : List AccessEvent}
    (hes : Throughout (accessNext c expire) (PresentsOwn c) {} es) {token : Text}
    (hown : NotForged c (run (accessNext c expire) {} es) token)
    (hu : currentUser c (run (accessNext c expire) {} es).now (run (accessNext c expire) {} es).users token =
      some u) :
    u.isActive = true ∧
      Rooted (SameKey c) expire (Fits c u.toIdentity) (run (accessNext c expire) {} es).given token
        (run (accessNext c expire) {} es).now :=
  ⟨(currentUser_cases hu).1, (sound_run hes).opens hown hu⟩

/-- The token has expired, and the key that was generated with it has not. -/
theorem let_in_rooted_key :
    demoAccount.isActive = true ∧
      Rooted (SameKey plainSecrecy) 3 (Fits plainSecrecy demoAccount.toIdentity)
        (run (accessNext plainSecrecy 3) {} (keyRun ++ [.pass 60])).given ['k']
        (run (accessNext plainSecrecy 3) {} (keyRun ++ [.pass 60])).now := by
  have hown : NotForged plainSecrecy (run (accessNext plainSecrecy 3) {} (keyRun ++ [.pass 60])) ['k'] :=
    fun _ _ h => absurd (plainSecrecy.dot_mem _ _ _ h) (by decide)
  have hes :
      Throughout (accessNext plainSecrecy 3) (PresentsOwn plainSecrecy) {} (keyRun ++ [.pass 60]) := by
    refine ⟨trivial, trivial, trivial, ?_, trivial, trivial, trivial⟩
    intro _ _ _
    decide
  have hrooted := @let_in_rooted plainSecrecy 3 demoAccount (keyRun ++ [.pass 60]) hes ['k']
  exact hrooted hown (by decide)

/-- An account that is not a demo's is opened by no one unless someone has logged
in to it with its password. -/
theorem let_in_by_password {es : List AccessEvent}
    (hes : Throughout (accessNext c expire) (PresentsOwn c) {} es) {token : Text}
    (hown : NotForged c (run (accessNext c expire) {} es) token)
    (hu : currentUser c (run (accessNext c expire) {} es).now (run (accessNext c expire) {} es).users token =
      some u) (hdemo : isEphemeralDemo u.username = false) :
    ∃ g ∈ (run (accessNext c expire) {} es).given, g.holder.account = u.id ∧
      ∃ p, g.holder.password = some p ∧ c.checkpw p u.hashedPassword = true := by
  obtain ⟨g, hg, ⟨_, hfits⟩, hvia, _⟩ := ((sound_run hes).opens hown hu).proof
  obtain ⟨haccount, hpassword⟩ := hfits hdemo
  exact ⟨g, hg, haccount, hpassword hvia⟩

/-- The name of a demo that is purged is free, and its token opens the account of who
takes it next. -/
example :
    let payload : RegisterRequest := ⟨demoPrefix, ['s', 'e', 'c', 'r', 'e', 't'], none⟩
    let s := run (accessNext plainSecrecy 3) {}
      [.register payload [], .login 0 demoPrefix payload.password none, .issue 0 [] [] [], .purge 0,
        .register { payload with password := ['a', 'n', 'o', 't', 'h', 'e', 'r'] } []]
    (currentUser plainSecrecy s.now s.users (createAccessToken plainSecrecy 3 0 demoPrefix)).map (·.id) =
      some 1 := by decide

end Eidetic.Accounts
