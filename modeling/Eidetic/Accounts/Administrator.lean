import Eidetic.Accounts.Origins

/-!
# The administrator

Only `create_user.py` makes an account with the role of the administrator, under
one name, and no request changes a role. `toggle_user_active` refuses the account
of who makes the request, so the administrator stays the only one and active,
whatever requests overlap (`administrator_stays`).

The invariant is `Administered`: whoever has the role has the name of the
administrator and is active, and a session that may change who is active is his
and has loaded another account. Since names are unique there is one such account
(`Administered.only`). `Administered.next` goes through the outcomes of a step
(`Outcome`), so no step is unfolded here, and `administered_run` is its
induction over a run.

`LetIn` is what follows for the administrator himself: his password is accepted,
and the token that he gets for it opens his account and permits what the role
permits. It is a property of the state that a run ends in, whatever other
requests are under way then.
-/

namespace Eidetic.Accounts

open Eidetic.Lib Eidetic.Py

variable {c : Secrecy} {expire : Nat} {s s' : AccessState} {u : Account} {phase : AccessPhase}

/-- A session that may change who is active is the administrator's, and changes
another account. -/
def AccessPhase.Administered (s : AccessState) : AccessPhase → Prop
  | .verified .. => True
  | .allowed user _ _ op =>
    Known s user.toIdentity ∧ (user.role = adminRole → user.username = adminName) ∧
      ∀ id, op = .toggleUserActive id → user.role = adminRole
  | .loaded admin target =>
    Known s admin.toIdentity ∧ Known s target.toIdentity ∧ admin.role = adminRole ∧
      admin.username = adminName ∧ target.id ≠ admin.id

structure Administered (s : AccessState) : Prop extends WellKept s where
  admin : ∀ u ∈ s.users.list, u.role = adminRole → u.username = adminName ∧ u.isActive = true
  phases : ∀ k phase, s.phases k = some phase → phase.Administered s

theorem AccessPhase.Administered.next (h : phase.Administered s) (hev : Evolves s s') :
    phase.Administered s' := by
  cases phase with
  | verified user password mint => exact trivial
  | allowed user token asked op => exact ⟨h.1.next hev, h.2⟩
  | loaded admin target => exact ⟨h.1.next hev, h.2.1.next hev, h.2.2⟩

/-- An account with the role of the administrator is his, so no session that has
loaded another account has loaded it. -/
theorem Administered.only (h : Administered s) {admin : Identity} (hknown : Known s admin)
    (hname : admin.username = adminName) (hu : u ∈ s.users.list) (hrole : u.role = adminRole) :
    u.toIdentity = admin := by
  have hdemo : isEphemeralDemo admin.username = false := by
    rw [hname]
    rfl
  obtain ⟨v, hv, rfl⟩ := hknown.there hdemo
  have hsame : u.username = v.username := (h.admin u hu hrole).1.trans hname.symm
  rw [h.names u hu v hv hsame]

theorem Administered.next (h : Administered s) (e : AccessEvent) :
    Administered (accessNext c expire s e) := by
  have hev : Evolves s (accessNext c expire s e) := evolves_next s e
  refine { h.toWellKept.next e with admin := ?_, phases := ?_ }
  · intro u' hu' hrole
    cases rows_next hu' with
    | kept hu => exact h.admin u' hu hrole
    | created hnew => exact ⟨hnew.role hrole, hnew.active⟩
    | generated _ _ _ hu _ heq =>
      rw [heq] at hrole ⊢
      have hadmin := h.admin _ hu hrole
      exact hadmin
    | revoked hu heq =>
      rw [heq] at hrole ⊢
      have hadmin := h.admin _ hu hrole
      exact hadmin
    | @toggled k u admin target hphase hu hid heq =>
      rw [heq] at hrole
      obtain ⟨hadmin, _, _, hname, hne⟩ := h.phases k _ hphase
      have hsame : u.toIdentity = admin.toIdentity := h.only hadmin hname hu hrole
      exact absurd (hid.symm.trans (congrArg Identity.id hsame)) hne
  · intro k phase hphase
    rcases phases_next hphase with hold | hnew
    · exact (h.phases k phase hold).next hev
    · refine AccessPhase.Administered.next (s := s) ?_ hev
      cases hnew with
      | verified _ => exact trivial
      | allowed _ _ huser hpermits _ =>
        have hmem := mem_of_currentUser h.toWellKept huser
        refine ⟨h.known hmem, fun hrole => (h.admin _ hmem hrole).1, ?_⟩
        rintro id rfl
        exact of_decide_eq_true hpermits
      | loaded hallowed htarget hne =>
        obtain ⟨hknown, hname, hrole⟩ := h.phases k _ hallowed
        exact ⟨hknown, h.known htarget, hrole _ rfl, hname (hrole _ rfl), hne⟩

theorem administered_run (es : List AccessEvent) : Administered (run (accessNext c expire) {} es) := by
  refine run_preserves Administered (fun s e h => h.next e) ?_ es
  exact { wellKept_start with
    admin := fun _ hu => absurd hu List.not_mem_nil
    phases := fun _ _ h => absurd h (by simp) }

/-- What the administrator can always do. -/
structure LetIn (c : Secrecy) (expire : Nat) (s : AccessState) (i : Identity) : Prop where
  account : ∃ u ∈ s.users.list, u.toIdentity = i ∧ u.isActive = true
  /-- His password is right, and no other is. -/
  password : ∀ password,
    (authenticateUser c s.users i.username password).map (·.toIdentity) =
      if c.checkpw password i.hashedPassword then some i else none
  /-- A token that he has been given opens his account until it expires. -/
  token : ∀ t, s.now ≤ t + expire →
    (currentUser c s.now s.users (createAccessToken c expire t i.username)).map (·.toIdentity) = some i

theorem letIn_of_mem (h : WellKept s) (hu : u ∈ s.users.list) (hactive : u.isActive = true)
    (hname : u.username ≠ []) : LetIn c expire s u.toIdentity := by
  have hget : getUser s.users u.username = some u := (getUser_eq_some h).mpr ⟨hu, rfl⟩
  refine ⟨⟨u, hu, rfl, hactive⟩, ?_, ?_⟩
  · intro password
    unfold authenticateUser
    rw [hget]
    by_cases hcheck : c.checkpw password u.hashedPassword = true
    · rw [if_pos hcheck, Option.filter_some, if_pos hcheck]
      rfl
    · rw [if_neg hcheck, Option.filter_some, if_neg hcheck]
      rfl
  · intro t htime
    have hdecode := c.decode_encode s.now u.username (t + expire)
    rw [if_pos htime] at hdecode
    have htoken : createAccessToken c expire t u.username ≠ [] :=
      List.ne_nil_of_mem (c.dot_mem _ _ _ hdecode)
    unfold currentUser
    rw [if_neg htoken]
    unfold createAccessToken
    rw [hdecode]
    dsimp only
    rw [if_pos ⟨hname, rfl⟩, hget, Option.filter_some, if_pos hactive]
    rfl

/-- Whatever the requests do, the administrator stays the only one and active,
with the password he has: nobody locks him out. -/
theorem administrator_stays (es after : List AccessEvent) {a : Account}
    (ha : a ∈ (run (accessNext c expire) {} es).users.list) (hrole : a.role = adminRole) :
    LetIn c expire (run (accessNext c expire) {} (es ++ after)) a.toIdentity ∧
      ∀ u ∈ (run (accessNext c expire) {} (es ++ after)).users.list, u.role = adminRole →
        u.toIdentity = a.toIdentity := by
  have hbefore : Administered (run (accessNext c expire) {} es) := administered_run es
  have hafter : Administered (run (accessNext c expire) {} (es ++ after)) := administered_run (es ++ after)
  have hname : a.username = adminName := (hbefore.admin a ha hrole).1
  have hknown : Known (run (accessNext c expire) {} (es ++ after)) a.toIdentity := by
    rw [run_append]
    exact (hbefore.known ha).next (evolves_run _ after)
  have hdemo : isEphemeralDemo a.username = false := by
    rw [hname]
    rfl
  obtain ⟨u, hu, hsame⟩ := hknown.there hdemo
  have hactive : u.isActive = true := (hafter.admin u hu ((congrArg Identity.role hsame).trans hrole)).2
  have husername : u.username ≠ [] := by
    rw [congrArg Identity.username hsame, hname]
    exact List.cons_ne_nil _ _
  refine ⟨hsame ▸ letIn_of_mem hafter.toWellKept hu hactive husername, ?_⟩
  intro v hv hv'
  exact hafter.only hknown hname hv hv'

/-- The administrator is seeded, logs in, and tries to disable himself and another. -/
def seededRun : List AccessEvent :=
  [.seed (fun name => name) fun _ => [], .login 0 adminName adminName none, .issue 0 [] [] [],
    .request 1 (createAccessToken plainSecrecy 3 0 adminName) (.toggleUserActive 0), .load 1]

def disabling : List AccessEvent :=
  [.request 2 (createAccessToken plainSecrecy 3 0 adminName) (.toggleUserActive 1), .load 2, .commit 2]

theorem administrator_stays_seeded :
    LetIn plainSecrecy 3 (run (accessNext plainSecrecy 3) {} (seededRun ++ disabling))
        ⟨0, adminName, adminName, adminRole⟩ ∧
      ∀ u ∈ (run (accessNext plainSecrecy 3) {} (seededRun ++ disabling)).users.list, u.role = adminRole →
        u.toIdentity = ⟨0, adminName, adminName, adminRole⟩ :=
  administrator_stays seededRun disabling (a := ⟨⟨0, adminName, adminName, adminRole⟩, true, none⟩)
    (by decide) rfl

end Eidetic.Accounts
