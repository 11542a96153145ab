import Eidetic.Accounts.Demo

/-!
# Whom the reaper purges

A pass purges whoever was idle when its query was made and has the name of a
demo account. So it purges only idle minted accounts as long as none that it
purges has been registered under such a name or has had a message since
(`reapsIdle_iff`).

The invariant is `Watched`: what has been purged so far was idle, and in each
row that a pass still has to come to, no message that its query has seen is
newer than the time in the row. A query makes such rows (`Watched.reap`), a
message that comes later has not been seen (`Watched.addMessage`), and a pass
that goes on keeps some of them (`Watched.setPass`).

The condition speaks of the moment before a purge: who is deleted next was
minted, and what has been sent since the query is not newer than the cutoff.
Both halves are needed. A name that `register` accepts may begin like that of a
demo, and between the query and the purge a user may come back.
-/

namespace Eidetic.Accounts

open Eidetic.Lib Eidetic.Py

/-- Every purged account was minted, and had no message newer than the cutoff. -/
def ReapsIdle (purged : List Purge) : Prop :=
  ∀ p ∈ purged, p.user.origin = .minted ∧ ∀ m ∈ p.messages, m.createdAt ≤ p.cutoff

/-- What a pass deletes next was minted, and what has been sent since its query
is no newer than its cutoff. -/
def PurgesIdle (s : DemoState) : DemoEvent → Prop
  | .purge pass =>
    ∀ p ∈ s.passes pass, ∀ row ∈ p.rows.head?, row.2 < p.cutoff → ∀ u ∈ s.users.find row.1,
      u.origin = .minted ∧ ∀ m ∈ s.messages, m.user = row.1 → p.seen ≤ m.place → m.createdAt ≤ p.cutoff
  | _ => True

/-- The rows of a pass are right about what its query has seen. -/
structure Watched (s : DemoState) : Prop where
  reapsIdle : ReapsIdle s.purged
  placeLt : ∀ m ∈ s.messages, m.place < s.nextPlace
  seenLe : ∀ pass p, s.passes pass = some p → p.seen ≤ s.nextPlace
  lastActive : ∀ pass p, s.passes pass = some p → ∀ row ∈ p.rows, ∀ m ∈ s.messages, m.user = row.1 →
    m.place < p.seen → m.createdAt ≤ row.2

variable {cfg : DemoConfig} {s : DemoState}

theorem Watched.addUser (h : Watched s) (username : Text) (origin : Origin) :
    Watched (s.addUser username origin) := by
  obtain ⟨hmessages, hpasses, hpurged, _, hplace⟩ := addUser_fields (s := s) username origin
  constructor
  · rw [hpurged]
    exact h.reapsIdle
  · rw [hmessages, hplace]
    exact h.placeLt
  · rw [hpasses, hplace]
    exact h.seenLe
  · rw [hpasses, hmessages]
    exact h.lastActive

theorem Watched.addMessage (h : Watched s) (user : Nat) (assistant : Bool) (costUsd : Option ℚ≥0)
    (begun : Nat) : Watched (addMessage s user assistant costUsd begun) := by
  unfold Accounts.addMessage
  split
  next =>
    refine ⟨h.reapsIdle, ?_, fun pass p hp => Nat.le_succ_of_le (h.seenLe pass p hp), ?_⟩
    · intro m hm
      show m.place < s.nextPlace + 1
      rcases List.mem_cons.mp hm with rfl | hold
      · exact Nat.lt_succ_self _
      · have := h.placeLt m hold
        omega
    · intro pass p hp row hrow m hm huser hplace
      rcases List.mem_cons.mp hm with rfl | hold
      · -- the query has not seen it
        have := h.seenLe pass p hp
        have hlt : s.nextPlace < p.seen := hplace
        omega
      · exact h.lastActive pass p hp row hrow m hold huser hplace
  next => exact h

/-- A pass that goes on with rows that it has had. -/
theorem Watched.setPass (h : Watched s) (pass : Nat) {new : Option ReaperPass}
    (hseen : ∀ p ∈ new, p.seen ≤ s.nextPlace)
    (hrows : ∀ p ∈ new, ∀ row ∈ p.rows, ∀ m ∈ s.messages, m.user = row.1 → m.place < p.seen →
      m.createdAt ≤ row.2) :
    Watched (s.setPass pass new) := by
  refine ⟨h.reapsIdle, h.placeLt, ?_, ?_⟩
  · intro i p hp
    by_cases hi : i = pass
    · rw [hi, setPass_self] at hp
      exact hseen p hp
    · rw [setPass_of_ne hi] at hp
      exact h.seenLe i p hp
  · intro i p hp
    by_cases hi : i = pass
    · rw [hi, setPass_self] at hp
      exact hrows p hp
    · rw [setPass_of_ne hi] at hp
      exact h.lastActive i p hp

/-- The query of a pass. -/
theorem Watched.reap (h : Watched s) (pass cutoff : Nat) :
    Watched (s.setPass pass (some ⟨cutoff, reaperRows s, s.nextPlace⟩)) := by
  refine h.setPass pass ?_ ?_
  · intro p hp
    obtain rfl := Option.some.inj hp
    exact Nat.le_refl _
  · intro p hp row hrow m hm huser _
    obtain rfl := Option.some.inj hp
    obtain ⟨u, _, rfl⟩ := List.mem_map.mp hrow
    rw [show u.id = m.user from huser.symm]
    exact createdAt_le_last hm _

/-- The purge of one account. -/
theorem Watched.purgeDemoUser (h : Watched s) {id cutoff : Nat}
    (hidle : ∀ u ∈ s.users.find id, u.origin = .minted ∧
      ∀ m ∈ s.messages, m.user = id → m.createdAt ≤ cutoff) :
    Watched (purgeDemoUser s id cutoff) := by
  unfold Accounts.purgeDemoUser
  split
  next => exact h
  next user hfind =>
    refine ⟨?_, fun m hm => h.placeLt m (List.mem_filter.mp hm).1, h.seenLe,
      fun pass p hp row hrow m hm => h.lastActive pass p hp row hrow m (List.mem_filter.mp hm).1⟩
    intro p hp
    rcases List.mem_cons.mp hp with rfl | hold
    · refine ⟨(hidle user hfind).1, fun m hm => ?_⟩
      obtain ⟨hmem, huser⟩ := List.mem_filter.mp hm
      exact (hidle user hfind).2 m hmem (of_decide_eq_true huser)
    · exact h.reapsIdle p hold

theorem watched_step (s : DemoState) (e : DemoEvent) (h : Watched s) (hidle : PurgesIdle s e) :
    Watched (s.next cfg e) := by
  cases e with
  | pass time => exact { h with }
  | register payload invited =>
    unfold DemoState.next
    dsimp only
    split
    next => exact h.addUser _ _
    next => exact h
  | login hex cached =>
    show Watched (mintLogin cfg s hex cached)
    unfold mintLogin
    split
    next => exact h
    next =>
      split
      next => exact h
      next =>
        split
        next => exact h
        next => exact h.addUser _ _
  | message user assistant costUsd begun => exact h.addMessage user assistant costUsd begun
  | reap pass =>
    unfold DemoState.next
    dsimp only
    split
    next => exact h.reap pass _
    next => exact h
  | purge pass =>
    unfold DemoState.next
    dsimp only
    split
    next cutoff id lastActive rows seen hpass =>
      have hset : Watched (s.setPass pass (some ⟨cutoff, rows, seen⟩)) := by
        refine h.setPass pass ?_ ?_
        · intro p hp
          obtain rfl := Option.some.inj hp
          have hseen := h.seenLe pass _ hpass
          exact hseen
        · intro p hp row hrow
          obtain rfl := Option.some.inj hp
          exact h.lastActive pass _ hpass row (List.mem_cons_of_mem _ hrow)
      split
      next hlate =>
        refine hset.purgeDemoUser fun u hu => ?_
        obtain ⟨hminted, hnew⟩ := hidle _ hpass _ rfl hlate u hu
        refine ⟨hminted, fun m hm huser => ?_⟩
        by_cases hseen : seen ≤ m.place
        · exact hnew m hm huser hseen
        · have hlast : m.createdAt ≤ lastActive :=
            h.lastActive pass _ hpass _ List.mem_cons_self m hm huser (Nat.lt_of_not_le hseen)
          omega
      next => exact hset
    next => exact h.setPass pass (by simp) (by simp)
    next => exact h
  | abort pass => exact h.setPass pass (by simp) (by simp)

/-- A purge that was right met the condition. -/
theorem purgesIdle_of_reapsIdle (s : DemoState) (e : DemoEvent)
    (hnext : ReapsIdle (s.next cfg e).purged) : PurgesIdle s e := by
  cases e with
  | purge pass =>
    intro p hp row hrow hlate u hu
    have hpurged : (s.next cfg (.purge pass)).purged =
        ⟨u, s.messages.filter fun m => decide (m.user = row.1), p.cutoff⟩ :: s.purged := by
      rw [next_purge hp hrow hlate]
      unfold purgeDemoUser
      rw [show (s.setPass pass _).users.find row.1 = some u from hu]
      rfl
    obtain ⟨hminted, hold⟩ := hnext _ (hpurged ▸ List.mem_cons_self)
    refine ⟨hminted, fun m hm huser _ => hold m (List.mem_filter.mpr ⟨hm, ?_⟩)⟩
    exact decide_eq_true huser
  | _ => trivial

theorem watched_init : Watched {} where
  reapsIdle := fun _ hp => absurd hp List.not_mem_nil
  placeLt := fun _ hm => absurd hm List.not_mem_nil
  seenLe := fun _ _ hp => absurd hp (by simp)
  lastActive := fun _ _ hp => absurd hp (by simp)

/-- All along a run only idle minted accounts have been purged exactly when no
pass comes to an idle row of an account that was registered, or that has had a
message newer than the cutoff since the query. -/
theorem reapsIdle_iff (cfg : DemoConfig) (events : List DemoEvent) :
    (∀ before after, events = before ++ after →
        ReapsIdle (run (DemoState.next cfg) {} before).purged) ↔
      Throughout (DemoState.next cfg) PurgesIdle {} events :=
  along_iff (Q := fun s => ReapsIdle s.purged) (fun _ h => h.reapsIdle) watched_step
    (fun s e _ => purgesIdle_of_reapsIdle s e) watched_init events

/-! ## A registered account with the name of a demo account -/

/-- Someone registers as `demo_lover` and comes back after three hours. -/
def registeredDemo : List DemoEvent :=
  [.register ⟨"demo_lover".toList, "secret".toList, none⟩ true, .pass 10800000, .reap 0, .purge 0]

theorem registeredDemo_purged :
    ¬ ∀ cfg events, ReapsIdle (run (DemoState.next cfg) {} events).purged := by
  intro h
  have hpurged : (run (DemoState.next {}) {} registeredDemo).purged.map
      (fun p => p.user.origin) = [.registered] := by
    decide +kernel
  obtain ⟨p, hp, horigin⟩ := List.mem_map.mp (hpurged ▸ List.mem_singleton_self _)
  rw [(h {} registeredDemo p hp).1] at horigin
  exact absurd horigin (by decide)

end Eidetic.Accounts
