import Eidetic.Lib.Lease
import Eidetic.Lib.Run
import Mathlib.Data.List.Count
import Mathlib.Data.List.Perm.Subperm
import Mathlib.Logic.Function.Basic

/-!
# Tickets that are to be used once

A ticket is issued for something, under a number that has not been used, and
lasts for a time. Who presents the number looks it up and then deletes it, which
are two steps, and only then uses what it is for.

Whoever has looked a ticket up does so within its time, and for what it was
issued for (`valid_of_held`, by induction over the run, with what is kept and what
is held as the invariant). Once one holder has deleted it nobody is let in with it
any more (`admitted_gone`), but two who have both looked it up before that both
use it. What is left is a bound: who gets through with a ticket had been let in
with it, as often (`count_settled`, where one step moves a holder from the one
count to the other), and so before its first deletion (`settled_subperm`).
-/

namespace Eidetic.Lib

variable {α σ ι : Type*}

/-- Where one who has presented a ticket is. -/
inductive Holding (α : Type*)
  | looked (n : Nat) (a : α)
  | burned (n : Nat) (a : α)
deriving DecidableEq

def Holding.ticket : Holding α → Nat × α
  | .looked n a | .burned n a => (n, a)

structure Tickets (α : Type*) where
  now : Nat := 0
  /-- The next number. -/
  fresh : Nat := 0
  kept : Nat → Option (Lease α) := fun _ => none
  holder : Nat → Option (Holding α) := fun _ => none

inductive TicketInput (α : Type*)
  | pass (d : Nat)
  | issue (a : α)
  | look (k n : Nat)
  | burn (k : Nat)
  | leave (k : Nat)
  /-- The store forgets a ticket before its time. -/
  | lose (n : Nat)

namespace Tickets

variable (ttl : Nat) (t : Tickets α)

def hold (k : Nat) (h : Option (Holding α)) : Tickets α := { t with holder := Function.update t.holder k h }

def drop (n : Nat) : Tickets α := { t with kept := Function.update t.kept n none }

def next (t : Tickets α) : TicketInput α → Tickets α
  | .pass d => { t with now := t.now + d }
  | .issue a =>
    { t with
      kept := Function.update t.kept t.fresh (some ⟨a, t.now + ttl⟩)
      fresh := t.fresh + 1 }
  | .look k n =>
    match t.holder k, live t.now (t.kept n) with
    | none, some l => t.hold k (some (.looked n l.token))
    | _, _ => t
  | .burn k =>
    match t.holder k with
    | some (.looked n a) => (t.drop n).hold k (some (.burned n a))
    | _ => t
  | .leave k => t.hold k none
  | .lose n => t.drop n

variable {ttl} {t}

/-- A kept ticket after a step: one that was kept, or the one that is issued. -/
theorem kept_next {i : TicketInput α} {n : Nat} {l : Lease α} (h : (t.next ttl i).kept n = some l) :
    t.kept n = some l ∨ i = .issue l.token ∧ n = t.fresh ∧ l.expires = t.now + ttl := by
  -- deleting a ticket makes no other one
  have hdrop : ∀ m, (t.drop m).kept n = some l → t.kept n = some l := by
    intro m hm
    change Function.update t.kept m none n = some l at hm
    by_cases hn : n = m
    · rw [hn, Function.update_self] at hm
      exact absurd hm (by simp)
    · rwa [Function.update_of_ne hn] at hm
  cases i with
  | pass d => exact .inl h
  | issue a =>
    change Function.update t.kept t.fresh (some ⟨a, t.now + ttl⟩) n = some l at h
    by_cases hn : n = t.fresh
    · rw [hn, Function.update_self] at h
      obtain rfl := Option.some.inj h
      exact .inr ⟨rfl, hn, rfl⟩
    · rw [Function.update_of_ne hn] at h
      exact .inl h
  | look k m =>
    simp only [next] at h
    split at h <;> exact .inl h
  | burn k =>
    simp only [next] at h
    split at h
    next m a _ => exact .inl (hdrop m h)
    next => exact .inl h
  | leave k => exact .inl h
  | lose m => exact .inl (hdrop m h)

/-- What one holds after a step: what one held, or what one has looked up. -/
theorem holder_next {i : TicketInput α} {k : Nat} {h' : Holding α} (h : (t.next ttl i).holder k = some h') :
    (∃ h₀, t.holder k = some h₀ ∧ h'.ticket = h₀.ticket) ∨
      ∃ l, i = .look k h'.ticket.1 ∧ t.holder k = none ∧
        live t.now (t.kept h'.ticket.1) = some l ∧ h'.ticket.2 = l.token := by
  -- whoever already held something holds the same ticket still
  have hstay : t.holder k = some h' → ∃ h₀, t.holder k = some h₀ ∧ h'.ticket = h₀.ticket :=
    fun hk => ⟨h', hk, rfl⟩
  cases i with
  | pass d => exact .inl (hstay h)
  | issue a => exact .inl (hstay h)
  | look j m =>
    simp only [next] at h
    split at h
    next l hfree hlive =>
      change Function.update t.holder j _ k = some h' at h
      by_cases hk : k = j
      · rw [hk, Function.update_self] at h
        obtain rfl := Option.some.inj h
        exact .inr ⟨l, by rw [hk]; rfl, by rw [hk]; exact hfree, hlive, rfl⟩
      · rw [Function.update_of_ne hk] at h
        exact .inl (hstay h)
    next => exact .inl (hstay h)
  | burn j =>
    simp only [next] at h
    split at h
    next m a hj =>
      change Function.update t.holder j _ k = some h' at h
      by_cases hk : k = j
      · rw [hk, Function.update_self] at h
        obtain rfl := Option.some.inj h
        exact .inl ⟨.looked m a, by rw [hk]; exact hj, rfl⟩
      · rw [Function.update_of_ne hk] at h
        exact .inl (hstay h)
    next => exact .inl (hstay h)
  | leave j =>
    change Function.update t.holder j _ k = some h' at h
    by_cases hk : k = j
    · rw [hk, Function.update_self] at h
      exact absurd h (by simp)
    · rw [Function.update_of_ne hk] at h
      exact .inl (hstay h)
  | lose m => exact .inl (hstay h)

theorem fresh_le_next (i : TicketInput α) : t.fresh ≤ (t.next ttl i).fresh := by
  cases i with
  | issue a => exact Nat.le_succ _
  | look k m =>
    simp only [next]
    split <;> exact Nat.le_refl _
  | burn k =>
    simp only [next]
    split <;> exact Nat.le_refl _
  | pass d => exact Nat.le_refl _
  | leave k => exact Nat.le_refl _
  | lose m => exact Nat.le_refl _

/-- A number that was given out, and whose ticket is gone, has none any more. -/
theorem gone_next {n : Nat} (i : TicketInput α) (h : n < t.fresh ∧ t.kept n = none) :
    n < (t.next ttl i).fresh ∧ (t.next ttl i).kept n = none := by
  constructor
  · exact Nat.lt_of_lt_of_le h.1 (fresh_le_next i)
  · cases hkept : (t.next ttl i).kept n with
    | none => rfl
    | some l =>
      rcases kept_next hkept with hold | ⟨_, rfl, _⟩
      · rw [h.2] at hold
        exact absurd hold (by simp)
      · exact absurd h.1 (Nat.lt_irrefl _)

/-! ### Who gets in, and who gets through -/

/-- Who is let in with a ticket. -/
def admits (t : Tickets α) (n : Nat) : TicketInput α → Option Nat
  | .look k m => if m = n ∧ t.holder k = none ∧ (live t.now (t.kept n)).isSome then some k else none
  | _ => none

/-- Who leaves after having deleted a ticket. -/
def settles (t : Tickets α) (n : Nat) : TicketInput α → Option Nat
  | .leave k =>
    match t.holder k with
    | some (.burned m _) => if m = n then some k else none
    | _ => none
  | _ => none

/-- Whether one has a ticket, deleted or not. -/
def holds (t : Tickets α) (n k : Nat) : Nat :=
  match t.holder k with
  | some h => if h.ticket.1 = n then 1 else 0
  | none => 0

theorem holds_of_holder {n k : Nat} {h : Holding α} (hk : t.holder k = some h) (hn : h.ticket.1 = n) :
    t.holds n k = 1 := by
  rw [holds, hk]
  exact if_pos hn

theorem holds_cases (t : Tickets α) (n k : Nat) :
    t.holds n k = 0 ∨ t.holds n k = 1 ∧ ∃ h, t.holder k = some h ∧ h.ticket.1 = n := by
  unfold holds
  split
  next h hk =>
    split
    next hn => exact .inr ⟨rfl, h, hk, hn⟩
    next => exact .inl rfl
  next => exact .inl rfl

theorem leave_of_settles {i : TicketInput α} {n k : Nat} (h : t.settles n i = some k) :
    i = .leave k ∧ ∃ a, t.holder k = some (.burned n a) := by
  unfold settles at h
  split at h
  next j =>
    split at h
    next m a hj =>
      split at h
      next hm =>
        obtain rfl := Option.some.inj h
        rw [hm] at hj
        exact ⟨rfl, a, hj⟩
      next => exact absurd h (by simp)
    next => exact absurd h (by simp)
  next => exact absurd h (by simp)

/-- Who has a ticket after a step, or has got through in it, had it before or is
let in. -/
theorem count_settles (i : TicketInput α) (n k : Nat) :
    (t.settles n i).toList.count k + (t.next ttl i).holds n k
      ≤ (t.admits n i).toList.count k + t.holds n k := by
  by_cases hsettles : t.settles n i = some k
  · -- who leaves has had it
    obtain ⟨rfl, a, hk⟩ := leave_of_settles hsettles
    have hleft : (t.next ttl (.leave k)).holder k = none := Function.update_self ..
    have hnone : (t.next ttl (.leave k)).holds n k = 0 := by rw [holds, hleft]
    rw [hsettles, hnone, @holds_of_holder _ t n k _ hk rfl]
    simp
  · have hcount : (t.settles n i).toList.count k = 0 := by
      rw [List.count_eq_zero]
      exact fun hmem => hsettles (Option.mem_toList.mp hmem)
    rw [hcount, Nat.zero_add]
    -- who holds it now held it before, or looks it up in this step
    rcases (t.next ttl i).holds_cases n k with hzero | ⟨hone, h', hk, hn⟩
    · rw [hzero]
      exact Nat.zero_le _
    · rw [hone]
      rcases holder_next hk with ⟨h₀, hold, hsame⟩ | ⟨l, rfl, hfree, hlive, -⟩
      · rw [holds_of_holder hold (hsame ▸ hn)]
        exact Nat.le_add_left ..
      · have hadmits : t.admits n (.look k h'.ticket.1) = some k := by
          rw [hn] at hlive ⊢
          exact if_pos ⟨rfl, hfree, by rw [hlive]; rfl⟩
        rw [hadmits, Option.toList_some, List.count_singleton_self]
        exact Nat.le_add_right ..

/-- With a number whose ticket is gone nobody is let in. -/
theorem admits_gone {n : Nat} (i : TicketInput α) (h : t.kept n = none) : t.admits n i = none := by
  have hdead : (live t.now (t.kept n)).isSome = false := by
    rw [live_eq_none fun l hl => absurd (h.symm.trans hl) (by simp)]
    rfl
  unfold admits
  split
  next => rw [if_neg (by rw [hdead]; simp)]
  next => rfl

end Tickets

/-! ## A machine that has tickets -/

/-- A machine with tickets, and what its steps do to them. -/
structure TicketOffice (σ ι α : Type*) where
  next : σ → ι → σ
  tickets : σ → Tickets α
  act : σ → ι → Option (TicketInput α)
  ttl : Nat
  step : ∀ s i, tickets (next s i) = ((act s i).map ((tickets s).next ttl)).getD (tickets s)

namespace TicketOffice

variable (p : TicketOffice σ ι α) (s : σ)

/-- The tickets after some steps. -/
def after (is : List ι) : Tickets α := p.tickets (run p.next s is)

/-- A ticket was issued in a run, and expires. -/
def Issued (is : List ι) (n : Nat) (l : Lease α) : Prop :=
  ∃ before i rest, is = before ++ i :: rest ∧ p.act (run p.next s before) i = some (.issue l.token) ∧
    n = (p.after s before).fresh ∧ l.expires = (p.after s before).now + p.ttl

/-- A ticket was issued for something in a run, and looked up within its time. -/
def Valid (is : List ι) (n : Nat) (a : α) : Prop :=
  ∃ before i rest l k, is = before ++ i :: rest ∧ p.Issued s before n l ∧ l.token = a ∧
    p.act (run p.next s before) i = some (.look k n) ∧ (p.after s before).now < l.expires

variable {p} {s}

theorem Issued.more {is : List ι} {n : Nat} {l : Lease α} (h : p.Issued s is n l) (js : List ι) :
    p.Issued s (is ++ js) n l := by
  obtain ⟨before, i, rest, rfl, hact⟩ := h
  exact ⟨before, i, rest ++ js, by simp, hact⟩

theorem Valid.more {is : List ι} {n : Nat} {a : α} (h : p.Valid s is n a) (js : List ι) :
    p.Valid s (is ++ js) n a := by
  obtain ⟨before, i, rest, l, k, rfl, hissued⟩ := h
  exact ⟨before, i, rest ++ js, l, k, by simp, hissued⟩

/-- No ticket is there that was not issued, and none is held that was not valid. -/
structure Kept (p : TicketOffice σ ι α) (s : σ) (is : List ι) (t : Tickets α) : Prop where
  issued : ∀ n l, t.kept n = some l → p.Issued s is n l
  valid : ∀ k h, t.holder k = some h → p.Valid s is h.ticket.1 h.ticket.2

theorem kept_step {is : List ι} {i : ι} (h : p.Kept s is (p.after s is)) :
    p.Kept s (is ++ [i]) (p.after s (is ++ [i])) := by
  have hstep := p.step (run p.next s is) i
  have hafter : p.after s (is ++ [i]) = p.tickets (p.next (run p.next s is) i) := by
    unfold after
    rw [run_append]
    rfl
  rw [hafter, hstep]
  cases hact : p.act (run p.next s is) i with
  | none => exact ⟨fun n l hl => (h.issued n l hl).more _, fun k h' hk => (h.valid k h' hk).more _⟩
  -- the kept tickets are the issued ones, and a holder found its own among them
  | some input =>
    constructor
    · intro n l hl
      rcases Tickets.kept_next hl with hold | ⟨rfl, hn, hl⟩
      · exact (h.issued n l hold).more _
      · exact ⟨is, i, [], rfl, hact, hn, hl⟩
    · intro k h' hk
      rcases Tickets.holder_next hk with ⟨h₀, hold, hsame⟩ | ⟨l, rfl, -, hlive, htoken⟩
      · rw [hsame]
        exact (h.valid k h₀ hold).more _
      · obtain ⟨hl, hnow⟩ := live_eq_some.mp hlive
        exact ⟨is, i, [], l, k, rfl, h.issued _ _ hl, htoken.symm, hact, hnow⟩

/-- What is held after a run was issued in it for that, and looked up in time. -/
theorem valid_of_held {is : List ι} (hnone : ∀ n, (p.tickets s).kept n = none)
    (hheld : ∀ k, (p.tickets s).holder k = none) {k : Nat} {h : Holding α}
    (hk : (p.after s is).holder k = some h) : p.Valid s is h.ticket.1 h.ticket.2 := by
  have hstart : p.Kept s [] (p.after s []) := by
    refine ⟨?_, ?_⟩
    · intro n l hl
      exact absurd ((hnone n).symm.trans hl) (by simp)
    · intro k h hk
      exact absurd ((hheld k).symm.trans hk) (by simp)
  have hkept : p.Kept s is (p.after s is) :=
    run_history (P := fun _ _ => True) (fun is s' => p.Kept s is (p.tickets s')) hstart
      (fun is i h _ => by
        have hnext := kept_step (i := i) h
        unfold after at hnext
        rwa [run_append] at hnext)
      (throughout_of_forall fun _ _ => trivial)
  exact hkept.valid k h hk

/-! ## Used once -/

theorem after_step (is : List ι) (i : ι) :
    p.after s (is ++ [i]) =
      ((p.act (run p.next s is) i).map ((p.after s is).next p.ttl)).getD (p.after s is) := by
  unfold after
  rw [run_append]
  exact p.step (run p.next s is) i

theorem fresh_le_after (is js : List ι) : (p.after s is).fresh ≤ (p.after s (is ++ js)).fresh := by
  induction js using List.reverseRecOn with
  | nil => exact Nat.le_of_eq (by rw [List.append_nil])
  | append_singleton js j ih =>
    rw [← List.append_assoc, after_step]
    cases p.act (run p.next s (is ++ js)) j with
    | none => exact ih
    | some input => exact Nat.le_trans ih (Tickets.fresh_le_next input)

/-- A number that was issued is below the next one. -/
theorem lt_of_issued {is : List ι} {n : Nat} {l : Lease α} (h : p.Issued s is n l) :
    n < (p.after s is).fresh := by
  obtain ⟨before, i, rest, rfl, hact, rfl, _⟩ := h
  have hmore := fresh_le_after (p := p) (s := s) (before ++ [i]) rest
  rw [after_step, hact, List.append_assoc] at hmore
  exact hmore

theorem lt_of_valid {is : List ι} {n : Nat} {a : α} (h : p.Valid s is n a) : n < (p.after s is).fresh := by
  obtain ⟨before, i, rest, l, k, rfl, hissued, _⟩ := h
  exact Nat.lt_of_lt_of_le (lt_of_issued hissued) (fresh_le_after before (i :: rest))

theorem gone_of_burned {before : List ι} {i : ι} {k n : Nat} {a : α} (hlt : n < (p.after s before).fresh)
    (hk : (p.after s before).holder k = some (.looked n a))
    (hburn : p.act (run p.next s before) i = some (.burn k)) (mid : List ι) :
    n < (p.after s (before ++ i :: mid)).fresh ∧ (p.after s (before ++ i :: mid)).kept n = none := by
  induction mid using List.reverseRecOn with
  | nil =>
    rw [after_step, hburn]
    simp only [Option.map_some, Option.getD_some, Tickets.next, hk]
    exact ⟨hlt, Function.update_self ..⟩
  | append_singleton mid j ih =>
    rw [show before ++ i :: (mid ++ [j]) = before ++ i :: mid ++ [j] by simp, after_step]
    cases p.act (run p.next s (before ++ i :: mid)) j with
    | none => exact ih
    | some input => exact Tickets.gone_next input ih

variable (p) (s) in
/-- Those who are let in with a ticket in a run. -/
def admitted (n : Nat) (is : List ι) : List Nat :=
  gathered p.next (fun s i => (p.act s i).bind ((p.tickets s).admits n)) s is

variable (p) (s) in
/-- Those who leave in a run after having deleted a ticket. -/
def settled (n : Nat) (is : List ι) : List Nat :=
  gathered p.next (fun s i => (p.act s i).bind ((p.tickets s).settles n)) s is

/-- Nobody gets through with a ticket more often than it was let in. -/
theorem count_settled (n k : Nat) (is : List ι) :
    (p.settled s n is).count k + (p.after s is).holds n k
      ≤ (p.admitted s n is).count k + (p.tickets s).holds n k := by
  induction is generalizing s with
  | nil => exact Nat.le_refl _
  | cons i is ih =>
    have hmore := ih (s := p.next s i)
    have hstep : ((p.act s i).bind ((p.tickets s).settles n)).toList.count k
          + (p.tickets (p.next s i)).holds n k
        ≤ ((p.act s i).bind ((p.tickets s).admits n)).toList.count k + (p.tickets s).holds n k := by
      rw [p.step]
      cases p.act s i with
      | none => exact Nat.le_refl _
      | some input => exact Tickets.count_settles input n k
    -- one step and the rest of the run, on both sides
    show List.count k (((p.act s i).bind ((p.tickets s).settles n)).toList
          ++ p.settled (p.next s i) n is) + (p.after (p.next s i) is).holds n k
      ≤ List.count k (((p.act s i).bind ((p.tickets s).admits n)).toList
          ++ p.admitted (p.next s i) n is) + _
    rw [List.count_append, List.count_append]
    omega

/-- Once a ticket is gone nobody is let in with it. -/
theorem admitted_gone {n : Nat} (is : List ι)
    (h : n < (p.tickets s).fresh ∧ (p.tickets s).kept n = none) : p.admitted s n is = [] := by
  induction is generalizing s with
  | nil => rfl
  | cons i is ih =>
    -- tickets are numbered upwards, so a gone one is not issued again
    have hgone : n < (p.tickets (p.next s i)).fresh ∧ (p.tickets (p.next s i)).kept n = none := by
      rw [p.step]
      cases p.act s i with
      | none => exact h
      | some input => exact Tickets.gone_next input h
    have hnone : (p.act s i).bind ((p.tickets s).admits n) = none := by
      cases p.act s i with
      | none => rfl
      | some input => exact Tickets.admits_gone input h.2
    show (Option.bind _ _).toList ++ p.admitted (p.next s i) n is = []
    rw [hnone, ih hgone]
    rfl

/-- Those who get through with a ticket, however late, had all been let in before
it was first deleted, each for itself. -/
theorem settled_subperm {before rest : List ι} {i : ι} {k n : Nat} {a : α}
    (hlt : n < (p.after s before).fresh) (hk : (p.after s before).holder k = some (.looked n a))
    (hburn : p.act (run p.next s before) i = some (.burn k))
    (hnone : ∀ j, (p.tickets s).holder j = none) :
    (p.settled s n (before ++ i :: rest)).Subperm (p.admitted s n before) := by
  have hgone := gone_of_burned hlt hk hburn []
  have hadmitted : p.admitted s n (before ++ i :: rest) = p.admitted s n before := by
    unfold after at hgone
    rw [run_append] at hgone
    have hrest : p.admitted (p.next (run p.next s before) i) n rest = [] := admitted_gone rest hgone
    unfold admitted at hrest ⊢
    rw [gathered_append]
    show _ ++ (((p.act (run p.next s before) i).bind
      ((p.tickets (run p.next s before)).admits n)).toList ++ gathered _ _ _ rest) = _
    rw [hburn, hrest]
    exact List.append_nil _
  -- compared holder by holder: each gets through at most as often as it was let in
  rw [List.subperm_ext_iff]
  intro j _
  have hcount := count_settled (p := p) (s := s) n j (before ++ i :: rest)
  have hzero : (p.tickets s).holds n j = 0 := by rw [Tickets.holds, hnone j]
  rw [hadmitted, hzero] at hcount
  omega

end TicketOffice

end Eidetic.Lib
