import Eidetic.Lib.Attribute
import Eidetic.Lib.Rows
import Eidetic.Lib.Run
import Eidetic.Py.Uuid

/-!
# Conversations linked to a goal

`link_conversation` of `api/goals.py`. A goal without links gets a new list,
which is written; any other list is changed in place and assigned again, and
then the session sees no change. So a goal keeps its first link and no other
(`stored_after`).

The session compares the value that is assigned with the one it has loaded, and
a list that was changed in place and assigned again is the same object. So the
column is written only where the goal had no list. `linkColumn` is what a
request does to the attribute as the session holds it, and `storedLinks` what
the row has after it; a request for another goal, or of another user, leaves the
row (`linkStep_other`).

`stored_after` describes the stored list after any requests, and what it should
be, the old links and the new ones in order, is `appendNew`. The two are
compared as lists: they are equal when nothing new came, or when only one link
came to a goal that had none (`links_accumulate_iff`).
-/

namespace Eidetic.Goals

open Eidetic.Lib Eidetic.Py

/-- A row of `user_goals`. -/
structure UserGoal where
  id : Uuid
  userId : Nat
  title : Text
  description : Option Text
  status : Text
  linkedConversationIds : List Text
  createdAt : Nat
  updatedAt : Nat

abbrev UserGoals := Rows UserGoal.id

inductive LinkAnswer
  /-- `_row(g)`. -/
  | row (g : UserGoal)
  | refused (status : Nat) (detail : Text)

def notFound : LinkAnswer := .refused 404 "Not found".toList

/-- The two ids of the path, as `uuid.UUID` reads them, and who asks. -/
structure LinkRequest where
  goal : Option Uuid
  conversation : Option Uuid
  user : Nat

/-- What is done to the column: `ids = column or []`, the append and the
assignment if the id is new, and whether it is. -/
def linkColumn (a : Attribute Text) (sid : Text) : Attribute Text × Bool :=
  let (a, ids) := if a.value ≠ [] then (a, a.current) else a.alloc []
  if sid ∈ a.deref ids then (a, false) else ((a.append ids sid).assign ids, true)

/-- The rows after the commit of the session that has loaded one of them. -/
def writeLinks (rows : UserGoals) (gid : Uuid) (a : Attribute Text) : UserGoals :=
  match a.flush with
  | some ids => rows.updateAt gid (fun g => { g with linkedConversationIds := ids }) fun _ => rfl
  | none => rows

def linkConversation (rows : UserGoals) (r : LinkRequest) : UserGoals × LinkAnswer :=
  match r.goal, r.conversation with
  | some gid, some cid =>
    match rows.find gid with
    | some g =>
      if g.userId = r.user then
        let (a, changed) := linkColumn (Attribute.load g.linkedConversationIds) cid.str
        -- the attributes of a row stay as they are after a commit
        let answer := LinkAnswer.row { g with linkedConversationIds := a.value }
        if changed then (writeLinks rows gid a, answer) else (rows, answer)
      else (rows, notFound)
    | none => (rows, notFound)
  | _, _ => (rows, notFound)

/-- The rows after requests, each in a session of its own. -/
def linkStep (rows : UserGoals) (r : LinkRequest) : UserGoals := (linkConversation rows r).1

/-- The conversation a request links to a goal. -/
def linkedBy (g : UserGoal) (r : LinkRequest) : Option Text :=
  if r.goal = some g.id ∧ r.user = g.userId then r.conversation.map Uuid.str else none

/-- The links of a goal with those that requests add, each once and in order. -/
def appendNew (links ids : List Text) : List Text :=
  ids.foldl (fun links sid => if sid ∈ links then links else links ++ [sid]) links

/-! ## One request -/

/-- A goal that has links keeps them, and one that has none gets one. -/
def storedLinks (links : List Text) (sid : Text) : List Text := if links = [] then [sid] else links

theorem linkColumn_nil (sid : Text) :
    linkColumn (Attribute.load []) sid
      = ((((Attribute.load []).alloc []).1.append 1 sid).assign 1, true) := rfl

theorem linkColumn_of_ne {links : List Text} (h : links ≠ []) (sid : Text) :
    linkColumn (Attribute.load links) sid
      = if sid ∈ links then (Attribute.load links, false)
        else (((Attribute.load links).append 0 sid).assign 0, true) := by
  have hvalue : (Attribute.load links).value = links := rfl
  unfold linkColumn
  rw [hvalue, if_pos h]
  rfl

theorem writeLinks_find_of_ne {rows : UserGoals} {gid gid' : Uuid} (h : gid' ≠ gid)
    (a : Attribute Text) : (writeLinks rows gid a).find gid' = rows.find gid' := by
  unfold writeLinks
  split
  next => exact Rows.find_updateAt_of_ne h _ _
  next => rfl

/-- A link to the goal by its user. -/
theorem linkStep_own {rows : UserGoals} {g : UserGoal} (h : rows.find g.id = some g) (cid : Uuid) :
    (linkStep rows ⟨some g.id, some cid, g.userId⟩).find g.id
      = some { g with linkedConversationIds := storedLinks g.linkedConversationIds cid.str } := by
  unfold linkStep linkConversation
  dsimp only
  rw [h]
  dsimp only
  rw [if_pos rfl]
  by_cases hlinks : g.linkedConversationIds = []
  · rw [hlinks, linkColumn_nil, storedLinks, if_pos rfl]
    dsimp only
    rw [if_pos rfl, writeLinks, (Attribute.flush_append_new _).1]
    dsimp only
    rw [Rows.find_updateAt_self, h]
    rfl
  · rw [linkColumn_of_ne hlinks, storedLinks, if_neg hlinks]
    by_cases hmem : cid.str ∈ g.linkedConversationIds
    · rw [if_pos hmem]
      exact h
    · rw [if_neg hmem]
      dsimp only
      rw [if_pos rfl, writeLinks, (Attribute.flush_append_current _ _).1]
      exact h

/-- Any other request leaves the goal. -/
theorem linkStep_other {rows : UserGoals} {g : UserGoal} (h : rows.find g.id = some g)
    {r : LinkRequest} (hnone : linkedBy g r = none) : (linkStep rows r).find g.id = some g := by
  unfold linkStep linkConversation
  split
  next gid cid hgoal hconv =>
    split
    next g' hfind =>
      split
      next huser =>
        by_cases hgid : g.id = gid
        · -- it would be linked
          rw [← hgid, h] at hfind
          cases hfind
          rw [linkedBy, if_pos ⟨hgoal.trans (congrArg some hgid.symm), huser.symm⟩, hconv] at hnone
          cases hnone
        · dsimp only
          split
          next => exact (writeLinks_find_of_ne hgid _).trans h
          next => exact h
      next => exact h
    next => exact h
  next => exact h

theorem linkStep_find {rows : UserGoals} {g : UserGoal} (h : rows.find g.id = some g)
    (r : LinkRequest) :
    (linkStep rows r).find g.id = some { g with
      linkedConversationIds := (linkedBy g r).elim g.linkedConversationIds
        (storedLinks g.linkedConversationIds) } := by
  cases hlinked : linkedBy g r with
  | none => exact linkStep_other h hlinked
  | some sid =>
    unfold linkedBy at hlinked
    split at hlinked
    next hown =>
      obtain ⟨cid, hcid, rfl⟩ := Option.map_eq_some_iff.mp hlinked
      obtain ⟨goal, conversation, user⟩ := r
      obtain ⟨rfl, rfl⟩ : goal = some g.id ∧ user = g.userId := hown
      obtain rfl : conversation = some cid := hcid
      exact linkStep_own h cid
    next => cases hlinked

/-! ## Any requests -/

/-- The ids that requests link to a goal, in order. -/
def linkedIds (g : UserGoal) (requests : List LinkRequest) : List Text :=
  requests.filterMap (linkedBy g)

theorem linkedIds_congr (g : UserGoal) (links : List Text) (requests : List LinkRequest) :
    linkedIds { g with linkedConversationIds := links } requests = linkedIds g requests := rfl

theorem foldl_storedLinks (links ids : List Text) :
    ids.foldl storedLinks links = if links = [] then ids.take 1 else links := by
  induction ids generalizing links with
  | nil =>
    rw [List.foldl_nil, List.take_nil]
    split
    next h => exact h
    next => rfl
  | cons sid ids ih =>
    rw [List.foldl_cons, ih, storedLinks]
    split
    next h => rw [if_neg (List.cons_ne_nil sid []), List.take_succ_cons, List.take_zero]
    next h => rfl

/-- A goal has its first link after any requests, or the links it had. -/
theorem stored_after {rows : UserGoals} {g : UserGoal} (h : rows.find g.id = some g)
    (requests : List LinkRequest) :
    (run linkStep rows requests).find g.id = some { g with
      linkedConversationIds := if g.linkedConversationIds = [] then (linkedIds g requests).take 1
        else g.linkedConversationIds } := by
  rw [← foldl_storedLinks]
  induction requests generalizing rows g with
  | nil => exact h
  | cons r requests ih =>
    let g' : UserGoal := { g with
      linkedConversationIds := (linkedBy g r).elim g.linkedConversationIds
        (storedLinks g.linkedConversationIds) }
    have hrest := ih (g := g') (linkStep_find h r)
    rw [linkedIds_congr] at hrest
    show (run linkStep (linkStep rows r) requests).find g.id = _
    refine hrest.trans ?_
    show some { g with
      linkedConversationIds := (linkedIds g requests).foldl storedLinks
        ((linkedBy g r).elim g.linkedConversationIds (storedLinks g.linkedConversationIds)) } = _
    cases hlinked : linkedBy g r with
    | none =>
      have hids : linkedIds g (r :: requests) = linkedIds g requests :=
        List.filterMap_cons_none hlinked
      rw [hids]
      rfl
    | some sid =>
      have hids : linkedIds g (r :: requests) = sid :: linkedIds g requests :=
        List.filterMap_cons_some hlinked
      rw [hids]
      rfl

/-! ## What should be stored -/

theorem appendNew_of_subset {links ids : List Text} (h : ∀ sid ∈ ids, sid ∈ links) :
    appendNew links ids = links := by
  induction ids with
  | nil => rfl
  | cons sid ids ih =>
    rw [appendNew, List.foldl_cons, if_pos (h sid (List.mem_cons_self ..))]
    exact ih fun sid' hsid' => h sid' (List.mem_cons_of_mem _ hsid')

theorem mem_appendNew {links ids : List Text} {sid : Text} :
    sid ∈ appendNew links ids ↔ sid ∈ links ∨ sid ∈ ids := by
  induction ids generalizing links with
  | nil => simp [appendNew]
  | cons sid' ids ih =>
    show sid ∈ appendNew (if sid' ∈ links then links else links ++ [sid']) ids ↔ _
    rw [ih, List.mem_cons, ← or_assoc]
    refine or_congr_left ?_
    split
    next hmem => exact (or_iff_left_of_imp fun heq => heq ▸ hmem).symm
    next => rw [List.mem_append, List.mem_singleton]

/-- Nothing is to be added exactly when all is there. -/
theorem appendNew_eq_self {links ids : List Text} :
    appendNew links ids = links ↔ ∀ sid ∈ ids, sid ∈ links := by
  constructor
  · intro heq sid hsid
    rw [← heq]
    exact mem_appendNew.mpr (Or.inr hsid)
  · exact appendNew_of_subset

/-- After any requests the goal has the links it had and the new ones, each
once and in order, exactly when there was no new one, or all of them are one
link and it had none. -/
theorem links_accumulate_iff {rows : UserGoals} {g : UserGoal} (h : rows.find g.id = some g)
    (requests : List LinkRequest) :
    ((run linkStep rows requests).find g.id).map UserGoal.linkedConversationIds
        = some (appendNew g.linkedConversationIds (linkedIds g requests)) ↔
      (∀ sid ∈ linkedIds g requests, sid ∈ g.linkedConversationIds) ∨
        (g.linkedConversationIds = [] ∧
          ∀ sid ∈ linkedIds g requests, ∀ sid' ∈ linkedIds g requests, sid = sid') := by
  rw [stored_after h requests, Option.map_some, Option.some_inj]
  dsimp only
  by_cases hlinks : g.linkedConversationIds = []
  · rw [hlinks, if_pos rfl]
    cases hids : linkedIds g requests with
    | nil => simp [appendNew]
    | cons sid ids =>
      have hnew : appendNew [] (sid :: ids) = appendNew [sid] ids := rfl
      rw [hnew, List.take_succ_cons, List.take_zero, eq_comm, appendNew_eq_self]
      constructor
      · intro hall
        have hsame : ∀ sid' ∈ sid :: ids, sid' = sid := by
          intro sid' hsid'
          rcases List.mem_cons.mp hsid' with heq | hmem
          · exact heq
          · exact List.mem_singleton.mp (hall sid' hmem)
        exact Or.inr ⟨rfl, fun a ha b hb => (hsame a ha).trans (hsame b hb).symm⟩
      · rintro (hnone | ⟨-, hsame⟩) sid' hsid'
        · exact absurd (hnone sid (List.mem_cons_self ..)) List.not_mem_nil
        · exact List.mem_singleton.mpr
            (hsame sid' (List.mem_cons_of_mem _ hsid') sid (List.mem_cons_self ..))
  · rw [if_neg hlinks, eq_comm, appendNew_eq_self]
    exact (or_iff_left fun hempty => hlinks hempty.1).symm

/-- A UUID of one digit. -/
def repeated (d : Fin 16) : Uuid := ⟨List.replicate 32 d, List.length_replicate⟩

def smallGoal : UserGoal where
  id := repeated ⟨0, by decide⟩
  userId := 1
  title := "Read".toList
  description := none
  status := "active".toList
  linkedConversationIds := []
  createdAt := 0
  updatedAt := 0

def smallGoals : UserGoals := ⟨[smallGoal], List.nodup_singleton _⟩

/-- A link of the goal to a conversation, by its user. -/
def linkTo (d : Fin 16) : LinkRequest := ⟨some smallGoal.id, some (repeated d), 1⟩

theorem smallGoals_find : smallGoals.find smallGoal.id = some smallGoal :=
  Rows.find_eq_some.mpr ⟨List.mem_singleton.mpr rfl, rfl⟩

theorem links_accumulate_twice :
    ((run linkStep smallGoals [linkTo 1, linkTo 1]).find smallGoal.id).map
          UserGoal.linkedConversationIds
        = some (appendNew smallGoal.linkedConversationIds
          (linkedIds smallGoal [linkTo 1, linkTo 1])) ↔
      (∀ sid ∈ linkedIds smallGoal [linkTo 1, linkTo 1], sid ∈ smallGoal.linkedConversationIds) ∨
        (smallGoal.linkedConversationIds = [] ∧
          ∀ sid ∈ linkedIds smallGoal [linkTo 1, linkTo 1],
            ∀ sid' ∈ linkedIds smallGoal [linkTo 1, linkTo 1], sid = sid') :=
  links_accumulate_iff smallGoals_find _

/-- The second conversation is not stored. -/
theorem second_link_lost :
    ¬ ∀ (rows : UserGoals) (g : UserGoal), rows.find g.id = some g → ∀ requests : List LinkRequest,
      (∀ r ∈ requests, (linkedBy g r).isSome = true) →
        ((run linkStep rows requests).find g.id).map UserGoal.linkedConversationIds
          = some (appendNew g.linkedConversationIds (linkedIds g requests)) := by
  intro h
  have hall := h smallGoals smallGoal smallGoals_find [linkTo 1, linkTo 2] (by decide)
  rw [stored_after smallGoals_find, Option.map_some, Option.some_inj] at hall
  have hlength := congrArg List.length hall
  exact absurd hlength (by decide)

end Eidetic.Goals
