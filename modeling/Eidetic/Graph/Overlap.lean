import Eidetic.Graph.Types
import Eidetic.Lib.Room
import Eidetic.Lib.Run
import Eidetic.Py.Spacing
import Mathlib.Data.List.Perm.Basic

/-!
# Calls on a user's graph that overlap

Every statement of `extract_and_store` and of `merge_duplicate_entities` is a
transaction of its own, and the calls of one user run at once: an extraction is
started after each turn, and does not wait for the one before. The count that
the cap goes by may be old when entities are evicted, and those that are merged
may be gone.

Whatever the order, a graph has the names that extractions accept, and no more
entities than the cap and a batch for every extraction but one that may be
between its count and its batch (`keeps_cap`). One call alone does what the
sequential model says (`extraction_alone`).

A call is a task that has some statements left, and a step is one statement of
one task, or its end: an exception leaves what was done. The invariant is
`KeepsCap`: the names in the graph, and those in the batches to come, are names
that an extraction accepts, and the graph with what the waiting extractions may
add has room (`HasRoom` of the library). An extraction that counts, evicts and
stores moves through that room; merges and deletions only make more. There is a
lemma for each kind of step, and `KeepsCap.next` puts them together.

The two models are connected: when nothing comes between, the statements of an
extraction do what `extractAndStore` does, and those of a merge what
`mergeDuplicateEntities` does (`extraction_alone`, `merge_alone`).
-/

namespace Eidetic.Graph

open Eidetic.Lib Eidetic.Py

variable {τ : Type*}

/-- The statements by which a node is merged into another. -/
inductive GraphStatement (τ : Type*)
  | set (keep : Text) (f : Entity (Option τ) → Entity (Option τ))
  | redirectOut (keep dup : Text)
  | redirectIn (keep dup : Text)
  | delete (dup : Text)

def GraphStatement.exec (g : EntityGraph (Option τ)) : GraphStatement τ → EntityGraph (Option τ)
  | .set keep f => g.setNode keep f
  | .redirectOut keep dup => g.redirectOut none keep dup
  | .redirectIn keep dup => g.redirectIn none keep dup
  | .delete dup => g.detachDelete [dup]

/-- What the loops of the two passes run for a group. -/
def redirections (m : EntityMerge τ) : List (GraphStatement τ) :=
  m.dups.flatMap fun dup => [.redirectOut m.keep dup, .redirectIn m.keep dup, .delete dup]

def firstPass (lower : Text → Text) (now : Text → τ) (rows : List (EntityRow τ)) :
    List (GraphStatement τ) :=
  (normMerges lower now rows).flatMap fun m => .set m.keep m.set :: redirections m

def secondPass (lower : Text → Text) (rows : List (EntityRow τ)) : List (GraphStatement τ) :=
  (typeMerges lower rows).flatMap redirections

/-- Where a call is. -/
inductive GraphTask (τ : Type*)
  /-- An extraction has counted, and is to evict as many. -/
  | counted (batch : List BatchEntity) (rels : List BatchRelation) (ts : τ) (excess : Nat)
  | evicted (batch : List BatchEntity) (rels : List BatchRelation) (ts : τ)
  | stored (rels : List BatchRelation) (ts : τ)
  /-- A merge has statements left, and its second pass may be to come. -/
  | merging (todo : List (GraphStatement τ)) (second : Bool)

structure GraphCalls (τ : Type*) where
  graph : EntityGraph (Option τ)
  /-- The calls that have begun. -/
  tasks : List (GraphTask τ) := []

/-- The steps; a call is named by its place among those that have begun. -/
inductive GraphEvent (τ : Type*)
  /-- `extract_and_store` up to its count. -/
  | count (data : Json) (compacting : Bool) (ts : τ)
  | evict (i : Nat) (order : List (EntityRow τ))
  | store (i : Nat)
  | relate (i : Nat)
  /-- `merge_duplicate_entities` up to its first query. -/
  | merge (now : Text → τ) (first : Scan τ)
  /-- The next statement of a merge, or its second query. -/
  | goOn (i : Nat) (second : Scan τ)
  /-- A call ends with an exception, or with the process. -/
  | fail (i : Nat)
  /-- `delete_entity`. -/
  | delete (name : Text)
  /-- `prune_graph`, and the reset of a user's memory: what meets a condition goes. -/
  | prune (gone : Text × Entity (Option τ) → Bool)

namespace GraphCalls

variable (upper lower : Text → Text)

/-- The call at a place makes a step, or ends. -/
def goes (s : GraphCalls τ) (i : Nat) (graph : EntityGraph (Option τ)) (task : Option (GraphTask τ)) :
    GraphCalls τ :=
  ⟨graph, task.toList ++ s.tasks.eraseIdx i⟩

def next (s : GraphCalls τ) : GraphEvent τ → GraphCalls τ
  | .count data compacting ts =>
    match extracted upper data with
    | .ok (some (batch, rels)) =>
      if compacting ∨ batch = [] then s
      else { s with tasks := .counted batch rels ts (overflow s.graph batch) :: s.tasks }
    | .ok none | .error _ => s
  | .evict i order =>
    match s.tasks[i]? with
    | some (.counted batch rels ts excess) =>
      -- no statement is run for an overflow of zero
      s.goes i (if 0 < excess then s.graph.detachDelete ((order.take excess).map Prod.fst) else s.graph)
        (some (.evicted batch rels ts))
    | _ => s
  | .store i =>
    match s.tasks[i]? with
    | some (.evicted batch rels ts) =>
      s.goes i (s.graph.mergeNodes (batch.map fun e => (e.name, upsert (some ts) e)))
        (some (.stored rels ts))
    | _ => s
  | .relate i =>
    match s.tasks[i]? with
    | some (.stored rels ts) => s.goes i (s.graph.mergeEdges (rels.map fun r => (r, some ts))) none
    | _ => s
  | .merge now first =>
    let rows := first.rows s.graph
    if rows.isEmpty then s
    else { s with tasks := .merging (firstPass lower now rows) true :: s.tasks }
  | .goOn i second =>
    match s.tasks[i]? with
    | some (.merging (statement :: todo) again) =>
      s.goes i (statement.exec s.graph) (some (.merging todo again))
    | some (.merging [] true) =>
      s.goes i s.graph (some (.merging (secondPass lower (second.rows s.graph)) false))
    | some (.merging [] false) => s.goes i s.graph none
    | _ => s
  | .fail i => s.goes i s.graph none
  | .delete name => { s with graph := s.graph.detachDelete [name] }
  | .prune gone => { s with graph := s.graph.detachDelete ((s.graph.nodes.filter gone).map Prod.fst) }

/-! ## Names and room -/

/-- A name that an extraction accepts. -/
def Accepted (name : Text) : Prop := name ≠ [] ∧ strip name = name ∧ name.length ≤ maxEntityNameLen

instance (name : Text) : Decidable (Accepted name) := inferInstanceAs (Decidable (_ ∧ _))

/-- An extraction that has counted and has not put its batch in. -/
def adder : GraphTask τ → Option Adder
  | .counted batch _ _ excess => some ⟨batch.length, excess⟩
  | .evicted batch _ _ => some ⟨batch.length, 0⟩
  | .stored .. | .merging .. => none

def adders (s : GraphCalls τ) : List Adder := s.tasks.filterMap adder

/-- The names that a call is to put in. -/
def namesOf : GraphTask τ → List Text
  | .counted batch .. | .evicted batch .. => batch.map BatchEntity.name
  | .stored .. | .merging .. => []

structure KeepsCap (k : Nat) (s : GraphCalls τ) : Prop where
  accepted : ∀ name ∈ s.graph.keys, Accepted name
  batches : ∀ task ∈ s.tasks, ∀ name ∈ namesOf task, Accepted name
  room : HasRoom maxUserEntities maxEntitiesPerCall k s.graph.keys.length (adders s)

/-- The query for what is to be evicted returns the rows of the graph, and there
are `k` extractions at most between their count and their batch. -/
structure AtOnce (k : Nat) (s : GraphCalls τ) (e : GraphEvent τ) : Prop where
  rows : ∀ i order, e = .evict i order → order.Perm s.graph.nodes
  few : (adders (next upper lower s e)).length ≤ k

theorem strip_textField {value : Json} {key default : String} {t : Text}
    (h : textField value key default = .ok t) : strip t = t := by
  obtain ⟨found, -, h⟩ := bind_eq_ok h
  split at h
  next s _ =>
    obtain rfl := Except.ok.inj h
    exact strip_strip s
  next => exact absurd h (by simp [throw, throwThe, MonadExceptOf.throw])

theorem accepted_of_entityOf {e : Json} {b : BatchEntity} (h : entityOf e = .ok (some b)) :
    Accepted b.name := by
  obtain ⟨name, hname, h⟩ := bind_eq_ok h
  split at h
  next => exact absurd (Except.ok.inj h) (by simp)
  next hkept =>
    obtain ⟨type, -, h⟩ := bind_eq_ok h
    obtain rfl := Option.some.inj (Except.ok.inj h)
    obtain ⟨hsome, hlong⟩ := not_or.mp hkept
    exact ⟨by simpa using hsome, strip_textField hname, Nat.le_of_not_lt hlong⟩

theorem accepted_of_extracted {data : Json} {batch : List BatchEntity} {rels : List BatchRelation}
    (h : extracted upper data = .ok (some (batch, rels))) : ∀ name ∈ batch.map BatchEntity.name,
      Accepted name := by
  obtain ⟨entities, -, h⟩ := bind_eq_ok h
  obtain ⟨relations, -, h⟩ := bind_eq_ok h
  split at h
  next => exact absurd (Except.ok.inj h) (by simp)
  next =>
    obtain ⟨batch', hbatch, h⟩ := bind_eq_ok h
    obtain ⟨rels', -, h⟩ := bind_eq_ok h
    obtain ⟨rfl, rfl⟩ := Prod.mk.inj (Option.some.inj (Except.ok.inj h))
    obtain ⟨items, -, hbatch⟩ := bind_eq_ok hbatch
    obtain ⟨found, hfound, hbatch⟩ := bind_eq_ok hbatch
    obtain rfl := Except.ok.inj hbatch
    intro name hname
    obtain ⟨b, hb, rfl⟩ := List.mem_map.mp hname
    obtain ⟨o, ho, rfl⟩ := List.mem_filterMap.mp (List.mem_of_mem_take hb)
    obtain ⟨x, -, hx⟩ := ok_of_mapM hfound _ ho
    exact accepted_of_entityOf hx

variable {upper lower} {k i : Nat} {s : GraphCalls τ} {e : GraphEvent τ} {task : GraphTask τ}
  {graph : EntityGraph (Option τ)} {wanted : Option (GraphTask τ)}

theorem perm_adders (h : s.tasks[i]? = some task) :
    (adders s).Perm ((adder task).toList ++ (s.tasks.eraseIdx i).filterMap adder) := by
  obtain ⟨hi, hget⟩ := List.getElem?_eq_some_iff.mp h
  have hperm := (List.getElem_cons_eraseIdx_perm hi).symm.filterMap adder
  rw [hget, List.filterMap_cons] at hperm
  unfold adders
  cases hadder : adder task with
  | none =>
    rw [hadder] at hperm
    exact hperm
  | some r =>
    rw [hadder] at hperm
    exact hperm

theorem adders_goes : adders (s.goes i graph wanted) =
    (wanted.bind adder).toList ++ (s.tasks.eraseIdx i).filterMap adder := by
  unfold adders goes
  rw [List.filterMap_append]
  cases wanted with
  | none => rfl
  | some task =>
    cases h : adder task <;> simp [h]

/-- A call goes on and leaves no names behind that are not accepted. -/
theorem KeepsCap.goes (h : s.KeepsCap k) (haccepted : ∀ name ∈ graph.keys, Accepted name)
    (hbatches : ∀ task ∈ wanted, ∀ name ∈ namesOf task, Accepted name)
    (hroom : HasRoom maxUserEntities maxEntitiesPerCall k graph.keys.length
      ((wanted.bind adder).toList ++ (s.tasks.eraseIdx i).filterMap adder)) :
    (s.goes i graph wanted).KeepsCap k := by
  refine ⟨haccepted, ?_, ?_⟩
  · intro task htask
    rcases List.mem_append.mp htask with hnew | hold
    · exact hbatches task (Option.mem_toList.mp hnew)
    · exact h.batches task (List.mem_of_mem_eraseIdx hold)
  · rw [adders_goes]
    exact hroom

/-- A call that adds nothing any more goes on, and the graph gets no new names. -/
theorem KeepsCap.shrinks (h : s.KeepsCap k) (hkeys : graph.keys.Sublist s.graph.keys)
    (hadder : wanted.bind adder = none) (hnames : ∀ task ∈ wanted, namesOf task = []) :
    (s.goes i graph wanted).KeepsCap k := by
  refine h.goes (fun name hname => h.accepted name (hkeys.subset hname)) ?_ ?_
  · intro task htask name hname
    rw [hnames task htask] at hname
    exact absurd hname List.not_mem_nil
  · rw [hadder]
    exact h.room.less hkeys.length_le ((List.eraseIdx_sublist ..).filterMap adder)

theorem keys_detachDelete_sublist (g : EntityGraph (Option τ)) (ks : List Text) :
    (g.detachDelete ks).keys.Sublist g.keys := by
  rw [PropertyGraph.keys_detachDelete]
  exact List.filter_sublist

theorem keys_exec_sublist (statement : GraphStatement τ) (g : EntityGraph (Option τ)) :
    (statement.exec g).keys.Sublist g.keys := by
  cases statement with
  | set keep f =>
    have hkeys : (g.setNode keep f).keys = g.keys := keys_modifyKey ..
    show (g.setNode keep f).keys.Sublist g.keys
    rw [hkeys]
  | redirectOut keep dup =>
    show ((g.redirectOut none keep dup).nodes.map Prod.fst).Sublist g.keys
    rw [PropertyGraph.nodes_redirectOut]
    exact List.Sublist.refl _
  | redirectIn keep dup =>
    show ((g.redirectIn none keep dup).nodes.map Prod.fst).Sublist g.keys
    rw [PropertyGraph.nodes_redirectIn]
    exact List.Sublist.refl _
  | delete dup => exact keys_detachDelete_sublist g [dup]

/-- As many of the rows are deleted as are taken, or all. -/
theorem length_taken {g : EntityGraph (Option τ)} {order : List (EntityRow τ)} (horder : order.Perm g.nodes)
    (excess : Nat) :
    (g.detachDelete ((order.take excess).map Prod.fst)).keys.length ≤ g.keys.length - excess := by
  have hkeys : (order.map Prod.fst).Perm g.keys := horder.map Prod.fst
  have hsub : ((order.take excess).map Prod.fst).Sublist (order.map Prod.fst) :=
    (List.take_sublist _ _).map _
  have hdeleted := PropertyGraph.length_detachDelete
    ((hkeys.nodup_iff.mpr g.nodup_keys).sublist hsub) fun k hk => hkeys.subset (hsub.subset hk)
  have hlength := hkeys.length_eq
  rw [List.length_map] at hlength
  rw [List.length_map, List.length_take] at hdeleted
  omega

theorem KeepsCap.prunes (h : s.KeepsCap k) (ks : List Text) :
    KeepsCap k { s with graph := s.graph.detachDelete ks } := by
  have hkeys := keys_detachDelete_sublist s.graph ks
  exact ⟨fun name hname => h.accepted name (hkeys.subset hname), h.batches,
    h.room.less hkeys.length_le (List.Sublist.refl _)⟩

/-- An extraction that has counted leaves room for its batch. -/
theorem KeepsCap.counts (h : s.KeepsCap k) {data : Json} {compacting : Bool} {ts : τ}
    (he : AtOnce upper lower k s (.count data compacting ts)) :
    (next upper lower s (.count data compacting ts)).KeepsCap k := by
  have hfew := he.few
  unfold GraphCalls.next at hfew ⊢
  dsimp only at hfew ⊢
  split
  next batch rels hextracted =>
    rw [hextracted] at hfew
    split
    next => exact h
    next hnew =>
      dsimp only at hfew
      rw [if_neg hnew] at hfew
      refine ⟨h.accepted, ?_, ?_⟩
      · intro task htask name hname
        rcases List.mem_cons.mp htask with rfl | hold
        · exact accepted_of_extracted upper hextracted name hname
        · exact h.batches task hold name hname
      -- one more call that is between its count and its eviction
      · show HasRoom _ _ k s.graph.keys.length (⟨batch.length, overflow s.graph batch⟩ :: adders s)
        unfold overflow
        rw [← PropertyGraph.length_keys]
        exact h.room.count (batch_of_extracted hextracted).1 hfew
  next => exact h
  next => exact h

/-- What is evicted makes room for the batch. -/
theorem KeepsCap.evicts (h : s.KeepsCap k) {i : Nat} {order : List (EntityRow τ)}
    (he : AtOnce upper lower k s (.evict i order)) :
    (next upper lower s (.evict i order)).KeepsCap k := by
  have hperm := he.rows i order rfl
  unfold GraphCalls.next
  dsimp only
  split
  next batch rels ts excess htask =>
    have hmem := List.mem_of_getElem? htask
    -- the task is put first, as the one that goes on
    have hroom := h.room.perm (perm_adders htask)
    split
    next =>
      refine h.goes (fun name hname => h.accepted name ((keys_detachDelete_sublist ..).subset hname)) ?_ ?_
      · intro task htask' name hname
        obtain rfl := Option.some.inj htask'
        exact h.batches _ hmem name hname
      · exact hroom.free (by decide) (length_taken hperm excess)
    next hexcess =>
      refine h.goes h.accepted ?_ ?_
      · intro task htask' name hname
        obtain rfl := Option.some.inj htask'
        exact h.batches _ hmem name hname
      · exact hroom.free (by decide) (by show _ ≤ _ - excess; omega)
  next => exact h

/-- The batch takes the room that it has. -/
theorem KeepsCap.stores (h : s.KeepsCap k) (i : Nat) : (next upper lower s (.store i)).KeepsCap k := by
  unfold GraphCalls.next
  dsimp only
  split
  next batch rels ts htask =>
    have hmem := List.mem_of_getElem? htask
    have hroom := h.room.perm (perm_adders htask)
    refine h.goes ?_ ?_ ?_
    · intro name hname
      rcases PropertyGraph.mem_keys_mergeNodes.mp hname with hold | hnew
      · exact h.accepted name hold
      · rw [List.map_map] at hnew
        exact h.batches _ hmem name hnew
    · intro task htask' name hname
      obtain rfl := Option.some.inj htask'
      exact absurd hname List.not_mem_nil
    · refine hroom.add rfl ?_
      have hlen := PropertyGraph.length_mergeNodes_le s.graph
        (batch.map fun e => (e.name, upsert (some ts) e))
      rwa [List.length_map] at hlen
  next => exact h

theorem KeepsCap.relates (h : s.KeepsCap k) (i : Nat) : (next upper lower s (.relate i)).KeepsCap k := by
  unfold GraphCalls.next
  dsimp only
  split
  next rels ts _ =>
    refine h.shrinks ?_ rfl fun _ hnone => absurd hnone (by simp)
    rw [PropertyGraph.keys_mergeEdges]
  next => exact h

/-- A merge that begins adds nothing. -/
theorem KeepsCap.merges (h : s.KeepsCap k) (now : Text → τ) (first : Scan τ) :
    (next upper lower s (.merge now first)).KeepsCap k := by
  unfold GraphCalls.next
  dsimp only
  split
  next => exact h
  next =>
    refine ⟨h.accepted, ?_, h.room⟩
    intro task htask name hname
    rcases List.mem_cons.mp htask with rfl | hold
    · exact absurd hname List.not_mem_nil
    · exact h.batches task hold name hname

/-- A statement of a merge adds no name. -/
theorem KeepsCap.goesOn (h : s.KeepsCap k) (i : Nat) (second : Scan τ) :
    (next upper lower s (.goOn i second)).KeepsCap k := by
  have hmerging : ∀ todo again, ∀ task ∈ some (GraphTask.merging (τ := τ) todo again),
      namesOf task = [] := by
    rintro todo again _ ⟨⟩
    rfl
  unfold GraphCalls.next
  dsimp only
  split
  next statement todo again _ =>
    exact h.shrinks (keys_exec_sublist statement s.graph) rfl (hmerging todo again)
  next => exact h.shrinks (List.Sublist.refl _) rfl (hmerging _ _)
  next => exact h.shrinks (List.Sublist.refl _) rfl fun _ hnone => absurd hnone (by simp)
  next => exact h

theorem KeepsCap.next (h : s.KeepsCap k) (he : AtOnce upper lower k s e) :
    (next upper lower s e).KeepsCap k := by
  cases e with
  | count data compacting ts => exact h.counts he
  | evict i order => exact h.evicts he
  | store i => exact h.stores i
  | relate i => exact h.relates i
  | merge now first => exact h.merges now first
  | goOn i second => exact h.goesOn i second
  | fail i => exact h.shrinks (List.Sublist.refl _) rfl fun _ hnone => absurd hnone (by simp)
  | delete name => exact h.prunes [name]
  | prune gone => exact h.prunes _

variable (upper lower)

/-- However the calls of a user overlap, the graph has only names that an extraction
accepts, and is over the cap by no more than the batches that the other
extractions may put in while one goes by its count. -/
theorem keeps_cap {g : EntityGraph (Option τ)} (hcap : g.nodes.length ≤ maxUserEntities)
    (hnames : ∀ name ∈ g.keys, Accepted name) {es : List (GraphEvent τ)}
    (h : Throughout (next upper lower) (AtOnce upper lower k) ⟨g, []⟩ es) :
    (run (next upper lower) ⟨g, []⟩ es).graph.nodes.length ≤
        maxUserEntities + maxEntitiesPerCall * (k - 1) ∧
      ∀ name ∈ (run (next upper lower) ⟨g, []⟩ es).graph.keys, Accepted name := by
  have hstart : KeepsCap k (⟨g, []⟩ : GraphCalls τ) := by
    refine ⟨hnames, fun _ htask => absurd htask List.not_mem_nil, ?_⟩
    rw [PropertyGraph.length_keys]
    exact hasRoom_nil hcap
  have hend := run_invariant (KeepsCap k) (fun s e hs he => hs.next he) hstart h
  refine ⟨?_, hend.accepted⟩
  rw [← PropertyGraph.length_keys]
  exact hend.room.le

/-- Two extractions count before either has put its entity in. -/
def bothCounted : List (GraphEvent Nat) :=
  [.count (oneEntity "kafka".toList) false 1, .count (oneEntity "redis".toList) false 2, .evict 1 [],
    .evict 1 [], .store 1, .store 1]

theorem keeps_cap_both :
    (run (next id id) ⟨noEntities, []⟩ bothCounted).graph.nodes.length ≤
        maxUserEntities + maxEntitiesPerCall * (2 - 1) ∧
      ∀ name ∈ (run (next id id) ⟨noEntities, []⟩ bothCounted).graph.keys, Accepted name := by
  have hnone : ∀ (s : GraphCalls Nat), s.graph.nodes = [] → ∀ i order,
      GraphEvent.evict 1 [] = .evict i order → order.Perm s.graph.nodes := by
    rintro s hs i order heq
    obtain ⟨_, rfl⟩ := GraphEvent.evict.inj heq
    rw [hs]
  refine keeps_cap id id (by decide) (by decide) ⟨⟨nofun, ?_⟩, ⟨nofun, ?_⟩, ⟨hnone _ ?_, ?_⟩,
    ⟨hnone _ ?_, ?_⟩, ⟨nofun, ?_⟩, ⟨nofun, ?_⟩, trivial⟩
  all_goals decide

/-! ## One call alone -/

/-- An extraction that nothing comes between. -/
theorem extraction_alone (g : EntityGraph (Option τ)) (data : Json) (compacting : Bool) (ts : τ)
    (order : List (EntityRow τ)) :
    run (next upper lower) ⟨g, []⟩ [.count data compacting ts, .evict 0 order, .store 0, .relate 0] =
      ⟨extractAndStore upper data compacting (some ts) order g, []⟩ := by
  simp only [run]
  unfold extractAndStore
  cases hextracted : extracted upper data with
  | error e => simp [next, hextracted]
  | ok found =>
    cases found with
    | none => simp [next, hextracted]
    | some batches =>
      obtain ⟨batch, rels⟩ := batches
      by_cases hskip : compacting ∨ batch = []
      · have hsame : (if compacting then g else
            (storeEntities (some ts) order batch g).mergeEdges (rels.map fun r => (r, some ts))) = g := by
          rcases hskip with hcompacting | hbatch
          · exact if_pos hcompacting
          · -- relations are between entities of the batch
            have hrels : rels = [] := by
              refine List.eq_nil_iff_forall_not_mem.mpr fun r hr => ?_
              have hsrc := ((batch_of_extracted hextracted).2 r hr).1
              rw [hbatch] at hsrc
              exact absurd hsrc List.not_mem_nil
            rw [hbatch, hrels]
            exact ite_self g
        simp [next, hextracted, hskip, hsame]
      · obtain ⟨hcompacting, hbatch⟩ := not_or.mp hskip
        simp [next, goes, hextracted, hcompacting, storeEntities, hbatch, evicted]

omit upper in
theorem exec_redirections (m : EntityMerge τ) (g : EntityGraph (Option τ)) :
    (redirections m).foldl GraphStatement.exec g = m.dups.foldl (PropertyGraph.mergeInto none m.keep) g := by
  unfold redirections
  induction m.dups generalizing g with
  | nil => rfl
  | cons dup dups ih =>
    rw [List.flatMap_cons, List.foldl_append, List.foldl_cons]
    exact ih (PropertyGraph.mergeInto none m.keep g dup)

theorem exec_firstPass (now : Text → τ) (rows : List (EntityRow τ)) (g : EntityGraph (Option τ)) :
    (firstPass lower now rows).foldl GraphStatement.exec g =
      g.applyMerges none (normMerges lower now rows) := by
  unfold firstPass PropertyGraph.applyMerges
  induction normMerges lower now rows generalizing g with
  | nil => rfl
  | cons m ms ih =>
    rw [List.flatMap_cons, List.foldl_append, List.foldl_cons, List.foldl_cons, exec_redirections]
    exact ih (PropertyGraph.applyMerge none g m)

theorem setNode_id (g : EntityGraph (Option τ)) (keep : Text) : g.setNode keep id = g := by
  have hnodes : modifyKey g.nodes keep id = g.nodes := by
    unfold modifyKey
    refine (List.map_congr_left fun e _ => ?_).trans (List.map_id _)
    exact ite_self e
  cases g
  unfold PropertyGraph.setNode
  simp only at hnodes ⊢
  congr

theorem exec_secondPass (rows : List (EntityRow τ)) (g : EntityGraph (Option τ)) :
    (secondPass lower rows).foldl GraphStatement.exec g = g.applyMerges none (typeMerges lower rows) := by
  have hset : ∀ m ∈ typeMerges lower rows, m.set = id := by
    intro m hm
    obtain ⟨group, _, hgroup⟩ := List.mem_filterMap.mp hm
    obtain ⟨_, _, _, rfl⟩ := of_typeMerge hgroup
    rfl
  unfold secondPass PropertyGraph.applyMerges
  generalize typeMerges lower rows = ms at hset ⊢
  induction ms generalizing g with
  | nil => rfl
  | cons m ms ih =>
    rw [List.flatMap_cons, List.foldl_append, List.foldl_cons, exec_redirections]
    have happly :
        PropertyGraph.applyMerge none g m = m.dups.foldl (PropertyGraph.mergeInto none m.keep) g := by
      unfold PropertyGraph.applyMerge
      rw [hset m List.mem_cons_self, setNode_id]
    rw [happly]
    exact ih _ fun m hm => hset m (List.mem_cons_of_mem _ hm)

/-- The statements that a merge has left are run one after the other. -/
theorem run_statements (todo : List (GraphStatement τ)) (again : Bool) (second : Scan τ)
    (g : EntityGraph (Option τ)) :
    run (next upper lower) ⟨g, [.merging todo again]⟩ (List.replicate todo.length (.goOn 0 second)) =
      ⟨todo.foldl GraphStatement.exec g, [.merging [] again]⟩ := by
  induction todo generalizing g with
  | nil => rfl
  | cons statement todo ih => exact ih (statement.exec g)

/-- A merge that nothing comes between. -/
theorem merge_alone (g : EntityGraph (Option τ)) (now : Text → τ) (first second : Scan τ) :
    ∃ n, run (next upper lower) ⟨g, []⟩ (.merge now first :: List.replicate n (.goOn 0 second)) =
      ⟨(mergeDuplicateEntities lower now first second g).1, []⟩ := by
  unfold mergeDuplicateEntities
  by_cases hrows : (first.rows g).isEmpty = true
  · refine ⟨0, ?_⟩
    simp [run, next, hrows]
  · let todo := firstPass lower now (first.rows g)
    let g' := g.applyMerges none (normMerges lower now (first.rows g))
    let todo' := secondPass lower (second.rows g')
    refine ⟨todo.length + (1 + (todo'.length + 1)), ?_⟩
    have hbegin : next upper lower ⟨g, []⟩ (.merge now first) = ⟨g, [.merging todo true]⟩ := by
      simp [next, hrows, todo]
    show run (next upper lower) (next upper lower ⟨g, []⟩ (.merge now first)) _ = _
    rw [hbegin, List.replicate_add, run_append, run_statements, exec_firstPass, List.replicate_add,
      run_append]
    show run (next upper lower) ⟨g', [.merging todo' false]⟩ _ = _
    rw [List.replicate_add, run_append, run_statements, exec_secondPass, if_neg hrows]
    rfl

end GraphCalls

end Eidetic.Graph
