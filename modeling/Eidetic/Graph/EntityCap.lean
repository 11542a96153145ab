import Eidetic.Lib.OrderBy
import Eidetic.Lib.PropertyGraph
import Eidetic.Py.Json
import Mathlib.Data.List.Dedup

/-!
# The cap on a user's entities

`extract_and_store` of the knowledge graph. As many of the oldest entities are
deleted as the batch is long beyond the cap, before the batch is merged. That is
one too many for every entity of the batch that is there already or is named
twice, and the oldest ones may be in the batch (`evictsOnlyExcess_iff`).

The batch is read from the answer of a model, so it is short, its names are
trimmed and its relations are between its entities (`batch_of_extracted`); names
may come twice. The overflow is computed from the count and the length of the
batch, before the merge. `length_evicted`, `mem_keys_storeEntities` and
`length_storeEntities` say what the store does for any graph, in terms of the
graph operations of the library.

`EvictsOnlyExcess` is what should be. Three of its parts hold in every case
(`present_of_store`): the cap, and that the batch and its relations are there.
The others need that as many are evicted as the union is beyond the cap, and a
name of the batch that is counted twice makes that one more
(`length_unionNames_eq_iff`). The graph type has the constraint on names as a
field.
-/

namespace Eidetic.Graph

open Eidetic.Lib Eidetic.Py

/-- `_MAX_ENTITY_NAME_LEN`. -/
def maxEntityNameLen : Nat := 200

/-- `_MAX_ENTITIES_PER_CALL`. -/
def maxEntitiesPerCall : Nat := 30

/-- `_MAX_RELS_PER_CALL`. -/
def maxRelsPerCall : Nat := 60

/-- `_MAX_USER_ENTITIES`. -/
def maxUserEntities : Nat := 500

/-! ## The batch -/

structure BatchEntity where
  name : Text
  type : Text
deriving DecidableEq

/-- A relation is merged by its ends and its type. -/
abbrev BatchRelation := EdgeKey Text Text

/-- `(value.get(key) or default).strip()`: what is no string has no `strip`. -/
def textField (value : Json) (key default : String) : Except Exc Text := do
  match orElse (← getAttr value key) (.str default.toList) with
  | .str s => return strip s
  | _ => throw .noAttribute

/-- An entity that is kept. -/
def entityOf (e : Json) : Except Exc (Option BatchEntity) := do
  let name ← textField e "name" ""
  if name.isEmpty ∨ maxEntityNameLen < name.length then return none
  return some { name := name, type := ← textField e "type" "OTHER" }

/-- `entity_batch`. -/
def entityBatch (entities : Json) : Except Exc (List BatchEntity) := do
  let found ← (← entities.iter).mapM entityOf
  return (found.filterMap id).take maxEntitiesPerCall

/-- A relation between entities of the batch. -/
def relationOf (upper : Text → Text) (validNames : List Text) (r : Json) :
    Except Exc (Option BatchRelation) := do
  let src ← textField r "from" ""
  if src ∉ validNames then return none
  let dst ← textField r "to" ""
  if dst ∉ validNames then return none
  let type ← textField r "type" "RELATED_TO"
  return some { src := src, dst := dst, label := (upper type).map fun c => if c = ' ' then '_' else c }

/-- `rel_batch`. -/
def relBatch (upper : Text → Text) (validNames : List Text) (relations : Json) :
    Except Exc (List BatchRelation) := do
  let found ← (← relations.iter).mapM (relationOf upper validNames)
  return (found.filterMap id).take maxRelsPerCall

/-- The batches of an answer; `none` without entities. -/
def extracted (upper : Text → Text) (data : Json) :
    Except Exc (Option (List BatchEntity × List BatchRelation)) := do
  let entities := (← getAttr data "entities").getD (.arr [])
  let relations := (← getAttr data "relations").getD (.arr [])
  if !entities.truthy then return none
  let batch ← entityBatch entities
  return some (batch, ← relBatch upper (batch.map BatchEntity.name) relations)

/-! ## The store -/

/-- The properties of an entity beside its name. -/
structure Entity (τ : Type*) where
  type : Option Text
  updatedAt : τ
deriving DecidableEq

/-- The entities of a user under their names, and the relations between them. -/
abbrev EntityGraph (τ : Type*) := PropertyGraph Text (Entity τ) Text τ

variable {τ : Type*}

/-- `SET n.type = CASE …, n.updated_at = $ts`. -/
def upsert (ts : τ) (e : BatchEntity) (old : Option (Entity τ)) : Entity τ where
  type := if e.type ≠ "OTHER".toList then some e.type else old.bind Entity.type
  updatedAt := ts

/-- `overflow`, zero when it is not positive. -/
def overflow (g : EntityGraph τ) (batch : List BatchEntity) : Nat :=
  g.nodes.length + batch.length - maxUserEntities

/-- `ORDER BY n.updated_at ASC LIMIT $n`, in an order that the query allows. -/
def evicted (order : List (Text × Entity τ)) (g : EntityGraph τ) (batch : List BatchEntity) :
    List Text :=
  (order.take (overflow g batch)).map Prod.fst

/-- The entities are evicted and merged. -/
def storeEntities (ts : τ) (order : List (Text × Entity τ)) (batch : List BatchEntity)
    (g : EntityGraph τ) : EntityGraph τ :=
  if batch.isEmpty then g
  else
    let g' := if 0 < overflow g batch then g.detachDelete (evicted order g batch) else g
    g'.mergeNodes (batch.map fun e => (e.name, upsert ts e))

/-- `extract_and_store`, from the answer of the model and whether a compaction
is running. What raises is caught before anything is stored. -/
def extractAndStore (upper : Text → Text) (data : Json) (compacting : Bool) (ts : τ)
    (order : List (Text × Entity τ)) (g : EntityGraph τ) : EntityGraph τ :=
  match extracted upper data with
  | .ok (some (batch, rels)) =>
    if compacting then g
    else (storeEntities ts order batch g).mergeEdges (rels.map fun r => (r, ts))
  | .ok none | .error _ => g

/-! ## What a batch has -/

theorem ok_of_mapM {α β ε : Type} {f : α → Except ε β} {xs : List α} {ys : List β}
    (h : xs.mapM f = .ok ys) : ∀ y ∈ ys, ∃ x ∈ xs, f x = .ok y := by
  induction xs generalizing ys with
  | nil =>
    obtain rfl : [] = ys := Except.ok.inj h
    exact fun y hy => absurd hy List.not_mem_nil
  | cons x xs ih =>
    rw [List.mapM_cons] at h
    cases hx : f x with
    | error e => rw [hx] at h; exact absurd h (by simp [bind, Except.bind])
    | ok z =>
      cases hxs : xs.mapM f with
      | error e => rw [hx, hxs] at h; exact absurd h (by simp [bind, Except.bind])
      | ok zs =>
        rw [hx, hxs] at h
        obtain rfl : z :: zs = ys := Except.ok.inj h
        intro y hy
        rcases List.mem_cons.mp hy with rfl | hy
        · exact ⟨x, List.mem_cons_self, hx⟩
        · obtain ⟨x', hx', hfx'⟩ := ih hxs y hy
          exact ⟨x', List.mem_cons_of_mem _ hx', hfx'⟩

theorem bind_eq_ok {α β ε : Type} {x : Except ε α} {f : α → Except ε β} {b : β}
    (h : x >>= f = .ok b) : ∃ a, x = .ok a ∧ f a = .ok b := by
  cases x with
  | error e => exact absurd h (by simp [bind, Except.bind])
  | ok a => exact ⟨a, rfl, h⟩

/-- A relation that is kept has its ends in the batch. -/
theorem ends_of_relationOf {upper : Text → Text} {validNames : List Text} {r : Json}
    {rel : BatchRelation} (h : relationOf upper validNames r = .ok (some rel)) :
    rel.src ∈ validNames ∧ rel.dst ∈ validNames := by
  obtain ⟨src, -, h⟩ := bind_eq_ok h
  by_cases hsrc : src ∈ validNames
  · rw [if_neg (not_not.mpr hsrc)] at h
    obtain ⟨dst, -, h⟩ := bind_eq_ok h
    by_cases hdst : dst ∈ validNames
    · rw [if_neg (not_not.mpr hdst)] at h
      obtain ⟨type, -, h⟩ := bind_eq_ok h
      obtain rfl := Option.some.inj (Except.ok.inj h)
      exact ⟨hsrc, hdst⟩
    · rw [if_pos hdst] at h
      exact absurd (Except.ok.inj h) (by simp)
  · rw [if_pos hsrc] at h
    exact absurd (Except.ok.inj h) (by simp)

theorem ends_of_relBatch {upper : Text → Text} {validNames : List Text} {relations : Json}
    {rels : List BatchRelation} (h : relBatch upper validNames relations = .ok rels) :
    ∀ r ∈ rels, r.src ∈ validNames ∧ r.dst ∈ validNames := by
  obtain ⟨items, -, h⟩ := bind_eq_ok h
  obtain ⟨found, hfound, h⟩ := bind_eq_ok h
  obtain rfl := Except.ok.inj h
  intro r hr
  obtain ⟨o, ho, rfl⟩ := List.mem_filterMap.mp (List.mem_of_mem_take hr)
  obtain ⟨x, -, hx⟩ := ok_of_mapM hfound _ ho
  exact ends_of_relationOf hx

theorem length_entityBatch {entities : Json} {batch : List BatchEntity}
    (h : entityBatch entities = .ok batch) : batch.length ≤ maxEntitiesPerCall := by
  obtain ⟨items, -, h⟩ := bind_eq_ok h
  obtain ⟨found, -, h⟩ := bind_eq_ok h
  obtain rfl := Except.ok.inj h
  exact List.length_take_le _ _

/-- The batches of an answer: not too many entities, and relations between them. -/
theorem batch_of_extracted {upper : Text → Text} {data : Json} {batch : List BatchEntity}
    {rels : List BatchRelation} (h : extracted upper data = .ok (some (batch, rels))) :
    batch.length ≤ maxEntitiesPerCall ∧
      ∀ r ∈ rels, r.src ∈ batch.map BatchEntity.name ∧ r.dst ∈ batch.map BatchEntity.name := by
  obtain ⟨entities, -, h⟩ := bind_eq_ok h
  obtain ⟨relations, -, h⟩ := bind_eq_ok h
  split at h
  next => exact absurd (Except.ok.inj h) (by simp)
  next =>
    obtain ⟨batch', hbatch, h⟩ := bind_eq_ok h
    obtain ⟨rels', hrels, h⟩ := bind_eq_ok h
    obtain ⟨rfl, rfl⟩ := Prod.mk.inj (Option.some.inj (Except.ok.inj h))
    exact ⟨length_entityBatch hbatch, ends_of_relBatch hrels⟩

/-! ## What is evicted and what stays -/

variable {ts : τ} {g : EntityGraph τ} {order : List (Text × Entity τ)} {batch : List BatchEntity}
  {rels : List BatchRelation}

/-- The order of the query has the keys of the graph. -/
theorem perm_keys [LE τ] (horder : Orders (fun n : Text × Entity τ => n.2.updatedAt) g.nodes order) :
    (order.map Prod.fst).Perm g.keys :=
  horder.perm.map Prod.fst

theorem evicted_sublist : (evicted order g batch).Sublist (order.map Prod.fst) :=
  (List.take_sublist _ _).map _

theorem evicted_eq_nil (h : overflow g batch = 0) : evicted order g batch = [] := by
  rw [evicted, h, List.take_zero, List.map_nil]

/-- As many are evicted as the graph and the batch are beyond the cap. -/
theorem length_evicted [LE τ]
    (horder : Orders (fun n : Text × Entity τ => n.2.updatedAt) g.nodes order)
    (hbatch : batch.length ≤ maxEntitiesPerCall) :
    (evicted order g batch).length = overflow g batch := by
  have hlength := horder.perm.length_eq
  have hle : maxEntitiesPerCall ≤ maxUserEntities := by decide
  rw [evicted, List.length_map, List.length_take, overflow]
  omega

/-- The entities after a batch: those that are not evicted, and those of the batch. -/
theorem mem_keys_storeEntities {k : Text} :
    k ∈ (storeEntities ts order batch g).keys ↔
      k ∈ g.keys ∧ (batch = [] ∨ k ∉ evicted order g batch) ∨ k ∈ batch.map BatchEntity.name := by
  unfold storeEntities
  by_cases hbatch : batch = []
  · rw [if_pos (by simp [hbatch])]
    simp [hbatch]
  · rw [if_neg (by simpa using hbatch), PropertyGraph.mem_keys_mergeNodes, List.map_map]
    refine or_congr ?_ Iff.rfl
    split
    next => rw [PropertyGraph.mem_keys_detachDelete]; simp [hbatch]
    next hnone => rw [evicted_eq_nil (Nat.le_zero.mp (not_lt.mp hnone))]; simp

/-- The relations between entities that are not evicted stay. -/
theorem mem_edgeKeys_storeEntities {e : BatchRelation} (he : e ∈ g.edgeKeys)
    (hsrc : e.src ∉ evicted order g batch) (hdst : e.dst ∉ evicted order g batch) :
    e ∈ (storeEntities ts order batch g).edgeKeys := by
  unfold storeEntities
  split
  next => exact he
  next =>
    rw [PropertyGraph.edgeKeys_mergeNodes]
    split
    next => exact PropertyGraph.mem_edgeKeys_detachDelete.mpr ⟨he, hsrc, hdst⟩
    next => exact he

/-- The cap holds after the batch, since each entity of it may be a new one. -/
theorem length_storeEntities [LE τ]
    (horder : Orders (fun n : Text × Entity τ => n.2.updatedAt) g.nodes order)
    (hcap : g.nodes.length ≤ maxUserEntities) (hbatch : batch.length ≤ maxEntitiesPerCall) :
    (storeEntities ts order batch g).keys.length ≤ maxUserEntities := by
  have hkeys := perm_keys horder
  have hevicted := length_evicted horder hbatch
  have hnodes := g.length_keys
  unfold storeEntities
  split
  next => rwa [hnodes]
  next =>
    refine le_trans (PropertyGraph.length_mergeNodes_le _ _) ?_
    rw [List.length_map]
    split
    next hpos =>
      have hsub : (evicted order g batch).Sublist (order.map Prod.fst) := evicted_sublist
      have hdeleted := PropertyGraph.length_detachDelete
        ((hkeys.nodup_iff.mpr g.nodup_keys).sublist hsub) fun k hk => hkeys.subset (hsub.subset hk)
      rw [overflow] at hevicted hpos
      omega
    next hnone =>
      rw [overflow] at hnone
      omega

/-! ## Evicting what is beyond the cap -/

/-- The names of the graph and of the batch. -/
def unionNames (g : EntityGraph τ) (batch : List BatchEntity) : List Text :=
  (g.keys ++ batch.map BatchEntity.name).dedup

/-- What a graph is to be after a batch, and what is to be evicted from it. -/
structure EvictsOnlyExcess (g g' : EntityGraph τ) (gone : List Text) (batch : List BatchEntity)
    (rels : List BatchRelation) : Prop where
  capped : g'.nodes.length ≤ maxUserEntities
  present : ∀ e ∈ batch, e.name ∈ g'.keys
  related : ∀ r ∈ rels, r ∈ g'.edgeKeys
  excess : gone.length = (unionNames g batch).length - maxUserEntities
  spared : ∀ e ∈ batch, e.name ∉ gone
  /-- An entity of the batch keeps its relations. -/
  kept : ∀ r ∈ g.edgeKeys,
    r.src ∈ batch.map BatchEntity.name ∨ r.dst ∈ batch.map BatchEntity.name → r ∈ g'.edgeKeys
  /-- Nothing else goes. -/
  survives : ∀ k ∈ g.keys, k ∉ gone → k ∈ g'.keys

theorem length_unionNames_le (g : EntityGraph τ) (batch : List BatchEntity) :
    (unionNames g batch).length ≤ g.nodes.length + batch.length := by
  have hle := (List.dedup_sublist (g.keys ++ batch.map BatchEntity.name)).length_le
  rwa [List.length_append, List.length_map, g.length_keys] at hle

/-- No name is counted twice when those of the batch differ and are new. -/
theorem length_unionNames_eq_iff : (unionNames g batch).length = g.nodes.length + batch.length ↔
    (batch.map BatchEntity.name).Nodup ∧ ∀ e ∈ batch, e.name ∉ g.keys := by
  have hall : g.nodes.length + batch.length = (g.keys ++ batch.map BatchEntity.name).length := by
    rw [List.length_append, List.length_map, g.length_keys]
  have hnodup : (unionNames g batch).length = (g.keys ++ batch.map BatchEntity.name).length ↔
      (g.keys ++ batch.map BatchEntity.name).Nodup := by
    rw [← List.dedup_eq_self]
    exact ⟨fun h => (List.dedup_sublist _).eq_of_length h, fun h => congrArg List.length h⟩
  rw [hall, hnodup, List.nodup_append]
  constructor
  · intro ⟨_, hbatch, hcross⟩
    exact ⟨hbatch, fun e he hmem => hcross _ hmem _ (List.mem_map_of_mem he) rfl⟩
  · intro ⟨hbatch, hnew⟩
    refine ⟨g.nodup_keys, hbatch, fun k hk k' hk' heq => ?_⟩
    obtain ⟨e, he, rfl⟩ := List.mem_map.mp hk'
    exact hnew e he (heq ▸ hk)

/-- What holds in every case: the cap, the batch and the relations of the batch. -/
theorem present_of_store [LE τ] (ts : τ)
    (horder : Orders (fun n : Text × Entity τ => n.2.updatedAt) g.nodes order)
    (hcap : g.nodes.length ≤ maxUserEntities) (hbatch : batch.length ≤ maxEntitiesPerCall)
    (hends : ∀ r ∈ rels, r.src ∈ batch.map BatchEntity.name ∧ r.dst ∈ batch.map BatchEntity.name) :
    let g' := (storeEntities ts order batch g).mergeEdges (rels.map fun r => (r, ts))
    g'.nodes.length ≤ maxUserEntities ∧ (∀ e ∈ batch, e.name ∈ g'.keys) ∧ ∀ r ∈ rels, r ∈ g'.edgeKeys := by
  intro g'
  have hkeys : g'.keys = (storeEntities ts order batch g).keys := PropertyGraph.keys_mergeEdges _ _
  have hnames : ∀ k ∈ batch.map BatchEntity.name, k ∈ (storeEntities ts order batch g).keys :=
    fun k hk => mem_keys_storeEntities.mpr (Or.inr hk)
  refine ⟨?_, fun e he => hkeys ▸ hnames _ (List.mem_map_of_mem he), fun r hr => ?_⟩
  · rw [← g'.length_keys, hkeys]
    exact length_storeEntities horder hcap hbatch
  · refine PropertyGraph.mem_edgeKeys_mergeEdges.mpr (Or.inr ⟨?_, ?_⟩)
    · exact List.mem_map.mpr ⟨(r, ts), List.mem_map_of_mem hr, rfl⟩
    · exact ⟨hnames _ (hends r hr).1, hnames _ (hends r hr).2⟩

/-- Only the excess is evicted, and nothing of the batch, exactly when nothing has
to be evicted or the batch has new and different names only. -/
theorem evictsOnlyExcess_iff [LE τ] {upper : Text → Text} {data : Json}
    (hdata : extracted upper data = .ok (some (batch, rels)))
    (horder : Orders (fun n : Text × Entity τ => n.2.updatedAt) g.nodes order)
    (hcap : g.nodes.length ≤ maxUserEntities) (ts : τ) :
    EvictsOnlyExcess g (extractAndStore upper data false ts order g) (evicted order g batch) batch
        rels ↔
      g.nodes.length + batch.length ≤ maxUserEntities ∨
        (batch.map BatchEntity.name).Nodup ∧ ∀ e ∈ batch, e.name ∉ g.keys := by
  obtain ⟨hbatch, hends⟩ := batch_of_extracted hdata
  have hevicted := length_evicted horder hbatch
  have hunion := length_unionNames_le g batch
  have hrun : extractAndStore upper data false ts order g
      = (storeEntities ts order batch g).mergeEdges (rels.map fun r => (r, ts)) := by
    rw [extractAndStore, hdata]
    rfl
  rw [hrun, ← length_unionNames_eq_iff]
  constructor
  · intro h
    have hexcess := h.excess
    rw [hevicted, overflow] at hexcess
    omega
  · intro h
    obtain ⟨hcapped, hpresent, hrelated⟩ := present_of_store ts horder hcap hbatch hends
    have hgone : evicted order g batch = [] ∨ ∀ e ∈ batch, e.name ∉ g.keys := by
      rcases h with hroom | hnew
      · exact Or.inl (evicted_eq_nil (by rw [overflow]; omega))
      · exact Or.inr (length_unionNames_eq_iff.mp hnew).2
    refine ⟨hcapped, hpresent, hrelated, ?_, fun e he hmem => ?_, fun r hr hbatched => ?_,
      fun k hk hstays => ?_⟩
    · rw [hevicted, overflow]
      omega
    · rcases hgone with hnil | hnew
      · rw [hnil] at hmem
        exact absurd hmem List.not_mem_nil
      · exact hnew e he ((perm_keys horder).subset (evicted_sublist.subset hmem))
    · rcases hgone with hnil | hnew
      · refine PropertyGraph.mem_edgeKeys_mergeEdges.mpr (Or.inl ?_)
        exact mem_edgeKeys_storeEntities hr (by simp [hnil]) (by simp [hnil])
      · -- a new entity has no relations
        obtain ⟨hsrc, hdst⟩ := PropertyGraph.ends_of_mem hr
        rcases hbatched with hmem | hmem
        · obtain ⟨e, he, heq⟩ := List.mem_map.mp hmem
          exact absurd (heq ▸ hsrc) (hnew e he)
        · obtain ⟨e, he, heq⟩ := List.mem_map.mp hmem
          exact absurd (heq ▸ hdst) (hnew e he)
    · rw [PropertyGraph.keys_mergeEdges]
      exact mem_keys_storeEntities.mpr (Or.inl ⟨hk, Or.inr hstays⟩)

/-- An answer with one entity and a relation from it to itself. -/
def oneEntity (name : Text) : Json :=
  .obj [("entities".toList, .arr [.obj [("name".toList, .str name)]]),
    ("relations".toList, .arr [.obj [("from".toList, .str name), ("to".toList, .str name)]])]

/-- Five hundred names. -/
def entityName (i : Nat) : Text := List.replicate (i + 1) 'e'

theorem entityName_injective : Function.Injective entityName := by
  intro i j h
  have hlength := congrArg List.length h
  simpa [entityName] using hlength

/-- A graph at the cap, the oldest entity of which has a relation. -/
def fullGraph : EntityGraph Nat where
  nodes := (List.range 500).map fun i => (entityName i, { type := none, updatedAt := i })
  edges := [(⟨entityName 0, entityName 1, "USES".toList⟩, 0)]
  unique := by
    rw [List.map_map]
    exact List.nodup_range.map entityName_injective
  ends := by
    intro e he
    rw [List.mem_singleton.mp he, List.map_map]
    exact ⟨List.mem_map.mpr ⟨0, by simp, rfl⟩, List.mem_map.mpr ⟨1, by simp, rfl⟩⟩

theorem fullGraph_length : fullGraph.nodes.length = maxUserEntities := by
  rw [fullGraph, List.length_map, List.length_range]
  rfl

theorem fullGraph_orders :
    Orders (fun n : Text × Entity Nat => n.2.updatedAt) fullGraph.nodes fullGraph.nodes := by
  refine ⟨List.Perm.refl _, ?_⟩
  rw [fullGraph, List.pairwise_map]
  exact List.pairwise_lt_range.imp fun hlt => Nat.le_of_lt hlt

/-- A new entity takes the place of the oldest one. -/
theorem fullGraph_evicts :
    EvictsOnlyExcess fullGraph
      (extractAndStore id (oneEntity "go".toList) false 500 fullGraph.nodes fullGraph)
      (evicted fullGraph.nodes fullGraph [⟨"go".toList, "OTHER".toList⟩])
      [⟨"go".toList, "OTHER".toList⟩] [⟨"go".toList, "go".toList, "RELATED_TO".toList⟩] := by
  -- the names that are there have no letter but one
  have hnames : ∀ is : List Nat, "go".toList ∉ is.map entityName := by
    intro is hmem
    obtain ⟨i, -, hgo⟩ := List.mem_map.mp hmem
    have hg : 'g' ∈ entityName i := by
      rw [hgo]
      decide
    exact absurd (List.eq_of_mem_replicate hg) (by decide)
  have hkeys : fullGraph.keys = (List.range 500).map entityName := by
    rw [PropertyGraph.keys, fullGraph, List.map_map]
    exact congrArg (fun f => (List.range 500).map f) rfl
  have hnew : "go".toList ∉ fullGraph.keys := hkeys ▸ hnames _
  have hdata : extracted id (oneEntity "go".toList) = .ok (some ([⟨"go".toList, "OTHER".toList⟩],
      [⟨"go".toList, "go".toList, "RELATED_TO".toList⟩])) := rfl
  refine (evictsOnlyExcess_iff hdata fullGraph_orders fullGraph_length.le 500).mpr ?_
  refine .inr ⟨List.nodup_singleton _, fun e he => ?_⟩
  rw [List.mem_singleton.mp he]
  exact hnew

/-- The oldest entity is named again: it is evicted, although nothing is beyond
the cap. -/
theorem fullGraph_loses :
    extracted id (oneEntity (entityName 0)) = .ok (some ([⟨entityName 0, "OTHER".toList⟩],
        [⟨entityName 0, entityName 0, "RELATED_TO".toList⟩])) ∧
      Orders (fun n : Text × Entity Nat => n.2.updatedAt) fullGraph.nodes fullGraph.nodes ∧
      fullGraph.nodes.length ≤ maxUserEntities ∧
      ¬ EvictsOnlyExcess fullGraph
        (extractAndStore id (oneEntity (entityName 0)) false 500 fullGraph.nodes fullGraph)
        (evicted fullGraph.nodes fullGraph [⟨entityName 0, "OTHER".toList⟩])
        [⟨entityName 0, "OTHER".toList⟩] [⟨entityName 0, entityName 0, "RELATED_TO".toList⟩] := by
  refine ⟨rfl, fullGraph_orders, fullGraph_length.le, fun h => ?_⟩
  have hspared := h.spared ⟨entityName 0, "OTHER".toList⟩ (by simp)
  have hgone : entityName 0 ∈ evicted fullGraph.nodes fullGraph [⟨entityName 0, "OTHER".toList⟩] := by
    rw [evicted, overflow, fullGraph_length, fullGraph, ← List.map_take, List.range_eq_range']
    decide
  exact hspared hgone

end Eidetic.Graph
