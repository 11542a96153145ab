import Eidetic.Lib.Dict

/-!
# Graphs with properties

Nodes under keys that are unique, and edges between nodes that are there. A node
or an edge is merged: it is made when it is not there, and then its properties
are set. A node is deleted with its edges, and what is not deleted stays.

The two constraints are fields of a graph: the keys of the nodes are different,
and the ends of an edge are there. Each statement comes with what it does to the
keys, to the number of nodes and to the edges.
-/

namespace Eidetic.Lib

/-- What an edge is merged by. -/
structure EdgeKey (κ ℓ : Type*) where
  src : κ
  dst : κ
  label : ℓ
deriving DecidableEq

structure PropertyGraph (κ ν ℓ ε : Type*) where
  nodes : List (κ × ν)
  edges : List (EdgeKey κ ℓ × ε)
  unique : (nodes.map Prod.fst).Nodup
  ends : ∀ e ∈ edges, e.1.src ∈ nodes.map Prod.fst ∧ e.1.dst ∈ nodes.map Prod.fst

namespace PropertyGraph

variable {κ ν ℓ ε : Type*}

/-- The keys of the nodes. -/
def keys (g : PropertyGraph κ ν ℓ ε) : List κ := g.nodes.map Prod.fst

/-- The keys of the edges. -/
def edgeKeys (g : PropertyGraph κ ν ℓ ε) : List (EdgeKey κ ℓ) := g.edges.map Prod.fst

theorem nodup_keys (g : PropertyGraph κ ν ℓ ε) : g.keys.Nodup := g.unique

theorem length_keys (g : PropertyGraph κ ν ℓ ε) : g.keys.length = g.nodes.length :=
  List.length_map ..

theorem ends_of_mem {g : PropertyGraph κ ν ℓ ε} {e : EdgeKey κ ℓ} (he : e ∈ g.edgeKeys) :
    e.src ∈ g.keys ∧ e.dst ∈ g.keys := by
  obtain ⟨edge, hedge, rfl⟩ := List.mem_map.mp he
  exact g.ends edge hedge

variable [DecidableEq κ]

/-- `MERGE (n {key: k}) SET n = …`. -/
def mergeNode (g : PropertyGraph κ ν ℓ ε) (k : κ) (set : Option ν → ν) : PropertyGraph κ ν ℓ ε where
  nodes := putItem g.nodes k (set (g.nodes.lookup k))
  edges := g.edges
  unique := nodup_keys_putItem g.unique k _
  ends e he := by
    obtain ⟨hsrc, hdst⟩ := g.ends e he
    exact ⟨mem_keys_putItem.mpr (Or.inl hsrc), mem_keys_putItem.mpr (Or.inl hdst)⟩

/-- `DETACH DELETE` of the nodes under some keys. -/
def detachDelete (g : PropertyGraph κ ν ℓ ε) (ks : List κ) : PropertyGraph κ ν ℓ ε where
  nodes := g.nodes.filter fun n => n.1 ∉ ks
  edges := g.edges.filter fun e => e.1.src ∉ ks ∧ e.1.dst ∉ ks
  unique := g.unique.sublist (List.filter_sublist.map _)
  ends e he := by
    obtain ⟨he, hkept⟩ := List.mem_filter.mp he
    obtain ⟨hsrc, hdst⟩ := g.ends e he
    obtain ⟨hsrc', hdst'⟩ := of_decide_eq_true hkept
    have hmem : ∀ k ∈ g.nodes.map Prod.fst, k ∉ ks →
        k ∈ (g.nodes.filter fun n => n.1 ∉ ks).map Prod.fst := by
      intro k hk hnot
      obtain ⟨n, hn, rfl⟩ := List.mem_map.mp hk
      exact List.mem_map_of_mem (List.mem_filter.mpr ⟨hn, decide_eq_true hnot⟩)
    exact ⟨hmem _ hsrc hsrc', hmem _ hdst hdst'⟩

/-! ## Nodes -/

theorem mem_keys_mergeNode {g : PropertyGraph κ ν ℓ ε} {k k' : κ} {set : Option ν → ν} :
    k' ∈ (g.mergeNode k set).keys ↔ k' ∈ g.keys ∨ k' = k :=
  mem_keys_putItem

theorem length_mergeNode_le (g : PropertyGraph κ ν ℓ ε) (k : κ) (set : Option ν → ν) :
    (g.mergeNode k set).keys.length ≤ g.keys.length + 1 := by
  show ((putItem g.nodes k _).map Prod.fst).length ≤ _
  rw [keys_putItem]
  split
  next => exact Nat.le_succ _
  next => rw [List.length_append, List.length_singleton]; exact Nat.le_refl _

/-- Nodes merged one after the other. -/
def mergeNodes (g : PropertyGraph κ ν ℓ ε) (ps : List (κ × (Option ν → ν))) : PropertyGraph κ ν ℓ ε :=
  ps.foldl (fun g p => g.mergeNode p.1 p.2) g

theorem mem_keys_mergeNodes {g : PropertyGraph κ ν ℓ ε} {ps : List (κ × (Option ν → ν))} {k : κ} :
    k ∈ (g.mergeNodes ps).keys ↔ k ∈ g.keys ∨ k ∈ ps.map Prod.fst := by
  induction ps generalizing g with
  | nil => simp [mergeNodes]
  | cons p ps ih =>
    show k ∈ ((g.mergeNode p.1 p.2).mergeNodes ps).keys ↔ _
    rw [ih, mem_keys_mergeNode, List.map_cons, List.mem_cons, or_assoc]

theorem length_mergeNodes_le (g : PropertyGraph κ ν ℓ ε) (ps : List (κ × (Option ν → ν))) :
    (g.mergeNodes ps).keys.length ≤ g.keys.length + ps.length := by
  induction ps generalizing g with
  | nil => exact Nat.le_refl _
  | cons p ps ih =>
    have hstep := length_mergeNode_le g p.1 p.2
    have hrest := ih (g.mergeNode p.1 p.2)
    show ((g.mergeNode p.1 p.2).mergeNodes ps).keys.length ≤ _
    rw [List.length_cons]
    omega

theorem edgeKeys_mergeNodes (g : PropertyGraph κ ν ℓ ε) (ps : List (κ × (Option ν → ν))) :
    (g.mergeNodes ps).edgeKeys = g.edgeKeys := by
  induction ps generalizing g with
  | nil => rfl
  | cons p ps ih => exact ih (g.mergeNode p.1 p.2)

/-- A node that is there stays, and what is set of it depends on what it was. -/
theorem mem_nodes_mergeNode {g : PropertyGraph κ ν ℓ ε} {k k' : κ} {v : ν} {set : Option ν → ν}
    (h : (k, v) ∈ g.nodes) : (k, if k = k' then set (some v) else v) ∈ (g.mergeNode k' set).nodes := by
  show _ ∈ putItem g.nodes k' (set (g.nodes.lookup k'))
  refine mem_of_lookup ?_
  rw [lookup_putItem, lookup_of_mem g.unique h]
  split
  next hk => rw [← hk, lookup_of_mem g.unique h]
  next => rfl

/-- What holds of a node, and of what is set of a node of which it holds, holds
after nodes have been merged. -/
theorem exists_node_mergeNodes {P : ν → Prop} {ps : List (κ × (Option ν → ν))}
    (hset : ∀ p ∈ ps, ∀ v, P v → P (p.2 (some v))) {g : PropertyGraph κ ν ℓ ε} {k : κ}
    (h : ∃ v, (k, v) ∈ g.nodes ∧ P v) : ∃ v, (k, v) ∈ (g.mergeNodes ps).nodes ∧ P v := by
  induction ps generalizing g with
  | nil => exact h
  | cons p ps ih =>
    obtain ⟨v, hv, hP⟩ := h
    refine ih (fun q hq => hset q (List.mem_cons_of_mem _ hq)) ⟨_, mem_nodes_mergeNode hv, ?_⟩
    split
    next => exact hset p List.mem_cons_self v hP
    next => exact hP

theorem mem_nodes_detachDelete {g : PropertyGraph κ ν ℓ ε} {ks : List κ} {n : κ × ν} :
    n ∈ (g.detachDelete ks).nodes ↔ n ∈ g.nodes ∧ n.1 ∉ ks := by
  show n ∈ g.nodes.filter (fun n => n.1 ∉ ks) ↔ _
  rw [List.mem_filter, decide_eq_true_eq]

theorem keys_detachDelete (g : PropertyGraph κ ν ℓ ε) (ks : List κ) :
    (g.detachDelete ks).keys = g.keys.filter fun k => k ∉ ks := by
  rw [keys, keys, List.filter_map]
  rfl

theorem mem_keys_detachDelete {g : PropertyGraph κ ν ℓ ε} {ks : List κ} {k : κ} :
    k ∈ (g.detachDelete ks).keys ↔ k ∈ g.keys ∧ k ∉ ks := by
  rw [keys_detachDelete, List.mem_filter, decide_eq_true_eq]

/-- Taking out what is there leaves that many fewer. -/
theorem length_filter_not_mem {xs ks : List κ} (hxs : xs.Nodup) (hks : ks.Nodup)
    (hsub : ∀ k ∈ ks, k ∈ xs) : (xs.filter fun k => k ∉ ks).length + ks.length = xs.length := by
  have hperm : (xs.filter fun k => k ∈ ks).Perm ks := by
    rw [List.perm_ext_iff_of_nodup (hxs.filter _) hks]
    intro k
    rw [List.mem_filter, decide_eq_true_eq]
    exact and_iff_right_of_imp (hsub k)
  have hsplit := List.length_eq_length_filter_add (l := xs) fun k => decide (k ∈ ks)
  rw [hperm.length_eq] at hsplit
  simp only [decide_not]
  omega

/-- Deleting nodes that are there leaves that many fewer. -/
theorem length_detachDelete {g : PropertyGraph κ ν ℓ ε} {ks : List κ} (hnodup : ks.Nodup)
    (hks : ∀ k ∈ ks, k ∈ g.keys) : (g.detachDelete ks).keys.length + ks.length = g.keys.length := by
  rw [keys_detachDelete]
  exact length_filter_not_mem g.nodup_keys hnodup hks

/-! ## Edges -/

theorem mem_edgeKeys_detachDelete {g : PropertyGraph κ ν ℓ ε} {ks : List κ} {e : EdgeKey κ ℓ} :
    e ∈ (g.detachDelete ks).edgeKeys ↔ e ∈ g.edgeKeys ∧ e.src ∉ ks ∧ e.dst ∉ ks := by
  have hkeys : (g.detachDelete ks).edgeKeys = g.edgeKeys.filter fun e => e.src ∉ ks ∧ e.dst ∉ ks := by
    rw [edgeKeys, edgeKeys, List.filter_map]
    rfl
  rw [hkeys, List.mem_filter, decide_eq_true_eq]

variable [DecidableEq ℓ]

/-- `MATCH (a), (b) MERGE (a)-[e]->(b) SET e = …`: nothing is matched without both ends. -/
def mergeEdge (g : PropertyGraph κ ν ℓ ε) (key : EdgeKey κ ℓ) (value : ε) : PropertyGraph κ ν ℓ ε :=
  if h : key.src ∈ g.nodes.map Prod.fst ∧ key.dst ∈ g.nodes.map Prod.fst then
    { nodes := g.nodes
      edges := putItem g.edges key value
      unique := g.unique
      ends := fun e he => by
        rcases mem_keys_putItem.mp (List.mem_map_of_mem (f := Prod.fst) he) with hold | hnew
        · exact ends_of_mem hold
        · rw [hnew]
          exact h }
  else g

/-- Edges merged one after the other. -/
def mergeEdges (g : PropertyGraph κ ν ℓ ε) (ps : List (EdgeKey κ ℓ × ε)) : PropertyGraph κ ν ℓ ε :=
  ps.foldl (fun g p => g.mergeEdge p.1 p.2) g

theorem nodes_mergeEdge (g : PropertyGraph κ ν ℓ ε) (key : EdgeKey κ ℓ) (value : ε) :
    (g.mergeEdge key value).nodes = g.nodes := by
  unfold mergeEdge
  split
  next => rfl
  next => rfl

theorem keys_mergeEdge (g : PropertyGraph κ ν ℓ ε) (key : EdgeKey κ ℓ) (value : ε) :
    (g.mergeEdge key value).keys = g.keys := by
  rw [keys, nodes_mergeEdge, keys]

theorem mem_edgeKeys_mergeEdge {g : PropertyGraph κ ν ℓ ε} {key e : EdgeKey κ ℓ} {value : ε} :
    e ∈ (g.mergeEdge key value).edgeKeys ↔
      e ∈ g.edgeKeys ∨ e = key ∧ key.src ∈ g.keys ∧ key.dst ∈ g.keys := by
  unfold mergeEdge
  split
  next h =>
    show e ∈ (putItem g.edges key value).map Prod.fst ↔ _
    rw [mem_keys_putItem]
    exact or_congr_right (and_iff_left h).symm
  next h => exact (or_iff_left fun hboth => h hboth.2).symm

theorem nodes_mergeEdges (g : PropertyGraph κ ν ℓ ε) (ps : List (EdgeKey κ ℓ × ε)) :
    (g.mergeEdges ps).nodes = g.nodes := by
  induction ps generalizing g with
  | nil => rfl
  | cons p ps ih => exact (ih (g.mergeEdge p.1 p.2)).trans (nodes_mergeEdge g p.1 p.2)

theorem keys_mergeEdges (g : PropertyGraph κ ν ℓ ε) (ps : List (EdgeKey κ ℓ × ε)) :
    (g.mergeEdges ps).keys = g.keys := by
  rw [keys, nodes_mergeEdges, keys]

/-- The edges that were there stay, and those with both ends are there. -/
theorem mem_edgeKeys_mergeEdges {g : PropertyGraph κ ν ℓ ε} {ps : List (EdgeKey κ ℓ × ε)}
    {e : EdgeKey κ ℓ} :
    e ∈ (g.mergeEdges ps).edgeKeys ↔
      e ∈ g.edgeKeys ∨ e ∈ ps.map Prod.fst ∧ e.src ∈ g.keys ∧ e.dst ∈ g.keys := by
  induction ps generalizing g with
  | nil => simp [mergeEdges]
  | cons p ps ih =>
    show e ∈ ((g.mergeEdge p.1 p.2).mergeEdges ps).edgeKeys ↔ _
    rw [ih, mem_edgeKeys_mergeEdge, keys_mergeEdge, List.map_cons, List.mem_cons, or_assoc]
    refine or_congr_right ?_
    constructor
    · intro h
      rcases h with ⟨rfl, hends⟩ | ⟨hmem, hends⟩
      · exact ⟨Or.inl rfl, hends⟩
      · exact ⟨Or.inr hmem, hends⟩
    · intro ⟨hmem, hends⟩
      rcases hmem with rfl | hmem
      · exact Or.inl ⟨rfl, hends⟩
      · exact Or.inr ⟨hmem, hends⟩

end PropertyGraph

end Eidetic.Lib
