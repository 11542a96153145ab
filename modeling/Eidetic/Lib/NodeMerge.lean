import Eidetic.Lib.Gather
import Eidetic.Lib.PropertyGraph
import Mathlib.Data.List.Pairwise

/-!
# Nodes that are merged

A node is merged into another: its edges are redirected to the other, and the
node is deleted. After any number of merges of different nodes the edges are the
images of what they were, under the map of every node to the one it went into
(`merges_applyMerges`).

`Merges` is what a list of merges does to a graph, in terms of a map of the
keys: the nodes that are left are fixed by it, and the edges are the images. It
is reflexive and transitive, so it is proved of one node into another
(`merges_mergeInto`), of a group (`merges_applyMerge`), and of several groups,
if these `Fits`: their nodes are different, so what one of them keeps no other
one deletes (`Fits.keep_not_mem`).

The last part describes the nodes after such merges, their number, and that
groups of rows by a key fit (`fits_of_groups`), which is how a caller gets
there.
-/

namespace Eidetic.Lib

variable {κ ν ℓ ε : Type*}

/-- An edge between the images of its ends. -/
def EdgeKey.rename (m : κ → κ) (e : EdgeKey κ ℓ) : EdgeKey κ ℓ := ⟨m e.src, m e.dst, e.label⟩

/-- Nodes that are merged into one, which is changed first. -/
structure NodeMerge (κ ν : Type*) where
  keep : κ
  set : ν → ν
  dups : List κ

/-- All the nodes of a merge. -/
def NodeMerge.names (m : NodeMerge κ ν) : List κ := m.keep :: m.dups

/-- The nodes that merges delete. -/
def deletedBy (ms : List (NodeMerge κ ν)) : List κ := ms.flatMap NodeMerge.dups

/-- What merges leave of some rows. -/
def leftBy {α : Type*} [DecidableEq κ] (ms : List (NodeMerge κ ν)) (name : α → κ) (rows : List α) :
    List α :=
  rows.filter fun r => name r ∉ deletedBy ms

theorem mem_leftBy {α : Type*} [DecidableEq κ] {ms : List (NodeMerge κ ν)} {name : α → κ}
    {rows : List α} {r : α} : r ∈ leftBy ms name rows ↔ r ∈ rows ∧ name r ∉ deletedBy ms := by
  rw [leftBy, List.mem_filter, decide_eq_true_eq]

theorem leftBy_cons {α : Type*} [DecidableEq κ] {ms : List (NodeMerge κ ν)} {name : α → κ} {r : α}
    (h : name r ∉ deletedBy ms) (rows : List α) :
    leftBy ms name (r :: rows) = r :: leftBy ms name rows :=
  List.filter_cons_of_pos (decide_eq_true h)

/-- Where a node goes. -/
def survivor [DecidableEq κ] (ms : List (NodeMerge κ ν)) (k : κ) : κ :=
  ((ms.find? fun m => k ∈ m.dups).map NodeMerge.keep).getD k

/-- What merges make of a node. -/
def changedBy [DecidableEq κ] (ms : List (NodeMerge κ ν)) (k : κ) (v : ν) : ν :=
  ((ms.find? fun m => m.keep = k).map fun m => m.set v).getD v

/-- A group is merged within itself. -/
def Within {α β : Type*} (name : α → κ) (group : β × List α) (m : NodeMerge κ ν) : Prop :=
  m.names.Nodup ∧ ∀ k ∈ m.names, k ∈ group.2.map name

namespace PropertyGraph

/-- Some nodes of a graph have become others, and the edges have become theirs. -/
structure Merges (m : κ → κ) (g g' : PropertyGraph κ ν ℓ ε) : Prop where
  subset : ∀ k ∈ g'.keys, k ∈ g.keys
  fixed : ∀ k ∈ g'.keys, m k = k
  survives : ∀ k ∈ g.keys, m k ∈ g'.keys
  edges : ∀ e, e ∈ g'.edgeKeys ↔ ∃ old ∈ g.edgeKeys, e = old.rename m

/-- The merges are of different nodes, which are there. -/
structure Fits (ms : List (NodeMerge κ ν)) (g : PropertyGraph κ ν ℓ ε) : Prop where
  nodup : (ms.flatMap NodeMerge.names).Nodup
  present : ∀ k ∈ ms.flatMap NodeMerge.names, k ∈ g.keys

variable [DecidableEq κ]

/-- The nodes of a graph that another one does not have. -/
def removed (g g' : PropertyGraph κ ν ℓ ε) : List κ := g.keys.filter fun k => k ∉ g'.keys

/-- `MATCH (n {key: k}) SET n = …`. -/
def setNode (g : PropertyGraph κ ν ℓ ε) (k : κ) (set : ν → ν) : PropertyGraph κ ν ℓ ε where
  nodes := modifyKey g.nodes k set
  edges := g.edges
  unique := (keys_modifyKey g.nodes k set).symm ▸ g.unique
  ends e he := by
    have hkeys : (modifyKey g.nodes k set).map Prod.fst = g.nodes.map Prod.fst := keys_modifyKey ..
    rw [hkeys]
    exact g.ends e he

/-- `DELETE` of edges. -/
def deleteEdges (g : PropertyGraph κ ν ℓ ε) (p : EdgeKey κ ℓ → Bool) : PropertyGraph κ ν ℓ ε where
  nodes := g.nodes
  edges := g.edges.filter fun e => !p e.1
  unique := g.unique
  ends e he := g.ends e (List.mem_filter.mp he).1

variable [DecidableEq ℓ]

/-- `MERGE (a)-[e]->(b)`: an edge that is there stays as it is. -/
def ensureEdge (value : ε) (g : PropertyGraph κ ν ℓ ε) (key : EdgeKey κ ℓ) : PropertyGraph κ ν ℓ ε :=
  if key ∈ g.edgeKeys then g else g.mergeEdge key value

/-- Each of the matched edges is merged elsewhere, and deleted. -/
def moveEdges (value : ε) (p : EdgeKey κ ℓ → Bool) (move : EdgeKey κ ℓ → EdgeKey κ ℓ)
    (g : PropertyGraph κ ν ℓ ε) : PropertyGraph κ ν ℓ ε :=
  (((g.edgeKeys.filter p).map move).foldl (ensureEdge value) g).deleteEdges p

/-- `MATCH (dup)-[r]->(target) MATCH (keep) MERGE (keep)-[..]->(target) DELETE r`. -/
def redirectOut (value : ε) (keep dup : κ) (g : PropertyGraph κ ν ℓ ε) : PropertyGraph κ ν ℓ ε :=
  if keep ∈ g.keys then
    g.moveEdges value (fun e => e.src = dup) fun e => { e with src := keep }
  else g

/-- `MATCH (source)-[r]->(dup) MATCH (keep) MERGE (source)-[..]->(keep) DELETE r`. -/
def redirectIn (value : ε) (keep dup : κ) (g : PropertyGraph κ ν ℓ ε) : PropertyGraph κ ν ℓ ε :=
  if keep ∈ g.keys then
    g.moveEdges value (fun e => e.dst = dup) fun e => { e with dst := keep }
  else g

/-- The edges of a node are redirected to another, and the node is deleted. -/
def mergeInto (value : ε) (keep : κ) (g : PropertyGraph κ ν ℓ ε) (dup : κ) : PropertyGraph κ ν ℓ ε :=
  ((g.redirectOut value keep dup).redirectIn value keep dup).detachDelete [dup]

def applyMerge (value : ε) (g : PropertyGraph κ ν ℓ ε) (m : NodeMerge κ ν) : PropertyGraph κ ν ℓ ε :=
  m.dups.foldl (mergeInto value m.keep) (g.setNode m.keep m.set)

def applyMerges (value : ε) (g : PropertyGraph κ ν ℓ ε) (ms : List (NodeMerge κ ν)) :
    PropertyGraph κ ν ℓ ε :=
  ms.foldl (applyMerge value) g

/-! ## Images -/

omit [DecidableEq κ] [DecidableEq ℓ] in
theorem Merges.refl (g : PropertyGraph κ ν ℓ ε) : Merges id g g where
  subset _ h := h
  fixed _ _ := rfl
  survives _ h := h
  edges e := ⟨fun he => ⟨e, he, rfl⟩, fun ⟨_, hold, heq⟩ => heq ▸ hold⟩

omit [DecidableEq κ] [DecidableEq ℓ] in
theorem Merges.trans {m m' : κ → κ} {g g' g'' : PropertyGraph κ ν ℓ ε} (h : Merges m g g')
    (h' : Merges m' g' g'') : Merges (m' ∘ m) g g'' where
  subset k hk := h.subset k (h'.subset k hk)
  fixed k hk := by
    show m' (m k) = k
    rw [h.fixed k (h'.subset k hk), h'.fixed k hk]
  survives k hk := h'.survives _ (h.survives k hk)
  edges e := by
    rw [h'.edges]
    constructor
    · intro ⟨mid, hmid, heq⟩
      obtain ⟨old, hold, hmid⟩ := (h.edges mid).mp hmid
      exact ⟨old, hold, by rw [heq, hmid]; rfl⟩
    · intro ⟨old, hold, heq⟩
      exact ⟨old.rename m, (h.edges _).mpr ⟨old, hold, rfl⟩, heq⟩

omit [DecidableEq κ] [DecidableEq ℓ] in
/-- Only where the map takes the nodes matters. -/
theorem Merges.congr {m m' : κ → κ} {g g' : PropertyGraph κ ν ℓ ε} (h : Merges m g g')
    (heq : ∀ k ∈ g.keys, m k = m' k) : Merges m' g g' where
  subset := h.subset
  fixed k hk := (heq k (h.subset k hk)).symm.trans (h.fixed k hk)
  survives k hk := heq k hk ▸ h.survives k hk
  edges e := by
    have hrename : ∀ old ∈ g.edgeKeys, old.rename m = old.rename m' := by
      intro old hold
      obtain ⟨hsrc, hdst⟩ := ends_of_mem hold
      rw [EdgeKey.rename, EdgeKey.rename, heq _ hsrc, heq _ hdst]
    rw [h.edges]
    exact exists_congr fun old => and_congr_right fun hold => by rw [hrename old hold]

/-! ## Moving edges -/

theorem nodes_ensureEdge (value : ε) (g : PropertyGraph κ ν ℓ ε) (key : EdgeKey κ ℓ) :
    (ensureEdge value g key).nodes = g.nodes := by
  unfold ensureEdge
  split
  next => rfl
  next => exact nodes_mergeEdge g key value

theorem nodes_foldl_ensureEdge (value : ε) (g : PropertyGraph κ ν ℓ ε) (es : List (EdgeKey κ ℓ)) :
    (es.foldl (ensureEdge value) g).nodes = g.nodes := by
  induction es generalizing g with
  | nil => rfl
  | cons e es ih => exact (ih (ensureEdge value g e)).trans (nodes_ensureEdge value g e)

theorem nodes_moveEdges (value : ε) (p : EdgeKey κ ℓ → Bool) (move : EdgeKey κ ℓ → EdgeKey κ ℓ)
    (g : PropertyGraph κ ν ℓ ε) : (g.moveEdges value p move).nodes = g.nodes :=
  nodes_foldl_ensureEdge value g _

theorem mem_edgeKeys_ensureEdge {value : ε} {g : PropertyGraph κ ν ℓ ε} {key e : EdgeKey κ ℓ}
    (hends : key.src ∈ g.keys ∧ key.dst ∈ g.keys) :
    e ∈ (ensureEdge value g key).edgeKeys ↔ e ∈ g.edgeKeys ∨ e = key := by
  unfold ensureEdge
  split
  next hkey => exact (or_iff_left_of_imp fun heq => heq ▸ hkey).symm
  next => rw [mem_edgeKeys_mergeEdge, and_iff_left hends]

theorem mem_edgeKeys_foldl_ensureEdge {value : ε} {g : PropertyGraph κ ν ℓ ε}
    {es : List (EdgeKey κ ℓ)} (hends : ∀ e ∈ es, e.src ∈ g.keys ∧ e.dst ∈ g.keys)
    {e : EdgeKey κ ℓ} : e ∈ (es.foldl (ensureEdge value) g).edgeKeys ↔ e ∈ g.edgeKeys ∨ e ∈ es := by
  induction es generalizing g with
  | nil => simp
  | cons key es ih =>
    have hkeys : (ensureEdge value g key).keys = g.keys := by
      rw [keys, keys, nodes_ensureEdge]
    rw [List.foldl_cons, ih (fun e he => hkeys ▸ hends e (List.mem_cons_of_mem _ he)),
      mem_edgeKeys_ensureEdge (hends key List.mem_cons_self), List.mem_cons, or_assoc]

omit [DecidableEq κ] [DecidableEq ℓ] in
theorem mem_edgeKeys_deleteEdges {g : PropertyGraph κ ν ℓ ε} {p : EdgeKey κ ℓ → Bool}
    {e : EdgeKey κ ℓ} : e ∈ (g.deleteEdges p).edgeKeys ↔ e ∈ g.edgeKeys ∧ p e = false := by
  have hkeys : (g.deleteEdges p).edgeKeys = g.edgeKeys.filter fun e => !p e := by
    rw [edgeKeys, edgeKeys, List.filter_map]
    rfl
  rw [hkeys, List.mem_filter, Bool.not_eq_true']

/-- Every matched edge is moved, and the others stay: no matched edge is moved
to where edges are matched. -/
theorem mem_edgeKeys_moveEdges {value : ε} {g : PropertyGraph κ ν ℓ ε} {p : EdgeKey κ ℓ → Bool}
    {move : EdgeKey κ ℓ → EdgeKey κ ℓ}
    (hends : ∀ e ∈ g.edgeKeys, (move e).src ∈ g.keys ∧ (move e).dst ∈ g.keys)
    (hmove : ∀ e, p (move e) = false) {e : EdgeKey κ ℓ} :
    e ∈ (g.moveEdges value p move).edgeKeys ↔
      ∃ old ∈ g.edgeKeys, e = if p old then move old else old := by
  -- what is moved ends where nodes are, so it is merged, and it is not deleted with the old edges
  have hmoved : ∀ key ∈ (g.edgeKeys.filter p).map move, key.src ∈ g.keys ∧ key.dst ∈ g.keys := by
    intro key hkey
    obtain ⟨old, hold, rfl⟩ := List.mem_map.mp hkey
    exact hends old (List.mem_filter.mp hold).1
  rw [moveEdges, mem_edgeKeys_deleteEdges, mem_edgeKeys_foldl_ensureEdge hmoved]
  constructor
  · intro ⟨hmem, hpe⟩
    rcases hmem with hstays | hmoved
    · exact ⟨e, hstays, by rw [hpe]; rfl⟩
    · obtain ⟨old, hold, rfl⟩ := List.mem_map.mp hmoved
      obtain ⟨hold, hpold⟩ := List.mem_filter.mp hold
      exact ⟨old, hold, (if_pos hpold).symm⟩
  · intro ⟨old, hold, heq⟩
    by_cases hpold : p old = true
    · rw [if_pos hpold] at heq
      rw [heq]
      exact ⟨Or.inr (List.mem_map_of_mem (List.mem_filter.mpr ⟨hold, hpold⟩)), hmove old⟩
    · rw [if_neg hpold] at heq
      rw [heq]
      exact ⟨Or.inl hold, by rwa [Bool.not_eq_true] at hpold⟩

/-! ## One node into another -/

theorem nodes_redirectOut (value : ε) (keep dup : κ) (g : PropertyGraph κ ν ℓ ε) :
    (g.redirectOut value keep dup).nodes = g.nodes := by
  unfold redirectOut
  split
  next => exact nodes_moveEdges ..
  next => rfl

theorem nodes_redirectIn (value : ε) (keep dup : κ) (g : PropertyGraph κ ν ℓ ε) :
    (g.redirectIn value keep dup).nodes = g.nodes := by
  unfold redirectIn
  split
  next => exact nodes_moveEdges ..
  next => rfl

theorem nodes_mergeInto (value : ε) (keep : κ) (g : PropertyGraph κ ν ℓ ε) (dup : κ) :
    (mergeInto value keep g dup).nodes = g.nodes.filter fun n => n.1 ∉ [dup] := by
  show ((g.redirectOut value keep dup).redirectIn value keep dup).nodes.filter _ = _
  rw [nodes_redirectIn, nodes_redirectOut]

theorem mem_keys_mergeInto {value : ε} {keep dup k : κ} {g : PropertyGraph κ ν ℓ ε} :
    k ∈ (mergeInto value keep g dup).keys ↔ k ∈ g.keys ∧ k ≠ dup := by
  have hnodes : ((g.redirectOut value keep dup).redirectIn value keep dup).keys = g.keys := by
    rw [keys, nodes_redirectIn, nodes_redirectOut, keys]
  rw [mergeInto, mem_keys_detachDelete, hnodes, List.mem_singleton]

theorem mem_edgeKeys_redirectOut {value : ε} {keep dup : κ} {g : PropertyGraph κ ν ℓ ε}
    (hkeep : keep ∈ g.keys) (hne : keep ≠ dup) {e : EdgeKey κ ℓ} :
    e ∈ (g.redirectOut value keep dup).edgeKeys ↔
      ∃ old ∈ g.edgeKeys, e = if decide (old.src = dup) then { old with src := keep } else old := by
  rw [redirectOut, if_pos hkeep]
  refine mem_edgeKeys_moveEdges ?_ fun e => decide_eq_false hne
  exact fun e he => ⟨hkeep, (ends_of_mem he).2⟩

theorem mem_edgeKeys_redirectIn {value : ε} {keep dup : κ} {g : PropertyGraph κ ν ℓ ε}
    (hkeep : keep ∈ g.keys) (hne : keep ≠ dup) {e : EdgeKey κ ℓ} :
    e ∈ (g.redirectIn value keep dup).edgeKeys ↔
      ∃ old ∈ g.edgeKeys, e = if decide (old.dst = dup) then { old with dst := keep } else old := by
  rw [redirectIn, if_pos hkeep]
  refine mem_edgeKeys_moveEdges ?_ fun e => decide_eq_false hne
  exact fun e he => ⟨(ends_of_mem he).1, hkeep⟩

omit [DecidableEq ℓ] in
/-- An edge is renamed at its one end and then at the other. -/
theorem rename_eq (keep dup : κ) (old : EdgeKey κ ℓ) :
    old.rename (fun k => if k = dup then keep else k)
      = let mid := if decide (old.src = dup) then { old with src := keep } else old
        if decide (mid.dst = dup) then { mid with dst := keep } else mid := by
  obtain ⟨src, dst, label⟩ := old
  by_cases hsrc : src = dup
  · by_cases hdst : dst = dup
    · simp [EdgeKey.rename, hsrc, hdst]
    · simp [EdgeKey.rename, hsrc, hdst]
  · by_cases hdst : dst = dup
    · simp [EdgeKey.rename, hsrc, hdst]
    · simp [EdgeKey.rename, hsrc, hdst]

/-- The edges of a node become those of another one. -/
theorem merges_mergeInto {value : ε} {keep dup : κ} {g : PropertyGraph κ ν ℓ ε}
    (hkeep : keep ∈ g.keys) (hne : keep ≠ dup) :
    Merges (fun k => if k = dup then keep else k) g (mergeInto value keep g dup) := by
  have havoids : ∀ k, (if k = dup then keep else k) ≠ dup := by
    intro k
    split
    next => exact hne
    next hk => exact hk
  have hkept : keep ∈ (g.redirectOut value keep dup).keys := by
    rw [keys, nodes_redirectOut]
    exact hkeep
  refine ⟨fun k hk => (mem_keys_mergeInto.mp hk).1, fun k hk => if_neg (mem_keys_mergeInto.mp hk).2,
    fun k hk => mem_keys_mergeInto.mpr ⟨?_, havoids k⟩, fun e => ?_⟩
  · split
    next => exact hkeep
    next => exact hk
  · -- first the edges from the node, then those to it, then there are none
    rw [mergeInto, mem_edgeKeys_detachDelete, List.mem_singleton, List.mem_singleton,
      mem_edgeKeys_redirectIn hkept hne]
    constructor
    · intro h
      obtain ⟨mid, hmid, heq⟩ := h.1
      obtain ⟨old, hold, hmid⟩ := (mem_edgeKeys_redirectOut hkeep hne).mp hmid
      exact ⟨old, hold, by rw [rename_eq, heq, hmid]⟩
    · intro h
      obtain ⟨old, hold, heq⟩ := h
      refine ⟨⟨_, (mem_edgeKeys_redirectOut hkeep hne).mpr ⟨old, hold, rfl⟩,
        by rw [heq, rename_eq]⟩, ?_⟩
      rw [heq]
      exact ⟨havoids _, havoids _⟩

theorem nodes_foldl_mergeInto (value : ε) (keep : κ) (dups : List κ) (g : PropertyGraph κ ν ℓ ε) :
    (dups.foldl (mergeInto value keep) g).nodes = g.nodes.filter fun n => n.1 ∉ dups := by
  induction dups generalizing g with
  | nil => simp
  | cons dup dups ih =>
    rw [List.foldl_cons, ih, nodes_mergeInto, List.filter_filter]
    refine List.filter_congr fun n _ => ?_
    simp [Bool.and_comm]

/-- One node after the other into the same one. -/
theorem merges_foldl_mergeInto {value : ε} {keep : κ} {dups : List κ} {g : PropertyGraph κ ν ℓ ε}
    (hkeep : keep ∈ g.keys) (hdups : keep ∉ dups) :
    Merges (fun k => if k ∈ dups then keep else k) g (dups.foldl (mergeInto value keep) g) := by
  induction dups generalizing g with
  | nil => exact (Merges.refl g).congr fun k _ => rfl
  | cons dup dups ih =>
    obtain ⟨hne, hrest⟩ := not_or.mp (List.mem_cons.not.mp hdups)
    have hfirst : Merges _ g (mergeInto value keep g dup) := merges_mergeInto hkeep hne
    have hkept : keep ∈ (mergeInto value keep g dup).keys := by
      have hsurvives := hfirst.survives keep hkeep
      rwa [if_neg hne] at hsurvives
    refine (hfirst.trans (ih hkept hrest)).congr fun k _ => ?_
    show (if (if k = dup then keep else k) ∈ dups then keep else if k = dup then keep else k) = _
    by_cases hk : k = dup
    · rw [if_pos hk, if_neg hrest, if_pos (List.mem_cons.mpr (Or.inl hk))]
    · rw [if_neg hk]
      exact if_congr (List.mem_cons.trans (or_iff_right hk)).symm rfl rfl

/-! ## A merge -/

omit [DecidableEq ℓ] in
theorem merges_setNode (g : PropertyGraph κ ν ℓ ε) (k : κ) (set : ν → ν) :
    Merges id g (g.setNode k set) := by
  have hkeys : (g.setNode k set).keys = g.keys := keys_modifyKey ..
  exact ⟨fun k hk => hkeys ▸ hk, fun _ _ => rfl, fun k hk => hkeys ▸ hk,
    fun e => ⟨fun he => ⟨e, he, rfl⟩, fun ⟨_, hold, heq⟩ => heq ▸ hold⟩⟩

theorem nodes_applyMerge (value : ε) (g : PropertyGraph κ ν ℓ ε) (m : NodeMerge κ ν) :
    (applyMerge value g m).nodes = (modifyKey g.nodes m.keep m.set).filter fun n => n.1 ∉ m.dups :=
  nodes_foldl_mergeInto value m.keep m.dups (g.setNode m.keep m.set)

theorem mem_keys_applyMerge {value : ε} {g : PropertyGraph κ ν ℓ ε} {m : NodeMerge κ ν} {k : κ} :
    k ∈ (applyMerge value g m).keys ↔ k ∈ g.keys ∧ k ∉ m.dups := by
  have hset : k ∈ (modifyKey g.nodes m.keep m.set).map Prod.fst ↔ k ∈ g.keys := by
    rw [show (modifyKey g.nodes m.keep m.set).map Prod.fst = g.keys from keys_modifyKey ..]
  rw [keys, nodes_applyMerge, ← hset]
  simp [List.mem_filter]

theorem merges_applyMerge {value : ε} {g : PropertyGraph κ ν ℓ ε} {m : NodeMerge κ ν}
    (hkeep : m.keep ∈ g.keys) (hdups : m.keep ∉ m.dups) :
    Merges (fun k => if k ∈ m.dups then m.keep else k) g (applyMerge value g m) := by
  have hset := merges_setNode g m.keep m.set
  exact (hset.trans (merges_foldl_mergeInto (hset.survives _ hkeep) hdups)).congr fun k _ => rfl

/-! ## Merges of different nodes -/

omit [DecidableEq κ] [DecidableEq ℓ] in
theorem Fits.keep_mem {ms : List (NodeMerge κ ν)} {m : NodeMerge κ ν} {g : PropertyGraph κ ν ℓ ε}
    (h : Fits (m :: ms) g) : m.keep ∈ g.keys :=
  h.present _ (by simp [NodeMerge.names])

omit [DecidableEq κ] [DecidableEq ℓ] in
/-- What a merge keeps is deleted neither by it nor by a later one. -/
theorem Fits.keep_not_mem {ms : List (NodeMerge κ ν)} {m : NodeMerge κ ν} {g : PropertyGraph κ ν ℓ ε}
    (h : Fits (m :: ms) g) : m.keep ∉ m.dups ∧ m.keep ∉ deletedBy ms := by
  have hnodup := h.nodup
  rw [List.flatMap_cons, NodeMerge.names, List.cons_append] at hnodup
  have hnot := (List.nodup_cons.mp hnodup).1
  refine ⟨fun hmem => hnot (List.mem_append_left _ hmem), fun hmem => hnot (List.mem_append_right _ ?_)⟩
  obtain ⟨m', hm', hdup⟩ := List.mem_flatMap.mp hmem
  exact List.mem_flatMap.mpr ⟨m', hm', List.mem_cons_of_mem _ hdup⟩

theorem Fits.tail {ms : List (NodeMerge κ ν)} {m : NodeMerge κ ν} {g : PropertyGraph κ ν ℓ ε}
    (h : Fits (m :: ms) g) (value : ε) : Fits ms (applyMerge value g m) := by
  have hnodup := h.nodup
  rw [List.flatMap_cons] at hnodup
  obtain ⟨-, hrest, hcross⟩ := List.nodup_append.mp hnodup
  refine ⟨hrest, fun k hk => mem_keys_applyMerge.mpr ⟨h.present k ?_, fun hdup => ?_⟩⟩
  · rw [List.flatMap_cons]
    exact List.mem_append_right _ hk
  · exact hcross k (List.mem_cons_of_mem _ hdup) k hk rfl

omit [DecidableEq ℓ] in
theorem survivor_cons (m : NodeMerge κ ν) (ms : List (NodeMerge κ ν)) (k : κ) :
    survivor (m :: ms) k = if k ∈ m.dups then m.keep else survivor ms k := by
  unfold survivor
  rw [List.find?_cons]
  by_cases hk : k ∈ m.dups
  · simp [hk]
  · simp [hk]

theorem survivor_of_not_mem {ms : List (NodeMerge κ ν)} {k : κ} (h : k ∉ deletedBy ms) :
    survivor ms k = k := by
  have hnone : ms.find? (fun m => decide (k ∈ m.dups)) = none := by
    rw [List.find?_eq_none]
    intro m hm hk
    exact h (List.mem_flatMap.mpr ⟨m, hm, of_decide_eq_true hk⟩)
  rw [survivor, hnone]
  rfl

/-- The edges after merges are the images of those before, each end being where
its node has gone. -/
theorem merges_applyMerges {value : ε} {ms : List (NodeMerge κ ν)} {g : PropertyGraph κ ν ℓ ε}
    (h : Fits ms g) : Merges (survivor ms) g (applyMerges value g ms) := by
  induction ms generalizing g with
  | nil => exact (Merges.refl g).congr fun k _ => rfl
  | cons m ms ih =>
    obtain ⟨hown, hlater⟩ := h.keep_not_mem
    refine ((merges_applyMerge h.keep_mem hown).trans (ih (h.tail value))).congr fun k _ => ?_
    show survivor ms (if k ∈ m.dups then m.keep else k) = _
    rw [survivor_cons]
    split
    next => exact survivor_of_not_mem hlater
    next => rfl

omit [DecidableEq ℓ] in
theorem changedBy_cons (m : NodeMerge κ ν) (ms : List (NodeMerge κ ν)) (k : κ) (v : ν) :
    changedBy (m :: ms) k v = if m.keep = k then m.set v else changedBy ms k v := by
  unfold changedBy
  rw [List.find?_cons]
  by_cases hk : m.keep = k
  · simp [hk]
  · simp [hk]

theorem changedBy_of_forall {ms : List (NodeMerge κ ν)} {k : κ} {v : ν}
    (h : ∀ m ∈ ms, m.keep = k → m.set v = v) : changedBy ms k v = v := by
  unfold changedBy
  cases hfound : ms.find? fun m => decide (m.keep = k) with
  | none => rfl
  | some m =>
    have hkeep := List.find?_some hfound
    exact h m (List.mem_of_find?_eq_some hfound) (of_decide_eq_true hkeep)

/-- The nodes after merges: those that are not deleted, changed if something was
merged into them. -/
theorem nodes_applyMerges {value : ε} {ms : List (NodeMerge κ ν)} {g : PropertyGraph κ ν ℓ ε}
    (h : Fits ms g) :
    (applyMerges value g ms).nodes
      = (leftBy ms Prod.fst g.nodes).map fun n => (n.1, changedBy ms n.1 n.2) := by
  induction ms generalizing g with
  | nil => simp [applyMerges, leftBy, deletedBy, changedBy]
  | cons m ms ih =>
    show (applyMerges value (applyMerge value g m) ms).nodes = _
    -- a later merge keeps another node, so what this one has set of its node stays
    have hlater : ∀ m' ∈ ms, m'.keep ≠ m.keep := by
      intro m' hm' heq
      have hnodup := h.nodup
      rw [List.flatMap_cons] at hnodup
      refine (List.nodup_append.mp hnodup).2.2 m.keep List.mem_cons_self m'.keep ?_ heq.symm
      exact List.mem_flatMap.mpr ⟨m', hm', List.mem_cons_self⟩
    rw [ih (h.tail value), nodes_applyMerge, leftBy, List.filter_filter, modifyKey, List.filter_map,
      List.map_map]
    -- setting a node leaves its key, and so which nodes are filtered out
    have hkey : ∀ n : κ × ν, (if n.1 = m.keep then (n.1, m.set n.2) else n).1 = n.1 := by
      intro n
      split
      next => rfl
      next => rfl
    have hfilter : (g.nodes.filter ((fun n => decide (n.1 ∉ deletedBy ms) && decide (n.1 ∉ m.dups)) ∘
        fun n => if n.1 = m.keep then (n.1, m.set n.2) else n))
        = leftBy (m :: ms) Prod.fst g.nodes := by
      refine List.filter_congr fun n _ => ?_
      rw [Function.comp_apply, hkey, ← Bool.decide_and]
      refine decide_eq_decide.mpr ?_
      rw [show deletedBy (m :: ms) = m.dups ++ deletedBy ms from List.flatMap_cons, List.mem_append,
        not_or, and_comm]
    rw [hfilter]
    refine List.map_congr_left fun n _ => ?_
    rw [Function.comp_apply, hkey, changedBy_cons]
    by_cases hn : n.1 = m.keep
    · rw [if_pos hn, if_pos hn.symm]
      rw [changedBy_of_forall fun m' hm' heq => absurd (heq.trans hn) (hlater m' hm')]
    · rw [if_neg hn, if_neg (Ne.symm hn)]

theorem keys_applyMerges {value : ε} {ms : List (NodeMerge κ ν)} {g : PropertyGraph κ ν ℓ ε}
    (h : Fits ms g) : (applyMerges value g ms).keys = g.keys.filter fun k => k ∉ deletedBy ms := by
  rw [keys, nodes_applyMerges h, leftBy, List.map_map, keys, List.filter_map]
  rfl

theorem mem_keys_applyMerges {value : ε} {ms : List (NodeMerge κ ν)} {g : PropertyGraph κ ν ℓ ε}
    (h : Fits ms g) {k : κ} : k ∈ (applyMerges value g ms).keys ↔ k ∈ g.keys ∧ k ∉ deletedBy ms := by
  rw [keys_applyMerges h, List.mem_filter, decide_eq_true_eq]

omit [DecidableEq κ] [DecidableEq ℓ] in
theorem deletedBy_sublist (ms : List (NodeMerge κ ν)) :
    (deletedBy ms).Sublist (ms.flatMap NodeMerge.names) := by
  induction ms with
  | nil => exact List.Sublist.refl _
  | cons m ms ih => exact (List.sublist_cons_self m.keep m.dups).append ih

/-- As many nodes fewer as are deleted. -/
theorem length_applyMerges {value : ε} {ms : List (NodeMerge κ ν)} {g : PropertyGraph κ ν ℓ ε}
    (h : Fits ms g) :
    (applyMerges value g ms).keys.length + (deletedBy ms).length = g.keys.length := by
  rw [keys_applyMerges h]
  exact length_filter_not_mem g.nodup_keys (h.nodup.sublist (deletedBy_sublist ms))
    fun k hk => h.present k ((deletedBy_sublist ms).subset hk)

omit [DecidableEq ℓ] in
theorem length_removed {m : κ → κ} {g g' : PropertyGraph κ ν ℓ ε} (h : Merges m g g') :
    (removed g g').length + g'.keys.length = g.keys.length :=
  length_filter_not_mem g.nodup_keys g'.nodup_keys h.subset

/-! ## One node after merges -/

omit [DecidableEq κ] [DecidableEq ℓ] in
/-- A node is in one merge only. -/
theorem Fits.merge_unique {ms : List (NodeMerge κ ν)} {m m' : NodeMerge κ ν}
    {g : PropertyGraph κ ν ℓ ε} (h : Fits ms g) (hm : m ∈ ms) (hm' : m' ∈ ms) {k : κ}
    (hk : k ∈ m.names) (hk' : k ∈ m'.names) : m = m' := by
  by_contra hne
  have hsymm : Std.Symm (Function.onFun List.Disjoint (@NodeMerge.names κ ν)) :=
    ⟨fun _ _ hd _ hk hk' => hd hk' hk⟩
  have hdisjoint := (List.nodup_flatMap.mp h.nodup).2
  exact hdisjoint.forall hm hm' hne hk hk'

omit [DecidableEq κ] [DecidableEq ℓ] in
theorem Fits.keep_not_deleted {ms : List (NodeMerge κ ν)} {m : NodeMerge κ ν}
    {g : PropertyGraph κ ν ℓ ε} (h : Fits ms g) (hm : m ∈ ms) : m.keep ∉ deletedBy ms := by
  intro hdeleted
  obtain ⟨m', hm', hdup⟩ := List.mem_flatMap.mp hdeleted
  obtain rfl := h.merge_unique hm hm' List.mem_cons_self (List.mem_cons_of_mem _ hdup)
  exact (List.nodup_cons.mp ((List.nodup_flatMap.mp h.nodup).1 m hm)).1 hdup

omit [DecidableEq ℓ] in
/-- All the nodes of a merge go into the one that is kept. -/
theorem Fits.survivor_eq {ms : List (NodeMerge κ ν)} {m : NodeMerge κ ν} {g : PropertyGraph κ ν ℓ ε}
    (h : Fits ms g) (hm : m ∈ ms) {k : κ} (hk : k ∈ m.names) : survivor ms k = m.keep := by
  rcases List.mem_cons.mp hk with rfl | hdup
  · exact survivor_of_not_mem (h.keep_not_deleted hm)
  · unfold survivor
    cases hfound : ms.find? fun m => decide (k ∈ m.dups) with
    | none => exact absurd (decide_eq_true hdup) (List.find?_eq_none.mp hfound m hm)
    | some m' =>
      have hdup' := List.find?_some hfound
      have hsame := h.merge_unique (List.mem_of_find?_eq_some hfound) hm
        (List.mem_cons_of_mem _ (of_decide_eq_true hdup')) hk
      rw [hsame]
      rfl

omit [DecidableEq ℓ] in
theorem Fits.changedBy_keep {ms : List (NodeMerge κ ν)} {m : NodeMerge κ ν}
    {g : PropertyGraph κ ν ℓ ε} (h : Fits ms g) (hm : m ∈ ms) (v : ν) :
    changedBy ms m.keep v = m.set v := by
  unfold changedBy
  cases hfound : ms.find? fun m' => decide (m'.keep = m.keep) with
  | none => exact absurd (decide_eq_true rfl) (List.find?_eq_none.mp hfound m hm)
  | some m' =>
    have hkeep := List.find?_some hfound
    have hkeep' : m'.keep = m.keep := of_decide_eq_true hkeep
    have hsame := h.merge_unique (List.mem_of_find?_eq_some hfound) hm List.mem_cons_self
      (hkeep' ▸ List.mem_cons_self)
    rw [hsame]
    rfl

theorem mem_nodes_applyMerges {value : ε} {ms : List (NodeMerge κ ν)} {g : PropertyGraph κ ν ℓ ε}
    (h : Fits ms g) {k : κ} {v : ν} (hv : (k, v) ∈ g.nodes) (hk : k ∉ deletedBy ms) :
    (k, changedBy ms k v) ∈ (applyMerges value g ms).nodes := by
  rw [nodes_applyMerges h]
  exact List.mem_map.mpr ⟨(k, v), mem_leftBy.mpr ⟨hv, hk⟩, rfl⟩

/-- A node is in a merge, and then it goes into the one that is kept, or it is
in none, and then it stays as it is. -/
theorem exists_node_applyMerges {value : ε} {ms : List (NodeMerge κ ν)} {g : PropertyGraph κ ν ℓ ε}
    (h : Fits ms g) {k : κ} {v : ν} (hv : (k, v) ∈ g.nodes) :
    (∃ m ∈ ms, k ∈ m.names ∧ survivor ms k = m.keep ∧
        ∃ w, (m.keep, w) ∈ g.nodes ∧ (m.keep, m.set w) ∈ (applyMerges value g ms).nodes) ∨
      (∀ m ∈ ms, k ∉ m.names) ∧ survivor ms k = k ∧ (k, v) ∈ (applyMerges value g ms).nodes := by
  by_cases hin : ∃ m ∈ ms, k ∈ m.names
  · obtain ⟨m, hm, hk⟩ := hin
    have hpresent := h.present m.keep (List.mem_flatMap.mpr ⟨m, hm, List.mem_cons_self⟩)
    obtain ⟨n, hn, hkeep⟩ := List.mem_map.mp hpresent
    have hw : (m.keep, n.2) ∈ g.nodes := hkeep ▸ hn
    refine Or.inl ⟨m, hm, hk, h.survivor_eq hm hk, n.2, hw, ?_⟩
    rw [← h.changedBy_keep hm]
    exact mem_nodes_applyMerges h hw (h.keep_not_deleted hm)
  · have hnot : ∀ m ∈ ms, k ∉ m.names := fun m hm hk => hin ⟨m, hm, hk⟩
    have hdeleted : k ∉ deletedBy ms := by
      intro hk
      obtain ⟨m, hm, hdup⟩ := List.mem_flatMap.mp hk
      exact hnot m hm (List.mem_cons_of_mem _ hdup)
    have hchanged : changedBy ms k v = v :=
      changedBy_of_forall fun m hm heq => absurd (heq ▸ List.mem_cons_self) (hnot m hm)
    refine Or.inr ⟨hnot, survivor_of_not_mem hdeleted, ?_⟩
    have hmem : (k, changedBy ms k v) ∈ (applyMerges value g ms).nodes :=
      mem_nodes_applyMerges h hv hdeleted
    rwa [hchanged] at hmem

/-! ## Groups that are merged -/

section Groups

variable {α β : Type*} [DecidableEq β] {key : α → β} {name : α → κ} {rows : List α}
  {plan : β × List α → Option (NodeMerge κ ν)} {g : PropertyGraph κ ν ℓ ε}

omit [DecidableEq κ] [DecidableEq ℓ] in
/-- A row of one group is in no merge of another group. -/
theorem plan_of_mem (hnodup : (rows.map name).Nodup)
    (hplan : ∀ group ∈ groupsOf key rows, ∀ m, plan group = some m → Within name group m)
    {group : β × List α} (hgroup : group ∈ groupsOf key rows) {r : α} (hr : r ∈ group.2)
    {m : NodeMerge κ ν} (hm : m ∈ (groupsOf key rows).filterMap plan) (hname : name r ∈ m.names) :
    plan group = some m := by
  obtain ⟨group', hgroup', hm'⟩ := List.mem_filterMap.mp hm
  obtain ⟨r', hr', heq⟩ := List.mem_map.mp ((hplan group' hgroup' m hm').2 _ hname)
  rw [group_unique hnodup hgroup hgroup' hr hr' heq.symm, hm']

omit [DecidableEq κ] [DecidableEq ℓ] in
/-- Each group of some rows is merged within itself, and the groups have different rows. -/
theorem fits_of_groups (hnodup : (rows.map name).Nodup) (hrows : ∀ r ∈ rows, name r ∈ g.keys)
    (hplan : ∀ group ∈ groupsOf key rows, ∀ m, plan group = some m → Within name group m) :
    Fits ((groupsOf key rows).filterMap plan) g := by
  constructor
  · rw [List.nodup_flatMap]
    constructor
    · intro m hm
      obtain ⟨group, hgroup, hm⟩ := List.mem_filterMap.mp hm
      exact (hplan group hgroup m hm).1
    · rw [List.pairwise_filterMap]
      have hkeys := List.pairwise_map.mp (nodup_keys_groupsOf key rows)
      refine hkeys.imp_of_mem fun {group group'} hgroup hgroup' hne m hm m' hm' k hk hk' => ?_
      obtain ⟨r, hr, rfl⟩ := List.mem_map.mp ((hplan group hgroup m hm).2 k hk)
      obtain ⟨r', hr', heq⟩ := List.mem_map.mp ((hplan group' hgroup' m' hm').2 _ hk')
      exact hne (congrArg Prod.fst (group_unique hnodup hgroup hgroup' hr hr' heq.symm))
  · intro k hk
    obtain ⟨m, hm, hk⟩ := List.mem_flatMap.mp hk
    obtain ⟨group, hgroup, hm⟩ := List.mem_filterMap.mp hm
    obtain ⟨r, hr, rfl⟩ := List.mem_map.mp ((hplan group hgroup m hm).2 k hk)
    exact hrows r ((mem_of_mem_groupsOf hgroup).mp hr).1

end Groups

end PropertyGraph

end Eidetic.Lib
