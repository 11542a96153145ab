import Eidetic.Graph.EntityCap
import Eidetic.Lib.Best
import Eidetic.Lib.NodeMerge
import Mathlib.Data.List.Infix

/-!
# Merging the entities of a user

`merge_duplicate_entities` of the knowledge graph. Names that are the same but
for case, blanks and a plural are merged first, and then entities of one type
whose names contain each other. Every relation is kept under the names that are
left (`merges_mergeDuplicateEntities`), and nothing is left to merge when the
entities come in the same order again (`typeMerges_again`).

The library's `NodeMerge` has what a merge of nodes is: a group, the one that is
kept, the statements that move the relations of the others to it, and when a
list of such merges `Fits`, so that no node is kept by one and deleted by
another. It gives the map to the names that are left and the image of the
relations under it. Here are the two passes, which compute such groups from what
a query returns: by a norm of the names, and by containment among the names of
one type.

So `relations_kept` is assembled from `fits_normMerges` and `fits_typeMerges`.
That a second call has nothing to do has two parts: no two names with one norm
are left (`norm_injective_after`), and of each type the same name is kept again,
with nothing left that overlaps with it (`typeMerges_again`), if the rows come
in the same order.
-/

namespace Eidetic.Graph

open Eidetic.Lib Eidetic.Py

variable {τ : Type*}

/-- A row of `RETURN e.name AS name, e.type AS type`, with what else there is. -/
abbrev EntityRow (τ : Type*) := Text × Entity (Option τ)

abbrev EntityMerge (τ : Type*) := NodeMerge Text (Entity (Option τ))

/-- A query for the entities of a graph, which come in some order. -/
structure Scan (τ : Type*) where
  rows : EntityGraph (Option τ) → List (EntityRow τ)
  perm : ∀ g, (rows g).Perm g.nodes

def other : Text := "OTHER".toList

/-! ## Names -/

/-- `re.sub(r"\s+", " ", n)`, behind whitespace or not. -/
def collapseFrom : Bool → Text → Text
  | _, [] => []
  | behind, c :: cs =>
    if isSpace c then
      (if behind then collapseFrom true cs else ' ' :: collapseFrom true cs)
    else c :: collapseFrom false cs

/-- `n.rstrip("s")`. -/
def rstripS (n : Text) : Text := (n.reverse.dropWhile fun c => c = 's').reverse

/-- `_norm`. -/
def norm (lower : Text → Text) (name : Text) : Text :=
  rstripS (collapseFrom false (strip (lower name)))

/-- One of the names is in the other, or has only words of the other. -/
def overlaps (lower : Text → Text) (keepName name : Text) : Bool :=
  let keepNorm := norm lower keepName
  let keepTokens := words keepNorm
  let n := norm lower name
  let tokens := words n
  n <:+: keepNorm || keepNorm <:+: n || tokens ⊆ keepTokens || keepTokens ⊆ tokens

/-! ## The two passes -/

/-- `keep_type`: the last type of the group that is not "OTHER". -/
def keepType (group : List (EntityRow τ)) : Option Text :=
  group.foldl (fun t g => if g.2.type ≠ some other then g.2.type else t) (some other)

/-- What is merged of the entities with one norm. -/
def normMerge (now : Text → τ) (group : Text × List (EntityRow τ)) : Option (EntityMerge τ) :=
  let names := group.2.map Prod.fst
  if group.2.length < 2 then none
  else
    match byScore List.length names with
    | [] => none
    | keepName :: _ =>
      let toDelete := names.filter fun name => name ≠ keepName
      if toDelete.isEmpty then none
      else some {
        keep := keepName
        set := fun e => { e with type := keepType group.2, updatedAt := some (now group.1) }
        dups := toDelete }

def normMerges (lower : Text → Text) (now : Text → τ) (rows : List (EntityRow τ)) :
    List (EntityMerge τ) :=
  (groupsOf (fun row => norm lower row.1) rows).filterMap (normMerge now)

/-- `row.get("type", "OTHER") or "OTHER"`. -/
def rowType (row : EntityRow τ) : Text :=
  match row.2.type with
  | some t => if t.isEmpty then other else t
  | none => other

/-- The rows that are put into `by_type`. -/
def typedRows (rows : List (EntityRow τ)) : List (EntityRow τ) :=
  rows.filter fun row => rowType row ≠ other

/-- What is merged of the entities of one type. Nothing is set. -/
def typeMerge (lower : Text → Text) (group : Text × List (EntityRow τ)) : Option (EntityMerge τ) :=
  if group.2.length < 2 then none
  else
    match byScore (fun row => row.1.length) group.2 with
    | [] => none
    | keep :: rest =>
      let toDelete := (rest.map Prod.fst).filter (overlaps lower keep.1)
      if toDelete.isEmpty then none
      else some { keep := keep.1, set := id, dups := toDelete }

def typeMerges (lower : Text → Text) (rows : List (EntityRow τ)) : List (EntityMerge τ) :=
  (groupsOf rowType (typedRows rows)).filterMap (typeMerge lower)

/-- `merged += len(to_delete)`. -/
def mergedCount (ms : List (EntityMerge τ)) : Nat := (ms.map fun m => m.dups.length).sum

/-- The graph, and how many entities were merged into others. A relation that is
merged gets no time. -/
def mergeDuplicateEntities (lower : Text → Text) (now : Text → τ) (first second : Scan τ)
    (g : EntityGraph (Option τ)) : EntityGraph (Option τ) × Nat :=
  let rows := first.rows g
  if rows.isEmpty then (g, 0)
  else
    let ms := normMerges lower now rows
    let g' := g.applyMerges none ms
    let ms' := typeMerges lower (second.rows g')
    (g'.applyMerges none ms', mergedCount ms + mergedCount ms')

/-! ## What is merged of a group -/

variable {lower : Text → Text} {now : Text → τ} {group : Text × List (EntityRow τ)}
  {m : EntityMerge τ} {g : EntityGraph (Option τ)}

/-- One of the longest names is kept, and all the others are deleted. -/
theorem of_normMerge (h : normMerge now group = some m) :
    m.keep ∈ group.2.map Prod.fst ∧ m.dups = (group.2.map Prod.fst).filter (fun name => name ≠ m.keep) ∧
      m.dups ≠ [] ∧
      m.set = fun e => { e with type := keepType group.2, updatedAt := some (now group.1) } := by
  unfold normMerge at h
  split at h
  next => exact absurd h (by simp)
  next =>
    dsimp only at h
    split at h
    next => exact absurd h (by simp)
    next keepName rest hsorted =>
      split at h
      next => exact absurd h (by simp)
      next hsome =>
        obtain rfl := Option.some.inj h
        refine ⟨?_, rfl, fun hnil => hsome (List.isEmpty_iff.mpr hnil), rfl⟩
        exact mem_byScore.mp (hsorted ▸ List.mem_cons_self)

/-- Different names of a group are merged. -/
theorem exists_normMerge (now : Text → τ) (group : Text × List (EntityRow τ)) {a b : Text}
    (ha : a ∈ group.2.map Prod.fst)
    (hb : b ∈ group.2.map Prod.fst) (hne : a ≠ b) : ∃ m, normMerge now group = some m := by
  have hlength : ¬ group.2.length < 2 := by
    intro hshort
    rw [← List.length_map Prod.fst] at hshort
    match hnames : group.2.map Prod.fst with
    | [] => rw [hnames] at ha; exact absurd ha List.not_mem_nil
    | [c] =>
      rw [hnames] at ha hb
      exact hne ((List.mem_singleton.mp ha).trans (List.mem_singleton.mp hb).symm)
    | _ :: _ :: _ =>
      rw [hnames, List.length_cons, List.length_cons] at hshort
      omega
  unfold normMerge
  rw [if_neg hlength]
  dsimp only
  split
  next hnil =>
    have hsorted := (byScore_perm List.length _).mem_iff.mpr ha
    rw [hnil] at hsorted
    exact absurd hsorted List.not_mem_nil
  next keepName rest _ =>
    -- one of the two is not the one that is kept
    have hdelete : (group.2.map Prod.fst).filter (fun name => name ≠ keepName) ≠ [] := by
      intro hnil
      rw [List.filter_eq_nil_iff] at hnil
      have hkept : ∀ c ∈ group.2.map Prod.fst, c = keepName := fun c hc =>
        not_not.mp fun hc' => hnil c hc (decide_eq_true hc')
      exact hne ((hkept a ha).trans (hkept b hb).symm)
    rw [if_neg (by simpa using hdelete)]
    exact ⟨_, rfl⟩

/-- The first of the longest names is kept, and those that overlap with it are deleted. -/
theorem of_typeMerge (h : typeMerge lower group = some m) :
    ∃ keep rest, byScore (fun row : EntityRow τ => row.1.length) group.2 = keep :: rest ∧
      m = { keep := keep.1, set := id, dups := (rest.map Prod.fst).filter (overlaps lower keep.1) } := by
  unfold typeMerge at h
  split at h
  next => exact absurd h (by simp)
  next =>
    split at h
    next => exact absurd h (by simp)
    next keep rest hsorted =>
      dsimp only at h
      split at h
      next => exact absurd h (by simp)
      next => exact ⟨keep, rest, hsorted, (Option.some.inj h).symm⟩

/-- Nothing of a type is merged when nothing overlaps with the name that is kept. -/
theorem typeMerge_eq_none_iff : typeMerge lower group = none ↔
    ∀ keep rest, byScore (fun row : EntityRow τ => row.1.length) group.2 = keep :: rest →
      ∀ row ∈ rest, overlaps lower keep.1 row.1 = false := by
  have hnone : ∀ (keep : EntityRow τ) (rest : List (EntityRow τ)),
      ((rest.map Prod.fst).filter (overlaps lower keep.1)).isEmpty = true ↔
        ∀ row ∈ rest, overlaps lower keep.1 row.1 = false := by
    intro keep rest
    rw [List.isEmpty_iff, List.filter_eq_nil_iff]
    simp
  have hlength := (byScore_perm (fun row : EntityRow τ => row.1.length) group.2).length_eq
  unfold typeMerge
  split
  next hshort =>
    refine iff_of_true rfl fun keep rest hsorted row hrow => ?_
    rw [hsorted, List.length_cons] at hlength
    have hrest : rest = [] := List.eq_nil_of_length_eq_zero (by omega)
    rw [hrest] at hrow
    exact absurd hrow List.not_mem_nil
  next =>
    split
    next hnil =>
      refine iff_of_true rfl fun keep rest hsorted => ?_
      rw [hnil] at hsorted
      exact absurd hsorted (by simp)
    next keep rest hsorted =>
      rw [hsorted]
      dsimp only
      split
      next hempty =>
        refine iff_of_true rfl fun keep' rest' heq => ?_
        obtain ⟨rfl, rfl⟩ := List.cons.inj heq
        exact (hnone keep rest).mp hempty
      next hsome =>
        refine iff_of_false (by simp) fun hall => hsome ?_
        exact (hnone keep rest).mpr (hall keep rest rfl)

/-! ## The merges of a pass -/

theorem nodup_names (scan : Scan τ) (g : EntityGraph (Option τ)) :
    ((scan.rows g).map Prod.fst).Nodup :=
  (((scan.perm g).map Prod.fst).nodup_iff).mpr g.nodup_keys

theorem mem_names {scan : Scan τ} {k : Text} : k ∈ (scan.rows g).map Prod.fst ↔ k ∈ g.keys :=
  ((scan.perm g).map Prod.fst).mem_iff

theorem nodup_group {α β : Type*} [DecidableEq β] {key : α → β} {name : α → Text} {rows : List α}
    (hrows : (rows.map name).Nodup) {group : β × List α} (hgroup : group ∈ groupsOf key rows) :
    (group.2.map name).Nodup := by
  rw [(mem_groupsOf.mp hgroup).2]
  exact hrows.sublist (List.filter_sublist.map _)

theorem within_normMerge {key : EntityRow τ → Text} {rows : List (EntityRow τ)}
    (hrows : (rows.map Prod.fst).Nodup) (hgroup : group ∈ groupsOf key rows)
    (hm : normMerge now group = some m) : Within Prod.fst group m := by
  obtain ⟨hkeep, hdups, -⟩ := of_normMerge hm
  rw [Within, NodeMerge.names, hdups]
  constructor
  · refine List.nodup_cons.mpr ⟨fun hmem => ?_, (nodup_group hrows hgroup).filter _⟩
    exact of_decide_eq_true (List.mem_filter.mp hmem).2 rfl
  · intro k hk
    rcases List.mem_cons.mp hk with rfl | hk
    · exact hkeep
    · exact (List.mem_filter.mp hk).1

theorem within_typeMerge {key : EntityRow τ → Text} {rows : List (EntityRow τ)}
    (hrows : (rows.map Prod.fst).Nodup) (hgroup : group ∈ groupsOf key rows)
    (hm : typeMerge lower group = some m) : Within Prod.fst group m := by
  obtain ⟨keep, rest, hsorted, rfl⟩ := of_typeMerge hm
  -- the names of the merge are some of the sorted names
  have hperm : ((keep :: rest).map Prod.fst).Perm (group.2.map Prod.fst) :=
    (hsorted ▸ byScore_perm (fun row : EntityRow τ => row.1.length) group.2).map _
  have hsub : (keep.1 :: (rest.map Prod.fst).filter (overlaps lower keep.1)).Sublist
      ((keep :: rest).map Prod.fst) :=
    List.Sublist.cons_cons keep.1 List.filter_sublist
  exact ⟨(hperm.nodup_iff.mpr (nodup_group hrows hgroup)).sublist hsub,
    fun k hk => hperm.subset (hsub.subset hk)⟩

theorem fits_normMerges (lower : Text → Text) (now : Text → τ) (scan : Scan τ)
    (g : EntityGraph (Option τ)) : PropertyGraph.Fits (normMerges lower now (scan.rows g)) g :=
  PropertyGraph.fits_of_groups (nodup_names scan g)
    (fun _ hrow => mem_names.mp (List.mem_map_of_mem hrow))
    fun _ hgroup _ hm => within_normMerge (nodup_names scan g) hgroup hm

theorem nodup_typedRows (scan : Scan τ) (g : EntityGraph (Option τ)) :
    ((typedRows (scan.rows g)).map Prod.fst).Nodup :=
  (nodup_names scan g).sublist (List.filter_sublist.map _)

theorem fits_typeMerges (lower : Text → Text) (scan : Scan τ) (g : EntityGraph (Option τ)) :
    PropertyGraph.Fits (typeMerges lower (scan.rows g)) g :=
  PropertyGraph.fits_of_groups (nodup_typedRows scan g)
    (fun _ hrow => mem_names.mp (List.mem_map_of_mem (List.mem_filter.mp hrow).1))
    fun _ hgroup _ hm => within_typeMerge (nodup_typedRows scan g) hgroup hm

theorem mergedCount_eq (ms : List (EntityMerge τ)) : mergedCount ms = (deletedBy ms).length := by
  rw [mergedCount, deletedBy, List.length_flatMap]

/-- Without entities there is nothing to merge. -/
theorem mergeDuplicateEntities_eq (lower : Text → Text) (now : Text → τ) (first second : Scan τ)
    (g : EntityGraph (Option τ)) :
    mergeDuplicateEntities lower now first second g
      = let ms := normMerges lower now (first.rows g)
        let ms' := typeMerges lower (second.rows (g.applyMerges none ms))
        ((g.applyMerges none ms).applyMerges none ms', mergedCount ms + mergedCount ms') := by
  unfold mergeDuplicateEntities
  dsimp only
  split
  next hempty =>
    have hnone : first.rows g = [] := List.isEmpty_iff.mp hempty
    have hnodes : g.nodes = [] := List.perm_nil.mp (hnone ▸ (first.perm g).symm)
    have hrows : second.rows g = [] := List.perm_nil.mp (hnodes ▸ second.perm g)
    have hms : normMerges lower now (first.rows g) = [] := by rw [hnone]; rfl
    have hms' : typeMerges lower (second.rows (g.applyMerges none [])) = [] := by
      rw [show second.rows (g.applyMerges none []) = [] from hrows]
      rfl
    rw [hms, hms']
    rfl
  next => rfl

/-- Where an entity is after both passes. -/
def survivorOf (lower : Text → Text) (now : Text → τ) (first second : Scan τ)
    (g : EntityGraph (Option τ)) (k : Text) : Text :=
  let ms := normMerges lower now (first.rows g)
  survivor (typeMerges lower (second.rows (g.applyMerges none ms))) (survivor ms k)

/-- The relations are those between what the entities have been merged into. -/
theorem merges_mergeDuplicateEntities (lower : Text → Text) (now : Text → τ) (first second : Scan τ)
    (g : EntityGraph (Option τ)) :
    PropertyGraph.Merges (survivorOf lower now first second g) g
      (mergeDuplicateEntities lower now first second g).1 := by
  rw [mergeDuplicateEntities_eq]
  exact (PropertyGraph.merges_applyMerges (fits_normMerges lower now first g)).trans
    (PropertyGraph.merges_applyMerges (fits_typeMerges lower second _))

/-- The number that is returned is that of the entities that are gone. -/
theorem length_removed_mergeDuplicateEntities (lower : Text → Text) (now : Text → τ)
    (first second : Scan τ) (g : EntityGraph (Option τ)) :
    (g.removed (mergeDuplicateEntities lower now first second g).1).length
      = (mergeDuplicateEntities lower now first second g).2 := by
  have hgone := PropertyGraph.length_removed (merges_mergeDuplicateEntities lower now first second g)
  rw [mergeDuplicateEntities_eq] at hgone ⊢
  have hfirst : (g.applyMerges none (normMerges lower now (first.rows g))).keys.length + _ = _ :=
    PropertyGraph.length_applyMerges (fits_normMerges lower now first g)
  have hsecond : ((g.applyMerges none (normMerges lower now (first.rows g))).applyMerges none
      (typeMerges lower (second.rows _))).keys.length + _ = _ :=
    PropertyGraph.length_applyMerges (fits_typeMerges lower second _)
  dsimp only at hgone ⊢
  rw [mergedCount_eq, mergedCount_eq]
  omega

/-! ## Merging again -/

/-- The entities come in an order of their names. -/
def InOrder (before : Text → Text → Prop) (scan : Scan τ) : Prop :=
  ∀ g, (scan.rows g).Pairwise fun a b => before a.1 b.1

/-- No two names with one norm are left. -/
theorem norm_injective_after {first : Scan τ} {a b : Text}
    (ha : a ∈ (g.applyMerges none (normMerges lower now (first.rows g))).keys)
    (hb : b ∈ (g.applyMerges none (normMerges lower now (first.rows g))).keys)
    (h : norm lower a = norm lower b) : a = b := by
  rw [PropertyGraph.mem_keys_applyMerges (fits_normMerges lower now first g)] at ha hb
  by_contra hne
  -- both are in the group of their norm, which is merged
  have hrow : ∀ c, c ∈ g.keys → norm lower c = norm lower b →
      c ∈ ((first.rows g).filter fun row => norm lower row.1 = norm lower b).map Prod.fst := by
    intro c hc hnorm
    obtain ⟨row, hrow, rfl⟩ := List.mem_map.mp (mem_names.mpr hc)
    exact List.mem_map_of_mem (List.mem_filter.mpr ⟨hrow, decide_eq_true hnorm⟩)
  have hgroup : (norm lower b, (first.rows g).filter fun row => norm lower row.1 = norm lower b) ∈
      groupsOf (fun row => norm lower row.1) (first.rows g) := by
    obtain ⟨row, hrow, rfl⟩ := List.mem_map.mp (mem_names.mpr hb.1)
    exact mem_groupsOf.mpr ⟨List.mem_map_of_mem hrow, rfl⟩
  obtain ⟨m, hm⟩ := exists_normMerge now (_, _) (hrow a ha.1 h) (hrow b hb.1 rfl) hne
  have hdups := (of_normMerge hm).2.1
  have hkept : ∀ c, c ∈ g.keys → c ∉ deletedBy (normMerges lower now (first.rows g)) →
      norm lower c = norm lower b → c = m.keep := by
    intro c hc hstays hnorm
    by_contra hother
    refine hstays (List.mem_flatMap.mpr ⟨m, List.mem_filterMap.mpr ⟨_, hgroup, hm⟩, ?_⟩)
    rw [hdups]
    exact List.mem_filter.mpr ⟨hrow c hc hnorm, decide_eq_true hother⟩
  exact hne ((hkept a ha.1 ha.2 h).trans (hkept b hb.1 hb.2 rfl).symm)

/-- Nothing is merged of names with different norms. -/
theorem normMerges_eq_nil {scan : Scan τ}
    (h : ∀ a ∈ g.keys, ∀ b ∈ g.keys, norm lower a = norm lower b → a = b) :
    normMerges lower now (scan.rows g) = [] := by
  rw [normMerges, List.filterMap_eq_nil_iff]
  intro group hgroup
  cases hm : normMerge now group with
  | none => rfl
  | some m =>
    obtain ⟨hkeep, hdups, hsome, -⟩ := of_normMerge hm
    obtain ⟨dup, hdup⟩ := List.exists_mem_of_ne_nil _ hsome
    rw [hdups] at hdup
    obtain ⟨hdup, hne⟩ := List.mem_filter.mp hdup
    have hof : ∀ c ∈ group.2.map Prod.fst, c ∈ g.keys ∧ norm lower c = group.1 := by
      intro c hc
      obtain ⟨row, hrow, rfl⟩ := List.mem_map.mp hc
      obtain ⟨hrow, hnorm⟩ := (mem_of_mem_groupsOf hgroup).mp hrow
      exact ⟨mem_names.mp (List.mem_map_of_mem hrow), hnorm⟩
    obtain ⟨hdupmem, hdupnorm⟩ := hof dup hdup
    obtain ⟨hkeepmem, hkeepnorm⟩ := hof m.keep hkeep
    exact absurd (h dup hdupmem m.keep hkeepmem (hdupnorm.trans hkeepnorm.symm))
      (of_decide_eq_true hne)

/-- Entities whose type is merged stay as they are, and come in the same order. -/
theorem rows_after {before : Text → Text → Prop} (hbefore : ∀ a b, before a b → ¬ before b a)
    {second again : Scan τ} (hsecond : InOrder before second) (hagain : InOrder before again)
    (g : EntityGraph (Option τ)) :
    let ms := typeMerges lower (second.rows g)
    again.rows (g.applyMerges none ms) = leftBy ms Prod.fst (second.rows g) := by
  intro ms
  have hset : ∀ m ∈ ms, ∀ k v, m.keep = k → m.set v = v := by
    intro m hm k v _
    obtain ⟨group, -, hm⟩ := List.mem_filterMap.mp hm
    obtain ⟨keep, rest, -, rfl⟩ := of_typeMerge hm
    rfl
  have hnodes : (g.applyMerges none ms).nodes = leftBy ms Prod.fst g.nodes := by
    rw [PropertyGraph.nodes_applyMerges (fits_typeMerges lower second g)]
    refine List.map_id'' (fun n => ?_) _
    rw [PropertyGraph.changedBy_of_forall fun m hm => hset m hm n.1 n.2]
  have hperm : (again.rows (g.applyMerges none ms)).Perm (leftBy ms Prod.fst (second.rows g)) := by
    refine (again.perm _).trans ?_
    rw [hnodes]
    exact (second.perm g).symm.filter _
  refine List.Perm.eq_of_pairwise ?_ (hagain _) ((hsecond g).sublist List.filter_sublist) hperm
  intro a b _ _ hab hba
  exact absurd hba (hbefore _ _ hab)

/-- Of the entities of a type the first of the longest names stays, and what
overlaps with it does not. -/
theorem deleted_of_type {second : Scan τ}
    (hgroup : group ∈ groupsOf rowType (typedRows (second.rows g))) {keep : EntityRow τ}
    {rest : List (EntityRow τ)}
    (hsorted : byScore (fun row : EntityRow τ => row.1.length) group.2 = keep :: rest) :
    keep.1 ∉ deletedBy (typeMerges lower (second.rows g)) ∧
      ∀ row ∈ rest, overlaps lower keep.1 row.1 = true →
        row.1 ∈ deletedBy (typeMerges lower (second.rows g)) := by
  have hrows := nodup_typedRows second g
  constructor
  · intro hdeleted
    obtain ⟨m, hm, hdup⟩ := List.mem_flatMap.mp hdeleted
    have hmem : keep ∈ group.2 := mem_byScore.mp (hsorted ▸ List.mem_cons_self)
    have hplan : typeMerge lower group = some m :=
      PropertyGraph.plan_of_mem hrows (fun _ hgroup _ hm => within_typeMerge hrows hgroup hm) hgroup
        hmem hm (List.mem_cons_of_mem _ hdup)
    have hnodup := (within_typeMerge hrows hgroup hplan).1
    obtain ⟨keep', rest', hsorted', rfl⟩ := of_typeMerge hplan
    obtain ⟨rfl, -⟩ := List.cons.inj (hsorted.symm.trans hsorted')
    exact (List.nodup_cons.mp hnodup).1 hdup
  · intro row hrow hoverlaps
    cases hm : typeMerge lower group with
    | none =>
      rw [typeMerge_eq_none_iff.mp hm keep rest hsorted row hrow] at hoverlaps
      exact absurd hoverlaps Bool.false_ne_true
    | some m =>
      refine List.mem_flatMap.mpr ⟨m, List.mem_filterMap.mpr ⟨group, hgroup, hm⟩, ?_⟩
      obtain ⟨keep', rest', hsorted', rfl⟩ := of_typeMerge hm
      obtain ⟨rfl, rfl⟩ := List.cons.inj (hsorted.symm.trans hsorted')
      exact List.mem_filter.mpr ⟨List.mem_map_of_mem hrow, hoverlaps⟩

/-- Nothing of a type is left to merge: the name that is kept is the same again,
and what overlaps with it is gone. -/
theorem typeMerges_again {before : Text → Text → Prop} (hbefore : ∀ a b, before a b → ¬ before b a)
    {second again : Scan τ} (hsecond : InOrder before second) (hagain : InOrder before again)
    (g : EntityGraph (Option τ)) :
    typeMerges lower (again.rows (g.applyMerges none (typeMerges lower (second.rows g)))) = [] := by
  have hrows : again.rows (g.applyMerges none (typeMerges lower (second.rows g))) = _ :=
    rows_after hbefore hsecond hagain g
  rw [hrows, typeMerges, List.filterMap_eq_nil_iff]
  intro group hgroup
  rw [typeMerge_eq_none_iff]
  intro keep rest hsorted row hrow
  -- the group as it was before
  let whole := (typedRows (second.rows g)).filter fun row => rowType row = group.1
  have hleft : group.2 = leftBy (typeMerges lower (second.rows g)) Prod.fst whole := by
    simp only [(mem_groupsOf.mp hgroup).2, whole, typedRows, leftBy, List.filter_filter]
    refine List.filter_congr fun row _ => ?_
    rw [← Bool.and_assoc, Bool.and_comm]
  have hbyScore : byScore (fun row : EntityRow τ => row.1.length) group.2
      = leftBy (typeMerges lower (second.rows g)) Prod.fst
        (byScore (fun row : EntityRow τ => row.1.length) whole) := by
    rw [hleft]
    exact byScore_filter _ _ _
  rw [hbyScore] at hsorted
  cases hwhole : byScore (fun row : EntityRow τ => row.1.length) whole with
  | nil =>
    rw [hwhole] at hsorted
    exact absurd hsorted (by simp [leftBy])
  | cons keep' rest' =>
    have hmem : (group.1, whole) ∈ groupsOf rowType (typedRows (second.rows g)) := by
      have hkeep : keep' ∈ whole := mem_byScore.mp (hwhole ▸ List.mem_cons_self)
      obtain ⟨hkeep, htype⟩ := List.mem_filter.mp hkeep
      exact mem_groupsOf.mpr ⟨of_decide_eq_true htype ▸ List.mem_map_of_mem hkeep, rfl⟩
    obtain ⟨hstays, hgone⟩ := deleted_of_type hmem hwhole
    rw [hwhole, leftBy_cons hstays] at hsorted
    obtain ⟨rfl, rfl⟩ := List.cons.inj hsorted
    obtain ⟨hrow, hrowstays⟩ := mem_leftBy.mp hrow
    rw [← Bool.not_eq_true]
    exact fun hoverlaps => hrowstays (hgone row hrow hoverlaps)

/-- The relations are the images of the old ones under a map to the names that
are left, and the number that is returned is that of the names that are gone.
When the second query gives the entities in the order in which it gives them the
next time, a further call finds nothing to merge. -/
theorem relations_kept (lower : Text → Text) (now : Text → τ) (first second : Scan τ)
    (g : EntityGraph (Option τ)) :
    let done := mergeDuplicateEntities lower now first second g
    (∃ m : Text → Text, PropertyGraph.Merges m g done.1) ∧ (g.removed done.1).length = done.2 ∧
      ∀ before : Text → Text → Prop, (∀ a b, before a b → ¬ before b a) → InOrder before second →
        ∀ (later : Text → τ) (third fourth : Scan τ), InOrder before fourth →
          mergeDuplicateEntities lower later third fourth done.1 = (done.1, 0) := by
  intro done
  refine ⟨⟨_, merges_mergeDuplicateEntities lower now first second g⟩,
    length_removed_mergeDuplicateEntities lower now first second g, ?_⟩
  intro before hbefore hsecond later third fourth hfourth
  have hdone : done = _ := mergeDuplicateEntities_eq lower now first second g
  have hnone : normMerges lower later (third.rows done.1) = [] := by
    refine normMerges_eq_nil fun a ha b hb hnorm => ?_
    rw [hdone] at ha hb
    have hfits := fits_typeMerges lower second (g.applyMerges none (normMerges lower now (first.rows g)))
    exact norm_injective_after ((PropertyGraph.mem_keys_applyMerges hfits).mp ha).1
      ((PropertyGraph.mem_keys_applyMerges hfits).mp hb).1 hnorm
  have hnone' : typeMerges lower (fourth.rows (done.1.applyMerges none [])) = [] := by
    rw [hdone]
    exact typeMerges_again hbefore hsecond hfourth _
  rw [mergeDuplicateEntities_eq, hnone]
  dsimp only
  rw [hnone']
  rfl

/-- The entities in the order of their names. -/
def byName : Scan τ where
  rows g := g.nodes.insertionSort fun a b => a.1 ≤ b.1
  perm _ := List.perm_insertionSort _ _

theorem inOrder_byName : InOrder (fun a b => a < b) (byName : Scan τ) := by
  intro g
  have htotal : Std.Total fun a b : EntityRow τ => a.1 ≤ b.1 := ⟨fun a b => le_total _ _⟩
  have htrans : IsTrans (EntityRow τ) fun a b => a.1 ≤ b.1 := ⟨fun a b c hab hbc => le_trans hab hbc⟩
  have hsorted : (byName.rows g).Pairwise fun a b => a.1 ≤ b.1 := List.pairwise_insertionSort _ _
  have hnodup := List.pairwise_map.mp (nodup_names byName g)
  exact hsorted.imp₂ (fun _ _ hle hne => lt_of_le_of_ne hle hne) hnodup

/-- `str.lower` of ASCII. -/
def lowerAscii (t : Text) : Text := t.map Char.toLower

/-- Two spellings of a name, and a longer name of the same type. -/
def kafka : EntityGraph (Option Nat) where
  nodes := [("Kafka".toList, ⟨some "TECHNOLOGY".toList, some 1⟩),
    ("kafkas".toList, ⟨some "TECHNOLOGY".toList, some 2⟩),
    ("Apache Kafka".toList, ⟨some "TECHNOLOGY".toList, some 3⟩)]
  edges := [(⟨"kafkas".toList, "Kafka".toList, "USES".toList⟩, some 2)]
  unique := by decide
  ends := by decide

theorem relations_kept_kafka :
    let done := mergeDuplicateEntities lowerAscii (fun _ => 4) byName byName kafka
    mergeDuplicateEntities lowerAscii (fun _ => 5) byName byName done.1 = (done.1, 0) :=
  (relations_kept lowerAscii (fun _ => 4) byName byName kafka).2.2 (fun a b => a < b)
    (fun _ _ hab hba => lt_asymm hab hba) inOrder_byName (fun _ => 5) byName byName inOrder_byName

end Eidetic.Graph
