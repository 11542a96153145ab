import Eidetic.Graph.Merging
import Eidetic.Lib.Run
import Mathlib.Data.List.Induction

/-!
# The types of entities

A type is known when it is neither missing nor "OTHER". Storing entities keeps
the known types, and so does the merge of entities of one type. The merge of
names with one norm takes the last type that is not "OTHER", and a missing one
is not: a known type is lost there exactly when the last entity of its group
without a type comes after all those with a known one (`typesKept_iff`).

A merge of the first pass folds the rows of a group over `keepType`, where a
missing type counts as one. So whether a known type survives is a question about
the order of the group (`known_keepType_iff`): after the last member without a
type there has to be one with a known type, which is `Recovers`. The second pass
takes the type by which it has grouped, so it merges known types into known ones
(`type_after_type`), and storing writes a type over another only when it has
one.

`TypesKept` is about one call and `typesKept_iff` about all calls of a run, with
extractions, merges and deletions in any order. The abstract statement that a
type that is known stays known to the end is `hasKnown_run`.
-/

namespace Eidetic.Graph

open Eidetic.Lib Eidetic.Py

variable {τ : Type*}

def KnownType (t : Option Text) : Prop := t ≠ none ∧ t ≠ some other

instance (t : Option Text) : Decidable (KnownType t) := inferInstanceAs (Decidable (_ ∧ _))

/-- The calls on the graph of a user. The entities that are evicted and the order
in which rows come are not up to the code. -/
inductive GraphCall (τ : Type*)
  | extractAndStore (data : Json) (compacting : Bool) (ts : τ) (order : List (EntityRow τ))
  | mergeDuplicateEntities (now : Text → τ) (first second : Scan τ)

/-- The entities that `extract_and_store` deletes. -/
def evictedBy (upper : Text → Text) (data : Json) (compacting : Bool) (order : List (EntityRow τ))
    (g : EntityGraph (Option τ)) : List Text :=
  match extracted upper data with
  | .ok (some (batch, _)) => if compacting ∨ batch = [] then [] else evicted order g batch
  | .ok none | .error _ => []

section Calls

variable (upper lower : Text → Text)

def graphStep (g : EntityGraph (Option τ)) : GraphCall τ → EntityGraph (Option τ)
  | .extractAndStore data compacting ts order =>
    extractAndStore upper data compacting (some ts) order g
  | .mergeDuplicateEntities now first second => (mergeDuplicateEntities lower now first second g).1

/-- The entity that a call keeps or merges another one into; none when it is evicted. -/
def survivorIn (g : EntityGraph (Option τ)) (k : Text) : GraphCall τ → Option Text
  | .extractAndStore data compacting _ order =>
    if k ∈ evictedBy upper data compacting order g then none else some k
  | .mergeDuplicateEntities now first second => some (survivorOf lower now first second g k)

end Calls

/-- The entity of a name has a known type. -/
def HasKnown (g : EntityGraph (Option τ)) (k : Text) : Prop :=
  ∃ e, (k, e) ∈ g.nodes ∧ KnownType e.type

/-- No known type is lost in a call. -/
def TypesKept (upper lower : Text → Text) (g : EntityGraph (Option τ)) (c : GraphCall τ) : Prop :=
  ∀ k, HasKnown g k → ∀ k', survivorIn upper lower g k c = some k' →
    HasKnown (graphStep upper lower g c) k'

/-- After an entity without a type that comes after one with a known type there
is another one with a known type. -/
def Recovers (group : List (EntityRow τ)) : Prop :=
  ∀ before row after, group = before ++ row :: after → row.2.type = none →
    (∃ r ∈ before, KnownType r.2.type) → ∃ r ∈ after, KnownType r.2.type

/-- Where the names with one norm are merged, each group recovers. -/
def GroupsRecover (lower : Text → Text) (g : EntityGraph (Option τ)) : GraphCall τ → Prop
  | .extractAndStore .. => True
  | .mergeDuplicateEntities _ first _ =>
    ∀ group ∈ groupsOf (fun row => norm lower row.1) (first.rows g), Recovers group.2

/-! ## Storing -/

variable {upper lower : Text → Text} {g : EntityGraph (Option τ)} {k : Text}

theorem known_upsert (ts : Option τ) (e : BatchEntity) {old : Entity (Option τ)}
    (h : KnownType old.type) : KnownType (upsert ts e (some old)).type := by
  unfold upsert
  dsimp only
  split
  next htype => exact ⟨by simp, fun heq => htype (Option.some.inj heq)⟩
  next => exact h

theorem hasKnown_storeEntities {ts : Option τ} {order : List (EntityRow τ)}
    {batch : List BatchEntity} (h : HasKnown g k) (hk : batch = [] ∨ k ∉ evicted order g batch) :
    HasKnown (storeEntities ts order batch g) k := by
  unfold storeEntities
  split
  next => exact h
  next hbatch =>
    have hstays : k ∉ evicted order g batch := hk.resolve_left (by simpa using hbatch)
    refine PropertyGraph.exists_node_mergeNodes (fun p hp v hv => ?_) ?_
    · obtain ⟨e, -, rfl⟩ := List.mem_map.mp hp
      exact known_upsert ts e hv
    · split
      next =>
        obtain ⟨e, he, hknown⟩ := h
        exact ⟨e, PropertyGraph.mem_nodes_detachDelete.mpr ⟨he, hstays⟩, hknown⟩
      next => exact h

/-- An entity that is not evicted keeps a known type. -/
theorem typesKept_extractAndStore (data : Json) (compacting : Bool) (ts : τ)
    (order : List (EntityRow τ)) :
    TypesKept upper lower g (.extractAndStore data compacting ts order) := by
  intro k h k' hk'
  rw [survivorIn] at hk'
  split at hk'
  next => exact absurd hk' (by simp)
  next hstays =>
    obtain rfl := Option.some.inj hk'
    show HasKnown (extractAndStore upper data compacting (some ts) order g) k
    unfold evictedBy at hstays
    unfold extractAndStore
    split
    next batch rels hdata =>
      rw [hdata] at hstays
      dsimp only at hstays
      split
      next => exact h
      next hrunning =>
        have hmem : HasKnown (storeEntities (some ts) order batch g) k := by
          refine hasKnown_storeEntities h ?_
          by_cases hbatch : batch = []
          · exact Or.inl hbatch
          · rw [if_neg (by simp [hbatch, hrunning])] at hstays
            exact Or.inr hstays
        obtain ⟨e, he, hknown⟩ := hmem
        exact ⟨e, by rwa [PropertyGraph.nodes_mergeEdges], hknown⟩
    next => exact h
    next => exact h

/-! ## The type of a group -/

theorem keepType_concat (group : List (EntityRow τ)) (row : EntityRow τ) :
    keepType (group ++ [row])
      = if row.2.type ≠ some other then row.2.type else keepType group := by
  rw [keepType, List.foldl_append]
  rfl

/-- A member of a group and another one: it is the other, or comes before it. -/
theorem split_concat {group before after : List (EntityRow τ)} {row missing : EntityRow τ}
    (h : group ++ [row] = before ++ missing :: after) :
    after = [] ∧ row = missing ∨ ∃ rest, after = rest ++ [row] ∧ group = before ++ missing :: rest := by
  rcases List.eq_nil_or_concat after with rfl | ⟨rest, last, rfl⟩
  · obtain ⟨-, hlast⟩ := List.append_inj' h rfl
    exact Or.inl ⟨rfl, (List.cons.inj hlast).1⟩
  · rw [List.concat_eq_append, ← List.cons_append, ← List.append_assoc] at h
    obtain ⟨hgroup, hlast⟩ := List.append_inj' h rfl
    rw [List.concat_eq_append, ← (List.cons.inj hlast).1]
    exact Or.inr ⟨rest, rfl, hgroup⟩

theorem recovers_concat {group : List (EntityRow τ)} {row : EntityRow τ}
    (hmissing : row.2.type ≠ none) (hunknown : ¬ KnownType row.2.type) :
    Recovers (group ++ [row]) ↔ Recovers group := by
  constructor
  · intro h before missing after heq htype hknown
    obtain ⟨r, hr, hr'⟩ := h before missing (after ++ [row]) (by simp [heq]) htype hknown
    rcases List.mem_append.mp hr with hr | hr
    · exact ⟨r, hr, hr'⟩
    · rw [List.mem_singleton.mp hr] at hr'
      exact absurd hr' hunknown
  · intro h before missing after heq htype hknown
    rcases split_concat heq with ⟨-, rfl⟩ | ⟨rest, rfl, hgroup⟩
    · exact absurd htype hmissing
    · obtain ⟨r, hr, hr'⟩ := h before missing rest hgroup htype hknown
      exact ⟨r, List.mem_append_left _ hr, hr'⟩

/-- A group with a known type has one afterwards exactly when it recovers: the
last member decides unless it is "OTHER", and then the ones before it do. -/
theorem known_keepType_iff (group : List (EntityRow τ)) :
    (∃ r ∈ group, KnownType r.2.type) → (KnownType (keepType group) ↔ Recovers group) := by
  induction group using List.reverseRecOn with
  | nil =>
    intro ⟨r, hr, _⟩
    exact absurd hr List.not_mem_nil
  | append_singleton group row ih =>
    intro ⟨r, hr, hknown⟩
    have hearlier : ¬ KnownType row.2.type → r ∈ group := by
      intro hunknown
      refine (List.mem_append.mp hr).resolve_right fun hlast => hunknown ?_
      rwa [List.mem_singleton.mp hlast] at hknown
    rw [keepType_concat]
    by_cases hmissing : row.2.type = none
    · have hmem := hearlier fun h => h.1 hmissing
      rw [if_pos (by rw [hmissing]; simp)]
      refine iff_of_false (fun h => h.1 hmissing) fun h => ?_
      obtain ⟨r', hr', _⟩ := h group row [] rfl hmissing ⟨r, hmem, hknown⟩
      exact absurd hr' List.not_mem_nil
    · by_cases hother : row.2.type = some other
      · have hunknown : ¬ KnownType row.2.type := fun h => h.2 hother
        rw [if_neg (not_not.mpr hother), recovers_concat hmissing hunknown]
        exact ih ⟨r, hearlier hunknown, hknown⟩
      · rw [if_pos hother]
        refine iff_of_true ⟨hmissing, hother⟩ fun before missing after heq htype _ => ?_
        rcases split_concat heq with ⟨-, rfl⟩ | ⟨rest, rfl, -⟩
        · exact absurd htype hmissing
        · exact ⟨row, by simp, hmissing, hother⟩

/-! ## Merging -/

theorem known_of_rowType (row : EntityRow τ) :
    rowType row ≠ other → KnownType row.2.type := by
  intro h
  unfold rowType at h
  split at h
  next t ht =>
    refine ⟨by rw [ht]; simp, fun heq => ?_⟩
    rw [ht] at heq
    obtain rfl := Option.some.inj heq
    split at h
    next => exact h rfl
    next => exact h rfl
  next => exact absurd rfl h

/-- After the first pass an entity has its own type, or that of its group. -/
theorem type_after_norm (now : Text → τ) (first : Scan τ) {e : Entity (Option τ)}
    (he : (k, e) ∈ g.nodes) {group : Text × List (EntityRow τ)}
    (hgroup : group ∈ groupsOf (fun row => norm lower row.1) (first.rows g)) (hk : (k, e) ∈ group.2) :
    let ms := normMerges lower now (first.rows g)
    ∃ e', (survivor ms k, e') ∈ (g.applyMerges none ms).nodes ∧
      e'.type = if (normMerge now group).isSome then keepType group.2 else e.type := by
  intro ms
  have hrows := nodup_names first g
  have hfits := fits_normMerges lower now first g
  rcases PropertyGraph.exists_node_applyMerges hfits he with
    ⟨m, hm, hmem, hsurvivor, w, -, hnode⟩ | ⟨hnot, hsurvivor, hnode⟩
  · have hplan : normMerge now group = some m :=
      PropertyGraph.plan_of_mem hrows (fun _ hgroup _ hm => within_normMerge hrows hgroup hm) hgroup hk
        hm hmem
    refine ⟨_, hsurvivor ▸ hnode, ?_⟩
    rw [hplan, (of_normMerge hplan).2.2.2]
    rfl
  · refine ⟨e, hsurvivor.symm ▸ hnode, ?_⟩
    cases hplan : normMerge now group with
    | none => rfl
    | some m =>
      -- every name of a merged group is in the merge
      have hm : m ∈ ms := List.mem_filterMap.mpr ⟨group, hgroup, hplan⟩
      obtain ⟨-, hdups, -⟩ := of_normMerge hplan
      refine absurd ?_ (hnot m hm)
      by_cases hkeep : k = m.keep
      · exact hkeep ▸ List.mem_cons_self
      · refine List.mem_cons_of_mem _ ?_
        rw [hdups]
        exact List.mem_filter.mpr ⟨List.mem_map_of_mem hk, decide_eq_true hkeep⟩

/-- What is merged in the second pass has a known type. -/
theorem known_of_typeMerges {second : Scan τ} {m : EntityMerge τ}
    (hm : m ∈ typeMerges lower (second.rows g)) (hk : k ∈ m.names) {e : Entity (Option τ)}
    (he : (k, e) ∈ g.nodes) : KnownType e.type := by
  obtain ⟨group, hgroup, hplan⟩ := List.mem_filterMap.mp hm
  obtain ⟨row, hrow, hname⟩ :=
    List.mem_map.mp ((within_typeMerge (nodup_typedRows second g) hgroup hplan).2 k hk)
  obtain ⟨hrow, -⟩ := (mem_of_mem_groupsOf hgroup).mp hrow
  obtain ⟨hrow, htype⟩ := List.mem_filter.mp hrow
  have hnode : row ∈ g.nodes := (second.perm g).subset hrow
  have hsame : row = (k, e) := List.inj_on_of_nodup_map g.unique hnode he hname
  rw [hsame] at htype
  exact known_of_rowType _ (of_decide_eq_true htype)

/-- The second pass merges known types into known ones, and nothing else. -/
theorem type_after_type (lower : Text → Text) (second : Scan τ) {e : Entity (Option τ)}
    (he : (k, e) ∈ g.nodes) :
    let ms := typeMerges lower (second.rows g)
    ∃ e', (survivor ms k, e') ∈ (g.applyMerges none ms).nodes ∧
      (KnownType e'.type ↔ KnownType e.type) := by
  intro ms
  have hrows := nodup_typedRows second g
  have hfits := fits_typeMerges lower second g
  rcases PropertyGraph.exists_node_applyMerges hfits he with
    ⟨m, hm, hmem, hsurvivor, w, hw, hnode⟩ | ⟨-, hsurvivor, hnode⟩
  · obtain ⟨group, -, hplan⟩ := List.mem_filterMap.mp hm
    obtain ⟨keep, rest, -, rfl⟩ := of_typeMerge hplan
    refine ⟨w, hsurvivor ▸ hnode, ?_⟩
    exact iff_of_true (known_of_typeMerges hm List.mem_cons_self hw) (known_of_typeMerges hm hmem he)
  · exact ⟨e, hsurvivor.symm ▸ hnode, Iff.rfl⟩

/-- After both passes. -/
theorem type_after (now : Text → τ) (first second : Scan τ) {e : Entity (Option τ)}
    (he : (k, e) ∈ g.nodes) {group : Text × List (EntityRow τ)}
    (hgroup : group ∈ groupsOf (fun row => norm lower row.1) (first.rows g)) (hk : (k, e) ∈ group.2) :
    HasKnown (mergeDuplicateEntities lower now first second g).1 (survivorOf lower now first second g k)
      ↔ KnownType (if (normMerge now group).isSome then keepType group.2 else e.type) := by
  obtain ⟨e', he', htype'⟩ := type_after_norm now first he hgroup hk
  obtain ⟨e'', he'', htype''⟩ := type_after_type lower second he'
  rw [mergeDuplicateEntities_eq, ← htype', ← htype'']
  constructor
  · intro ⟨e₂, he₂, hknown⟩
    have hsame := List.inj_on_of_nodup_map (PropertyGraph.unique _) he₂ he'' rfl
    rwa [← (Prod.mk.inj hsame).2]
  · exact fun hknown => ⟨e'', he'', hknown⟩

/-- A merge loses no known type exactly when the groups of a norm recover. -/
theorem typesKept_merge_iff (now : Text → τ) (first second : Scan τ) :
    TypesKept upper lower g (.mergeDuplicateEntities now first second) ↔
      GroupsRecover lower g (.mergeDuplicateEntities now first second) := by
  have hrows := nodup_names first g
  constructor
  · intro h group hgroup before row after heq htype ⟨r, hr, hknown⟩
    have hmem : r ∈ group.2 := by rw [heq]; exact List.mem_append_left _ hr
    have hrow : row ∈ group.2 := by rw [heq]; simp
    have hnode : (r.1, r.2) ∈ g.nodes :=
      (first.perm g).subset ((mem_of_mem_groupsOf hgroup).mp hmem).1
    have hkept := h r.1 ⟨r.2, hnode, hknown⟩ _ rfl
    -- the group has two entities, so that it is merged
    have hne : r.1 ≠ row.1 := by
      intro hsame
      have hboth := List.inj_on_of_nodup_map (nodup_group hrows hgroup) hmem hrow hsame
      exact hknown.1 (hboth ▸ htype)
    obtain ⟨m, hm⟩ := exists_normMerge now group (List.mem_map_of_mem hmem) (List.mem_map_of_mem hrow) hne
    have htypes := (type_after now first second hnode hgroup hmem).mp hkept
    rw [hm] at htypes
    exact (known_keepType_iff group.2 ⟨r, hmem, hknown⟩).mp htypes before row after heq htype
      ⟨r, hr, hknown⟩
  · intro h k ⟨e, he, hknown⟩ k' hk'
    obtain rfl := Option.some.inj hk'
    have hrow : (k, e) ∈ first.rows g := (first.perm g).symm.subset he
    have hgroup : (norm lower k, (first.rows g).filter fun row => norm lower row.1 = norm lower k) ∈
        groupsOf (fun row => norm lower row.1) (first.rows g) :=
      mem_groupsOf.mpr ⟨List.mem_map_of_mem hrow, rfl⟩
    have hmem : (k, e) ∈ (first.rows g).filter fun row => norm lower row.1 = norm lower k :=
      List.mem_filter.mpr ⟨hrow, decide_eq_true rfl⟩
    refine (type_after now first second he hgroup hmem).mpr ?_
    split
    next => exact (known_keepType_iff _ ⟨_, hmem, hknown⟩).mpr (h _ hgroup)
    next => exact hknown

theorem typesKept_step_iff (c : GraphCall τ) :
    TypesKept upper lower g c ↔ GroupsRecover lower g c := by
  cases c with
  | extractAndStore data compacting ts order =>
    exact iff_of_true (typesKept_extractAndStore data compacting ts order) trivial
  | mergeDuplicateEntities now first second => exact typesKept_merge_iff now first second

/-- No call of a run loses a known type exactly when in every merge the groups of
a norm recover. -/
theorem typesKept_iff (upper lower : Text → Text) (g : EntityGraph (Option τ))
    (calls : List (GraphCall τ)) :
    Throughout (graphStep upper lower) (TypesKept upper lower) g calls ↔
      Throughout (graphStep upper lower) (GroupsRecover lower) g calls :=
  throughout_congr (fun _ => True) (fun _ _ _ => trivial) (fun _ c _ => typesKept_step_iff c) trivial
    calls

/-- Where an entity is after a run, unless it was evicted. -/
def survivorAfter (upper lower : Text → Text) :
    EntityGraph (Option τ) → Text → List (GraphCall τ) → Option Text
  | _, k, [] => some k
  | g, k, c :: calls =>
    (survivorIn upper lower g k c).bind fun k' =>
      survivorAfter upper lower (graphStep upper lower g c) k' calls

/-- Then a type that is known at the beginning of a run is known at its end. -/
theorem hasKnown_run {calls : List (GraphCall τ)} {k' : Text}
    (hrecover : Throughout (graphStep upper lower) (GroupsRecover lower) g calls) (h : HasKnown g k)
    (hk' : survivorAfter upper lower g k calls = some k') :
    HasKnown (run (graphStep upper lower) g calls) k' := by
  induction calls generalizing g k with
  | nil =>
    obtain rfl := Option.some.inj hk'
    exact h
  | cons c calls ih =>
    obtain ⟨mid, hmid, hrest⟩ := Option.bind_eq_some_iff.mp hk'
    exact ih hrecover.2 (typesKept_step_iff c |>.mpr hrecover.1 k h mid hmid) hrest

/-- The entities in the order in which they were stored. -/
def asStored : Scan τ := ⟨PropertyGraph.nodes, fun _ => List.Perm.refl _⟩

/-- An answer with a concept, and with its plural without a type. -/
def dogAndDogs : Json :=
  .obj [("entities".toList, .arr [
    .obj [("name".toList, .str "Dog".toList), ("type".toList, .str "CONCEPT".toList)],
    .obj [("name".toList, .str "Dogs".toList)]])]

/-- The graph of a user at first. -/
def noEntities : EntityGraph (Option Nat) := ⟨[], [], by simp, by simp⟩

/-- What is stored of it. -/
def dogRows : List (EntityRow Nat) :=
  [("Dog".toList, ⟨some "CONCEPT".toList, some 1⟩), ("Dogs".toList, ⟨none, some 1⟩)]

/-- The plural is stored without a type. It is kept as the longer name, and the
type of the singular is lost. -/
theorem dogs_lose_type :
    ¬ Throughout (graphStep id lowerAscii) (TypesKept id lowerAscii) noEntities
      [.extractAndStore dogAndDogs false 1 [],
        .mergeDuplicateEntities (fun _ => 2) asStored asStored] := by
  intro h
  have hgroups : ∀ group ∈ groupsOf (fun row : EntityRow Nat => norm lowerAscii row.1)
      (extractAndStore id dogAndDogs false (some 1) [] noEntities).nodes, Recovers group.2 :=
    (typesKept_merge_iff _ asStored asStored).mp h.2.1
  have hstored : (extractAndStore id dogAndDogs false (some 1) [] noEntities).nodes = dogRows := rfl
  rw [hstored] at hgroups
  -- both have the same norm
  have hnorm : ∀ row ∈ dogRows, norm lowerAscii row.1 = "dog".toList := by decide
  have hgroup : dogRows = dogRows.filter fun row => norm lowerAscii row.1 = "dog".toList :=
    (List.filter_eq_self.mpr fun row hrow => decide_eq_true (hnorm row hrow)).symm
  have hkey : "dog".toList ∈ dogRows.map fun row => norm lowerAscii row.1 :=
    List.mem_map.mpr ⟨_, List.mem_cons_self, hnorm _ List.mem_cons_self⟩
  obtain ⟨r, hr, -⟩ := hgroups ("dog".toList, dogRows) (mem_groupsOf.mpr ⟨hkey, hgroup⟩) [_] _ [] rfl rfl
    ⟨_, List.mem_singleton.mpr rfl, by decide⟩
  exact absurd hr List.not_mem_nil

end Eidetic.Graph
