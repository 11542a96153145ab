import Eidetic.Memory.Recovery

/-!
# What the decay of the facts does to their scores

A compaction multiplies the salience of every fact by 0.95 and drops what has
become less than 0.05. A dropped fact has no entry, and the scoring takes a fact
without one for 1.0: the facts that had become the least important are ranked
above all that have faded. The decay lowers every score, and keeps the order,
exactly where it drops no fact of the sheet (`neverRaises_iff`).

The decay runs in a compaction, so only for a sheet of a hundred words or more;
the endpoint of the decay changes the salience of the row alone. What it does to
an entry is known from the entry: it is lowered and rounded, or it is dropped
(`kept_iff`), and `lookup_decay` says so of the stored dictionary. From that the
score of a fact is the lowered one, 1.0 as before if it has no entry, or 1.0
where it had less (`salienceOf_kept`, `salienceOf_absent`,
`salienceOf_dropped`).

The last case is reached by every fact with an entry: each cycle takes one of
the ten thousand units of the rounding off at least, so some cycle drops it
(`raised_in_the_end`).
-/

namespace Eidetic.Memory

open Eidetic.Lib Eidetic.Py Eidetic.Context

/-- `fact_saliences` as they are stored: one entry for a key, within its bounds. -/
structure FactSaliences where
  entries : Saliences
  nodup : (entries.map Prod.fst).Nodup
  inBounds : ∀ e ∈ entries, InBounds e.2

/-- `score_facts` gives a line a score. -/
def ScoredAt (content : Text) (saliences : Saliences) (line : Text) (score : Rat) : Prop :=
  (line, score) ∈ scoreFacts content saliences

theorem scoredAt_iff {content : Text} {saliences : Saliences} {line : Text} {score : Rat} :
    ScoredAt content saliences line score ↔
      line ∈ factLines content ∧ salienceOf saliences (strip line) = score := by
  unfold ScoredAt scoreFacts
  dsimp only
  rw [(List.perm_insertionSort _ _).mem_iff, List.mem_map]
  constructor
  · rintro ⟨l, hl, heq⟩
    obtain ⟨rfl, hscore⟩ := Prod.mk.inj heq
    exact ⟨hl, hscore⟩
  · rintro ⟨hl, rfl⟩
    exact ⟨line, hl, rfl⟩

/-- A decay raises no score, and does not put a fact with an entry behind one
that it was not behind. -/
structure NeverRaises (content : Text) (saliences : Saliences) : Prop where
  score : ∀ line before after, ScoredAt content saliences line before →
    ScoredAt content (decayFactSaliences saliences) line after → after ≤ before
  order : ∀ line other, line ∈ factLines content → other ∈ factLines content →
    (saliences.lookup (strip line)).isSome → (saliences.lookup (strip other)).isSome →
    salienceOf saliences (strip line) ≤ salienceOf saliences (strip other) →
    salienceOf (decayFactSaliences saliences) (strip line)
      ≤ salienceOf (decayFactSaliences saliences) (strip other)

/-- No fact of the sheet has an entry below the least salience that the decay keeps. -/
def KeepsEntries (content : Text) (saliences : Saliences) : Prop :=
  ∀ line ∈ factLines content, ∀ v, saliences.lookup (strip line) = some v → 999 / 19000 ≤ v

/-! ## One salience -/

theorem decaySalience_mono {x y : Rat} (h : x ≤ y) : decaySalience x ≤ decaySalience y :=
  round4_mono (max_le_max_right 0 (by linarith))

/-- The threshold of the decay, in terms of the salience before it. -/
theorem kept_iff (v : Rat) : 5 / 100 ≤ decaySalience v ↔ 999 / 19000 ≤ v := by
  -- at the bound the scaled value is 499.5, which is rounded to 500
  have hbound : decaySalience (999 / 19000) = 5 / 100 := by decide +kernel
  constructor
  · intro hkept
    by_contra hless
    have hlow : v * 95 / 100 < 4995 / 100000 := by linarith
    have hmax : max (v * 95 / 100) 0 < 4995 / 100000 := max_lt hlow (by norm_num)
    obtain ⟨k, hk⟩ := round4_grid (max (v * 95 / 100) 0)
    have hnear := (round4_near (max (v * 95 / 100) 0)).2
    unfold decaySalience at hkept
    rw [hk] at hnear hkept
    have hk500 : (k : Rat) < 500 := by linarith
    have hk500' : k < 500 := by exact_mod_cast hk500
    have hk499 : (k : Rat) ≤ 499 := by exact_mod_cast (by omega : k ≤ 499)
    linarith
  · intro hless
    calc (5 / 100 : Rat) = decaySalience (999 / 19000) := hbound.symm
      _ ≤ decaySalience v := decaySalience_mono hless

/-- What is kept is less than before. -/
theorem decaySalience_le {v : Rat} (h : 999 / 19000 ≤ v) : decaySalience v ≤ v := by
  have hnear := (round4_near (max (v * 95 / 100) 0)).2
  have hmax : max (v * 95 / 100) 0 = v * 95 / 100 := max_eq_left (by linarith)
  unfold decaySalience
  rw [hmax] at hnear ⊢
  linarith

/-! ## The entries -/

/-- The entry of a fact after a decay. -/
theorem lookup_decay {saliences : Saliences} (h : (saliences.map Prod.fst).Nodup) (key : Text) :
    (decayFactSaliences saliences).lookup key
      = (saliences.lookup key).bind fun v =>
          if 5 / 100 ≤ decaySalience v then some (decaySalience v) else none := by
  induction saliences with
  | nil => rfl
  | cons e rest ih =>
    obtain ⟨k, v⟩ := e
    obtain ⟨hk, hrest⟩ := List.nodup_cons.mp (show (k :: rest.map Prod.fst).Nodup from h)
    have hstep : decayFactSaliences ((k, v) :: rest)
        = (if 5 / 100 ≤ decaySalience v then [(k, decaySalience v)] else [])
          ++ decayFactSaliences rest := by
      unfold decayFactSaliences
      rw [List.filterMap_cons]
      by_cases hkept : 5 / 100 ≤ decaySalience v
      · simp only [if_pos hkept, List.singleton_append]
      · simp only [if_neg hkept, List.nil_append]
    by_cases hkey : key = k
    · subst hkey
      -- the key does not come again, so a dropped entry is gone
      have hnone : rest.lookup key = none := by
        rw [List.lookup_eq_none_iff]
        intro e he
        have hne : key ≠ e.1 := by
          rintro rfl
          exact hk (List.mem_map_of_mem he)
        simpa using hne
      rw [hstep, List.lookup_cons_self]
      by_cases hkept : 5 / 100 ≤ decaySalience v
      · simp [if_pos hkept]
      · simp only [if_neg hkept, List.nil_append, Option.bind_some]
        rw [ih hrest, hnone]
        rfl
    · rw [hstep, List.lookup_cons, beq_false_of_ne hkey]
      by_cases hkept : 5 / 100 ≤ decaySalience v
      · rw [if_pos hkept, List.singleton_append, List.lookup_cons, beq_false_of_ne hkey, ih hrest]
      · rw [if_neg hkept, List.nil_append, ih hrest]

theorem keys_decay_sublist (saliences : Saliences) :
    ((decayFactSaliences saliences).map Prod.fst).Sublist (saliences.map Prod.fst) := by
  induction saliences with
  | nil => exact List.Sublist.slnil
  | cons e rest ih =>
    unfold decayFactSaliences at ih ⊢
    rw [List.filterMap_cons]
    split
    next => exact ih.cons _
    next hkept =>
      split at hkept
      next =>
        obtain rfl := Option.some.inj hkept
        exact ih.cons_cons _
      next => exact absurd hkept (by simp)

/-- `decay_fact_saliences` of what is stored can be stored. -/
def FactSaliences.decay (s : FactSaliences) : FactSaliences where
  entries := decayFactSaliences s.entries
  nodup := s.nodup.sublist (keys_decay_sublist s.entries)
  inBounds := decayFactSaliences_inBounds s.inBounds

namespace FactSaliences

variable (s : FactSaliences) {content : Text}

/-- The score of a fact whose entry is kept. -/
theorem salienceOf_kept {key : Text} {v : Rat} (h : s.entries.lookup key = some v)
    (hkept : 999 / 19000 ≤ v) : salienceOf s.decay.entries key = decaySalience v := by
  show ((decayFactSaliences s.entries).lookup key).getD 1 = _
  rw [lookup_decay s.nodup, h, Option.bind_some, if_pos ((kept_iff v).mpr hkept)]
  rfl

/-- The score of a fact whose entry is dropped is that of one which never had any. -/
theorem salienceOf_dropped {key : Text} {v : Rat} (h : s.entries.lookup key = some v)
    (hdropped : v < 999 / 19000) : salienceOf s.decay.entries key = 1 := by
  have hno : ¬ 5 / 100 ≤ decaySalience v := fun hkept =>
    absurd ((kept_iff v).mp hkept) (not_le.mpr hdropped)
  show ((decayFactSaliences s.entries).lookup key).getD 1 = _
  rw [lookup_decay s.nodup, h, Option.bind_some, if_neg hno]
  rfl

theorem salienceOf_absent {key : Text} (h : s.entries.lookup key = none) :
    salienceOf s.decay.entries key = 1 := by
  show ((decayFactSaliences s.entries).lookup key).getD 1 = _
  rw [lookup_decay s.nodup, h]
  rfl

/-- A fact of the sheet whose entry is dropped is raised. -/
theorem not_neverRaises {line : Text} (hline : line ∈ factLines content) {v : Rat}
    (hv : s.entries.lookup (strip line) = some v) (hdropped : v < 999 / 19000) :
    ¬ NeverRaises content s.entries := by
  intro h
  have hafter := s.salienceOf_dropped hv hdropped
  have hbefore : salienceOf s.entries (strip line) = v := by
    unfold salienceOf
    rw [hv]
    rfl
  have hle := h.score line v 1 (scoredAt_iff.mpr ⟨hline, hbefore⟩)
    (scoredAt_iff.mpr ⟨hline, hafter⟩)
  linarith

/-- A decay raises no score and keeps the order exactly when no fact of the
sheet has an entry that it drops. -/
theorem neverRaises_iff : NeverRaises content s.entries ↔ KeepsEntries content s.entries := by
  constructor
  · intro h line hline v hv
    by_contra hless
    exact s.not_neverRaises hline hv (not_le.mp hless) h
  · intro h
    refine ⟨?_, ?_⟩
    · intro line before after hbefore hafter
      obtain ⟨hline, rfl⟩ := scoredAt_iff.mp hbefore
      obtain ⟨_, rfl⟩ := scoredAt_iff.mp hafter
      cases hv : s.entries.lookup (strip line) with
      | none =>
        have hone : salienceOf s.entries (strip line) = 1 := by
          unfold salienceOf
          rw [hv]
          rfl
        exact le_of_eq ((s.salienceOf_absent hv).trans hone.symm)
      | some v =>
        have hbefore : salienceOf s.entries (strip line) = v := by
          unfold salienceOf
          rw [hv]
          rfl
        have hkept := h line hline v hv
        rw [hbefore]
        exact le_trans (le_of_eq (s.salienceOf_kept hv hkept)) (decaySalience_le hkept)
    · intro line other hline hother hsome hsomeother hle
      obtain ⟨v, hv⟩ := Option.isSome_iff_exists.mp hsome
      obtain ⟨w, hw⟩ := Option.isSome_iff_exists.mp hsomeother
      have hvw : v ≤ w := by
        unfold salienceOf at hle
        rw [hv, hw] at hle
        exact hle
      calc salienceOf s.decay.entries (strip line) = decaySalience v :=
            s.salienceOf_kept hv (h line hline v hv)
        _ ≤ decaySalience w := decaySalience_mono hvw
        _ = salienceOf s.decay.entries (strip other) :=
            (s.salienceOf_kept hw (h other hother w hw)).symm

theorem lookup_decay_kept {key : Text} {v : Rat} (h : s.entries.lookup key = some v)
    (hkept : 999 / 19000 ≤ v) : s.decay.entries.lookup key = some (decaySalience v) := by
  show (decayFactSaliences s.entries).lookup key = _
  rw [lookup_decay s.nodup, h, Option.bind_some, if_pos ((kept_iff v).mpr hkept)]

/-- An entry of so many units is dropped after as many cycles at most: each
takes at least one unit off. -/
theorem dropped_of_units {key : Text} (k : Nat) :
    ∀ {s : FactSaliences}, s.entries.lookup key = some ((k : Rat) / 10000) →
      ∃ n w, (FactSaliences.decay^[n] s).entries.lookup key = some w ∧ w < 999 / 19000 := by
  induction k using Nat.strongRecOn with
  | ind k ih =>
    intro s h
    by_cases hkept : 999 / 19000 ≤ (k : Rat) / 10000
    · obtain ⟨m, hm⟩ := decaySalience_nat ((k : Rat) / 10000)
      have hnear := (round4_near (max ((k : Rat) / 10000 * 95 / 100) 0)).2
      have hmax : max ((k : Rat) / 10000 * 95 / 100) 0 = (k : Rat) / 10000 * 95 / 100 :=
        max_eq_left (by linarith)
      rw [hmax] at hnear
      have hless : (m : Rat) < k := by
        have hm' : round4 ((k : Rat) / 10000 * 95 / 100) = m / 10000 := by rw [← hm, ← hmax]; rfl
        rw [hm'] at hnear
        linarith
      have hnext := s.lookup_decay_kept h hkept
      rw [hm] at hnext
      obtain ⟨n, w, hw, hdropped⟩ := ih m (by exact_mod_cast hless) hnext
      exact ⟨n + 1, w, by rw [Function.iterate_succ_apply]; exact hw, hdropped⟩
    · exact ⟨0, _, h, not_le.mp hkept⟩

/-- A fact of the sheet that has an entry is raised by some cycle of the decay. -/
theorem raised_in_the_end {line : Text} (hline : line ∈ factLines content)
    (h : (s.entries.lookup (strip line)).isSome) :
    ∃ n, ¬ NeverRaises content (FactSaliences.decay^[n] s).entries := by
  obtain ⟨v, hv⟩ := Option.isSome_iff_exists.mp h
  have hdropped : ∃ n w, (FactSaliences.decay^[n] s).entries.lookup (strip line) = some w ∧
      w < 999 / 19000 := by
    by_cases hkept : 999 / 19000 ≤ v
    · -- one cycle puts the entry on the grid of four decimals
      obtain ⟨k, hk⟩ := decaySalience_nat v
      have hnext := s.lookup_decay_kept hv hkept
      rw [hk] at hnext
      obtain ⟨n, w, hw⟩ := dropped_of_units k hnext
      exact ⟨n + 1, w, hw⟩
    · exact ⟨0, v, hv, not_le.mp hkept⟩
  obtain ⟨n, w, hw, hlow⟩ := hdropped
  exact ⟨n, (FactSaliences.decay^[n] s).not_neverRaises hline hw hlow⟩

end FactSaliences

/-- A fact that has faded to 0.05. -/
def fadedSalience : FactSaliences where
  entries := [("likes tea".toList, 5 / 100)]
  nodup := by simp
  inBounds := by
    intro e he
    obtain rfl := List.mem_singleton.mp he
    exact ⟨by norm_num, by norm_num⟩

/-- The next decay puts it from 0.05 to 1. -/
theorem fadedSalience_raised :
    ¬ ∀ (content : Text) (s : FactSaliences), NeverRaises content s.entries := by
  intro h
  have hline : "likes tea".toList ∈ factLines "likes tea".toList := by decide
  have hlow : (5 / 100 : Rat) < 999 / 19000 := by norm_num
  exact fadedSalience.not_neverRaises hline rfl hlow (h _ _)

end Eidetic.Memory
