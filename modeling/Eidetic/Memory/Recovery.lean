import Eidetic.Memory.Salience

/-!
# What the salience of a sheet recovers from

An access multiplies the salience by 1.1 and rounds it to four decimals. From
0.0005 on that adds at least one unit, so that enough accesses save the sheet
from being cleared; below, rounding takes the growth away again and every
compaction of a sheet of a hundred words clears it (`recovers_iff`). A hard
reset and a cleared sheet leave the salience at zero.

The invariant is `OnGrid`: a salience has four decimals, or it is the sum with
0.1 that the writing of a fact and a compaction leave, which is far above the
limit. One access brings any salience to four decimals (`computeSalience_nat`),
so the growth is counted in whole units from there on (`accesses_grow`), and
below the limit there are only the five values from which an access does not
move (`computeSalience_trapped`).
-/

namespace Eidetic.Memory

open Eidetic.Lib Eidetic.Py

/-- Chat turns, one after another. -/
def accesses (timeDecays : List (Option Rat)) : List Use := timeDecays.map .access

/-- After so many accesses a compaction does not clear the sheet. -/
def Recovers (s : Scored) : Prop :=
  ∃ n, ∀ timeDecays, timeDecays.length = n →
    ∀ row, (run Scored.step s (accesses timeDecays)).history.row = some row → ¬ Clears row

/-- Every salience is a whole number of units of four decimals, or the sum of
a salience and 0.1. -/
def OnGrid (s : Scored) : Prop :=
  ∀ row, s.history.row = some row → (∃ k : Nat, row.salience = k / 10000) ∨ 1 / 20 ≤ row.salience

/-- A compaction clears a sheet exactly where it is said to. -/
theorem compactMemory_clears {row : MemoryRow} (h : Clears row) (answer : Text → Option Text) :
    compactMemory answer (some row) = some
      { row with
        content := [], projectSummary := some [], version := row.version + 1
        salience := 0, confidence := 0 } := by
  obtain ⟨hcontent, hwords, hlow⟩ := h
  unfold compactMemory
  dsimp only
  rw [if_neg, if_pos hlow]
  rintro (hempty | hshort)
  · exact hcontent (List.isEmpty_iff.mp hempty)
  · exact absurd hwords (by omega)

/-! ## The grid -/

theorem round4_nat {x : Rat} (h : 0 ≤ x) : ∃ k : Nat, round4 x = k / 10000 := by
  obtain ⟨k, hk⟩ := round4_grid x
  obtain ⟨hlow, _⟩ := round4_near x
  rw [hk] at hlow
  have hk0 : (-1 : Rat) < k := by linarith
  have hk0' : (-1 : Int) < k := by exact_mod_cast hk0
  obtain ⟨n, rfl⟩ := Int.eq_ofNat_of_zero_le (by omega : 0 ≤ k)
  exact ⟨n, by rw [hk]; push_cast; rfl⟩

theorem computeSalience_nat (base : Rat) (count : Nat) :
    ∃ k : Nat, computeSalience base count = k / 10000 :=
  round4_nat (le_min (le_max_right _ _) (by norm_num))

theorem decaySalience_nat (salience : Rat) : ∃ k : Nat, decaySalience salience = k / 10000 :=
  round4_nat (le_max_right _ _)

/-- A sum with 0.1 is no small salience. -/
theorem tenth_le_addDouble {s : Rat} (h : 0 ≤ s) : 1 / 20 ≤ addDouble s (1 / 10) := by
  have hzero : 1 / 20 ≤ addDouble 0 (1 / 10) := by decide +kernel
  exact hzero.trans (addDouble_mono (le_refl 0) (by norm_num) h)

theorem onGrid_step {s : Scored} (h : OnGrid s) (use : Use) : OnGrid (s.step use) := by
  intro row hrow
  cases use with
  | operate op =>
    rcases step_row_cases hrow with hold | hnew
    · exact h row hold
    · cases hnew with
      | kept old hold hsalience _ => exact hsalience ▸ h old hold
      | inserted hsalience _ =>
        right
        rcases hsalience with hsalience | hsalience
        · rw [hsalience]
          norm_num
        · rw [hsalience]
          norm_num
      | fact old body _ hold hsalience _ =>
        right
        rw [hsalience]
        refine tenth_le_addDouble ?_
        rcases h old hold with ⟨k, hk⟩ | hlarge
        · rw [hk]
          positivity
        · linarith
      | cleared hsalience _ => exact Or.inl ⟨0, by rw [hsalience]; norm_num⟩
      | compacted old hold hsalience _ =>
        right
        obtain ⟨k, hk⟩ := decaySalience_nat old.salience
        rw [hsalience, hk]
        exact le_min (tenth_le_addDouble (by positivity)) (by norm_num)
  | access timeDecay =>
    unfold Scored.step at hrow
    dsimp only at hrow
    split at hrow
    next =>
      obtain ⟨old, _, rfl⟩ := Bounded.withSalience hrow
      exact Or.inl (computeSalience_nat _ _)
    next => exact h row hrow
  | decayMemory =>
    obtain ⟨old, _, rfl⟩ := Bounded.withSalience hrow
    exact Or.inl (decaySalience_nat _)

theorem onGrid_run (uses : List Use) : OnGrid (run Scored.step {} uses) :=
  run_preserves OnGrid (fun _ use h => onGrid_step h use) (fun _ h => absurd h (by simp)) uses

/-! ## Accesses -/

/-- The tie: five and a half units round to six. -/
theorem computeSalience_five : computeSalience (5 / 10000) 1 = 6 / 10000 := by decide +kernel

/-- From five units on an access adds at least one, up to the limit. -/
theorem computeSalience_grows {k : Nat} (h : 5 ≤ k) :
    ∃ k' : Nat, computeSalience (k / 10000) 1 = k' / 10000 ∧ (k + 1 ≤ k' ∨ k' = 20000) := by
  obtain ⟨k', hk'⟩ := computeSalience_nat (k / 10000) 1
  refine ⟨k', hk', ?_⟩
  by_cases hfive : k = 5
  · have hsix : computeSalience ((5 : Nat) / 10000) 1 = 6 / 10000 := computeSalience_five
    rw [hfive, hsix] at hk'
    have hsame : (k' : Rat) = 6 := by linarith
    have hsame' : k' = 6 := by exact_mod_cast hsame
    omega
  · have hsix : (6 : Rat) ≤ k := by exact_mod_cast (by omega : 6 ≤ k)
    have hraw : (k : Rat) / 10000 * (1 + (min 1 10 : Nat) * (1 / 10)) = 11 * k / 100000 := by
      norm_num
      linarith
    unfold computeSalience at hk'
    dsimp only at hk'
    rw [hraw, max_eq_left (by linarith)] at hk'
    by_cases hlimit : (2 : Rat) ≤ 11 * k / 100000
    · rw [min_eq_right hlimit] at hk'
      have htwo : round4 2 = 20000 / 10000 := by decide +kernel
      rw [htwo] at hk'
      have hsame : (k' : Rat) = 20000 := by linarith
      exact Or.inr (by exact_mod_cast hsame)
    · rw [min_eq_left (le_of_lt (not_le.mp hlimit))] at hk'
      have hnear := (round4_near (11 * k / 100000)).1
      rw [hk'] at hnear
      have hmore : (k : Rat) < k' := by linarith
      have hmore' : k < k' := by exact_mod_cast hmore
      exact Or.inl hmore'

/-- Below five units rounding takes the growth away. -/
theorem computeSalience_trapped {k : Nat} (h : k < 5) :
    computeSalience (k / 10000) 1 = k / 10000 := by
  have hall : ∀ k < 5, computeSalience ((k : Nat) / 10000) 1 = (k : Nat) / 10000 := by
    decide +kernel
  exact hall k h

theorem access_row {s : Scored} {row : MemoryRow} (hrow : s.history.row = some row)
    (timeDecay : Option Rat) :
    (s.step (.access timeDecay)).history.row
      = some { row with salience := computeSalience row.salience 1 } := by
  unfold Scored.step
  dsimp only
  rw [hrow]
  show s.history.row.map _ = _
  rw [hrow]
  rfl

/-- What so many accesses make of a salience of five units or more. -/
theorem accesses_grow {s : Scored} {row : MemoryRow} (hrow : s.history.row = some row) {k : Nat}
    (hk : row.salience = k / 10000) (hfive : 5 ≤ k) (timeDecays : List (Option Rat)) :
    ∃ k' : Nat, min (k + timeDecays.length) 20000 ≤ k' ∧
      (run Scored.step s (accesses timeDecays)).history.row
        = some { row with salience := k' / 10000 } := by
  induction timeDecays generalizing s row k with
  | nil => exact ⟨k, Nat.min_le_left .., by rw [← hk]; exact hrow⟩
  | cons timeDecay rest ih =>
    obtain ⟨m, hm, hgrows⟩ := computeSalience_grows hfive
    have hnext := access_row hrow timeDecay
    rw [hk, hm] at hnext
    obtain ⟨k', hk', hlast⟩ := ih hnext rfl (by omega)
    refine ⟨k', ?_, hlast⟩
    rw [List.length_cons]
    omega

theorem accesses_trapped {s : Scored} {row : MemoryRow} (hrow : s.history.row = some row) {k : Nat}
    (hk : row.salience = k / 10000) (hlow : k < 5) (timeDecays : List (Option Rat)) :
    (run Scored.step s (accesses timeDecays)).history.row = some row := by
  induction timeDecays generalizing s with
  | nil => exact hrow
  | cons timeDecay rest ih =>
    have hnext := access_row hrow timeDecay
    rw [hk, computeSalience_trapped hlow, ← hk] at hnext
    exact ih hnext

/-- A sheet of a hundred words with less than five units is cleared, however often it is used. -/
theorem trapped {s : Scored} {row : MemoryRow} (hrow : s.history.row = some row) {k : Nat}
    (hk : row.salience = k / 10000) (hlow : k < 5)
    (hwords : 100 ≤ (words (strip row.content)).length) : ¬ Recovers s := by
  rintro ⟨n, hn⟩
  refine hn (List.replicate n none) (List.length_replicate ..) row
    (accesses_trapped hrow hk hlow _) ⟨?_, hwords, ?_⟩
  · rintro hempty
    rw [hempty] at hwords
    exact absurd hwords (by decide)
  · have hk4 : (k : Rat) ≤ 4 := by exact_mod_cast (by omega : k ≤ 4)
    have hle : max (row.salience * 95 / 100) 0 ≤ 1 / 1000 :=
      max_le (by rw [hk]; linarith) (by norm_num)
    have hnear := (round4_near (max (row.salience * 95 / 100) 0)).2
    unfold decaySalience
    linarith

/-- The first access brings a salience of five units or more to at least six. -/
theorem access_large {salience : Rat} (h : 5 / 10000 ≤ salience) :
    ∃ k : Nat, computeSalience salience 1 = k / 10000 ∧ 5 ≤ k := by
  obtain ⟨k, hk⟩ := computeSalience_nat salience 1
  refine ⟨k, hk, ?_⟩
  have hsix := computeSalience_five
  have hmono : computeSalience (5 / 10000) 1 ≤ computeSalience salience 1 := by
    unfold computeSalience
    dsimp only
    exact round4_mono (min_le_min_right _ (max_le_max_right _ (by gcongr)))
  rw [hsix, hk] at hmono
  have hk6 : (6 : Rat) ≤ k := by linarith
  have hk6' : 6 ≤ k := by exact_mod_cast hk6
  omega

/-- After some four thousand accesses no salience of 0.0005 or more is cleared. -/
theorem recovers_of_five {s : Scored} {row : MemoryRow} (hrow : s.history.row = some row)
    (hfive : 5 / 10000 ≤ row.salience) : Recovers s := by
  refine ⟨4001, ?_⟩
  intro timeDecays hlength new hnew hclears
  obtain ⟨timeDecay, rest, rfl⟩ := List.exists_cons_of_length_eq_add_one hlength
  obtain ⟨k, hk, hfirst⟩ := access_large hfive
  have hnext := access_row hrow timeDecay
  rw [hk] at hnext
  obtain ⟨k', hk', hlast⟩ := accesses_grow hnext rfl hfirst rest
  have hall : (run Scored.step s (accesses (timeDecay :: rest))).history.row
      = some { row with salience := k' / 10000 } := hlast
  rw [hnew] at hall
  obtain rfl := Option.some.inj hall
  rw [List.length_cons] at hlength
  have hmany : (4000 : Rat) ≤ k' := by exact_mod_cast (by omega : 4000 ≤ k')
  have hlow := hclears.2.2
  have hnear := (round4_near (max ((k' : Rat) / 10000 * 95 / 100) 0)).1
  have hge := le_max_left ((k' : Rat) / 10000 * 95 / 100) 0
  change round4 (max ((k' : Rat) / 10000 * 95 / 100) 0) < 3 / 10 at hlow
  linarith

/-- A sheet recovers, in any state a run reaches, exactly when it is short or
its salience is at least 0.0005. -/
theorem recovers_iff (uses : List Use) :
    Recovers (run Scored.step {} uses) ↔
      ∀ row, (run Scored.step {} uses).history.row = some row →
        100 ≤ (words (strip row.content)).length → 5 / 10000 ≤ row.salience := by
  constructor
  · intro hrecovers row hrow hwords
    by_contra hlow
    rcases onGrid_run uses row hrow with ⟨k, hk⟩ | hlarge
    · refine trapped hrow hk ?_ hwords hrecovers
      rw [hk] at hlow
      have hk5 : (k : Rat) < 5 := by linarith
      exact_mod_cast hk5
    · linarith
  · intro h
    cases hrow : (run Scored.step {} uses).history.row with
    | none =>
      refine ⟨0, ?_⟩
      intro timeDecays hlength row hnone
      obtain rfl := List.length_eq_zero_iff.mp hlength
      exact absurd (hrow.symm.trans hnone) (by simp)
    | some row =>
      by_cases hwords : 100 ≤ (words (strip row.content)).length
      · exact recovers_of_five hrow (h row hrow hwords)
      · refine ⟨0, ?_⟩
        intro timeDecays hlength new hnew hclears
        obtain rfl := List.length_eq_zero_iff.mp hlength
        obtain rfl : row = new := Option.some.inj (hrow.symm.trans hnew)
        exact hwords hclears.2.1

/-- A sheet of a hundred words, written after a hard reset. -/
def rewritten : List Use :=
  [.operate (.writeMemoryFact "likes tea".toList), .operate .hardReset,
    .operate (.writeMemory (joinWords (List.replicate 100 "tea".toList)) [])]

theorem rewritten_trapped : ¬ ∀ uses, Recovers (run Scored.step {} uses) := by
  intro h
  have hrow : (run Scored.step {} rewritten).history.row.map
      (fun row => (row.salience, (words (strip row.content)).length)) = some (0, 100) := by
    decide
  obtain ⟨row, hrow, hvalues⟩ := Option.map_eq_some_iff.mp hrow
  obtain ⟨hsalience, hwords⟩ := Prod.mk.inj hvalues
  exact trapped (k := 0) hrow (by rw [hsalience]; norm_num) (by omega) (by omega) (h rewritten)

end Eidetic.Memory
