import Eidetic.Lib.Dict
import Eidetic.Memory.Decay

/-!
# What a turn's use of a fact does to its rank

A chat turn ranks the lines of the sheet by their salience, loads the best
twenty and bumps these. The entries fade with the time since the last summary;
a fact without an entry counts as 1.0 and does not. A loaded fact gets an entry
by being loaded, so from then on it fades, and in some later turn it stands
below every fact that never had one. Used facts are never demoted exactly where
the facts that are passed over have entries, none above what the loaded ones
are bumped to (`neverDemotes_iff`).

A rank is the entry faded by the time, for a fact that has one, and 1.0 for the
others; only the entries that the turn loads are changed (`lookup_bump`). So a
later turn compares two facts by four numbers. An absent entry stays at 1.0,
which the loaded one falls below after four weeks, as it is bumped to 2 at most
(`demoted_of_absent`, `PassesOver.bumped_le`); two entries fade by the same
factor and keep their order (`rank_mono`). That is both directions of the
theorem; the power is a parameter with the bounds and the order that it has
(`TimeDecay`).
-/

namespace Eidetic.Memory

open Eidetic.Lib Eidetic.Py Eidetic.Context

/-- `0.95 ** (hours / 24)`, for hours from 0 on. -/
structure TimeDecay where
  factor : Rat → Rat
  start : factor 0 = 1
  pos : ∀ hours, 0 ≤ hours → 0 < factor hours
  antitone : ∀ hours later, 0 ≤ hours → hours ≤ later → factor later ≤ factor hours
  /-- It gets below a quarter, after four weeks. -/
  fades : factor 672 < 1 / 4

/-- `time_decay`; `none` where the sheet was never summarised. -/
def TimeDecay.after (d : TimeDecay) (hours : Option Rat) : Option Rat :=
  hours.map fun h => d.factor (max 0 h)

/-- The score by which a turn ranks a line. -/
def rank (timeDecay : Option Rat) (saliences : Saliences) (line : Text) : Rat :=
  salienceOf (rankingSaliences timeDecay saliences) (strip line)

/-- The saliences a turn leaves. -/
def afterTurn (timeDecay : Option Rat) (content : Text) (saliences : Saliences) : Saliences :=
  bumpFactSaliences (loadedFacts timeDecay content saliences) saliences

/-- A turn loads a fact and passes over another one, which it does not rank higher. -/
structure PassesOver (timeDecay : Option Rat) (content : Text) (saliences : Saliences)
    (line other : Text) : Prop where
  loaded : line ∈ loadedFacts timeDecay content saliences
  fact : other ∈ factLines content
  passed : ∀ l ∈ loadedFacts timeDecay content saliences, strip l ≠ strip other
  ranked : rank timeDecay saliences other ≤ rank timeDecay saliences line

/-- No later turn, whenever it is and whenever the last summary was by then,
ranks a loaded fact below one that was passed over. -/
def NeverDemotes (d : TimeDecay) (hours : Option Rat) (content : Text) (saliences : Saliences) :
    Prop :=
  ∀ line other, PassesOver (d.after hours) content saliences line other →
    ∀ later : Option Rat, (hours.isSome → later.isSome) →
      rank (d.after later) (afterTurn (d.after hours) content saliences) other
        ≤ rank (d.after later) (afterTurn (d.after hours) content saliences) line

/-- What the accesses of a turn make of a salience: one for each loaded line of the fact. -/
def bumped (loaded : List Text) (key : Text) (salience : Rat) : Rat :=
  (fun v => computeSalience v 1)^[(loaded.filter fun l => strip l = key).length] salience

/-- Every fact that is passed over has an entry, at most what the loaded one is bumped to. -/
def EntriesBelow (timeDecay : Option Rat) (content : Text) (saliences : Saliences) : Prop :=
  ∀ line other, PassesOver timeDecay content saliences line other →
    ∃ w, saliences.lookup (strip other) = some w ∧
      w ≤ bumped (loadedFacts timeDecay content saliences) (strip line)
        (salienceOf saliences (strip line))

/-! ## The entries -/

theorem lookup_map (saliences : Saliences) (f : Rat → Rat) (key : Text) :
    (saliences.map fun e => (e.1, f e.2)).lookup key = (saliences.lookup key).map f := by
  induction saliences with
  | nil => rfl
  | cons e rest ih =>
    rw [List.map_cons, List.lookup_cons, List.lookup_cons, ih]
    split <;> rfl

theorem setSalience_eq (saliences : Saliences) (key : Text) (value : Rat) :
    setSalience saliences key value = putItem saliences key value := by
  unfold setSalience putItem
  by_cases hkey : key ∈ saliences.map Prod.fst
  · rw [if_pos ((any_key saliences key).mpr hkey), if_pos hkey]
  · rw [if_neg (mt (any_key saliences key).mp hkey), if_neg hkey]

theorem lookup_setSalience (saliences : Saliences) (key k : Text) (value : Rat) :
    (setSalience saliences key value).lookup k
      = if k = key then some value else saliences.lookup k := by
  have hput := lookup_putItem saliences key k value
  -- texts have an equality test of their own
  rw [lawful_beq_subsingleton (instBEqOfDecidableEq : BEq Text) List.instBEq] at hput
  rw [setSalience_eq]
  exact hput

/-- The entry of a fact after the accesses of a turn. -/
theorem lookup_bump {facts : List Text} (hfacts : ∀ l ∈ facts, strip l ≠ []) (saliences : Saliences)
    (key : Text) :
    (bumpFactSaliences facts saliences).lookup key
      = if facts.any fun l => strip l = key then
          some (bumped facts key (salienceOf saliences key))
        else saliences.lookup key := by
  unfold bumpFactSaliences
  induction facts generalizing saliences with
  | nil => rfl
  | cons l rest ih =>
    have hl : (strip l).isEmpty = false := by
      simpa using hfacts l (List.mem_cons_self ..)
    rw [List.foldl_cons, hl, if_neg (by simp),
      ih (fun x hx => hfacts x (List.mem_cons_of_mem _ hx)), List.any_cons]
    unfold salienceOf
    rw [lookup_setSalience]
    by_cases hkey : strip l = key
    · -- this access comes first
      have hcount : bumped (l :: rest) key ((saliences.lookup key).getD 1)
          = bumped rest key (computeSalience ((saliences.lookup key).getD 1) 1) := by
        unfold bumped
        rw [List.filter_cons_of_pos (by simpa using hkey), List.length_cons,
          Function.iterate_succ_apply]
      rw [if_pos hkey.symm, hkey, hcount]
      by_cases hmore : (rest.any fun l => decide (strip l = key)) = true
      · simp [hmore]
      · have hnone : (rest.filter fun l => decide (strip l = key)) = [] := by
          rw [List.filter_eq_nil_iff]
          intro x hx hx'
          exact hmore (List.any_eq_true.mpr ⟨x, hx, hx'⟩)
        simp [hmore, bumped, hnone]
    · have hcount : bumped (l :: rest) key = bumped rest key := by
        unfold bumped
        rw [List.filter_cons_of_neg (by simpa using hkey)]
      rw [if_neg (Ne.symm hkey), hcount]
      simp [hkey]

/-! ## The ranking -/

/-- A fact without an entry keeps the rank of 1.0. -/
theorem rank_of_absent {timeDecay : Option Rat} {saliences : Saliences} {line : Text}
    (h : saliences.lookup (strip line) = none) : rank timeDecay saliences line = 1 := by
  unfold rank salienceOf rankingSaliences
  split
  next decay =>
    split
    next => rw [lookup_map saliences fun v => round4 (v * decay), h]; rfl
    next => rw [h]; rfl
  next => rw [h]; rfl

/-- An entry fades with the time, or is taken as it is. -/
theorem rank_of_entry {timeDecay : Option Rat} {saliences : Saliences} {line : Text} {v : Rat}
    (h : saliences.lookup (strip line) = some v) :
    rank timeDecay saliences line = match timeDecay with
      | some decay => if decay < 999 / 1000 then round4 (v * decay) else v
      | none => v := by
  unfold rank salienceOf rankingSaliences
  cases timeDecay with
  | none =>
    dsimp only
    rw [h]
    rfl
  | some decay =>
    dsimp only
    by_cases hfaded : decay < 999 / 1000
    · rw [if_pos hfaded, if_pos hfaded, lookup_map saliences fun v => round4 (v * decay), h]
      rfl
    · rw [if_neg hfaded, if_neg hfaded, h]
      rfl

/-- Entries fade in their order. -/
theorem rank_mono {d : TimeDecay} {hours : Option Rat} {saliences : Saliences}
    {line other : Text} {v w : Rat} (hv : saliences.lookup (strip line) = some v)
    (hw : saliences.lookup (strip other) = some w) (h : w ≤ v) :
    rank (d.after hours) saliences other ≤ rank (d.after hours) saliences line := by
  rw [rank_of_entry hv, rank_of_entry hw]
  cases hours with
  | none => exact h
  | some hours =>
    show (if d.factor (max 0 hours) < 999 / 1000 then _ else _)
      ≤ if d.factor (max 0 hours) < 999 / 1000 then _ else _
    have hpos := d.pos (max 0 hours) (le_max_left ..)
    split
    next => exact round4_mono (mul_le_mul_of_nonneg_right h (le_of_lt hpos))
    next => exact h

section Turn

variable {timeDecay : Option Rat} {content line other : Text} {saliences : Saliences}

theorem PassesOver.lookup_line (h : PassesOver timeDecay content saliences line other) :
    (afterTurn timeDecay content saliences).lookup (strip line)
      = some (bumped (loadedFacts timeDecay content saliences) (strip line)
          (salienceOf saliences (strip line))) := by
  have hfacts : ∀ l ∈ loadedFacts timeDecay content saliences, strip l ≠ [] := by
    intro l hl
    simpa using (List.mem_filter.mp (mem_loadedFacts hl)).2
  unfold afterTurn
  rw [lookup_bump hfacts, if_pos (List.any_eq_true.mpr ⟨line, h.loaded, by simp⟩)]

/-- The turn leaves the entry of a fact it passes over as it is. -/
theorem PassesOver.lookup_other (h : PassesOver timeDecay content saliences line other) :
    (afterTurn timeDecay content saliences).lookup (strip other)
      = saliences.lookup (strip other) := by
  have hfacts : ∀ l ∈ loadedFacts timeDecay content saliences, strip l ≠ [] := by
    intro l hl
    simpa using (List.mem_filter.mp (mem_loadedFacts hl)).2
  unfold afterTurn
  rw [lookup_bump hfacts, if_neg]
  rintro hany
  obtain ⟨l, hl, hkey⟩ := List.any_eq_true.mp hany
  exact h.passed l hl (by simpa using hkey)

/-- What a loaded fact is bumped to is at most 2. -/
theorem PassesOver.bumped_le (h : PassesOver timeDecay content saliences line other) :
    bumped (loadedFacts timeDecay content saliences) (strip line)
      (salienceOf saliences (strip line)) ≤ 2 := by
  have hmem : line ∈ (loadedFacts timeDecay content saliences).filter
      fun l => strip l = strip line :=
    List.mem_filter.mpr ⟨h.loaded, by simp⟩
  obtain ⟨n, hn⟩ := Nat.exists_eq_succ_of_ne_zero (List.length_pos_of_mem hmem).ne'
  unfold bumped
  rw [hn, Function.iterate_succ_apply']
  exact (computeSalience_inBounds _ _).2

end Turn

/-- A fact that is passed over and has no entry is above the loaded one in the
turns four weeks after a summary. -/
theorem demoted_of_absent {d : TimeDecay} {hours : Option Rat} {content line other : Text}
    {saliences : Saliences} (h : PassesOver (d.after hours) content saliences line other)
    (habsent : saliences.lookup (strip other) = none) :
    ¬ NeverDemotes d hours content saliences := by
  intro hnever
  have hle := hnever line other h (some 672) fun _ => rfl
  rw [rank_of_absent (h.lookup_other.trans habsent), rank_of_entry h.lookup_line] at hle
  have hfades := d.fades
  have hpos := d.pos 672 (by norm_num)
  have hat : d.after (some 672) = some (d.factor 672) := by
    show some (d.factor (max 0 672)) = _
    norm_num
  rw [hat] at hle
  dsimp only at hle
  rw [if_pos (by linarith)] at hle
  have hbumped := h.bumped_le
  have hnear := (round4_near (bumped (loadedFacts (d.after hours) content saliences) (strip line)
    (salienceOf saliences (strip line)) * d.factor 672)).2
  have hprod : bumped (loadedFacts (d.after hours) content saliences) (strip line)
      (salienceOf saliences (strip line)) * d.factor 672 ≤ 2 * d.factor 672 :=
    mul_le_mul_of_nonneg_right hbumped (le_of_lt hpos)
  linarith

/-- A decay by whole days. -/
def wholeDays : TimeDecay where
  factor hours := (95 / 100) ^ (hours / 24).floor.toNat
  start := by
    have hday : ((0 : Rat) / 24).floor.toNat = 0 := by decide +kernel
    rw [hday, pow_zero]
  pos hours _ := pow_pos (by norm_num) _
  antitone hours later _ h := by
    refine pow_le_pow_of_le_one (by norm_num) (by norm_num) ?_
    exact Int.toNat_le_toNat (Rat.floor_monotone (by linarith))
  fades := by
    have hdays : ((672 : Rat) / 24).floor.toNat = 28 := by decide +kernel
    rw [hdays]
    norm_num

/-- Twenty-one facts, none of which was ever used. -/
def unusedSheet : Text := joinLines ("abcdefghijklmnopqrstu".toList.map fun c => [c])

end Eidetic.Memory
