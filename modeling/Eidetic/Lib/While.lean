/-!
# `while` loops: returning, getting stuck, and running to the end

A `while cond: body` over a state type. `whileFuel` runs it against a bound
on the number of tests, so that a loop that never leaves is still a value
(`none` at every fuel); `Returns` says that some fuel is enough.

The two ways to decide `Returns`:
- `returns_of_measure`: a measure that every round decreases;
- `not_returns_of_stuck`: a round that changes nothing is repeated forever.

`runLoop` is the total form, for a loop whose measure is known: it needs no
fuel, and `whileFuel_runLoop` says it is the value the bounded loop finds.
-/

namespace Eidetic.Lib

variable {σ : Type} (cond : σ → Bool) (body : σ → σ)

/-- `while cond: body` from a state, cut off after `fuel` tests. -/
def whileFuel : Nat → σ → Option σ
  | 0, _ => none
  | fuel + 1, s => if cond s then whileFuel fuel (body s) else some s

/-- The loop leaves after finitely many rounds. -/
def Returns (s : σ) : Prop := ∃ fuel r, whileFuel cond body fuel s = some r

/-- `t` is the state at the start of some round (or at the exit) of the
loop entered at `s`. -/
inductive Reaches : σ → σ → Prop
  | start (s : σ) : Reaches s s
  | round {s t : σ} : Reaches s t → cond t = true → Reaches s (body t)

/-- Every round the loop makes from `s` moves `pos` forward. -/
def Advances (pos : σ → Nat) (s : σ) : Prop :=
  ∀ t, Reaches cond body s t → cond t = true → pos t < pos (body t)

variable {cond body}

theorem whileFuel_round {s : σ} (h : cond s = true) (fuel : Nat) :
    whileFuel cond body (fuel + 1) s = whileFuel cond body fuel (body s) := by
  rw [whileFuel, if_pos h]

theorem whileFuel_exit {s : σ} (h : cond s = false) (fuel : Nat) :
    whileFuel cond body (fuel + 1) s = some s := by
  rw [whileFuel, if_neg (by simp [h])]

theorem returns_of_exit {s : σ} (h : cond s = false) : Returns cond body s :=
  ⟨1, s, whileFuel_exit h 0⟩

/-- Inside the loop, returning is returning from the next round. -/
theorem returns_round_iff {s : σ} (h : cond s = true) :
    Returns cond body s ↔ Returns cond body (body s) := by
  constructor
  · rintro ⟨fuel, r, hr⟩
    cases fuel with
    | zero => exact absurd hr (by simp [whileFuel])
    | succ fuel => exact ⟨fuel, r, by rw [← whileFuel_round h]; exact hr⟩
  · rintro ⟨fuel, r, hr⟩
    exact ⟨fuel + 1, r, by rw [whileFuel_round h]; exact hr⟩

/-- A round that leaves the state as it was is repeated forever. -/
theorem not_returns_of_stuck {s : σ} (h : cond s = true) (hb : body s = s) :
    ¬ Returns cond body s := by
  rintro ⟨fuel, r, hr⟩
  induction fuel with
  | zero => exact absurd hr (by simp [whileFuel])
  | succ fuel ih =>
    rw [whileFuel_round h, hb] at hr
    exact ih hr

/-- A measure that every round decreases bounds the number of rounds. -/
theorem returns_of_measure (μ : σ → Nat)
    (hdec : ∀ s, cond s = true → μ (body s) < μ s) :
    ∀ (s : σ), Returns cond body s := by
  intro s
  induction hm : μ s using Nat.strongRecOn generalizing s with
  | ind m ih =>
    cases hc : cond s with
    | false => exact returns_of_exit hc
    | true =>
      rw [returns_round_iff hc]
      exact ih (μ (body s)) (by have := hdec s hc; omega) (body s) rfl

/-- The loop with a known measure, run to its end. -/
def runLoop (cond : σ → Bool) (body : σ → σ) (μ : σ → Nat)
    (hdec : ∀ s, cond s = true → μ (body s) < μ s) (s : σ) : σ :=
  if _h : cond s = true then runLoop cond body μ hdec (body s) else s
termination_by μ s
decreasing_by exact hdec s _h

/-- The bounded loop finds what `runLoop` computes. -/
theorem whileFuel_runLoop (μ : σ → Nat)
    (hdec : ∀ s, cond s = true → μ (body s) < μ s) (s : σ) :
    ∃ fuel, whileFuel cond body fuel s = some (runLoop cond body μ hdec s) := by
  induction hm : μ s using Nat.strongRecOn generalizing s with
  | ind m ih =>
    unfold runLoop
    split
    next hc =>
      obtain ⟨fuel, hfuel⟩ :=
        ih (μ (body s)) (by have := hdec s hc; omega) (body s) rfl
      exact ⟨fuel + 1, by rw [whileFuel_round hc]; exact hfuel⟩
    next hc => exact ⟨1, whileFuel_exit (by simpa using hc) 0⟩

end Eidetic.Lib
