import Mathlib.Data.List.Pairwise
import Mathlib.Order.Lattice

/-!
# A window over a sequence of events

Events come one at a time, and some are let through. When each that is let
through inside a window has few events of the window up to it, those that are
let through are few in the window: the last of them has all others before it.
-/

namespace Eidetic.Lib

variable {γ α : Type*} [LinearOrder α] {time : γ → α}

/-- In an increasing sequence all events up to one are those before it and itself. -/
theorem filter_le_eq {before after : List γ} {c : γ}
    (h : (before ++ c :: after).Pairwise fun x y => time x < time y) :
    ((before ++ c :: after).filter fun e => time e ≤ time c) = before ++ [c] := by
  rw [List.pairwise_append, List.pairwise_cons] at h
  obtain ⟨_, ⟨hafter, _⟩, hbefore⟩ := h
  rw [List.filter_append, List.filter_eq_self.mpr, List.filter_cons_of_pos (by simp),
    List.filter_eq_nil_iff.mpr]
  · intro e he
    simpa using hafter e he
  · intro e he
    simpa using le_of_lt (hbefore e he c (List.mem_cons_self ..))

/-- A window has no more events that are let through than it has events up to one of them. -/
theorem length_window_le {events admitted : List γ} {a b : α} {n : Nat}
    (hevents : events.Pairwise fun x y => time x < time y) (hsub : admitted.Sublist events)
    (hbound : ∀ before c after, events = before ++ c :: after → c ∈ admitted → a < time c →
      time c ≤ b → ((before ++ [c]).filter fun e => a < time e).length ≤ n) :
    (admitted.filter fun e => a < time e ∧ time e ≤ b).length ≤ n := by
  generalize hinside : (admitted.filter fun e => a < time e ∧ time e ≤ b) = inside
  have hinsideSub : inside.Sublist events := hinside ▸ (List.filter_sublist.trans hsub)
  rcases List.eq_nil_or_concat inside with rfl | ⟨init, c, hconcat⟩
  · exact Nat.zero_le n
  · have hc : c ∈ inside := by simp [hconcat]
    obtain ⟨hadmitted, hwindow⟩ := List.mem_filter.mp (hinside ▸ hc)
    obtain ⟨hbegin, hend⟩ : a < time c ∧ time c ≤ b := by simpa using hwindow
    obtain ⟨before, after, rfl⟩ := List.append_of_mem (hsub.subset hadmitted)
    -- all that is inside comes before the last
    have hlast : ∀ e ∈ inside, time e ≤ time c := by
      intro e he
      rw [hconcat, List.concat_eq_append, List.mem_append, List.mem_singleton] at he
      rcases he with he | rfl
      · have hpair := hevents.sublist hinsideSub
        rw [hconcat, List.concat_eq_append, List.pairwise_append] at hpair
        exact le_of_lt (hpair.2.2 e he c (List.mem_singleton.mpr rfl))
      · exact le_refl _
    have hstart : ∀ e ∈ inside, a < time e := by
      intro e he
      obtain ⟨_, hwindow⟩ := List.mem_filter.mp (hinside ▸ he)
      obtain ⟨hlow, _⟩ : a < time e ∧ time e ≤ b := by simpa using hwindow
      exact hlow
    have hupto : inside.Sublist (before ++ [c]) := by
      have hfilter := hinsideSub.filter fun e => decide (time e ≤ time c)
      rw [filter_le_eq hevents, List.filter_eq_self.mpr fun e he => by simpa using hlast e he]
        at hfilter
      exact hfilter
    have hrecent : inside.Sublist ((before ++ [c]).filter fun e => a < time e) := by
      have hfilter := hupto.filter fun e => decide (a < time e)
      rwa [List.filter_eq_self.mpr fun e he => by simpa using hstart e he] at hfilter
    exact hrecent.length_le.trans (hbound before c after rfl hadmitted hbegin hend)

end Eidetic.Lib
