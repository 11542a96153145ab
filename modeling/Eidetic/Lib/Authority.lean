import Mathlib.Data.List.Basic

/-!
# Secrets that lead back to a proof

A secret is given to one who proves who he is and lasts for a time, or it is
given to one who presents another secret. One that is presented is rooted when a
chain of such requests leads from it to a proof, where every secret of the chain
was rooted at the time it was presented.
-/

namespace Eidetic.Lib

/-- What was given, to whom and when. -/
structure Grant (σ α : Type*) where
  secret : σ
  holder : α
  time : Nat
  /-- The secret it was given for, and when that was presented; none for a proof. -/
  via : Option (σ × Nat) := none

variable {σ α : Type*} (alike : σ → σ → Prop) (ttl : Nat) (fits : Grant σ α → Prop)

inductive Rooted (given : List (Grant σ α)) : σ → Nat → Prop
  | proved {g : Grant σ α} {t : Nat} (hmem : g ∈ given) (hfits : fits g) (hvia : g.via = none)
      (hfrom : g.time ≤ t) (huntil : t ≤ g.time + ttl) : Rooted given g.secret t
  | granted {g : Grant σ α} {secret via : σ} {asked t : Nat} (hmem : g ∈ given) (hfits : fits g)
      (hvia : g.via = some (via, asked)) (halike : alike g.secret secret) (hasked : asked ≤ g.time)
      (hfrom : g.time ≤ t) (hrooted : Rooted given via asked) : Rooted given secret t

/-- A secret that was given for a rooted one; no time ends it. -/
structure Granted (given : List (Grant σ α)) (g : Grant σ α) (t : Nat) : Prop where
  mem : g ∈ given
  fit : fits g
  from_rooted : ∃ via asked, g.via = some (via, asked) ∧ asked ≤ g.time ∧
    Rooted alike ttl fits given via asked
  past : g.time ≤ t

variable {alike ttl fits} {given given' : List (Grant σ α)} {secret : σ} {g : Grant σ α} {t t' : Nat}

/-- What is given later takes nothing away. -/
theorem Rooted.mono (h : Rooted alike ttl fits given secret t) (hsub : ∀ g ∈ given, g ∈ given') :
    Rooted alike ttl fits given' secret t := by
  induction h with
  | proved hmem hfits hvia hfrom huntil => exact .proved (hsub _ hmem) hfits hvia hfrom huntil
  | granted hmem hfits hvia halike hasked hfrom _ ih =>
    exact .granted (hsub _ hmem) hfits hvia halike hasked hfrom ih

theorem Granted.mono (h : Granted alike ttl fits given g t) (hsub : ∀ g ∈ given, g ∈ given') (ht : t ≤ t') :
    Granted alike ttl fits given' g t' := by
  obtain ⟨via, asked, hvia, hasked, hrooted⟩ := h.from_rooted
  exact
    { mem := hsub g h.mem
      fit := h.fit
      from_rooted := ⟨via, asked, hvia, hasked, hrooted.mono hsub⟩
      past := Nat.le_trans h.past ht }

theorem Granted.rooted (h : Granted alike ttl fits given g t) (halike : alike g.secret secret) :
    Rooted alike ttl fits given secret t := by
  obtain ⟨via, asked, hvia, hasked, hrooted⟩ := h.from_rooted
  exact .granted h.mem h.fit hvia halike hasked h.past hrooted

/-- The proof that a chain leads back to. -/
theorem Rooted.proof (h : Rooted alike ttl fits given secret t) :
    ∃ g ∈ given, fits g ∧ g.via = none ∧ g.time ≤ t := by
  induction h with
  | proved hmem hfits hvia hfrom _ => exact ⟨_, hmem, hfits, hvia, hfrom⟩
  | granted _ _ _ _ hasked hfrom _ ih =>
    obtain ⟨g, hmem, hfits, hvia, hg⟩ := ih
    exact ⟨g, hmem, hfits, hvia, Nat.le_trans hg (Nat.le_trans hasked hfrom)⟩

end Eidetic.Lib
