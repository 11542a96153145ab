import Mathlib.Data.List.Perm.Subperm

/-!
# A counter that is given a time to go

A key is counted up, and begins at one when there is none. Its time to go is set
by a command of its own, some while after it has begun. Of the hits that find the
counter within a limit, every window that is as long as this time has twice the
limit at most: its hits belong to two counters that follow each other
(`Paced.window_le`). A counter that is never given a time to go is the last one
(`Stuck`).

`Paced` is the invariant, of the hits so far and the counter: since a birth the
counter has counted each hit, so that these and what it can still let through
are within the limit, and the hits before the birth that can share a window with
them are within it too. There is a lemma for each command and for time, which
may be the end of the counter; then the next hit is the birth of another
(`Paced.again`).
-/

namespace Eidetic.Lib

structure Counter where
  value : Nat
  expires : Option Nat := none

namespace Counter

/-- What a command finds of the counter. -/
def live (now : Nat) (c : Option Counter) : Option Counter :=
  c.filter fun c => c.expires.all fun e => now < e

/-- `INCR`. -/
def incr (now : Nat) (c : Option Counter) : Counter :=
  match live now c with
  | some c => { c with value := c.value + 1 }
  | none => { value := 1 }

/-- `EXPIRE`. -/
def expire (now width : Nat) (c : Option Counter) : Option Counter :=
  (live now c).map fun c => { c with expires := some (now + width) }

variable {now width : Nat} {counter : Option Counter} {c : Counter}

theorem live_eq_some : live now counter = some c ↔ counter = some c ∧ ∀ e, c.expires = some e → now < e := by
  unfold live
  rw [Option.filter_eq_some_iff]
  refine and_congr_right fun _ => ?_
  cases c.expires with
  | none => simp
  | some e => simp

theorem incr_of_live (h : live now counter = some c) :
    incr now counter = { c with value := c.value + 1 } := by
  unfold incr
  rw [h]

theorem incr_of_none (h : live now counter = none) : incr now counter = { value := 1 } := by
  unfold incr
  rw [h]

theorem live_earlier {d : Nat} (h : live (now + d) counter = some c) : live now counter = some c := by
  obtain ⟨hcounter, hends⟩ := live_eq_some.mp h
  exact live_eq_some.mpr ⟨hcounter, fun e he => by have hlt := hends e he; omega⟩

/-- A counter that has gone meanwhile had a time to go. -/
theorem expires_of_gone {d : Nat} (h : live now counter = some c) (hgone : live (now + d) counter = none) :
    ∃ e, c.expires = some e ∧ e ≤ now + d := by
  obtain ⟨hcounter, _⟩ := live_eq_some.mp h
  cases hexp : c.expires with
  | none =>
    have hlive : live (now + d) counter = some c := live_eq_some.mpr ⟨hcounter, by simp [hexp]⟩
    exact absurd (hgone.symm.trans hlive) (by simp)
  | some e =>
    refine ⟨e, rfl, ?_⟩
    by_contra hlt
    have hlive : live (now + d) counter = some c := by
      refine live_eq_some.mpr ⟨hcounter, fun e' he' => ?_⟩
      obtain rfl := Option.some.inj (hexp.symm.trans he')
      omega
    exact absurd (hgone.symm.trans hlive) (by simp)

theorem incr_pos : 0 < (incr now counter).value := by
  cases hlive : live now counter with
  | none =>
    rw [incr_of_none hlive]
    exact Nat.one_pos
  | some c =>
    rw [incr_of_live hlive]
    exact Nat.succ_pos _

theorem value_of_expire (h : expire now width counter = some c) :
    ∃ c₀, counter = some c₀ ∧ c.value = c₀.value := by
  obtain ⟨c₀, hlive, rfl⟩ := Option.map_eq_some_iff.mp h
  exact ⟨c₀, (live_eq_some.mp hlive).1, rfl⟩

theorem live_incr (now : Nat) (counter : Option Counter) :
    live now (some (incr now counter)) = some (incr now counter) := by
  refine live_eq_some.mpr ⟨rfl, fun e he => ?_⟩
  cases hlive : live now counter with
  | none =>
    rw [incr_of_none hlive] at he
    exact absurd he (by simp)
  | some c =>
    rw [incr_of_live hlive] at he
    exact (live_eq_some.mp hlive).2 e he

end Counter

open Counter

/-- The hits of a counter that found it within the limit, counted from when it
last began: those of the counter, and those of the one before. -/
structure Paced (limit width now : Nat) (counter : Option Counter) (hits : List Nat) (birth : Nat) :
    Prop where
  began : birth ≤ now
  few : hits.countP (birth ≤ ·) ≤ limit
  before : ∀ a, birth ≤ a + width → hits.countP (fun t => a ≤ t ∧ t < birth) ≤ limit
  older : ∀ a, a + width ≤ birth → hits.countP (fun t => a ≤ t ∧ t < a + width) ≤ 2 * limit
  counted : ∀ c, live now counter = some c → hits.countP (birth ≤ ·) ≤ c.value
  ends : ∀ c e, live now counter = some c → c.expires = some e → birth + width ≤ e ∧ ∀ t ∈ hits, t < e
  past : ∀ t ∈ hits, t ≤ now
  gone : live now counter = none → hits = [] ∨ birth + width ≤ now ∧ ∀ t ∈ hits, t < now

variable {limit width now birth : Nat} {counter : Option Counter} {hits hits' : List Nat}

theorem countP_split {p q r : Nat → Bool} (h : ∀ t ∈ hits, p t = true → q t = true ∨ r t = true) :
    hits.countP p ≤ hits.countP q + hits.countP r := by
  induction hits with
  | nil => exact Nat.zero_le _
  | cons t hits ih =>
    have hrest := ih fun t ht => h t (List.mem_cons_of_mem _ ht)
    have ht := h t List.mem_cons_self
    rw [List.countP_cons, List.countP_cons, List.countP_cons]
    cases hp : p t with
    | false => simp only [Bool.false_eq_true, if_false]; omega
    | true =>
      rcases ht hp with hq | hr
      · rw [if_pos rfl, if_pos hq]; omega
      · rw [if_pos rfl, if_pos hr]; omega

theorem paced_nil (hcounter : live now counter = none) : Paced limit width now counter [] 0 where
  began := Nat.zero_le _
  few := Nat.zero_le _
  before _ _ := Nat.zero_le _
  older _ _ := Nat.zero_le _
  counted _ _ := Nat.zero_le _
  ends c e hc _ := absurd (hcounter.symm.trans hc) (by simp)
  past _ ht := absurd ht List.not_mem_nil
  gone _ := .inl rfl

/-- Of any window, the hits are those of at most two counters. -/
theorem Paced.window_le (h : Paced limit width now counter hits birth) (a : Nat) :
    hits.countP (fun t => a ≤ t ∧ t < a + width) ≤ 2 * limit := by
  by_cases ha : a + width ≤ birth
  · exact h.older a ha
  · have hsplit : hits.countP (fun t => a ≤ t ∧ t < a + width) ≤
        hits.countP (fun t => a ≤ t ∧ t < birth) + hits.countP (birth ≤ ·) := by
      refine countP_split fun t _ ht => ?_
      simp only [decide_eq_true_eq] at ht ⊢
      omega
    have hbefore := h.before a (by omega)
    have hfew := h.few
    omega

theorem Paced.less (h : Paced limit width now counter hits birth) (hsub : hits'.Subperm hits) :
    Paced limit width now counter hits' birth where
  began := h.began
  few := Nat.le_trans (hsub.countP_le _) h.few
  before a ha := Nat.le_trans (hsub.countP_le _) (h.before a ha)
  older a ha := Nat.le_trans (hsub.countP_le _) (h.older a ha)
  counted c hc := Nat.le_trans (hsub.countP_le _) (h.counted c hc)
  ends c e hc he := ⟨(h.ends c e hc he).1, fun t ht => (h.ends c e hc he).2 t (hsub.subset ht)⟩
  past t ht := h.past t (hsub.subset ht)
  gone hc := by
    rcases h.gone hc with rfl | ⟨hwidth, hlt⟩
    · exact .inl (List.subperm_nil.mp hsub)
    · exact .inr ⟨hwidth, fun t ht => hlt t (hsub.subset ht)⟩

theorem Paced.pass (h : Paced limit width now counter hits birth) (d : Nat) :
    Paced limit width (now + d) counter hits birth where
  began := Nat.le_add_right_of_le h.began
  few := h.few
  before := h.before
  older := h.older
  counted c hc := h.counted c (live_earlier hc)
  ends c e hc := h.ends c e (live_earlier hc)
  past t ht := Nat.le_add_right_of_le (h.past t ht)
  gone hgone := by
    cases hlive : live now counter with
    | none =>
      rcases h.gone hlive with hnil | ⟨hwidth, hlt⟩
      · exact .inl hnil
      · exact .inr ⟨by omega, fun t ht => Nat.lt_of_lt_of_le (hlt t ht) (Nat.le_add_right ..)⟩
    | some c =>
      obtain ⟨e, hexp, he⟩ := expires_of_gone hlive hgone
      obtain ⟨hwidth, hlt⟩ := h.ends c e hlive hexp
      exact .inr ⟨by omega, fun t ht => Nat.lt_of_lt_of_le (hlt t ht) he⟩

/-- The time to go is a whole width from now. -/
theorem Paced.expire (h : Paced limit width now counter hits birth) (hw : 0 < width) :
    Paced limit width now (expire now width counter) hits birth := by
  have hlive : live now (Counter.expire now width counter) =
      (live now counter).map fun c => { c with expires := some (now + width) } := by
    unfold Counter.expire
    cases live now counter with
    | none => rfl
    | some c => exact live_eq_some.mpr ⟨rfl, fun e he => by obtain rfl := Option.some.inj he; omega⟩
  refine ⟨h.began, h.few, h.before, h.older, ?_, ?_, h.past, ?_⟩
  · intro c hc
    rw [hlive, Option.map_eq_some_iff] at hc
    obtain ⟨c₀, hc₀, rfl⟩ := hc
    exact h.counted c₀ hc₀
  · intro c e hc he
    rw [hlive, Option.map_eq_some_iff] at hc
    obtain ⟨c₀, hc₀, rfl⟩ := hc
    obtain rfl := Option.some.inj he
    have hbegan := h.began
    refine ⟨by omega, fun t ht => ?_⟩
    have hpast := h.past t ht
    omega
  · intro hnone
    rw [hlive, Option.map_eq_none_iff] at hnone
    exact h.gone hnone

/-- When the counter has gone, another one begins: the hits of the one before are
those from its beginning. -/
theorem Paced.again (h : Paced limit width now counter hits birth) (hgone : live now counter = none) :
    Paced limit width now (some { value := 1 }) hits now ∧ hits.countP (now ≤ ·) = 0 := by
  have hlt : ∀ t ∈ hits, t < now := by
    intro t ht
    rcases h.gone hgone with rfl | ⟨_, hlt⟩
    · exact absurd ht List.not_mem_nil
    · exact hlt t ht
  have hzero : hits.countP (now ≤ ·) = 0 := by
    rw [List.countP_eq_zero]
    intro t ht
    have htlt := hlt t ht
    simp only [decide_eq_true_eq]
    omega
  have hlive : live now (some { value := 1 }) = some { value := 1 } :=
    live_eq_some.mpr ⟨rfl, fun e he => absurd he (by simp)⟩
  refine ⟨⟨Nat.le_refl _, by omega, ?_, fun a _ => h.window_le a, ?_, ?_, h.past, ?_⟩, hzero⟩
  · intro a ha
    rcases h.gone hgone with rfl | ⟨hwidth, _⟩
    · exact Nat.zero_le _
    · refine Nat.le_trans (List.countP_mono_left fun t _ ht => ?_) h.few
      simp only [decide_eq_true_eq] at ht ⊢
      omega
  · intro c _
    omega
  · intro c e hc he
    obtain rfl := Option.some.inj (hlive.symm.trans hc)
    exact absurd he (by simp)
  · intro hnone
    exact absurd (hlive.symm.trans hnone) (by simp)

/-- The counter is counted up, above what was let through since it began. -/
theorem Paced.incr (h : Paced limit width now counter hits birth) :
    ∃ birth', Paced limit width now (some (incr now counter)) hits birth' ∧
      hits.countP (birth' ≤ ·) < (incr now counter).value := by
  cases hlive : live now counter with
  | none =>
    obtain ⟨hagain, hzero⟩ := h.again hlive
    rw [incr_of_none hlive]
    exact ⟨now, hagain, by rw [hzero]; exact Nat.one_pos⟩
  | some c =>
    have hcounted := h.counted c hlive
    have hsame := live_incr now counter
    rw [incr_of_live hlive] at hsame ⊢
    refine ⟨birth, ⟨h.began, h.few, h.before, h.older, ?_, ?_, h.past, ?_⟩, Nat.lt_succ_of_le hcounted⟩
    · intro c' hc'
      obtain rfl := Option.some.inj (hsame.symm.trans hc')
      exact Nat.le_succ_of_le hcounted
    · intro c' e hc' he
      obtain rfl := Option.some.inj (hsame.symm.trans hc')
      exact h.ends c e hlive he
    · intro hnone
      exact absurd (hsame.symm.trans hnone) (by simp)

/-- A hit is let through that the counter has room for. -/
theorem Paced.admit {c : Counter} (h : Paced limit width now counter hits birth)
    (hlive : live now counter = some c) (hroom : hits.countP (birth ≤ ·) < c.value)
    (hlimit : c.value ≤ limit) : Paced limit width now counter (now :: hits) birth := by
  have hbegan := h.began
  have hcount : (now :: hits).countP (birth ≤ ·) = hits.countP (birth ≤ ·) + 1 :=
    List.countP_cons_of_pos (by simpa using hbegan)
  refine ⟨hbegan, by omega, ?_, ?_, ?_, ?_, ?_, ?_⟩
  · intro a ha
    rw [List.countP_cons_of_neg (by simp only [decide_eq_true_eq]; omega)]
    exact h.before a ha
  · intro a ha
    rw [List.countP_cons_of_neg (by simp only [decide_eq_true_eq]; omega)]
    exact h.older a ha
  · intro c' hc'
    obtain rfl := Option.some.inj (hlive.symm.trans hc')
    omega
  · intro c' e hc' he
    obtain ⟨hwidth, hlt⟩ := h.ends c' e hc' he
    refine ⟨hwidth, fun t ht => ?_⟩
    rcases List.mem_cons.mp ht with rfl | hold
    · exact (live_eq_some.mp hc').2 e he
    · exact hlt t hold
  · intro t ht
    rcases List.mem_cons.mp ht with rfl | hold
    · exact Nat.le_refl _
    · exact h.past t hold
  · intro hnone
    exact absurd (hlive.symm.trans hnone) (by simp)

/-- A hit that finds the counter within the limit is let through. -/
theorem Paced.hit (h : Paced limit width now counter hits birth)
    (hlimit : (Counter.incr now counter).value ≤ limit) :
    ∃ birth', Paced limit width now (some (Counter.incr now counter)) (now :: hits) birth' := by
  obtain ⟨birth', hincr, hroom⟩ := h.incr
  exact ⟨birth', hincr.admit (live_incr ..) hroom hlimit⟩

/-! ## Without a time to go -/

/-- The counter has no time to go, and with what is used and what it has left the
budget is not passed. -/
def Stuck (limit budget : Nat) (counter : Option Counter) (used : Nat) : Prop :=
  ∃ c, counter = some c ∧ c.expires = none ∧ used + (limit - c.value) ≤ budget

variable {budget used used' : Nat}

theorem Stuck.incr_value (h : Stuck limit budget counter used) (hpos : ∀ c, counter = some c → 0 < c.value) :
    1 < (Counter.incr now counter).value := by
  obtain ⟨c, rfl, hexp, _⟩ := h
  have hlive : live now (some c) = some c := live_eq_some.mpr ⟨rfl, by simp [hexp]⟩
  rw [incr_of_live hlive]
  exact Nat.succ_lt_succ (hpos c rfl)

theorem Stuck.used_le (h : Stuck limit budget counter used) : used ≤ budget := by
  obtain ⟨c, _, _, hle⟩ := h
  omega

theorem Stuck.mono (h : Stuck limit budget counter used) (hused : used' ≤ used) :
    Stuck limit budget counter used' := by
  obtain ⟨c, hc, hexp, hle⟩ := h
  exact ⟨c, hc, hexp, by omega⟩

/-- It is counted up for ever, and lets through what is left. -/
theorem Stuck.hit (h : Stuck limit budget counter used)
    (hused : used' ≤ used + if (Counter.incr now counter).value ≤ limit then 1 else 0) :
    Stuck limit budget (some (Counter.incr now counter)) used' := by
  obtain ⟨c, rfl, hexp, hle⟩ := h
  have hlive : live now (some c) = some c := live_eq_some.mpr ⟨rfl, by simp [hexp]⟩
  rw [incr_of_live hlive] at hused ⊢
  refine ⟨_, rfl, hexp, ?_⟩
  show used' + (limit - (c.value + 1)) ≤ budget
  split at hused
  next hwithin => have hvalue : c.value + 1 ≤ limit := hwithin; omega
  next => omega

end Eidetic.Lib
