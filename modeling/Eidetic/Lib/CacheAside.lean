import Eidetic.Lib.Lease
import Eidetic.Lib.Run
import Mathlib.Data.List.Induction
import Mathlib.Logic.Function.Basic

/-!
# A cache beside a store

A caller looks into the cache, asks the store when it finds nothing, and puts
the answer into the cache for a time. Nothing ties the steps of one caller
together, nor those of a writer, that changes the store and then deletes keys.

What a caller gets, the store has answered before to a question of the same
key, and not longer ago than a cached answer lives and a caller takes to put it
there (`answered_of_done`). After a deletion that has found all keys that were
there, a cached answer is not older than the start of the search for them,
unless a caller had its answer by then and puts it later (`asked_since`).

The machine has the clock, the store, the cache, and each caller with what it
has so far; an input is a step of one caller, a change of the store, a deletion,
or time. How a caller moves does not depend on the others (`Moves`), and the
entries of the cache come from callers (`cache_next`). The two results carry an
invariant each. `Aged` says of every answer on its way, cached or delivered,
when the store gave it; `Since` says that it was given after some point of the
run, or is of an old kind that `lasting_next` then rules out for the keys that a
search has found.
-/

namespace Eidetic.Lib

variable {σ κ θ α : Type*}

/-- What is asked, and under which key an answer is kept, for how long. -/
structure AsideSpec (σ κ θ α : Type*) where
  key : θ → κ
  /-- A question that is asked at all. -/
  worth : θ → Bool
  /-- What the store answers at a time. -/
  ask : Nat → σ → θ → Option α
  ttl : Nat

/-- Where a caller is. -/
inductive AsideCall (θ α : Type*)
  | idle
  | missed (q : θ)
  /-- The store has answered at a time. -/
  | read (q : θ) (a : α) (t : Nat)
  | done (q : θ) (a : Option α) (t : Nat)

structure Aside (σ κ θ α : Type*) where
  now : Nat
  store : σ
  cache : κ → Option (Lease α)
  call : Nat → AsideCall θ α

inductive AsideInput (σ κ θ : Type*)
  | pass (d : Nat)
  | change (store : σ)
  | look (i : Nat) (q : θ) (reached : Bool)
  | read (i : Nat) (answered : Bool)
  | put (i : Nat) (taken : Bool)
  | forget (ks : List κ)

namespace AsideSpec

variable (p : AsideSpec σ κ θ α)

/-- What the cache has under a key. -/
def found (s : Aside σ κ θ α) (k : κ) : Option (Lease α) := live s.now (s.cache k)

/-- Where a caller is after it has looked. -/
def looked (s : Aside σ κ θ α) (q : θ) (reached : Bool) : AsideCall θ α :=
  if p.worth q then
    match if reached then found s (p.key q) else none with
    | some l => .done q (some l.token) s.now
    | none => .missed q
  else .done q none s.now

/-- Where a caller is after the store has answered, or has not. -/
def answered (s : Aside σ κ θ α) (q : θ) (answered : Bool) : AsideCall θ α :=
  match if answered then p.ask s.now s.store q else none with
  | some a => .read q a s.now
  | none => .done q none s.now

def moveTo (s : Aside σ κ θ α) (i : Nat) (c : AsideCall θ α) : Aside σ κ θ α :=
  { s with call := Function.update s.call i c }

/-- What becomes of a caller at a step. -/
inductive Moves (s : Aside σ κ θ α) (i : AsideInput σ κ θ) (c : Nat) :
    AsideCall θ α → Prop
  | stays : Moves s i c (s.call c)
  | hits (q : θ) (l : Lease α) : i = .look c q true → found s (p.key q) = some l →
      Moves s i c (.done q (some l.token) s.now)
  | misses (q : θ) (reached : Bool) : i = .look c q reached → Moves s i c (.missed q)
  | reads (q : θ) (a : α) : s.call c = .missed q → p.ask s.now s.store q = some a →
      Moves s i c (.read q a s.now)
  | puts (q : θ) (a : α) (t : Nat) (taken : Bool) : i = .put c taken → s.call c = .read q a t →
      Moves s i c (.done q (some a) s.now)
  | empty (q : θ) : (∃ reached, i = .look c q reached) ∨ s.call c = .missed q →
      Moves s i c (.done q none s.now)

section

variable {p} {s : Aside σ κ θ α}

theorem moves_looked (c : Nat) (q : θ) (reached : Bool) :
    Moves p s (.look c q reached) c (p.looked s q reached) := by
  unfold looked
  split
  next =>
    split
    next l hl =>
      cases reached with
      | true => exact Moves.hits q l rfl hl
      | false => exact absurd hl (by simp)
    next => exact Moves.misses q reached rfl
  next => exact Moves.empty q (Or.inl ⟨reached, rfl⟩)

theorem moves_answered {c : Nat} {q : θ} (h : s.call c = .missed q) (ok : Bool) :
    Moves p s (.read c ok) c (p.answered s q ok) := by
  unfold answered
  split
  next a ha =>
    cases ok with
    | true => exact Moves.reads q a h ha
    | false => exact absurd ha (by simp)
  next => exact Moves.empty q (Or.inr h)

theorem moves_moveTo {i : AsideInput σ κ θ} {j : Nat} {d : AsideCall θ α} (h : Moves p s i j d)
    (c : Nat) : Moves p s i c ((moveTo s j d).call c) := by
  by_cases hc : c = j
  · subst hc
    rw [show (moveTo s c d).call c = d from Function.update_self ..]
    exact h
  · rw [show (moveTo s j d).call c = s.call c from Function.update_of_ne hc ..]
    exact Moves.stays

end

variable [DecidableEq κ]

def next (s : Aside σ κ θ α) : AsideInput σ κ θ → Aside σ κ θ α
  | .pass d => { s with now := s.now + d }
  | .change store => { s with store := store }
  | .look i q reached =>
    match s.call i with
    | .idle => moveTo s i (p.looked s q reached)
    | _ => s
  | .read i answered =>
    match s.call i with
    | .missed q => moveTo s i (p.answered s q answered)
    | _ => s
  | .put i taken =>
    match s.call i with
    | .read q a _ =>
      let s' := moveTo s i (.done q (some a) s.now)
      if taken then { s' with cache := Function.update s.cache (p.key q) (some ⟨a, s.now + p.ttl⟩) }
      else s'
    | _ => s
  | .forget ks => { s with cache := fun k => if k ∈ ks then none else s.cache k }

def start (store : σ) : Aside σ κ θ α := ⟨0, store, fun _ => none, fun _ => .idle⟩

/-! ## What one step does -/

variable {p} {s : Aside σ κ θ α}

theorem now_le_next (i : AsideInput σ κ θ) : s.now ≤ (p.next s i).now := by
  cases i with
  | pass d => exact Nat.le_add_right _ _
  | change store => exact Nat.le_refl _
  | look i q reached =>
    dsimp only [next]
    split
    next => exact Nat.le_refl _
    next => exact Nat.le_refl _
  | read i ok =>
    dsimp only [next]
    split
    next => exact Nat.le_refl _
    next => exact Nat.le_refl _
  | put i taken =>
    dsimp only [next]
    split
    next => split <;> exact Nat.le_refl _
    next => exact Nat.le_refl _
  | forget ks => exact Nat.le_refl _

/-- What a caller does moves neither the clock nor the store. -/
theorem store_next {i : AsideInput σ κ θ} (hpass : ∀ d, i ≠ .pass d) (hchange : ∀ store, i ≠ .change store) :
    (p.next s i).store = s.store ∧ (p.next s i).now = s.now := by
  cases i with
  | pass d => exact absurd rfl (hpass d)
  | change store => exact absurd rfl (hchange store)
  | look i q reached =>
    dsimp only [next]
    split
    next => exact ⟨rfl, rfl⟩
    next => exact ⟨rfl, rfl⟩
  | read i ok =>
    dsimp only [next]
    split
    next => exact ⟨rfl, rfl⟩
    next => exact ⟨rfl, rfl⟩
  | put i taken =>
    dsimp only [next]
    split
    next => split <;> exact ⟨rfl, rfl⟩
    next => exact ⟨rfl, rfl⟩
  | forget ks => exact ⟨rfl, rfl⟩

/-- An entry of the cache was there before, or a caller has put it there. -/
theorem cache_next {i : AsideInput σ κ θ} {k : κ} {l : Lease α} (h : (p.next s i).cache k = some l) :
    s.cache k = some l ∨ ∃ c q t, i = .put c true ∧ s.call c = .read q l.token t ∧ p.key q = k ∧
      l.expires = s.now + p.ttl := by
  cases i with
  | pass d => exact Or.inl h
  | change store => exact Or.inl h
  | look i q reached =>
    dsimp only [next] at h
    split at h <;> exact Or.inl h
  | read i answered =>
    dsimp only [next] at h
    split at h <;> exact Or.inl h
  | put i taken =>
    dsimp only [next] at h
    split at h
    next q a t hcall =>
      cases taken with
      | false => exact Or.inl h
      | true =>
        -- the answer is put under the key of its own question, for the whole time
        have hput : Function.update s.cache (p.key q) (some ⟨a, s.now + p.ttl⟩) k = some l := h
        by_cases hk : k = p.key q
        · rw [hk, Function.update_self] at hput
          obtain rfl := Option.some.inj hput
          exact Or.inr ⟨i, q, t, rfl, hcall, hk.symm, rfl⟩
        · rw [Function.update_of_ne hk] at hput
          exact Or.inl hput
    next => exact Or.inl h
  | forget ks =>
    refine Or.inl ?_
    by_cases hk : k ∈ ks
    · have hnone : (none : Option (Lease α)) = some l := by
        rw [← h]
        exact (if_pos hk).symm
      exact absurd hnone (by simp)
    · rw [← h]
      exact (if_neg hk).symm

theorem call_next (i : AsideInput σ κ θ) (c : Nat) : Moves p s i c ((p.next s i).call c) := by
  cases i with
  | pass d => exact Moves.stays
  | change store => exact Moves.stays
  | look j q reached =>
    dsimp only [next]
    split
    next => exact moves_moveTo (moves_looked j q reached) c
    next => exact Moves.stays
  | read j ok =>
    dsimp only [next]
    split
    next q hmissed => exact moves_moveTo (moves_answered hmissed ok) c
    next => exact Moves.stays
  | put j taken =>
    dsimp only [next]
    split
    next q a t hread =>
      have hmoves := moves_moveTo (Moves.puts q a t taken rfl hread : Moves p s _ j _) c
      split <;> exact hmoves
    next => exact Moves.stays
  | forget ks => exact Moves.stays

/-- An answer was there before, or has just been read. -/
theorem of_read_next {i : AsideInput σ κ θ} {c : Nat} {q : θ} {a : α} {t : Nat}
    (h : (p.next s i).call c = .read q a t) :
    s.call c = .read q a t ∨ s.call c = .missed q ∧ p.ask s.now s.store q = some a ∧ t = s.now := by
  have hmove := call_next (p := p) (s := s) i c
  generalize (p.next s i).call c = call at h hmove
  cases hmove with
  | stays => exact Or.inl h
  | reads q' a' hmissed hask =>
    cases h
    exact Or.inr ⟨hmissed, hask, rfl⟩
  | hits => cases h
  | misses => cases h
  | puts => cases h
  | empty => cases h

/-- A caller had its answer before, or has just found it in the cache or put it there. -/
theorem of_done_next {i : AsideInput σ κ θ} {c : Nat} {q : θ} {a : α} {t : Nat}
    (h : (p.next s i).call c = .done q (some a) t) :
    s.call c = .done q (some a) t ∨
    (∃ l, found s (p.key q) = some l ∧ l.token = a ∧ t = s.now) ∨
    ∃ t₀ taken, i = .put c taken ∧ s.call c = .read q a t₀ ∧ t = s.now := by
  have hmove := call_next (p := p) (s := s) i c
  generalize (p.next s i).call c = call at h hmove
  cases hmove with
  | stays => exact Or.inl h
  | hits q' l hi hfound =>
    cases h
    exact Or.inr (Or.inl ⟨l, hfound, rfl, rfl⟩)
  | puts q' a' t₀ taken hi hread =>
    cases h
    exact Or.inr (Or.inr ⟨t₀, taken, hi, hread, rfl⟩)
  | misses => cases h
  | reads => cases h
  | empty => cases h

/-! ## The questions of a run -/

/-- The question of a caller is one of some. -/
def CallOf (Q : θ → Prop) : AsideCall θ α → Prop
  | .idle => True
  | .missed q => Q q
  | .read q _ _ => Q q
  | .done q _ _ => Q q

/-- A caller that begins asks one of some questions. -/
def LooksFor (Q : θ → Prop) (i : AsideInput σ κ θ) : Prop := ∀ c q reached, i = .look c q reached → Q q

theorem callOf_next {Q : θ → Prop} {i : AsideInput σ κ θ} (hQ : LooksFor Q i)
    (h : ∀ c, CallOf Q (s.call c)) (c : Nat) : CallOf Q ((p.next s i).call c) := by
  have hmove := call_next (p := p) (s := s) i c
  have hc := h c
  generalize (p.next s i).call c = call at hmove
  cases hmove with
  | stays => exact hc
  | hits q l hi _ => exact hQ c q true hi
  | misses q reached hi => exact hQ c q reached hi
  | reads q a hmissed _ => rwa [hmissed] at hc
  | puts q a t taken _ hread => rwa [hread] at hc
  | empty q hq =>
    rcases hq with ⟨reached, hi⟩ | hmissed
    · exact hQ c q reached hi
    · rwa [hmissed] at hc

theorem callOf_run {Q : θ → Prop} {is : List (AsideInput σ κ θ)} (hQ : ∀ i ∈ is, LooksFor Q i)
    (h : ∀ c, CallOf Q (s.call c)) (c : Nat) : CallOf Q ((run p.next s is).call c) := by
  have hsteps : Throughout p.next (fun _ i => LooksFor Q i) s is := throughout_of_forall hQ
  have hkeep : ∀ (s : Aside σ κ θ α) (i : AsideInput σ κ θ), (∀ c, CallOf Q (s.call c)) →
      LooksFor Q i → ∀ c, CallOf Q ((p.next s i).call c) := fun _ _ hs hi => callOf_next hi hs
  exact run_invariant (fun s : Aside σ κ θ α => ∀ c, CallOf Q (s.call c)) hkeep h hsteps c

/-! ## How old an answer is -/

variable (p s) in
/-- In the run the store has answered a question, at a time. -/
def Asked (is : List (AsideInput σ κ θ)) (q : θ) (a : α) (t : Nat) : Prop :=
  ∃ before after, is = before ++ after ∧ (run p.next s before).now = t ∧
    p.ask t (run p.next s before).store q = some a

theorem Asked.append {is : List (AsideInput σ κ θ)} {q : θ} {a : α} {t : Nat} (h : Asked p s is q a t)
    (more : List (AsideInput σ κ θ)) : Asked p s (is ++ more) q a t := by
  obtain ⟨before, after, rfl, hnow, hask⟩ := h
  exact ⟨before, after ++ more, List.append_assoc .., hnow, hask⟩

theorem asked_now {is : List (AsideInput σ κ θ)} {q : θ} {a : α}
    (h : p.ask (run p.next s is).now (run p.next s is).store q = some a) :
    Asked p s is q a (run p.next s is).now :=
  ⟨is, [], (List.append_nil is).symm, rfl, h⟩

/-- A caller puts an answer into the cache within a time after it has got it. -/
def InTime (d : Nat) (s : Aside σ κ θ α) (i : AsideInput σ κ θ) : Prop :=
  ∀ c taken q a t, i = .put c taken → s.call c = .read q a t → s.now ≤ t + d

/-- What the calls and the cache have of the answers of a run, in which some
questions are asked. -/
structure Aged (p : AsideSpec σ κ θ α) (Q : θ → Prop) (d : Nat) (s₀ : Aside σ κ θ α)
    (is : List (AsideInput σ κ θ)) (s : Aside σ κ θ α) : Prop where
  of : ∀ c, CallOf Q (s.call c)
  read : ∀ c q a t, s.call c = .read q a t → Asked p s₀ is q a t ∧ t ≤ s.now
  cached : ∀ k l, s.cache k = some l → ∃ q t, Q q ∧ p.key q = k ∧ Asked p s₀ is q l.token t ∧
    t ≤ s.now ∧ l.expires ≤ t + d + p.ttl
  done : ∀ c q a t', s.call c = .done q (some a) t' → ∃ q' t, Q q' ∧ p.key q' = p.key q ∧
    Asked p s₀ is q' a t ∧ t ≤ t' ∧ t' < t + d + p.ttl

theorem aged_next {Q : θ → Prop} {d : Nat} {s₀ : Aside σ κ θ α} {is : List (AsideInput σ κ θ)}
    {i : AsideInput σ κ θ} (httl : 0 < p.ttl) (h : Aged p Q d s₀ is (run p.next s₀ is))
    (hQ : LooksFor Q i) (hin : InTime d (run p.next s₀ is) i) :
    Aged p Q d s₀ (is ++ [i]) (p.next (run p.next s₀ is) i) := by
  have hnow := now_le_next (p := p) (s := run p.next s₀ is) i
  have hof : ∀ {c q a t}, (run p.next s₀ is).call c = .read q a t → Q q := by
    intro c q a t hread
    have hc := h.of c
    rwa [hread] at hc
  refine ⟨callOf_next hQ h.of, ?_, ?_, ?_⟩
  · intro c q a t hcall
    rcases of_read_next hcall with hbefore | ⟨_, hask, rfl⟩
    · obtain ⟨hasked, hle⟩ := h.read c q a t hbefore
      exact ⟨hasked.append [i], Nat.le_trans hle hnow⟩
    · exact ⟨(asked_now hask).append [i], hnow⟩
  · intro k l hl
    -- an entry is as old as it was, or was put there in time after it was read
    rcases cache_next hl with hold | ⟨c, q, t, rfl, hcall, hk, hexp⟩
    · obtain ⟨q, t, hq, hk, hasked, hle, hexp⟩ := h.cached k l hold
      exact ⟨q, t, hq, hk, hasked.append [i], Nat.le_trans hle hnow, hexp⟩
    · obtain ⟨hasked, hle⟩ := h.read c q l.token t hcall
      have htime := hin c true q l.token t rfl hcall
      exact ⟨q, t, hof hcall, hk, hasked.append _, Nat.le_trans hle hnow, by omega⟩
  · intro c q a t' hcall
    -- an answer that is given now comes from the cache, or from the caller's own question
    rcases of_done_next hcall with hbefore | ⟨l, hfound, rfl, rfl⟩ | ⟨t, taken, hi, hread, rfl⟩
    · obtain ⟨q', t, hq, hk, hasked, hle, hlt⟩ := h.done c q a t' hbefore
      exact ⟨q', t, hq, hk, hasked.append [i], hle, hlt⟩
    · obtain ⟨hl, hlive⟩ := live_eq_some.mp hfound
      obtain ⟨q', t, hq, hk, hasked, hle, hexp⟩ := h.cached _ l hl
      exact ⟨q', t, hq, hk, hasked.append [i], hle, by omega⟩
    · obtain ⟨hasked, hle⟩ := h.read c q a t hread
      have htime := hin c taken q a t hi hread
      exact ⟨q, t, hof hread, rfl, hasked.append [i], hle, by omega⟩

/-- Whatever the store becomes, and whatever is deleted, an answer that a caller
gets has been the store's, to a question of the same key, within the life of an
entry and the time that a caller takes. -/
theorem answered_of_done {Q : θ → Prop} {d : Nat} (httl : 0 < p.ttl) {store : σ}
    {is : List (AsideInput σ κ θ)} (hQ : ∀ i ∈ is, LooksFor Q i)
    (hin : Throughout p.next (InTime d) (start store) is) {c t' : Nat} {q : θ} {a : α}
    (h : (run p.next (start store) is).call c = .done q (some a) t') :
    ∃ q' t, Q q' ∧ p.key q' = p.key q ∧ Asked p (start store) is q' a t ∧ t ≤ t' ∧
      t' < t + d + p.ttl := by
  have hstart : Aged p Q d (start store) [] (start store) := by
    refine ⟨fun _ => trivial, ?_, ?_, ?_⟩
    · intro c q a t hcall
      cases hcall
    · intro k l hl
      cases hl
    · intro c q a t' hcall
      cases hcall
  exact (run_history (Aged p Q d (start store)) hstart
    (fun is i hs hi => aged_next httl hs hi.2 hi.1) (throughout_and hin hQ)).done c q a t' h

/-! ## How old an answer is after a deletion -/

/-- A caller that has its answer now does not put it under one of the keys later. -/
def NoLatePut (p : AsideSpec σ κ θ α) (keys : κ → Prop) (s₁ : Aside σ κ θ α) (i : AsideInput σ κ θ) :
    Prop :=
  ∀ c q a t, i = .put c true → s₁.call c = .read q a t → ¬ keys (p.key q)

/-- What the calls and the cache have, under some keys, is from since a point of
the run, or is of some `Old` kind. -/
structure Since (p : AsideSpec σ κ θ α) (Q : θ → Prop) (keys : κ → Prop)
    (Old : List (AsideInput σ κ θ) → κ → Lease α → Prop) (s₁ : Aside σ κ θ α)
    (js : List (AsideInput σ κ θ)) (s : Aside σ κ θ α) : Prop where
  of : ∀ c, CallOf Q (s.call c)
  read : ∀ c q a t, s.call c = .read q a t → s₁.call c = .read q a t ∨ Asked p s₁ js q a t
  cached : ∀ k l, keys k → found s k = some l →
    (∃ q t, Q q ∧ p.key q = k ∧ Asked p s₁ js q l.token t) ∨ Old js k l

theorem since_next {Q : θ → Prop} {keys : κ → Prop} {Old : List (AsideInput σ κ θ) → κ → Lease α → Prop}
    {s₁ : Aside σ κ θ α} {js : List (AsideInput σ κ θ)} {i : AsideInput σ κ θ}
    (hold : ∀ k l, Old js k l → found (p.next (run p.next s₁ js) i) k = some l → Old (js ++ [i]) k l)
    (h : Since p Q keys Old s₁ js (run p.next s₁ js)) (hQ : LooksFor Q i)
    (hlate : NoLatePut p keys s₁ i) :
    Since p Q keys Old s₁ (js ++ [i]) (p.next (run p.next s₁ js) i) := by
  have hnow := now_le_next (p := p) (s := run p.next s₁ js) i
  refine ⟨callOf_next hQ h.of, ?_, ?_⟩
  · intro c q a t hcall
    rcases of_read_next hcall with hbefore | ⟨_, hask, rfl⟩
    · exact (h.read c q a t hbefore).imp id fun hasked => hasked.append [i]
    · exact Or.inr ((asked_now hask).append [i])
  · intro k l hk hfound
    obtain ⟨hl, hlive⟩ := live_eq_some.mp hfound
    rcases cache_next hl with hbefore | ⟨c, q, t, rfl, hcall, hkey, _⟩
    · -- what is live now was live before
      have hfound' : found (run p.next s₁ js) k = some l :=
        live_eq_some.mpr ⟨hbefore, Nat.lt_of_le_of_lt hnow hlive⟩
      rcases h.cached k l hk hfound' with ⟨q, t, hq, hkey, hasked⟩ | hOld
      · exact Or.inl ⟨q, t, hq, hkey, hasked.append [i]⟩
      · exact Or.inr (hold k l hOld hfound)
    -- only a caller that had its answer at the start could put an older one
    · rcases h.read c q l.token t hcall with hstale | hasked
      · exact absurd (hkey ▸ hk) (hlate c q l.token t rfl hstale)
      · have hc := h.of c
        rw [hcall] at hc
        exact Or.inl ⟨q, t, hc, hkey, hasked.append _⟩

/-- An entry has been there all along. -/
def Lasting (p : AsideSpec σ κ θ α) (s₁ : Aside σ κ θ α) (js : List (AsideInput σ κ θ)) (k : κ)
    (l : Lease α) : Prop :=
  ∀ before after, js = before ++ after → found (run p.next s₁ before) k = some l

theorem lasting_next {s₁ : Aside σ κ θ α} {js : List (AsideInput σ κ θ)} {i : AsideInput σ κ θ} {k : κ}
    {l : Lease α} (h : Lasting p s₁ js k l) (hfound : found (p.next (run p.next s₁ js) i) k = some l) :
    Lasting p s₁ (js ++ [i]) k l := by
  intro before after heq
  rcases List.eq_nil_or_concat after with rfl | ⟨rest, j, rfl⟩
  · rw [List.append_nil] at heq
    rw [← heq, run_append]
    exact hfound
  · rw [List.concat_eq_append, ← List.append_assoc] at heq
    exact h before rest (List.append_inj' heq rfl).1

/-- A search for keys finds those that are there from its start to its end. -/
def FindsLasting (p : AsideSpec σ κ θ α) (keys : κ → Prop) (s₁ : Aside σ κ θ α)
    (mid : List (AsideInput σ κ θ)) (ks : List κ) : Prop :=
  ∀ k, keys k → (∀ before after, mid = before ++ after → found (run p.next s₁ before) k ≠ none) →
    k ∈ ks

theorem since_forget {Q : θ → Prop} {keys : κ → Prop} {s₁ : Aside σ κ θ α}
    {mid : List (AsideInput σ κ θ)} {ks : List κ}
    (hfinds : FindsLasting p keys s₁ mid ks)
    (h : Since p Q keys (Lasting p s₁) s₁ mid (run p.next s₁ mid)) :
    Since p Q keys (fun _ _ _ => False) s₁ (mid ++ [.forget ks])
      (p.next (run p.next s₁ mid) (.forget ks)) := by
  refine ⟨h.of, ?_, ?_⟩
  · intro c q a t hcall
    exact (h.read c q a t hcall).imp id fun hasked => hasked.append _
  · intro k l hk hfound
    obtain ⟨hl, hlive⟩ := live_eq_some.mp hfound
    have hkept : k ∉ ks := by
      intro hmem
      have hnone : (none : Option (Lease α)) = some l := by
        rw [← hl]
        exact (if_pos hmem).symm
      exact absurd hnone (by simp)
    have hl' : (run p.next s₁ mid).cache k = some l := by
      rw [← hl]
      exact (if_neg hkept).symm
    rcases h.cached k l hk (live_eq_some.mpr ⟨hl', hlive⟩) with ⟨q, t, hq, hkey, hasked⟩ | hlasting
    · exact Or.inl ⟨q, t, hq, hkey, hasked.append _⟩
    · refine absurd (hfinds k hk fun before after heq => ?_) hkept
      rw [hlasting before after heq]
      exact Option.some_ne_none l

/-- After a deletion the cache has nothing from before the search for its keys
began. -/
theorem asked_since {Q : θ → Prop} {keys : κ → Prop} {s₁ : Aside σ κ θ α}
    {mid after : List (AsideInput σ κ θ)} {ks : List κ} (hof : ∀ c, CallOf Q (s₁.call c))
    (hfinds : FindsLasting p keys s₁ mid ks)
    (hQ : ∀ i ∈ mid ++ .forget ks :: after, LooksFor Q i)
    (hlate : ∀ i ∈ mid ++ .forget ks :: after, NoLatePut p keys s₁ i) {k : κ} {l : Lease α}
    (hk : keys k) (hfound : found (run p.next s₁ (mid ++ .forget ks :: after)) k = some l) :
    ∃ q t, Q q ∧ p.key q = k ∧ Asked p s₁ (mid ++ .forget ks :: after) q l.token t := by
  have hall : ∀ {is : List (AsideInput σ κ θ)} {s : Aside σ κ θ α},
      (∀ i ∈ is, i ∈ mid ++ .forget ks :: after) →
      Throughout p.next (fun _ i => LooksFor Q i ∧ NoLatePut p keys s₁ i) s is :=
    fun h => throughout_of_forall fun i hi => ⟨hQ i (h i hi), hlate i (h i hi)⟩
  -- up to the deletion the old kind are the entries that have been there all along,
  -- and after it there is none
  have hstart : Since p Q keys (Lasting p s₁) s₁ [] s₁ := by
    refine ⟨hof, fun c q a t hcall => Or.inl hcall, ?_⟩
    intro k l _ hfound
    refine Or.inr ?_
    intro before after heq
    obtain ⟨rfl, _⟩ := List.append_eq_nil_iff.mp heq.symm
    exact hfound
  have hmid : Since p Q keys (Lasting p s₁) s₁ mid (run p.next s₁ mid) :=
    run_history (Since p Q keys (Lasting p s₁) s₁) hstart
      (fun js i h hi => since_next (fun k l hOld hf => lasting_next hOld hf) h hi.1 hi.2)
      (hall fun i hi => List.mem_append_left _ hi)
  have hforget := since_forget hfinds hmid
  have hrun : ∀ more : List (AsideInput σ κ θ),
      run p.next (p.next (run p.next s₁ mid) (.forget ks)) more
        = run p.next s₁ ((mid ++ [.forget ks]) ++ more) := by
    intro more
    rw [run_append, run_append]
    rfl
  have hafter := run_history
    (fun js s => Since p Q keys (fun _ _ _ => False) s₁ ((mid ++ [.forget ks]) ++ js) s)
    (by rw [List.append_nil]; exact hforget)
    (fun js i h hi => by
      rw [hrun] at h ⊢
      rw [← List.append_assoc]
      exact since_next (fun _ _ hOld _ => hOld) h hi.1 hi.2)
    (hall fun i hi => List.mem_append_right _ (List.mem_cons_of_mem _ hi))
  rw [hrun, ← List.append_cons mid _ after] at hafter
  exact (hafter.cached k l hk hfound).resolve_right id

end AsideSpec

end Eidetic.Lib
