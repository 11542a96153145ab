import Eidetic.Accounts.Users
import Eidetic.Lib.Run
import Eidetic.Lib.SortedSet
import Eidetic.Lib.Window
import Eidetic.Py.Text
import Mathlib.Data.List.Chain
import Mathlib.Data.Rat.Floor
import Mathlib.Logic.Function.Basic

/-!
# The sliding windows of the rate limiter

Every request is recorded in the sorted set of its key, whether it is let
through or not, and it is let through when the set then has no more members than
the limit. A request reads the clock of the backend, and its pipeline runs in
the store some while later, by the clock of the store. Pruning goes by the
former and takes away only what is older than the window; the expiry of the key
goes by the latter, and may take away what is not: when a request is under way
for longer than the one before it, the store's clock can pass the length of the
window between two requests that are less than it apart. Then the limit does not
hold (`lateExpiry_over`). Where it does not happen, no window of a key has more
requests that were let through than its limit (`withinLimit`); in particular
when no request is under way for longer than the one before (`keyLasts_of_delays`).

The invariant is `Remembers`: the next request finds, after its own pruning, all
requests of the window so far. One pipeline keeps it
(`remembers_afterPipeline`), so a sequence does (`remembers_run`), and the count
of a request is no less than the number of those (`length_le_zcard`).
-/

namespace Eidetic.Limits

open Eidetic.Lib Eidetic.Py

/-! ## The keys -/

/-- What `get_key` reads of a request. -/
structure HttpRequest where
  currentUser : Option Text := none
  authorization : Text := []
  forwardedFor : Option Text := none
  clientHost : Option Text := none

/-- `get_client_ip`. -/
def getClientIp (request : HttpRequest) : Text :=
  match request.forwardedFor, request.clientHost with
  | some (c :: cs), _ => strip (((c :: cs).splitOn ',').headD [])
  | _, some host => host
  | _, none => "unknown".toList

/-- `get_key`; `decodeSub` is the `sub` of a token, if it decodes and has one. -/
def getKey (decodeSub : Text → Option Text) (request : HttpRequest) : Text :=
  match request.currentUser with
  | some username => "user:".toList ++ username
  | none =>
    let sub :=
      if startsWith request.authorization "Bearer ".toList then
        decodeSub (request.authorization.drop 7)
      else none
    match sub with
    | some (c :: cs) => "user:".toList ++ c :: cs
    | _ => "ip:".toList ++ getClientIp request

/-- The limiters of the application, one for each scope, and the settings of the
limits for each model. -/
structure RateSettings (ι : Type) where
  scope : ι → Text
  limit : ι → Int
  window : ι → Int
  /-- `MODELS`, the ids by role. -/
  models : List (Text × Text)
  /-- `MODEL_RATE_LIMITS`. -/
  modelRateLimits : Text → Option (Int × Int)
  demoEphemeralEnabled : Bool
  scope_plain : ∀ i, ':' ∉ scope i
  scope_inj : ∀ i j, scope i = scope j → i = j
  scope_ne_model : ∀ i, scope i ≠ "model".toList
  role_plain : ∀ e ∈ models, ':' ∉ e.1
  role_ne_catalog : ∀ e ∈ models, e.1 ≠ "catalog".toList

/-- The scopes of the routes. -/
inductive Scope
  | chat
  | upload
  | ingestUrl
deriving DecidableEq

def Scope.name : Scope → Text
  | .chat => "chat".toList
  | .upload => "upload".toList
  | .ingestUrl => "ingest_url".toList

/-- The limiters of the routes, with the models and the limits of a configuration. -/
def application (llama coder reasoning : Text) (rateLimitLlama rateLimitCoder rateLimitReasoning
    rateLimitCatalog : Int) (demoEphemeralEnabled : Bool) : RateSettings Scope where
  scope := Scope.name
  limit
    | .chat => 15
    | .upload => 20
    | .ingestUrl => 10
  window _ := 60
  models :=
    [("llama".toList, llama), ("coder".toList, coder), ("reasoning".toList, reasoning)]
  modelRateLimits role :=
    if role = "llama".toList then some (rateLimitLlama, 60)
    else if role = "coder".toList then some (rateLimitCoder, 60)
    else if role = "reasoning".toList then some (rateLimitReasoning, 60)
    else if role = "catalog".toList then some (rateLimitCatalog, 60)
    else none
  demoEphemeralEnabled := demoEphemeralEnabled
  scope_plain i := by cases i <;> decide
  scope_inj i j h := by cases i <;> cases j <;> first | rfl | exact absurd h (by decide)
  scope_ne_model i := by cases i <;> decide
  role_plain := by
    intro e he
    simp only [List.mem_cons, List.not_mem_nil, or_false] at he
    rcases he with rfl | rfl | rfl <;> dsimp only <;> decide
  role_ne_catalog := by
    intro e he
    simp only [List.mem_cons, List.not_mem_nil, or_false] at he
    rcases he with rfl | rfl | rfl <;> dsimp only <;> decide

variable {ι : Type} (settings : RateSettings ι)

/-- The limit of the bucket that all other models share. -/
def RateSettings.catalogLimit (username : Text) : Int × Int :=
  let (limitCount, window) := (settings.modelRateLimits "catalog".toList).getD (20, 60)
  if settings.demoEphemeralEnabled && Accounts.isEphemeralDemo username then
    (max 1 (limitCount / 2), window)
  else (limitCount, window)

/-- `resolve_bucket`: the name of the bucket, its limit and its window. -/
def RateSettings.resolveBucket (fullModelName username : Text) : Option (Text × Int × Int) :=
  match settings.models.find? fun e => e.2 = fullModelName with
  | some (roleKey, _) => (settings.modelRateLimits roleKey).map fun l => (roleKey, l)
  | none => some ("catalog".toList, settings.catalogLimit username)

/-- What is limited: a request by one of the limiters, or the choice of a model. -/
inductive Target (ι : Type)
  | limiter (i : ι) (request : HttpRequest)
  | model (fullModelName username : Text)

/-- The key, the limit and the window of `rate_limiter` and `check_model_rate`. -/
def RateSettings.bucket (decodeSub : Text → Option Text) : Target ι → Option (Text × Int × Int)
  | .limiter i request =>
    some ("rate:".toList ++ settings.scope i ++ ':' :: getKey decodeSub request,
      settings.limit i, settings.window i)
  | .model fullModelName username =>
    (settings.resolveBucket fullModelName username).map fun b =>
      ("rate:model:".toList ++ b.1 ++ ":user:".toList ++ username, b.2)

/-! ## The windows -/

/-- A request: its time by the clock of the backend, in seconds, and the clock of
the store when its pipeline runs there, in milliseconds. -/
structure Call (ι : Type) where
  now : Rat
  clock : Int
  target : Target ι

/-- A key of the store: the member `str(now)` stands for its time. -/
abbrev Slot := SortedSet Rat Rat

/-- The commands of the pipeline up to `zadd`. -/
def record (window : Int) (call : Call ι) (s : Slot) : Slot :=
  ((s.live call.clock).zremrangebyscore 0 (call.now - window)).zadd call.now call.now

/-- The key after the pipeline. -/
def afterPipeline (window : Int) (call : Call ι) (s : Slot) : Slot :=
  (record window call s).expire call.clock window

/-- The keys of the store. -/
abbrev Store := Text → Slot

variable (decodeSub : Text → Option Text)

/-- What a request leaves of the keys. -/
def RateSettings.step (s : Store) (call : Call ι) : Store :=
  match settings.bucket decodeSub call.target with
  | some (key, _, window) => Function.update s key (afterPipeline window call (s key))
  | none => s

/-- The request is let through: the count is not above the limit. -/
def RateSettings.admits (s : Store) (call : Call ι) : Bool :=
  match settings.bucket decodeSub call.target with
  | some (key, limit, window) => (record window call (s key)).zcard ≤ limit
  | none => true

/-- The requests of a sequence that are let through. -/
def admitted : Store → List (Call ι) → List (Call ι)
  | _, [] => []
  | s, call :: calls =>
    let rest := admitted (settings.step decodeSub s call) calls
    if settings.admits decodeSub s call then call :: rest else rest

/-- Requests that come one at a time. -/
structure Arrivals (ι : Type) where
  calls : List (Call ι)
  increasing : calls.Pairwise fun c c' => c.now < c'.now

/-- The request has this key. -/
def RateSettings.hasKey (key : Text) (call : Call ι) : Bool :=
  (settings.bucket decodeSub call.target).any fun b => b.1 = key

/-- The requests of a key in `(a, a + window]` that are let through. -/
def admittedIn (arrivals : Arrivals ι) (key : Text) (window : Int) (a : Rat) : List (Call ι) :=
  (admitted settings decodeSub (fun _ => {}) arrivals.calls).filter fun c =>
    settings.hasKey decodeSub key c && (a < c.now ∧ c.now ≤ a + window)

/-- From a request of the key in `(a, a + window]` to the next one in it the
clock of the store passes no more than the window. -/
def KeyLasts (arrivals : Arrivals ι) (key : Text) (window : Int) (a : Rat) : Prop :=
  (arrivals.calls.filter (settings.hasKey decodeSub key)).IsChain fun c c' =>
    a < c.now → c'.now ≤ a + window → c'.clock ≤ c.clock + 1000 * window

/-! ## A key has one limit -/

/-- What comes before the first colon. -/
theorem colon_split {a b x y : Text} (ha : ':' ∉ a) (hb : ':' ∉ b) (h : a ++ ':' :: x = b ++ ':' :: y) :
    a = b ∧ x = y := by
  induction a generalizing b with
  | nil =>
    cases b with
    | nil => exact ⟨rfl, (List.cons.inj h).2⟩
    | cons c b =>
      obtain ⟨rfl, _⟩ := List.cons.inj h
      exact absurd (List.mem_cons_self ..) hb
  | cons c a ih =>
    cases b with
    | nil =>
      obtain ⟨rfl, _⟩ := List.cons.inj h
      exact absurd (List.mem_cons_self ..) ha
    | cons d b =>
      obtain ⟨rfl, hrest⟩ := List.cons.inj h
      rw [List.mem_cons, not_or] at ha hb
      obtain ⟨rfl, rfl⟩ := ih ha.2 hb.2 hrest
      exact ⟨rfl, rfl⟩

/-- A bucket is a role with its own limit, or the one for all others. -/
theorem resolveBucket_some {fullModelName username b : Text} {l : Int × Int}
    (h : settings.resolveBucket fullModelName username = some (b, l)) :
    ':' ∉ b ∧ ((b ≠ "catalog".toList ∧ settings.modelRateLimits b = some l) ∨
      b = "catalog".toList ∧ l = settings.catalogLimit username) := by
  unfold RateSettings.resolveBucket at h
  split at h
  next roleKey id hfind =>
    have hmem := List.mem_of_find?_eq_some hfind
    obtain ⟨l', hl, heq⟩ := Option.map_eq_some_iff.mp h
    obtain ⟨rfl, rfl⟩ := Prod.mk.inj heq
    exact ⟨settings.role_plain _ hmem, Or.inl ⟨settings.role_ne_catalog _ hmem, hl⟩⟩
  next =>
    obtain ⟨rfl, rfl⟩ := Prod.mk.inj (Option.some.inj h)
    exact ⟨by decide, Or.inr ⟨rfl, rfl⟩⟩

/-- Two requests with one key have one limit and one window. -/
theorem bucket_unique {t t' : Target ι} {key : Text} {l l' : Int × Int}
    (h : settings.bucket decodeSub t = some (key, l))
    (h' : settings.bucket decodeSub t' = some (key, l')) : l = l' := by
  have hscope : ∀ i : ι, ∀ client rest : Text,
      "rate:".toList ++ settings.scope i ++ ':' :: client ≠ "rate:model:".toList ++ rest := by
    intro i client rest heq
    have hrest : settings.scope i ++ ':' :: client = "model".toList ++ ':' :: rest := by
      simpa using heq
    exact settings.scope_ne_model i (colon_split (settings.scope_plain i) (by decide) hrest).1
  cases t with
  | limiter i request =>
    obtain ⟨rfl, rfl⟩ := Prod.mk.inj (Option.some.inj h)
    cases t' with
    | limiter j request' =>
      obtain ⟨hkey, rfl⟩ := Prod.mk.inj (Option.some.inj h')
      rw [List.append_assoc, List.append_assoc] at hkey
      have hscopes := (colon_split (settings.scope_plain j) (settings.scope_plain i)
        (List.append_cancel_left hkey)).1
      rw [settings.scope_inj _ _ hscopes]
    | model fullModelName username =>
      obtain ⟨b, _, heq⟩ := Option.map_eq_some_iff.mp h'
      obtain ⟨hkey, _⟩ := Prod.mk.inj heq
      rw [List.append_assoc, List.append_assoc] at hkey
      exact absurd hkey.symm (hscope i _ _)
  | model fullModelName username =>
    obtain ⟨⟨b, lb⟩, hb, heq⟩ := Option.map_eq_some_iff.mp h
    obtain ⟨rfl, rfl⟩ := Prod.mk.inj heq
    cases t' with
    | limiter i request =>
      obtain ⟨hkey, _⟩ := Prod.mk.inj (Option.some.inj h')
      rw [List.append_assoc ("rate:model:".toList ++ b), List.append_assoc "rate:model:".toList] at hkey
      exact absurd hkey (hscope i _ _)
    | model fullModelName' username' =>
      obtain ⟨⟨b', lb'⟩, hb', heq⟩ := Option.map_eq_some_iff.mp h'
      obtain ⟨hkey, rfl⟩ := Prod.mk.inj heq
      obtain ⟨hplain, hlimit⟩ := resolveBucket_some settings hb
      obtain ⟨hplain', hlimit'⟩ := resolveBucket_some settings hb'
      have hparts : b' ++ ':' :: ("user:".toList ++ username') =
          b ++ ':' :: ("user:".toList ++ username) := by
        simpa using hkey
      obtain ⟨rfl, huser⟩ := colon_split hplain' hplain hparts
      obtain rfl := List.append_cancel_left huser
      rcases hlimit with ⟨hne, hlimit⟩ | ⟨hcatalog, rfl⟩
      · rcases hlimit' with ⟨_, hlimit'⟩ | ⟨hcatalog, _⟩
        · exact Option.some.inj (hlimit.symm.trans hlimit')
        · exact absurd hcatalog hne
      · rcases hlimit' with ⟨hne, _⟩ | ⟨_, rfl⟩
        · exact absurd hcatalog hne
        · rfl

/-! ## The key remembers the window -/

variable {settings decodeSub}

/-- The next request is in the window, and its key has not expired since the
last one in it. -/
structure Follows (window : Int) (a : Rat) (hits : List (Call ι)) (next : Call ι) : Prop where
  later : ∀ c ∈ hits, c.now < next.now
  inside : next.now ≤ a + window
  lasts : ∀ c ∈ hits.getLast?, a < c.now → next.clock ≤ c.clock + 1000 * window

/-- The members of a key are requests that it was asked for, and a request that comes
next finds all that are in the window. -/
structure Remembers (window : Int) (a : Rat) (hits : List (Call ι)) (s : Slot) : Prop where
  members : ∀ e ∈ s.entries, ∃ c ∈ hits, e.1 = c.now
  found : ∀ next : Call ι, Follows window a hits next →
    ((hits.filter fun c => a < c.now).map fun c => (c.now, c.now)).Sublist
      ((s.live next.clock).zremrangebyscore 0 (next.now - window)).entries

theorem pruned_subset (s : Slot) (clock : Int) (low high : Rat) :
    ∀ e ∈ ((s.live clock).zremrangebyscore low high).entries, e ∈ s.entries := by
  intro e he
  rw [SortedSet.zremrangebyscore_entries] at he
  exact (s.live_entries_sublist clock).subset (List.mem_of_mem_filter he)

/-- A request is one more member. -/
theorem record_entries {window : Int} {a : Rat} {hits : List (Call ι)} {s : Slot}
    (h : Remembers window a hits s) {call : Call ι} (hnow : ∀ c ∈ hits, c.now < call.now) :
    (record window call s).entries =
      ((s.live call.clock).zremrangebyscore 0 (call.now - window)).entries
        ++ [(call.now, call.now)] := by
  refine SortedSet.zadd_entries (fun e he heq => ?_) call.now
  obtain ⟨c, hc, hmember⟩ := h.members e (pruned_subset s _ _ _ e he)
  exact absurd (hnow c hc) (by rw [← hmember, heq]; exact lt_irrefl _)

/-- With a request the key has all of the window, and the request itself. -/
theorem record_found {window : Int} {a : Rat} {hits : List (Call ι)} {s : Slot}
    (h : Remembers window a hits s) {call : Call ι} (hcall : Follows window a hits call) :
    (((hits ++ [call]).filter fun c => a < c.now).map fun c => (c.now, c.now)).Sublist
      (record window call s).entries := by
  rw [record_entries h hcall.later, List.filter_append, List.map_append]
  refine (h.found call hcall).append ?_
  exact (List.filter_sublist (l := [call])).map fun c : Call ι => (c.now, c.now)

/-- The count of a request is no less than the number of requests of the window. -/
theorem length_le_zcard {window : Int} {a : Rat} {hits : List (Call ι)} {s : Slot}
    (h : Remembers window a hits s) {call : Call ι} (hcall : Follows window a hits call) :
    ((hits ++ [call]).filter fun c => a < c.now).length ≤ (record window call s).zcard := by
  have hlength := (record_found h hcall).length_le
  rw [List.length_map] at hlength
  exact hlength

/-- The pipeline keeps what is in the window for the request that follows. -/
theorem remembers_afterPipeline {window : Int} {a : Rat} {hits : List (Call ι)} {s : Slot}
    (h : Remembers window a hits s) {call : Call ι} (hcall : Follows window a hits call) :
    Remembers window a (hits ++ [call]) (afterPipeline window call s) := by
  have hrecord := record_entries h hcall.later
  have hmembers : ∀ e ∈ (record window call s).entries, ∃ c ∈ hits ++ [call], e.1 = c.now := by
    intro e he
    rw [hrecord, List.mem_append, List.mem_singleton] at he
    rcases he with he | rfl
    · obtain ⟨c, hc, hmember⟩ := h.members e (pruned_subset s _ _ _ e he)
      exact ⟨c, List.mem_append_left _ hc, hmember⟩
    · exact ⟨call, by simp, rfl⟩
  have hall : ∀ c ∈ hits ++ [call], c.now ≤ call.now := by
    intro c hc
    rw [List.mem_append, List.mem_singleton] at hc
    rcases hc with hc | rfl
    · exact le_of_lt (hcall.later c hc)
    · exact le_refl _
  have hnone : call.now ≤ a → ((hits ++ [call]).filter fun c => a < c.now) = [] := by
    intro hbefore
    rw [List.filter_eq_nil_iff]
    intro c hc
    simpa using (hall c hc).trans hbefore
  unfold afterPipeline SortedSet.expire
  rw [if_neg (by rw [hrecord]; simp)]
  split
  next hwindow =>
    -- the key is gone at once, and no request is in a window without length
    refine ⟨by simp, fun next hnext => ?_⟩
    have hlater := hnext.later call (by simp)
    have hinside := hnext.inside
    have hcast : (window : Rat) ≤ 0 := by exact_mod_cast hwindow
    rw [hnone (by linarith)]
    exact List.nil_sublist _
  next hwindow =>
    refine ⟨hmembers, fun next hnext => ?_⟩
    by_cases hbefore : call.now ≤ a
    · rw [hnone hbefore]
      exact List.nil_sublist _
    · have hlasts := hnext.lasts call (by simp) (not_le.mp hbefore)
      unfold SortedSet.live
      dsimp only
      rw [if_neg (by omega), SortedSet.zremrangebyscore_entries]
      dsimp only
      -- what is in the window is not pruned
      have hkept := (record_found h hcall).filter fun e =>
        !(decide (0 ≤ e.2) && decide (e.2 ≤ next.now - window))
      rwa [List.filter_eq_self.mpr] at hkept
      intro e he
      obtain ⟨c, hc, rfl⟩ := List.mem_map.mp he
      have hc : a < c.now := by simpa using (List.mem_filter.mp hc).2
      have hinside := hnext.inside
      have hno : ¬ c.now ≤ next.now - window := by
        rw [not_le]
        linarith
      simp [hno]

/-! ## Sequences of requests -/

theorem bucket_of_hasKey {key : Text} {call : Call ι} (h : settings.hasKey decodeSub key call) :
    ∃ l, settings.bucket decodeSub call.target = some (key, l) := by
  unfold RateSettings.hasKey at h
  cases hb : settings.bucket decodeSub call.target with
  | none => simp [hb] at h
  | some b =>
    obtain rfl : b.1 = key := by simpa [hb] using h
    exact ⟨b.2, rfl⟩

/-- The other keys stay as they are. -/
theorem step_other {key : Text} {call : Call ι} (h : settings.hasKey decodeSub key call = false)
    (s : Store) : settings.step decodeSub s call key = s key := by
  unfold RateSettings.step
  unfold RateSettings.hasKey at h
  cases hb : settings.bucket decodeSub call.target with
  | none => rfl
  | some b =>
    refine Function.update_of_ne ?_ ..
    rintro rfl
    simp [hb] at h

/-- A key remembers its requests all along a sequence, up to one in the window. -/
theorem remembers_run {key : Text} {limit window : Int} {a : Rat}
    (hkey : ∀ call : Call ι, settings.hasKey decodeSub key call →
      settings.bucket decodeSub call.target = some (key, limit, window))
    {s : Store} {before calls : List (Call ι)} (hs : Remembers window a before (s key))
    (hincreasing : (before ++ calls).Pairwise fun c c' => c.now < c'.now)
    (hinside : ∀ c ∈ calls, c.now ≤ a + window)
    (hlasts : (before ++ calls.filter (settings.hasKey decodeSub key)).IsChain fun c c' =>
      a < c.now → c'.now ≤ a + window → c'.clock ≤ c.clock + 1000 * window) :
    Remembers window a (before ++ calls.filter (settings.hasKey decodeSub key))
      (run (settings.step decodeSub) s calls key) := by
  induction calls generalizing s before with
  | nil =>
    rw [List.filter_nil, List.append_nil]
    exact hs
  | cons call calls ih =>
    have hlater := List.pairwise_append.mp hincreasing
    have hrest : ∀ c ∈ calls, c.now ≤ a + window :=
      fun c hc => hinside c (List.mem_cons_of_mem _ hc)
    by_cases hcall : settings.hasKey decodeSub key call
    · rw [List.filter_cons_of_pos hcall, List.append_cons] at hlasts ⊢
      refine ih ?_ (by rwa [← List.append_cons]) hrest hlasts
      have hstep : settings.step decodeSub s call key = afterPipeline window call (s key) := by
        unfold RateSettings.step
        rw [hkey call hcall]
        exact Function.update_self ..
      have hinsideCall := hinside call List.mem_cons_self
      rw [hstep]
      refine remembers_afterPipeline hs ⟨?_, hinsideCall, ?_⟩
      · exact fun c hc => hlater.2.2 c hc call (List.mem_cons_self ..)
      · intro c hc hbegin
        have hpair := (List.isChain_append.mp (List.isChain_append.mp hlasts).1).2.2
        exact hpair c hc call (by simp) hbegin hinsideCall
    · rw [List.filter_cons_of_neg hcall] at hlasts ⊢
      refine ih ?_ (hincreasing.sublist ((List.sublist_cons_self call calls).append_left before))
        hrest hlasts
      rw [step_other (by simpa using hcall)]
      exact hs

theorem admitted_sublist (s : Store) (calls : List (Call ι)) :
    (admitted settings decodeSub s calls).Sublist calls := by
  induction calls generalizing s with
  | nil => exact List.Sublist.refl _
  | cons call calls ih =>
    unfold admitted
    dsimp only
    split
    next => exact (ih _).cons_cons call
    next => exact (ih _).cons call

/-- A request that is let through is so in its place. -/
theorem mem_admitted {s : Store} {calls : List (Call ι)} {c : Call ι}
    (h : c ∈ admitted settings decodeSub s calls) :
    ∃ before after, calls = before ++ c :: after ∧
      settings.admits decodeSub (run (settings.step decodeSub) s before) c := by
  induction calls generalizing s with
  | nil => exact absurd h List.not_mem_nil
  | cons call calls ih =>
    have hrest : c ∈ admitted settings decodeSub (settings.step decodeSub s call) calls →
        ∃ before after, call :: calls = before ++ c :: after ∧
          settings.admits decodeSub (run (settings.step decodeSub) s before) c := by
      intro hmem
      obtain ⟨before, after, rfl, hadmits⟩ := ih hmem
      exact ⟨call :: before, after, rfl, hadmits⟩
    unfold admitted at h
    dsimp only at h
    split at h
    next hadmits =>
      rcases List.mem_cons.mp h with rfl | h
      · exact ⟨[], calls, rfl, hadmits⟩
      · exact hrest h
    next => exact hrest h

/-- No window of a key has more requests that are let through than its limit,
if the key lasts from one of its requests to the next. -/
theorem withinLimit (settings : RateSettings ι) (decodeSub : Text → Option Text)
    (arrivals : Arrivals ι) {target : Target ι} {key : Text} {limit window : Int}
    (htarget : settings.bucket decodeSub target = some (key, limit, window)) {a : Rat}
    (hlasts : KeyLasts settings decodeSub arrivals key window a) :
    (admittedIn settings decodeSub arrivals key window a).length ≤ limit.toNat := by
  have hkey : ∀ call : Call ι, settings.hasKey decodeSub key call →
      settings.bucket decodeSub call.target = some (key, limit, window) := by
    intro call hcall
    obtain ⟨l, hl⟩ := bucket_of_hasKey hcall
    rw [hl, bucket_unique settings decodeSub hl htarget]
  unfold admittedIn
  generalize hadmitted : admitted settings decodeSub (fun _ => {}) arrivals.calls = passed
  have hsplit : (passed.filter fun c =>
      settings.hasKey decodeSub key c && (a < c.now ∧ c.now ≤ a + window)) =
        (passed.filter (settings.hasKey decodeSub key)).filter fun c =>
          a < c.now ∧ c.now ≤ a + window := by
    rw [List.filter_filter]
    exact List.filter_congr fun c _ => Bool.and_comm ..
  have hsub : passed.Sublist arrivals.calls := hadmitted ▸ admitted_sublist _ _
  rw [hsplit]
  refine length_window_le (arrivals.increasing.sublist List.filter_sublist) (hsub.filter _) ?_
  intro before c after hevents hc hbegin hend
  obtain ⟨hc, hhas⟩ := List.mem_filter.mp hc
  obtain ⟨before', after', hcalls, hadmits⟩ := mem_admitted (hadmitted ▸ hc)
  -- the requests of the key before this one
  have hbefore : before'.filter (settings.hasKey decodeSub key) = before := by
    have hincreasing := arrivals.increasing.sublist
      (List.filter_sublist (p := settings.hasKey decodeSub key))
    have hsame : before'.filter (settings.hasKey decodeSub key) ++
        c :: after'.filter (settings.hasKey decodeSub key) = before ++ c :: after := by
      rw [← hevents, hcalls, List.filter_append, List.filter_cons_of_pos hhas]
    have hupto := filter_le_eq (hevents ▸ hincreasing)
    rw [← hsame, filter_le_eq (by rw [hsame, ← hevents]; exact hincreasing)] at hupto
    exact List.append_cancel_right hupto
  have hincreasing := arrivals.increasing
  rw [hcalls, List.pairwise_append] at hincreasing
  have hearlier : ∀ d ∈ before', d.now < c.now :=
    fun d hd => hincreasing.2.2 d hd c (List.mem_cons_self ..)
  unfold KeyLasts at hlasts
  rw [hcalls, List.filter_append, List.filter_cons_of_pos hhas, hbefore, List.isChain_append]
    at hlasts
  have hstart : Remembers window a ([] : List (Call ι)) {} := ⟨by simp, by simp⟩
  have hremembers := remembers_run (s := fun _ => {}) hkey hstart
    (show ([] ++ before').Pairwise _ from hincreasing.1)
    (fun d hd => (hearlier d hd).le.trans hend) (by rw [List.nil_append, hbefore]; exact hlasts.1)
  rw [List.nil_append, hbefore] at hremembers
  have hfollows : Follows window a before c := by
    refine ⟨?_, hend, fun d hd hin => hlasts.2.2 d hd c (by simp) hin hend⟩
    intro d hd
    rw [← hbefore] at hd
    exact hearlier d (List.mem_of_mem_filter hd)
  have hcount := length_le_zcard hremembers hfollows
  unfold RateSettings.admits at hadmits
  rw [hkey c hhas] at hadmits
  have hle : ((record window c
      (run (settings.step decodeSub) (fun _ => {}) before' key)).zcard : Int) ≤ limit := by
    simpa using hadmits
  omega

/-! ## Delays -/

/-- The clock of the store, in milliseconds, when a pipeline runs there; the
delay is the time since the clock of the backend was read, and how far that one
is behind. -/
def storeClock (delay now : Rat) : Int := ⌊1000 * (now + delay)⌋

/-- With delays that do not grow the store's clock passes the window only with
the backend's. -/
theorem storeClock_passed {delay delay' now later : Rat} (h : delay' ≤ delay) {window : Int}
    (hpassed : storeClock delay now + 1000 * window < storeClock delay' later) :
    now + window < later := by
  have hnow := Int.lt_floor_add_one (1000 * (now + delay))
  have hlater := Int.floor_le (1000 * (later + delay'))
  have hcast : ((storeClock delay now + 1000 * window + 1 : Int) : Rat)
      ≤ storeClock delay' later := by
    exact_mod_cast hpassed
  unfold storeClock at hcast
  push_cast at hcast
  linarith

/-- A key lasts when no request of it is under way for longer than the one before. -/
theorem keyLasts_of_delays (arrivals : Arrivals ι) (delay : Call ι → Rat) {key : Text}
    (hclock : ∀ c ∈ arrivals.calls, c.clock = storeClock (delay c) c.now)
    (hdelay : (arrivals.calls.filter (settings.hasKey decodeSub key)).IsChain fun c c' =>
      delay c' ≤ delay c) (window : Int) (a : Rat) :
    KeyLasts settings decodeSub arrivals key window a := by
  refine hdelay.imp_of_mem_imp fun c c' hc hc' hle hbegin hend => ?_
  rw [hclock c (List.mem_of_mem_filter hc), hclock c' (List.mem_of_mem_filter hc')]
  by_contra hpassed
  have hwindow := storeClock_passed hle (not_le.mp hpassed)
  linarith

/-- The routes with small limits for the models. -/
def smallApplication : RateSettings Scope :=
  application "llama".toList "coder".toList "reasoning".toList 5 5 5 5 false

/-- A request of a user to the chat, under way for so long. -/
def chatCall (now delay : Rat) : Call Scope :=
  ⟨now, storeClock delay now, .limiter .chat { currentUser := some "ann".toList }⟩

/-- Fifteen requests within fifteen milliseconds, each under way for half a
millisecond, and one just within the minute. -/
def burst (lastDelay : Rat) : Arrivals Scope where
  calls := (List.range 15).map (fun i => chatCall (i / 1000) (1 / 2000))
    ++ [chatCall (1199 / 20) lastDelay]
  increasing := by
    have htimes : (((List.range 15).map fun i : Nat => (i / 1000 : Rat)) ++ [1199 / 20]).Pairwise
        (· < ·) := by
      decide +kernel
    have hmap : ((List.range 15).map (fun i => chatCall (i / 1000) (1 / 2000))
        ++ [chatCall (1199 / 20) lastDelay]).map Call.now
          = ((List.range 15).map fun i : Nat => (i / 1000 : Rat)) ++ [1199 / 20] := by
      rw [List.map_append, List.map_map]
      rfl
    rw [← hmap] at htimes
    exact List.pairwise_map.mp htimes

theorem burst_within :
    (admittedIn smallApplication (fun _ => none) (burst (1 / 2000)) "rate:chat:user:ann".toList 60
      (-1 / 100)).length ≤ 15 := by
  have htarget : smallApplication.bucket (fun _ => none)
      (.limiter .chat { currentUser := some "ann".toList })
        = some ("rate:chat:user:ann".toList, 15, 60) := rfl
  refine withinLimit smallApplication (fun _ => none) (burst (1 / 2000)) htarget ?_
  refine keyLasts_of_delays _ (fun _ => 1 / 2000) ?_ ?_ _ _
  · intro c hc
    rcases List.mem_append.mp hc with hc | hc
    · obtain ⟨i, _, rfl⟩ := List.mem_map.mp hc
      rfl
    · rw [List.mem_singleton.mp hc]
      rfl
  · exact (List.pairwise_of_forall fun _ _ => le_refl _).isChain

/-- The last request is under way for a tenth of a second, and finds its key expired. -/
theorem lateExpiry_over :
    ¬ ∀ (arrivals : Arrivals Scope) (target : Target Scope) (key : Text) (limit window : Int),
      smallApplication.bucket (fun _ => none) target = some (key, limit, window) → ∀ a : Rat,
        (admittedIn smallApplication (fun _ => none) arrivals key window a).length
          ≤ limit.toNat := by
  intro h
  have hle := h (burst (1 / 10)) (.limiter .chat { currentUser := some "ann".toList })
    "rate:chat:user:ann".toList 15 60 rfl (-1 / 100)
  have hcount : (admittedIn smallApplication (fun _ => none) (burst (1 / 10))
      "rate:chat:user:ann".toList 60 (-1 / 100)).length = 16 := by
    decide +kernel
  rw [hcount] at hle
  exact absurd hle (by decide)

end Eidetic.Limits
