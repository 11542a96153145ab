import Eidetic.Lib.Lease
import Eidetic.Lib.Run
import Eidetic.Py.Text
import Mathlib.Data.Nat.Choose.Basic
import Mathlib.Logic.Function.Basic

/-!
# `user_write_lock` with Redis

Tasks that use the lock of one user. A task polls `SET NX EX` until it has the
key or its deadline has passed, and deletes the key by its token when it
leaves. Nothing renews the key and nothing ends a section whose key has
expired. So a release never takes the lock of another (`releases_own`), the
sections exclude each other as long as none is longer than
`MEMORY_LOCK_TTL` (`mutex_of_inTime`), and a longer one lets the next task in
(`overrun_shares`): a compaction whose answers take that long (`compact_shares`).

The clock, the key with its time to go, and the phase of each task are the
state; a step is a command of one task or time passing. A task has its token,
which no other has, so that a release deletes only its own key needs no more
than the comparison in the script. The invariant of the rest is `Guarded`:
whoever is inside has the key and it has not expired. It makes the sections
exclude each other (`Guarded.exclusive`), and each step keeps it as long as no
section is longer than the `ttl`.

The other direction is by runs: from any state with a task inside, the key
expires and another task gets it at its first attempt (`run_enters`). How long a
compaction can be inside follows from the number of answers that it waits for
(`compactCalls_eq`).
-/

namespace Eidetic.Memory

open Eidetic.Lib Eidetic.Py

/-! ## The lock -/

/-- `MEMORY_LOCK_TTL` and `MEMORY_LOCK_WAIT`, in milliseconds. -/
structure LockConfig where
  ttl : Nat := 30000
  wait : Nat := 5000

/-- Where a task is in `user_write_lock`. -/
inductive LockPhase
  | outside
  /-- In `_acquire_redis_lock`: it may give up from the deadline on, and sleeps
  until it wakes. -/
  | polling (deadline wakes delay : Nat)
  | inside (since : Nat)
  | releasing
  | done
deriving DecidableEq

/-- What a task sees of a command to Redis. -/
inductive Answer
  | reply
  /-- The command is executed and the connection then fails. -/
  | lost
  | unreached
deriving DecidableEq

/-- The clock, the key of the user and the tasks. A task's `uuid4` is its number. -/
structure UserLock where
  now : Nat := 0
  key : Option (Lease Nat) := none
  phase : Nat → LockPhase := fun _ => .outside

/-- What can happen next. -/
inductive LockEvent
  | pass (time : Nat)
  | call (task : Nat)
  | attempt (task : Nat) (answer : Answer)
  /-- The section returns or raises. -/
  | finish (task : Nat)
  | release (task : Nat) (answer : Answer)

def UserLock.move (s : UserLock) (task : Nat) (phase : LockPhase) : UserLock :=
  { s with phase := Function.update s.phase task phase }

/-- One round of the loop of `_acquire_redis_lock`. -/
def acquireRedisLock (cfg : LockConfig) (s : UserLock) (task deadline delay : Nat) : Answer → UserLock
  | .reply =>
    -- Redis takes no expire time of 0
    if cfg.ttl = 0 then s.move task .done
    else
      match setNx s.now cfg.ttl task s.key with
      | some l => { s with key := some l }.move task (.inside s.now)
      | none =>
        if deadline ≤ s.now then s.move task .done
        else s.move task (.polling deadline (s.now + delay) (min (delay * 2) 500))
  | .lost =>
    if cfg.ttl = 0 then s.move task .done
    else
      match setNx s.now cfg.ttl task s.key with
      | some l => { s with key := some l }.move task .done
      | none => s.move task .done
  | .unreached => s.move task .done

/-- `_release_redis_lock`: a failure is only logged. -/
def releaseRedisLock (s : UserLock) (task : Nat) : Answer → UserLock
  | .unreached => s.move task .done
  | _ => { s with key := deleteToken s.now task s.key }.move task .done

def UserLock.step (cfg : LockConfig) (s : UserLock) : LockEvent → UserLock
  | .pass time => { s with now := s.now + time }
  | .call task =>
    match s.phase task with
    | .outside => s.move task (.polling (s.now + cfg.wait) s.now 50)
    | _ => s
  | .attempt task answer =>
    match s.phase task with
    | .polling deadline wakes delay =>
      if wakes ≤ s.now then acquireRedisLock cfg s task deadline delay answer else s
    | _ => s
  | .finish task =>
    match s.phase task with
    | .inside _ => s.move task .releasing
    | _ => s
  | .release task answer =>
    match s.phase task with
    | .releasing => releaseRedisLock s task answer
    | _ => s

/-- No two tasks are inside at once. -/
def Exclusive (s : UserLock) : Prop :=
  ∀ i j since since', s.phase i = .inside since → s.phase j = .inside since' → i = j

/-- The key is there and has the task's token. -/
def Holds (s : UserLock) (task : Nat) : Prop := ∃ l, live s.now s.key = some l ∧ l.token = task

/-- A release takes the lock of no other task. -/
def ReleasesOwn (cfg : LockConfig) (s : UserLock) : Prop :=
  ∀ i answer j, i ≠ j → Holds s j → Holds (s.step cfg (.release i answer)) j

/-- `user_write_lock` is a mutex. -/
def Mutex (cfg : LockConfig) (s : UserLock) : Prop := Exclusive s ∧ ReleasesOwn cfg s

/-- Each section that is still there when time has passed is shorter than the
`ttl`. -/
def InTime (cfg : LockConfig) (s : UserLock) : LockEvent → Prop
  | .pass time => ∀ i since, s.phase i = .inside since → s.now + time < since + cfg.ttl
  | _ => True

variable {cfg : LockConfig}

@[simp] theorem UserLock.move_phase (s : UserLock) (task : Nat) (phase : LockPhase) :
    (s.move task phase).phase task = phase :=
  Function.update_self ..

theorem UserLock.move_phase_of_ne (s : UserLock) {task i : Nat} (h : i ≠ task) (phase : LockPhase) :
    (s.move task phase).phase i = s.phase i :=
  Function.update_of_ne h ..

/-- The key is not there, so the task gets it. -/
theorem acquire_free {s : UserLock} (hlive : live s.now s.key = none) (httl : cfg.ttl ≠ 0)
    (task deadline delay : Nat) :
    acquireRedisLock cfg s task deadline delay .reply =
      { s with key := some ⟨task, s.now + cfg.ttl⟩ }.move task (.inside s.now) := by
  unfold acquireRedisLock
  dsimp only
  rw [if_neg httl, setNx_of_none hlive]

/-! ## Release -/

theorem releases_own (cfg : LockConfig) (s : UserLock) : ReleasesOwn cfg s := by
  intro i answer j hne hj
  obtain ⟨l, hl, rfl⟩ := hj
  obtain ⟨hkey, hnow⟩ := live_eq_some.mp hl
  have hdelete : deleteToken s.now i s.key = some l := by
    rw [hkey]
    exact deleteToken_of_ne fun heq => hne heq.symm
  unfold UserLock.step
  dsimp only
  split
  next =>
    unfold releaseRedisLock
    split
    next => exact ⟨l, hl, rfl⟩
    next => exact ⟨l, live_eq_some.mpr ⟨hdelete, hnow⟩, rfl⟩
  next => exact ⟨l, hl, rfl⟩

/-! ## Sections in time -/

/-- A task that is inside has the key, and it has not expired. -/
def Guarded (cfg : LockConfig) (s : UserLock) : Prop :=
  ∀ i since, s.phase i = .inside since → s.key = some ⟨i, since + cfg.ttl⟩ ∧
    s.now < since + cfg.ttl

theorem Guarded.exclusive {s : UserLock} (h : Guarded cfg s) : Exclusive s := by
  intro i j since since' hi hj
  have heq := (h i since hi).1.symm.trans (h j since' hj).1
  exact congrArg Lease.token (Option.some.inj heq)

/-- A task that goes anywhere but inside leaves the others guarded. -/
theorem Guarded.move {s : UserLock} (h : Guarded cfg s) {task : Nat} {phase : LockPhase}
    (hphase : ∀ since, phase ≠ .inside since) : Guarded cfg (s.move task phase) := by
  intro i since hi
  by_cases htask : i = task
  · subst htask
    rw [UserLock.move_phase] at hi
    exact absurd hi (hphase since)
  · rw [UserLock.move_phase_of_ne _ htask] at hi
    exact h i since hi

/-- Whoever gets the key is alone. -/
theorem Guarded.none_inside {s : UserLock} (h : Guarded cfg s) (hlive : live s.now s.key = none)
    (i since : Nat) : s.phase i ≠ .inside since := by
  intro hi
  obtain ⟨hkey, hnow⟩ := h i since hi
  rw [live_eq_some.mpr ⟨hkey, hnow⟩] at hlive
  exact absurd hlive (by simp)

theorem Guarded.acquire {s : UserLock} (h : Guarded cfg s) (task deadline delay : Nat)
    (answer : Answer) : Guarded cfg (acquireRedisLock cfg s task deadline delay answer) := by
  cases hlive : live s.now s.key with
  | some l =>
    -- somebody has the key
    have hset : setNx s.now cfg.ttl task s.key = none := setNx_of_live hlive
    unfold acquireRedisLock
    split
    next =>
      rw [hset]
      split
      next => exact h.move (by simp)
      next =>
        dsimp only
        split <;> exact h.move (by simp)
    next =>
      rw [hset]
      split <;> exact h.move (by simp)
    next => exact h.move (by simp)
  | none =>
    have hset : setNx s.now cfg.ttl task s.key = some ⟨task, s.now + cfg.ttl⟩ :=
      setNx_of_none hlive
    have hnone := h.none_inside hlive
    cases answer with
    | reply =>
      by_cases httl : cfg.ttl = 0
      · unfold acquireRedisLock
        dsimp only
        rw [if_pos httl]
        exact h.move (by simp)
      · rw [acquire_free hlive httl]
        intro i since hi
        by_cases htask : i = task
        · subst htask
          rw [UserLock.move_phase] at hi
          obtain rfl : s.now = since := by simpa using hi
          exact ⟨rfl, by show s.now < s.now + cfg.ttl; omega⟩
        · rw [UserLock.move_phase_of_ne _ htask] at hi
          exact absurd hi (hnone i since)
    | lost =>
      unfold acquireRedisLock
      dsimp only
      split
      next => exact h.move (by simp)
      next =>
        have hkey : Guarded cfg { s with key := some ⟨task, s.now + cfg.ttl⟩ } :=
          fun i since hi => absurd hi (hnone i since)
        rw [hset]
        exact hkey.move (by simp)
    | unreached => exact h.move (by simp)

/-- A task that releases does not have the token of one that is inside. -/
theorem Guarded.release {s : UserLock} (h : Guarded cfg s) {task : Nat}
    (htask : s.phase task = .releasing) (answer : Answer) :
    Guarded cfg (releaseRedisLock s task answer) := by
  have hkey : Guarded cfg { s with key := deleteToken s.now task s.key } := by
    intro i since hi
    obtain ⟨hlease, hnow⟩ := h i since hi
    refine ⟨?_, hnow⟩
    show deleteToken s.now task s.key = _
    rw [hlease]
    refine deleteToken_of_ne ?_
    rintro rfl
    rw [show s.phase _ = _ from htask] at hi
    exact absurd hi (by simp)
  unfold releaseRedisLock
  split
  next => exact h.move (by simp)
  next => exact hkey.move (by simp)

theorem guarded_step (s : UserLock) (e : LockEvent) (h : Guarded cfg s) (htime : InTime cfg s e) :
    Guarded cfg (s.step cfg e) := by
  cases e with
  | pass time => exact fun i since hi => ⟨(h i since hi).1, htime i since hi⟩
  | call task =>
    unfold UserLock.step
    dsimp only
    split
    next => exact h.move (by simp)
    next => exact h
  | attempt task answer =>
    unfold UserLock.step
    dsimp only
    split
    next deadline wakes delay _ =>
      split
      next => exact h.acquire task deadline delay answer
      next => exact h
    next => exact h
  | finish task =>
    unfold UserLock.step
    dsimp only
    split
    next => exact h.move (by simp)
    next => exact h
  | release task answer =>
    unfold UserLock.step
    dsimp only
    split
    next htask => exact h.release htask answer
    next => exact h

/-- In a run in which no section is longer than the `ttl`, the lock is a mutex. -/
theorem mutex_of_inTime {events : List LockEvent}
    (h : Throughout (UserLock.step cfg) (InTime cfg) {} events) :
    Mutex cfg (run (UserLock.step cfg) {} events) := by
  have hguarded : Guarded cfg (run (UserLock.step cfg) {} events) :=
    run_invariant (Guarded cfg) guarded_step (fun _ _ hi => absurd hi (by simp)) h
  exact ⟨hguarded.exclusive, releases_own cfg _⟩

/-! ## Sections that take too long -/

/-- A task that finds no key gets it at its first attempt. -/
theorem run_enters {s : UserLock} (hlive : live s.now s.key = none) (httl : cfg.ttl ≠ 0) {task : Nat}
    (htask : s.phase task = .outside) :
    run (UserLock.step cfg) s [.call task, .attempt task .reply] =
      ({ s with key := some ⟨task, s.now + cfg.ttl⟩ }.move task
        (.polling (s.now + cfg.wait) s.now 50)).move task (.inside s.now) := by
  have hcall : s.step cfg (.call task) = s.move task (.polling (s.now + cfg.wait) s.now 50) := by
    unfold UserLock.step
    dsimp only
    rw [htask]
  have hattempt : (s.move task (.polling (s.now + cfg.wait) s.now 50)).step cfg
      (.attempt task .reply) = acquireRedisLock cfg
        (s.move task (.polling (s.now + cfg.wait) s.now 50)) task (s.now + cfg.wait) 50 .reply := by
    unfold UserLock.step
    dsimp only
    rw [UserLock.move_phase]
    exact if_pos (Nat.le_refl _)
  rw [run, run, run, hcall, hattempt, acquire_free (by exact hlive) httl]
  rfl

/-- A key that is gone lets the next task in, whoever is inside. -/
theorem free_shares {s : UserLock} (hlive : live s.now s.key = none) (httl : cfg.ttl ≠ 0)
    {i j since : Nat} (hi : s.phase i = .inside since) (hj : s.phase j = .outside) :
    ¬ Exclusive (run (UserLock.step cfg) s [.call j, .attempt j .reply]) := by
  have hne : i ≠ j := by
    rintro rfl
    rw [hi] at hj
    exact absurd hj (by simp)
  intro hexclusive
  rw [run_enters hlive httl hj] at hexclusive
  refine hne (hexclusive i j since s.now ?_ (UserLock.move_phase ..))
  rw [UserLock.move_phase_of_ne _ hne, UserLock.move_phase_of_ne _ hne]
  exact hi

/-- As long as a task is inside, another can come to be: the key need only expire. -/
theorem overrun_shares {s : UserLock} (httl : cfg.ttl ≠ 0) {i j since : Nat}
    (hi : s.phase i = .inside since) (hj : s.phase j = .outside) :
    ∃ time, ¬ Exclusive (run (UserLock.step cfg) s [.pass time, .call j, .attempt j .reply]) := by
  refine ⟨(s.key.map Lease.expires).getD 0, ?_⟩
  refine free_shares (s := s.step cfg (.pass _)) (live_eq_none ?_) httl hi hj
  intro l hl
  show l.expires ≤ s.now + (s.key.map Lease.expires).getD 0
  rw [show s.key = some l from hl]
  exact Nat.le_add_left ..

/-! ## How long a compaction is -/

/-- `combinations(xs, 2)`. -/
def combinations2 {α : Type} : List α → List (α × α)
  | [] => []
  | x :: xs => xs.map (fun y => (x, y)) ++ combinations2 xs

/-- The facts that `detect_conflicts` compares. -/
def comparedFacts (content : Text) : List Text :=
  ((splitLines content).map strip).filter fun fact => !fact.isEmpty

/-- The calls that `_compact_memory` makes in its section when the model answers
with a sheet: its own, and one for each two facts of the sheet. -/
def compactCalls (updated : Text) : Nat := 1 + (combinations2 (comparedFacts updated)).length

theorem length_combinations2 {α : Type} (xs : List α) :
    (combinations2 xs).length = xs.length.choose 2 := by
  induction xs with
  | nil => rfl
  | cons x xs ih =>
    rw [combinations2, List.length_append, List.length_map, ih, List.length_cons,
      Nat.choose_succ_succ' xs.length 1, Nat.choose_one_right]

theorem compactCalls_eq (updated : Text) :
    compactCalls updated = 1 + (comparedFacts updated).length.choose 2 := by
  unfold compactCalls
  rw [length_combinations2]

theorem run_pass (s : UserLock) (times : List Nat) :
    run (UserLock.step cfg) s (times.map .pass) = { s with now := s.now + times.sum } := by
  induction times generalizing s with
  | nil => rfl
  | cons time times ih =>
    rw [List.map_cons, run, ih, List.sum_cons, ← Nat.add_assoc]
    rfl

theorem length_mul_le_sum {c : Nat} {times : List Nat} (h : ∀ t ∈ times, c ≤ t) :
    c * times.length ≤ times.sum := by
  induction times with
  | nil => exact Nat.le_refl _
  | cons t times ih =>
    rw [List.length_cons, List.sum_cons, Nat.mul_succ, Nat.add_comm]
    exact Nat.add_le_add (h t (List.mem_cons_self ..))
      (ih fun u hu => h u (List.mem_cons_of_mem _ hu))

/-- A compaction whose answers together take the `ttl` shares its section. -/
theorem compact_shares (httl : cfg.ttl ≠ 0) {updated : Text} {c : Nat} {answers : List Nat}
    (hcalls : answers.length = compactCalls updated) (hanswers : ∀ t ∈ answers, c ≤ t)
    (hlong : cfg.ttl ≤ c * (1 + (comparedFacts updated).length.choose 2)) :
    ¬ Exclusive (run (UserLock.step cfg) {} ([.call 0, .attempt 0 .reply] ++ answers.map .pass ++
      [.call 1, .attempt 1 .reply])) := by
  have hsum : cfg.ttl ≤ answers.sum :=
    calc cfg.ttl ≤ c * answers.length := by rw [hcalls, compactCalls_eq]; exact hlong
      _ ≤ answers.sum := length_mul_le_sum hanswers
  rw [run_append, run_append, run_enters (s := {}) rfl httl rfl, run_pass]
  have hinside : ((({ key := some ⟨0, 0 + cfg.ttl⟩ } : UserLock).move 0
      (.polling (0 + cfg.wait) 0 50)).move 0 (.inside 0)).phase 0 = .inside 0 :=
    UserLock.move_phase ..
  refine free_shares (i := 0) (live_eq_none ?_) httl hinside rfl
  intro l hl
  obtain rfl : (⟨0, 0 + cfg.ttl⟩ : Lease Nat) = l := Option.some.inj hl
  show 0 + cfg.ttl ≤ 0 + answers.sum
  omega

/-! ## Two runs -/

/-- A task that leaves in time, and one that waits for it. -/
theorem oneAfterTheOther_mutex :
    Mutex {} (run (UserLock.step {}) {} [.call 0, .attempt 0 .reply, .call 1, .attempt 1 .reply,
      .pass 2000, .finish 0, .release 0 .reply, .attempt 1 .reply]) := by
  refine mutex_of_inTime ⟨trivial, trivial, trivial, trivial, ?_, trivial, trivial, trivial,
    trivial⟩
  intro i since _
  show 0 + 2000 < since + 30000
  omega

/-- A sheet of thirty facts. -/
def longSheet : Text := (List.replicate 30 "- likes tea\n".toList).flatten

/-- Its compaction, each answer in a tenth of a second, and another task meanwhile. -/
def longCompaction : List LockEvent :=
  [.call 0, .attempt 0 .reply] ++ (List.replicate 436 100).map .pass ++
    [.call 1, .attempt 1 .reply]

theorem longCompaction_shares : ¬ ∀ cfg events, Mutex cfg (run (UserLock.step cfg) {} events) := by
  intro h
  have hcalls : compactCalls longSheet = 436 := by decide +kernel
  have hfacts : (comparedFacts longSheet).length = 30 := by decide
  have hshares : ¬ Exclusive (run (UserLock.step {}) {} longCompaction) := by
    unfold longCompaction
    refine compact_shares (c := 100) (by decide) (by rw [hcalls, List.length_replicate]) ?_ ?_
    · intro t ht
      rw [List.eq_of_mem_replicate ht]
    · rw [hfacts]
      decide
  exact hshares (h {} longCompaction).1

end Eidetic.Memory
