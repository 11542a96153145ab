import Mathlib.Data.Rat.Defs
import Eidetic.Upstream.Failover

/-!
# The retries of `call` and `call_stream`

The loops of the two functions without failover, on the answers of NIM. `call`
records a failure at every attempt that fails and goes on after a 5xx at once,
without the sleep at the end of the loop; it gives up at a 429. `call_stream`
records one failure, at its end, sleeps before every retry, and retries a 429
and a 503 but no other status. `samePolicy_iff` says for which answers this
makes no difference.

Each function is a loop that writes down what it does: attempts, sleeps, and
records of failures and successes. The loops are one definition with different
bodies (`retryLoop`), and one lemma for each outcome says what an attempt writes
and whether the loop goes on. `SamePolicy` compares the two lists. It fails at
the first sleep that is missing, at the first status that only one of the two
retries, or in the number of failures, since `call_stream` records one at most;
so it holds only for the few beginnings of `AgreeOn`, which ends after two
attempts.
-/

namespace Eidetic.Upstream

open Eidetic.Py

/-- What NIM answers before anything is streamed. -/
inductive NimOutcome
  | transport
  | status (code : Nat)
deriving DecidableEq

/-- The body of a 200 that both functions take for an answer. -/
structure NimAnswer where
  body : Json
  lines : List Line
  read : callAttempt false (.response 200 (some body)) = { records := [.recordSuccess] }
  streamed : ∀ last,
    streamAttempt false last (.response 200 lines false) = { records := [.recordSuccess] }

def NimOutcome.forCall (a : NimAnswer) : NimOutcome → CallReply
  | .transport => .refused
  | .status code => .response code (some a.body)

def NimOutcome.forStream (a : NimAnswer) : NimOutcome → Reply
  | .transport => .refused
  | .status code => .response code a.lines false

/-- What is done in a loop, attempt by attempt. -/
inductive RetryEvent
  | attempt (n : Nat)
  | record (op : BreakerOp)
  | slept (n : Nat) (seconds : Rat)
deriving DecidableEq

/-- `min(30, 2 ** attempt) * (0.75 + 0.5 * random.random())`. -/
def backoff (n : Nat) (random : Rat) : Rat := min 30 (2 ^ n) * (3 / 4 + 1 / 2 * random)

/-- `call` sleeps after its handlers; a `continue` goes past the sleep. -/
def callSleeps : CallReply → Bool
  | .refused => true
  | .response status _ => status = 200

/-- `call_stream` sleeps before it goes on, but not when it demotes the primary. -/
def streamSleeps (primary : Bool) : Reply → Bool
  | .refused => true
  | .response status _ _ => !(primary && status ≠ 200)

/-- `for attempt in range(MAX_RETRIES + 1)`, from attempt `n` with so many left,
and the delays of the sleeps. -/
def retryLoop (react : Bool → NimOutcome → Reaction) (sleeps : NimOutcome → Bool)
    (outcomes : Nat → NimOutcome) (delay : Nat → Rat) : Nat → Nat → List RetryEvent
  | 0, _ => []
  | left + 1, n =>
    let r := react (left = 0) (outcomes n)
    .attempt n :: (r.records.map .record ++
      ((if r.retries && sleeps (outcomes n) then [.slept n (delay n)] else []) ++
        if r.retries then retryLoop react sleeps outcomes delay left (n + 1) else []))

/-- The loop of `call`. -/
def callLoop (a : NimAnswer) (outcomes : Nat → NimOutcome) (delay : Nat → Rat) :
    Nat → Nat → List RetryEvent :=
  retryLoop (fun _ o => callAttempt false (o.forCall a)) (fun o => callSleeps (o.forCall a))
    outcomes delay

/-- The loop of `call_stream`. -/
def streamLoop (a : NimAnswer) (outcomes : Nat → NimOutcome) (delay : Nat → Rat) :
    Nat → Nat → List RetryEvent :=
  retryLoop (fun last o => streamAttempt false last (o.forStream a))
    (fun o => streamSleeps false (o.forStream a)) outcomes delay

/-- What `call` does with NIM's answers. -/
def callTrace (a : NimAnswer) (maxRetries : Nat) (outcomes : Nat → NimOutcome)
    (draws : Nat → Rat) : List RetryEvent :=
  callLoop a outcomes (fun n => backoff n (draws n)) (maxRetries + 1) 0

/-- What `call_stream` does with them. -/
def streamTrace (a : NimAnswer) (maxRetries : Nat) (outcomes : Nat → NimOutcome)
    (draws : Nat → Rat) : List RetryEvent :=
  streamLoop a outcomes (fun n => backoff n (draws n)) (maxRetries + 1) 0

/-- The attempts of a trace. -/
def attemptsOf (trace : List RetryEvent) : Nat :=
  trace.countP fun e => match e with | .attempt _ => true | _ => false

/-- The calls of `record_failure`. -/
def failuresOf (trace : List RetryEvent) : Nat := trace.count (.record .recordFailure)

/-- Before each retry stands the sleep after the attempt. -/
def Waits (delay : Nat → Rat) (trace : List RetryEvent) : Prop :=
  ∀ n, .attempt (n + 1) ∈ trace → [.slept n (delay n), .attempt (n + 1)] <:+: trace

/-- As many attempts, the same outcomes retried, each after its delay, and as
many failures recorded. -/
structure SamePolicy (callDelay streamDelay : Nat → Rat) (call stream : List RetryEvent) : Prop where
  attempts : attemptsOf call = attemptsOf stream
  retried : ∀ n, .attempt (n + 1) ∈ call ↔ .attempt (n + 1) ∈ stream
  callWaits : Waits callDelay call
  streamWaits : Waits streamDelay stream
  failures : failuresOf call = failuresOf stream

/-- The first attempt is answered; or it is the only one and fails below HTTP or
with a 5xx; or it fails below HTTP and the second one with a status below 500
that `call_stream` does not retry either. -/
def AgreeOn (maxRetries : Nat) (outcomes : Nat → NimOutcome) : Prop :=
  outcomes 0 = .status 200 ∨
    (maxRetries = 0 ∧ (outcomes 0 = .transport ∨ ∃ code, outcomes 0 = .status code ∧ 500 ≤ code)) ∨
    (0 < maxRetries ∧ outcomes 0 = .transport ∧
      ∃ code, outcomes 1 = .status code ∧ code < 500 ∧ code ≠ 200 ∧ (code = 429 → maxRetries = 1))

/-! ## One attempt of each loop -/

/-- What an attempt does once its reaction and its sleep are known. -/
theorem retryLoop_succ {react : Bool → NimOutcome → Reaction} {sleeps : NimOutcome → Bool}
    {outcomes : Nat → NimOutcome} {left n : Nat} {r : Reaction} {b : Bool} (delay : Nat → Rat)
    (hreact : react (left = 0) (outcomes n) = r) (hsleeps : sleeps (outcomes n) = b) :
    retryLoop react sleeps outcomes delay (left + 1) n
      = .attempt n :: (r.records.map .record ++
        ((if r.retries && b then [.slept n (delay n)] else []) ++
          if r.retries then retryLoop react sleeps outcomes delay left (n + 1) else [])) := by
  subst hreact hsleeps
  rfl

theorem callAttempt_status {code : Nat} (hne : code ≠ 200) (body : Option Json) :
    callAttempt false (.response code body)
      = if 500 ≤ code then { records := [.recordFailure], retries := true } else {} := by
  unfold callAttempt
  dsimp only
  rw [if_pos hne, if_neg Bool.false_ne_true]

theorem streamAttempt_status {code : Nat} (hne : code ≠ 200) (last : Bool) (lines : List Line) :
    streamAttempt false last (.response code lines false)
      = if (code = 429 || code = 503) && !last then { retries := true }
        else { records := [.recordFailure] } := by
  unfold streamAttempt
  dsimp only
  rw [if_pos hne, Bool.false_and, if_neg Bool.false_ne_true, if_neg Bool.false_ne_true]

variable {a : NimAnswer} {outcomes : Nat → NimOutcome} {delay : Nat → Rat} {left n code : Nat}

theorem callLoop_transport (h : outcomes n = .transport) :
    callLoop a outcomes delay (left + 1) n
      = .attempt n :: .record .recordFailure :: .slept n (delay n) ::
        callLoop a outcomes delay left (n + 1) := by
  refine (retryLoop_succ (r := { records := [.recordFailure], retries := true }) (b := true)
    delay ?_ ?_).trans rfl
  · rw [h]
    rfl
  · rw [h]
    rfl

theorem callLoop_error (h : outcomes n = .status code) (hcode : 500 ≤ code) :
    callLoop a outcomes delay (left + 1) n
      = .attempt n :: .record .recordFailure :: callLoop a outcomes delay left (n + 1) := by
  have hne : code ≠ 200 := by omega
  refine (retryLoop_succ (r := { records := [.recordFailure], retries := true }) (b := false)
    delay ?_ ?_).trans rfl
  · rw [h]
    exact (callAttempt_status hne _).trans (if_pos hcode)
  · rw [h]
    exact decide_eq_false hne

theorem callLoop_other (h : outcomes n = .status code) (hcode : code < 500) (hne : code ≠ 200) :
    callLoop a outcomes delay (left + 1) n = [.attempt n] := by
  refine (retryLoop_succ (r := {}) (b := false) delay ?_ ?_).trans rfl
  · rw [h]
    exact (callAttempt_status hne _).trans (if_neg (Nat.not_le.mpr hcode))
  · rw [h]
    exact decide_eq_false hne

theorem callLoop_ok (h : outcomes n = .status 200) :
    callLoop a outcomes delay (left + 1) n = [.attempt n, .record .recordSuccess] := by
  refine (retryLoop_succ (r := { records := [.recordSuccess] }) (b := true) delay ?_ ?_).trans rfl
  · rw [h]
    exact a.read
  · rw [h]
    rfl

/-- `call_stream` goes on after a transport error, a 429 and a 503. -/
theorem streamLoop_retry (h : outcomes n = .transport ∨ outcomes n = .status 429 ∨
      outcomes n = .status 503) (hleft : left ≠ 0) :
    streamLoop a outcomes delay (left + 1) n
      = .attempt n :: .slept n (delay n) :: streamLoop a outcomes delay left (n + 1) := by
  refine (retryLoop_succ (r := { retries := true }) (b := true) delay ?_ ?_).trans rfl
  · rw [decide_eq_false hleft]
    rcases h with h | h | h
    · rw [h]
      rfl
    · rw [h]
      rfl
    · rw [h]
      rfl
  · rcases h with h | h | h
    · rw [h]
      rfl
    · rw [h]
      rfl
    · rw [h]
      rfl

/-- The last attempt records its failure. -/
theorem streamLoop_last (h : outcomes n ≠ .status 200) :
    streamLoop a outcomes delay 1 n = [.attempt n, .record .recordFailure] := by
  refine (retryLoop_succ (r := { records := [.recordFailure] }) (b := true) delay ?_ ?_).trans rfl
  · cases hout : outcomes n with
    | transport => rfl
    | status code =>
      have hne : code ≠ 200 := fun heq => h (hout.trans (congrArg NimOutcome.status heq))
      refine (streamAttempt_status hne _ _).trans (if_neg ?_)
      rw [decide_eq_true rfl, Bool.not_true, Bool.and_false]
      exact Bool.false_ne_true
  · cases outcomes n with
    | transport => rfl
    | status code => rfl

theorem streamLoop_error (h : outcomes n = .status code) (hne : code ≠ 200) (hmany : code ≠ 429)
    (hunavailable : code ≠ 503) :
    streamLoop a outcomes delay (left + 1) n = [.attempt n, .record .recordFailure] := by
  refine (retryLoop_succ (r := { records := [.recordFailure] }) (b := true) delay ?_ ?_).trans rfl
  · rw [h]
    refine (streamAttempt_status hne _ _).trans (if_neg ?_)
    rw [decide_eq_false hmany, decide_eq_false hunavailable]
    exact Bool.false_ne_true
  · rw [h]
    rfl

/-- What `call` does not retry, `call_stream` gives up too, unless it is a 429. -/
theorem streamLoop_other (h : outcomes n = .status code) (hcode : code < 500) (hne : code ≠ 200)
    (hretry : ¬ (code = 429 ∧ left ≠ 0)) :
    streamLoop a outcomes delay (left + 1) n = [.attempt n, .record .recordFailure] := by
  by_cases hzero : left = 0
  · rw [hzero]
    refine streamLoop_last fun heq => hne ?_
    exact NimOutcome.status.inj (h.symm.trans heq)
  · exact streamLoop_error h hne (fun heq => hretry ⟨heq, hzero⟩) (by omega)

theorem streamLoop_ok (h : outcomes n = .status 200) :
    streamLoop a outcomes delay (left + 1) n = [.attempt n, .record .recordSuccess] := by
  refine (retryLoop_succ (r := { records := [.recordSuccess] }) (b := true) delay ?_ ?_).trans rfl
  · rw [h]
    exact a.streamed _
  · rw [h]
    rfl

/-! ## The rest of a loop -/

/-- What holds of the events of each attempt and passes from later attempts to
earlier ones holds of all events of a loop. -/
theorem forall_mem_retryLoop {react : Bool → NimOutcome → Reaction} {sleeps : NimOutcome → Bool}
    {P : Nat → RetryEvent → Prop} (hattempt : ∀ n, P n (.attempt n))
    (hrecord : ∀ n op, P n (.record op)) (hslept : ∀ n, P n (.slept n (delay n)))
    (hnext : ∀ n e, P (n + 1) e → P n e) :
    ∀ e ∈ retryLoop react sleeps outcomes delay left n, P n e := by
  induction left generalizing n with
  | zero => exact fun e he => absurd he List.not_mem_nil
  | succ left ih =>
    intro e he
    -- an attempt, then its record, its sleep, and the attempts after it
    rw [retryLoop_succ delay rfl rfl] at he
    rcases List.mem_cons.mp he with rfl | he
    · exact hattempt n
    · rcases List.mem_append.mp he with he | he
      · obtain ⟨op, -, rfl⟩ := List.mem_map.mp he
        exact hrecord n op
      · rcases List.mem_append.mp he with he | he
        · split at he
          next =>
            obtain rfl := List.mem_singleton.mp he
            exact hslept n
          next => exact absurd he List.not_mem_nil
        · split at he
          next => exact hnext n e (ih e he)
          next => exact absurd he List.not_mem_nil

/-- The sleeps of a loop are numbered from its first attempt. -/
theorem le_of_slept {react : Bool → NimOutcome → Reaction} {sleeps : NimOutcome → Bool}
    {m : Nat} {d : Rat} (h : .slept m d ∈ retryLoop react sleeps outcomes delay left n) :
    n ≤ m := by
  refine forall_mem_retryLoop (P := fun n e => ∀ m d, e = .slept m d → n ≤ m)
    ?_ ?_ ?_ ?_ _ h m d rfl
  · intro n m d heq
    cases heq
  · intro n op m d heq
    cases heq
  · intro n m d heq
    cases heq
    exact Nat.le_refl _
  · exact fun n e hlater m d heq => Nat.le_of_succ_le (hlater m d heq)

theorem not_slept_callLoop {m : Nat} (h : m < n) (d : Rat) :
    .slept m d ∉ callLoop a outcomes delay left n := fun hmem =>
  absurd (le_of_slept hmem) (Nat.not_le.mpr h)

theorem attempt_mem_callLoop (hleft : left ≠ 0) : .attempt n ∈ callLoop a outcomes delay left n := by
  obtain ⟨rest, rfl⟩ := Nat.exists_eq_succ_of_ne_zero hleft
  exact List.mem_cons_self ..

theorem attempt_mem_streamLoop (hleft : left ≠ 0) :
    .attempt n ∈ streamLoop a outcomes delay left n := by
  obtain ⟨rest, rfl⟩ := Nat.exists_eq_succ_of_ne_zero hleft
  exact List.mem_cons_self ..

theorem attemptsOf_attempt (n : Nat) (t : List RetryEvent) :
    attemptsOf (.attempt n :: t) = attemptsOf t + 1 := List.countP_cons_of_pos rfl

theorem attemptsOf_record (op : BreakerOp) (t : List RetryEvent) :
    attemptsOf (.record op :: t) = attemptsOf t := List.countP_cons_of_neg Bool.false_ne_true

@[simp] theorem failuresOf_nil : failuresOf [] = 0 := rfl

@[simp] theorem failuresOf_attempt (n : Nat) (t : List RetryEvent) :
    failuresOf (.attempt n :: t) = failuresOf t := List.count_cons_of_ne (by simp)

@[simp] theorem failuresOf_slept (n : Nat) (d : Rat) (t : List RetryEvent) :
    failuresOf (.slept n d :: t) = failuresOf t := List.count_cons_of_ne (by simp)

@[simp] theorem failuresOf_success (t : List RetryEvent) :
    failuresOf (.record .recordSuccess :: t) = failuresOf t := List.count_cons_of_ne (by simp)

@[simp] theorem failuresOf_failure (t : List RetryEvent) :
    failuresOf (.record .recordFailure :: t) = failuresOf t + 1 := List.count_cons_self

/-- `call_stream` records at most one failure. -/
theorem failuresOf_streamLoop_le : failuresOf (streamLoop a outcomes delay left n) ≤ 1 := by
  induction left generalizing n with
  | zero => exact Nat.zero_le _
  | succ left ih =>
    by_cases hok : outcomes n = .status 200
    · rw [streamLoop_ok hok]
      simp
    · by_cases hleft : left = 0
      · rw [hleft, streamLoop_last hok]
        simp
      · by_cases hretry : outcomes n = .transport ∨ outcomes n = .status 429 ∨
          outcomes n = .status 503
        · rw [streamLoop_retry hretry hleft, failuresOf_attempt, failuresOf_slept]
          exact ih
        · cases hout : outcomes n with
          | transport => exact absurd (Or.inl hout) hretry
          | status code =>
            rw [streamLoop_error hout]
            · simp
            · exact fun heq => hok (hout.trans (congrArg NimOutcome.status heq))
            · exact fun heq => hretry (Or.inr (Or.inl (hout.trans (congrArg NimOutcome.status heq))))
            · exact fun heq => hretry (Or.inr (Or.inr (hout.trans (congrArg NimOutcome.status heq))))

/-- A retry without the sleep before it. -/
theorem not_waits_of_not_slept {trace : List RetryEvent} (hattempt : .attempt (n + 1) ∈ trace)
    (hslept : .slept n (delay n) ∉ trace) : ¬ Waits delay trace := fun h =>
  hslept ((h n hattempt).subset (List.mem_cons_self ..))

/-! ## The two loops -/

variable {callDelay streamDelay : Nat → Rat} {maxRetries : Nat}

/-- One attempt each, which ends with the same record. -/
theorem SamePolicy.single (op : BreakerOp) {more : List RetryEvent}
    (hmore : ∀ n, .attempt n ∉ more) (hnone : failuresOf more = 0) :
    SamePolicy callDelay streamDelay (.attempt 0 :: .record op :: more) [.attempt 0, .record op] := by
  have hcall : ∀ n, RetryEvent.attempt (n + 1) ∉ RetryEvent.attempt 0 :: .record op :: more := by
    intro n hmem
    rcases List.mem_cons.mp hmem with heq | hmem
    · cases heq
    · rcases List.mem_cons.mp hmem with heq | hmem
      · cases heq
      · exact hmore _ hmem
  have hstream : ∀ n, RetryEvent.attempt (n + 1) ∉ [RetryEvent.attempt 0, .record op] := by
    intro n hmem
    simp at hmem
  -- neither has a second attempt, so there is nothing to sleep before
  refine ⟨?_, fun n => iff_of_false (hcall n) (hstream n), fun n h => absurd h (hcall n),
    fun n h => absurd h (hstream n), ?_⟩
  · have hzero : attemptsOf more = 0 := by
      refine List.countP_eq_zero.mpr fun e he => ?_
      cases e with
      | attempt n => exact absurd he (hmore n)
      | record op => exact Bool.false_ne_true
      | slept n d => exact Bool.false_ne_true
    rw [attemptsOf_attempt, attemptsOf_record, hzero]
    rfl
  · cases op with
    | isOpen =>
      have hskip : ∀ t, failuresOf (.record .isOpen :: t) = failuresOf t := fun t =>
        List.count_cons_of_ne (by simp)
      rw [failuresOf_attempt, failuresOf_attempt, hskip, hskip, hnone, failuresOf_nil]
    | recordFailure => simp [hnone]
    | recordSuccess => simp [hnone]

/-- Two attempts each, of which the second is given up. -/
theorem SamePolicy.second :
    SamePolicy callDelay streamDelay
      [.attempt 0, .record .recordFailure, .slept 0 (callDelay 0), .attempt 1]
      [.attempt 0, .slept 0 (streamDelay 0), .attempt 1, .record .recordFailure] := by
  refine ⟨rfl, fun n => by simp, fun n h => ?_, fun n h => ?_, by simp⟩
  · obtain rfl : n = 0 := by simpa using h
    exact ⟨[.attempt 0, .record .recordFailure], [], rfl⟩
  · obtain rfl : n = 0 := by simpa using h
    exact ⟨[.attempt 0], [.record .recordFailure], rfl⟩

theorem agree_of_status {code : Nat} (h : outcomes 0 = .status code) :
    SamePolicy callDelay streamDelay (callLoop a outcomes callDelay (maxRetries + 1) 0)
        (streamLoop a outcomes streamDelay (maxRetries + 1) 0) ↔
      code = 200 ∨ (maxRetries = 0 ∧ 500 ≤ code) := by
  by_cases hok : code = 200
  · rw [hok] at h
    rw [callLoop_ok h, streamLoop_ok h]
    exact iff_of_true (SamePolicy.single _ (fun _ => List.not_mem_nil) rfl) (Or.inl hok)
  · have hne : outcomes 0 ≠ .status 200 := fun heq => hok (NimOutcome.status.inj (h.symm.trans heq))
    by_cases hmany : 500 ≤ code
    · rw [callLoop_error h hmany]
      by_cases hzero : maxRetries = 0
      · rw [hzero, streamLoop_last hne]
        exact iff_of_true (SamePolicy.single _ (fun _ => List.not_mem_nil) rfl)
          (Or.inr ⟨rfl, hmany⟩)
      · -- the retry follows at once
        refine iff_of_false (fun hsame => ?_) fun hagree => hagree.elim hok fun h => hzero h.1
        refine not_waits_of_not_slept (n := 0) ?_ ?_ hsame.callWaits
        · exact List.mem_cons_of_mem _ (List.mem_cons_of_mem _ (attempt_mem_callLoop hzero))
        · simp [not_slept_callLoop]
    -- every other status is final for `call`, but a 429 is not for `call_stream`
    · have hlow : code < 500 := Nat.lt_of_not_le hmany
      rw [callLoop_other h hlow hok]
      refine iff_of_false (fun hsame => ?_) fun hagree => hagree.elim hok fun h => hmany h.2
      by_cases hretry : code = 429 ∧ maxRetries ≠ 0
      · rw [hretry.1] at h
        rw [streamLoop_retry (Or.inr (Or.inl h)) hretry.2] at hsame
        have hmem := (hsame.retried 0).mpr (List.mem_cons_of_mem _ (List.mem_cons_of_mem _
          (attempt_mem_streamLoop hretry.2)))
        simp at hmem
      · rw [streamLoop_other h hlow hok hretry] at hsame
        have hcount := hsame.failures
        simp at hcount

/-- A transport error that both retry: `call` has recorded a failure. -/
theorem SamePolicy.failures_after {t u : List RetryEvent}
    (h : SamePolicy callDelay streamDelay
      (.attempt 0 :: .record .recordFailure :: .slept 0 (callDelay 0) :: t)
      (.attempt 0 :: .slept 0 (streamDelay 0) :: u)) : failuresOf t + 1 = failuresOf u := by
  simpa using h.failures

/-- After a transport error, both functions have to give up at once. -/
theorem agree_of_second (h : outcomes 1 = .status code) :
    SamePolicy callDelay streamDelay
        (.attempt 0 :: .record .recordFailure :: .slept 0 (callDelay 0) ::
          callLoop a outcomes callDelay (left + 1) 1)
        (.attempt 0 :: .slept 0 (streamDelay 0) :: streamLoop a outcomes streamDelay (left + 1) 1) ↔
      code < 500 ∧ code ≠ 200 ∧ (code = 429 → left = 0) := by
  by_cases hok : code = 200
  · -- both record a success, so that the failures of `call` are one more
    rw [hok] at h
    refine iff_of_false (fun hsame => ?_) fun hagree => hagree.2.1 hok
    rw [callLoop_ok h, streamLoop_ok h] at hsame
    have hcount := hsame.failures_after
    simp at hcount
  · by_cases hmany : 500 ≤ code
    · refine iff_of_false (fun hsame => ?_) fun hagree => Nat.not_le.mpr hagree.1 hmany
      rw [callLoop_error h hmany] at hsame
      by_cases hzero : left = 0
      · have hne : outcomes 1 ≠ .status 200 := fun heq =>
          hok (NimOutcome.status.inj (h.symm.trans heq))
        rw [hzero, streamLoop_last hne] at hsame
        have hcount := hsame.failures_after
        simp at hcount
      · -- the second retry of `call` follows at once
        refine not_waits_of_not_slept (n := 1) ?_ ?_ hsame.callWaits
        · exact List.mem_cons_of_mem _ (List.mem_cons_of_mem _ (List.mem_cons_of_mem _
            (List.mem_cons_of_mem _ (List.mem_cons_of_mem _ (attempt_mem_callLoop hzero)))))
        · simp [not_slept_callLoop]
    · have hlow : code < 500 := Nat.lt_of_not_le hmany
      rw [callLoop_other h hlow hok]
      by_cases hretry : code = 429 ∧ left ≠ 0
      · refine iff_of_false (fun hsame => ?_) fun hagree => hretry.2 (hagree.2.2 hretry.1)
        rw [hretry.1] at h
        rw [streamLoop_retry (Or.inr (Or.inl h)) hretry.2] at hsame
        have hmem := (hsame.retried 1).mpr (List.mem_cons_of_mem _ (List.mem_cons_of_mem _
          (List.mem_cons_of_mem _ (List.mem_cons_of_mem _ (attempt_mem_streamLoop hretry.2)))))
        simp at hmem
      · rw [streamLoop_other h hlow hok hretry]
        refine iff_of_true SamePolicy.second ⟨hlow, hok, fun heq => ?_⟩
        by_contra hleft
        exact hretry ⟨heq, hleft⟩

theorem agree_of_transport (h : outcomes 0 = .transport) :
    SamePolicy callDelay streamDelay (callLoop a outcomes callDelay (maxRetries + 1) 0)
        (streamLoop a outcomes streamDelay (maxRetries + 1) 0) ↔
      maxRetries = 0 ∨ ∃ code, outcomes 1 = .status code ∧ code < 500 ∧ code ≠ 200 ∧
        (code = 429 → maxRetries = 1) := by
  rw [callLoop_transport h]
  cases maxRetries with
  | zero =>
    rw [streamLoop_last (by rw [h]; exact NimOutcome.noConfusion)]
    refine iff_of_true (SamePolicy.single _ (fun n hmem => ?_) ?_) (Or.inl rfl)
    · simp [callLoop, retryLoop] at hmem
    · simp [callLoop, retryLoop]
  | succ left =>
    have hleft : left + 1 ≠ 0 := Nat.succ_ne_zero left
    rw [streamLoop_retry (Or.inl h) hleft, or_iff_right hleft]
    cases hsecond : outcomes 1 with
    | transport =>
      -- `call` has recorded two failures, and `call_stream` records at most one
      refine iff_of_false (fun hsame => ?_) (by simp)
      rw [callLoop_transport hsecond] at hsame
      have hcount := hsame.failures_after
      have hle : failuresOf (streamLoop a outcomes streamDelay (left + 1) (0 + 1)) ≤ 1 :=
        failuresOf_streamLoop_le
      rw [failuresOf_attempt, failuresOf_failure] at hcount
      omega
    | status code =>
      refine (agree_of_second hsecond).trans ⟨fun hagree => ?_, fun hagree => ?_⟩
      · obtain ⟨hlow, hok, hmany⟩ := hagree
        exact ⟨code, rfl, hlow, hok, fun heq => congrArg (· + 1) (hmany heq)⟩
      · obtain ⟨code', heq, hlow, hok, hmany⟩ := hagree
        cases heq
        exact ⟨hlow, hok, fun heq => Nat.succ.inj (hmany heq)⟩

/-- The two functions follow one policy on exactly these answers of NIM. -/
theorem samePolicy_iff (a : NimAnswer) (maxRetries : Nat) (outcomes : Nat → NimOutcome)
    (callDraws streamDraws : Nat → Rat) :
    SamePolicy (fun n => backoff n (callDraws n)) (fun n => backoff n (streamDraws n))
        (callTrace a maxRetries outcomes callDraws) (streamTrace a maxRetries outcomes streamDraws) ↔
      AgreeOn maxRetries outcomes := by
  unfold callTrace streamTrace AgreeOn
  cases hfirst : outcomes 0 with
  | transport =>
    rw [agree_of_transport hfirst]
    constructor
    · rintro (hzero | hsecond)
      · exact Or.inr (Or.inl ⟨hzero, Or.inl rfl⟩)
      · by_cases hzero : maxRetries = 0
        · exact Or.inr (Or.inl ⟨hzero, Or.inl rfl⟩)
        · exact Or.inr (Or.inr ⟨Nat.pos_of_ne_zero hzero, rfl, hsecond⟩)
    · rintro (hok | ⟨hzero, -⟩ | ⟨-, -, hsecond⟩)
      · cases hok
      · exact Or.inl hzero
      · exact Or.inr hsecond
  | status code =>
    rw [agree_of_status hfirst]
    constructor
    · rintro (hok | ⟨hzero, hmany⟩)
      · exact Or.inl (congrArg NimOutcome.status hok)
      · exact Or.inr (Or.inl ⟨hzero, Or.inr ⟨code, rfl, hmany⟩⟩)
    · rintro (hok | ⟨hzero, htransport | ⟨code', heq, hmany⟩⟩ | ⟨-, htransport, -⟩)
      · exact Or.inl (NimOutcome.status.inj hok)
      · cases htransport
      · cases heq
        exact Or.inr ⟨hzero, hmany⟩
      · cases htransport

/-- A message, and a stream of nothing but its end. -/
def smallAnswer : NimAnswer where
  body := .obj [("choices".toList, .arr [.obj [("message".toList,
    .obj [("content".toList, .str "Hi".toList)])]])]
  lines := [{ kind := .done }]
  read := by rfl
  streamed _ := by rfl

/-- A model that is throttled: one function gives up, the other tries again. -/
theorem throttled_differs :
    ¬ ∀ (a : NimAnswer) (maxRetries : Nat) (outcomes : Nat → NimOutcome)
        (callDraws streamDraws : Nat → Rat),
      SamePolicy (fun n => backoff n (callDraws n)) (fun n => backoff n (streamDraws n))
        (callTrace a maxRetries outcomes callDraws)
        (streamTrace a maxRetries outcomes streamDraws) := by
  intro h
  let throttled : Nat → NimOutcome := fun _ => .status 429
  have hfirst : throttled 0 = .status 429 := rfl
  have hsame := h smallAnswer 3 throttled (fun _ => 0) (fun _ => 0)
  rcases (agree_of_status hfirst).mp hsame with hok | ⟨hzero, -⟩
  · exact absurd hok (by decide)
  · exact absurd hzero (by decide)

end Eidetic.Upstream
