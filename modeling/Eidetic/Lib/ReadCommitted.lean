import Eidetic.Lib.Run
import Mathlib.Data.List.TakeDrop
import Mathlib.Logic.Function.Basic

/-!
# Sessions that read, compute and write one row

Transactions under READ COMMITTED over one row, each of which reads it once
and writes it once. A session takes the row's lock with its read, or an
advisory lock before it, or no lock. Whatever it does, its write takes the
row's lock until the end of the transaction, and sets the columns that differ
from what it has read.

Sessions with the same kind of lock exclude each other, sessions with
different kinds do not. So no update is lost exactly when no session of another
kind, and for sessions without a lock no session at all, commits between a
session's read and its commit (`intact_iff`).

A session starts, may take its lock, reads, computes, writes and commits, each a
step, and its read is remembered as the number of commits before it.
`Consistent` is the invariant, with what is known of each session in its phase
(`Sound`): whoever has read under a lock still has it, and what was committed
since was by others of other kinds. A step of one session leaves the others
sound if it commits nothing (`Reading.of_locks`), and a commit needs that its
writer is not kept out (`Sound.of_commit`). `intact_iff` then follows from one
step, since a commit that is not computed from the last one stays in the
history.
-/

namespace Eidetic.Lib

/-- The lock of a session: none, the row's (`SELECT … FOR UPDATE`), or an
advisory lock. -/
inductive Lock
  | none
  | row
  | advisory
deriving DecidableEq, Repr

/-- A session: its lock, and the row it wants to write after reading one. -/
structure Session (ρ : Type*) where
  lock : Lock
  compute : Option ρ → Option ρ

/-- Where a session is. `readAt` counts the commits before its read. -/
inductive Phase (ρ : Type*)
  | start
  | ready
  | read (seen : Option ρ) (readAt : Nat)
  | computed (seen : Option ρ) (readAt : Nat) (new : ρ)
  | flushed (seen : Option ρ) (readAt : Nat) (pending : ρ)
  | done

/-- A commit: by whom, computed from what, and of what. -/
structure Commit (ι ρ : Type*) where
  session : ι
  seen : Option ρ
  row : ρ

/-- The committed row, who holds the locks, the sessions, and the commits so far. -/
structure Table (ι ρ : Type*) where
  row : Option ρ
  rowLock : Option ι
  advisory : Option ι
  phase : ι → Phase ρ
  commits : List (Commit ι ρ)

variable {ι ρ κ : Type*} [DecidableEq ι]

/-- A table before any session has started. -/
def Table.initial (row : Option ρ) : Table ι ρ := ⟨row, none, none, fun _ => .start, []⟩

def Table.become (s : Table ι ρ) (i : ι) (p : Phase ρ) : Table ι ρ :=
  { s with phase := Function.update s.phase i p }

/-- The end of a transaction: its locks are released. -/
def Table.finish (s : Table ι ρ) (i : ι) : Table ι ρ :=
  { s.become i .done with
    rowLock := if s.rowLock = some i then none else s.rowLock
    advisory := if s.advisory = some i then none else s.advisory }

def Table.commit (s : Table ι ρ) (i : ι) (seen : Option ρ) (row : ρ) : Table ι ρ :=
  { s.finish i with row := some row, commits := s.commits ++ [⟨i, seen, row⟩] }

/-- The row's lock is free for the session. -/
def Table.free (s : Table ι ρ) (i : ι) : Prop := s.rowLock = none ∨ s.rowLock = some i

instance (s : Table ι ρ) (i : ι) : Decidable (s.free i) := inferInstanceAs (Decidable (_ ∨ _))

variable (sessions : ι → Session ρ) (update : ρ → ρ → ρ → ρ)

/-- The next step of a session, which leaves the table as it is when the
session has to wait or has ended. `update old new latest` is what an update
from `old` to `new` makes of the latest row. -/
def Table.next (s : Table ι ρ) (i : ι) : Table ι ρ :=
  match s.phase i with
  | .start =>
    match (sessions i).lock with
    | .advisory => if s.advisory = none then { s.become i .ready with advisory := some i } else s
    | _ => s.become i .ready
  | .ready =>
    match (sessions i).lock, s.row with
    | .row, some row =>
      if s.free i then { s.become i (.read (some row) s.commits.length) with rowLock := some i }
      else s
    -- where there is no row there is nothing to lock
    | _, row => s.become i (.read row s.commits.length)
  | .read seen readAt =>
    match (sessions i).compute seen with
    | some new => s.become i (.computed seen readAt new)
    | none => s.finish i
  | .computed seen readAt new =>
    match seen, s.row with
    -- the insertion of a key that has been inserted meanwhile fails
    | none, some _ => s.finish i
    | none, none =>
      if s.free i then { s.become i (.flushed none readAt new) with rowLock := some i } else s
    | some old, some latest =>
      if s.free i then
        { s.become i (.flushed (some old) readAt (update old new latest)) with rowLock := some i }
      else s
    -- the update of a row that is gone fails
    | some _, none => s.finish i
  -- it has held the row's lock since it wrote
  | .flushed seen _ pending => s.commit i seen pending
  | .done => s

/-- The row after some commits. -/
def lastRow (before : Option ρ) : List (Commit ι ρ) → Option ρ
  | [] => before
  | c :: cs => lastRow (some c.row) cs

variable (version : ρ → Nat) (view : ρ → κ)

/-- No update is lost: each commit was computed from what was committed right
before it, and has a higher version. -/
def Intact (before : Option ρ) : List (Commit ι ρ) → Prop
  | [] => True
  | c :: cs =>
    c.seen.map view = before.map view ∧ (∀ row, before = some row → version row < version c.row) ∧
      Intact (some c.row) cs

/-- A session about to commit: every commit since its read was by a session
with the same kind of lock. -/
def Undisturbed (s : Table ι ρ) (i : ι) : Prop :=
  ∀ seen readAt pending, s.phase i = .flushed seen readAt pending →
    ∀ c ∈ s.commits.drop readAt,
      (sessions c.session).lock = (sessions i).lock ∧ (sessions i).lock ≠ .none

/-! ## Histories -/

omit [DecidableEq ι] in
theorem lastRow_append (before : Option ρ) (cs cs' : List (Commit ι ρ)) :
    lastRow before (cs ++ cs') = lastRow (lastRow before cs) cs' := by
  induction cs generalizing before with
  | nil => rfl
  | cons c cs ih => exact ih _

omit [DecidableEq ι] in
theorem intact_append (before : Option ρ) (cs cs' : List (Commit ι ρ)) :
    Intact version view before (cs ++ cs')
      ↔ Intact version view before cs ∧ Intact version view (lastRow before cs) cs' := by
  induction cs generalizing before with
  | nil => exact ⟨fun h => ⟨trivial, h⟩, fun h => h.2⟩
  | cons c cs ih =>
    constructor
    · intro h
      obtain ⟨hseen, hversion, hrest⟩ := h
      exact ⟨⟨hseen, hversion, ((ih _).mp hrest).1⟩, ((ih _).mp hrest).2⟩
    · intro h
      obtain ⟨⟨hseen, hversion, hcs⟩, hcs'⟩ := h
      exact ⟨hseen, hversion, (ih _).mpr ⟨hcs, hcs'⟩⟩

omit [DecidableEq ι] in
/-- The version grows with every commit. -/
theorem Intact.version_lt {old : ρ} {cs : List (Commit ι ρ)}
    (h : Intact version view (some old) cs) (hne : cs ≠ []) :
    ∃ row, lastRow (some old) cs = some row ∧ version old < version row := by
  induction cs generalizing old with
  | nil => exact absurd rfl hne
  | cons c cs ih =>
    obtain ⟨_, hversion, hrest⟩ := h
    have hlt := hversion old rfl
    by_cases hcs : cs = []
    · rw [hcs]
      exact ⟨c.row, rfl, hlt⟩
    · obtain ⟨row, hrow, hmore⟩ := ih hrest hcs
      exact ⟨row, hrow, Nat.lt_trans hlt hmore⟩

omit [DecidableEq ι] in
theorem lastRow_none {before : Option ρ} {cs : List (Commit ι ρ)} (h : lastRow before cs = none) :
    cs = [] := by
  induction cs generalizing before with
  | nil => rfl
  | cons c cs ih =>
    have hcs : cs = [] := ih h
    rw [hcs] at h
    exact absurd h (by simp [lastRow])

/-! ## What the locks keep out -/

/-- The version a write over a row has. -/
def bump (seen : Option ρ) : Nat := (seen.map version).getD 0 + 1

/-- What holds of a session between its read and its commit. -/
structure Reading (before : Option ρ) (s : Table ι ρ) (i : ι) (seen : Option ρ) (readAt : Nat) :
    Prop where
  le : readAt ≤ s.commits.length
  seen_eq : seen = lastRow before (s.commits.take readAt)
  advisory : (sessions i).lock = .advisory → s.advisory = some i ∧
    ∀ c ∈ s.commits.drop readAt, (sessions c.session).lock ≠ .advisory
  row : (sessions i).lock = .row → seen ≠ none →
    s.rowLock = some i ∧ s.commits.length = readAt

/-- What holds of a session in each phase. -/
def Sound (before : Option ρ) (s : Table ι ρ) (i : ι) : Phase ρ → Prop
  | .start => True
  | .ready => (sessions i).lock = .advisory → s.advisory = some i
  | .read seen readAt => Reading sessions before s i seen readAt
  | .computed seen readAt new =>
    Reading sessions before s i seen readAt ∧ version new = bump version seen
  | .flushed seen readAt pending =>
    Reading sessions before s i seen readAt ∧ version pending = bump version seen ∧
      s.rowLock = some i ∧ (seen = none → s.row = none)
  | .done => True

/-- The invariant of a run. -/
structure Consistent (before : Option ρ) (s : Table ι ρ) : Prop where
  row_eq : s.row = lastRow before s.commits
  sound : ∀ i, Sound sessions version before s i (s.phase i)

omit [DecidableEq ι] in
/-- A session keeps what it has while nothing is committed and its locks stay. -/
theorem Reading.of_locks {before : Option ρ} {s s' : Table ι ρ} {i : ι} {seen : Option ρ}
    {readAt : Nat} (h : Reading sessions before s i seen readAt) (hcommits : s'.commits = s.commits)
    (hrow : s.rowLock = some i → s'.rowLock = some i)
    (hadvisory : s.advisory = some i → s'.advisory = some i) :
    Reading sessions before s' i seen readAt where
  le := by rw [hcommits]; exact h.le
  seen_eq := by rw [hcommits]; exact h.seen_eq
  advisory hlock := by
    rw [hcommits]
    exact ⟨hadvisory (h.advisory hlock).1, (h.advisory hlock).2⟩
  row hlock hseen := by
    rw [hcommits]
    exact ⟨hrow (h.row hlock hseen).1, (h.row hlock hseen).2⟩

omit [DecidableEq ι] in
theorem Sound.of_locks {before : Option ρ} {s s' : Table ι ρ} {i : ι} {p : Phase ρ}
    (h : Sound sessions version before s i p) (hcommits : s'.commits = s.commits)
    (htable : s'.row = s.row) (hrow : s.rowLock = some i → s'.rowLock = some i)
    (hadvisory : s.advisory = some i → s'.advisory = some i) :
    Sound sessions version before s' i p := by
  cases p with
  | start => trivial
  | ready => exact fun hlock => hadvisory (h hlock)
  | read seen readAt => exact Reading.of_locks sessions h hcommits hrow hadvisory
  | computed seen readAt new =>
    exact ⟨Reading.of_locks sessions h.1 hcommits hrow hadvisory, h.2⟩
  | flushed seen readAt pending =>
    obtain ⟨hreading, hversion, hlock, hnone⟩ := h
    refine ⟨Reading.of_locks sessions hreading hcommits hrow hadvisory, hversion, hrow hlock, ?_⟩
    rw [htable]
    exact hnone
  | done => trivial

omit [DecidableEq ι] in
/-- A session that reads now. -/
theorem Reading.now {before : Option ρ} {s : Table ι ρ} (hrow : s.row = lastRow before s.commits)
    {i : ι} (hadvisory : (sessions i).lock = .advisory → s.advisory = some i)
    (hlock : (sessions i).lock = .row → s.row ≠ none → s.rowLock = some i) :
    Reading sessions before s i s.row s.commits.length where
  le := Nat.le_refl _
  seen_eq := by rw [List.take_length]; exact hrow
  advisory h := ⟨hadvisory h, by simp⟩
  row h hseen := ⟨hlock h hseen, rfl⟩

/-- A commit of `i` is kept out by the locks of the other sessions. -/
theorem Sound.of_commit {before : Option ρ} {s : Table ι ρ} {i j : ι} (hne : j ≠ i)
    {p : Phase ρ} (h : Sound sessions version before s j p) {seen : Option ρ} {readAt : Nat}
    (hreading : Reading sessions before s i seen readAt) (hlock : s.rowLock = some i) (row : ρ) :
    Sound sessions version before (s.commit i seen row) j p := by
  have hfree : ¬ s.rowLock = some j := by
    rw [hlock]
    exact fun heq => hne (Option.some.inj heq).symm
  have hkeep : s.advisory = some j → (s.commit i seen row).advisory = some j := by
    intro hadv
    show (if s.advisory = some i then none else s.advisory) = some j
    rw [hadv, if_neg fun heq => hne (Option.some.inj heq)]
  have hreads : ∀ seen' readAt', Reading sessions before s j seen' readAt' →
      Reading sessions before (s.commit i seen row) j seen' readAt' := by
    intro seen' readAt' hj
    have hlength : readAt' ≤ (s.commits ++ [Commit.mk i seen row]).length := by
      rw [List.length_append]
      exact Nat.le_add_right_of_le hj.le
    refine ⟨hlength, ?_, ?_, fun hrow hsome => absurd (hj.row hrow hsome).1 hfree⟩
    · show seen' = lastRow before ((s.commits ++ [_]).take readAt')
      rw [List.take_append_of_le_length hj.le]
      exact hj.seen_eq
    · intro hadv
      obtain ⟨hown, hsince⟩ := hj.advisory hadv
      refine ⟨hkeep hown, fun c hc => ?_⟩
      rw [show (s.commit i seen row).commits = s.commits ++ [⟨i, seen, row⟩] from rfl,
        List.drop_append_of_le_length hj.le] at hc
      rcases List.mem_append.mp hc with hc | hc
      · exact hsince c hc
      · -- the committing session would hold the same advisory lock
        rw [List.mem_singleton.mp hc]
        intro hi
        have hboth := (hreading.advisory hi).1
        rw [hown] at hboth
        exact hne (Option.some.inj hboth)
  cases p with
  | start => trivial
  | ready => exact fun hadv => hkeep (h hadv)
  | read seen' readAt' => exact hreads seen' readAt' h
  | computed seen' readAt' new => exact ⟨hreads seen' readAt' h.1, h.2⟩
  | flushed seen' readAt' pending => exact absurd h.2.2.1 hfree
  | done => trivial

/-- A step of `i` that commits nothing: the others keep their locks, and `i` is
sound in its new phase. -/
theorem Consistent.of_step {before : Option ρ} {s s' : Table ι ρ} {i : ι} {p : Phase ρ}
    (h : Consistent sessions version before s) (hphase : s'.phase = Function.update s.phase i p)
    (hcommits : s'.commits = s.commits) (htable : s'.row = s.row)
    (hrow : ∀ j, j ≠ i → s.rowLock = some j → s'.rowLock = some j)
    (hadvisory : ∀ j, j ≠ i → s.advisory = some j → s'.advisory = some j)
    (hown : Sound sessions version before s' i p) : Consistent sessions version before s' where
  row_eq := by rw [htable, hcommits]; exact h.row_eq
  sound j := by
    rw [hphase]
    by_cases hj : j = i
    · rw [hj, Function.update_self]
      exact hown
    · rw [Function.update_of_ne hj]
      exact Sound.of_locks sessions version (h.sound j) hcommits htable (hrow j hj) (hadvisory j hj)

/-- A step that takes and releases no lock. -/
theorem Consistent.become {before : Option ρ} {s : Table ι ρ} {i : ι} {p : Phase ρ}
    (h : Consistent sessions version before s) (hown : Sound sessions version before s i p) :
    Consistent sessions version before (s.become i p) :=
  Consistent.of_step sessions version h rfl rfl rfl (fun _ _ hlock => hlock)
    (fun _ _ hlock => hlock)
    (Sound.of_locks sessions version hown rfl rfl (fun hlock => hlock) (fun hlock => hlock))

/-- A step that takes the row's lock, or has it already. -/
theorem Consistent.takeRow {before : Option ρ} {s : Table ι ρ} {i : ι} {p : Phase ρ}
    (h : Consistent sessions version before s) (hfree : s.free i)
    (hown : Sound sessions version before { s with rowLock := some i } i p) :
    Consistent sessions version before { s.become i p with rowLock := some i } := by
  -- a lock that was free was nobody else's
  have hother : ∀ j, j ≠ i → s.rowLock = some j → some i = some j := by
    intro j hj hlock
    rcases hfree with hnone | hmine
    · rw [hnone] at hlock
      exact absurd hlock (by simp)
    · rw [← hmine, hlock]
  exact Consistent.of_step sessions version h rfl rfl rfl hother (fun _ _ hlock => hlock)
    (Sound.of_locks sessions version hown rfl rfl (fun hlock => hlock) (fun hlock => hlock))

theorem Consistent.takeAdvisory {before : Option ρ} {s : Table ι ρ} {i : ι}
    (h : Consistent sessions version before s) (hnone : s.advisory = none) :
    Consistent sessions version before { s.become i .ready with advisory := some i } := by
  have hother : ∀ j, j ≠ i → s.advisory = some j → some i = some j := by
    intro j _ hj
    rw [hnone] at hj
    exact absurd hj (by simp)
  exact Consistent.of_step sessions version h rfl rfl rfl (fun _ _ hlock => hlock) hother
    (fun _ => rfl)

theorem Consistent.finish {before : Option ρ} {s : Table ι ρ} (i : ι)
    (h : Consistent sessions version before s) :
    Consistent sessions version before (s.finish i) := by
  have hkeep : ∀ (o : Option ι) (j : ι), j ≠ i → o = some j →
      (if o = some i then none else o) = some j := by
    intro o j hj ho
    rw [ho, if_neg fun heq => hj (Option.some.inj heq)]
  exact Consistent.of_step sessions version h rfl rfl rfl (hkeep s.rowLock) (hkeep s.advisory)
    trivial

theorem Consistent.commit {before : Option ρ} {s : Table ι ρ} {i : ι} {seen : Option ρ}
    {readAt : Nat} (h : Consistent sessions version before s)
    (hreading : Reading sessions before s i seen readAt) (hlock : s.rowLock = some i) (row : ρ) :
    Consistent sessions version before (s.commit i seen row) where
  row_eq := by
    show some row = lastRow before (s.commits ++ [_])
    rw [lastRow_append]
    rfl
  sound j := by
    by_cases hj : j = i
    · rw [hj]
      show Sound sessions version before _ i (Function.update s.phase i .done i)
      rw [Function.update_self]
      trivial
    · show Sound sessions version before _ j (Function.update s.phase i .done j)
      rw [Function.update_of_ne hj]
      exact Sound.of_commit sessions version hj (h.sound j) hreading hlock row

/-! ## Runs -/

section Runs

variable (hcompute : ∀ i seen new, (sessions i).compute seen = some new →
    version new = bump version seen)
  (hupdate : ∀ old new latest, version old < version new →
    version (update old new latest) = version new)

include hcompute hupdate

/-- One step of any session keeps the invariant. -/
theorem Consistent.next {before : Option ρ} {s : Table ι ρ}
    (h : Consistent sessions version before s) (i : ι) :
    Consistent sessions version before (s.next sessions update i) := by
  have hi := h.sound i
  unfold Table.next
  cases hp : s.phase i with
  | start =>
    dsimp only
    split
    next =>
      split
      next hnone => exact Consistent.takeAdvisory sessions version h hnone
      next => exact h
    next hother => exact Consistent.become sessions version h fun hlock => absurd hlock hother
  | ready =>
    rw [hp] at hi
    dsimp only
    split
    next row hlock hrow =>
      split
      next hfree =>
        apply Consistent.takeRow sessions version h hfree
        have hnow := Reading.now sessions (s := { s with rowLock := some i }) h.row_eq hi
          fun _ _ => rfl
        rw [← hrow]
        exact hnow
      next => exact h
    next hother =>
      apply Consistent.become sessions version h
      apply Reading.now sessions h.row_eq hi
      -- the row's lock is only left out where there is no row
      intro hlock hsome
      obtain ⟨row, hrow⟩ := Option.ne_none_iff_exists'.mp hsome
      exact absurd hrow (hother row hlock)
  | read seen readAt =>
    rw [hp] at hi
    dsimp only
    split
    next new hnew => exact Consistent.become sessions version h ⟨hi, hcompute i seen new hnew⟩
    next => exact Consistent.finish sessions version i h
  | computed seen readAt new =>
    rw [hp] at hi
    obtain ⟨hreading, hversion⟩ := hi
    have hlocked : Reading sessions before { s with rowLock := some i } i seen readAt :=
      Reading.of_locks sessions hreading rfl (fun _ => rfl) (fun hlock => hlock)
    dsimp only
    split
    next => exact Consistent.finish sessions version i h
    next hnone =>
      split
      next hfree =>
        exact Consistent.takeRow sessions version h hfree ⟨hlocked, hversion, rfl, fun _ => hnone⟩
      next => exact h
    next old latest hlatest =>
      split
      next hfree =>
        have hlt : version old < version new := by
          rw [hversion]
          exact Nat.lt_succ_self _
        have hpending : version (update old new latest) = bump version (some old) := by
          rw [hupdate old new latest hlt]
          exact hversion
        exact Consistent.takeRow sessions version h hfree
          ⟨hlocked, hpending, rfl, fun hnone => absurd hnone (by simp)⟩
      next => exact h
    next => exact Consistent.finish sessions version i h
  | flushed seen readAt pending =>
    rw [hp] at hi
    obtain ⟨hreading, _, hlock, _⟩ := hi
    exact Consistent.commit sessions version h hreading hlock pending
  | done => exact h

omit [DecidableEq ι] hcompute hupdate in
theorem Consistent.initial (row : Option ρ) :
    Consistent sessions version row (Table.initial row : Table ι ρ) :=
  ⟨rfl, fun _ => trivial⟩

omit hcompute hupdate in
/-- A step either commits or leaves the commits as they are. -/
theorem Table.next_commits (s : Table ι ρ) (i : ι) :
    (∃ seen readAt pending, s.phase i = .flushed seen readAt pending ∧
      (s.next sessions update i).commits = s.commits ++ [⟨i, seen, pending⟩]) ∨
    ((∀ seen readAt pending, s.phase i ≠ .flushed seen readAt pending) ∧
      (s.next sessions update i).commits = s.commits) := by
  unfold Table.next
  cases hp : s.phase i with
  | flushed seen readAt pending => exact Or.inl ⟨seen, readAt, pending, rfl, rfl⟩
  | start =>
    refine Or.inr ⟨by simp, ?_⟩
    dsimp only
    split
    next =>
      split
      next => rfl
      next => rfl
    next => rfl
  | ready =>
    refine Or.inr ⟨by simp, ?_⟩
    dsimp only
    split
    next =>
      split
      next => rfl
      next => rfl
    next => rfl
  | read seen readAt =>
    refine Or.inr ⟨by simp, ?_⟩
    dsimp only
    split
    next => rfl
    next => rfl
  | computed seen readAt new =>
    refine Or.inr ⟨by simp, ?_⟩
    dsimp only
    split
    next => rfl
    next =>
      split
      next => rfl
      next => rfl
    next =>
      split
      next => rfl
      next => rfl
    next => rfl
  | done => exact Or.inr ⟨by simp, rfl⟩

omit [DecidableEq ι] hcompute hupdate in
/-- Nothing has been committed since the read of an undisturbed session. -/
theorem Undisturbed.drop_eq_nil {before : Option ρ} {s : Table ι ρ} {i : ι}
    (h : Consistent sessions version before s) (hun : Undisturbed sessions s i) {seen : Option ρ}
    {readAt : Nat} {pending : ρ} (hp : s.phase i = .flushed seen readAt pending) :
    s.commits.drop readAt = [] := by
  have hi := h.sound i
  rw [hp] at hi
  obtain ⟨hreading, _, _, hnone⟩ := hi
  have hshared := hun seen readAt pending hp
  cases seen with
  | none =>
    have hcommits : s.commits = [] := lastRow_none (h.row_eq ▸ hnone rfl)
    rw [hcommits, List.drop_nil]
  | some old =>
    cases hlock : (sessions i).lock with
    | none =>
      exact List.eq_nil_iff_forall_not_mem.mpr fun c hc => (hshared c hc).2 hlock
    | row =>
      -- it has held the row's lock since its read
      rw [← (hreading.row hlock (by simp)).2, List.drop_length]
    | advisory =>
      apply List.eq_nil_iff_forall_not_mem.mpr
      intro c hc
      exact (hreading.advisory hlock).2 c hc ((hshared c hc).1.trans hlock)

omit [DecidableEq ι] hcompute hupdate in
/-- A commit that keeps the history intact has nothing between it and its read. -/
theorem Intact.drop_eq_nil {before : Option ρ} {s : Table ι ρ} {i : ι}
    (h : Consistent sessions version before s) {seen : Option ρ} {readAt : Nat} {pending : ρ}
    (hp : s.phase i = .flushed seen readAt pending)
    (hintact : Intact version view before (s.commits ++ [⟨i, seen, pending⟩])) :
    s.commits.drop readAt = [] := by
  have hi := h.sound i
  rw [hp] at hi
  obtain ⟨hreading, hversion, _, hnone⟩ := hi
  obtain ⟨hcommits, _, hlater, _⟩ := (intact_append version view before _ _).mp hintact
  cases seen with
  | none =>
    have hempty : s.commits = [] := lastRow_none (h.row_eq ▸ hnone rfl)
    rw [hempty, List.drop_nil]
  | some old =>
    by_contra hne
    -- the versions of the commits in between have passed the one it read
    rw [← List.take_append_drop readAt s.commits] at hcommits
    have hbetween := ((intact_append version view before _ _).mp hcommits).2
    rw [← hreading.seen_eq] at hbetween
    obtain ⟨row, hrow, hlt⟩ := Intact.version_lt version view hbetween hne
    have hlast : lastRow before s.commits = some row := by
      rw [← List.take_append_drop readAt s.commits, lastRow_append, ← hreading.seen_eq]
      exact hrow
    have hle : version row < version old + 1 := by
      rw [show version old + 1 = version pending from hversion.symm]
      exact hlater row hlast
    omega

omit hcompute hupdate in
/-- An undisturbed step keeps the history intact. -/
theorem Intact.next {before : Option ρ} {s : Table ι ρ} {i : ι}
    (h : Consistent sessions version before s) (hintact : Intact version view before s.commits)
    (hun : Undisturbed sessions s i) :
    Intact version view before (s.next sessions update i).commits := by
  rcases Table.next_commits sessions update s i with ⟨seen, readAt, pending, hp, hcommits⟩ |
      ⟨_, hcommits⟩
  · have hnone := Undisturbed.drop_eq_nil sessions version h hun hp
    have hi := h.sound i
    rw [hp] at hi
    obtain ⟨hreading, hversion, _, _⟩ := hi
    have hseen : seen = lastRow before s.commits := by
      rw [hreading.seen_eq, ← List.take_append_drop readAt s.commits, hnone, List.append_nil,
        List.take_take, Nat.min_self]
    rw [hcommits]
    refine (intact_append version view before _ _).mpr ⟨hintact, ?_, fun row hrow => ?_, trivial⟩
    · rw [← hseen]
    · rw [← hseen] at hrow
      rw [hversion, hrow]
      exact Nat.lt_succ_self _
  · rw [hcommits]
    exact hintact

/-- No update of a run is lost exactly when every session that commits in it
is undisturbed. -/
theorem intact_iff (row : Option ρ) (schedule : List ι) :
    Intact version view row
        (run (Table.next sessions update) (Table.initial row) schedule).commits
      ↔ Throughout (Table.next sessions update) (Undisturbed sessions) (Table.initial row)
        schedule := by
  have hstart := Consistent.initial (ι := ι) sessions version row
  constructor
  · intro h
    generalize Table.initial row = s at h hstart
    induction schedule generalizing s with
    | nil => trivial
    | cons i schedule ih =>
      have hnext : Intact version view row (s.next sessions update i).commits := by
        refine of_run (fun t : Table ι ρ => Intact version view row t.commits)
          (fun t j hj => ?_) h
        rcases Table.next_commits sessions update t j with ⟨_, _, _, _, hcommits⟩ | ⟨_, hcommits⟩
        · rw [hcommits] at hj
          exact ((intact_append version view row _ _).mp hj).1
        · rw [← hcommits]
          exact hj
      refine ⟨fun seen readAt pending hp c hc => ?_,
        ih _ h (Consistent.next sessions update version hcompute hupdate hstart i)⟩
      rcases Table.next_commits sessions update s i with ⟨_, _, _, hp', hcommits⟩ | ⟨hnot, _⟩
      · rw [hp] at hp'
        cases hp'
        rw [hcommits] at hnext
        rw [Intact.drop_eq_nil sessions version view hstart hp hnext] at hc
        exact absurd hc List.not_mem_nil
      · exact absurd hp (hnot seen readAt pending)
  · intro h
    refine (run_invariant (fun t : Table ι ρ => Consistent sessions version row t ∧
      Intact version view row t.commits) (fun t i ht hun => ?_) ⟨hstart, trivial⟩ h).2
    exact ⟨Consistent.next sessions update version hcompute hupdate ht.1 i,
      Intact.next sessions update version view ht.1 ht.2 hun⟩

end Runs

end Eidetic.Lib
