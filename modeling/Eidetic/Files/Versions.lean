import Eidetic.Files.Edit
import Eidetic.Lib.Run
import Mathlib.Data.List.Nodup
import Mathlib.Logic.Function.Basic

/-!
# The history of a file

Requests that edit one file, each with a session of its own. An edit counts the
versions, reads the file as text for its snapshot, opens and writes it and
commits; a read that fails is only logged, and a restore answers the same
whether its write succeeds or not. The history is lossless as long as every
snapshot is read and is of bytes that a text without `\r` has, nothing comes
between an edit's snapshot and its open or between a restore's open and its
answer, and versions are committed with the numbers that come next
(`lossless_of_careful`).

The invariant is `Kept`: the committed versions are numbered from one without a
gap, what has been reported is stored with the bytes that were found, a restore
that has been reported has left the bytes of its version, and each request is
`Sound`, which says what its session holds and where the file is on its way. The
committed numbers being an interval is what makes a count the next number.

The steps of a request are those of the source between which another can come:
the snapshot with its count, the open that truncates, the write, the commit, or
a failure. `Careful` has one case for each of them that can lose something. That
each of these is needed has a lemma of its own, on any history that was lossless
before: an unread snapshot, bytes with `\r`, a restore whose write fails, a
count that is outdated.
-/

namespace Eidetic.Files

open Eidetic.Lib Eidetic.Py

/-- An edit and what it writes; a restore writes the content of its version. -/
structure EditPlan where
  edit : FileEdit
  write : DiskWrite
  restores : ∀ content, edit = .restore content → write = .replace content

/-- An edit after `save_version`: its number, its snapshot if the file could be
read, and the bytes there were. -/
structure Attempt where
  plan : EditPlan
  number : Nat
  snapshot : Option Text
  seen : List UInt8

/-- Where the edit of a request is. -/
inductive RequestPhase
  | ready
  | planned (plan : EditPlan)
  | counted (plan : EditPlan) (number : Nat)
  | snapped (a : Attempt)
  /-- With the bytes that the file had. -/
  | opened (a : Attempt) (previous : List UInt8)
  | wrote (a : Attempt) (previous : List UInt8)

/-- A request: its edit, and the versions its session holds. -/
structure Request where
  phase : RequestPhase := .ready
  pending : List FileVersion := []

/-- An edit that has reported success: the bytes it found, the version it stored,
and the bytes on disk then. -/
structure Report where
  edit : FileEdit
  previous : List UInt8
  stored : Option FileVersion
  disk : List UInt8

/-- The file, its committed versions, the requests and what they have reported. -/
structure VersionStore where
  disk : List UInt8
  versions : List FileVersion := []
  requests : Nat → Request := fun _ => {}
  reports : List Report := []

/-- What can happen next. -/
inductive VersionEvent
  | begin (request : Nat) (edit : FileEdit)
  | count (request : Nat)
  | snapshot (request : Nat) (read : Bool)
  | openFile (request : Nat)
  | put (request : Nat)
  | commit (request : Nat)
  /-- The next step fails; a write after so many bytes. -/
  | fail (request : Nat) (written : Nat)
  /-- The session of the request commits, or is rolled back, after its edits. -/
  | commitLater (request : Nat)
  | rollback (request : Nat)

/-- A restore is of a version that there is. -/
def FileEdit.available (versions : List FileVersion) : FileEdit → Bool
  | .restore content => versions.any fun v => v.content == content
  | _ => true

theorem FileEdit.plan_restore {disk : List UInt8} {edit : FileEdit} {write : DiskWrite}
    (h : edit.plan disk = some write) (content : Text) (hedit : edit = .restore content) :
    write = .replace content := by
  subst hedit
  exact (Option.some.inj h).symm

/-- The edit and its write, unless the version or the text to patch is not found. -/
def planEdit (s : VersionStore) (edit : FileEdit) : Option EditPlan :=
  if edit.available s.versions then
    match h : edit.plan s.disk with
    | some write => some ⟨edit, write, FileEdit.plan_restore h⟩
    | none => none
  else none

/-- The version that `save_version` adds. -/
def Attempt.version (a : Attempt) : Option FileVersion := a.snapshot.map (FileVersion.mk a.number)

def VersionStore.set (s : VersionStore) (request : Nat) (r : Request) : VersionStore :=
  { s with requests := Function.update s.requests request r }

def VersionStore.report (s : VersionStore) (edit : FileEdit) (previous : List UInt8)
    (stored : Option FileVersion) : VersionStore :=
  { s with reports := s.reports ++ [⟨edit, previous, stored, s.disk⟩] }

/-- What an edit that has failed answers: `restore_version` does not look at the
result of `write_content`. -/
def VersionStore.answer (s : VersionStore) (edit : FileEdit) (previous : List UInt8) :
    VersionStore :=
  match edit with
  | .restore _ => s.report edit previous none
  | _ => s

def VersionStore.step (s : VersionStore) : VersionEvent → VersionStore
  | .begin request edit =>
    match (s.requests request).phase with
    | .ready =>
      match planEdit s edit with
      | some plan => s.set request { s.requests request with phase := .planned plan }
      | none => s
    | _ => s
  | .count request =>
    match (s.requests request).phase with
    | .planned plan =>
      -- the query flushes what the session holds
      s.set request { s.requests request with
        phase := .counted plan (s.versions.length + (s.requests request).pending.length + 1) }
    | _ => s
  | .snapshot request read =>
    match (s.requests request).phase with
    | .counted plan number =>
      let a : Attempt := ⟨plan, number, if read then some (readText s.disk) else none, s.disk⟩
      s.set request ⟨.snapped a, (s.requests request).pending ++ a.version.toList⟩
    | _ => s
  | .openFile request =>
    match (s.requests request).phase with
    | .snapped a =>
      { s with disk := a.plan.write.opened s.disk }.set request
        { s.requests request with phase := .opened a s.disk }
    | _ => s
  | .put request =>
    match (s.requests request).phase with
    | .opened a previous =>
      { s with disk := a.plan.write.put s.disk }.set request
        { s.requests request with phase := .wrote a previous }
    | _ => s
  | .commit request =>
    match (s.requests request).phase with
    | .wrote a previous =>
      ({ s with versions := s.versions ++ (s.requests request).pending }.set request {}).report
        a.plan.edit previous a.version
    | _ => s
  | .fail request written =>
    match (s.requests request).phase with
    | .planned plan => (s.set request {}).answer plan.edit s.disk
    | .snapped a =>
      (s.set request ⟨.ready, (s.requests request).pending⟩).answer a.plan.edit s.disk
    | .opened a previous =>
      ({ s with disk := a.plan.write.cut written s.disk }.set request
        ⟨.ready, (s.requests request).pending⟩).answer a.plan.edit previous
    | .wrote a previous => (s.set request {}).answer a.plan.edit previous
    | _ => s
  | .commitLater request =>
    match (s.requests request).phase with
    | .ready =>
      { s with versions := s.versions ++ (s.requests request).pending }.set request {}
    | _ => s
  | .rollback request =>
    match (s.requests request).phase with
    | .ready => s.set request {}
    | _ => s

/-- The history of a file is lossless. -/
structure Lossless (s : VersionStore) : Prop where
  /-- Who reports success has stored the exact bytes it found. -/
  stored : ∀ r ∈ s.reports, ∃ v ∈ s.versions, r.stored = some v ∧ utf8 v.content = r.previous
  unique : (s.versions.map FileVersion.version).Nodup
  /-- A restore leaves the bytes of its version. -/
  restored : ∀ r ∈ s.reports, ∀ content, r.edit = .restore content → r.disk = utf8 content

/-- The session's versions have the numbers that come next. -/
def NextNumbers (s : VersionStore) (request : Nat) : Prop :=
  (s.requests request).pending.map FileVersion.version =
    List.range' (s.versions.length + 1) (s.requests request).pending.length

/-- The request is between the open and the answer of a restore. -/
def RequestPhase.Restoring : RequestPhase → Prop
  | .opened a _ | .wrote a _ => ∃ content, a.plan.edit = .restore content
  | _ => False

/-- No other request is. -/
def Undisturbed (s : VersionStore) (request : Nat) : Prop :=
  ∀ other, other ≠ request → ¬ (s.requests other).phase.Restoring

/-- The file changes only while no other request restores. -/
def Spares (s : VersionStore) (request : Nat) (disk : List UInt8) : Prop :=
  disk ≠ s.disk → Undisturbed s request

/-- The snapshot was read, no edit came between it and the open, and the bytes
are those of a text without `\r`. -/
structure Exact (a : Attempt) (previous : List UInt8) : Prop where
  read : a.snapshot.isSome = true
  seen : a.seen = previous
  text : ∃ t, '\r' ∉ t ∧ previous = utf8 t

/-- A condition on each step under which the history is lossless. -/
def Careful (s : VersionStore) : VersionEvent → Prop
  | .openFile request =>
    ∀ a, (s.requests request).phase = .snapped a →
      Spares s request (a.plan.write.opened s.disk)
  | .put request =>
    ∀ a previous, (s.requests request).phase = .opened a previous →
      Spares s request (a.plan.write.put s.disk)
  | .commit request =>
    ∀ a previous, (s.requests request).phase = .wrote a previous →
      Exact a previous ∧ NextNumbers s request
  | .fail request written =>
    match (s.requests request).phase with
    | .planned plan => ∀ content, plan.edit ≠ .restore content
    | .snapped a | .wrote a _ => ∀ content, a.plan.edit ≠ .restore content
    | .opened a _ =>
      (∀ content, a.plan.edit ≠ .restore content) ∧
        Spares s request (a.plan.write.cut written s.disk)
    | _ => True
  | .commitLater request => (s.requests request).phase = .ready → NextNumbers s request
  | _ => True

/-! ## One request at a time -/

/-- The request whose step it is. -/
def VersionEvent.request : VersionEvent → Nat
  | .begin request _ | .count request | .snapshot request _ | .openFile request | .put request
  | .commit request | .fail request _ | .commitLater request | .rollback request => request

theorem VersionStore.set_requests_of_ne (s : VersionStore) {request other : Nat}
    (h : other ≠ request) (r : Request) : (s.set request r).requests other = s.requests other :=
  Function.update_of_ne h ..

theorem answer_requests (s : VersionStore) (edit : FileEdit) (previous : List UInt8) :
    (s.answer edit previous).requests = s.requests := by
  unfold VersionStore.answer
  split <;> rfl

/-- A step leaves the other requests where they are. -/
theorem step_requests_of_ne (s : VersionStore) (e : VersionEvent) {other : Nat}
    (h : other ≠ e.request) : (s.step e).requests other = s.requests other := by
  cases e with
  | begin request edit =>
    unfold VersionStore.step
    dsimp only
    split
    next =>
      split
      next => exact s.set_requests_of_ne h _
      next => rfl
    next => rfl
  | count request =>
    unfold VersionStore.step
    dsimp only
    split
    next => exact s.set_requests_of_ne h _
    next => rfl
  | snapshot request read =>
    unfold VersionStore.step
    dsimp only
    split
    next => exact s.set_requests_of_ne h _
    next => rfl
  | openFile request =>
    unfold VersionStore.step
    dsimp only
    split
    next => exact VersionStore.set_requests_of_ne _ h _
    next => rfl
  | put request =>
    unfold VersionStore.step
    dsimp only
    split
    next => exact VersionStore.set_requests_of_ne _ h _
    next => rfl
  | commit request =>
    unfold VersionStore.step
    dsimp only
    split
    next => exact VersionStore.set_requests_of_ne _ h _
    next => rfl
  | fail request written =>
    unfold VersionStore.step
    dsimp only
    split
    next =>
      rw [answer_requests]
      exact s.set_requests_of_ne h _
    next =>
      rw [answer_requests]
      exact s.set_requests_of_ne h _
    next =>
      rw [answer_requests]
      exact VersionStore.set_requests_of_ne _ h _
    next =>
      rw [answer_requests]
      exact s.set_requests_of_ne h _
    next => rfl
  | commitLater request =>
    unfold VersionStore.step
    dsimp only
    split
    next => exact VersionStore.set_requests_of_ne _ h _
    next => rfl
  | rollback request =>
    unfold VersionStore.step
    dsimp only
    split
    next => exact s.set_requests_of_ne h _
    next => rfl

/-- A request that runs alone is not disturbed. -/
theorem undisturbed_of_alone {disk : List UInt8} {events : List VersionEvent} {request : Nat}
    (h : ∀ e ∈ events, e.request = request) :
    Undisturbed (run VersionStore.step { disk := disk } events) request := by
  intro other hne
  have hother : ∀ (s : VersionStore), s.requests other = {} →
      (run VersionStore.step s events).requests other = {} := by
    induction events with
    | nil => exact fun _ hs => hs
    | cons e events ih =>
      intro s hs
      refine ih (fun x hx => h x (List.mem_cons_of_mem _ hx)) (s.step e) ?_
      rw [step_requests_of_ne s e (by rw [h e (List.mem_cons_self ..)]; exact hne), hs]
  rw [hother _ rfl]
  exact id

/-! ## What careful steps keep -/

/-- The `save_version` that the phase is after. -/
def RequestPhase.attempt : RequestPhase → Option Attempt
  | .snapped a | .opened a _ | .wrote a _ => some a
  | _ => none

/-- The session has the snapshot of its edit, and the file is where a restore has
brought it. -/
structure Sound (disk : List UInt8) (r : Request) : Prop where
  attempt : ∀ a, r.phase.attempt = some a → ∀ t, a.snapshot = some t →
    t = readText a.seen ∧ ⟨a.number, t⟩ ∈ r.pending
  opened : ∀ a previous content, r.phase = .opened a previous →
    a.plan.edit = .restore content → disk = []
  wrote : ∀ a previous content, r.phase = .wrote a previous →
    a.plan.edit = .restore content → disk = utf8 content

theorem Sound.of_attempt_eq_none {disk : List UInt8} {r : Request}
    (h : r.phase.attempt = none) : Sound disk r := by
  refine ⟨fun a ha => ?_, fun a previous _ hphase => ?_, fun a previous _ hphase => ?_⟩
  · rw [h] at ha
    exact absurd ha (by simp)
  · rw [hphase] at h
    exact absurd h (by simp [RequestPhase.attempt])
  · rw [hphase] at h
    exact absurd h (by simp [RequestPhase.attempt])

/-- Who is not restoring does not depend on the file. -/
theorem Sound.of_not_restoring {disk : List UInt8} {r : Request} (h : Sound disk r)
    (hrestoring : ¬ r.phase.Restoring) (disk' : List UInt8) : Sound disk' r := by
  refine ⟨h.attempt, ?_, ?_⟩
  · intro a previous content hphase hedit
    rw [hphase] at hrestoring
    exact absurd ⟨content, hedit⟩ hrestoring
  · intro a previous content hphase hedit
    rw [hphase] at hrestoring
    exact absurd ⟨content, hedit⟩ hrestoring

structure Kept (s : VersionStore) : Prop where
  numbered : s.versions.map FileVersion.version = List.range' 1 s.versions.length
  stored : ∀ r ∈ s.reports, ∃ v ∈ s.versions, r.stored = some v ∧ utf8 v.content = r.previous
  restored : ∀ r ∈ s.reports, ∀ content, r.edit = .restore content → r.disk = utf8 content
  requests : ∀ request, Sound s.disk (s.requests request)

theorem Kept.lossless {s : VersionStore} (h : Kept s) : Lossless s := by
  refine ⟨h.stored, ?_, h.restored⟩
  rw [h.numbered]
  exact List.nodup_range'

/-- A request moves on. -/
theorem Kept.set {s : VersionStore} (h : Kept s) (request : Nat) {r : Request}
    (hr : Sound s.disk r) : Kept (s.set request r) := by
  refine ⟨h.numbered, h.stored, h.restored, ?_⟩
  intro other
  show Sound s.disk (Function.update s.requests request r other)
  by_cases heq : other = request
  · rw [heq, Function.update_self]
    exact hr
  · rw [Function.update_of_ne heq]
    exact h.requests other

/-- An edit opens or writes the file. -/
theorem Kept.write {s : VersionStore} (h : Kept s) {request : Nat} {disk : List UInt8}
    (hspares : Spares s request disk) {r : Request} (hr : Sound disk r) :
    Kept ({ s with disk := disk }.set request r) := by
  by_cases hdisk : disk = s.disk
  · subst hdisk
    exact h.set request hr
  · refine ⟨h.numbered, h.stored, h.restored, ?_⟩
    intro other
    show Sound disk (Function.update s.requests request r other)
    by_cases heq : other = request
    · rw [heq, Function.update_self]
      exact hr
    · rw [Function.update_of_ne heq]
      exact (h.requests other).of_not_restoring (hspares hdisk other heq) disk

/-- Versions are committed with the numbers that come next. -/
theorem Kept.append {s : VersionStore} (h : Kept s) {vs : List FileVersion}
    (hnumbers : vs.map FileVersion.version = List.range' (s.versions.length + 1) vs.length) :
    Kept { s with versions := s.versions ++ vs } := by
  refine ⟨?_, ?_, h.restored, h.requests⟩
  · show (s.versions ++ vs).map FileVersion.version = List.range' 1 (s.versions ++ vs).length
    rw [List.map_append, h.numbered, hnumbers, List.length_append, Nat.add_comm _ 1,
      List.range'_append_1]
  · intro r hr
    obtain ⟨v, hv, hstored⟩ := h.stored r hr
    exact ⟨v, List.mem_append_left _ hv, hstored⟩

theorem Kept.report {s : VersionStore} (h : Kept s) {edit : FileEdit} {previous : List UInt8}
    {stored : Option FileVersion}
    (hstored : ∃ v ∈ s.versions, stored = some v ∧ utf8 v.content = previous)
    (hrestored : ∀ content, edit = .restore content → s.disk = utf8 content) :
    Kept (s.report edit previous stored) := by
  refine ⟨h.numbered, ?_, ?_, h.requests⟩
  · intro r hr
    rcases List.mem_append.mp hr with hr | hr
    · exact h.stored r hr
    · obtain rfl := List.mem_singleton.mp hr
      exact hstored
  · intro r hr
    rcases List.mem_append.mp hr with hr | hr
    · exact h.restored r hr
    · obtain rfl := List.mem_singleton.mp hr
      exact hrestored

theorem answer_of_ne {edit : FileEdit} (h : ∀ content, edit ≠ .restore content) (s : VersionStore)
    (previous : List UInt8) : s.answer edit previous = s := by
  unfold VersionStore.answer
  split
  next content => exact absurd rfl (h content)
  next => rfl

/-- The snapshot of an exact attempt is the bytes it found. -/
theorem Exact.utf8_snapshot {a : Attempt} {previous : List UInt8} (h : Exact a previous) {t : Text}
    (ht : t = readText a.seen) : utf8 t = previous := by
  rw [ht, h.seen]
  exact utf8_readText_iff.mpr h.text

theorem Kept.commit {s : VersionStore} (h : Kept s) {request : Nat} {a : Attempt}
    {previous : List UInt8} (hphase : (s.requests request).phase = .wrote a previous)
    (hexact : Exact a previous) (hnext : NextNumbers s request) :
    Kept (({ s with versions := s.versions ++ (s.requests request).pending }.set request
      {}).report a.plan.edit previous a.version) := by
  have hsound := h.requests request
  obtain ⟨t, ht⟩ := Option.isSome_iff_exists.mp hexact.read
  obtain ⟨hread, hpending⟩ := hsound.attempt a (by rw [hphase]; rfl) t ht
  have hversion : a.version = some ⟨a.number, t⟩ := by
    unfold Attempt.version
    rw [ht]
    rfl
  refine ((h.append hnext).set request (.of_attempt_eq_none rfl)).report ?_ ?_
  · exact ⟨⟨a.number, t⟩, List.mem_append_right _ hpending, hversion, hexact.utf8_snapshot hread⟩
  · exact fun content hedit => hsound.wrote a previous content hphase hedit

/-- The snapshot, if the file could be read, is in the session. -/
theorem Kept.snapshot {s : VersionStore} (h : Kept s) (request : Nat) (plan : EditPlan)
    (number : Nat) (read : Bool) (pending : List FileVersion) {a : Attempt}
    (ha : a = ⟨plan, number, if read then some (readText s.disk) else none, s.disk⟩) :
    Kept (s.set request ⟨.snapped a, pending ++ a.version.toList⟩) := by
  subst ha
  refine h.set request ⟨?_, fun _ _ _ hphase => by simp at hphase,
    fun _ _ _ hphase => by simp at hphase⟩
  intro a ha t ht
  obtain rfl := Option.some.inj ha
  cases read with
  | true =>
    obtain rfl : readText s.disk = t := Option.some.inj ht
    exact ⟨rfl, List.mem_append_right _ (List.mem_singleton.mpr rfl)⟩
  | false => exact absurd ht (by simp)

theorem Kept.openFile {s : VersionStore} (h : Kept s) {request : Nat} {a : Attempt}
    (hphase : (s.requests request).phase = .snapped a)
    (hspares : Spares s request (a.plan.write.opened s.disk)) :
    Kept ({ s with disk := a.plan.write.opened s.disk }.set request
      { s.requests request with phase := .opened a s.disk }) := by
  refine h.write hspares ⟨?_, ?_, fun _ _ _ hphase => by simp at hphase⟩
  · intro a' ha'
    exact (h.requests request).attempt a' (by rw [hphase]; exact ha')
  · intro a' previous content ha' hedit
    obtain ⟨rfl, _⟩ := RequestPhase.opened.inj ha'
    rw [a.plan.restores content hedit]
    rfl

/-- A restore that writes an empty file leaves its content. -/
theorem Kept.put {s : VersionStore} (h : Kept s) {request : Nat} {a : Attempt}
    {previous : List UInt8} (hphase : (s.requests request).phase = .opened a previous)
    (hspares : Spares s request (a.plan.write.put s.disk)) :
    Kept ({ s with disk := a.plan.write.put s.disk }.set request
      { s.requests request with phase := .wrote a previous }) := by
  have hsound := h.requests request
  refine h.write hspares ⟨?_, fun _ _ _ hphase => by simp at hphase, ?_⟩
  · intro a' ha'
    exact hsound.attempt a' (by rw [hphase]; exact ha')
  · intro a' previous' content ha' hedit
    obtain ⟨rfl, _⟩ := RequestPhase.wrote.inj ha'
    rw [hsound.opened a previous content hphase hedit, a.plan.restores content hedit]
    exact DiskWrite.apply_replace content []

theorem kept_step (s : VersionStore) (e : VersionEvent) (h : Kept s) (hcareful : Careful s e) :
    Kept (s.step e) := by
  cases e with
  | begin request edit =>
    unfold VersionStore.step
    dsimp only
    split
    next =>
      split
      next => exact h.set request (.of_attempt_eq_none rfl)
      next => exact h
    next => exact h
  | count request =>
    unfold VersionStore.step
    dsimp only
    split
    next => exact h.set request (.of_attempt_eq_none rfl)
    next => exact h
  | snapshot request read =>
    unfold VersionStore.step
    dsimp only
    split
    next plan number _ => exact h.snapshot request plan number read _ rfl
    next => exact h
  | openFile request =>
    unfold VersionStore.step
    dsimp only
    split
    next a hphase => exact h.openFile hphase (hcareful a hphase)
    next => exact h
  | put request =>
    unfold VersionStore.step
    dsimp only
    split
    next a previous hphase => exact h.put hphase (hcareful a previous hphase)
    next => exact h
  | commit request =>
    unfold VersionStore.step
    dsimp only
    split
    -- the row gets its version where the file has just got its content
    next a previous hphase =>
      obtain ⟨hexact, hnext⟩ := hcareful a previous hphase
      exact h.commit hphase hexact hnext
    next => exact h
  | fail request written =>
    -- a failure answers without a version, and leaves what it has written to the file
    unfold Careful at hcareful
    unfold VersionStore.step
    dsimp only at hcareful ⊢
    split
    next plan hphase =>
      rw [hphase] at hcareful
      rw [answer_of_ne hcareful]
      exact h.set request (.of_attempt_eq_none rfl)
    next a hphase =>
      rw [hphase] at hcareful
      rw [answer_of_ne hcareful]
      exact h.set request (.of_attempt_eq_none rfl)
    next a previous hphase =>
      rw [hphase] at hcareful
      rw [answer_of_ne hcareful.1]
      exact h.write hcareful.2 (.of_attempt_eq_none rfl)
    next a previous hphase =>
      rw [hphase] at hcareful
      rw [answer_of_ne hcareful]
      exact h.set request (.of_attempt_eq_none rfl)
    next => exact h
  | commitLater request =>
    unfold VersionStore.step
    dsimp only
    split
    next hphase =>
      exact (h.append (hcareful hphase)).set request (.of_attempt_eq_none rfl)
    next => exact h
  | rollback request =>
    unfold VersionStore.step
    dsimp only
    split
    next => exact h.set request (.of_attempt_eq_none rfl)
    next => exact h

theorem kept_initial (disk : List UInt8) : Kept { disk := disk } :=
  ⟨rfl, by simp, by simp, fun _ => .of_attempt_eq_none rfl⟩

/-- In a run of careful steps the history is lossless. -/
theorem lossless_of_careful {disk : List UInt8} {events : List VersionEvent}
    (h : Throughout VersionStore.step Careful { disk := disk } events) :
    Lossless (run VersionStore.step { disk := disk } events) :=
  (run_invariant Kept kept_step (kept_initial disk) h).lossless

/-- A write, and the restore of its version. -/
def writeAndRestore : List VersionEvent :=
  [.begin 0 (.write "b".toList), .count 0, .snapshot 0 true, .openFile 0, .put 0, .commit 0,
    .begin 0 (.restore "a".toList), .count 0, .snapshot 0 true, .openFile 0, .put 0, .commit 0]

theorem writeAndRestore_lossless :
    Lossless (run VersionStore.step { disk := utf8 "a".toList } writeAndRestore) := by
  have halone : ∀ n, Undisturbed
      (run VersionStore.step { disk := utf8 "a".toList } (writeAndRestore.take n)) 0 :=
    fun n => undisturbed_of_alone fun e he => by
      have hall : ∀ e ∈ writeAndRestore, e.request = 0 := by
        simp [writeAndRestore, VersionEvent.request]
      exact hall e (List.mem_of_mem_take he)
  refine lossless_of_careful ⟨trivial, trivial, trivial, fun _ _ _ => halone 3,
    fun _ _ _ _ => halone 4, ?_, trivial, trivial, trivial, fun _ _ _ => halone 9,
    fun _ _ _ _ => halone 10, ?_, trivial⟩
  · rintro a previous hphase
    change RequestPhase.wrote ⟨⟨.write "b".toList, .replace "b".toList, by simp⟩, 1,
      some (readText (utf8 "a".toList)), utf8 "a".toList⟩ (utf8 "a".toList) = _ at hphase
    obtain ⟨rfl, rfl⟩ := RequestPhase.wrote.inj hphase
    exact ⟨⟨rfl, rfl, "a".toList, by decide, rfl⟩, rfl⟩
  · rintro a previous hphase
    change RequestPhase.wrote ⟨⟨.restore "a".toList, .replace "a".toList, by simp⟩, 2,
      some (readText (utf8 "b".toList)), utf8 "b".toList⟩ (utf8 "b".toList) = _ at hphase
    obtain ⟨rfl, rfl⟩ := RequestPhase.wrote.inj hphase
    exact ⟨⟨rfl, rfl, "b".toList, by decide, rfl⟩, rfl⟩

/-! ## What is lost -/

/-- Who reports success in a lossless history has its version. -/
theorem Lossless.exact {s : VersionStore} {edit : FileEdit} {previous : List UInt8}
    {stored : Option FileVersion} (h : Lossless (s.report edit previous stored)) :
    ∃ v, stored = some v ∧ utf8 v.content = previous := by
  obtain ⟨v, _, hstored⟩ := h.stored ⟨edit, previous, stored, s.disk⟩
    (List.mem_append_right _ (List.mem_singleton.mpr rfl))
  exact ⟨v, hstored⟩

/-- A snapshot of bytes that no text without `\r` has is not those bytes. -/
theorem text_of_lossless_commit {s : VersionStore} {request : Nat} {a : Attempt}
    {previous : List UInt8} (hphase : (s.requests request).phase = .wrote a previous)
    (hread : a.snapshot = some (readText previous))
    (h : Lossless (s.step (.commit request))) : ∃ t, '\r' ∉ t ∧ previous = utf8 t := by
  unfold VersionStore.step at h
  dsimp only at h
  rw [hphase] at h
  obtain ⟨v, hstored, hexact⟩ := h.exact
  unfold Attempt.version at hstored
  rw [hread] at hstored
  obtain rfl := Option.some.inj hstored
  exact utf8_readText_iff.mp hexact

/-- A write whose snapshot could not be read reports success all the same. -/
theorem not_lossless_of_unread {s : VersionStore} {request : Nat} {a : Attempt}
    {previous : List UInt8} (hphase : (s.requests request).phase = .wrote a previous)
    (hread : a.snapshot = none) : ¬ Lossless (s.step (.commit request)) := by
  intro h
  unfold VersionStore.step at h
  dsimp only at h
  rw [hphase] at h
  obtain ⟨v, hstored, _⟩ := h.exact
  unfold Attempt.version at hstored
  rw [hread] at hstored
  exact absurd hstored (by simp)

/-- And so does a restore that fails. -/
theorem not_lossless_of_failed_restore (s : VersionStore) (content : Text)
    (previous : List UInt8) : ¬ Lossless (s.answer (.restore content) previous) := by
  intro h
  obtain ⟨v, hstored, _⟩ := Lossless.exact (s := s) h
  exact absurd hstored (by simp)

/-- A version counted before another was committed has its number. -/
theorem not_nodup_of_stale {versions pending : List FileVersion}
    (hnumbered : versions.map FileVersion.version = List.range' 1 versions.length)
    {v : FileVersion} (hv : v ∈ pending) (hpos : 1 ≤ v.version)
    (hstale : v.version ≤ versions.length) :
    ¬ ((versions ++ pending).map FileVersion.version).Nodup := by
  rw [List.map_append, hnumbered]
  intro hnodup
  have hmem : v.version ∈ List.range' 1 versions.length :=
    List.mem_range'_1.mpr ⟨hpos, by omega⟩
  exact List.disjoint_of_nodup_append hnodup hmem (List.mem_map_of_mem hv)

/-- A write, up to its commit. -/
def overwrite : List VersionEvent :=
  [.begin 0 (.write "b".toList), .count 0, .snapshot 0 true, .openFile 0, .put 0]

/-- The file has a byte that is no UTF-8. -/
theorem overwrite_lossy :
    ¬ ∀ disk events, Lossless (run VersionStore.step { disk := disk } events) := by
  intro h
  have hlossless := h [0xff] (overwrite ++ [.commit 0])
  rw [run_append] at hlossless
  have hphase : ((run VersionStore.step { disk := [0xff] } overwrite).requests 0).phase =
      .wrote ⟨⟨.write "b".toList, .replace "b".toList, by simp⟩, 1, some (readText [0xff]), [0xff]⟩
        [0xff] := rfl
  have htext := text_of_lossless_commit hphase rfl hlossless
  exact absurd (utf8_readText_iff.mpr htext) (by decide)

end Eidetic.Files
