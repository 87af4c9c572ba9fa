import MeteorDB.EngineFaults
import MeteorDB.Machine

/-!
# Threads, locks and wake-ups

The machine of the engine runs one section after the other. Here the threads take the locks, wait on
the condition variables and are woken one step at a time, and any filesystem step may fail.

There are two mutexes. The state lock is held for a whole section; since nobody else sees the state
meanwhile, a section runs at the moment its thread gets the lock, and the thread then goes through
`wake_all`, if it must, before it releases the lock. The generation of the wake-up signal has a
mutex of its own, which `wake_all` holds from the increment until all notifications are sent, and
which the worker needs to read the generation and to block. Opening an engine and dropping its last
handle wake the worker without the state lock.

A call is made once and ends as `returned`. Where a thread holds the state lock, its place in the
program is the one it goes on from after the release. The plan of a compaction job is picked when
its call begins; since a call may take any time to get the lock, the plan may be as stale as one
likes. Reads take the state lock but change nothing behind it, so they are not steps here.

Two facts make the wake-ups reliable. A section that queues a memtable increments the generation
before it releases the lock, so that a worker that goes to sleep later finds a generation other than
the one it has observed. And the generation never wraps around: each wake-up of a running engine was
preceded by the allocation of a file number of its own, and file numbers do not wrap around.
-/

namespace MeteorDB

open Attempt Engine

/-! ## Calls -/

/-- What a call does once it gets the state lock. A call of `compact` begins as one of `flush`. -/
inductive Task where
  | write (prepare : Result WriteBatch)
  | sync
  | close
  | enterFlush (compacting : Bool)
  | drainFlush (compacting : Bool)
  | pick
  | execute (plan : CompactionPlan)
  | fail (error : Error)

/-- Where a call is: not begun, about to take the state lock, waiting for a change of the state, or
at its end. -/
inductive Call where
  | idle
  | locking (task : Task)
  | waiting (task : Task)
  | returned (result : Result Unit)

/-- What a section meets: failures, the oldest snapshot, the time, the sizes of tables, and how
sizes are divided. -/
structure Surroundings where
  faults : Faults
  oldestActiveSnapshot : Option SequenceNumber
  readTimeUnixMs : U64
  fileSize : U64 → U64
  divide : ℕ → ℕ → ℚ

/-- Where a call of `flush` or `compact` goes on from. -/
def Call.ofPhase (compacting : Bool) : FlushPhase → Call
  | .waitingForFlushes => .waiting (.drainFlush compacting)
  | .returned => if compacting then .locking .pick else .returned (.ok ())
  | _ => .waiting (.enterFlush compacting)

/-- The section of a task: where the call goes on from, whether it wakes the other threads, and the
engine afterwards. -/
def Task.run (options : Options) (env : Surroundings) (engine : Engine) :
    Task → Call × Bool × Engine
  | .write prepare =>
    match (writeSerialized options env.faults prepare).exec engine with
    | (.ok woken, engine) => (.returned (.ok ()), woken, engine)
    | (.error error, engine) => (.returned (.error error), false, engine)
  | .sync =>
    match (Engine.sync env.faults).exec engine with
    | (result, engine) => (.returned result, false, engine)
  | .close =>
    match (Engine.close env.faults).exec engine with
    | (.ok woken, engine) => (.returned (.ok ()), woken, engine)
    | (.error error, engine) => (.returned (.error error), true, engine)
  | .enterFlush compacting =>
    match (flushEnter options env.faults).exec engine with
    | (.ok (phase, woken), engine) => (.ofPhase compacting phase, woken, engine)
    | (.error error, engine) => (.returned (.error error), false, engine)
  | .drainFlush compacting =>
    match flushDrain.exec engine with
    | (.ok phase, engine) => (.ofPhase compacting phase, false, engine)
    | (.error error, engine) => (.returned (.error error), false, engine)
  | .pick =>
    match (pickCompaction options env.faults env.divide).exec engine with
    | (.ok (some plan), engine) => (.locking (.execute plan), false, engine)
    | (.ok none, engine) => (.returned (.ok ()), false, engine)
    | (.error error, engine) => (.returned (.error error), false, engine)
  | .execute plan =>
    match (executeCompactionPlan options env.faults env.oldestActiveSnapshot env.readTimeUnixMs
        env.fileSize plan).exec engine with
    | (.ok (.ok _), engine) => (.returned (.ok ()), false, engine)
    | (.ok (.error error), engine) => (.locking (.fail error), false, engine)
    | (.error error, engine) => (.returned (.error error), false, engine)
  | .fail error =>
    match (failCompaction error).exec engine with
    | (result, engine) => (.returned result, true, engine)

/-- The tasks that calls begin with. -/
def Task.Begins (engine : Engine) : Task → Prop
  | .write _ | .sync | .close | .enterFlush _ => True
  | .execute plan => ∃ (divide : ℕ → ℕ → ℚ) (picker : CompactionPicker),
      picker.pick divide engine.versions.version = some plan
  | .drainFlush _ | .pick | .fail _ => False

/-- A waiting call is woken. -/
def Call.notified : Call → Call
  | .waiting task => .locking task
  | call => call

/-! ## The worker -/

/-- Where the worker is. It keeps the generation it has observed last. -/
inductive WorkerState where
  | starting
  | looping (observed : U64)
  | locking (observed : U64)
  | waiting (observed : U64)
  | blocked (observed : U64)
  | building (observed : U64) (immutable : ImmutableMemTable) (number : U64)
  | built (observed : U64) (immutable : ImmutableMemTable) (number : U64) (file : Result FileMeta)
  | exited

namespace WorkerState

/-- Where the worker goes on from after the first half of a flush, and whether it wakes the other
threads. -/
def afterTake (observed : U64) : Result WorkerTask → WorkerState × Bool
  | .ok .stop => (.exited, false)
  | .ok .sleep => (.waiting observed, false)
  | .ok (.build immutable number) => (.building observed immutable number, false)
  | .error _ => (.exited, true)

/-- Where the worker goes on from after the second half of a flush. -/
def afterFinish (observed : U64) : Result Unit → WorkerState
  | .ok _ => .looping observed
  | .error _ => .exited

/-- A blocked worker is woken. -/
def notified : WorkerState → WorkerState
  | .blocked observed => .waiting observed
  | worker => worker

end WorkerState

/-! ## Steps -/

/-- Who holds the state lock. -/
inductive Holder where
  | call (i : ℕ)
  | worker
  deriving DecidableEq

/-- Who may be in `wake_all`: the holder of the state lock, the thread that opens the engine, and
the thread that drops its last handle. -/
inductive Waker where
  | holder
  | opener
  | dropper
  deriving DecidableEq

/-- Where a thread is in `wake_all`. -/
inductive Wake where
  | done
  | entering
  | changed
  | notified
  deriving DecidableEq

/-- The increments that are still to come. -/
def Wake.owes : Wake → ℕ
  | .entering => 1
  | _ => 0

@[simp] theorem Wake.owes_done : Wake.done.owes = 0 := rfl

@[simp] theorem Wake.owes_entering : Wake.entering.owes = 1 := rfl

@[simp] theorem Wake.owes_changed : Wake.changed.owes = 0 := rfl

@[simp] theorem Wake.owes_notified : Wake.notified.owes = 0 := rfl

/-- An engine with all its threads. -/
structure Threads where
  engine : Engine
  lock : Option Holder
  generation : U64
  generationLocked : Bool
  wakes : Waker → Wake
  worker : WorkerState
  calls : ℕ → Call
  opening : Bool
  shutdown : Bool

namespace Threads

/-- A call gets the state lock and runs its section. -/
inductive Acquires (options : Options) (i : ℕ) : Threads → Threads → Prop
  | run {t : Threads} {task : Task} (env : Surroundings) {call : Call} {woken : Bool} {e : Engine}
      (hlock : t.lock = none) (hcall : t.calls i = .locking task)
      (hrun : task.run options env t.engine = (call, woken, e)) :
      Acquires options i t { t with
        engine := e
        lock := some (.call i)
        wakes := Function.update t.wakes .holder (if woken then .entering else .done)
        calls := Function.update t.calls i call }

/-- One step of one thread. -/
inductive Step (options : Options) : Threads → Threads → Prop
  -- calls
  | call {t : Threads} (i : ℕ) (task : Task) (hcall : t.calls i = .idle)
      (hopening : t.opening = false) (hopener : t.wakes .opener = .done)
      (hshutdown : t.shutdown = false) (htask : task.Begins t.engine) :
      Step options t { t with calls := Function.update t.calls i (.locking task) }
  | acquire {t t' : Threads} (i : ℕ) (h : Acquires options i t t') : Step options t t'
  | release {t : Threads} {i : ℕ} (hlock : t.lock = some (.call i))
      (hwake : t.wakes .holder = .done) : Step options t { t with lock := none }
  | spuriousCall {t : Threads} (i : ℕ) (hlock : t.lock ≠ some (.call i)) :
      Step options t { t with calls := Function.update t.calls i (t.calls i).notified }
  -- waking
  | increment {t : Threads} (waker : Waker) (hwake : t.wakes waker = .entering)
      (hlocked : t.generationLocked = false) :
      Step options t { t with
        generation := t.generation + 1
        generationLocked := true
        wakes := Function.update t.wakes waker .changed }
  | notifyWorker {t : Threads} (waker : Waker) (hwake : t.wakes waker = .changed) :
      Step options t { t with
        worker := t.worker.notified
        wakes := Function.update t.wakes waker .notified }
  | notifyCalls {t : Threads} (waker : Waker) (hwake : t.wakes waker = .notified) :
      Step options t { t with
        calls := fun i ↦ if t.lock = some (.call i) then t.calls i else (t.calls i).notified
        generationLocked := false
        wakes := Function.update t.wakes waker .done }
  -- the worker
  | start {t : Threads} (hworker : t.worker = .starting) (hlocked : t.generationLocked = false) :
      Step options t { t with worker := .looping t.generation }
  | loop {t : Threads} {observed : U64} (hlock : t.lock ≠ some .worker)
      (hworker : t.worker = .looping observed) :
      Step options t { t with worker := if t.shutdown then .exited else .locking observed }
  | take {t : Threads} {observed : U64} {r : Result WorkerTask} {e : Engine} (hlock : t.lock = none)
      (hworker : t.worker = .locking observed) (h : takeFlush.exec t.engine = (r, e)) :
      Step options t { t with
        engine := e
        lock := some .worker
        wakes := Function.update t.wakes .holder
          (if (WorkerState.afterTake observed r).2 then .entering else .done)
        worker := (WorkerState.afterTake observed r).1 }
  | check {t : Threads} {observed : U64} (hlock : t.lock ≠ some .worker)
      (hworker : t.worker = .waiting observed) (hlocked : t.generationLocked = false) :
      Step options t { t with
        worker := if t.generation = observed then .blocked observed else .looping t.generation }
  | spuriousWorker {t : Threads} : Step options t { t with worker := t.worker.notified }
  | build {t : Threads} {observed : U64} {immutable : ImmutableMemTable} {number : U64}
      (faults : Faults) (fileSize : U64) {file : Result FileMeta} {e : Engine}
      (hlock : t.lock ≠ some .worker) (hworker : t.worker = .building observed immutable number)
      (h : (buildSstable faults number immutable.table fileSize).exec t.engine = (file, e)) :
      Step options t { t with engine := e, worker := .built observed immutable number file }
  | finish {t : Threads} {observed : U64} {immutable : ImmutableMemTable} {number : U64}
      {file : Result FileMeta} (faults : Faults) {r : Result Unit} {e : Engine}
      (hlock : t.lock = none) (hworker : t.worker = .built observed immutable number file)
      (h : (finishFlush faults immutable file).exec t.engine = (r, e)) :
      Step options t { t with
        engine := e
        lock := some .worker
        wakes := Function.update t.wakes .holder .entering
        worker := .afterFinish observed r }
  | releaseWorker {t : Threads} (hlock : t.lock = some .worker) (hwake : t.wakes .holder = .done) :
      Step options t { t with lock := none }
  -- opening and dropping
  | opened {t : Threads} (hopening : t.opening = true) (hlock : t.lock = none) :
      Step options t { t with
        opening := false
        wakes := Function.update t.wakes .opener
          (if t.engine.immutables.isEmpty then .done else .entering) }
  | drop {t : Threads} (hopening : t.opening = false) (hopener : t.wakes .opener = .done)
      (hshutdown : t.shutdown = false) (hlock : ∀ i, t.lock ≠ some (.call i))
      (hcalls : ∀ i, t.calls i = .idle ∨ ∃ result, t.calls i = .returned result) :
      Step options t { t with
        shutdown := true
        wakes := Function.update t.wakes .dropper .entering }

/-- An engine that has just been opened on a sound directory; its worker is about to start. -/
structure Opened (t : Threads) : Prop where
  engine : ∃ e : Engine, e.Rest ∧ (openEngine noFaults).exec e = (.ok (), t.engine)
  lock : t.lock = none
  generation : t.generation = 0
  generationLocked : t.generationLocked = false
  wakes : t.wakes = fun _ ↦ .done
  worker : t.worker = .starting
  calls : t.calls = fun _ ↦ .idle
  opening : t.opening = true
  shutdown : t.shutdown = false

/-- Any number of steps. -/
def Run (options : Options) : Threads → Threads → Prop := Relation.ReflTransGen (Step options)

/-- The states of all runs. -/
def Reachable (options : Options) (t : Threads) : Prop :=
  ∃ start, Opened start ∧ Run options start t

end Threads

/-! ## What a section keeps -/

/-- The plan that a call is going to execute. -/
def Call.plan? : Call → Option CompactionPlan
  | .locking (.execute plan) | .waiting (.execute plan) => some plan
  | _ => none

@[simp] theorem Call.plan?_notified (call : Call) : call.notified.plan? = call.plan? := by
  rcases call with _ | task | task | result
  · rfl
  · rfl
  · cases task <;> rfl
  · rfl

namespace WorkerState

/-- What holds of a flush that is under way. -/
def Ok (engine : Engine) : WorkerState → Prop
  | .building _ immutable number => Machine.Flushing engine immutable number
  | .built _ immutable number file => Machine.Flushing engine immutable number ∧
      ∀ built, file = .ok built → built.number = number ∧
        engine.directory.tables number = some immutable.table.entries ∧
          ∀ entry ∈ immutable.table.entries, built.Covers entry.key.userKey
  | _ => True

/-- The generation that was observed last. -/
def observed? : WorkerState → Option U64
  | .looping observed | .locking observed | .waiting observed | .blocked observed
  | .building observed _ _ | .built observed _ _ _ => some observed
  | .starting | .exited => none

/-- The worker is in `wait_for_work`. -/
def asleep : WorkerState → Bool
  | .waiting _ | .blocked _ => true
  | _ => false

/-- A flush is under way. -/
def flushing : WorkerState → Bool
  | .building .. | .built .. => true
  | _ => false

variable {e e' : Engine} {worker : WorkerState}

@[simp] theorem observed?_notified : worker.notified.observed? = worker.observed? := by
  cases worker <;> rfl

@[simp] theorem asleep_notified : worker.notified.asleep = worker.asleep := by
  cases worker <;> rfl

@[simp] theorem flushing_notified : worker.notified.flushing = worker.flushing := by
  cases worker <;> rfl

private theorem ok_notified (h : worker.Ok e) : worker.notified.Ok e := by
  cases worker <;> exact h

private theorem ok_of_not_flushing (h : worker.flushing = false) : worker.Ok e := by
  cases worker <;> trivial

theorem Ok.running (h : worker.Ok e) (hflushing : worker.flushing = true) :
    e.flushRunning = true := by
  cases worker with
  | building observed immutable number => exact Machine.Flushing.running h
  | built observed immutable number file => exact h.1.running
  | _ => cases hflushing

theorem Ok.frame (h : worker.Ok e) (hframe : Frame e e') : worker.Ok e' := by
  cases worker with
  | building observed immutable number => exact Machine.Flushing.frame h hframe
  | built observed immutable number file =>
    obtain ⟨hflushing, hbuilt⟩ := h
    refine ⟨hflushing.frame hframe, fun built hfile ↦ ?_⟩
    obtain ⟨hnumber, htable, hcovers⟩ := hbuilt built hfile
    exact ⟨hnumber, (hframe.tables number hflushing.lt_next).trans htable, hcovers⟩
  | _ => trivial

end WorkerState

/-- A section of a call: what is under way in other threads is kept, and the worker is told about
new work. -/
structure Ran (engine : Engine) (woken : Bool) (engine' : Engine) : Prop where
  core : engine'.Core
  announces : Announces woken engine engine'
  worker : ∀ worker : WorkerState, worker.Ok engine → worker.Ok engine'
  plans : ∀ plan, PlanInv engine.versions.version engine.versions.usedFileNumbers plan →
    PlanInv engine'.versions.version engine'.versions.usedFileNumbers plan

variable {options : Options} {env : Surroundings} {e e' : Engine} {task : Task} {call : Call}
  {woken : Bool}

private theorem Ran.of_frame (hcore : e'.Core) (hframe : Frame e e')
    (hannounces : Announces woken e e') : Ran e woken e' where
  core := hcore
  announces := hannounces
  worker _ hworker := hworker.frame hframe
  plans plan hplan := by
    rw [hframe.used]
    exact hplan.congr hframe.version

theorem Ran.refl (h : e.Core) : Ran e false e := .of_frame h (Extends.refl e).toFrame (.refl e)

theorem wp_failCompaction {error : Error} :
    wp (failCompaction error) (fun r e' ↦ (∃ error, r = .error error) ∧ ∃ failure,
      (e.terminalFailure = none ∨ e.terminalFailure = some failure) ∧
      e' = { e with terminalFailure := some failure, backgroundFailure := true }) e := by
  unfold failCompaction
  rw [wp_bind]
  exact wp_recordBackgroundFailure fun failure hkept ↦ ⟨⟨_, rfl⟩, failure, hkept, rfl⟩

/-- **One section of a call.** -/
theorem Task.run_spec (h : e.Core)
    (hplan : ∀ plan, task = .execute plan →
      PlanInv e.versions.version e.versions.usedFileNumbers plan)
    (hrun : task.run options env e = (call, woken, e')) :
    Ran e woken e' ∧ ∀ plan, call.plan? = some plan →
      PlanInv e'.versions.version e'.versions.usedFileNumbers plan := by
  cases task with
  | write prepare =>
    rw [Task.run] at hrun
    rcases hexec : (writeSerialized options env.faults prepare).exec e with ⟨error | woken', e₁⟩ <;>
      rw [hexec] at hrun <;> cases hrun <;>
      obtain ⟨hcore, hresult, hannounces⟩ := wp_of_exec h.writeSerialized hexec
    · exact ⟨.of_frame hcore hresult.toFrame hannounces, nofun⟩
    · obtain ⟨batch, -, hwrote⟩ := hresult
      exact ⟨.of_frame hcore hwrote.toFrame hannounces, nofun⟩
  | sync =>
    rw [Task.run] at hrun
    rcases hexec : (Engine.sync env.faults).exec e with ⟨r, e₁⟩
    rw [hexec] at hrun
    cases hrun
    obtain ⟨hcore, hsettles, hannounces⟩ := wp_of_exec h.sync hexec
    exact ⟨.of_frame hcore hsettles.toFrame hannounces, nofun⟩
  | close =>
    rw [Task.run] at hrun
    rcases hexec : (Engine.close env.faults).exec e with ⟨error | woken', e₁⟩ <;>
      rw [hexec] at hrun <;> cases hrun <;>
      obtain ⟨hcore, hsettles, hdead⟩ := wp_of_exec h.close hexec
    · exact ⟨.of_frame hcore hsettles.toFrame (.of_not_live hdead), nofun⟩
    · exact ⟨.of_frame hcore hsettles.toFrame (.of_not_live hdead), nofun⟩
  | enterFlush compacting =>
    rw [Task.run] at hrun
    rcases hexec : (flushEnter options env.faults).exec e with ⟨error | ⟨phase, woken'⟩, e₁⟩ <;>
      rw [hexec] at hrun <;> cases hrun <;>
      obtain ⟨hcore, hextends, hannounces⟩ := wp_of_exec h.flushEnter hexec
    · exact ⟨.of_frame hcore hextends.toFrame hannounces, nofun⟩
    · refine ⟨.of_frame hcore hextends.toFrame hannounces, fun plan hplan ↦ ?_⟩
      cases phase <;> cases compacting <;> cases hplan
  | drainFlush compacting =>
    rw [Task.run] at hrun
    rcases hexec : flushDrain.exec e with ⟨error | phase, e₁⟩ <;>
      rw [hexec] at hrun <;> cases hrun <;>
      obtain ⟨rfl, -⟩ := wp_of_exec wp_flushDrain hexec
    · exact ⟨.refl h, nofun⟩
    · refine ⟨.refl h, fun plan hplan ↦ ?_⟩
      cases phase <;> cases compacting <;> cases hplan
  | pick =>
    rw [Task.run] at hrun
    rcases hexec : (pickCompaction options env.faults env.divide).exec e
      with ⟨error | _ | plan, e₁⟩ <;>
      rw [hexec] at hrun <;> cases hrun <;>
      obtain ⟨rfl, hpicked⟩ := wp_of_exec wp_pickCompaction hexec
    · exact ⟨.refl h, nofun⟩
    · exact ⟨.refl h, nofun⟩
    · refine ⟨.refl h, ?_⟩
      rintro _ ⟨⟩
      exact (hpicked plan rfl).inv h.sound.live
  | execute plan =>
    have hinv := hplan plan rfl
    have hran : ∀ {r : Result (Result Unit)} {e₁ : Engine},
        (executeCompactionPlan options env.faults env.oldestActiveSnapshot env.readTimeUnixMs
          env.fileSize plan).exec e = (r, e₁) →
        Ran e false e₁ := by
      intro r e₁ hexec
      obtain ⟨hcore, hresult, hclosed, hfailure⟩ :=
        wp_of_exec (h.executeCompactionPlan hinv.replaceable_of_valid) hexec
      have hlive : e₁.Live → e.Live := by
        unfold Live
        rw [hclosed, hfailure]
        exact id
      cases r with
      | error error =>
        subst hresult
        exact .refl h
      | ok result =>
      rcases hresult with ⟨hsettles, -⟩ | ⟨hidle, hreplaceable, hpublished⟩
      · exact .of_frame hcore hsettles.toFrame (hsettles.announces hlive)
      · refine ⟨hcore, fun hlive' ↦ ⟨hlive hlive', Fin.le_def.mp hpublished.next_le,
          fun _ ↦ hpublished.immutables⟩, fun worker hworker ↦ ?_,
          fun other hother ↦ hpublished.planInv h hinv hreplaceable hother⟩
        -- No flush is under way while a compaction runs.
        refine WorkerState.ok_of_not_flushing (Bool.eq_false_iff.mpr fun hflushing ↦ ?_)
        exact absurd (hworker.running hflushing) (by simp [(isFlushing_eq_false.mp hidle).2])
    rw [Task.run] at hrun
    rcases hexec : (executeCompactionPlan options env.faults env.oldestActiveSnapshot
      env.readTimeUnixMs env.fileSize plan).exec e with ⟨error | error | u, e₁⟩ <;>
      rw [hexec] at hrun <;> cases hrun <;>
      exact ⟨hran hexec, nofun⟩
  | fail error =>
    rw [Task.run] at hrun
    rcases hexec : (failCompaction error).exec e with ⟨r, e₁⟩
    rw [hexec] at hrun
    cases hrun
    obtain ⟨-, failure, -, rfl⟩ := wp_of_exec wp_failCompaction hexec
    exact ⟨.of_frame { h with } { (Extends.refl e).toFrame with }
      (.of_not_live (not_live_of_failure rfl)), nofun⟩

namespace Threads

/-! ## The invariant -/

/-- The increments that file numbers have been spent on in advance: those that are about to happen,
those of opening and of dropping the engine, and that of a flush that is under way. -/
def owed (t : Threads) : ℕ :=
  (t.wakes .holder).owes + (t.wakes .opener).owes + (t.wakes .dropper).owes + t.opening.toNat
    + (!t.shutdown).toNat + t.worker.flushing.toNat

/-- What holds in every state. -/
structure Inv (t : Threads) : Prop where
  core : t.engine.Core
  worker : t.worker.Ok t.engine
  plans : ∀ i plan, (t.calls i).plan? = some plan →
    PlanInv t.engine.versions.version t.engine.versions.usedFileNumbers plan
  unlocked : t.lock = none → t.wakes .holder = .done
  budget : t.engine.Live → t.generation.val + t.owed ≤ t.engine.nextFileNumber.val
  observed : t.engine.Live → ∀ observed ∈ t.worker.observed?, observed ≤ t.generation
  asleep : t.engine.Live → t.worker.asleep = true → ∀ observed ∈ t.worker.observed?,
    t.generation = observed → t.engine.immutables = [] ∨ t.wakes .holder = .entering

variable {t t' : Threads} {i : ℕ}

private theorem plans_update {P : CompactionPlan → Prop} {calls : ℕ → Call} {call : Call}
    (h : ∀ j plan, (calls j).plan? = some plan → P plan)
    (hcall : ∀ plan, call.plan? = some plan → P plan) (j : ℕ) (plan : CompactionPlan)
    (hj : (Function.update calls i call j).plan? = some plan) : P plan := by
  rw [Function.update_apply] at hj
  split_ifs at hj
  · exact hcall plan hj
  · exact h j plan hj

/-- A worker that sleeps while the lock is free has nothing to do. -/
theorem Inv.immutables_eq (h : Inv t) (hlock : t.lock = none) (hlive : t.engine.Live)
    (hasleep : t.worker.asleep = true) {observed : U64} (hobserved : observed ∈ t.worker.observed?)
    (hgeneration : t.generation = observed) : t.engine.immutables = [] := by
  refine (h.asleep hlive hasleep observed hobserved hgeneration).resolve_right fun hwake ↦ ?_
  rw [h.unlocked hlock] at hwake
  cases hwake

/-- The generation does not wrap around while the engine is running. -/
theorem Inv.generation_succ (h : Inv t) (hlive : t.engine.Live) {waker : Waker}
    (hwake : t.wakes waker = .entering) : (t.generation + 1).val = t.generation.val + 1 := by
  have hbudget := h.budget hlive
  have hlt := t.engine.nextFileNumber.isLt
  have hone : (t.wakes waker).owes = 1 := by rw [hwake]; rfl
  unfold owed at hbudget
  refine Fin.val_add_one_of_lt' ?_
  cases waker <;> omega

theorem Opened.inv (h : Opened t) : Inv t := by
  obtain ⟨e, hrest, hexec⟩ := h.engine
  obtain ⟨-, hopened⟩ := wp_of_exec hrest.openEngine hexec
  obtain ⟨hinv, -⟩ := hopened rfl
  refine ⟨hinv.core, ?_, ?_, fun _ ↦ by rw [h.wakes], fun _ ↦ ?_, fun _ ↦ ?_, fun _ hasleep ↦ ?_⟩
  · rw [h.worker]
    trivial
  · rw [h.calls]
    nofun
  · have hpos : 0 < t.engine.mutable.walNumber.val :=
      Nat.pos_of_ne_zero fun hzero ↦ hinv.wal_ne _ t.engine.walNumber_mem (Fin.ext hzero)
    have hlt := Fin.lt_def.mp hinv.wal_lt
    rw [owed, h.wakes, h.generation, h.opening, h.shutdown, h.worker]
    show 0 + (0 + 0 + 0 + 1 + 1 + 0) ≤ _
    omega
  · rw [h.worker]
    nofun
  · rw [h.worker] at hasleep
    cases hasleep

/-- A section of a call. -/
theorem Inv.acquires (h : Inv t) (hacquires : Acquires options i t t') : Inv t' := by
  obtain ⟨env, hlock, hcall, hrun⟩ := hacquires
  rename_i task call woken e
  have hplan : ∀ plan, task = .execute plan →
      PlanInv t.engine.versions.version t.engine.versions.usedFileNumbers plan := by
    rintro plan rfl
    exact h.plans i plan (by rw [hcall]; rfl)
  obtain ⟨hran, hnext⟩ := Task.run_spec h.core hplan hrun
  refine ⟨hran.core, hran.worker _ h.worker,
    plans_update (fun j plan hj ↦ hran.plans plan (h.plans j plan hj)) hnext, nofun, fun hlive ↦ ?_,
    fun hlive ↦ h.observed (hran.announces hlive).1,
    fun hlive hasleep observed hobserved hgeneration ↦ ?_⟩
  · obtain ⟨hlive', hle, -⟩ := hran.announces hlive
    have hbudget := h.budget hlive'
    have hwoken : (if woken then Wake.entering else Wake.done).owes = woken.toNat := by
      cases woken <;> rfl
    simp only [owed, h.unlocked hlock, Wake.owes_done] at hbudget
    simp only [owed, Function.update_self, hwoken, ne_eq, reduceCtorEq, not_false_eq_true,
      Function.update_of_ne]
    omega
  · obtain ⟨hlive', -, hsame⟩ := hran.announces hlive
    cases woken with
    | true => exact .inr (by simp)
    | false =>
      exact .inl ((hsame rfl).trans (h.immutables_eq hlock hlive' hasleep hobserved hgeneration))

/-- The worker takes a memtable, goes to sleep or stops. -/
theorem Inv.take (h : Inv t) {observed : U64} {r : Result WorkerTask} {e : Engine}
    (hlock : t.lock = none) (hworker : t.worker = .locking observed)
    (hexec : takeFlush.exec t.engine = (r, e)) :
    Inv { t with
      engine := e
      lock := some .worker
      wakes := Function.update t.wakes .holder
        (if (WorkerState.afterTake observed r).2 then .entering else .done)
      worker := (WorkerState.afterTake observed r).1 } := by
  have htake := wp_of_exec wp_takeFlush hexec
  have hle : t.engine.Live → observed ≤ t.generation :=
    fun hlive ↦ h.observed hlive observed (by rw [hworker]; rfl)
  rcases r with error | task
  · obtain ⟨-, failure, rfl⟩ := htake
    have hdead : ¬ ({ t.engine with
        flushRunning := false
        terminalFailure := some failure
        backgroundFailure := true } : Engine).Live := not_live_of_failure rfl
    exact ⟨{ h.core with }, trivial, h.plans, nofun, (absurd · hdead), (absurd · hdead),
      (absurd · hdead)⟩
  cases task with
  | stop =>
    obtain ⟨hdead, rfl⟩ := htake
    exact ⟨h.core, trivial, h.plans, nofun, (absurd · hdead), (absurd · hdead), (absurd · hdead)⟩
  | sleep =>
    obtain ⟨-, hnil, rfl⟩ := htake
    refine ⟨h.core, trivial, h.plans, nofun, fun hlive ↦ ?_, fun hlive other hother ↦ ?_,
      fun _ _ _ _ _ ↦ .inl hnil⟩
    · have hbudget := h.budget hlive
      simp only [owed, h.unlocked hlock, hworker] at hbudget
      simpa [owed, WorkerState.afterTake, WorkerState.flushing] using hbudget
    · obtain rfl := Option.mem_some_iff.mp hother
      exact hle hlive
  | build immutable number =>
    obtain ⟨hlive, hhead, rfl, next, hnext, rfl⟩ := htake
    have hlt : t.engine.nextFileNumber < next := Fin.lt_def.mpr (by omega)
    refine ⟨{ h.core with next_le := h.core.next_le.trans hlt.le }, ?_, h.plans, nofun, fun _ ↦ ?_,
      fun _ other hother ↦ ?_, fun _ hasleep ↦ nomatch hasleep⟩
    · exact ⟨rfl, hhead, fun used hused ↦ (h.core.sound.used_lt used hused).trans_le h.core.next_le,
        hlt⟩
    · have hbudget := h.budget hlive
      simp only [owed, h.unlocked hlock, hworker, WorkerState.flushing, Wake.owes_done,
        Bool.toNat_false] at hbudget
      simp only [owed, WorkerState.afterTake, WorkerState.flushing, Function.update_self, ne_eq,
        reduceCtorEq, not_false_eq_true, Function.update_of_ne, Bool.false_eq_true, if_false,
        Wake.owes_done, Bool.toNat_true]
      omega
    · obtain rfl := Option.mem_some_iff.mp hother
      exact hle hlive

theorem Inv.finishFlush (h : Inv t) {observed : U64} {immutable : ImmutableMemTable} {number : U64}
    {file : Result FileMeta} {faults : Faults} {r : Result Unit} {e : Engine}
    (hworker : t.worker = .built observed immutable number file)
    (hexec : (Engine.finishFlush faults immutable file).exec t.engine = (r, e)) :
    FinishResult t.engine immutable e := by
  have hok := h.worker
  rw [hworker] at hok
  obtain ⟨hflushing, hbuilt⟩ := hok
  obtain ⟨immutables, himmutables⟩ := List.head?_eq_some_iff.mp hflushing.head
  refine wp_of_exec (h.core.finishFlush himmutables fun built hfile ↦ ?_) hexec
  obtain ⟨rfl, htable, hcovers⟩ := hbuilt built hfile
  exact ⟨hflushing.used_lt, htable, hcovers⟩

/-- The worker publishes its table. -/
theorem Inv.finish (h : Inv t) {observed : U64} {immutable : ImmutableMemTable} {number : U64}
    {file : Result FileMeta} {faults : Faults} {r : Result Unit} {e : Engine}
    (hlock : t.lock = none) (hworker : t.worker = .built observed immutable number file)
    (hexec : (Engine.finishFlush faults immutable file).exec t.engine = (r, e)) :
    Inv { t with
      engine := e
      lock := some .worker
      wakes := Function.update t.wakes .holder .entering
      worker := .afterFinish observed r } := by
  obtain ⟨hcore, hpublished, hfailure, hclosed, -, -⟩ := h.finishFlush hworker hexec
  have hlive : e.Live → t.engine.Live := by
    rintro ⟨hnone, hopen⟩
    refine ⟨?_, hclosed ▸ hopen⟩
    cases hfailed : t.engine.terminalFailure with
    | none => rfl
    | some failure => exact absurd (hnone.symm.trans (hfailure failure hfailed)) nofun
  have hnext : e.nextFileNumber = t.engine.nextFileNumber := by
    rcases hpublished with ⟨_, hpublished⟩ | hsettles
    · exact hpublished.nextFileNumber
    · exact hsettles.next_eq
  have hidle : (WorkerState.afterFinish observed r).flushing = false := by
    cases r <;> rfl
  refine ⟨hcore, WorkerState.ok_of_not_flushing hidle, fun j plan hj ↦ ?_, nofun, fun hlive' ↦ ?_,
    fun hlive' other hother ↦ ?_, fun _ hasleep ↦ ?_⟩
  · have hplan := h.plans j plan hj
    rcases hpublished with ⟨built, hpublished⟩ | hsettles
    · show PlanInv e.versions.version e.versions.usedFileNumbers plan
      rw [hpublished.used]
      exact hplan.flush hpublished.used_lt hpublished.version
    · show PlanInv e.versions.version e.versions.usedFileNumbers plan
      rw [hsettles.used]
      exact hplan.congr hsettles.version
  · have hbudget := h.budget (hlive hlive')
    simp only [owed, h.unlocked hlock, hworker, WorkerState.flushing, Wake.owes_done,
      Bool.toNat_true] at hbudget
    simp only [owed, hidle, hnext, Function.update_self, ne_eq, reduceCtorEq, not_false_eq_true,
      Function.update_of_ne, Wake.owes_entering, Bool.toNat_false]
    omega
  · refine h.observed (hlive hlive') other ?_
    rw [hworker]
    cases r with
    | error error => exact nomatch hother
    | ok u => exact hother
  · cases r <;> exact nomatch hasleep

/-- A step of `wake_all`. Only the increment changes what is owed, and it makes the generation
differ from the one a sleeping worker has observed. -/
theorem Inv.increment (h : Inv t) {waker : Waker} (hwake : t.wakes waker = .entering) :
    Inv { t with
      generation := t.generation + 1
      generationLocked := true
      wakes := Function.update t.wakes waker .changed } := by
  refine ⟨h.core, h.worker, h.plans, fun hlock ↦ ?_, fun hlive ↦ ?_,
    fun hlive observed hobserved ↦ ?_, fun hlive _ observed hobserved hgeneration ↦ ?_⟩
  · have hdone := h.unlocked hlock
    have hne : .holder ≠ waker := by
      rintro rfl
      rw [hdone] at hwake
      cases hwake
    exact (Function.update_of_ne hne _ _).trans hdone
  · have hbudget := h.budget hlive
    simp only [h.generation_succ hlive hwake]
    cases waker <;>
      simp only [owed, hwake, Wake.owes_entering, Wake.owes_changed, Function.update_self, ne_eq,
        reduceCtorEq, not_false_eq_true, Function.update_of_ne] at hbudget ⊢ <;> omega
  · have hle := Fin.le_def.mp (h.observed hlive observed hobserved)
    exact Fin.le_def.mpr (by rw [h.generation_succ hlive hwake]; omega)
  · have hle := Fin.le_def.mp (h.observed hlive observed hobserved)
    rw [← hgeneration, h.generation_succ hlive hwake] at hle
    omega

/-- Moving on in `wake_all` after the increment. -/
theorem Inv.advance (h : Inv t) {waker : Waker} {wake : Wake} (hold : (t.wakes waker).owes = 0)
    (hdone : t.wakes waker ≠ .done) (hnew : wake.owes = 0) :
    Inv { t with wakes := Function.update t.wakes waker wake } := by
  refine { h with unlocked := fun hlock ↦ ?_, budget := fun hlive ↦ ?_, asleep := ?_ }
  · have hne : .holder ≠ waker := by
      rintro rfl
      exact hdone (h.unlocked hlock)
    exact (Function.update_of_ne hne _ _).trans (h.unlocked hlock)
  · have hbudget := h.budget hlive
    cases waker <;>
      simp only [owed, hold, hnew, Function.update_self, ne_eq, reduceCtorEq, not_false_eq_true,
        Function.update_of_ne] at hbudget ⊢ <;> omega
  · intro hlive hasleep observed hobserved hgeneration
    refine (h.asleep hlive hasleep observed hobserved hgeneration).imp_right fun hwake ↦ ?_
    have hne : .holder ≠ waker := by
      rintro rfl
      rw [hwake] at hold
      cases hold
    exact (Function.update_of_ne hne _ _).trans hwake

/-- Opening and dropping an engine wake the worker without the state lock. -/
theorem Inv.setWake (h : Inv t) {waker : Waker} (hwaker : .holder ≠ waker) {wake : Wake}
    {opening shutdown : Bool}
    (howed : owed { t with wakes := Function.update t.wakes waker wake, opening, shutdown }
      ≤ t.owed) :
    Inv { t with wakes := Function.update t.wakes waker wake, opening, shutdown } where
  core := h.core
  worker := h.worker
  plans := h.plans
  unlocked hlock := (Function.update_of_ne hwaker _ _).trans (h.unlocked hlock)
  budget hlive := (Nat.add_le_add_left howed _).trans (h.budget hlive)
  observed := h.observed
  asleep hlive hasleep observed hobserved hgeneration :=
    (h.asleep hlive hasleep observed hobserved hgeneration).imp_right
      (Function.update_of_ne hwaker _ _).trans

/-- The worker moves on without a flush, having observed a generation that is not ahead. -/
theorem Inv.setWorker (h : Inv t) {worker : WorkerState} (hflushing : worker.flushing = false)
    (hobserved : ∀ observed ∈ worker.observed?,
      observed ∈ t.worker.observed? ∨ observed = t.generation)
    (hasleep : worker.asleep = true → t.worker.asleep = true ∧
      ∀ observed ∈ worker.observed?, observed ∈ t.worker.observed?) : Inv { t with worker } where
  core := h.core
  worker := WorkerState.ok_of_not_flushing hflushing
  plans := h.plans
  unlocked := h.unlocked
  budget hlive := by
    have hbudget := h.budget hlive
    simp only [owed, hflushing, Bool.toNat_false] at hbudget ⊢
    omega
  observed hlive observed hmem := by
    rcases hobserved observed hmem with hold | rfl
    · exact h.observed hlive observed hold
    · exact le_refl _
  asleep hlive hworker observed hmem :=
    h.asleep hlive (hasleep hworker).1 observed ((hasleep hworker).2 observed hmem)

private theorem Inv.notifyWorker (h : Inv t) : Inv { t with worker := t.worker.notified } where
  core := h.core
  worker := WorkerState.ok_notified h.worker
  plans := h.plans
  unlocked := h.unlocked
  budget hlive := by
    have hbudget := h.budget hlive
    simpa only [owed, WorkerState.flushing_notified] using hbudget
  observed hlive observed hmem :=
    h.observed hlive observed (WorkerState.observed?_notified ▸ hmem)
  asleep hlive hasleep observed hmem :=
    h.asleep hlive (WorkerState.asleep_notified ▸ hasleep) observed
      (WorkerState.observed?_notified ▸ hmem)

/-- The worker has written its table, or failed to. -/
theorem Inv.build (h : Inv t) {observed : U64} {immutable : ImmutableMemTable} {number : U64}
    {faults : Faults} {fileSize : U64} {file : Result FileMeta} {e : Engine}
    (hworker : t.worker = .building observed immutable number)
    (hexec : (buildSstable faults number immutable.table fileSize).exec t.engine = (file, e)) :
    Inv { t with engine := e, worker := .built observed immutable number file } := by
  have hflushing := h.worker
  rw [hworker] at hflushing
  obtain ⟨hengine, hfile⟩ := wp_of_exec wp_buildSstable hexec
  have hbuilt : ∀ built, file = .ok built → built.number = number ∧
      e.directory.tables number = some immutable.table.entries ∧
        ∀ entry ∈ immutable.table.entries, built.Covers entry.key.userKey := fun built hok ↦
    ⟨(hfile built hok).1, (hfile built hok).2.1, (hfile built hok).2.2.1⟩
  have hrest : ∀ {e₁ : Engine}, e₁.Core → Machine.Flushing e₁ immutable number →
      e₁ = { t.engine with directory := e₁.directory } → e₁ = e →
      Inv { t with engine := e, worker := .built observed immutable number file } := by
    rintro e₁ hcore hflushing hsame rfl
    have hlive : e₁.Live ↔ t.engine.Live := by rw [hsame]; rfl
    refine ⟨hcore, ⟨hflushing, hbuilt⟩, fun j plan hj ↦ ?_, h.unlocked, fun hlive' ↦ ?_,
      fun hlive' other hother ↦ ?_, fun _ hasleep ↦ nomatch hasleep⟩
    · rw [hsame]
      exact h.plans j plan hj
    · have hbudget := h.budget (hlive.mp hlive')
      simp only [owed, hworker, WorkerState.flushing] at hbudget ⊢
      rw [hsame]
      exact hbudget
    · exact h.observed (hlive.mp hlive') other (by rw [hworker]; exact hother)
  rcases hengine with rfl | heq
  · exact hrest h.core hflushing rfl rfl
  · refine hrest ?_ ?_ rfl heq.symm
    · exact { h.core with sound := sound_addTable h.core.sound hflushing.used_lt _ }
    · exact { hflushing with }

/-- **The invariant is kept by every step.** -/
theorem Inv.step (h : Inv t) (hstep : Step options t t') : Inv t' := by
  cases hstep with
  | call i task hcall _ _ _ htask =>
    refine { h with plans := plans_update h.plans fun plan hplan ↦ ?_ }
    cases task with
    | execute plan' =>
      obtain rfl := Option.some.inj hplan
      obtain ⟨divide, picker, hpick⟩ := htask
      exact (CompactionPicker.planned_of_pick hpick).inv h.core.sound.live
    | _ => cases hplan
  | acquire i hacquires => exact h.acquires hacquires
  | release _ hwake => exact { h with unlocked := fun _ ↦ hwake }
  | spuriousCall i _ =>
    refine { h with plans := plans_update h.plans fun plan hplan ↦ h.plans i plan ?_ }
    rwa [Call.plan?_notified] at hplan
  | increment waker hwake _ => exact h.increment hwake
  | notifyWorker waker hwake =>
    exact (h.advance (by rw [hwake]; rfl) (by rw [hwake]; nofun) rfl).notifyWorker
  | notifyCalls waker hwake =>
    have hadvance : Inv { t with wakes := Function.update t.wakes waker .done } :=
      h.advance (by rw [hwake]; rfl) (by rw [hwake]; nofun) rfl
    refine { hadvance with plans := fun j plan hj ↦ h.plans j plan ?_ }
    dsimp only at hj
    split_ifs at hj
    · exact hj
    · rwa [Call.plan?_notified] at hj
  | start _ _ =>
    exact h.setWorker rfl (fun observed hmem ↦ .inr (Option.mem_some_iff.mp hmem).symm) nofun
  | loop _ hworker =>
    split_ifs
    · exact h.setWorker rfl nofun nofun
    · exact h.setWorker rfl (fun observed hmem ↦ .inl (by rw [hworker]; exact hmem)) nofun
  | take hlock hworker hexec => exact h.take hlock hworker hexec
  | check _ hworker _ =>
    split_ifs
    · exact h.setWorker rfl (fun observed hmem ↦ .inl (hworker ▸ hmem))
        fun _ ↦ ⟨by rw [hworker]; rfl, fun observed hmem ↦ hworker ▸ hmem⟩
    · exact h.setWorker rfl (fun observed hmem ↦ .inr (Option.mem_some_iff.mp hmem).symm) nofun
  | spuriousWorker => exact h.notifyWorker
  | build faults fileSize _ hworker hexec => exact h.build hworker hexec
  | finish faults hlock hworker hexec => exact h.finish hlock hworker hexec
  | releaseWorker _ hwake => exact { h with unlocked := fun _ ↦ hwake }
  | opened hopening _ =>
    refine h.setWake (by decide) ?_
    have hle : (if t.engine.immutables.isEmpty then Wake.done else Wake.entering).owes ≤ 1 := by
      split_ifs <;> simp
    simp only [owed, hopening, Function.update_self, ne_eq, reduceCtorEq, not_false_eq_true,
      Function.update_of_ne, Bool.toNat_false, Bool.toNat_true]
    omega
  | drop _ _ hshutdown _ _ =>
    refine h.setWake (by decide) ?_
    simp only [owed, hshutdown, Function.update_self, ne_eq, reduceCtorEq, not_false_eq_true,
      Function.update_of_ne, Bool.not_true, Bool.not_false, Bool.toNat_false, Bool.toNat_true,
      Wake.owes_entering]
    omega

theorem Inv.run (h : Inv t) (hrun : Run options t t') : Inv t' := by
  induction hrun with
  | refl => exact h
  | tail _ hstep ih => exact ih.step hstep

theorem Reachable.inv (h : Reachable options t) : Inv t := by
  obtain ⟨start, hopened, hrun⟩ := h
  exact hopened.inv.run hrun

theorem Reachable.step (h : Reachable options t) (hstep : Step options t t') :
    Reachable options t' := by
  obtain ⟨start, hopened, hrun⟩ := h
  exact ⟨start, hopened, hrun.tail hstep⟩

/-! ## No lost wake-up -/

/-- **No lost wake-up.** In no state is the state lock free and the engine running, with a memtable
waiting to be flushed and the worker blocked at the generation it has observed. -/
theorem Reachable.no_lost_wakeup (h : Reachable options t) :
    ¬ (t.lock = none ∧ t.engine.closed = false ∧ t.engine.terminalFailure = none ∧
      t.engine.immutables ≠ [] ∧ ∃ observed, t.worker = .blocked observed ∧
        t.generation = observed) := by
  rintro ⟨hlock, hopen, hrunning, himmutables, observed, hworker, hgeneration⟩
  refine himmutables (h.inv.immutables_eq hlock ⟨hrunning, hopen⟩ ?_ ?_ hgeneration)
  · rw [hworker]
    rfl
  · rw [hworker]
    rfl

/-- A new engine; its worker is about to start. -/
def start : Threads where
  engine := Machine.opened
  lock := none
  generation := 0
  generationLocked := false
  wakes _ := .done
  worker := .starting
  calls _ := .idle
  opening := true
  shutdown := false

theorem reachable_start : Reachable .new start := by
  exact ⟨start, ⟨⟨Machine.newEngine, ⟨.fresh, nofun, nofun⟩, Machine.openEngine_newEngine⟩, rfl,
    rfl, rfl, rfl, rfl, rfl, rfl, rfl⟩, .refl⟩

private def calm : Surroundings := ⟨noFaults, none, 0, fun _ ↦ 1, fun _ _ ↦ 0⟩

/-- A write and a flush while the worker sleeps. -/
private theorem Reachable.exists_queued (h : Reachable options t) (hlock : t.lock = none)
    (hopening : t.opening = false) (hshutdown : t.shutdown = false)
    (hwakes : t.wakes = fun _ ↦ .done)
    (hlocked : t.generationLocked = false) (hcalls : t.calls = fun _ ↦ .idle)
    {prepare : Result WriteBatch} {e₁ e₂ : Engine}
    (hwrite : (writeSerialized options noFaults prepare).exec t.engine = (.ok false, e₁))
    (henter : (flushEnter options noFaults).exec e₁ = (.ok (.waitingForFlushes, true), e₂)) :
    ∃ t', Reachable options t' ∧ t'.lock = none ∧ t'.engine = e₂ ∧
      t'.worker = t.worker.notified ∧ t'.generation = t.generation + 1 := by
  obtain ⟨engine, lock, generation, generationLocked, wakes, worker, calls, opening, shutdown⟩ := t
  dsimp only at hlock hopening hshutdown hwakes hlocked hcalls hwrite
  subst hlock hopening hshutdown hwakes hlocked hcalls
  have hrun₁ : (Task.write prepare).run options calm engine = (.returned (.ok ()), false, e₁) := by
    show (match (writeSerialized options noFaults prepare).exec engine with
      | (.ok woken, engine) => (Call.returned (.ok ()), woken, engine)
      | (.error error, engine) => (.returned (.error error), false, engine)) = _
    rw [hwrite]
  have hrun₂ : (Task.enterFlush false).run options calm e₁
      = (.waiting (.drainFlush false), true, e₂) := by
    show (match (flushEnter options noFaults).exec e₁ with
      | (.ok (phase, woken), engine) => (Call.ofPhase false phase, woken, engine)
      | (.error error, engine) => (.returned (.error error), false, engine)) = _
    rw [henter]
    rfl
  have hcalled := h.step (.call 0 (.write prepare) rfl rfl rfl rfl trivial)
  have hwritten := (hcalled.step (.acquire 0 (.run calm rfl rfl hrun₁))).step (.release rfl rfl)
  have hflush := hwritten.step (.call 1 (.enterFlush false) rfl rfl rfl rfl trivial)
  have hentered := hflush.step (.acquire 1 (.run calm rfl rfl hrun₂))
  have hwoken := ((hentered.step (.increment .holder rfl rfl)).step
    (.notifyWorker .holder rfl)).step (.notifyCalls .holder rfl)
  exact ⟨_, hwoken.step (.release rfl rfl), rfl, rfl, rfl, rfl⟩

/-- The worker of a new engine finds nothing to do and blocks. A flush then queues a memtable, and
the worker is awake when the lock is free again. -/
theorem no_lost_wakeup_queued : ∃ t, Reachable .new t ∧ t.lock = none ∧
    t.engine.closed = false ∧ t.engine.terminalFailure = none ∧ t.engine.immutables ≠ [] ∧
    t.generation = 1 ∧ t.worker = .waiting 0 ∧
    ¬∃ observed, t.worker = .blocked observed ∧ t.generation = observed := by
  have htake : takeFlush.exec Machine.opened = (.ok .sleep, Machine.opened) := rfl
  have hstarted := reachable_start.step (.start rfl rfl)
  have hlooped := hstarted.step (.loop nofun rfl)
  have hsleeping := hlooped.step (.take rfl rfl htake)
  have hreleased := hsleeping.step (.releaseWorker rfl rfl)
  have hblocked := hreleased.step (.check nofun rfl rfl)
  have hempty : Machine.opened.immutables.isEmpty = true := by decide +kernel
  have hwakes : Function.update (Function.update (fun _ ↦ Wake.done) Waker.holder .done) .opener
      (if Machine.opened.immutables.isEmpty then .done else .entering) = fun _ ↦ .done := by
    funext waker
    cases waker
    · rfl
    · rw [hempty]
      rfl
    · rfl
  obtain ⟨t, ht, hlock, hengine, hworker, hgeneration⟩ :=
    (hblocked.step (.opened rfl rfl)).exists_queued
    rfl rfl rfl hwakes rfl rfl Machine.writeSerialized_opened Machine.flushEnter_written
  have hrunning : Machine.rotated.terminalFailure.isNone = true := by decide +kernel
  have hqueued : Machine.rotated.immutables.length ≠ 0 := by decide +kernel
  have hclosed : Machine.rotated.closed = false := by decide +kernel
  rw [← hengine] at hrunning hqueued hclosed
  have hnone := Option.isNone_iff_eq_none.mp hrunning
  have hne : t.engine.immutables ≠ [] := fun hnil ↦ hqueued (by rw [hnil]; rfl)
  refine ⟨t, ht, hlock, hclosed, hnone, hne, hgeneration, hworker, fun hlost ↦ ?_⟩
  exact ht.no_lost_wakeup ⟨hlock, hclosed, hnone, hne, hlost⟩

end Threads

end MeteorDB
