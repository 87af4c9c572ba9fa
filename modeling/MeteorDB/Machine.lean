import MeteorDB.EngineOpen
import MeteorDB.StalePlans

/-!
# The engine as a system

Callers and the background worker take turns: each runs a section of code with the lock held. A
machine is the engine with everything that is under way between two sections: the table the worker
is building, the plans that were picked, the failures that are still to be recorded, and the calls
of `flush` that wait. The engine may be stopped at any point and opened again.

No filesystem step fails here. `Machine.Reachable.inv` is the invariant of all runs; from it follow
that every edit is accepted, and that `flush` is a barrier.
-/

namespace MeteorDB

open Attempt Engine

/-- What the background worker is doing between two sections. -/
inductive Worker where
  | idle
  | building (immutable : ImmutableMemTable) (number : U64)
  | built (immutable : ImmutableMemTable) (number : U64) (file : Result FileMeta)

/-- A call of `flush`, with the sequences of the writes that had returned when it began. -/
structure FlushCall where
  phase : FlushPhase
  before : List SequenceNumber

/-- The engine and what is under way. The sequences of the writes that have returned since the
engine was opened are kept. -/
structure Machine where
  engine : Engine
  up : Bool
  worker : Worker
  plans : List CompactionPlan
  failures : List Error
  flushes : List FlushCall
  returned : List SequenceNumber

namespace Machine

/-- A new database directory, not yet opened. The memory of the engine is of no importance. -/
def Fresh (m : Machine) : Prop :=
  m.engine.directory = ⟨⟨.empty, {1}, ⟨2, 0, 0, 0, 0⟩⟩, [], fun _ ↦ none⟩ ∧ m.engine.edits = [] ∧
    m.up = false

/-- The memory is lost. -/
def stop (m : Machine) : Machine :=
  { m with
    up := false, worker := .idle, plans := [], failures := [], flushes := [], returned := [] }

/-- One section of code, or one step between two sections. -/
inductive Step (options : Options) : Machine → Machine → Prop
  | write {m : Machine} (prepare : Result WriteBatch) {woken : Bool} {e : Engine}
      (hup : m.up = true)
      (h : (writeSerialized options noFaults prepare).exec m.engine = (.ok woken, e)) :
      Step options m
        { m with engine := e, returned := m.returned ++ [m.engine.nextSequence] }
  | writeFails {m : Machine} (prepare : Result WriteBatch) {error : Error} {e : Engine}
      (hup : m.up = true)
      (h : (writeSerialized options noFaults prepare).exec m.engine = (.error error, e)) :
      Step options m { m with engine := e }
  | sync {m : Machine} {r : Result Unit} {e : Engine} (hup : m.up = true)
      (h : (Engine.sync noFaults).exec m.engine = (r, e)) : Step options m { m with engine := e }
  | close {m : Machine} {r : Result Bool} {e : Engine} (hup : m.up = true)
      (h : (Engine.close noFaults).exec m.engine = (r, e)) : Step options m { m with engine := e }
  | callFlush {m : Machine} (hup : m.up = true) :
      Step options m { m with flushes := m.flushes ++ [⟨.called, m.returned⟩] }
  | enterFlush {m : Machine} (i : ℕ) {call : FlushCall} {phase : FlushPhase} {woken : Bool}
      {e : Engine}
      (hup : m.up = true) (hcall : m.flushes[i]? = some call)
      (hphase : call.phase = .called ∨ call.phase = .waitingForRoom)
      (h : (flushEnter options noFaults).exec m.engine = (.ok (phase, woken), e)) :
      Step options m { m with engine := e, flushes := m.flushes.set i { call with phase } }
  | enterFlushFails {m : Machine} (i : ℕ) {call : FlushCall} {error : Error} {e : Engine}
      (hup : m.up = true) (hcall : m.flushes[i]? = some call)
      (hphase : call.phase = .called ∨ call.phase = .waitingForRoom)
      (h : (flushEnter options noFaults).exec m.engine = (.error error, e)) :
      Step options m
        { m with engine := e, flushes := m.flushes.set i { call with phase := .failed } }
  | drainFlush {m : Machine} (i : ℕ) {call : FlushCall} {phase : FlushPhase} {e : Engine}
      (hup : m.up = true) (hcall : m.flushes[i]? = some call)
      (hphase : call.phase = .waitingForFlushes)
      (h : flushDrain.exec m.engine = (.ok phase, e)) :
      Step options m { m with engine := e, flushes := m.flushes.set i { call with phase } }
  | drainFlushFails {m : Machine} (i : ℕ) {call : FlushCall} {error : Error} {e : Engine}
      (hup : m.up = true) (hcall : m.flushes[i]? = some call)
      (hphase : call.phase = .waitingForFlushes)
      (h : flushDrain.exec m.engine = (.error error, e)) :
      Step options m
        { m with engine := e, flushes := m.flushes.set i { call with phase := .failed } }
  | takeFlush {m : Machine} {immutable : ImmutableMemTable} {number : U64} {e : Engine}
      (hup : m.up = true) (hworker : m.worker = .idle)
      (h : Engine.takeFlush.exec m.engine = (.ok (.build immutable number), e)) :
      Step options m { m with engine := e, worker := .building immutable number }
  | takeNothing {m : Machine} {r : Result WorkerTask} {e : Engine} (hup : m.up = true)
      (hworker : m.worker = .idle) (h : Engine.takeFlush.exec m.engine = (r, e))
      (hr : ∀ immutable number, r ≠ .ok (.build immutable number)) :
      Step options m { m with engine := e }
  | build {m : Machine} {immutable : ImmutableMemTable} {number : U64} (fileSize : U64)
      {file : Result FileMeta} {e : Engine} (hup : m.up = true)
      (hworker : m.worker = .building immutable number)
      (h : (buildSstable noFaults number immutable.table fileSize).exec m.engine = (file, e)) :
      Step options m { m with engine := e, worker := .built immutable number file }
  | finishFlush {m : Machine} {immutable : ImmutableMemTable} {number : U64}
      {file : Result FileMeta} {r : Result Unit} {e : Engine} (hup : m.up = true)
      (hworker : m.worker = .built immutable number file)
      (h : (Engine.finishFlush noFaults immutable file).exec m.engine = (r, e)) :
      Step options m { m with engine := e, worker := .idle }
  | pick {m : Machine} (divide : ℕ → ℕ → ℚ) (picker : CompactionPicker) {plan : CompactionPlan}
      (hup : m.up = true) (h : picker.pick divide m.engine.versions.version = some plan) :
      Step options m { m with plans := m.plans ++ [plan] }
  | compact {m : Machine} {plan : CompactionPlan} (oldestActiveSnapshot : Option SequenceNumber)
      (readTimeUnixMs : U64) (fileSize : U64 → U64) {r : Result (Result Unit)} {e : Engine}
      (hup : m.up = true) (hplan : plan ∈ m.plans)
      (h : (executeCompactionPlan options noFaults oldestActiveSnapshot readTimeUnixMs fileSize
        plan).exec m.engine = (r, e)) :
      Step options m { m with
        engine := e
        failures := match r with
          | .ok (.error error) => m.failures ++ [error]
          | _ => m.failures }
  | failCompaction {m : Machine} {error : Error} {r : Result Unit} {e : Engine} (hup : m.up = true)
      (herror : error ∈ m.failures) (h : (Engine.failCompaction error).exec m.engine = (r, e)) :
      Step options m { m with engine := e, failures := m.failures.erase error }
  | stop {m : Machine} : Step options m m.stop
  | openEngine {m : Machine} {r : Result Unit} {e : Engine} (hup : m.up = false)
      (h : (Engine.openEngine noFaults).exec m.engine = (r, e)) :
      Step options m { m.stop with engine := e, up := r.isOk }

/-- The states of all runs that start with a new directory. -/
inductive Reachable (options : Options) : Machine → Prop
  | fresh {m : Machine} (h : m.Fresh) : Reachable options m
  | step {m m' : Machine} (h : Reachable options m) (hstep : Step options m m') :
      Reachable options m'

/-! ## The invariant -/

/-- A sequence is at or below that of an immutable memtable or of the tables. -/
def Frozen (engine : Engine) (sequence : SequenceNumber) : Prop :=
  sequence ≤ engine.versions.counters.lastSequence ∨
    ∃ immutable ∈ engine.immutables, sequence ≤ immutable.largestSequence

/-- A sequence is frozen, or an entry of the mutable memtable has it. -/
def Kept (engine : Engine) (sequence : SequenceNumber) : Prop :=
  Frozen engine sequence ∨ ∃ entry ∈ engine.mutable.table.entries, entry.key.sequence = sequence

/-- What holds of a flush that is under way. -/
structure Flushing (engine : Engine) (immutable : ImmutableMemTable) (number : U64) : Prop where
  running : engine.flushRunning = true
  head : engine.immutables.head? = some immutable
  used_lt : ∀ used ∈ engine.versions.usedFileNumbers, used < number
  lt_next : number < engine.nextFileNumber

def WorkerInv (engine : Engine) : Worker → Prop
  | .idle => engine.flushRunning = false
  | .building immutable number => Flushing engine immutable number
  | .built immutable number file => Flushing engine immutable number ∧ ∀ built, file = .ok built →
      built.number = number ∧ engine.directory.tables number = some immutable.table.entries ∧
        ∀ entry ∈ immutable.table.entries, built.Covers entry.key.userKey

/-- What holds of a call of `flush`. -/
structure CallInv (engine : Engine) (call : FlushCall) : Prop where
  kept : ∀ sequence ∈ call.before, Kept engine sequence
  frozen : call.phase = .waitingForFlushes → ∀ sequence ∈ call.before, Frozen engine sequence
  published : call.phase = .returned →
    ∀ sequence ∈ call.before, sequence ≤ engine.versions.counters.lastSequence

/-- What holds while the engine is open. -/
structure Up (m : Machine) : Prop where
  inv : m.engine.Inv
  worker : WorkerInv m.engine m.worker
  plans : ∀ plan ∈ m.plans,
    PlanInv m.engine.versions.version m.engine.versions.usedFileNumbers plan
  returned : ∀ sequence ∈ m.returned, Kept m.engine sequence
  calls : ∀ call ∈ m.flushes, CallInv m.engine call

/-- What holds of every machine. -/
structure Inv (m : Machine) : Prop where
  rest : m.engine.Rest
  up : m.up = true → Up m

variable {options : Options} {m m' : Machine} {e e' : Engine}

/-! ### Sections that publish nothing -/

theorem Frozen.frame {sequence : SequenceNumber} (h : Frozen e sequence) (hframe : Frame e e') :
    Frozen e' sequence := by
  rcases h with hle | ⟨immutable, himmutable, hle⟩
  · exact .inl (hframe.lastSequence ▸ hle)
  · exact .inr ⟨immutable, hframe.immutables.subset himmutable, hle⟩

theorem Kept.frame {sequence : SequenceNumber} (h : Kept e sequence) (hframe : Frame e e')
    (hmem : e.memEntries ⊆ e'.memEntries) (hinv : e'.Inv) : Kept e' sequence := by
  rcases h with hfrozen | ⟨entry, hentry, rfl⟩
  · exact .inl (hfrozen.frame hframe)
  · rcases hmem (.inl hentry) with hentry | ⟨immutable, himmutable, hentry⟩
    · exact .inr ⟨entry, hentry, rfl⟩
    · exact .inl (.inr ⟨immutable, himmutable,
        (hinv.ascending.above immutable himmutable entry hentry).2⟩)

theorem CallInv.frame {call : FlushCall} (h : CallInv e call) (hframe : Frame e e')
    (hmem : e.memEntries ⊆ e'.memEntries) (hinv : e'.Inv) : CallInv e' call :=
  ⟨fun sequence hsequence ↦ (h.kept sequence hsequence).frame hframe hmem hinv,
    fun hphase sequence hsequence ↦ (h.frozen hphase sequence hsequence).frame hframe,
    fun hphase sequence hsequence ↦ hframe.lastSequence ▸ h.published hphase sequence hsequence⟩

theorem Flushing.frame {immutable : ImmutableMemTable} {number : U64}
    (h : Flushing e immutable number) (hframe : Frame e e') : Flushing e' immutable number := by
  refine ⟨hframe.flushRunning.trans h.running, ?_, hframe.used ▸ h.used_lt,
    h.lt_next.trans_le hframe.next_le⟩
  obtain ⟨immutables, himmutables⟩ := List.head?_eq_some_iff.mp h.head
  obtain ⟨more, hmore⟩ := hframe.immutables
  rw [← hmore, himmutables]
  rfl

theorem WorkerInv.frame {worker : Worker} (h : WorkerInv e worker) (hframe : Frame e e') :
    WorkerInv e' worker := by
  cases worker with
  | idle => exact hframe.flushRunning.trans h
  | building immutable number => exact Flushing.frame h hframe
  | built immutable number file =>
    obtain ⟨hflushing, hbuilt⟩ := h
    refine ⟨hflushing.frame hframe, fun built hfile ↦ ?_⟩
    obtain ⟨hnumber, htable, hcovers⟩ := hbuilt built hfile
    exact ⟨hnumber, (hframe.tables number hflushing.lt_next).trans htable, hcovers⟩

/-- A section that publishes nothing keeps everything that is under way. -/
theorem Up.frame (h : Up m) (hframe : Frame m.engine e)
    (hmem : m.engine.memEntries ⊆ e.memEntries) (hinv : e.Inv) : Up { m with engine := e } where
  inv := hinv
  worker := h.worker.frame hframe
  plans plan hplan := by
    show PlanInv e.versions.version e.versions.usedFileNumbers plan
    rw [hframe.used]
    exact (h.plans plan hplan).congr hframe.version
  returned sequence hsequence := (h.returned sequence hsequence).frame hframe hmem hinv
  calls call hcall := (h.calls call hcall).frame hframe hmem hinv

theorem Up.extends (h : Up m) (hextends : Extends m.engine e) (hinv : e.Inv) :
    Up { m with engine := e } :=
  h.frame hextends.toFrame hextends.mem.ge hinv

/-! ### Sections that publish tables -/

/-- What is frozen stays frozen when a flush is published. -/
theorem Frozen.flush {sequence : SequenceNumber} {immutable : ImmutableMemTable} {file : FileMeta}
    (h : Frozen e sequence) (hpublished : PublishedFlush e immutable file e') (hinv : e.Inv) :
    Frozen e' sequence := by
  have hmem : immutable ∈ e.immutables := hpublished.immutables ▸ List.mem_cons_self ..
  rcases h with hle | ⟨other, hother, hle⟩
  · exact .inl (hpublished.lastSequence ▸ hle.trans (hinv.ascending.last_le hmem))
  · rcases List.mem_cons.mp (hpublished.immutables ▸ hother) with rfl | hother
    · exact .inl (hpublished.lastSequence ▸ hle)
    · exact .inr ⟨other, hother, hle⟩

theorem Up.finishFlush (h : Up m) {immutable : ImmutableMemTable} {number : U64}
    {file : Result FileMeta} (hworker : m.worker = .built immutable number file) {r : Result Unit}
    (hexec : (Engine.finishFlush noFaults immutable file).exec m.engine = (r, e)) :
    Up { m with engine := e, worker := .idle } := by
  have hworkerInv := h.worker
  rw [hworker] at hworkerInv
  obtain ⟨hflushing, hbuilt⟩ := hworkerInv
  obtain ⟨immutables, himmutables⟩ := List.head?_eq_some_iff.mp hflushing.head
  have hready : ∀ built, file = .ok built →
      (∀ used ∈ m.engine.versions.usedFileNumbers, used < built.number) ∧
        built.number < m.engine.nextFileNumber ∧
        m.engine.directory.tables built.number = some immutable.table.entries ∧
        ∀ entry ∈ immutable.table.entries, built.Covers entry.key.userKey := by
    intro built hfile
    obtain ⟨rfl, htable, hcovers⟩ := hbuilt built hfile
    exact ⟨hflushing.used_lt, hflushing.lt_next, htable, hcovers⟩
  obtain ⟨hinv, hidle, ⟨built, hpublished⟩ | hextends, -⟩ :=
    wp_of_exec (h.inv.finishFlush himmutables hready) hexec
  · have hfrozen : ∀ {sequence : SequenceNumber}, Frozen m.engine sequence → Frozen e sequence :=
      fun hfrozen ↦ hfrozen.flush hpublished h.inv
    have hkept : ∀ {sequence : SequenceNumber}, Kept m.engine sequence → Kept e sequence :=
      fun hkept ↦ hkept.imp hfrozen fun hentry ↦ hpublished.mutable ▸ hentry
    refine ⟨hinv, hidle, fun plan hplan ↦ ?_, fun sequence hsequence ↦
      hkept (h.returned _ hsequence),
      fun call hcall ↦ ⟨fun sequence hsequence ↦ hkept ((h.calls call hcall).kept _ hsequence),
        fun hphase sequence hsequence ↦ hfrozen ((h.calls call hcall).frozen hphase _ hsequence),
        fun hphase sequence hsequence ↦ ?_⟩⟩
    · show PlanInv e.versions.version e.versions.usedFileNumbers plan
      rw [hpublished.used]
      exact (h.plans plan hplan).flush hpublished.used_lt hpublished.version
    · refine ((h.calls call hcall).published hphase sequence hsequence).trans ?_
      show m.engine.versions.counters.lastSequence ≤ e.versions.counters.lastSequence
      rw [hpublished.lastSequence]
      exact h.inv.ascending.last_le (hpublished.immutables ▸ List.mem_cons_self ..)
  · -- The flush failed; apart from the flag and the failure nothing changed.
    have hup : Up { m with
        engine := { m.engine with flushRunning := false }
        worker := .idle } :=
      { h with
        inv := { h.inv with }
        worker := rfl
        calls := fun call hcall ↦ { h.calls call hcall with } }
    exact hup.extends hextends hinv

theorem Up.compact (h : Up m) {plan : CompactionPlan} (hplan : plan ∈ m.plans)
    {oldestActiveSnapshot : Option SequenceNumber} {readTimeUnixMs : U64} {fileSize : U64 → U64}
    {r : Result (Result Unit)}
    (hexec : (executeCompactionPlan options noFaults oldestActiveSnapshot readTimeUnixMs fileSize
      plan).exec m.engine = (r, e)) : Up { m with engine := e } := by
  have hpool := h.plans plan hplan
  obtain ⟨hinv, hresult, -⟩ :=
    wp_of_exec (h.inv.executeCompactionPlan hpool.replaceable_of_valid) hexec
  rcases r with error | error | u
  · subst hresult
    exact h
  · exact h.extends hresult hinv
  · obtain ⟨hflushing, hlive, hpublished⟩ := hresult
    have hidle := (isFlushing_eq_false.mp hflushing).2
    have hfrozen : ∀ {sequence : SequenceNumber}, Frozen m.engine sequence → Frozen e sequence := by
      unfold Frozen
      rw [hpublished.lastSequence, hpublished.immutables]
      exact id
    have hkept : ∀ {sequence : SequenceNumber}, Kept m.engine sequence → Kept e sequence :=
      fun hkept ↦ hkept.imp hfrozen fun hentry ↦ hpublished.mutable ▸ hentry
    refine ⟨hinv, ?_, fun other hother ↦ ?_, fun sequence hsequence ↦
      hkept (h.returned _ hsequence),
      fun call hcall ↦ ⟨fun sequence hsequence ↦ hkept ((h.calls call hcall).kept _ hsequence),
        fun hphase sequence hsequence ↦ hfrozen ((h.calls call hcall).frozen hphase _ hsequence),
        fun hphase sequence hsequence ↦ hpublished.lastSequence ▸
          (h.calls call hcall).published hphase sequence hsequence⟩⟩
    · -- No flush is running, so the worker is idle.
      have hworker := h.worker
      show WorkerInv e m.worker
      cases hm : m.worker with
      | idle => exact hpublished.flushRunning.trans hidle
      | building immutable number =>
        rw [hm] at hworker
        exact absurd (hidle.symm.trans hworker.running) Bool.false_ne_true
      | built immutable number file =>
        rw [hm] at hworker
        exact absurd (hidle.symm.trans hworker.1.running) Bool.false_ne_true
    · exact hpublished.planInv h.inv.core hpool hlive (h.plans other hother)

/-! ### Calls of flush -/

/-- A call goes on to another phase. -/
theorem Up.setCall (h : Up m) {i : ℕ} {call : FlushCall} (hcall : m.flushes[i]? = some call)
    {phase : FlushPhase}
    (hphase : CallInv m.engine call → CallInv m.engine { call with phase }) :
    Up { m with flushes := m.flushes.set i { call with phase } } := by
  refine { h with calls := fun other hother ↦ ?_ }
  rcases List.mem_or_eq_of_mem_set hother with hother | rfl
  · exact h.calls other hother
  · exact hphase (h.calls call (List.mem_of_getElem? hcall))

/-- A flush that has rotated leaves only frozen sequences behind. -/
theorem Kept.frozen {sequence : SequenceNumber} (h : Kept e sequence)
    (hempty : e.mutable.table.entries = []) : Frozen e sequence := by
  rcases h with hfrozen | ⟨entry, hentry, -⟩
  · exact hfrozen
  · rw [hempty] at hentry
    exact absurd hentry List.not_mem_nil

/-- When nothing is left to flush, what is frozen is in the tables. -/
theorem Frozen.published {sequence : SequenceNumber} (h : Frozen e sequence)
    (hflushing : e.isFlushing = false) :
    sequence ≤ e.versions.counters.lastSequence := by
  rcases h with hle | ⟨immutable, himmutable, -⟩
  · exact hle
  · rw [(isFlushing_eq_false.mp hflushing).1] at himmutable
    exact absurd himmutable List.not_mem_nil

/-! ### Runs -/

theorem Up.step (h : Up m) (hup : m.up = true) (hstep : Step options m m') (hup' : m'.up = true) :
    Up m' := by
  cases hstep with
  | write prepare _ hexec =>
    obtain ⟨hinv, batch, -, hwrote⟩ := wp_of_exec h.inv.writeSerialized hexec
    have hnext := h.frame hwrote.toFrame (hwrote.mem ▸ Set.subset_union_left) hinv
    refine { hnext with returned := fun sequence hsequence ↦ ?_ }
    rcases List.mem_append.mp hsequence with hsequence | hsequence
    · exact hnext.returned sequence hsequence
    · -- The batch has an entry at its sequence, in the mutable memtable or already rotated.
      obtain rfl := List.mem_singleton.mp hsequence
      obtain ⟨userKey, record, hrecord⟩ := WriteBatch.exists_recordFor hwrote.nonempty
      have hmem := Set.mem_union_right m.engine.memEntries
        (show MemTable.entryAt m.engine.nextSequence hwrote.sequence_lt userKey record
          ∈ batchEntries m.engine.nextSequence batch from
            ⟨hwrote.sequence_lt, userKey, record, hrecord, rfl⟩)
      rw [← hwrote.mem] at hmem
      rcases hmem with hmem | ⟨immutable, himmutable, hmem⟩
      · exact .inr ⟨_, hmem, rfl⟩
      · exact .inl (.inr ⟨immutable, himmutable,
          (hinv.ascending.above immutable himmutable _ hmem).2⟩)
  | writeFails prepare _ hexec =>
    obtain ⟨hinv, hextends⟩ := wp_of_exec h.inv.writeSerialized hexec
    exact h.extends hextends hinv
  | sync _ hexec =>
    obtain ⟨hinv, hextends⟩ := wp_of_exec h.inv.sync hexec
    exact h.extends hextends hinv
  | close _ hexec =>
    obtain ⟨hinv, hextends⟩ := wp_of_exec h.inv.close hexec
    exact h.extends hextends hinv
  | callFlush _ =>
    exact { h with
      calls := List.forall_mem_append.mpr
        ⟨h.calls, List.forall_mem_singleton.mpr ⟨h.returned, nofun, nofun⟩⟩ }
  | enterFlush i _ hcall hphase hexec =>
    obtain ⟨hinv, hextends, hresult⟩ := wp_of_exec h.inv.flushEnter hexec
    refine (h.extends hextends hinv).setCall hcall fun hinv' ↦ ?_
    rcases hresult _ _ rfl with rfl | ⟨hempty, rfl | ⟨rfl, hflushing⟩⟩
    · exact ⟨hinv'.kept, nofun, nofun⟩
    · exact ⟨hinv'.kept, fun _ sequence hsequence ↦ (hinv'.kept sequence hsequence).frozen hempty,
        nofun⟩
    · exact ⟨hinv'.kept, nofun, fun _ sequence hsequence ↦
        ((hinv'.kept sequence hsequence).frozen hempty).published hflushing⟩
  | enterFlushFails i _ hcall hphase hexec =>
    obtain ⟨hinv, hextends, -⟩ := wp_of_exec h.inv.flushEnter hexec
    exact (h.extends hextends hinv).setCall hcall fun hinv' ↦ ⟨hinv'.kept, nofun, nofun⟩
  | drainFlush i _ hcall hphase hexec =>
    obtain ⟨rfl, hresult⟩ := wp_of_exec wp_flushDrain hexec
    refine h.setCall hcall fun hinv' ↦ ?_
    rcases hresult _ rfl with rfl | ⟨rfl, hflushing⟩
    · exact ⟨hinv'.kept, fun _ ↦ hinv'.frozen hphase, nofun⟩
    · exact ⟨hinv'.kept, nofun, fun _ sequence hsequence ↦
        (hinv'.frozen hphase sequence hsequence).published hflushing⟩
  | drainFlushFails i _ hcall hphase hexec =>
    obtain ⟨rfl, -⟩ := wp_of_exec wp_flushDrain hexec
    exact h.setCall hcall fun hinv' ↦ ⟨hinv'.kept, nofun, nofun⟩
  | takeFlush _ hworker hexec =>
    have hidle := h.worker
    rw [hworker] at hidle
    obtain ⟨hinv, hhead, rfl, next, hnext, rfl⟩ := wp_of_exec (h.inv.takeFlush hidle) hexec
    have hlt : m.engine.nextFileNumber < next := Fin.lt_def.mpr (by omega)
    refine { h with inv := hinv, worker := ⟨rfl, hhead, fun used hused ↦ ?_, hlt⟩,
                    calls := fun call hcall ↦ { h.calls call hcall with } }
    exact (h.inv.sound.used_lt used hused).trans_le h.inv.next_le
  | takeNothing hopen hworker hexec hr =>
    have hidle := h.worker
    rw [hworker] at hidle
    have hresult := wp_of_exec (h.inv.takeFlush hidle) hexec
    rename_i r e
    rcases r with error | ⟨⟩ | ⟨⟩ | ⟨immutable, number⟩
    · exact h.extends hresult.2 hresult.1
    · exact h.extends hresult.2 hresult.1
    · exact h.extends hresult.2 hresult.1
    · exact absurd rfl (hr immutable number)
  | build fileSize _ hworker hexec =>
    have hflushing := h.worker
    rw [hworker] at hflushing
    obtain ⟨hinv, hengine, hresult⟩ := wp_of_exec (h.inv.buildSstable hflushing.used_lt) hexec
    have hbuilt := fun built hfile ↦ (hresult built hfile).imp_right fun hfacts ↦
      hfacts.imp_right And.left
    rcases hengine with rfl | rfl
    · exact { h with worker := ⟨hflushing, hbuilt⟩ }
    · exact { h with
        inv := hinv
        worker := ⟨{ hflushing with }, hbuilt⟩
        calls := fun call hcall ↦ { h.calls call hcall with } }
  | finishFlush _ hworker hexec => exact h.finishFlush hworker hexec
  | pick divide picker _ hpick =>
    exact { h with
      plans := List.forall_mem_append.mpr ⟨h.plans, List.forall_mem_singleton.mpr
        ((CompactionPicker.planned_of_pick hpick).inv h.inv.sound.live)⟩ }
  | compact oldestActiveSnapshot readTimeUnixMs fileSize _ hplan hexec =>
    exact { h.compact hplan hexec with }
  | failCompaction _ herror hexec =>
    obtain ⟨hinv, hextends⟩ := wp_of_exec h.inv.failCompaction hexec
    exact { h.extends hextends hinv with }
  | stop => exact absurd hup' Bool.false_ne_true
  | openEngine hdown hexec => exact absurd (hdown.symm.trans hup) Bool.false_ne_true

theorem Inv.step (h : Inv m) (hstep : Step options m m') : Inv m' := by
  have hopen : m.up = true → m'.up = true → Inv m' := by
    intro hup hup'
    have hnext := (h.up hup).step hup hstep hup'
    exact ⟨hnext.inv.rest, fun _ ↦ hnext⟩
  cases hstep with
  | write _ hup | writeFails _ hup | sync hup | close hup | callFlush hup | enterFlush _ hup
  | enterFlushFails _ hup | drainFlush _ hup | drainFlushFails _ hup | takeFlush hup
  | takeNothing hup | build _ hup | finishFlush hup | pick _ _ hup | compact _ _ _ hup
  | failCompaction hup => exact hopen hup hup
  | stop => exact ⟨h.rest, fun hup ↦ absurd hup Bool.false_ne_true⟩
  | openEngine hdown hexec =>
    obtain ⟨hrest, hopened⟩ := wp_of_exec h.rest.openEngine hexec
    refine ⟨hrest, fun hup ↦ ?_⟩
    rename_i r e
    cases r with
    | error error => exact absurd hup Bool.false_ne_true
    | ok u =>
      obtain ⟨hinv, hidle⟩ := hopened rfl
      exact ⟨hinv, hidle, nofun, nofun, nofun⟩

theorem Fresh.inv (h : m.Fresh) : Inv m := by
  obtain ⟨hdirectory, hedits, hdown⟩ := h
  refine ⟨⟨?_, ?_, ?_⟩, fun hup ↦ absurd (hdown.symm.trans hup) Bool.false_ne_true⟩
  · rw [hdirectory]
    exact .fresh
  · rw [hedits]
    exact nofun
  · rw [hdirectory]
    exact nofun

/-- **The invariant of all runs.** -/
theorem Reachable.inv (h : Reachable options m) : Inv m := by
  induction h with
  | fresh h => exact h.inv
  | step _ hstep ih => exact ih.step hstep

/-! ## A run

A new directory is opened, one batch is written, and a call of `flush` waits until the worker has
built the table and published it. -/

/-- An engine on a new directory. -/
def newEngine : Engine where
  directory := ⟨⟨.empty, {1}, ⟨2, 0, 0, 0, 0⟩⟩, [], fun _ ↦ none⟩
  versions := ⟨.empty, {1}, ⟨2, 0, 0, 0, 0⟩⟩
  manifestUsable := true
  mutable := ⟨.empty, 0⟩
  immutables := []
  walNumbers := ∅
  nextFileNumber := 0
  nextSequence := 0
  flushRunning := false
  closed := false
  terminalFailure := none
  backgroundFailure := false
  edits := []

def onePut : Result WriteBatch := .ok ⟨[.put [7] [1] none]⟩

/-- The same engine once it is open. -/
def opened : Engine := ((Engine.openEngine noFaults).exec newEngine).2

def written : Engine := ((writeSerialized .new noFaults onePut).exec opened).2

/-- The memtable of the write has become immutable. -/
def rotated : Engine := ((flushEnter .new noFaults).exec written).2

/-- What the worker takes up first, with the number of its table. -/
def flushTask (e : Engine) : ImmutableMemTable × U64 :=
  match (Engine.takeFlush.exec e).1 with
  | .ok (.build immutable number) => (immutable, number)
  | _ => (⟨.empty, 0, 0⟩, 0)

/-- The table that the worker builds, with the engine that has it on disk. -/
def flushBuilt (e : Engine) : Result FileMeta × Engine :=
  (buildSstable noFaults (flushTask e).2 (flushTask e).1.table 1).exec (Engine.takeFlush.exec e).2

/-- The engine once the edit of the flush is applied. -/
def flushApplied (e : Engine) : Result Unit × Engine :=
  (do
    let file ← liftM (flushBuilt e).1
    applyEdit noFaults ((← get).flushEdit (flushTask e).1 file) : Section Unit).exec
      (flushBuilt e).2

/-- The engine after the flush, with the WALs that are left. -/
def afterFlush (e : Engine) (wals : List WalSegment) (walNumbers : Finset U64) : Engine :=
  { (flushApplied e).2 with
    immutables := (flushApplied e).2.immutables.drop 1
    directory := { (flushApplied e).2.directory with wals }
    walNumbers
    flushRunning := false }

private theorem exec_of_fst {α : Type} {x : Section α} {e : Engine} {r : Result α}
    (h : (x.exec e).1 = r) : x.exec e = (r, (x.exec e).2) := by
  rw [← h]

theorem openEngine_newEngine : (Engine.openEngine noFaults).exec newEngine = (.ok (), opened) :=
  exec_of_fst (by decide +kernel)

theorem reachable_opened (options : Options) :
    Reachable options ⟨opened, true, .idle, [], [], [], []⟩ := by
  have hstep : Step options ⟨newEngine, false, .idle, [], [], [], []⟩ _ :=
    .openEngine rfl openEngine_newEngine
  exact .step (.fresh ⟨rfl, rfl, rfl⟩) hstep

theorem writeSerialized_opened :
    (writeSerialized .new noFaults onePut).exec opened = (.ok false, written) :=
  exec_of_fst (by decide +kernel)

theorem flushEnter_written :
    (flushEnter .new noFaults).exec written = (.ok (.waitingForFlushes, true), rotated) :=
  exec_of_fst (by decide +kernel)

private theorem reachable_rotated :
    Reachable .new ⟨rotated, true, .idle, [], [], [⟨.waitingForFlushes, [1]⟩], [1]⟩ := by
  have hopened := reachable_opened .new
  have hwritten : Reachable .new ⟨written, true, .idle, [], [], [], [1]⟩ := by
    have hstep := Step.write (m := ⟨opened, true, .idle, [], [], [], []⟩) onePut rfl
      writeSerialized_opened
    rw [show opened.nextSequence = 1 by decide +kernel] at hstep
    exact hopened.step hstep
  have hcalled : Reachable .new ⟨written, true, .idle, [], [], [⟨.called, [1]⟩], [1]⟩ :=
    hwritten.step (.callFlush rfl)
  have hstep := Step.enterFlush (m := ⟨written, true, .idle, [], [], [⟨.called, [1]⟩], [1]⟩)
    0 rfl rfl (.inl rfl) flushEnter_written
  exact hcalled.step hstep

theorem takeFlush_exec {e : Engine} (h : (flushTask e).2 ≠ 0) : Engine.takeFlush.exec e
    = (.ok (.build (flushTask e).1 (flushTask e).2), (Engine.takeFlush.exec e).2) := by
  refine Prod.ext ?_ rfl
  revert h
  unfold flushTask
  rcases (Engine.takeFlush.exec e).1 with error | _ | _ | ⟨immutable, number⟩
  · exact fun h ↦ absurd rfl h
  · exact fun h ↦ absurd rfl h
  · exact fun h ↦ absurd rfl h
  · exact fun _ ↦ rfl

private theorem exists_publishFlush {e e' : Engine} {immutable : ImmutableMemTable}
    {file : FileMeta}
    (h : (applyEdit noFaults (e.flushEdit immutable file)).exec e = (.ok (), e')) :
    ∃ wals walNumbers, (publishFlush noFaults immutable (.ok file)).exec e
      = (.ok (), { e' with
          immutables := e'.immutables.drop 1
          directory := { e'.directory with wals }
          walNumbers }) := by
  have happly : wp (applyEdit noFaults (e.flushEdit immutable file))
      (fun r e₁ ↦ r = .ok () ∧ e₁ = e') e := by
    rw [wp, h]
    exact ⟨rfl, rfl⟩
  have hpublish : wp (publishFlush noFaults immutable (.ok file)) (fun r e₁ ↦ r = .ok () ∧
      ∃ wals walNumbers, e₁ = { e' with
        immutables := e'.immutables.drop 1
        directory := { e'.directory with wals }
        walNumbers }) e := by
    unfold publishFlush
    rw [wp_bind, wp_lift]
    dsimp only
    rw [wp_get_bind, wp_bind]
    refine wp_mono happly ?_
    rintro _ _ ⟨rfl, rfl⟩
    dsimp only
    rw [wp_modify_bind]
    refine wp_mono wp_retireObsoleteWals ?_
    rintro r e₁ ⟨hr, wals, walNumbers, -, rfl⟩
    exact ⟨hr, wals, walNumbers, rfl⟩
  obtain ⟨hr, wals, walNumbers, he⟩ := hpublish
  exact ⟨wals, walNumbers, Prod.ext hr he⟩

private theorem finishFlush_exec {e e' : Engine} {immutable : ImmutableMemTable}
    {file : Result FileMeta} (h : (publishFlush noFaults immutable file).exec e = (.ok (), e')) :
    (Engine.finishFlush noFaults immutable file).exec e =
      (.ok (), { e' with flushRunning := false }) := by
  unfold Engine.finishFlush
  rw [exec_bind, exec_tryCatch, exec_bind, h]
  rfl

/-- A flush whose edit is applied succeeds, and retires WALs. -/
theorem exists_finishFlush {e : Engine} (h : (flushApplied e).1 = .ok ()) :
    ∃ wals walNumbers, (Engine.finishFlush noFaults (flushTask e).1 (flushBuilt e).1).exec
      (flushBuilt e).2 = (.ok (), afterFlush e wals walNumbers) := by
  have happly : flushApplied e = (.ok (), (flushApplied e).2) := Prod.ext h rfl
  unfold afterFlush
  generalize (flushApplied e).2 = e' at happly
  unfold flushApplied at happly
  generalize flushBuilt e = built at happly
  obtain ⟨error | file, e₁⟩ := built
  · cases happly
  · have hexec : (applyEdit noFaults (e₁.flushEdit (flushTask e).1 file)).exec e₁ = (.ok (), e') :=
      happly
    obtain ⟨wals, walNumbers, hpublish⟩ := exists_publishFlush hexec
    exact ⟨wals, walNumbers, finishFlush_exec hpublish⟩

private theorem flushDrain_exec {e : Engine} (hwritable : e.ensureWritable = .ok ())
    (hidle : e.isFlushing = false) : flushDrain.exec e = (.ok .returned, e) := by
  unfold flushDrain
  rw [exec_bind]
  show exec (liftM e.ensureWritable >>= _) e = _
  rw [hwritable, exec_bind]
  show exec (if e.isFlushing = true then pure .waitingForFlushes else pure .returned :
    Section FlushPhase) e = _
  rw [hidle]
  rfl

/-- The worker has published the memtable that a call of `flush` has rotated. -/
theorem exists_flushed : ∃ wals walNumbers, Reachable .new
    ⟨afterFlush rotated wals walNumbers, true, .idle, [], [], [⟨.waitingForFlushes, [1]⟩],
      [1]⟩ := by
  obtain ⟨wals, walNumbers, hfinish⟩ := @exists_finishFlush rotated (by decide +kernel)
  have htake := @takeFlush_exec rotated (by decide +kernel)
  have hbuilt : Reachable .new ⟨(flushBuilt rotated).2, true,
      .built (flushTask rotated).1 (flushTask rotated).2 (flushBuilt rotated).1, [], [],
      [⟨.waitingForFlushes, [1]⟩], [1]⟩ :=
    (reachable_rotated.step (.takeFlush rfl rfl htake)).step (.build 1 rfl rfl rfl)
  exact ⟨wals, walNumbers, hbuilt.step (.finishFlush rfl rfl hfinish)⟩

private theorem reachable_flushed : ∃ m, Reachable .new m ∧ m.up = true ∧
    m.flushes = [⟨.returned, [1]⟩] ∧ m.engine.edits = (flushApplied rotated).2.edits := by
  obtain ⟨wals, walNumbers, hflushed⟩ := exists_flushed
  -- Retiring WALs changes nothing that `flush` waits for.
  have hwritable : (flushApplied rotated).2.ensureWritable = .ok () := by decide +kernel
  have hidle : (flushApplied rotated).2.immutables.drop 1 = [] :=
    List.length_eq_zero_iff.mp (by decide +kernel)
  have hdrain : flushDrain.exec (afterFlush rotated wals walNumbers) = _ :=
    flushDrain_exec hwritable (by rw [isFlushing, afterFlush, hidle]; rfl)
  exact ⟨_, hflushed.step (.drainFlush 0 rfl rfl rfl hdrain), rfl, rfl, rfl⟩

/-! ## What follows for all runs -/

/-- **Edits are accepted.** Every edit that is built in a run is accepted in the state it is built
for: counters do not move backward, the log numbers are in order and below the next file number, the
numbers of added tables are new, and the sorted levels do not overlap. -/
theorem Reachable.accepts_edit (h : Reachable options m) {state : VersionState}
    {edit : VersionEdit} (hbuilt : (state, edit) ∈ m.engine.edits) :
    ∃ versions, state.apply false edit = .ok versions ∧
      state.counters.Le versions.counters ∧
      versions.counters.logNumber ≤ versions.counters.activeLogNumber ∧
      versions.counters.activeLogNumber < versions.counters.nextFileNumber ∧
      FreshNumbers edit versions.counters.nextFileNumber state.usedFileNumbers ∧
      ∀ level, level ≠ 0 → NonOverlapping (versions.version.levels level) := by
  obtain ⟨versions, happly, hactive⟩ := h.inv.rest.accepted _ hbuilt
  obtain ⟨haccepts, -, -, hcounters⟩ := VersionState.apply_eq_ok.mp happly
  refine ⟨versions, happly, VersionState.le_of_apply happly, ?_, hactive, ?_,
    versions.version.disjoint⟩
  · rw [hcounters]
    exact haccepts.valid.log_le
  · rw [hcounters]
    exact haccepts.fresh

theorem accepts_edit_flushed : ∃ m : Machine, Reachable .new m ∧ ∃ built ∈ m.engine.edits,
    built.2.addedFiles.length = 1 ∧ ∃ versions, built.1.apply false built.2 = .ok versions ∧
      FreshNumbers built.2 versions.counters.nextFileNumber built.1.usedFileNumbers := by
  obtain ⟨m, hm, -, -, hedits⟩ := reachable_flushed
  have hadded : ∃ built ∈ (flushApplied rotated).2.edits, built.2.addedFiles.length = 1 := by
    decide +kernel
  obtain ⟨built, hbuilt, hlength⟩ := hadded
  obtain ⟨versions, happly, -, -, -, hfresh, -⟩ := hm.accepts_edit (hedits ▸ hbuilt)
  exact ⟨m, hm, built, hedits ▸ hbuilt, hlength, versions, happly, hfresh⟩

/-- **Flush is a barrier.** When a call of `flush` has returned, every batch whose write had
returned before the call began is in the tables, and no memtable holds an entry of it. -/
theorem Reachable.flush_barrier (h : Reachable options m) (hup : m.up = true) {call : FlushCall}
    (hcall : call ∈ m.flushes) (hreturned : call.phase = .returned) {sequence : SequenceNumber}
    (hbefore : sequence ∈ call.before) :
    sequence ≤ m.engine.versions.counters.lastSequence ∧
      (∀ entry ∈ m.engine.mutable.table.entries, entry.key.sequence ≠ sequence) ∧
      ∀ immutable ∈ m.engine.immutables, ∀ entry ∈ immutable.table.entries,
        entry.key.sequence ≠ sequence := by
  have hopen := h.inv.up hup
  have hle := (hopen.calls call hcall).published hreturned sequence hbefore
  refine ⟨hle, fun entry hentry ↦ ?_, fun immutable himmutable entry hentry ↦ ?_⟩
  · exact (hle.trans_lt (hopen.inv.ascending.mutable_above entry hentry).1).ne'
  · exact (hle.trans_lt (hopen.inv.ascending.above immutable himmutable entry hentry).1).ne'

theorem flush_barrier_flushed : ∃ m : Machine, Reachable .new m ∧
    m.flushes = [⟨.returned, [1]⟩] ∧ 1 ≤ m.engine.versions.counters.lastSequence := by
  obtain ⟨m, hm, hup, hflushes, -⟩ := reachable_flushed
  have hcall : (⟨.returned, [1]⟩ : FlushCall) ∈ m.flushes := by
    rw [hflushes]
    exact List.mem_singleton.mpr rfl
  obtain ⟨hle, -⟩ := hm.flush_barrier hup hcall rfl (List.mem_singleton.mpr rfl)
  exact ⟨m, hm, hflushes, hle⟩

end Machine

end MeteorDB
