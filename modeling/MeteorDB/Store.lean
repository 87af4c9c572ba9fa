import MeteorDB.HistoryOpen
import MeteorDB.Snapshot

/-!
# The store and its history

A store is the system of `Crashes` with its snapshots and its clock, and with the history of the
batches that have been committed. The history grows when a write returns. When the process dies in
a write, the batch belongs to the history if its record has reached the log; it is never there in
part. What a process has written outlives it: a crash that also takes written bytes which nobody
has synchronized is not one of the steps.

`Store.Inv` holds in every run: the directory always agrees with the history, so that it could be
recovered at any point; and while the engine is open, so does its memory. From this follow the
results of this module. Every read and every scan returns what the history says about its sequence,
and no crash loses a commit.
-/

namespace MeteorDB

open Attempt Engine

/-! ## The store -/

/-- A system with its snapshots and its clock, and the batches that have been committed. -/
structure Store where
  system : System
  history : List WriteBatch
  guards : List SequenceNumber
  registry : SnapshotRegistry
  clock : U64

/-- Whether the record of a sequence is in a WAL that recovery replays. -/
def Directory.hasRecord (d : Directory) (sequence : SequenceNumber) : Bool :=
  d.pending.any fun segment ↦ segment.records.any fun record ↦ record.sequence = sequence

private theorem Directory.hasRecord_iff {d : Directory} {sequence : SequenceNumber} :
    d.hasRecord sequence = true ↔
      ∃ segment ∈ d.pending, ∃ record ∈ segment.records, record.sequence = sequence := by
  simp [Directory.hasRecord]

namespace Store

/-- The machine of a store. -/
def machine (s : Store) : Machine := s.system.machine

/-- The engine of a store. -/
def engine (s : Store) : Engine := s.machine.engine

/-- What the engine has become after a section other than a write, or inside one if steps of it
fail. Compactions use the oldest snapshot and the clock. -/
inductive Runs (options : Options) (s : Store) (faults : Faults) : Engine → Prop
  | between : Runs options s faults s.engine
  | sync (hup : s.machine.up = true) : Runs options s faults ((Engine.sync faults).exec s.engine).2
  | close (hup : s.machine.up = true) :
      Runs options s faults ((Engine.close faults).exec s.engine).2
  | enterFlush (hup : s.machine.up = true) :
      Runs options s faults ((flushEnter options faults).exec s.engine).2
  | takeFlush (hup : s.machine.up = true) :
      Runs options s faults (Engine.takeFlush.exec s.engine).2
  | build {immutable : ImmutableMemTable} {number : U64} (fileSize : U64)
      (hup : s.machine.up = true) (hworker : s.machine.worker = .building immutable number) :
      Runs options s faults
        ((buildSstable faults number immutable.table fileSize).exec s.engine).2
  | finishFlush {immutable : ImmutableMemTable} {number : U64} {file : Result FileMeta}
      (hup : s.machine.up = true) (hworker : s.machine.worker = .built immutable number file) :
      Runs options s faults ((Engine.finishFlush faults immutable file).exec s.engine).2
  | compact {plan : CompactionPlan} (fileSize : U64 → U64) (hup : s.machine.up = true)
      (hplan : plan ∈ s.machine.plans) :
      Runs options s faults ((executeCompactionPlan options faults s.registry.oldestActive s.clock
        fileSize plan).exec s.engine).2
  | failCompaction {error : Error} (hup : s.machine.up = true) :
      Runs options s faults ((Engine.failCompaction error).exec s.engine).2
  | openEngine (hdown : s.machine.up = false) :
      Runs options s faults ((Engine.openEngine faults).exec s.engine).2

/-- The store with another machine, and some commits more. The snapshots are lost with the
memory. -/
def moveTo (s : Store) (m : Machine) (batches : List WriteBatch) : Store :=
  { s with
    system := ⟨m, s.system.removedBy m.engine⟩
    history := s.history ++ batches
    guards := if m.up then s.guards else []
    registry := if m.up then s.registry else .empty }

/-- The machine once the process has died and some removed WALs are back. -/
def crashed (s : Store) (e : Engine) (back : List WalSegment) : Machine :=
  { s.machine.stop with engine := System.restore e back }

/-- The batch of a write whose record has reached the log. -/
def logged (s : Store) (e : Engine) : Result WriteBatch → List WriteBatch
  | .ok batch => if e.directory.hasRecord s.engine.nextSequence then [batch] else []
  | .error _ => []

/-- WALs that have been removed and may be back after a crash. -/
structure Returns (s : Store) (e : Engine) (back : List WalSegment) : Prop where
  removed : back ⊆ s.system.removedBy e
  nodup : (back.map (·.number)).Nodup
  new : ∀ segment ∈ back, segment.number ∉ e.directory.wals.map (·.number)

/-- Takes a guard for a snapshot. -/
def acquire (s : Store) (sequence : SequenceNumber) : Store :=
  { s with
    guards := s.guards ++ [sequence]
    registry := s.registry.acquire sequence }

/-- Drops a guard. -/
def release (s : Store) (sequence : SequenceNumber) : Store :=
  { s with
    guards := s.guards.erase sequence
    registry := s.registry.release sequence }

/-- One step: a section runs, the process dies in one, a snapshot is taken, shared with an iterator
or dropped, or the clock moves on. -/
inductive Step (options : Options) (s : Store) : Store → Prop
  | run {m : Machine} (h : Machine.Step options s.machine m)
      (hruns : s.Runs options noFaults m.engine) : Step options s (s.moveTo m [])
  | write {batch : WriteBatch} {woken : Bool} {e : Engine} (hup : s.machine.up = true)
      (h : (writeSerialized options noFaults (.ok batch)).exec s.engine = (.ok woken, e)) :
      Step options s (s.moveTo { s.machine with
        engine := e, returned := s.machine.returned ++ [s.machine.engine.nextSequence] } [batch])
  | writeFails {prepare : Result WriteBatch} {error : Error} {e : Engine}
      (hup : s.machine.up = true)
      (h : (writeSerialized options noFaults prepare).exec s.engine = (.error error, e)) :
      Step options s (s.moveTo { s.machine with engine := e } [])
  | crash (faults : Faults) {e : Engine} {back : List WalSegment} (h : s.Runs options faults e)
      (hback : s.Returns e back) : Step options s (s.moveTo (s.crashed e back) [])
  | crashInWrite (faults : Faults) (prepare : Result WriteBatch) {r : Result Bool} {e : Engine}
      {back : List WalSegment} (hup : s.machine.up = true)
      (h : (writeSerialized options faults prepare).exec s.engine = (r, e))
      (hback : s.Returns e back) :
      Step options s (s.moveTo (s.crashed e back) (s.logged e prepare))
  | takeSnapshot (hup : s.machine.up = true) (hopen : s.engine.ensureReadable = .ok ()) :
      Step options s (s.acquire s.engine.committedSequence)
  | shareSnapshot {sequence : SequenceNumber} (hguard : sequence ∈ s.guards) :
      Step options s (s.acquire sequence)
  | dropSnapshot {sequence : SequenceNumber} (hguard : sequence ∈ s.guards) :
      Step options s (s.release sequence)
  | tick (now : U64) : Step options s { s with clock := max s.clock now }

/-- The stores that a new directory can lead to. -/
inductive Reachable (options : Options) : Store → Prop
  | fresh {m : Machine} (h : m.Fresh) (clock : U64) :
      Reachable options ⟨⟨m, []⟩, [], [], .empty, clock⟩
  | step {s s' : Store} (h : Reachable options s) (hstep : Step options s s') : Reachable options s'

/-- The least sequence that may still be read. -/
def floor (s : Store) : ℕ :=
  match s.registry.oldestActive with
  | some sequence => sequence.val
  | none => s.history.length

/-- What holds in every run. -/
structure Inv (options : Options) (s : Store) : Prop where
  machine : s.machine.Inv
  bounded : s.system.Bounded options
  snapshots : s.registry.Represents s.guards
  guards_le : ∀ sequence ∈ s.guards, sequence.val ≤ s.history.length
  down : s.machine.up = false → s.guards = []
  durable : Durable s.history s.floor s.clock s.engine.directory
  recorded : s.machine.up = true → Recorded s.history s.floor s.clock s.engine

variable {options : Options} {faults : Faults} {s : Store}

/-! ## What a section keeps -/

/-- Whatever steps of a section fail, an open engine agrees with the history afterwards. -/
theorem Inv.recorded_runs (h : s.Inv options) (hup : s.machine.up = true) {e : Engine}
    (hruns : s.Runs options faults e) : Recorded s.history s.floor s.clock e := by
  have hopen := h.machine.up hup
  have hinv : Engine.Inv s.engine := hopen.inv
  have hback : Backlog options.maxImmutableMemtables s.engine := h.bounded.up hup
  have hrecorded := h.recorded hup
  cases hruns with
  | between => exact hrecorded
  | sync => exact hrecorded.sync hinv hback
  | close => exact hrecorded.close hinv hback
  | enterFlush => exact hrecorded.flushEnter hinv hback
  | takeFlush => exact hrecorded.takeFlush
  | build fileSize _ hworker =>
    have hflushing := hopen.worker
    rw [hworker] at hflushing
    exact hrecorded.buildSstable hinv hflushing.used_lt
  | finishFlush _ hworker =>
    have hworkerInv := hopen.worker
    rw [hworker] at hworkerInv
    obtain ⟨hflushing, hbuilt⟩ := hworkerInv
    obtain ⟨immutables, himmutables⟩ := List.head?_eq_some_iff.mp hflushing.head
    refine hrecorded.finishFlush hinv hback himmutables fun built hfile ↦ ?_
    obtain ⟨rfl, htable, hcovers⟩ := hbuilt built hfile
    exact ⟨⟨hflushing.used_lt, htable, hcovers⟩, hflushing.lt_next⟩
  | compact fileSize _ hplan =>
    refine hrecorded.executeCompactionPlan hinv (hopen.plans _ hplan).replaceable_of_valid
      (fun snapshot hsnapshot ↦ ?_) (fun hnone ↦ ?_) (le_refl _)
    · rw [floor, Option.mem_def.mp hsnapshot]
    · rw [floor, hnone]
  | failCompaction => exact hrecorded.failCompaction
  | openEngine hdown => exact absurd (hdown.symm.trans hup) Bool.false_ne_true

/-- The same for the directory, also if the engine is not open. -/
theorem Inv.durable_runs (h : s.Inv options) {e : Engine} (hruns : s.Runs options faults e) :
    Durable s.history s.floor s.clock e.directory ∧ ∀ built ∈ e.edits, EditAccepted built := by
  by_cases hup : s.machine.up = true
  · have hrecorded := h.recorded_runs hup hruns
    exact ⟨hrecorded.durable, hrecorded.accepted⟩
  · cases hruns with
    | between => exact ⟨h.durable, h.machine.rest.accepted⟩
    | openEngine =>
      have hopened : wp (Engine.openEngine faults) _ _ :=
        h.durable.openEngine h.bounded.disk h.machine.rest.accepted
      exact ⟨hopened.1, hopened.2.1⟩
    | sync hopen | close hopen | enterFlush hopen | takeFlush hopen | build _ hopen
    | finishFlush hopen | compact _ hopen | failCompaction hopen => exact absurd hopen hup

/-- No section leaves more pending WALs than it may, and only spent WALs are gone. -/
theorem Inv.bounded_runs (h : s.Inv options) {e : Engine} (hruns : s.Runs options faults e) :
    e.directory.Backlog options.maxImmutableMemtables ∧ Retires s.engine e := by
  cases hruns with
  | between => exact h.bounded.dies .between
  | sync hup => exact h.bounded.dies (.sync faults hup)
  | close hup => exact h.bounded.dies (.close faults hup)
  | enterFlush hup => exact h.bounded.dies (.enterFlush faults hup)
  | takeFlush hup =>
    have htake : wp Engine.takeFlush _ _ := (h.bounded.up hup).takeFlush
    exact ⟨htake.1.disk, htake.2.retires⟩
  | build fileSize hup hworker => exact h.bounded.dies (.build faults fileSize hup hworker)
  | finishFlush hup hworker => exact h.bounded.dies (.finishFlush faults hup hworker)
  | compact fileSize hup hplan => exact h.bounded.dies (.compact faults _ _ fileSize hup hplan)
  | @failCompaction error hup =>
    have hfail : wp (Engine.failCompaction error) _ _ := (h.bounded.up hup).failCompaction
    exact ⟨hfail.1.disk, hfail.2.retires⟩
  | openEngine hdown => exact h.bounded.dies (.openEngine faults hdown)

private theorem Inv.writeKept (h : s.Inv options) (hup : s.machine.up = true)
    {prepare : Result WriteBatch} {r : Result Bool} {e : Engine}
    (hexec : (writeSerialized options faults prepare).exec s.engine = (r, e)) :
    WriteKept s.history s.floor s.clock faults prepare r e :=
  wp_of_exec
    ((h.recorded hup).writeSerialized (h.machine.up hup).inv (h.bounded.up hup) rfl) hexec

/-- A write that leaves nothing has logged nothing. -/
theorem Inv.logged_eq_nil (h : s.Inv options) (hup : s.machine.up = true)
    {prepare : Result WriteBatch} {e : Engine}
    (hdurable : Durable s.history s.floor s.clock e.directory) : s.logged e prepare = [] := by
  cases prepare with
  | error error => rfl
  | ok batch =>
    refine if_neg fun hlogged ↦ ?_
    obtain ⟨segment, hsegment, record, hrecord, hsequence⟩ := Directory.hasRecord_iff.mp hlogged
    have hle := (hdurable.logged.faithful segment hsegment record hrecord).2.le_length
    have hnext := (h.recorded hup).next
    rw [hsequence] at hle
    omega

/-- A write that leaves its batch has logged it. -/
theorem Inv.logged_eq_singleton (h : s.Inv options) (hup : s.machine.up = true) {e : Engine}
    {batch : WriteBatch} (hdurable : Durable (s.history ++ [batch]) s.floor s.clock e.directory)
    (hlast : e.directory.manifest.counters.lastSequence.val ≤ s.history.length) :
    s.logged e (.ok batch) = [batch] := by
  have hnext := (h.recorded hup).next
  obtain ⟨segment, hsegment, hrecord⟩ := hdurable.logged.complete s.engine.nextSequence batch
    (committedAt_append_singleton.mpr (.inr ⟨hnext, rfl⟩)) (Fin.lt_def.mpr (by omega))
  exact if_pos (Directory.hasRecord_iff.mpr ⟨segment, hsegment, _, hrecord, rfl⟩)

/-- Whatever step of a write fails, the directory agrees with the history and what has been
logged. -/
theorem Inv.durable_write (h : s.Inv options) (hup : s.machine.up = true)
    {prepare : Result WriteBatch} {r : Result Bool} {e : Engine}
    (hexec : (writeSerialized options faults prepare).exec s.engine = (r, e)) :
    Durable (s.history ++ s.logged e prepare) s.floor s.clock e.directory ∧
      ∀ built ∈ e.edits, EditAccepted built := by
  rcases h.writeKept hup hexec with ⟨-, hrecorded⟩ | ⟨batch, rfl, hlast, hcases⟩
  · rw [h.logged_eq_nil hup hrecorded.durable, List.append_nil]
    exact ⟨hrecorded.durable, hrecorded.accepted⟩
  · obtain ⟨hdurable, haccepted⟩ : Durable (s.history ++ [batch]) s.floor s.clock e.directory ∧
        ∀ built ∈ e.edits, EditAccepted built := by
      rcases hcases with ⟨-, hrecorded⟩ | ⟨-, -, hkept⟩
      · exact ⟨hrecorded.durable, hrecorded.accepted⟩
      · exact hkept
    rw [h.logged_eq_singleton hup hdurable hlast]
    exact ⟨hdurable, haccepted⟩

/-! ## The invariant -/

/-- Nothing that is protected is below the floor. -/
theorem floor_mono {s' : Store} (hsnapshots : s'.registry.Represents s'.guards)
    (hguards : ∀ sequence ∈ s'.guards, s.floor ≤ sequence.val)
    (hlength : s.floor ≤ s'.history.length) : s.floor ≤ s'.floor := by
  show s.floor ≤ match s'.registry.oldestActive with
    | some sequence => sequence.val
    | none => s'.history.length
  cases holdest : s'.registry.oldestActive with
  | some sequence => exact hguards sequence (hsnapshots.oldestActive_eq_some holdest).1
  | none => exact hlength

private theorem Inv.floor_le_guard (h : s.Inv options) {sequence : SequenceNumber}
    (hguard : sequence ∈ s.guards) : s.floor ≤ sequence.val := by
  unfold floor
  cases holdest : s.registry.oldestActive with
  | some oldest => exact (h.snapshots.oldestActive_eq_some holdest).2 sequence hguard
  | none =>
    rw [h.snapshots.oldestActive_eq_none.mp holdest] at hguard
    exact absurd hguard List.not_mem_nil

private theorem Inv.floor_le_length (h : s.Inv options) : s.floor ≤ s.history.length := by
  unfold floor
  cases holdest : s.registry.oldestActive with
  | some oldest => exact h.guards_le oldest (h.snapshots.oldestActive_eq_some holdest).1
  | none => exact le_refl _

/-- A machine with its directory, memory and commits takes over. -/
theorem Inv.moveTo (h : s.Inv options) {m : Machine} {batches : List WriteBatch} (hmachine : m.Inv)
    (hbounded : System.Bounded options ⟨m, s.system.removedBy m.engine⟩)
    (hdurable : Durable (s.history ++ batches) s.floor s.clock m.engine.directory)
    (hrecorded : m.up = true → Recorded (s.history ++ batches) s.floor s.clock m.engine) :
    (s.moveTo m batches).Inv options := by
  have hguards : (s.moveTo m batches).guards ⊆ s.guards := by
    show (if m.up then s.guards else []) ⊆ s.guards
    split_ifs
    · exact List.Subset.refl _
    · exact List.nil_subset _
  have hlength : s.history.length ≤ (s.moveTo m batches).history.length :=
    (List.prefix_append s.history batches).length_le
  have hsnapshots : (s.moveTo m batches).registry.Represents (s.moveTo m batches).guards := by
    show (if m.up then s.registry else .empty).Represents (if m.up then s.guards else [])
    split_ifs
    · exact h.snapshots
    · exact SnapshotRegistry.represents_empty
  have hfloor : s.floor ≤ (s.moveTo m batches).floor :=
    floor_mono hsnapshots (fun sequence hsequence ↦ h.floor_le_guard (hguards hsequence))
      (h.floor_le_length.trans hlength)
  exact ⟨hmachine, hbounded, hsnapshots,
    fun sequence hsequence ↦ (h.guards_le sequence (hguards hsequence)).trans hlength,
    fun hdown ↦ if_neg (Bool.eq_false_iff.mp hdown), hdurable.mono hfloor (le_refl _),
    fun hup ↦ (hrecorded hup).mono hfloor (le_refl _)⟩

/-- The process dies. The WALs that are back are not pending. -/
theorem Inv.crashed (h : s.Inv options) {e : Engine} {back : List WalSegment}
    {batches : List WriteBatch} (hback : s.Returns e back)
    (hdurable : Durable (s.history ++ batches) s.floor s.clock e.directory)
    (haccepted : ∀ built ∈ e.edits, EditAccepted built)
    (hdisk : e.directory.Backlog options.maxImmutableMemtables) (hretires : Retires s.engine e) :
    (s.moveTo (s.crashed e back) batches).Inv options := by
  have hspent : ∀ segment ∈ back, segment.Spent e.directory.manifest.counters :=
    fun segment hsegment ↦ h.bounded.spent_removedBy hretires segment (hback.removed hsegment)
  have hrestored := System.backlog_restore hdisk hspent hback.nodup hback.new
  have hmap : e.directory.wals.map (·.number)
      ⊆ (System.restore e back).directory.wals.map (·.number) := by
    show _ ⊆ (e.directory.wals ++ back).map _
    rw [List.map_append]
    exact List.subset_append_left _ _
  have hretires' : Retires s.engine (System.restore e back) :=
    ⟨hretires.counters, fun segment hsegment ↦
      (hretires.removed segment hsegment).imp_left fun hmem ↦ hmap hmem⟩
  have hcrashed : Durable (s.history ++ batches) s.floor s.clock
      (System.restore e back).directory := by
    refine hdurable.wals (fun segment ↦ ?_) fun number _ hmem ↦ hmap hmem
    rw [Directory.mem_pending, Directory.mem_pending]
    refine and_congr_left fun ⟨hne, hlog⟩ ↦ List.mem_append.trans (or_iff_left fun hmem ↦ ?_)
    exact hne ((hspent segment hmem).records hlog)
  refine h.moveTo ⟨⟨hcrashed.sound, haccepted, fun segment hsegment ↦ ?_⟩, nofun⟩
    ⟨hrestored, h.bounded.spent_removedBy hretires', nofun⟩ hcrashed nofun
  exact (hrestored.written segment hsegment).number_ne

/-- Other guards take over, none of them below the floor. -/
theorem Inv.withGuards (h : s.Inv options) {guards : List SequenceNumber}
    {registry : SnapshotRegistry} (hsnapshots : registry.Represents guards)
    (hguards : ∀ guard ∈ guards, s.floor ≤ guard.val ∧ guard.val ≤ s.history.length)
    (hdown : s.machine.up = false → guards = []) : { s with guards, registry }.Inv options := by
  have hmono : s.floor ≤ { s with guards, registry }.floor :=
    floor_mono hsnapshots (fun guard hguard ↦ (hguards guard hguard).1) h.floor_le_length
  exact ⟨h.machine, h.bounded, hsnapshots, fun guard hguard ↦ (hguards guard hguard).2, hdown,
    h.durable.mono hmono (le_refl _), fun hup ↦ (h.recorded hup).mono hmono (le_refl _)⟩

/-- A guard is taken at a sequence that may be read. -/
theorem Inv.acquire (h : s.Inv options) (hup : s.machine.up = true) {sequence : SequenceNumber}
    (hfloor : s.floor ≤ sequence.val) (hle : sequence.val ≤ s.history.length) :
    (s.acquire sequence).Inv options := by
  refine h.withGuards (h.snapshots.acquire sequence) (List.forall_mem_append.mpr ⟨?_, ?_⟩)
    fun hdown ↦ absurd (hdown.symm.trans hup) Bool.false_ne_true
  · exact fun guard hguard ↦ ⟨h.floor_le_guard hguard, h.guards_le guard hguard⟩
  · exact List.forall_mem_singleton.mpr ⟨hfloor, hle⟩

theorem Inv.release (h : s.Inv options) (sequence : SequenceNumber) :
    (s.release sequence).Inv options := by
  refine h.withGuards (h.snapshots.release sequence) (fun guard hguard ↦ ?_) fun hdown ↦ ?_
  · have hmem : guard ∈ s.guards := List.erase_subset hguard
    exact ⟨h.floor_le_guard hmem, h.guards_le guard hmem⟩
  · rw [h.down hdown]
    rfl

/-- The sequence of the last commit is the length of the history. -/
theorem Inv.committedSequence_eq (h : s.Inv options) (hup : s.machine.up = true) :
    s.engine.committedSequence.val = s.history.length := (h.recorded hup).saturatingPred_next

/-- A machine that is open after a step agrees with the history. -/
theorem Inv.recorded_step (h : s.Inv options) {m : Machine}
    (hstep : Machine.Step options s.machine m) (hruns : s.Runs options noFaults m.engine)
    (hup : m.up = true) : Recorded s.history s.floor s.clock m.engine := by
  by_cases hopen : s.machine.up = true
  · exact h.recorded_runs hopen hruns
  · -- Only opening starts from a machine that is down.
    cases hstep with
    | stop => exact absurd hup Bool.false_ne_true
    | @openEngine r e hdown hexec =>
      obtain ⟨-, -, hrecorded⟩ := wp_of_exec
        (h.durable.openEngine h.bounded.disk h.machine.rest.accepted) hexec
      cases r with
      | error error => exact absurd hup Bool.false_ne_true
      | ok u => exact hrecorded rfl
    | write _ hup | writeFails _ hup | sync hup | close hup | callFlush hup | enterFlush _ hup
    | enterFlushFails _ hup | drainFlush _ hup | drainFlushFails _ hup | takeFlush hup
    | takeNothing hup | build _ hup | finishFlush hup | pick _ _ hup | compact _ _ _ hup
    | failCompaction hup => exact absurd hup hopen

/-- One step keeps the invariant. -/
theorem Inv.step {s' : Store} (h : s.Inv options) (hstep : Step options s s') : s'.Inv options := by
  cases hstep with
  | run hstep hruns =>
    refine h.moveTo (h.machine.step hstep) (h.bounded.run hstep) ?_ fun hup ↦ ?_
    · rw [List.append_nil]
      exact (h.durable_runs hruns).1
    · rw [List.append_nil]
      exact h.recorded_step hstep hruns hup
  | @write batch woken e hup hexec =>
    have hstep : Machine.Step options s.machine _ := .write (.ok batch) hup hexec
    rcases h.writeKept hup hexec with ⟨⟨error, hr⟩, -⟩ | ⟨_, hbatch, -, hcases⟩
    · cases hr
    · obtain rfl := Except.ok.inj hbatch
      rcases hcases with ⟨-, hrecorded⟩ | ⟨-, hfault, -⟩
      · exact h.moveTo (h.machine.step hstep) (h.bounded.run hstep) hrecorded.durable
          fun _ ↦ hrecorded
      · exact absurd rfl hfault
  | @writeFails prepare error e hup hexec =>
    have hstep : Machine.Step options s.machine _ := .writeFails prepare hup hexec
    rcases h.writeKept hup hexec with ⟨-, hrecorded⟩ | ⟨_, -, -, ⟨⟨woken, hr⟩, -⟩ | ⟨-, hfault, -⟩⟩
    · rw [← List.append_nil s.history] at hrecorded
      exact h.moveTo (h.machine.step hstep) (h.bounded.run hstep) hrecorded.durable
        fun _ ↦ hrecorded
    · cases hr
    · exact absurd rfl hfault
  | crash faults hruns hback =>
    obtain ⟨hdurable, haccepted⟩ := h.durable_runs hruns
    obtain ⟨hdisk, hretires⟩ := h.bounded_runs hruns
    exact h.crashed hback ((List.append_nil s.history).symm ▸ hdurable) haccepted hdisk hretires
  | crashInWrite faults prepare hup hexec hback =>
    obtain ⟨hdurable, haccepted⟩ := h.durable_write hup hexec
    obtain ⟨hbacklog, hlogs⟩ := wp_of_exec ((h.bounded.up hup).writeSerialized rfl) hexec
    exact h.crashed hback hdurable haccepted hbacklog.disk hlogs.retires
  | takeSnapshot hup _ =>
    have hcommitted := h.committedSequence_eq hup
    exact h.acquire hup (h.floor_le_length.trans hcommitted.ge) hcommitted.le
  | shareSnapshot hguard =>
    refine h.acquire ?_ (h.floor_le_guard hguard) (h.guards_le _ hguard)
    by_contra hdown
    rw [h.down (Bool.eq_false_iff.mpr hdown)] at hguard
    exact absurd hguard List.not_mem_nil
  | dropSnapshot hguard => exact h.release _
  | tick now =>
    exact ⟨h.machine, h.bounded, h.snapshots, h.guards_le, h.down,
      h.durable.mono (le_refl _) (le_max_left _ _),
      fun hup ↦ (h.recorded hup).mono (le_refl _) (le_max_left _ _)⟩

/-- An empty directory agrees with an empty history. -/
theorem durable_fresh {m : Machine} (h : m.Fresh) (floor : ℕ) (clock : U64) :
    Durable [] floor clock m.engine.directory := by
  rw [h.1]
  refine ⟨.fresh, ?_, ⟨nofun, fun sequence batch hcommitted ↦ ?_, nofun, nofun⟩, le_refl _,
    le_refl _, by decide, ?_⟩
  · have hempty : (Version.empty.entries (contentsOf fun _ ↦ none)) = ∅ :=
      Set.eq_empty_of_forall_notMem fun entry ⟨_, _, hfile, _⟩ ↦ absurd hfile List.not_mem_nil
    show Presents [] floor clock 0 (Version.empty.entries _)
    rw [hempty]
    exact presents_empty
  · have := hcommitted.pos
    have : sequence.val ≤ 0 := hcommitted.le_length
    omega
  · intro number hnumber hne
    simp at hnumber
    exact absurd hnumber hne

/-- **The invariant of all runs.** -/
theorem Reachable.inv (h : Reachable options s) : s.Inv options := by
  induction h with
  | @fresh m hfresh clock =>
    have hdown := hfresh.2.2
    refine ⟨hfresh.inv, (System.Reachable.fresh hfresh).bounded, SnapshotRegistry.represents_empty,
      nofun, fun _ ↦ rfl, durable_fresh hfresh _ _,
      fun hup ↦ absurd (hdown.symm.trans hup) Bool.false_ne_true⟩
  | step _ hstep ih => exact ih.step hstep

/-! ## Reading -/

/-- The memory and the tables together present the whole history. -/
theorem Inv.presents (h : s.Inv options) (hup : s.machine.up = true) :
    Presents s.history s.floor s.clock s.history.length s.engine.entries := by
  have hrecorded := h.recorded hup
  have hmanifest : s.engine.directory.manifest = s.engine.versions :=
    (h.machine.up hup).inv.manifest
  have hdurable := hrecorded.durable
  have hpresents := hdurable.presents
  have hsequence := hdurable.sound.sequence_le
  have hlast := hdurable.last_le
  rw [hmanifest] at hpresents hsequence hlast
  rw [Engine.entries, Set.union_comm, hrecorded.mem]
  refine hpresents.add hsequence hlast (fun entry ↦ (and_iff_left_of_imp ?_).symm)
    hdurable.length_lt
  rintro ⟨sequence, batch, -, hcommitted, hentry⟩
  rw [(mem_batchEntries hentry).1]
  exact hcommitted.le_length

/-- What is visible at a sequence that may be read. -/
theorem Inv.visible_eq (h : s.Inv options) (hup : s.machine.up = true) {sequence : SequenceNumber}
    (hfloor : s.floor ≤ sequence.val) (hle : sequence.val ≤ s.history.length) {readTimeUnixMs : U64}
    (htime : s.clock ≤ readTimeUnixMs) (key : Bytes) :
    ((s.engine.visible key sequence).bind fun entry ↦ entry.record.intoValue readTimeUnixMs)
      = valueAt s.history sequence.val key readTimeUnixMs := by
  have hanswer : Answers s.engine.entries key sequence (s.engine.visible key sequence) :=
    (h.machine.up hup).inv.core.answers_visible key sequence
  rw [h.presents hup key sequence readTimeUnixMs _ hfloor htime hanswer, min_eq_left hle]

/-- The sequences of snapshots and the one of the last commit may be read. -/
theorem Inv.readable (h : s.Inv options) (hup : s.machine.up = true) {sequence : SequenceNumber}
    (hsequence : sequence ∈ s.guards ∨ sequence = s.engine.committedSequence) :
    s.floor ≤ sequence.val ∧ sequence.val ≤ s.history.length := by
  rcases hsequence with hguard | rfl
  · exact ⟨h.floor_le_guard hguard, h.guards_le sequence hguard⟩
  · have hcommitted := h.committedSequence_eq hup
    exact ⟨h.floor_le_length.trans hcommitted.ge, hcommitted.le⟩

/-- A read at a sequence that may be read. -/
theorem Inv.getFromState_eq (h : s.Inv options) (hup : s.machine.up = true)
    {sequence : SequenceNumber}
    (hsequence : sequence ∈ s.guards ∨ sequence = s.engine.committedSequence) {readTimeUnixMs : U64}
    (htime : s.clock ≤ readTimeUnixMs) (key : Bytes) :
    s.engine.getFromState s.engine.directory.tables key sequence readTimeUnixMs
      = .ok (valueAt s.history sequence.val key readTimeUnixMs) := by
  obtain ⟨hfloor, hle⟩ := h.readable hup hsequence
  have hcore : Core s.engine := (h.machine.up hup).inv.core
  rw [hcore.getFromState_eq (fun _ _ ↦ rfl) (hle.trans_lt h.durable.length_lt),
    h.visible_eq hup hfloor hle htime]

/-- The tables of the current version are on disk, whatever else there is. -/
def KeepsLive (s : Store) (tables : U64 → Option (List InternalEntry)) : Prop :=
  ∀ level, ∀ file ∈ s.engine.versions.version.levels level,
    tables file.number = s.engine.directory.tables file.number

theorem KeepsLive.getFromState_eq {tables : U64 → Option (List InternalEntry)}
    (h : s.KeepsLive tables) (key : Bytes) (sequence : SequenceNumber) (readTimeUnixMs : U64) :
    s.engine.getFromState tables key sequence readTimeUnixMs
      = s.engine.getFromState s.engine.directory.tables key sequence readTimeUnixMs := by
  have hfind : findInTables tables s.engine.versions.version key sequence
      = findInTables s.engine.directory.tables s.engine.versions.version key sequence := by
    refine findSomeM?_congr fun file hfile ↦ ?_
    obtain ⟨level, hlevel, -⟩ := Version.mem_candidates.mp hfile
    rw [readTable, readTable, h level file hlevel]
  rw [getFromState, getFromState, hfind]

private theorem KeepsLive.scanFromState_eq {tables : U64 → Option (List InternalEntry)}
    (h : s.KeepsLive tables) (bounds : ScanBounds) (limit : ℕ) (sequence : SequenceNumber)
    (readTimeUnixMs : U64) :
    scanFromState s.engine.mutable.table (s.engine.immutables.map (·.table))
        s.engine.versions.version (fun file ↦ (readTable tables file).map (·.map .ok)) bounds limit
        sequence readTimeUnixMs
      = scanFromState s.engine.mutable.table (s.engine.immutables.map (·.table))
        s.engine.versions.version
        (fun file ↦ (readTable s.engine.directory.tables file).map (·.map .ok)) bounds limit
        sequence readTimeUnixMs := by
  unfold scanFromState
  dsimp only
  rw [Decoder.mapM_congr fun file hfile ↦ ?_]
  obtain ⟨level, -, hlevel⟩ := List.mem_flatMap.mp (List.mem_of_mem_filter hfile)
  rw [readTable, readTable, h level file hlevel]

/-- **Point reads read the history.** In every run, a read of the current state or of a snapshot
that is held returns what the last commit of the key up to its sequence has left at that time. -/
theorem Reachable.get_history (h : Reachable options s) (hup : s.machine.up = true)
    (hopen : s.engine.ensureReadable = .ok ()) {tables : U64 → Option (List InternalEntry)}
    (htables : s.KeepsLive tables) {key : Bytes} (hkey : key.length ≤ options.maxKeyBytes)
    {readTimeUnixMs : U64} (htime : s.clock ≤ readTimeUnixMs) :
    s.engine.get options tables key readTimeUnixMs
        = .ok (valueAt s.history s.history.length key readTimeUnixMs) ∧
      ∀ sequence ∈ s.guards, s.engine.getAt options tables key sequence readTimeUnixMs
        = .ok (valueAt s.history sequence.val key readTimeUnixMs) := by
  have hread : ∀ sequence, sequence ∈ s.guards ∨ sequence = s.engine.committedSequence →
      s.engine.getAt options tables key sequence readTimeUnixMs
        = .ok (valueAt s.history sequence.val key readTimeUnixMs) := by
    intro sequence hsequence
    have hlength : validateLength "key" key.length "max_key_bytes" options.maxKeyBytes = .ok () :=
      if_neg (not_lt.mpr hkey)
    rw [getAt, hopen, hlength]
    exact (htables.getFromState_eq key sequence readTimeUnixMs).trans
      (h.inv.getFromState_eq hup hsequence htime key)
  refine ⟨?_, fun sequence hguard ↦ hread sequence (.inl hguard)⟩
  rw [← h.inv.committedSequence_eq hup]
  exact hread _ (.inr rfl)

/-- **Scans read the history.** In every run, a scan of the current state or of a snapshot that is
held yields the values that the commits up to its sequence have left, in key order. -/
theorem Reachable.scan_history (h : Reachable options s) (hup : s.machine.up = true)
    (hopen : s.engine.ensureReadable = .ok ()) {sequence : SequenceNumber}
    (hsequence : sequence ∈ s.guards ∨ sequence = s.engine.committedSequence)
    {tables : U64 → Option (List InternalEntry)} (htables : s.KeepsLive tables)
    {bounds : ScanBounds} (hbounds : validateScanBounds options bounds = .ok ()) (limit : ℕ)
    {readTimeUnixMs : U64} (htime : s.clock ≤ readTimeUnixMs) :
    ∃ it pairs, s.engine.scanAt options tables bounds limit sequence readTimeUnixMs = .ok it ∧
      OrderedList.Increasing Prod.fst pairs ∧
      (∀ key value, (key, value) ∈ pairs ↔ userKeyInBounds bounds key = true ∧
        valueAt s.history sequence.val key readTimeUnixMs = some value) ∧
      ∀ i, it.output i = (pairs.take limit)[i]?.map .ok := by
  obtain ⟨hfloor, hle⟩ := h.inv.readable hup hsequence
  obtain ⟨it, pairs, hit, hincreasing, hmem, houtput⟩ :=
    (h.inv.machine.up hup).inv.core.exists_scan (fun _ _ ↦ rfl) bounds limit sequence readTimeUnixMs
  have hmem : ∀ key value, (key, value) ∈ pairs ↔ userKeyInBounds bounds key = true ∧
      valueAt s.history sequence.val key readTimeUnixMs = some value := by
    intro key value
    rw [hmem, ← h.inv.visible_eq hup hfloor hle htime]
    rfl
  rw [scanAt_eq hopen hbounds]
  by_cases hlimit : limit = 0
  · subst hlimit
    refine ⟨.empty bounds sequence readTimeUnixMs, pairs, if_pos rfl, hincreasing, hmem, fun i ↦ ?_⟩
    rw [List.take_zero, KvIterator.output_of_stopped (.inr rfl)]
    rfl
  · refine ⟨it, pairs, ?_, hincreasing, hmem, houtput⟩
    rw [if_neg hlimit]
    exact (htables.scanFromState_eq bounds limit sequence readTimeUnixMs).trans hit

/-! ### A run

A new directory is opened and a batch is written. A snapshot is taken before a second batch deletes
the key of the first. -/

private def firstBatch : WriteBatch := ⟨[.put [7] [1] none]⟩

private def secondBatch : WriteBatch := ⟨[.delete [7], .put [8] [2] none]⟩

private def freshStore : Store :=
  ⟨⟨⟨Machine.newEngine, false, .idle, [], [], [], []⟩, []⟩, [], [], .empty, 0⟩

private def openedStore : Store :=
  freshStore.moveTo ⟨Machine.opened, true, .idle, [], [], [], []⟩ []

/-- The store once a batch has been written. -/
private def after (s : Store) (batch : WriteBatch) : Store :=
  s.moveTo { s.machine with
    engine := ((writeSerialized .new noFaults (.ok batch)).exec s.engine).2
    returned := s.machine.returned ++ [s.machine.engine.nextSequence] } [batch]

private theorem Reachable.after {batch : WriteBatch} (h : Reachable .new s)
    (hup : s.machine.up = true)
    (hok : ((writeSerialized .new noFaults (.ok batch)).exec s.engine).1 = .ok false) :
    Reachable .new (s.after batch) :=
  h.step (.write hup (Prod.ext hok rfl))

private def writtenStore : Store := openedStore.after firstBatch

private def heldStore : Store :=
  (writtenStore.acquire writtenStore.engine.committedSequence).after secondBatch

private theorem reachable_writtenStore : Reachable .new writtenStore := by
  have hfresh : Reachable .new freshStore := .fresh ⟨rfl, rfl, rfl⟩ 0
  have hmachine : Machine.Step .new freshStore.machine _ :=
    .openEngine rfl Machine.openEngine_newEngine
  have hruns : freshStore.Runs .new noFaults Machine.opened := .openEngine rfl
  have hopened : Reachable .new openedStore := hfresh.step (.run hmachine hruns)
  exact hopened.after rfl (by decide +kernel)

private theorem reachable_heldStore : Reachable .new heldStore :=
  (reachable_writtenStore.step (.takeSnapshot rfl (by decide +kernel))).after rfl
    (by decide +kernel)

/-- The snapshot still has the value that the second batch deletes. -/
theorem scan_history_held : ∃ (it : KvIterator) (pairs : List (Bytes × Bytes)),
    heldStore.engine.scanAt .new heldStore.engine.directory.tables ⟨.unbounded, .unbounded⟩ 5 1 0
        = .ok it ∧
      ([7], [1]) ∈ pairs ∧ (∀ value, ([8], value) ∉ pairs) ∧
      ∀ i, it.output i = (pairs.take 5)[i]?.map .ok := by
  have hguard : (1 : SequenceNumber) ∈ heldStore.guards := by decide +kernel
  have hbounds : validateScanBounds .new ⟨.unbounded, .unbounded⟩ = .ok () := rfl
  have htime : heldStore.clock ≤ (0 : U64) := le_refl _
  obtain ⟨it, pairs, hit, -, hmem, houtput⟩ := reachable_heldStore.scan_history rfl
    (by decide +kernel) (.inl hguard) (fun _ _ _ ↦ rfl) hbounds 5 htime
  refine ⟨it, pairs, hit, (hmem _ _).mpr ⟨rfl, by decide +kernel⟩, fun value hvalue ↦ ?_, houtput⟩
  have hnone : valueAt heldStore.history 1 [8] 0 = none := by decide +kernel
  cases hnone.symm.trans ((hmem _ _).mp hvalue).2

private def rotatedEngine : Engine := ((flushEnter .new noFaults).exec heldStore.engine).2

section

variable {m m' : Machine} {removed : List WalSegment} {history : List WriteBatch}
  {guards : List SequenceNumber} {registry : SnapshotRegistry} {clock : U64}

/-- A step after which the engine is open leaves the history and the snapshots as they are. -/
private theorem Reachable.exists_run
    (h : Reachable options ⟨⟨m, removed⟩, history, guards, registry, clock⟩)
    (hstep : Machine.Step options m m') {e : Engine}
    (hruns : Runs options ⟨⟨m, removed⟩, history, guards, registry, clock⟩ noFaults e)
    (he : e = m'.engine) (hup : m'.up = true) :
    ∃ removed', Reachable options ⟨⟨m', removed'⟩, history, guards, registry, clock⟩ := by
  have hmoved := h.step (.run hstep (he ▸ hruns))
  rw [moveTo, if_pos hup, if_pos hup, List.append_nil] at hmoved
  exact ⟨_, hmoved⟩

/-- A call of `flush`, until the worker has published the memtable that it rotates. -/
private theorem Reachable.exists_flushed
    (h : Reachable options ⟨⟨m, removed⟩, history, guards, registry, clock⟩) (hup : m.up = true)
    (hworker : m.worker = .idle) {e : Engine} {woken : Bool}
    (henter : (flushEnter options noFaults).exec m.engine = (.ok (.waitingForFlushes, woken), e))
    (htask : (Machine.flushTask e).2 ≠ 0)
    (hedit : (Machine.flushApplied e).1 = .ok ()) :
    ∃ m' removed', Reachable options ⟨⟨m', removed'⟩, history, guards, registry, clock⟩ ∧
      m'.up = true ∧ m'.engine.versions = (Machine.flushApplied e).2.versions ∧
      m'.engine.ensureReadable = (Machine.flushApplied e).2.ensureReadable := by
  have hcall : (m.flushes ++ [⟨.called, m.returned⟩])[m.flushes.length]?
      = some ⟨.called, m.returned⟩ := List.getElem?_concat_length
  have htake := Machine.takeFlush_exec htask
  obtain ⟨wals, walNumbers, hfinish⟩ := Machine.exists_finishFlush hedit
  obtain ⟨_, hcalled⟩ := h.exists_run (.callFlush hup) .between rfl hup
  obtain ⟨_, hentered⟩ := hcalled.exists_run (.enterFlush _ hup hcall (.inl rfl) henter)
    (.enterFlush hup) (congrArg Prod.snd henter) hup
  obtain ⟨_, htaken⟩ := hentered.exists_run (.takeFlush hup hworker htake) (.takeFlush hup) rfl hup
  obtain ⟨_, hbuilt⟩ := htaken.exists_run (.build 1 hup rfl rfl) (.build 1 hup rfl) rfl hup
  obtain ⟨_, hfinished⟩ := hbuilt.exists_run (.finishFlush hup rfl hfinish)
    (.finishFlush hup rfl) (congrArg Prod.snd hfinish) hup
  exact ⟨_, _, hfinished, hup, rfl, rfl⟩

end

/-- The second batch deletes a key that the snapshot still has. Both are read from a table. -/
theorem get_history_flushed : ∃ s : Store, Reachable .new s ∧
    s.engine.versions.version.levels 0 ≠ [] ∧ s.guards = [1] ∧
    s.engine.getAt .new s.engine.directory.tables [7] 1 0 = .ok (some [1]) ∧
    s.engine.get .new s.engine.directory.tables [7] 0 = .ok none ∧
    s.engine.get .new s.engine.directory.tables [8] 0 = .ok (some [2]) := by
  have henter : (flushEnter .new noFaults).exec heldStore.engine
      = (.ok (.waitingForFlushes, true), rotatedEngine) := Prod.ext (by decide +kernel) rfl
  obtain ⟨m, removed, hs, hup, hversions, hreadable⟩ :=
    reachable_heldStore.exists_flushed rfl rfl henter (by decide +kernel) (by decide +kernel)
  have hopen : m.engine.ensureReadable = .ok () := hreadable.trans (by decide +kernel)
  have hguards : heldStore.guards = [1] := by decide +kernel
  have htime : heldStore.clock ≤ (0 : U64) := le_refl _
  have hget : ∀ key : Bytes, key.length ≤ Options.new.maxKeyBytes → _ := fun key hkey ↦
    hs.get_history hup hopen (fun _ _ _ ↦ rfl) hkey htime
  have hold : valueAt heldStore.history 1 [7] 0 = some [1] := by decide +kernel
  have hdeleted : valueAt heldStore.history heldStore.history.length [7] 0 = none := by
    decide +kernel
  have hnew : valueAt heldStore.history heldStore.history.length [8] 0 = some [2] := by
    decide +kernel
  refine ⟨_, hs, ?_, hguards,
    ((hget [7] (by decide)).2 1 (hguards ▸ List.mem_singleton.mpr rfl)).trans (congrArg _ hold),
    (hget [7] (by decide)).1.trans (congrArg _ hdeleted),
    (hget [8] (by decide)).1.trans (congrArg _ hnew)⟩
  show m.engine.versions.version.levels 0 ≠ []
  rw [hversions]
  decide +kernel

/-! ## Recovery -/

/-- The history only grows. -/
theorem Reachable.steps {s' : Store} (h : Reachable options s)
    (hsteps : Relation.ReflTransGen (Step options) s s') :
    Reachable options s' ∧ s.history <+: s'.history := by
  induction hsteps with
  | refl => exact ⟨h, List.prefix_refl _⟩
  | tail _ hstep ih =>
    refine ⟨ih.1.step hstep, ih.2.trans ?_⟩
    cases hstep with
    | run | write | writeFails | crash | crashInWrite => exact List.prefix_append _ _
    | takeSnapshot | shareSnapshot | dropSnapshot | tick => exact List.prefix_refl _

/-- An engine that has just been opened can be read. -/
theorem wp_openEngine_readable {e : Engine} :
    wp (Engine.openEngine faults) (fun r e' ↦ r = .ok () → e'.ensureReadable = .ok ()) e := by
  refine wp_mono openEngine_opens fun r e' hopens ↦ ?_
  cases hopens with
  | refused | created | unedited | edited => exact nofun
  | opened => exact fun _ ↦ rfl

/-- **No commit is lost.** Whatever happens after a state, crashes at any point included, the engine
can be opened again as long as there are file numbers left, and then it has exactly the commits of
the history, which begins with the commits of that state. -/
theorem Reachable.reopen_history {s' : Store} (h : Reachable options s)
    (hsteps : Relation.ReflTransGen (Step options) s s') (hdown : s'.machine.up = false)
    {r : Result Unit} {e : Engine}
    (hopen : (Engine.openEngine noFaults).exec s'.engine = (r, e)) :
    (r = .ok () ↔ s'.engine.directory.HasRoom) ∧
      (r = .ok () → s.history <+: s'.history ∧ e.ensureReadable = .ok () ∧
        e.committedSequence.val = s'.history.length ∧
        ∀ key readTimeUnixMs, s'.clock ≤ readTimeUnixMs →
          e.getFromState e.directory.tables key e.committedSequence readTimeUnixMs
            = .ok (valueAt s'.history s'.history.length key readTimeUnixMs)) := by
  obtain ⟨hreachable, hgrows⟩ := h.steps hsteps
  have hroom := wp_of_exec
    (hreachable.inv.durable.openEngine_eq_ok hreachable.inv.bounded.disk) hopen
  refine ⟨hroom, fun hok ↦ ?_⟩
  subst hok
  -- Opening is one more step.
  have hmachine : Machine.Step options s'.machine _ := .openEngine hdown hopen
  have hruns : s'.Runs options noFaults e := by
    have hopened : s'.Runs options noFaults _ := .openEngine hdown
    rwa [hopen] at hopened
  have hinv := (hreachable.step (.run hmachine hruns)).inv
  have hhistory : (s'.moveTo { s'.machine.stop with engine := e, up := true } []).history
      = s'.history := List.append_nil _
  refine ⟨hgrows, wp_of_exec wp_openEngine_readable hopen rfl,
    (hinv.committedSequence_eq rfl).trans (congrArg List.length hhistory),
    fun key readTimeUnixMs htime ↦ (hinv.getFromState_eq rfl (.inr rfl) htime key).trans ?_⟩
  rw [hinv.committedSequence_eq rfl, ← hhistory]
  rfl

/-- The append fails, but the record is in the log. -/
private def failAfterAppend : Faults
  | .appendWal => some ⟨.closed, true⟩
  | _ => none

private def diedEngine : Engine :=
  ((writeSerialized .new failAfterAppend (.ok secondBatch)).exec writtenStore.engine).2

private def crashedStore : Store :=
  writtenStore.moveTo (writtenStore.crashed diedEngine [])
    (writtenStore.logged diedEngine (.ok secondBatch))

private def reopenedEngine : Engine := ((Engine.openEngine noFaults).exec crashedStore.engine).2

/-- The second batch had been logged when the process died, and it is there as a whole. -/
theorem reopen_history_crashed : writtenStore.history.length = 1 ∧
    (Engine.openEngine noFaults).exec crashedStore.engine = (.ok (), reopenedEngine) ∧
      reopenedEngine.committedSequence = 2 ∧
      reopenedEngine.getFromState reopenedEngine.directory.tables [7]
        reopenedEngine.committedSequence 0 = .ok none ∧
      reopenedEngine.getFromState reopenedEngine.directory.tables [8]
        reopenedEngine.committedSequence 0 = .ok (some [2]) := by
  have hcrash : Step .new writtenStore crashedStore :=
    .crashInWrite failAfterAppend (.ok secondBatch) rfl rfl ⟨List.nil_subset _, .nil, nofun⟩
  have hopen : (Engine.openEngine noFaults).exec crashedStore.engine = (.ok (), reopenedEngine) :=
    Prod.ext (by decide +kernel) rfl
  obtain ⟨-, hreopen⟩ := reachable_writtenStore.reopen_history (.single hcrash) rfl hopen
  obtain ⟨-, -, hcommitted, hget⟩ := hreopen rfl
  have htime : crashedStore.clock ≤ (0 : U64) := le_refl _
  refine ⟨rfl, hopen, Fin.ext (hcommitted.trans (by decide +kernel)),
    (hget [7] 0 htime).trans ?_, (hget [8] 0 htime).trans ?_⟩
  · decide +kernel
  · decide +kernel

end Store

end MeteorDB
