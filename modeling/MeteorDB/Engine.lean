import MeteorDB.Lib.Attempt
import MeteorDB.Compaction
import MeteorDB.Memtable
import MeteorDB.Wal

/-!
# The engine

The state behind the engine's lock, and the sections of code that run with the lock held: a write,
a rotation of the memtable, the two halves of a background flush, a synchronization, a compaction,
closing, and opening. Waiting and waking are not here; a section that wakes the worker says so in
its result.

The directory is described by what the engine reads back from it: the state its manifest leads to,
the batches that replaying each WAL returns, and the entries of each table. A filesystem step may
fail, with or without having taken effect. A crash inside a section is a failure of one of its steps
after which the memory is forgotten.

Every edit that is handed to the version set is kept, with the state it was meant for.
-/

namespace MeteorDB

open CrashFs

/-! ## The directory -/

/-- A WAL file: its number, and the batches that replaying it returns. -/
structure WalSegment where
  number : U64
  records : List RecoveredBatch

/-- A database directory. -/
structure Directory where
  manifest : VersionState
  wals : List WalSegment
  tables : U64 → Option (List InternalEntry)

namespace Directory

/-- Adds an empty WAL to a directory. -/
def addWal (directory : Directory) (number : U64) : Directory :=
  { directory with wals := directory.wals ++ [⟨number, []⟩] }

/-- Appends a record to a WAL. -/
def appendWal (directory : Directory) (number : U64) (record : RecoveredBatch) :
    Directory :=
  { directory with wals := directory.wals.map fun segment ↦
      if segment.number = number then { segment with records := segment.records ++ [record] }
      else segment }

/-- Removes a WAL. -/
def removeWal (directory : Directory) (number : U64) : Directory :=
  { directory with wals := directory.wals.filter (·.number ≠ number) }

/-- Writes a table. -/
def addTable (directory : Directory) (number : U64) (entries : List InternalEntry) :
    Directory :=
  { directory with tables := Function.update directory.tables number (some entries) }

end Directory

/-- The steps of the engine that use the filesystem. -/
inductive IoStep where
  | createWal (number : U64)
  | appendWal
  | readWal (number : U64)
  | syncWal (number : U64)
  | removeWal (number : U64)
  | syncWalRetirement
  | readTable (number : U64)
  | buildTable (number : U64)
  | syncTables
  | reclaimTables
  | editManifest
  deriving DecidableEq

/-- A failed step: the error, and whether the step took effect nevertheless. -/
structure Failure where
  error : Error
  effective : Bool

/-- Which steps of a section fail. -/
abbrev Faults := IoStep → Option Failure

def noFaults : Faults := fun _ ↦ none

/-- A step with an effect. -/
def perform {σ : Type} (faults : Faults) (step : IoStep) (effect : σ → σ) :
    Attempt σ Error Unit := do
  match faults step with
  | none => modify effect
  | some failure => do
    modify fun s ↦ if failure.effective then effect s else s
    throw failure.error

/-! ## The state behind the lock -/

structure MutableMemTable where
  table : MemTable
  walNumber : U64

structure ImmutableMemTable where
  table : MemTable
  walNumber : U64
  largestSequence : SequenceNumber

/-- The first failure, kept to be reported again. -/
structure TerminalFailure where
  operation : Option String
  path : Option FileName
  sourceKind : Option IoErrorKind
  message : String

namespace TerminalFailure

def fromError : Error → TerminalFailure
  | .io operation path source => ⟨some operation, some path, some source, displayIoError source⟩
  | error => ⟨none, none, none, error.display⟩

def toError : TerminalFailure → Error
  | ⟨some operation, some path, some kind, _⟩ => .io operation path kind
  | ⟨_, _, _, message⟩ => .background message

end TerminalFailure

/-- The write state of an engine, the directory it works on, and the edits it has built so far. -/
structure Engine where
  directory : Directory
  versions : VersionState
  manifestUsable : Bool
  mutable : MutableMemTable
  immutables : List ImmutableMemTable
  walNumbers : Finset U64
  nextFileNumber : U64
  nextSequence : SequenceNumber
  flushRunning : Bool
  closed : Bool
  terminalFailure : Option TerminalFailure
  backgroundFailure : Bool
  edits : List (VersionState × VersionEdit)

/-- The number before a given one, or zero. -/
def saturatingPred (n : U64) : U64 := n - min n 1

/-- A section that runs with the lock held. -/
abbrev Section (α : Type) := Attempt Engine Error α

namespace Engine

def ensureOpen (engine : Engine) : Result Unit := if engine.closed then .error .closed else .ok ()

def ensureWritable (engine : Engine) : Result Unit :=
  match engine.terminalFailure with
  | some failure => .error failure.toError
  | none => engine.ensureOpen

/-- Keeps the first failure, and returns it. -/
def recordTerminalFailure (error : Error) : Section Error := do
  match (← get).terminalFailure with
  | some failure => return failure.toError
  | none =>
    let failure := TerminalFailure.fromError error
    modify fun engine ↦ { engine with terminalFailure := some failure }
    return failure.toError

def recordBackgroundFailure (error : Error) : Section Error := do
  let returned ← recordTerminalFailure error
  modify fun engine ↦ { engine with backgroundFailure := true }
  return returned

/-- Runs a section; its error becomes the terminal failure. -/
def orTerminal {α : Type} (x : Section α) : Section α :=
  tryCatch x fun error ↦ do throw (← recordTerminalFailure error)

/-- Takes the next file number. -/
def allocateFileNumber : Section U64 := do
  let number := (← get).nextFileNumber
  if number = 0 then throw (.invalidArgument "file number must be greater than zero")
  else do
    let next ← liftM (checkedNextFileNumber number)
    modify fun engine ↦ { engine with nextFileNumber := next }
    return number

/-- The WAL numbers that recovery still needs. -/
def requiredWals (engine : Engine) : List U64 :=
  engine.immutables.map (·.walNumber) ++ [engine.mutable.walNumber]

/-- The oldest WAL that recovery still needs. -/
def oldestRequiredWal (engine : Engine) : U64 :=
  (engine.immutables.map (·.walNumber)).foldr min engine.mutable.walNumber

/-! ## Edits -/

/-- Installs an edit durably and takes over its state. After a failure in the manifest itself the
version set refuses further edits. -/
def applyEdit (faults : Faults) (edit : VersionEdit) : Section Unit := do
  let engine ← get
  if engine.manifestUsable then do
    modify fun engine ↦ { engine with edits := engine.edits ++ [(engine.versions, edit)] }
    let versions ← liftM (engine.versions.apply false edit)
    let _ ← liftM (encodeEdit edit)
    perform faults .syncTables id
    match faults .editManifest with
    | none => modify fun engine ↦
        { engine with versions, directory := { engine.directory with manifest := versions } }
    | some failure => do
      modify fun engine ↦ { engine with
        manifestUsable := false
        directory := if failure.effective then { engine.directory with manifest := versions }
          else engine.directory }
      throw failure.error
  else throw (.background "manifest writer is unusable after a failed append or sync")

/-! ## Files -/

/-- Synchronizes the WALs that recovery still needs, in the order of their numbers. -/
def syncOwnedWals (faults : Faults) : Section Unit := do
  let engine ← get
  (engine.requiredWals.toFinset.sort (· ≤ ·)).forM fun number ↦ perform faults (.syncWal number) id

/-- Records how far the WALs reach. -/
def persistWalState (faults : Faults) : Section Unit := do
  let engine ← get
  applyEdit faults {
    nextFileNumber := some engine.nextFileNumber
    logNumber := some engine.oldestRequiredWal
    activeLogNumber := some engine.mutable.walNumber
    walSequence := some (saturatingPred engine.nextSequence) }

/-- Removes the WALs that recovery does not need any more. -/
def retireObsoleteWals (faults : Faults) : Section Unit := do
  let engine ← get
  let obsolete := (engine.walNumbers.sort (· ≤ ·)).takeWhile (· < engine.oldestRequiredWal)
  obsolete.forM fun number ↦ do
    perform faults (.removeWal number) fun engine : Engine ↦
      { engine with directory := engine.directory.removeWal number }
    modify fun engine ↦ { engine with walNumbers := engine.walNumbers.erase number }
  if obsolete ≠ [] then perform faults .syncWalRetirement id else return ()

/-- Makes the mutable memtable immutable and starts a new one with a WAL of its own. -/
def rotateMemtable (faults : Faults) (largestSequence : SequenceNumber) : Section Unit := do
  let number ← allocateFileNumber
  perform faults (.createWal number) fun engine : Engine ↦
    { engine with directory := engine.directory.addWal number }
  let engine ← get
  applyEdit faults {
    nextFileNumber := some engine.nextFileNumber
    logNumber := some engine.oldestRequiredWal
    activeLogNumber := some number }
  modify fun engine ↦ { engine with
    mutable := ⟨.empty, number⟩
    walNumbers := insert number engine.walNumbers
    immutables := engine.immutables
      ++ [⟨engine.mutable.table, engine.mutable.walNumber, largestSequence⟩] }

/-! ## Writing -/

def validateLength (kind : String) (length : ℕ) (limitName : String) (limit : ℕ) : Result Unit :=
  if limit < length then
    .error (.invalidArgument (kind ++ " length " ++ toString length ++ " exceeds " ++ limitName
      ++ " " ++ toString limit))
  else .ok ()

def validateOperation (options : Options) : WriteOp → Result Unit
  | .put key value _ => do
    validateLength "key" key.length "max_key_bytes" options.maxKeyBytes
    validateLength "value" value.length "max_value_bytes" options.maxValueBytes
  | .delete key => validateLength "key" key.length "max_key_bytes" options.maxKeyBytes

def validateBatch (options : Options) (batch : WriteBatch) : Result Unit :=
  if batch.isEmpty then .error (.invalidArgument "cannot write an empty batch")
  else if maxWriteBatchOperations < batch.len then
    .error (.invalidArgument ("write batch operation count " ++ toString batch.len ++ " exceeds "
      ++ toString maxWriteBatchOperations))
  else if options.maxBatchBytes < batch.approximateBytes then
    .error (.invalidArgument ("write batch payload " ++ toString batch.approximateBytes
      ++ " exceeds max_batch_bytes " ++ toString options.maxBatchBytes))
  else batch.operations.forM (validateOperation options)

/-- Appends a batch to the active WAL. -/
def appendWal (options : Options) (faults : Faults) (sequence : SequenceNumber)
    (batch : WriteBatch) : Section Unit := do
  let number := (← get).mutable.walNumber
  let writer ← liftM (WalWriter.new (.wal number) options.maxBatchBytes)
  let _ ← liftM (writer.encode sequence batch)
  perform faults .appendWal fun engine : Engine ↦
    { engine with directory := engine.directory.appendWal number ⟨sequence, batch⟩ }

/-- Puts a logged batch into the memtable. -/
def commit (sequence : SequenceNumber) (batch : WriteBatch) : Section Unit := do
  let table ← liftM ((← get).mutable.table.apply sequence batch)
  modify fun engine ↦ { engine with
    mutable := { engine.mutable with table }
    nextSequence := sequence + 1 }

/-- Writes the batch that `prepare` makes once the lock is held. The result says whether the worker
is woken. A failed rotation is recorded, but the batch has been written. -/
def writeSerialized (options : Options) (faults : Faults) (prepare : Result WriteBatch) :
    Section Bool := do
  liftM (← get).ensureWritable
  let batch ← liftM prepare
  liftM (validateBatch options batch)
  let engine ← get
  if options.maxImmutableMemtables ≤ engine.immutables.length then
    throw (.writeStall engine.immutables.length)
  else if engine.nextSequence.val = maxU64 then
    throw (.invalidArgument "sequence number space is exhausted")
  else do
    let sequence := engine.nextSequence
    orTerminal (appendWal options faults sequence batch)
    commit sequence batch
    if options.memtableBytes ≤ (← get).mutable.table.approximateBytes then
      tryCatch (do rotateMemtable faults sequence; return true) fun error ↦ do
        let _ ← recordTerminalFailure error
        return false
    else return false

/-! ## Synchronizing and closing -/

def sync (faults : Faults) : Section Unit := do
  liftM (← get).ensureWritable
  orTerminal (syncOwnedWals faults)
  orTerminal (persistWalState faults)

/-- Closes the engine. The result says whether waiting threads are woken; an engine that fails to
close is closed all the same. -/
def close (faults : Faults) : Section Bool := do
  let engine ← get
  match engine.terminalFailure with
  | some failure => do
    modify fun engine ↦ { engine with closed := true }
    throw failure.toError
  | none =>
    if engine.closed then return false
    else do
      tryCatch (do syncOwnedWals faults; persistWalState faults) fun error ↦ do
        let error ← recordTerminalFailure error
        modify fun engine ↦ { engine with closed := true }
        throw error
      modify fun engine ↦ { engine with closed := true }
      return true

/-! ## Flushing -/

/-- Whether a flush must wait before it can rotate. -/
def lacksRoom (options : Options) (engine : Engine) : Bool :=
  !engine.mutable.table.isEmpty && options.maxImmutableMemtables ≤ engine.immutables.length

/-- Rotates a memtable that is not empty. The result says whether the worker is woken. -/
def flushRotate (faults : Faults) : Section Bool := do
  let engine ← get
  if engine.mutable.table.isEmpty then return false
  else do
    orTerminal (rotateMemtable faults (saturatingPred engine.nextSequence))
    return true

/-- Whether a flush has more to wait for. -/
def isFlushing (engine : Engine) : Bool := !engine.immutables.isEmpty || engine.flushRunning

/-- Where a call of `flush` is between two sections. -/
inductive FlushPhase where
  | called
  | waitingForRoom
  | waitingForFlushes
  | returned
  | failed
  deriving DecidableEq

/-- A call of `flush` up to its next wait: from its start, or from a wait for room. The result says
also whether the worker is woken. -/
def flushEnter (options : Options) (faults : Faults) : Section (FlushPhase × Bool) := do
  liftM (← get).ensureWritable
  if (← get).lacksRoom options then return (.waitingForRoom, false)
  else do
    let woken ← flushRotate faults
    if (← get).isFlushing then return (.waitingForFlushes, woken) else return (.returned, woken)

/-- A call of `flush` after a wait for the flushes. -/
def flushDrain : Section FlushPhase := do
  liftM (← get).ensureWritable
  if (← get).isFlushing then return .waitingForFlushes else return .returned

/-- What the worker does next. -/
inductive WorkerTask where
  | stop
  | sleep
  | build (immutable : ImmutableMemTable) (number : U64)

/-- The first half of a background flush: takes the oldest immutable memtable. An error means that
it was recorded and that waiting threads are woken. -/
def takeFlush : Section WorkerTask := do
  let engine ← get
  if engine.closed || engine.terminalFailure.isSome then return .stop
  else
    match engine.immutables with
    | [] => return .sleep
    | immutable :: _ => do
      modify fun engine ↦ { engine with flushRunning := true }
      let number ← tryCatch allocateFileNumber fun error ↦ do
        let error ← recordBackgroundFailure error
        modify fun engine ↦ { engine with flushRunning := false }
        throw error
      return .build immutable number

/-- Writes the table of a memtable; this needs no lock. Returns the size of the table. -/
def buildSstable (faults : Faults) (number : U64) (table : MemTable) (fileSize : U64) :
    Section FileMeta := do
  match table.entries.head?, table.entries.getLast? with
  | some first, some last => do
    perform faults (.buildTable number) fun engine : Engine ↦
      { engine with directory := engine.directory.addTable number table.entries }
    liftM (FileMeta.new number fileSize first.key last.key)
  | _, _ => throw (.invalidArgument "cannot finish an empty SSTable")

/-- Publishes a table in place of the oldest immutable memtable. -/
def publishFlush (faults : Faults) (immutable : ImmutableMemTable) (built : Result FileMeta) :
    Section Unit := do
  let file ← liftM built
  let engine ← get
  applyEdit faults {
    addedFiles := [(0, file)]
    nextFileNumber := some engine.nextFileNumber
    lastSequence := some immutable.largestSequence
    logNumber := some
      (((engine.immutables.drop 1).map (·.walNumber)).foldr min engine.mutable.walNumber)
    activeLogNumber := some engine.mutable.walNumber }
  modify fun engine ↦ { engine with immutables := engine.immutables.drop 1 }
  retireObsoleteWals faults

/-- The second half of a background flush. Waiting threads are woken in any case. -/
def finishFlush (faults : Faults) (immutable : ImmutableMemTable) (built : Result FileMeta) :
    Section Unit := do
  let outcome ← tryCatch (do publishFlush faults immutable built; return Except.ok ()) fun error ↦
    return Except.error error
  modify fun engine ↦ { engine with flushRunning := false }
  match outcome with
  | .ok () => return ()
  | .error error => do throw (← recordBackgroundFailure error)

/-! ## Compacting -/

/-- What a compaction is run with: the tables of the directory, sizes of outputs as they turn out.
The data blocks of a table are not modelled: that a compaction refuses a table with blocks over its
limit is a fault of reading it, and runs without faults leave it out. -/
def compactionContext (options : Options) (faults : Faults) (engine : Engine)
    (oldestActiveSnapshot : Option SequenceNumber) (readTimeUnixMs : U64)
    (fileSize : U64 → U64) : CompactionContext where
  targetSstableBytes := options.targetSstableBytes
  version := engine.versions.version
  oldestActiveSnapshot
  readTimeUnixMs
  nextFileNumber := engine.nextFileNumber
  openTable file :=
    match faults (.readTable file.number), engine.directory.tables file.number with
    | some failure, _ => .error failure.error
    | none, some entries => .ok (entries.map .ok)
    | none, none => .error (.io "open SSTable" (.sst file.number) .notFound)
  finishTable number _ :=
    match faults (.buildTable number) with
    | some failure => .error failure.error
    | none => .ok (fileSize number)

/-- Runs a plan that is valid and publishes its outputs. -/
def executeValidCompactionPlan (context : CompactionContext) (faults : Faults)
    (plan : CompactionPlan) : Section Unit := do
  let (outputs, nextFileNumber) ← liftM (compactionRun context plan)
  modify fun engine ↦ { engine with
    directory := outputs.foldl (fun d output ↦ d.addTable output.file.number output.entries)
      engine.directory }
  applyEdit faults (plan.edit (outputs.map (·.file)) nextFileNumber)
  modify fun engine ↦ { engine with nextFileNumber }
  perform faults .reclaimTables id

/-- Executes a plan. A plan that is refused is an error; a plan that fails gives its error back, and
the lock is released before that error is recorded. -/
def executeCompactionPlan (options : Options) (faults : Faults)
    (oldestActiveSnapshot : Option SequenceNumber) (readTimeUnixMs : U64) (fileSize : U64 → U64)
    (plan : CompactionPlan) : Section (Result Unit) := do
  let engine ← get
  liftM engine.ensureWritable
  if engine.isFlushing then
    throw (.background "cannot compact while a memtable flush is running")
  else do
    liftM (validateCompactionPlan plan engine.versions.version)
    let context := engine.compactionContext options faults oldestActiveSnapshot readTimeUnixMs
      fileSize
    tryCatch (do executeValidCompactionPlan context faults plan; return Except.ok ()) fun error ↦
      return Except.error error

/-- Records the failure of a plan. Waiting threads are woken. -/
def failCompaction (error : Error) : Section Unit := do
  throw (← recordBackgroundFailure error)

/-- Picks a plan for the current version. -/
def pickCompaction (options : Options) (faults : Faults) (divide : ℕ → ℕ → ℚ) :
    Section (Option CompactionPlan) := do
  liftM (← get).ensureWritable
  perform faults .reclaimTables id
  let picker := CompactionPicker.new defaultL0CompactionTrigger options.targetSstableBytes
  return picker.pick divide (← get).versions.version

/-! ## Opening -/

def walRecoveryCorruption (detail : String) : Error := .corruption "WAL recovery" detail

def checkedNextSequence (sequence : SequenceNumber) : Result SequenceNumber :=
  if sequence.val + 1 < 2 ^ 64 then .ok (sequence + 1)
  else .error (.invalidArgument "sequence number space is exhausted")

/-- The WALs of a directory in the order of their numbers. -/
def walPaths (directory : Directory) : List WalSegment :=
  directory.wals.insertionSort fun a b ↦ a.number ≤ b.number

/-- A manifest from before it recorded WAL numbers. -/
def legacyWalMetadata (counters : Counters) : Bool :=
  counters.logNumber = 0 && counters.activeLogNumber = 0

/-- The numbers of the oldest and of the active WAL. -/
def requiredLogNumbers (counters : Counters) (all : List WalSegment) : Option (U64 × U64) :=
  if legacyWalMetadata counters then do
    return ((← all.head?).number, (← all.getLast?).number)
  else some (counters.logNumber, counters.activeLogNumber)

/-- The WALs that recovery replays. The oldest and the active one must be there. -/
def selectWals (counters : Counters) (all : List WalSegment) : Result (List WalSegment) :=
  match requiredLogNumbers counters all with
  | none => .ok all
  | some (oldest, active) => do
    [oldest, active].forM fun required ↦
      if all.any (·.number = required) then .ok ()
      else .error (walRecoveryCorruption
        ("missing required WAL " ++ (FileName.wal required).display))
    return all.filter fun segment ↦ oldest ≤ segment.number && segment.number ≤ active

/-- Where the replay of the WALs stands. -/
structure ReplayState where
  table : MemTable
  tableLargest : SequenceNumber
  largestSequence : SequenceNumber
  expectedSequence : SequenceNumber

/-- Replays one record. -/
def replayRecord (counters : Counters) (number : U64) (state : ReplayState)
    (record : RecoveredBatch) : Result ReplayState :=
  if legacyWalMetadata counters ∧ record.sequence ≤ counters.lastSequence then .ok state
  else if record.sequence ≠ state.expectedSequence then
    .error (walRecoveryCorruption ("expected sequence " ++ toString state.expectedSequence.val
      ++ ", found " ++ toString record.sequence.val ++ " in " ++ (FileName.wal number).display))
  else do
    let expectedSequence ← checkedNextSequence record.sequence
    let table ← state.table.apply record.sequence record.batch
    return ⟨table, record.sequence, record.sequence, expectedSequence⟩

/-- The memtables of the replayed WALs, and the sequences reached. -/
structure Recovery where
  recovered : List ImmutableMemTable
  largestSequence : SequenceNumber
  expectedSequence : SequenceNumber

/-- Replays one WAL into a table of its own. -/
def replaySegment (faults : Faults) (counters : Counters) (recovery : Recovery)
    (segment : WalSegment) : Result Recovery := do
  match faults (.readWal segment.number) with
  | some failure => throw failure.error
  | none => do
    let start := ⟨.empty, 0, recovery.largestSequence, recovery.expectedSequence⟩
    let state ← segment.records.foldlM (replayRecord counters segment.number) start
    return ⟨recovery.recovered ++ [⟨state.table, segment.number, state.tableLargest⟩],
      state.largestSequence, state.expectedSequence⟩

/-- Replays the WALs that recovery needs. They must reach the durable WAL sequence. -/
def recoverWals (faults : Faults) (counters : Counters) (segments : List WalSegment) :
    Result Recovery := do
  let expectedSequence ← checkedNextSequence counters.lastSequence
  let recovery ← segments.foldlM (replaySegment faults counters)
    ⟨[], counters.lastSequence, expectedSequence⟩
  if recovery.largestSequence < counters.walSequence then
    throw (walRecoveryCorruption ("required WALs end at sequence "
      ++ toString recovery.largestSequence.val ++ ", before durable WAL sequence "
      ++ toString counters.walSequence.val))
  else return recovery

/-- Opens the engine on its directory; whatever the memory held before is replaced. -/
def openEngine (faults : Faults) : Section Unit := do
  modify fun engine ↦ { engine with versions := engine.directory.manifest, manifestUsable := true }
  let engine ← get
  let counters := engine.versions.counters
  let all := walPaths engine.directory
  let segments ← liftM (selectWals counters all)
  let recovery ← liftM (recoverWals faults counters segments)
  let largestFileNumber :=
    (all.map (·.number)).foldl max (saturatingPred counters.nextFileNumber)
  let number ← liftM (checkedNextFileNumber largestFileNumber)
  let nextFileNumber ← liftM (checkedNextFileNumber number)
  let immutables := recovery.recovered.filter fun immutable ↦ !immutable.table.isEmpty
  perform faults (.createWal number) fun engine : Engine ↦
    { engine with directory := engine.directory.addWal number }
  segments.forM fun segment ↦ perform faults (.syncWal segment.number) id
  applyEdit faults {
    nextFileNumber := some nextFileNumber
    lastSequence := some counters.lastSequence
    logNumber := some ((immutables.map (·.walNumber)).foldr min number)
    activeLogNumber := some number
    walSequence := some recovery.largestSequence }
  let retained := immutables.map (·.walNumber) ++ [number]
  let obsolete := (all.map (·.number)).filter (· ∉ retained)
  obsolete.forM fun number ↦ perform faults (.removeWal number) fun engine : Engine ↦
    { engine with directory := engine.directory.removeWal number }
  if obsolete ≠ [] then perform faults .syncWalRetirement id else pure ()
  let nextSequence ← liftM (checkedNextSequence recovery.largestSequence)
  modify fun engine ↦ { engine with
    mutable := ⟨.empty, number⟩
    immutables
    walNumbers := retained.toFinset
    nextFileNumber
    nextSequence
    flushRunning := false
    closed := false
    terminalFailure := none
    backgroundFailure := false }

end Engine

end MeteorDB
