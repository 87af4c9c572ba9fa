import MeteorDB.Iter
import MeteorDB.Manifest
import MeteorDB.Options

/-!
# Compaction

A compaction merges tables of one level into the next. The picker selects the most overfull level;
`makePlan` then takes tables of that level and of the next and widens both until nothing changes any
more, so that no other table of the output level meets the range of the plan. `run` merges the
tables of a plan, thins out the versions of each user key, and splits what is left into tables
between user keys.

A plan is executed against the version that is current by then, which need not be the one it was
made for: `validateCompactionPlan` only checks that its tables are still live in their levels.

Tables are read and written through two functions: `openTable` gives the stream of a table's
entries, `finishTable` the size of a finished table. Each may fail.
-/

namespace MeteorDB

open MergeIter

/-! ## Plans -/

/-- One leveled compaction. The score by which its level was chosen is not kept. -/
structure CompactionPlan where
  inputLevel : Fin numLevels
  outputLevel : Fin numLevels
  inputs : List FileMeta
  overlaps : List FileMeta
  deriving DecidableEq

namespace CompactionPlan

/-- The tables a plan replaces. -/
def files (plan : CompactionPlan) : List FileMeta := plan.inputs ++ plan.overlaps

/-- The edit that replaces the tables of a plan by the outputs. -/
def edit (plan : CompactionPlan) (outputs : List FileMeta) (nextFileNumber : U64) :
    VersionEdit where
  deletedFiles := plan.inputs.map (fun file ↦ (plan.inputLevel.val, file.number))
    ++ plan.overlaps.map fun file ↦ (plan.outputLevel.val, file.number)
  addedFiles := outputs.map (plan.outputLevel.val, ·)
  nextFileNumber := some nextFileNumber

end CompactionPlan

/-- The smallest range of user keys that covers some tables. -/
def userRange : List FileMeta → Option (Bytes × Bytes)
  | [] => none
  | file :: files => some (files.foldl
      (fun range file ↦ (min range.1 file.smallest.userKey, max range.2 file.largest.userKey))
      (file.smallest.userKey, file.largest.userKey))

/-- Whether a table meets a range of user keys. -/
def rangesOverlap (file : FileMeta) (range : Bytes × Bytes) : Bool :=
  file.smallest.userKey ≤ range.2 && range.1 ≤ file.largest.userKey

/-- The tables of a level that meet a range. -/
def Version.overlapping (version : Version) (level : Fin numLevels) (range : Bytes × Bytes) :
    List FileMeta :=
  (version.levels level).filter (rangesOverlap · range)

/-- One round of widening a plan. Ranges are those of at least one table. -/
def expandOnce (version : Version) (level outputLevel : Fin numLevels)
    (inputs overlaps : List FileMeta) : Option (List FileMeta × List FileMeta) := do
  let range ← userRange (inputs ++ overlaps)
  let nextOverlaps := version.overlapping outputLevel range
  let expandedRange ← userRange (inputs ++ nextOverlaps)
  let expandedInputs := if level = 0 then inputs else version.overlapping level expandedRange
  return (expandedInputs, nextOverlaps)

/-- Widens a plan until a round changes nothing. -/
def expand (version : Version) (level outputLevel : Fin numLevels) :
    ℕ → List FileMeta → List FileMeta → Option (List FileMeta × List FileMeta)
  | 0, _, _ => none
  | rounds + 1, inputs, overlaps => do
    let (expandedInputs, nextOverlaps) ← expandOnce version level outputLevel inputs overlaps
    if nextOverlaps = overlaps ∧ expandedInputs = inputs then return (inputs, overlaps)
    else expand version level outputLevel rounds expandedInputs nextOverlaps

/-- The tables a plan starts from: all of level zero, the first one of another level. -/
def firstInputs (version : Version) (level : Fin numLevels) : List FileMeta :=
  if level = 0 then version.levels 0 else (version.levels level).take 1

/-- The plan for a level that is not the last. Every round but the last adds a table, so the number
of rounds is bounded by the number of tables. -/
def makePlan (version : Version) (level : Fin (numLevels - 1)) : Option CompactionPlan :=
  let input : Fin numLevels := level.castSucc
  let output : Fin numLevels := level.succ
  let inputs := firstInputs version input
  if inputs = [] then none
  else do
    let rounds := (version.levels input).length + (version.levels output).length + 2
    let (inputs, overlaps) ← expand version input output rounds inputs []
    return ⟨input, output, inputs, overlaps⟩

/-! ## Picking a level -/

def defaultL0CompactionTrigger : ℕ := 4

/-- The limits beyond which a level is overfull. -/
structure CompactionPicker where
  l0Trigger : ℕ
  levelBaseBytes : ℕ

namespace CompactionPicker

def new (l0Trigger levelBaseBytes : ℕ) : CompactionPicker :=
  ⟨max l0Trigger 1, max levelBaseBytes 1⟩

/-- How full a level is, where `divide` is the floating-point division of two counters. Sizes are
added as 64-bit words. -/
def score (divide : ℕ → ℕ → ℚ) (picker : CompactionPicker) (version : Version)
    (level : Fin (numLevels - 1)) : ℚ :=
  let files := version.levels level.castSucc
  if level.val = 0 then divide files.length picker.l0Trigger
  else divide (files.map FileMeta.fileSize).sum.val picker.levelBaseBytes

/-- The plan for the fullest level whose score is above one. -/
def pick (divide : ℕ → ℕ → ℚ) (picker : CompactionPicker) (version : Version) :
    Option CompactionPlan :=
  let selected := (List.finRange (numLevels - 1)).foldl (fun selected level ↦
    let score := picker.score divide version level
    if 1 < score ∧ selected.all (fun plan : CompactionPlan × ℚ ↦ plan.2 < score) then
      (makePlan version level).map (·, score)
    else selected) none
  selected.map Prod.fst

end CompactionPicker

/-! ## Thinning out versions -/

/-- A value past its deadline becomes a tombstone. -/
def expireEntry (readTimeUnixMs : U64) (entry : InternalEntry) : InternalEntry :=
  match entry.record with
  | .value _ (some expires) =>
    if expires ≤ readTimeUnixMs then
      ⟨{ entry.key with kind := .deletion }, .tombstone, rfl⟩
    else entry
  | _ => entry

/-- Keeps the newest version, those above the oldest snapshot, and the newest one at or below it. -/
def retainLoop (oldestSnapshot : Option SequenceNumber) :
    List InternalEntry → List InternalEntry → Bool → List InternalEntry
  | [], retained, _ => retained
  | entry :: entries, retained, keptSnapshotBase =>
    if retained = [] then
      retainLoop oldestSnapshot entries [entry]
        (keptSnapshotBase || oldestSnapshot.any (entry.key.sequence ≤ ·))
    else
      match oldestSnapshot with
      | some snapshot =>
        if snapshot < entry.key.sequence then
          retainLoop oldestSnapshot entries (retained ++ [entry]) keptSnapshotBase
        else if keptSnapshotBase then
          retainLoop oldestSnapshot entries retained keptSnapshotBase
        else retainLoop oldestSnapshot entries (retained ++ [entry]) true
      | none => retainLoop oldestSnapshot entries retained keptSnapshotBase

/-- The versions of one user key, newest first, that a compaction keeps. -/
def retainVersions (entries : List InternalEntry) (oldestSnapshot : Option SequenceNumber)
    (keyMayExistBelow : Bool) (readTimeUnixMs : U64) : List InternalEntry :=
  let retained := retainLoop oldestSnapshot (entries.map (expireEntry readTimeUnixMs)) [] false
  if retained.head?.any fun entry ↦ entry.key.kind = .deletion && !keyMayExistBelow
      && oldestSnapshot.all (entry.key.sequence ≤ ·) then []
  else retained

/-- Whether a level below the output may hold a user key. -/
def keyMayExistBelow (version : Version) (outputLevel : Fin numLevels) (key : Bytes) : Bool :=
  (List.finRange numLevels).any fun level ↦
    outputLevel < level && (version.levels level).any (·.Covers key)

/-! ## Running a plan -/

/-- What a compaction is run with. -/
structure CompactionContext where
  targetSstableBytes : ℕ
  version : Version
  oldestActiveSnapshot : Option SequenceNumber
  readTimeUnixMs : U64
  nextFileNumber : U64
  openTable : FileMeta → Result (List (Result InternalEntry))
  finishTable : U64 → List InternalEntry → Result U64

/-- An output under construction. -/
structure OutputBuilder where
  number : U64
  entries : List InternalEntry
  estimatedBytes : ℕ

/-- A finished output and what it holds. -/
structure CompactedTable where
  file : FileMeta
  entries : List InternalEntry
  deriving DecidableEq

/-- The state of a run: the next file number, the finished outputs and the current one. -/
structure CompactionRun where
  nextFileNumber : U64
  outputs : List CompactedTable
  builder : Option OutputBuilder

/-- The next file number after a given one. -/
def checkedNextFileNumber (number : U64) : Result U64 :=
  if number.val + 1 < 2 ^ 64 then .ok (number + 1)
  else .error (.invalidArgument "file number space is exhausted")

/-- Finishes an output. -/
def finishOutput (context : CompactionContext) (builder : OutputBuilder) :
    Result CompactedTable := do
  let fileSize ← context.finishTable builder.number builder.entries
  match builder.entries.head?, builder.entries.getLast? with
  | some first, some last =>
    let file ← FileMeta.new builder.number fileSize first.key last.key
    return ⟨file, builder.entries⟩
  | _, _ => throw (.invalidArgument "cannot finish an empty SSTable")

/-- The bytes of a group of entries. -/
def groupBytes (entries : List InternalEntry) : Result ℕ :=
  entries.foldlM (fun bytes entry ↦
    match (checkedAdd bytes entry.key.asBytes.length).bind
        (checkedAdd · entry.record.encodeEngineValue.length) with
    | some bytes => .ok bytes
    | none => .error (.invalidArgument "compaction output size overflows usize")) 0

/-- Finishes the current output if the group does not fit into it any more. -/
def CompactionRun.makeRoom (context : CompactionContext) (groupBytes : ℕ) (run : CompactionRun) :
    Result CompactionRun :=
  match run.builder with
  | some builder =>
    if builder.estimatedBytes ≠ 0
        ∧ context.targetSstableBytes < MemTable.saturatingAdd builder.estimatedBytes
          groupBytes then do
      let output ← finishOutput context builder
      return { run with outputs := run.outputs ++ [output], builder := none }
    else return run
  | none => return run

/-- Adds the retained versions of one user key. -/
def CompactionRun.addGroup (context : CompactionContext) (retained : List InternalEntry)
    (run : CompactionRun) : Result CompactionRun := do
  let bytes ← groupBytes retained
  let run ← run.makeRoom context bytes
  match run.builder with
  | some builder =>
    return { run with builder := some { builder with
      entries := builder.entries ++ retained
      estimatedBytes := MemTable.saturatingAdd builder.estimatedBytes bytes } }
  | none =>
    let nextFileNumber ← checkedNextFileNumber run.nextFileNumber
    return { run with
      nextFileNumber
      builder := some ⟨run.nextFileNumber, retained, MemTable.saturatingAdd 0 bytes⟩ }

/-- Whether the next merged item belongs to a user key. -/
def isVersionOf (userKey : Bytes) : Result InternalEntry → Bool
  | .ok entry => entry.key.userKey = userKey
  | .error _ => false

/-- The entries of merged items that are all entries. -/
def entriesOf (items : List (Result InternalEntry)) : List InternalEntry :=
  items.filterMap Except.toOption

/-- Goes through the merged items, one user key at a time. -/
def CompactionRun.groups (context : CompactionContext) (outputLevel : Fin numLevels) :
    List (Result InternalEntry) → CompactionRun → Result CompactionRun
  | [], run => return run
  | .error e :: _, _ => throw e
  | .ok first :: items, run => do
    let userKey := first.key.userKey
    let pending := first :: entriesOf (items.takeWhile (isVersionOf userKey))
    let retained := retainVersions pending context.oldestActiveSnapshot
      (keyMayExistBelow context.version outputLevel userKey) context.readTimeUnixMs
    let run ← if retained = [] then pure run else run.addGroup context retained
    groups context outputLevel (items.dropWhile (isVersionOf userKey)) run
termination_by items => items.length
decreasing_by
  exact Nat.lt_succ_of_le (List.length_dropWhile_le ..)

/-- Merges the tables of a plan into new tables. Returns them with the next file number. -/
def compactionRun (context : CompactionContext) (plan : CompactionPlan) :
    Result (List CompactedTable × U64) := do
  let children ← plan.files.mapM context.openTable
  let items := (Merger.new InternalEntry.key children).drain InternalEntry.key
  let run ← CompactionRun.groups context plan.outputLevel items ⟨context.nextFileNumber, [], none⟩
  match run.builder with
  | some builder =>
    let output ← finishOutput context builder
    return (run.outputs ++ [output], run.nextFileNumber)
  | none => return (run.outputs, run.nextFileNumber)

/-- The check that the tables of a plan are live. -/
def validateCompactionPlan (plan : CompactionPlan) (version : Version) : Result Unit :=
  if (∀ file ∈ plan.inputs, file ∈ version.levels plan.inputLevel)
      ∧ ∀ file ∈ plan.overlaps, file ∈ version.levels plan.outputLevel then .ok ()
  else .error (.invalidArgument "compaction plan no longer matches the current version")

theorem validateCompactionPlan_eq_ok {plan : CompactionPlan} {version : Version} :
    validateCompactionPlan plan version = .ok () ↔
      (∀ file ∈ plan.inputs, file ∈ version.levels plan.inputLevel) ∧
        ∀ file ∈ plan.overlaps, file ∈ version.levels plan.outputLevel := by
  unfold validateCompactionPlan
  split_ifs with hlive
  · exact ⟨fun _ ↦ hlive, fun _ ↦ rfl⟩
  · exact ⟨nofun, fun h ↦ absurd h hlive⟩

end MeteorDB
