import MeteorDB.EngineOpen

/-!
# The inspector's view of the WALs

The command `check` decides from the manifest and the WAL files whether opening would find every
write that the manifest promises. Opening goes through the records one by one; the inspector goes
through the segments and knows only the first and the last sequence of each, having checked that a
segment is consecutive in itself.

With a manifest that names its WALs the two always agree. With a legacy manifest they need not:
opening skips what has been flushed without looking at it, while the inspector wants flushed records
to be consecutive too; and the inspector lets a segment begin again below what the segments before
it have reached, while opening does not. `LegacyWalsRegular` rules out these two things, and
`inspectRequiredWals_agrees_iff` says that it makes them agree, and that they agree in no other
directory that one of them accepts.

A file's length and the version of the report are left out.
-/

namespace MeteorDB

open Decoder Engine

/-! ## The inspector -/

inductive CliError where
  | engine (error : Error)
  | message (message : String)
  deriving DecidableEq

/-- What the inspector says about a segment. -/
structure WalInspection where
  batches : ℕ
  operations : ℕ
  firstSequence : Option SequenceNumber
  lastSequence : Option SequenceNumber
  deriving DecidableEq

/-- The check of a record against the one before it. -/
def checkFollows (number : U64) (previous : Option SequenceNumber) (record : RecoveredBatch) :
    Result Unit :=
  match previous with
  | none => .ok ()
  | some previous =>
    if previous.val + 1 < 2 ^ 64 then
      if record.sequence ≠ previous + 1 then
        .error (walCorruption ("expected sequence " ++ toString (previous + 1).val ++ ", found "
          ++ toString record.sequence.val ++ " in " ++ (FileName.wal number).display))
      else .ok ()
    else .error (walCorruption "sequence number space is exhausted")

/-- A count of the inspector, with an error if it overflows. -/
def countUp (name : String) (count more : ℕ) : Result ℕ :=
  match checkedAdd count more with
  | some total => .ok total
  | none => .error (walCorruption ("WAL " ++ name ++ " count exceeds usize"))

def inspectRecord (number : U64) (inspection : WalInspection) (record : RecoveredBatch) :
    Result WalInspection := do
  checkFollows number inspection.lastSequence record
  let batches ← countUp "batch" inspection.batches 1
  let operations ← countUp "operation" inspection.operations record.batch.operations.length
  return ⟨batches, operations, some (inspection.firstSequence.getD record.sequence),
    some record.sequence⟩

def inspectWal (segment : WalSegment) : Result WalInspection :=
  segment.records.foldlM (inspectRecord segment.number) ⟨0, 0, none, none⟩

/-- The inspector's next sequence. -/
def nextInspected (sequence : SequenceNumber) : Except CliError SequenceNumber :=
  if sequence.val + 1 < 2 ^ 64 then .ok (sequence + 1)
  else .error (.message "sequence number space is exhausted")

/-- The last sequence and the expected one after a segment. -/
def inspectSpan (counters : Counters) (reached : SequenceNumber × SequenceNumber)
    (wal : WalInspection) : Except CliError (SequenceNumber × SequenceNumber) :=
  match wal.firstSequence with
  | none => .ok reached
  | some first =>
    if legacyWalMetadata counters ∧ wal.lastSequence.any (· ≤ counters.lastSequence) then
      .ok reached
    else
      let first := if legacyWalMetadata counters then max first reached.2 else first
      if first ≠ reached.2 then
        .error (.engine (walCorruption ("expected sequence " ++ toString reached.2.val ++ ", found "
          ++ toString first.val)))
      else match wal.lastSequence with
        | none => .ok reached
        | some last => do
          let expected ← nextInspected last
          return (last, expected)

/-- The WAL files of a directory that the inspector reads, in the order of their numbers. -/
def inspectedWals (counters : Counters) (entries : List WalSegment) (maxFiles : ℕ) :
    Except CliError (List WalSegment) := do
  let paths ← entries.foldlM (fun paths entry ↦
    if ¬legacyWalMetadata counters ∧
        (entry.number < counters.logNumber ∨ counters.activeLogNumber < entry.number) then
      .ok paths
    else if paths.length = maxFiles then
      .error (.message ("required WAL count exceeds remaining max_files " ++ toString maxFiles))
    else .ok (paths ++ [entry])) []
  let sorted := paths.insertionSort fun a b ↦ a.number ≤ b.number
  if legacyWalMetadata counters then return sorted
  else do
    [counters.logNumber, counters.activeLogNumber].forM fun required ↦
      if sorted.any (·.number = required) then .ok ()
      else .error (.engine (walCorruption
        ("missing required WAL " ++ (FileName.wal required).display)))
    return sorted

/-- The inspections of the WALs, and the last sequence that they reach. -/
def inspectRequiredWals (counters : Counters) (entries : List WalSegment) (maxFiles : ℕ) :
    Except CliError (List WalInspection × SequenceNumber) := do
  let selected ← inspectedWals counters entries maxFiles
  let inspections ← selected.mapM fun segment ↦ (inspectWal segment).mapError CliError.engine
  let expected ← nextInspected counters.lastSequence
  let reached ← inspections.foldlM (inspectSpan counters) (counters.lastSequence, expected)
  if reached.1 < counters.walSequence then
    throw (.engine (walCorruption ("required WALs end at sequence " ++ toString reached.1.val
      ++ ", before manifest WAL sequence " ++ toString counters.walSequence.val)))
  else return (inspections, reached.1)

/-- The selection and replay of the WALs by opening, and the last sequence that they reach. -/
def openWals (counters : Counters) (entries : List WalSegment) : Result SequenceNumber := do
  let segments ←
    selectWals counters (entries.insertionSort fun a b ↦ a.number ≤ b.number)
  let recovery ← recoverWals noFaults counters segments
  return recovery.largestSequence

/-! ## Sequences -/

/-- A list that counts up from the number after one number to another. -/
def Runs (previous : ℕ) : List ℕ → ℕ → Prop
  | [], last => last = previous
  | n :: l, last => n = previous + 1 ∧ Runs n l last

instance : ∀ (previous : ℕ) (l : List ℕ) (last : ℕ), Decidable (Runs previous l last)
  | previous, [], last => inferInstanceAs (Decidable (last = previous))
  | previous, n :: l, last =>
    have := instDecidableRuns n l last
    inferInstanceAs (Decidable (n = previous + 1 ∧ Runs n l last))

/-- Every element is one more than the one before it. -/
def Consecutive (l : List ℕ) : Prop := l.IsChain fun a b ↦ b = a + 1

private theorem runs_append {previous last : ℕ} {l l' : List ℕ} :
    Runs previous (l ++ l') last ↔ ∃ middle, Runs previous l middle ∧ Runs middle l' last := by
  induction l generalizing previous with
  | nil => simp [Runs]
  | cons n l ih => simp [Runs, ih, and_assoc]

theorem Runs.le {previous last : ℕ} {l : List ℕ} (h : Runs previous l last) : previous ≤ last := by
  induction l generalizing previous with
  | nil => exact h.ge
  | cons n l ih =>
    obtain ⟨rfl, hrest⟩ := h
    exact (Nat.le_succ previous).trans (ih hrest)

theorem Runs.mem_iff {previous last n : ℕ} {l : List ℕ} (h : Runs previous l last) :
    n ∈ l ↔ previous < n ∧ n ≤ last := by
  induction l generalizing previous with
  | nil =>
    obtain rfl := h
    simp
  | cons a l ih =>
    obtain ⟨rfl, hrest⟩ := h
    rw [List.mem_cons, ih hrest]
    have := hrest.le
    omega

theorem Runs.nodup {previous last : ℕ} {l : List ℕ} (h : Runs previous l last) : l.Nodup := by
  induction l generalizing previous with
  | nil => exact List.nodup_nil
  | cons a l ih =>
    obtain ⟨-, hrest⟩ := h
    exact List.nodup_cons.mpr ⟨fun hmem ↦ absurd (hrest.mem_iff.mp hmem).1 (lt_irrefl a), ih hrest⟩

private theorem Runs.consecutive {previous last : ℕ} {l : List ℕ} (h : Runs previous l last) :
    Consecutive l := by
  induction l generalizing previous with
  | nil => exact List.IsChain.nil
  | cons a l ih =>
    obtain ⟨-, hrest⟩ := h
    refine List.isChain_cons.mpr ⟨fun b hb ↦ ?_, ih hrest⟩
    cases l with
    | nil => exact absurd hb nofun
    | cons c l => exact (Option.some.inj hb) ▸ hrest.1

/-- A consecutive list counts up from its first element to its last. -/
theorem Consecutive.runs {a : ℕ} {l : List ℕ} (h : Consecutive (a :: l)) :
    Runs a l (l.getLastD a) := by
  induction l generalizing a with
  | nil => rfl
  | cons b l ih =>
    obtain ⟨hb, hrest⟩ := List.isChain_cons_cons.mp h
    rw [List.getLastD_cons]
    exact ⟨hb, ih hrest⟩

/-- The sequences of a segment. -/
def WalSegment.sequences (segment : WalSegment) : List ℕ :=
  segment.records.map (·.sequence.val)

/-- Whether a sequence is to be recovered: with a legacy manifest, if it is above its last
sequence. -/
def needed (counters : Counters) (n : ℕ) : Bool :=
  !(legacyWalMetadata counters && n ≤ counters.lastSequence.val)

private theorem needed_eq_false {counters : Counters} {sequence : SequenceNumber} :
    needed counters sequence.val = false ↔
      legacyWalMetadata counters ∧ sequence ≤ counters.lastSequence := by
  rw [needed, Bool.not_eq_false', Bool.and_eq_true, decide_eq_true_eq]
  exact Iff.rfl

private theorem needed_eq_true {counters : Counters} {sequence : SequenceNumber} :
    needed counters sequence.val = true ↔
      ¬(legacyWalMetadata counters ∧ sequence ≤ counters.lastSequence) := by
  rw [← needed_eq_false, Bool.not_eq_false]

/-- The sequences that are to be recovered from segments. -/
def neededSequences (counters : Counters) (segments : List WalSegment) : List ℕ :=
  (segments.flatMap WalSegment.sequences).filter (needed counters)

private theorem neededSequences_cons (counters : Counters) (segment : WalSegment)
    (segments : List WalSegment) :
    neededSequences counters (segment :: segments)
      = segment.sequences.filter (needed counters) ++ neededSequences counters segments := by
  simp [neededSequences]

/-! ## Opening -/

private theorem replayRecord_of_not_needed {counters : Counters} {number : U64}
    {state : ReplayState}
    {record : RecoveredBatch} (h : needed counters record.sequence.val = false) :
    replayRecord counters number state record = .ok state := by
  exact if_pos (needed_eq_false.mp h)

/-- A needed record is replayed if it is the expected one and not the last one there can be. -/
theorem replayRecord_of_needed {counters : Counters} {number : U64} {state : ReplayState}
    {record : RecoveredBatch} (h : needed counters record.sequence.val = true) :
    (∃ state', replayRecord counters number state record = .ok state') ↔
      record.sequence = state.expectedSequence ∧ record.sequence.val + 1 < 2 ^ 64 := by
  rw [replayRecord, if_neg (needed_eq_true.mp h)]
  by_cases hsequence : record.sequence = state.expectedSequence
  · rw [if_neg (not_not.mpr hsequence)]
    constructor
    · rintro ⟨state', hreplay⟩
      obtain ⟨next, hnext, -⟩ := bind_eq_ok.mp hreplay
      have hval := checkedNextSequence_eq_ok.mp hnext
      exact ⟨hsequence, hval ▸ next.isLt⟩
    · rintro ⟨-, hlt⟩
      have hmax : record.sequence.val < maxU64 := by
        unfold maxU64
        omega
      obtain ⟨table, htable, -⟩ := state.table.apply_eq_ok hmax record.batch
      refine ⟨⟨table, record.sequence, record.sequence, record.sequence + 1⟩, ?_⟩
      rw [checkedNextSequence, if_pos hlt, htable]
      rfl
  · rw [if_pos hsequence]
    exact ⟨fun ⟨_, hreplay⟩ ↦ absurd hreplay nofun, fun h ↦ absurd h.1 hsequence⟩

/-- What a needed record leaves. -/
theorem replayRecord_eq_ok {counters : Counters} {number : U64} {state state' : ReplayState}
    {record : RecoveredBatch} (h : needed counters record.sequence.val = true)
    (hreplay : replayRecord counters number state record = .ok state') :
    state'.largestSequence = record.sequence ∧
      state'.expectedSequence.val = record.sequence.val + 1 := by
  rw [replayRecord, if_neg (needed_eq_true.mp h)] at hreplay
  split_ifs at hreplay
  obtain ⟨next, hnext, happly⟩ := bind_eq_ok.mp hreplay
  obtain ⟨table, -, hstate⟩ := bind_eq_ok.mp happly
  obtain rfl := Except.ok.inj hstate
  exact ⟨rfl, checkedNextSequence_eq_ok.mp hnext⟩

private theorem replayRecord_expected {counters : Counters} {number : U64}
    {state state' : ReplayState} {record : RecoveredBatch}
    (h : state.expectedSequence.val = state.largestSequence.val + 1)
    (hreplay : replayRecord counters number state record = .ok state') :
    state'.expectedSequence.val = state'.largestSequence.val + 1 := by
  cases hneeded : needed counters record.sequence.val with
  | false =>
    rw [replayRecord_of_not_needed hneeded] at hreplay
    rwa [← Except.ok.inj hreplay]
  | true =>
    obtain ⟨hlargest, hexpected⟩ := replayRecord_eq_ok hneeded hreplay
    rwa [hlargest]

/-- Replaying records reaches a sequence exactly if the needed ones count up to it. -/
theorem replayRecords_reaches (counters : Counters) (number : U64) (records : List RecoveredBatch)
    {state : ReplayState} (hstate : state.expectedSequence.val = state.largestSequence.val + 1)
    (last : SequenceNumber) :
    (∃ state', records.foldlM (replayRecord counters number) state = .ok state' ∧
      state'.largestSequence = last) ↔
    Runs state.largestSequence.val
      ((records.map (·.sequence.val)).filter (needed counters)) last.val ∧
        last.val + 1 < 2 ^ 64 := by
  induction records generalizing state with
  | nil =>
    constructor
    · rintro ⟨state', hfold, rfl⟩
      obtain rfl := Except.ok.inj hfold
      exact ⟨rfl, hstate ▸ state.expectedSequence.isLt⟩
    · rintro ⟨hlast, -⟩
      exact ⟨state, rfl, (Fin.ext hlast).symm⟩
  | cons record records ih =>
    rw [List.map_cons, List.foldlM_cons]
    cases hneeded : needed counters record.sequence.val with
    | false =>
      rw [replayRecord_of_not_needed hneeded, List.filter_cons_of_neg (by simp [hneeded])]
      exact ih hstate
    | true =>
      rw [List.filter_cons_of_pos hneeded]
      have hnext : record.sequence = state.expectedSequence ↔
          record.sequence.val = state.largestSequence.val + 1 := by
        rw [← hstate, Fin.ext_iff]
      constructor
      · rintro ⟨state', hfold, hlast⟩
        obtain ⟨middle, hrecord, hrest⟩ := bind_eq_ok.mp hfold
        obtain ⟨hsequence, -⟩ := (replayRecord_of_needed hneeded).mp ⟨middle, hrecord⟩
        obtain ⟨hruns, hlt⟩ :=
          (ih (replayRecord_expected hstate hrecord)).mp ⟨state', hrest, hlast⟩
        rw [(replayRecord_eq_ok hneeded hrecord).1] at hruns
        exact ⟨⟨hnext.mp hsequence, hruns⟩, hlt⟩
      · rintro ⟨⟨hsequence, hruns⟩, hlt⟩
        have hle := hruns.le
        obtain ⟨middle, hrecord⟩ :
            ∃ middle, replayRecord counters number state record = .ok middle :=
          (replayRecord_of_needed hneeded).mpr ⟨hnext.mpr hsequence, by omega⟩
        obtain ⟨state', hrest, hlast⟩ := (ih (replayRecord_expected hstate hrecord)).mpr
          ⟨(replayRecord_eq_ok hneeded hrecord).1 ▸ hruns, hlt⟩
        exact ⟨state', bind_eq_ok.mpr ⟨middle, hrecord, hrest⟩, hlast⟩

/-- Replaying segments reaches a sequence exactly if the needed ones count up to it. -/
theorem replaySegments_reaches (counters : Counters) (segments : List WalSegment)
    {recovery : Recovery}
    (hrecovery : recovery.expectedSequence.val = recovery.largestSequence.val + 1)
    (last : SequenceNumber) :
    (∃ recovery', segments.foldlM (replaySegment noFaults counters) recovery = .ok recovery' ∧
      recovery'.largestSequence = last) ↔
    Runs recovery.largestSequence.val (neededSequences counters segments) last.val ∧
      last.val + 1 < 2 ^ 64 := by
  induction segments generalizing recovery with
  | nil =>
    constructor
    · rintro ⟨recovery', hfold, rfl⟩
      obtain rfl := Except.ok.inj hfold
      exact ⟨rfl, hrecovery ▸ recovery.expectedSequence.isLt⟩
    · rintro ⟨hlast, -⟩
      exact ⟨recovery, rfl, (Fin.ext hlast).symm⟩
  | cons segment segments ih =>
    rw [neededSequences_cons, runs_append, List.foldlM_cons]
    let start : ReplayState := ⟨.empty, 0, recovery.largestSequence, recovery.expectedSequence⟩
    have hstart : start.expectedSequence.val = start.largestSequence.val + 1 := hrecovery
    -- The state after the segment is the one that its records leave.
    have hexpected : ∀ {state}, segment.records.foldlM (replayRecord counters segment.number) start
        = .ok state → state.expectedSequence.val = state.largestSequence.val + 1 :=
      fun hrecords ↦ foldlM_preserves
        (fun _ _ _ hstate hrecord ↦ replayRecord_expected hstate hrecord) hstart hrecords
    constructor
    · rintro ⟨recovery', hfold, hlast⟩
      obtain ⟨middle, hsegment, hrest⟩ := bind_eq_ok.mp hfold
      obtain ⟨state, hrecords, hmiddle⟩ := bind_eq_ok.mp hsegment
      obtain rfl := Except.ok.inj hmiddle
      obtain ⟨hfirst, -⟩ := (replayRecords_reaches counters segment.number segment.records hstart
        state.largestSequence).mp ⟨state, hrecords, rfl⟩
      obtain ⟨hruns, hlt⟩ := (ih (hexpected hrecords)).mp ⟨recovery', hrest, hlast⟩
      exact ⟨⟨state.largestSequence.val, hfirst, hruns⟩, hlt⟩
    · rintro ⟨⟨middle, hfirst, hrest⟩, hlt⟩
      have hle := hrest.le
      obtain ⟨state, hrecords, hlargest⟩ := (replayRecords_reaches counters segment.number
        segment.records hstart ⟨middle, by omega⟩).mpr ⟨hfirst, by simp only; omega⟩
      let next : Recovery := ⟨recovery.recovered ++
        [⟨state.table, segment.number, state.tableLargest⟩], state.largestSequence,
        state.expectedSequence⟩
      have hnext : next.expectedSequence.val = next.largestSequence.val + 1 := hexpected hrecords
      obtain ⟨recovery', hfold, hlast⟩ :=
        (ih hnext).mpr ⟨by rw [show next.largestSequence = _ from hlargest]; exact hrest, hlt⟩
      refine ⟨recovery', bind_eq_ok.mpr ⟨_, ?_, hfold⟩, hlast⟩
      exact bind_eq_ok.mpr ⟨state, hrecords, rfl⟩

/-- Recovery reaches a sequence exactly if the needed ones count up to it and it is not short of
the durable one. -/
theorem recoverWals_reaches (counters : Counters) (segments : List WalSegment)
    (last : SequenceNumber) :
    (∃ recovery, recoverWals noFaults counters segments = .ok recovery ∧
      recovery.largestSequence = last) ↔
    Runs counters.lastSequence.val (neededSequences counters segments) last.val ∧
      last.val + 1 < 2 ^ 64 ∧ counters.walSequence ≤ last := by
  unfold recoverWals
  constructor
  · rintro ⟨recovery, hrecover, hlast⟩
    obtain ⟨expected, hexpected, hreplay⟩ := bind_eq_ok.mp hrecover
    obtain ⟨recovery', hfold, hshort⟩ := bind_eq_ok.mp hreplay
    split_ifs at hshort with hlt
    obtain rfl := Except.ok.inj hshort
    let start : Recovery := ⟨[], counters.lastSequence, expected⟩
    have hstart : start.expectedSequence.val = start.largestSequence.val + 1 :=
      checkedNextSequence_eq_ok.mp hexpected
    obtain ⟨hruns, hbound⟩ :=
      (replaySegments_reaches counters segments hstart last).mp ⟨recovery', hfold, hlast⟩
    exact ⟨hruns, hbound, hlast ▸ not_lt.mp hlt⟩
  · rintro ⟨hruns, hbound, hwal⟩
    have hle := hruns.le
    have hlt : counters.lastSequence.val + 1 < 2 ^ 64 := by omega
    let start : Recovery := ⟨[], counters.lastSequence, counters.lastSequence + 1⟩
    have hstart : start.expectedSequence.val = start.largestSequence.val + 1 :=
      Fin.val_add_one_of_lt' hlt
    obtain ⟨recovery, hfold, hlast⟩ :=
      (replaySegments_reaches counters segments hstart last).mpr ⟨hruns, hbound⟩
    refine ⟨recovery, bind_eq_ok.mpr ⟨counters.lastSequence + 1, if_pos hlt, ?_⟩, hlast⟩
    exact bind_eq_ok.mpr ⟨recovery, hfold, if_neg (by rw [hlast]; exact not_lt.mpr hwal)⟩

/-! ## Inspecting one segment -/

/-- A segment with no more operations than a file can hold. -/
structure WalSegment.Sized (segment : WalSegment) : Prop where
  batches : segment.records.length < usizeRange
  operations : (segment.records.map (·.batch.operations.length)).sum < usizeRange

/-- What the inspector adds for a record. -/
def WalInspection.add (inspection : WalInspection) (record : RecoveredBatch) : WalInspection :=
  ⟨inspection.batches + 1, inspection.operations + record.batch.operations.length,
    some (inspection.firstSequence.getD record.sequence), some record.sequence⟩

/-- What the inspector says about a consecutive segment. -/
def WalSegment.inspection (segment : WalSegment) : WalInspection :=
  segment.records.foldl WalInspection.add ⟨0, 0, none, none⟩

private theorem firstSequence_foldl_add (records : List RecoveredBatch) (start : WalInspection) :
    (records.foldl WalInspection.add start).firstSequence
      = start.firstSequence.or (records.head?.map (·.sequence)) := by
  induction records generalizing start with
  | nil => simp
  | cons record records ih =>
    rw [List.foldl_cons, ih]
    cases hfirst : start.firstSequence <;> simp [WalInspection.add, hfirst]

private theorem lastSequence_foldl_add (records : List RecoveredBatch) (start : WalInspection) :
    (records.foldl WalInspection.add start).lastSequence
      = (records.getLast?.map (·.sequence)).or start.lastSequence := by
  induction records generalizing start with
  | nil => simp
  | cons record records ih =>
    rw [List.foldl_cons, ih, List.getLast?_cons]
    cases records.getLast? <;> simp [WalInspection.add]

private theorem checkFollows_eq_ok {number : U64} {previous : Option SequenceNumber}
    {record : RecoveredBatch} :
    checkFollows number previous record = .ok () ↔
      ∀ sequence ∈ previous, record.sequence.val = sequence.val + 1 := by
  cases previous with
  | none => simp [checkFollows]
  | some previous =>
    simp only [checkFollows, Option.mem_some_iff, forall_eq']
    have hbound := record.sequence.isLt
    split_ifs with hlt hne
    · have hval : (previous + 1).val = previous.val + 1 := Fin.val_add_one_of_lt' hlt
      refine ⟨nofun, fun h ↦ absurd (Fin.ext (h.trans hval.symm)) hne⟩
    · have hval : (previous + 1).val = previous.val + 1 := Fin.val_add_one_of_lt' hlt
      exact ⟨fun _ ↦ (congrArg Fin.val (not_not.mp hne)).trans hval, fun _ ↦ rfl⟩
    · exact ⟨nofun, fun h ↦ by omega⟩

private theorem countUp_eq_ok {name : String} {count more : ℕ} (h : count + more < usizeRange) :
    countUp name count more = .ok (count + more) := by
  rw [countUp, checkedAdd, if_pos h]

private theorem inspectRecord_eq_ok {number : U64} {inspection next : WalInspection}
    {record : RecoveredBatch} (hbatches : inspection.batches + 1 < usizeRange)
    (hoperations : inspection.operations + record.batch.operations.length < usizeRange) :
    inspectRecord number inspection record = .ok next ↔
      (∀ sequence ∈ inspection.lastSequence, record.sequence.val = sequence.val + 1) ∧
        next = inspection.add record := by
  rw [inspectRecord, bind_eq_ok, countUp_eq_ok hbatches, countUp_eq_ok hoperations]
  constructor
  · rintro ⟨⟨⟩, hfollows, hnext⟩
    exact ⟨checkFollows_eq_ok.mp hfollows, (Except.ok.inj hnext).symm⟩
  · rintro ⟨hfollows, rfl⟩
    exact ⟨(), checkFollows_eq_ok.mpr hfollows, rfl⟩

/-- The inspector goes on from what it has seen exactly if the records are consecutive. -/
theorem inspectRecords_eq_ok (number : U64) (records : List RecoveredBatch)
    {start inspection : WalInspection} (hbatches : start.batches + records.length < usizeRange)
    (hoperations : start.operations + (records.map (·.batch.operations.length)).sum < usizeRange) :
    records.foldlM (inspectRecord number) start = .ok inspection ↔
      Consecutive ((start.lastSequence.toList ++ records.map (·.sequence)).map Fin.val) ∧
        inspection = records.foldl WalInspection.add start := by
  induction records generalizing start with
  | nil =>
    have hsingle : Consecutive (start.lastSequence.toList.map Fin.val) := by
      cases start.lastSequence <;> simp [Consecutive]
    simp only [List.map_nil, List.append_nil, hsingle, true_and]
    exact ⟨fun h ↦ (Except.ok.inj h).symm, fun h ↦ congrArg Except.ok h.symm⟩
  | cons record records ih =>
    simp only [List.length_cons, List.map_cons, List.sum_cons] at hbatches hoperations
    have hrest := ih (show (start.add record).batches + records.length < usizeRange by
      simp only [WalInspection.add]; omega) (by simp only [WalInspection.add]; omega)
    have hchain : Consecutive ((start.lastSequence.toList ++
        (record :: records).map (·.sequence)).map Fin.val) ↔
        (∀ sequence ∈ start.lastSequence, record.sequence.val = sequence.val + 1) ∧
          Consecutive (((start.add record).lastSequence.toList
            ++ records.map (·.sequence)).map Fin.val) := by
      cases start.lastSequence <;> simp [Consecutive, WalInspection.add]
    rw [List.foldlM_cons, bind_eq_ok, hchain, List.foldl_cons, and_assoc, ← hrest]
    constructor
    · rintro ⟨next, hnext, hfold⟩
      obtain ⟨hfollows, rfl⟩ := (inspectRecord_eq_ok (by omega) (by omega)).mp hnext
      exact ⟨hfollows, hfold⟩
    · rintro ⟨hfollows, hfold⟩
      exact ⟨_, (inspectRecord_eq_ok (by omega) (by omega)).mpr ⟨hfollows, rfl⟩, hfold⟩

private theorem inspectWal_eq_ok {segment : WalSegment} (hsized : segment.Sized)
    {inspection : WalInspection} :
    inspectWal segment = .ok inspection ↔
      Consecutive segment.sequences ∧ inspection = segment.inspection := by
  rw [inspectWal, inspectRecords_eq_ok _ _ (by simpa using hsized.batches)
    (by simpa using hsized.operations)]
  simp [WalSegment.sequences, WalSegment.inspection, Function.comp_def]

/-! ## Inspecting the spans -/

/-- The first and the last sequence of a segment that the inspector does not pass over. -/
def WalSegment.span (counters : Counters) (segment : WalSegment) : Option (ℕ × ℕ) :=
  match segment.sequences with
  | [] => none
  | first :: rest =>
    if needed counters (rest.getLastD first) then some (first, rest.getLastD first) else none

private theorem WalSegment.span_of_cons {segment : WalSegment} {first : ℕ} {rest : List ℕ}
    (h : segment.sequences = first :: rest) (counters : Counters) :
    segment.span counters =
      if needed counters (rest.getLastD first) then some (first, rest.getLastD first)
        else none := by
  rw [WalSegment.span, h]

/-- A span that the inspector accepts after another one: it begins right after it or, with a legacy
manifest, no later. -/
def SpanFollows (counters : Counters) (before after : ℕ × ℕ) : Prop :=
  if legacyWalMetadata counters then after.1 ≤ before.2 + 1 else after.1 = before.2 + 1

private theorem nextInspected_eq_ok {sequence next : SequenceNumber} :
    nextInspected sequence = .ok next ↔ next.val = sequence.val + 1 := by
  unfold nextInspected
  split_ifs with hlt
  · have hval : (sequence + 1).val = sequence.val + 1 := Fin.val_add_one_of_lt' hlt
    exact ⟨fun h ↦ (Except.ok.inj h) ▸ hval, fun h ↦ by rw [Fin.ext (h.trans hval.symm)]⟩
  · refine ⟨nofun, fun h ↦ absurd next.isLt ?_⟩
    omega

/-- The test of a span's start. -/
theorem spanFollows_iff {counters : Counters} {previous expected first : SequenceNumber}
    (hexpected : expected.val = previous.val + 1) (last : ℕ) :
    (if legacyWalMetadata counters then max first expected else first) = expected ↔
      SpanFollows counters (0, previous.val) (first.val, last) := by
  unfold SpanFollows
  split_ifs
  · rw [max_eq_right_iff, Fin.le_def, hexpected]
  · rw [Fin.ext_iff, hexpected]

/-- The inspector's step over a span, from the last sequence that it has reached. -/
theorem inspectSpan_of_some {counters : Counters} {inspection : WalInspection}
    {previous expected first last : SequenceNumber} (hexpected : expected.val = previous.val + 1)
    (hfirst : inspection.firstSequence = some first) (hlast : inspection.lastSequence = some last)
    (hneeded : needed counters last.val = true) {reached : SequenceNumber × SequenceNumber} :
    inspectSpan counters (previous, expected) inspection = .ok reached ↔
      SpanFollows counters (0, previous.val) (first.val, last.val) ∧ reached.1 = last ∧
        reached.2.val = last.val + 1 := by
  have hpassed : ¬(legacyWalMetadata counters = true ∧
      (some last).any (· ≤ counters.lastSequence) = true) := by
    simpa using needed_eq_true.mp hneeded
  rw [inspectSpan, hfirst, hlast, ← spanFollows_iff hexpected last.val]
  simp only [if_neg hpassed]
  generalize (if legacyWalMetadata counters then max first expected else first) = start
  split_ifs with hne
  · exact ⟨nofun, fun h ↦ absurd h.1 hne⟩
  · rw [bind_eq_ok]
    constructor
    · rintro ⟨next, hnext, hreached⟩
      obtain rfl := Except.ok.inj hreached
      exact ⟨not_not.mp hne, rfl, nextInspected_eq_ok.mp hnext⟩
    · rintro ⟨-, hreached, hnext⟩
      exact ⟨reached.2, nextInspected_eq_ok.mpr hnext, by rw [← hreached]; rfl⟩

/-- What the inspection of a segment that is not empty says. -/
theorem WalSegment.inspection_of_cons {segment : WalSegment} {first : ℕ} {rest : List ℕ}
    (h : segment.sequences = first :: rest) :
    ∃ first' last' : SequenceNumber, segment.inspection.firstSequence = some first' ∧
      segment.inspection.lastSequence = some last' ∧ first'.val = first ∧
        last'.val = rest.getLastD first := by
  unfold WalSegment.sequences at h
  rw [WalSegment.inspection, firstSequence_foldl_add, lastSequence_foldl_add]
  cases hrecords : segment.records with
  | nil => rw [hrecords] at h; cases h
  | cons record records =>
    rw [hrecords] at h
    obtain ⟨rfl, rfl⟩ := List.cons.inj h
    refine ⟨record.sequence, (records.getLast?.getD record).sequence, by simp,
      by simp [List.getLast?_cons], rfl, ?_⟩
    rw [List.getLastD_eq_getLast?, List.getLast?_map]
    cases records.getLast? <;> rfl

/-- A segment that the inspector passes over. -/
theorem inspectSpan_of_span_none {counters : Counters} {segment : WalSegment}
    (h : segment.span counters = none) (reached : SequenceNumber × SequenceNumber) :
    inspectSpan counters reached segment.inspection = .ok reached := by
  cases hsequences : segment.sequences with
  | nil =>
    have hrecords : segment.records = [] := List.map_eq_nil_iff.mp hsequences
    simp [inspectSpan, WalSegment.inspection, hrecords]
  | cons first rest =>
    rw [WalSegment.span_of_cons hsequences] at h
    obtain ⟨first', last', hfirst, hlast, -, hval⟩ :=
      WalSegment.inspection_of_cons hsequences
    have hnot : needed counters last'.val = false := by
      rw [hval]
      simpa using h
    rw [inspectSpan, hfirst, hlast]
    exact if_pos (by simpa using needed_eq_false.mp hnot)

/-- The span of a segment is what its inspection says. -/
theorem WalSegment.span_eq_some {counters : Counters} {segment : WalSegment} {span : ℕ × ℕ}
    (h : segment.span counters = some span) :
    ∃ first last : SequenceNumber, segment.inspection.firstSequence = some first ∧
      segment.inspection.lastSequence = some last ∧ span = (first.val, last.val) ∧
        needed counters last.val = true := by
  cases hsequences : segment.sequences with
  | nil =>
    rw [WalSegment.span, hsequences] at h
    cases h
  | cons first rest =>
    rw [WalSegment.span_of_cons hsequences] at h
    obtain ⟨first', last', hfirst, hlast, rfl, hval⟩ :=
      WalSegment.inspection_of_cons hsequences
    rw [← hval] at h
    split_ifs at h with hneeded
    exact ⟨first', last', hfirst, hlast, (Option.some.inj h).symm, hneeded⟩

/-- The spans of the segments that the inspector does not pass over. -/
def spans (counters : Counters) (segments : List WalSegment) : List (ℕ × ℕ) :=
  segments.filterMap (WalSegment.span counters)

/-- Every span follows the one before it, the first one a given sequence. -/
def Covers (counters : Counters) (previous : ℕ) (l : List (ℕ × ℕ)) : Prop :=
  ((0, previous) :: l).IsChain (SpanFollows counters)

/-- Where spans end. -/
def reach (previous : ℕ) (l : List (ℕ × ℕ)) : ℕ := (l.getLastD (0, previous)).2

private theorem covers_cons {counters : Counters} {previous : ℕ} {span : ℕ × ℕ} {l : List (ℕ × ℕ)} :
    Covers counters previous (span :: l) ↔
      SpanFollows counters (0, previous) span ∧ Covers counters span.2 l := by
  unfold Covers
  rw [List.isChain_cons_cons]
  cases l with
  | nil => simp
  | cons next l => rw [List.isChain_cons_cons, List.isChain_cons_cons]; exact Iff.rfl

private theorem reach_cons (previous : ℕ) (span : ℕ × ℕ) (l : List (ℕ × ℕ)) :
    reach previous (span :: l) = reach span.2 l := by
  unfold reach
  cases l with
  | nil => rfl
  | cons next l => simp only [List.getLastD_cons]

/-- The inspector's walk over the segments. -/
theorem inspectSpans_eq_ok (counters : Counters) (segments : List WalSegment)
    {previous expected : SequenceNumber} (hexpected : expected.val = previous.val + 1)
    (last : SequenceNumber) :
    (∃ reached, (segments.map WalSegment.inspection).foldlM (inspectSpan counters)
        (previous, expected) = .ok reached ∧ reached.1 = last) ↔
      Covers counters previous.val (spans counters segments) ∧
        (∀ span ∈ spans counters segments, span.2 + 1 < 2 ^ 64) ∧
          last.val = reach previous.val (spans counters segments) := by
  induction segments generalizing previous expected with
  | nil =>
    simp only [spans, List.filterMap_nil, Covers, List.isChain_singleton, List.not_mem_nil,
      false_implies, implies_true, true_and, List.map_nil]
    constructor
    · rintro ⟨reached, hfold, rfl⟩
      obtain rfl := Except.ok.inj hfold
      rfl
    · exact fun hlast ↦ ⟨_, rfl, (Fin.ext hlast).symm⟩
  | cons segment segments ih =>
    rw [List.map_cons, List.foldlM_cons]
    cases hspan : segment.span counters with
    | none =>
      rw [inspectSpan_of_span_none hspan, spans, List.filterMap_cons_none hspan]
      exact ih hexpected
    | some span =>
      obtain ⟨first, final, hfirst, hfinal, rfl, hneeded⟩ := WalSegment.span_eq_some hspan
      rw [spans, List.filterMap_cons_some hspan, covers_cons, reach_cons, List.forall_mem_cons]
      have hstep : ∀ reached, inspectSpan counters (previous, expected) segment.inspection
          = .ok reached ↔ _ := fun _ ↦ inspectSpan_of_some hexpected hfirst hfinal hneeded
      constructor
      · rintro ⟨reached, hfold, hlast⟩
        obtain ⟨⟨final', next⟩, hsegment, hrest⟩ := bind_eq_ok.mp hfold
        obtain ⟨hfollows, rfl, hnext⟩ := (hstep _).mp hsegment
        obtain ⟨hcovers, hbounds, hreach⟩ := (ih hnext).mp ⟨reached, hrest, hlast⟩
        exact ⟨⟨hfollows, hcovers⟩, ⟨hnext ▸ next.isLt, hbounds⟩, hreach⟩
      · rintro ⟨⟨hfollows, hcovers⟩, ⟨hbound, hbounds⟩, hreach⟩
        have hnext : (⟨final.val + 1, hbound⟩ : SequenceNumber).val = final.val + 1 := rfl
        obtain ⟨reached, hrest, hlast⟩ := (ih hnext).mpr ⟨hcovers, hbounds, hreach⟩
        exact ⟨reached, bind_eq_ok.mpr ⟨_, (hstep _).mpr ⟨hfollows, rfl, hnext⟩, hrest⟩, hlast⟩

/-! ## Records and spans

For consecutive segments, the records count up exactly if the spans follow each other and no
sequence comes twice. -/

section

variable {counters : Counters}

theorem Runs.eq {previous last last' : ℕ} {l : List ℕ} (h : Runs previous l last)
    (h' : Runs previous l last') : last = last' := by
  induction l generalizing previous with
  | nil => exact h.trans h'.symm
  | cons n l ih => exact ih h.2 h'.2

/-- The part of a run above a number. -/
theorem Runs.filter_lt {previous last bound : ℕ} {l : List ℕ} (h : Runs previous l last)
    (hprevious : previous ≤ bound) (hlast : bound ≤ last) :
    Runs bound (l.filter (bound < ·)) last := by
  induction l generalizing previous with
  | nil =>
    obtain rfl := h
    exact le_antisymm hprevious hlast
  | cons n l ih =>
    obtain ⟨rfl, hrest⟩ := h
    by_cases hbound : previous = bound
    · subst hbound
      have hall : l.filter (previous < ·) = l :=
        List.filter_eq_self.mpr fun m hm ↦ by
          have := (hrest.mem_iff.mp hm).1
          simp only [decide_eq_true_eq]
          omega
      rw [List.filter_cons_of_pos (by simp), hall]
      exact ⟨rfl, hrest⟩
    · rw [List.filter_cons_of_neg (by simp only [decide_eq_true_eq]; omega)]
      exact ih hrest (by omega)

private theorem needed_of_legacy (hlegacy : legacyWalMetadata counters = true) :
    needed counters = fun n ↦ decide (counters.lastSequence.val < n) := by
  funext n
  simp only [needed, hlegacy, Bool.true_and, ← decide_not, not_le]

private theorem needed_of_not_legacy (hlegacy : legacyWalMetadata counters = false) (n : ℕ) :
    needed counters n = true := by
  simp [needed, hlegacy]

/-- Where the needed part of a span begins. -/
def spanStart (counters : Counters) (span : ℕ × ℕ) : ℕ :=
  if legacyWalMetadata counters then max span.1 (counters.lastSequence.val + 1) else span.1

private theorem WalSegment.filter_of_span_none {segment : WalSegment}
    (hconsecutive : Consecutive segment.sequences) (h : segment.span counters = none) :
    segment.sequences.filter (needed counters) = [] := by
  cases hsequences : segment.sequences with
  | nil => rfl
  | cons first rest =>
    rw [hsequences] at hconsecutive
    rw [WalSegment.span_of_cons hsequences] at h
    have hruns := hconsecutive.runs
    have hlast : needed counters (rest.getLastD first) = false := by simpa using h
    have hboth : legacyWalMetadata counters = true ∧
        rest.getLastD first ≤ counters.lastSequence.val := by
      simpa [needed] using hlast
    rw [needed_of_legacy hboth.1, List.filter_eq_nil_iff]
    intro n hn
    have hle : n ≤ rest.getLastD first := by
      rcases List.mem_cons.mp hn with rfl | hn
      · exact hruns.le
      · exact (hruns.mem_iff.mp hn).2
    simpa using hle.trans hboth.2

/-- The needed records of a segment with a span count up to the end of the span, from its start. -/
theorem WalSegment.runs_iff {segment : WalSegment} {span : ℕ × ℕ}
    (hconsecutive : Consecutive segment.sequences) (h : segment.span counters = some span)
    {previous last : ℕ}
    (hprevious : legacyWalMetadata counters = true → counters.lastSequence.val ≤ previous) :
    Runs previous (segment.sequences.filter (needed counters)) last ↔
      spanStart counters span = previous + 1 ∧ last = span.2 := by
  cases hsequences : segment.sequences with
  | nil =>
    rw [WalSegment.span, hsequences] at h
    cases h
  | cons first rest =>
    rw [hsequences] at hconsecutive
    rw [WalSegment.span_of_cons hsequences] at h
    split_ifs at h with hneeded
    obtain rfl := Option.some.inj h
    have hruns := hconsecutive.runs
    have hwhole : Runs previous (first :: rest) last ↔
        first = previous + 1 ∧ last = rest.getLastD first :=
      and_congr_right fun _ ↦ ⟨fun hrest ↦ hrest.eq hruns, fun hlast ↦ hlast ▸ hruns⟩
    unfold spanStart
    cases hlegacy : legacyWalMetadata counters with
    | false =>
      rw [List.filter_eq_self.mpr fun n _ ↦ needed_of_not_legacy hlegacy n]
      exact hwhole
    | true =>
      rw [needed_of_legacy hlegacy] at hneeded ⊢
      simp only [decide_eq_true_eq, if_true] at hneeded ⊢
      have hprevious := hprevious hlegacy
      by_cases hfirst : counters.lastSequence.val < first
      · have hall : (first :: rest).filter (fun n ↦ decide (counters.lastSequence.val < n))
            = first :: rest := List.filter_eq_self.mpr fun n hn ↦ by
          rcases List.mem_cons.mp hn with rfl | hn
          · simpa using hfirst
          · simpa using hfirst.trans (hruns.mem_iff.mp hn).1
        rw [hall, hwhole, max_eq_left hfirst]
      · rw [List.filter_cons_of_neg (by simpa using hfirst)]
        -- The first needed record is the one after the manifest's last sequence.
        have hpart := hruns.filter_lt (not_lt.mp hfirst) hneeded.le
        rw [max_eq_right (by omega)]
        constructor
        · intro hlist
          have hmem : counters.lastSequence.val + 1 ∈
              rest.filter (fun n ↦ decide (counters.lastSequence.val < n)) :=
            hpart.mem_iff.mpr ⟨by omega, hneeded⟩
          have hsame : previous = counters.lastSequence.val := by
            have := (hlist.mem_iff.mp hmem).1
            omega
          subst hsame
          exact ⟨rfl, hlist.eq hpart⟩
        · rintro ⟨hstart, rfl⟩
          obtain rfl : previous = counters.lastSequence.val := by omega
          exact hpart

private theorem WalSegment.spanStart_le {segment : WalSegment} {span : ℕ × ℕ}
    (hconsecutive : Consecutive segment.sequences) (h : segment.span counters = some span) :
    spanStart counters span ≤ span.2 := by
  cases hsequences : segment.sequences with
  | nil =>
    rw [WalSegment.span, hsequences] at h
    cases h
  | cons first rest =>
    rw [hsequences] at hconsecutive
    rw [WalSegment.span_of_cons hsequences] at h
    split_ifs at h with hneeded
    obtain rfl := Option.some.inj h
    have hle := hconsecutive.runs.le
    unfold spanStart
    split_ifs with hlegacy
    · rw [needed_of_legacy hlegacy, decide_eq_true_eq] at hneeded
      exact max_le hle hneeded
    · exact hle

/-- Records that count up make spans that follow each other. -/
theorem covers_of_runs {segments : List WalSegment} {previous last : ℕ}
    (hconsecutive : ∀ segment ∈ segments, Consecutive segment.sequences)
    (hprevious : legacyWalMetadata counters = true → counters.lastSequence.val ≤ previous)
    (h : Runs previous (neededSequences counters segments) last) :
    Covers counters previous (spans counters segments) ∧
      (∀ span ∈ spans counters segments, span.2 ≤ last) ∧
        last = reach previous (spans counters segments) := by
  induction segments generalizing previous with
  | nil => exact ⟨List.isChain_singleton _, nofun, h⟩
  | cons segment segments ih =>
    obtain ⟨hsegment, hsegments⟩ := List.forall_mem_cons.mp hconsecutive
    rw [neededSequences_cons, runs_append] at h
    obtain ⟨middle, hfirst, hrest⟩ := h
    cases hspan : segment.span counters with
    | none =>
      rw [WalSegment.filter_of_span_none hsegment hspan] at hfirst
      obtain rfl := hfirst
      rw [spans, List.filterMap_cons_none hspan]
      exact ih hsegments hprevious hrest
    | some span =>
      obtain ⟨hstart, rfl⟩ := (WalSegment.runs_iff hsegment hspan hprevious).mp hfirst
      obtain ⟨hcovers, hbounds, hreach⟩ :=
        ih hsegments (fun hlegacy ↦ (hprevious hlegacy).trans hfirst.le) hrest
      rw [spans, List.filterMap_cons_some hspan, covers_cons, reach_cons, List.forall_mem_cons]
      refine ⟨⟨?_, hcovers⟩, ⟨hrest.le, hbounds⟩, hreach⟩
      unfold spanStart at hstart
      unfold SpanFollows
      split_ifs at hstart ⊢
      · exact hstart ▸ le_max_left ..
      · exact hstart

/-- Spans that follow each other are of records that count up, unless one comes twice. -/
theorem runs_of_covers {segments : List WalSegment} {previous : ℕ}
    (hconsecutive : ∀ segment ∈ segments, Consecutive segment.sequences)
    (hprevious : legacyWalMetadata counters = true → counters.lastSequence.val ≤ previous)
    (hcovers : Covers counters previous (spans counters segments))
    (hnew : legacyWalMetadata counters = true → ∀ n ∈ neededSequences counters segments,
      previous < n)
    (hnodup : legacyWalMetadata counters = true → (neededSequences counters segments).Nodup) :
    Runs previous (neededSequences counters segments)
      (reach previous (spans counters segments)) := by
  induction segments generalizing previous with
  | nil => rfl
  | cons segment segments ih =>
    obtain ⟨hsegment, hsegments⟩ := List.forall_mem_cons.mp hconsecutive
    rw [neededSequences_cons] at hnew hnodup ⊢
    cases hspan : segment.span counters with
    | none =>
      rw [WalSegment.filter_of_span_none hsegment hspan, List.nil_append] at hnew hnodup ⊢
      rw [spans, List.filterMap_cons_none hspan] at hcovers ⊢
      exact ih hsegments hprevious hcovers hnew hnodup
    | some span =>
      rw [spans, List.filterMap_cons_some hspan, covers_cons] at hcovers
      rw [spans, List.filterMap_cons_some hspan, reach_cons, runs_append]
      have hstart : spanStart counters span = previous + 1 := by
        have hfollows := hcovers.1
        unfold SpanFollows at hfollows
        cases hlegacy : legacyWalMetadata counters with
        | false =>
          rw [hlegacy] at hfollows
          simpa [spanStart, hlegacy] using hfollows
        | true =>
          rw [hlegacy] at hfollows
          have hbelow : counters.lastSequence.val < spanStart counters span := by
            simp [spanStart, hlegacy]
          have habove : spanStart counters span ≤ previous + 1 := by
            simp only [spanStart, hlegacy, if_true]
            exact max_le hfollows (Nat.succ_le_succ (hprevious hlegacy))
          -- The record at the start is needed, so it is new.
          have hruns : Runs (spanStart counters span - 1)
              (segment.sequences.filter (needed counters)) span.2 :=
            (WalSegment.runs_iff hsegment hspan fun _ ↦ by omega).mpr ⟨by omega, rfl⟩
          have hmem := hruns.mem_iff.mpr
            ⟨by omega, WalSegment.spanStart_le hsegment hspan⟩
          have := hnew hlegacy _ (List.mem_append_left _ hmem)
          omega
      have hruns := (WalSegment.runs_iff hsegment hspan hprevious).mpr ⟨hstart, rfl⟩
      refine ⟨span.2, hruns, ih hsegments (fun hlegacy ↦ (hprevious hlegacy).trans hruns.le)
        hcovers.2 (fun hlegacy n hn ↦ ?_) fun hlegacy ↦ (List.nodup_append.mp (hnodup hlegacy)).2.1⟩
      have hold := hnew hlegacy n (List.mem_append_right _ hn)
      by_contra hle
      have hmem := hruns.mem_iff.mpr ⟨hold, not_lt.mp hle⟩
      exact (List.nodup_append.mp (hnodup hlegacy)).2.2 n hmem n hn rfl

/-- With a manifest that names its WALs, records that count up are consecutive. -/
theorem consecutive_of_runs {segments : List WalSegment} {previous last : ℕ}
    (hlegacy : legacyWalMetadata counters = false)
    (h : Runs previous (neededSequences counters segments) last) :
    ∀ segment ∈ segments, Consecutive segment.sequences := by
  induction segments generalizing previous with
  | nil => exact nofun
  | cons segment segments ih =>
    rw [neededSequences_cons, runs_append] at h
    obtain ⟨middle, hfirst, hrest⟩ := h
    rw [List.filter_eq_self.mpr fun n _ ↦ needed_of_not_legacy hlegacy n] at hfirst
    exact List.forall_mem_cons.mpr ⟨hfirst.consecutive, ih hrest⟩

end

/-! ## Selecting the segments -/

/-- Whether the inspector reads a file. -/
def inspects (counters : Counters) (segment : WalSegment) : Bool :=
  legacyWalMetadata counters ||
    (counters.logNumber ≤ segment.number && segment.number ≤ counters.activeLogNumber)

/-- The order of the segments. -/
abbrev sortWals (entries : List WalSegment) : List WalSegment :=
  entries.insertionSort fun a b ↦ a.number ≤ b.number

/-- With enough room the inspector collects the files that it reads. -/
theorem collect_eq_ok (counters : Counters) (entries paths : List WalSegment) {maxFiles : ℕ}
    (h : paths.length + entries.length ≤ maxFiles) :
    entries.foldlM (fun paths entry ↦
      if ¬legacyWalMetadata counters ∧
          (entry.number < counters.logNumber ∨ counters.activeLogNumber < entry.number) then
        .ok paths
      else if paths.length = maxFiles then
        .error (.message ("required WAL count exceeds remaining max_files " ++ toString maxFiles))
      else .ok (paths ++ [entry])) paths
        = (.ok (paths ++ entries.filter (inspects counters)) : Except CliError _) := by
  induction entries generalizing paths with
  | nil => simp; rfl
  | cons entry entries ih =>
    rw [List.length_cons] at h
    have hskip : (¬legacyWalMetadata counters ∧
        (entry.number < counters.logNumber ∨ counters.activeLogNumber < entry.number)) ↔
          inspects counters entry = false := by
      simp [inspects, imp_iff_not_or]
    rw [List.foldlM_cons]
    cases hinspects : inspects counters entry with
    | false =>
      rw [if_pos (hskip.mpr hinspects), List.filter_cons_of_neg (by simp [hinspects])]
      exact ih paths (by omega)
    | true =>
      rw [if_neg (by rw [hskip, hinspects]; nofun), if_neg (by omega),
        List.filter_cons_of_pos hinspects]
      refine (ih _ (by rw [List.length_append, List.length_singleton]; omega)).trans ?_
      rw [List.append_assoc, List.singleton_append]

private theorem sorted_sortWals (entries : List WalSegment) :
    (sortWals entries).Pairwise fun a b ↦ a.number ≤ b.number :=
  List.pairwise_insertionSort _ _

/-- Sorting and choosing can be exchanged. -/
theorem filter_sortWals {entries : List WalSegment} (hdistinct : (entries.map (·.number)).Nodup)
    (keep : WalSegment → Bool) :
    (sortWals entries).filter keep = sortWals (entries.filter keep) := by
  have hperm : ((sortWals entries).filter keep).Perm (sortWals (entries.filter keep)) :=
    ((List.perm_insertionSort _ entries).filter keep).trans
      (List.perm_insertionSort _ (entries.filter keep)).symm
  refine hperm.eq_of_pairwise ?_ ((sorted_sortWals entries).filter keep)
    (sorted_sortWals (entries.filter keep))
  intro a b ha hb hab hba
  -- Two files with one number are one file.
  have hmem : ∀ segment ∈ (sortWals entries).filter keep, segment ∈ entries := fun segment h ↦
    (List.perm_insertionSort _ entries).mem_iff.mp (List.mem_filter.mp h).1
  exact List.inj_on_of_nodup_map hdistinct (hmem a ha) (hmem b (hperm.mem_iff.mpr hb))
    (le_antisymm hab hba)

/-- The check that both make for the oldest and the active WAL. -/
theorem forM_required {ε : Type} (error : U64 → ε) {segments : List WalSegment} {a b : U64} :
    ([a, b].forM fun required ↦ if segments.any (·.number = required) then
      (.ok () : Except ε Unit) else .error (error required)) = .ok () ↔
      (∃ segment ∈ segments, segment.number = a) ∧ ∃ segment ∈ segments, segment.number = b := by
  have hcheck : ∀ number, (if segments.any (·.number = number) then (.ok () : Except ε Unit)
      else .error (error number)) = .ok () ↔ ∃ segment ∈ segments, segment.number = number := by
    intro number
    split_ifs with h
    · simpa using h
    · simpa using h
  rw [List.forM_eq_forM, List.forM_cons, List.forM_cons, List.forM_nil, bind_eq_ok]
  constructor
  · rintro ⟨⟨⟩, ha, hrest⟩
    obtain ⟨⟨⟩, hb, -⟩ := bind_eq_ok.mp hrest
    exact ⟨(hcheck a).mp ha, (hcheck b).mp hb⟩
  · rintro ⟨ha, hb⟩
    exact ⟨(), (hcheck a).mpr ha, bind_eq_ok.mpr ⟨(), (hcheck b).mpr hb, rfl⟩⟩

/-- What opening selects between two WALs that must be there. -/
theorem selectWals_of_required {counters : Counters} {all segments : List WalSegment}
    {oldest active : U64} (h : requiredLogNumbers counters all = some (oldest, active)) :
    selectWals counters all = .ok segments ↔
      ((∃ segment ∈ all, segment.number = oldest) ∧ ∃ segment ∈ all, segment.number = active) ∧
        segments = all.filter fun segment ↦ oldest ≤ segment.number && segment.number ≤ active := by
  rw [selectWals, h]
  simp only
  rw [bind_eq_ok, ← forM_required fun required ↦ walRecoveryCorruption
    ("missing required WAL " ++ (FileName.wal required).display)]
  constructor
  · rintro ⟨⟨⟩, hrequired, hsegments⟩
    exact ⟨hrequired, (Except.ok.inj hsegments).symm⟩
  · rintro ⟨hrequired, rfl⟩
    exact ⟨(), hrequired, rfl⟩

private theorem selectWals_of_legacy {counters : Counters} {all : List WalSegment}
    (hlegacy : legacyWalMetadata counters = true)
    (hsorted : all.Pairwise fun a b ↦ a.number ≤ b.number) : selectWals counters all = .ok all := by
  cases all with
  | nil =>
    rw [selectWals, requiredLogNumbers, if_pos hlegacy]
    rfl
  | cons first rest =>
    let last := (first :: rest).getLast (List.cons_ne_nil _ _)
    have hrequired : requiredLogNumbers counters (first :: rest)
        = some (first.number, last.number) := by
      rw [requiredLogNumbers, if_pos hlegacy, List.getLast?_eq_some_getLast (List.cons_ne_nil _ _)]
      rfl
    refine (selectWals_of_required hrequired).mpr ⟨⟨⟨first, List.mem_cons_self .., rfl⟩, last,
      List.getLast_mem _, rfl⟩, (List.filter_eq_self.mpr fun segment hsegment ↦ ?_).symm⟩
    have hfirst : first.number ≤ segment.number := by
      rcases List.mem_cons.mp hsegment with rfl | hrest
      · exact le_refl _
      · exact (List.pairwise_cons.mp hsorted).1 segment hrest
    have hlast : segment.number ≤ last.number := by
      have hsplit := List.dropLast_append_getLast (List.cons_ne_nil first rest)
      rw [← hsplit] at hsorted hsegment
      rcases List.mem_append.mp hsegment with hbefore | hend
      · exact (List.pairwise_append.mp hsorted).2.2 segment hbefore last (List.mem_singleton_self _)
      · rw [List.mem_singleton.mp hend]
    simp [hfirst, hlast]

/-- The inspector and opening choose the same WALs. -/
theorem inspectedWals_eq_ok {counters : Counters} (hvalid : counters.Valid)
    {entries : List WalSegment} (hdistinct : (entries.map (·.number)).Nodup) {maxFiles : ℕ}
    (hfiles : entries.length ≤ maxFiles) {segments : List WalSegment} :
    inspectedWals counters entries maxFiles = .ok segments ↔
      selectWals counters (sortWals entries) = .ok segments := by
  rw [inspectedWals, collect_eq_ok counters entries [] (by simpa using hfiles), List.nil_append]
  cases hlegacy : legacyWalMetadata counters with
  | true =>
    rw [selectWals_of_legacy hlegacy (sorted_sortWals entries),
      List.filter_eq_self.mpr fun segment _ ↦ by simp [inspects, hlegacy]]
    exact ⟨fun h ↦ congrArg Except.ok (Except.ok.inj h), fun h ↦ congrArg Except.ok
      (Except.ok.inj h)⟩
  | false =>
    have hrequired : requiredLogNumbers counters (sortWals entries)
        = some (counters.logNumber, counters.activeLogNumber) := by
      rw [requiredLogNumbers, hlegacy]
      rfl
    have hkeep : inspects counters = fun segment ↦
        counters.logNumber ≤ segment.number && segment.number ≤ counters.activeLogNumber := by
      funext segment
      simp [inspects, hlegacy]
    -- What is required lies in the range, so it is there if it is anywhere.
    have hinside : ∀ number, inspects counters ⟨number, []⟩ = true →
        ((∃ segment ∈ sortWals (entries.filter (inspects counters)), segment.number = number) ↔
          ∃ segment ∈ sortWals entries, segment.number = number) := by
      intro number hnumber
      rw [← filter_sortWals hdistinct]
      constructor
      · rintro ⟨segment, hsegment, heq⟩
        exact ⟨segment, (List.mem_filter.mp hsegment).1, heq⟩
      · rintro ⟨segment, hsegment, rfl⟩
        exact ⟨segment, List.mem_filter.mpr ⟨hsegment, hnumber⟩, rfl⟩
    have hlog := hinside counters.logNumber (by simp [inspects, hlegacy, hvalid.log_le])
    have hactive := hinside counters.activeLogNumber (by simp [inspects, hlegacy, hvalid.log_le])
    rw [selectWals_of_required hrequired, ← hkeep, filter_sortWals hdistinct, ← hlog, ← hactive,
      ← forM_required fun required ↦ CliError.engine (walCorruption
        ("missing required WAL " ++ (FileName.wal required).display))]
    constructor
    · intro h
      obtain ⟨paths, hpaths, hchecked⟩ := bind_eq_ok.mp h
      obtain rfl := Except.ok.inj hpaths
      rw [if_neg Bool.false_ne_true] at hchecked
      obtain ⟨⟨⟩, hforM, hsegments⟩ := bind_eq_ok.mp hchecked
      exact ⟨hforM, (Except.ok.inj hsegments).symm⟩
    · rintro ⟨hforM, rfl⟩
      refine bind_eq_ok.mpr ⟨_, rfl, ?_⟩
      rw [if_neg Bool.false_ne_true]
      exact bind_eq_ok.mpr ⟨(), hforM, rfl⟩

/-! ## When they agree -/

/-- The records above the manifest's last sequence count up and reach the durable sequence: what
opening accepts. -/
def RecordsCount (counters : Counters) (segments : List WalSegment) (last : ℕ) : Prop :=
  Runs counters.lastSequence.val (neededSequences counters segments) last ∧ last + 1 < 2 ^ 64 ∧
    counters.walSequence.val ≤ last

/-- Every segment is consecutive, and the spans leave no gap and reach the durable sequence: what
the inspector accepts. -/
structure SpansCover (counters : Counters) (segments : List WalSegment) : Prop where
  consecutive : ∀ segment ∈ segments, Consecutive segment.sequences
  covers : Covers counters counters.lastSequence.val (spans counters segments)
  bounded : ∀ span ∈ (0, counters.lastSequence.val) :: spans counters segments, span.2 + 1 < 2 ^ 64
  durable : counters.walSequence.val ≤ reach counters.lastSequence.val (spans counters segments)

/-- With a legacy manifest: records next to each other in a segment, one of which has been flushed,
are consecutive; and no sequence above the manifest's last one comes twice. -/
structure LegacyWalsRegular (counters : Counters) (segments : List WalSegment) : Prop where
  flushed : legacyWalMetadata counters = true → ∀ segment ∈ segments,
    segment.sequences.IsChain fun a b ↦
      a ≤ counters.lastSequence.val ∨ b ≤ counters.lastSequence.val → b = a + 1
  nodup : legacyWalMetadata counters = true → (neededSequences counters segments).Nodup

/-- Records are consecutive if the needed ones count up and no flushed one is out of place. -/
theorem consecutive_of_filter {counters : Counters} {l : List ℕ} {previous last : ℕ}
    (h : l.IsChain fun a b ↦ needed counters a = false ∨ needed counters b = false → b = a + 1)
    (hruns : Runs previous (l.filter (needed counters)) last) : Consecutive l := by
  induction l generalizing previous with
  | nil => exact List.IsChain.nil
  | cons a l ih =>
    obtain ⟨middle, hrest⟩ : ∃ middle, Runs middle (l.filter (needed counters)) last := by
      cases ha : needed counters a with
      | false =>
        rw [List.filter_cons_of_neg (by simp [ha])] at hruns
        exact ⟨previous, hruns⟩
      | true =>
        rw [List.filter_cons_of_pos ha] at hruns
        exact ⟨a, hruns.2⟩
    cases l with
    | nil => exact List.isChain_singleton a
    | cons b l =>
      obtain ⟨hpair, htail⟩ := List.isChain_cons_cons.mp h
      refine List.isChain_cons_cons.mpr ⟨?_, ih htail hrest⟩
      by_cases hflushed : needed counters a = false ∨ needed counters b = false
      · exact hpair hflushed
      · -- Both are needed, so they are neighbours in the run too.
        obtain ⟨ha, hb⟩ := not_or.mp hflushed
        rw [Bool.not_eq_false] at ha hb
        rw [List.filter_cons_of_pos ha, List.filter_cons_of_pos hb] at hruns
        exact hruns.2.1

/-- Regular segments whose needed records count up are consecutive. -/
theorem LegacyWalsRegular.consecutive {counters : Counters} {segments : List WalSegment}
    (h : LegacyWalsRegular counters segments) {previous last : ℕ}
    (hruns : Runs previous (neededSequences counters segments) last) :
    ∀ segment ∈ segments, Consecutive segment.sequences := by
  cases hlegacy : legacyWalMetadata counters with
  | false => exact consecutive_of_runs hlegacy hruns
  | true =>
    have hflushed := h.flushed hlegacy
    clear h
    induction segments generalizing previous with
    | nil => exact nofun
    | cons segment segments ih =>
      rw [neededSequences_cons, runs_append] at hruns
      obtain ⟨middle, hfirst, hrest⟩ := hruns
      obtain ⟨hsegment, hsegments⟩ := List.forall_mem_cons.mp hflushed
      refine List.forall_mem_cons.mpr
        ⟨consecutive_of_filter (hsegment.imp fun a b hpair hneeded ↦ hpair ?_) hfirst,
          ih hrest hsegments⟩
      simpa [needed, hlegacy] using hneeded

private theorem RecordsCount.spansCover {counters : Counters} {segments : List WalSegment}
    {last : ℕ} (h : RecordsCount counters segments last)
    (hconsecutive : ∀ segment ∈ segments, Consecutive segment.sequences) :
    SpansCover counters segments ∧
      last = reach counters.lastSequence.val (spans counters segments) := by
  obtain ⟨hruns, hbound, hdurable⟩ := h
  obtain ⟨hcovers, hbounds, hreach⟩ := covers_of_runs hconsecutive (fun _ ↦ le_refl _) hruns
  have hle := hruns.le
  refine ⟨⟨hconsecutive, hcovers, List.forall_mem_cons.mpr ⟨by simp only; omega, ?_⟩,
    hreach ▸ hdurable⟩, hreach⟩
  exact fun span hspan ↦ (Nat.succ_le_succ (hbounds span hspan)).trans_lt hbound

private theorem exists_reach (previous : ℕ) (l : List (ℕ × ℕ)) :
    ∃ span ∈ (0, previous) :: l, span.2 = reach previous l := by
  rw [reach, List.getLastD_eq_getLast?]
  cases hlast : l.getLast? with
  | none => exact ⟨_, List.mem_cons_self .., rfl⟩
  | some span => exact ⟨span, List.mem_cons_of_mem _ (List.mem_of_getLast? hlast), rfl⟩

private theorem SpansCover.recordsCount {counters : Counters} {segments : List WalSegment}
    (h : SpansCover counters segments)
    (hnodup : legacyWalMetadata counters = true → (neededSequences counters segments).Nodup) :
    RecordsCount counters segments
      (reach counters.lastSequence.val (spans counters segments)) := by
  refine ⟨runs_of_covers h.consecutive (fun _ ↦ le_refl _) h.covers ?_ hnodup, ?_, h.durable⟩
  · intro hlegacy n hn
    have hneeded := (List.mem_filter.mp hn).2
    rwa [needed_of_legacy hlegacy, decide_eq_true_eq] at hneeded
  · obtain ⟨span, hspan, hreach⟩ := exists_reach counters.lastSequence.val (spans counters segments)
    exact hreach ▸ h.bounded span hspan

/-- Opening accepts selected segments exactly if their records count up. -/
theorem openWals_eq_ok {counters : Counters} {entries : List WalSegment} {last : SequenceNumber} :
    openWals counters entries = .ok last ↔
      ∃ segments, selectWals counters (sortWals entries) = .ok segments ∧
        RecordsCount counters segments last.val := by
  rw [openWals, bind_eq_ok]
  refine exists_congr fun segments ↦ and_congr_right fun _ ↦ ?_
  refine Iff.trans ?_ (recoverWals_reaches counters segments last)
  rw [bind_eq_ok]
  exact exists_congr fun recovery ↦ and_congr_right fun _ ↦
    ⟨fun h ↦ Except.ok.inj h, fun h ↦ congrArg Except.ok h⟩

private theorem mapM_inspectWal {segments : List WalSegment}
    (hsized : ∀ segment ∈ segments, segment.Sized) {inspections : List WalInspection} :
    segments.mapM (fun segment ↦ (inspectWal segment).mapError CliError.engine) = .ok inspections ↔
      (∀ segment ∈ segments, Consecutive segment.sequences) ∧
        inspections = segments.map WalSegment.inspection := by
  have hone : ∀ segment ∈ segments, ∀ inspection,
      (inspectWal segment).mapError CliError.engine = .ok inspection ↔
        Consecutive segment.sequences ∧ inspection = segment.inspection := by
    intro segment hsegment inspection
    rw [← inspectWal_eq_ok (hsized segment hsegment)]
    cases inspectWal segment <;> simp [Except.mapError]
  induction segments generalizing inspections with
  | nil => simp [pure, Except.pure, eq_comm]
  | cons segment segments ih =>
    rw [List.forall_mem_cons] at hsized hone
    rw [List.mapM_cons, bind_eq_ok, List.forall_mem_cons]
    constructor
    · rintro ⟨inspection, hinspection, hrest⟩
      obtain ⟨rest, hmapM, hinspections⟩ := bind_eq_ok.mp hrest
      obtain ⟨hconsecutive, rfl⟩ := (hone.1 inspection).mp hinspection
      obtain ⟨hconsecutives, rfl⟩ := (ih hsized.2 hone.2).mp hmapM
      exact ⟨⟨hconsecutive, hconsecutives⟩, (Except.ok.inj hinspections).symm⟩
    · rintro ⟨⟨hconsecutive, hconsecutives⟩, rfl⟩
      exact ⟨_, (hone.1 _).mpr ⟨hconsecutive, rfl⟩,
        bind_eq_ok.mpr ⟨_, (ih hsized.2 hone.2).mpr ⟨hconsecutives, rfl⟩, rfl⟩⟩

/-- The inspector accepts selected segments exactly if their spans cover. -/
theorem inspectRequiredWals_eq_ok {counters : Counters} {entries : List WalSegment} {maxFiles : ℕ}
    (hsized : ∀ segments, inspectedWals counters entries maxFiles = .ok segments →
      ∀ segment ∈ segments, segment.Sized) {last : SequenceNumber} :
    (∃ inspections, inspectRequiredWals counters entries maxFiles = .ok (inspections, last)) ↔
      ∃ segments, inspectedWals counters entries maxFiles = .ok segments ∧
        SpansCover counters segments ∧
          last.val = reach counters.lastSequence.val (spans counters segments) := by
  constructor
  · rintro ⟨inspections, h⟩
    obtain ⟨segments, hsegments, hmapped⟩ := bind_eq_ok.mp h
    obtain ⟨inspections', hinspections, hwalked⟩ := bind_eq_ok.mp hmapped
    obtain ⟨expected, hexpected, hfolded⟩ := bind_eq_ok.mp hwalked
    obtain ⟨reached, hreached, hend⟩ := bind_eq_ok.mp hfolded
    obtain ⟨hconsecutive, rfl⟩ :=
      (mapM_inspectWal (hsized segments hsegments)).mp hinspections
    split_ifs at hend with hshort
    have hlast : reached.1 = last := (Prod.mk.inj (Except.ok.inj hend)).2
    have hnext := nextInspected_eq_ok.mp hexpected
    obtain ⟨hcovers, hbounds, hreach⟩ :=
      (inspectSpans_eq_ok counters segments hnext last).mp ⟨reached, hreached, hlast⟩
    refine ⟨segments, hsegments, ⟨hconsecutive, hcovers,
      List.forall_mem_cons.mpr ⟨hnext ▸ expected.isLt, hbounds⟩, ?_⟩, hreach⟩
    rw [← hreach, ← hlast]
    exact not_lt.mp hshort
  · rintro ⟨segments, hsegments, hspans, hreach⟩
    obtain ⟨hbound, hbounds⟩ := List.forall_mem_cons.mp hspans.bounded
    have hnext : (⟨counters.lastSequence.val + 1, hbound⟩ : SequenceNumber).val
        = counters.lastSequence.val + 1 := rfl
    obtain ⟨reached, hreached, hlast⟩ :=
      (inspectSpans_eq_ok counters segments hnext last).mpr ⟨hspans.covers, hbounds, hreach⟩
    refine ⟨segments.map WalSegment.inspection, bind_eq_ok.mpr ⟨segments, hsegments, ?_⟩⟩
    refine bind_eq_ok.mpr
      ⟨_, (mapM_inspectWal (hsized segments hsegments)).mpr ⟨hspans.consecutive, rfl⟩, ?_⟩
    refine bind_eq_ok.mpr ⟨_, nextInspected_eq_ok.mpr hnext, bind_eq_ok.mpr ⟨reached, hreached, ?_⟩⟩
    have hdurable : ¬reached.1 < counters.walSequence := by
      rw [hlast, not_lt, Fin.le_def, hreach]
      exact hspans.durable
    rw [if_neg hdurable, hlast]
    rfl

/-- **When the inspector and opening agree.** They choose the same WALs and reach the same last
sequence in every directory whose legacy WALs are regular, and in no other one that one of them
accepts; with a manifest that names its WALs there is no condition. -/
theorem inspectRequiredWals_agrees_iff {counters : Counters} (hvalid : counters.Valid)
    {entries : List WalSegment} (hdistinct : (entries.map (·.number)).Nodup)
    (hsized : ∀ segment ∈ entries, segment.Sized) {maxFiles : ℕ}
    (hfiles : entries.length ≤ maxFiles) :
    (LegacyWalsRegular counters (sortWals entries) →
      ∀ last, (∃ inspections,
          inspectRequiredWals counters entries maxFiles = .ok (inspections, last)) ↔
        openWals counters entries = .ok last) ∧
    ((∃ last, (∃ inspections,
          inspectRequiredWals counters entries maxFiles = .ok (inspections, last)) ∨
        openWals counters entries = .ok last) →
      (∀ last, (∃ inspections,
          inspectRequiredWals counters entries maxFiles = .ok (inspections, last)) ↔
        openWals counters entries = .ok last) →
      LegacyWalsRegular counters (sortWals entries)) := by
  have hselected : ∀ segments, inspectedWals counters entries maxFiles = .ok segments →
      ∀ segment ∈ segments, segment.Sized := by
    intro segments hsegments segment hsegment
    have hsub := (selectWals_eq_ok ((inspectedWals_eq_ok hvalid hdistinct hfiles).mp hsegments)).1
    exact hsized segment ((List.perm_insertionSort _ entries).mem_iff.mp (hsub.subset hsegment))
  simp only [inspectRequiredWals_eq_ok hselected, openWals_eq_ok,
    inspectedWals_eq_ok hvalid hdistinct hfiles]
  refine ⟨fun hregular last ↦ exists_congr fun segments ↦ and_congr_right fun hselect ↦ ?_,
    fun hone hagree ↦ ?_⟩
  · -- The selected segments are regular too: with a legacy manifest they are all there are.
    replace hregular : LegacyWalsRegular counters segments := by
      refine ⟨fun hlegacy ↦ ?_, fun hlegacy ↦ ?_⟩ <;>
        rw [selectWals_of_legacy hlegacy (sorted_sortWals entries)] at hselect <;>
        obtain rfl := Except.ok.inj hselect
      · exact hregular.flushed hlegacy
      · exact hregular.nodup hlegacy
    constructor
    · rintro ⟨hspans, hreach⟩
      rw [hreach]
      exact hspans.recordsCount hregular.nodup
    · exact fun hcount ↦ hcount.spansCover (hregular.consecutive hcount.1)
  · -- If one of them accepts, so does the other.
    obtain ⟨last, segments, hselect, hspans, hcount⟩ : ∃ (last : SequenceNumber) (segments : _),
        selectWals counters (sortWals entries) = .ok segments ∧ SpansCover counters segments ∧
          RecordsCount counters segments last.val := by
      obtain ⟨last, hone⟩ := hone
      have hboth := hone.elim (fun h ↦ And.intro h ((hagree last).mp h))
        fun h ↦ And.intro ((hagree last).mpr h) h
      obtain ⟨⟨segments, hselect, hspans, -⟩, segments', hselect', hcount⟩ := hboth
      obtain rfl := Except.ok.inj (hselect.symm.trans hselect')
      exact ⟨last, segments, hselect, hspans, hcount⟩
    have hall : legacyWalMetadata counters = true → segments = sortWals entries := fun hlegacy ↦ by
      rw [selectWals_of_legacy hlegacy (sorted_sortWals entries)] at hselect
      exact (Except.ok.inj hselect).symm
    refine ⟨fun hlegacy segment hsegment ↦ ?_, fun hlegacy ↦ ?_⟩
    · rw [← hall hlegacy] at hsegment
      exact (hspans.consecutive segment hsegment).imp fun a b hpair _ ↦ hpair
    · rw [← hall hlegacy]
      exact hcount.1.nodup

/-! ## Examples -/

private def legacyCounters : Counters := ⟨10, 5, 0, 0, 5⟩

private def segmentAt (number : U64) (sequences : List U64) : WalSegment :=
  ⟨number, sequences.map fun sequence ↦ ⟨sequence, ⟨[.delete [7]]⟩⟩⟩

private theorem sized_segmentAt (number : U64) {sequences : List U64}
    (h : sequences.length < usizeRange) : (segmentAt number sequences).Sized := by
  refine ⟨by simpa [segmentAt] using h, ?_⟩
  have hsum : ((segmentAt number sequences).records.map (·.batch.operations.length)).sum
      = sequences.length := by
    simp [segmentAt, Function.comp_def]
  rwa [hsum]

private theorem valid_legacyCounters : legacyCounters.Valid :=
  ⟨Iff.rfl, le_refl _, fun h ↦ absurd rfl h⟩

/-- A legacy directory in which a segment is partly flushed; and one with a gap among its flushed
records, which opening accepts. -/
theorem inspectRequiredWals_agrees_partlyFlushed :
    let entries := [segmentAt 2 [7], segmentAt 1 [4, 5, 6]]
    (openWals legacyCounters entries = .ok 7 ∧
      ∃ inspections, inspectRequiredWals legacyCounters entries 9 = .ok (inspections, 7)) ∧
    openWals legacyCounters [segmentAt 1 [1, 3]] = .ok 5 ∧
      ¬∀ last, (∃ inspections, inspectRequiredWals legacyCounters [segmentAt 1 [1, 3]] 9
          = .ok (inspections, last)) ↔
        openWals legacyCounters [segmentAt 1 [1, 3]] = .ok last := by
  intro entries
  have hregular : LegacyWalsRegular legacyCounters (sortWals entries) := by
    refine ⟨fun _ ↦ ?_, fun _ ↦ by decide +kernel⟩
    show ∀ segment ∈ [segmentAt 1 [4, 5, 6], segmentAt 2 [7]], segment.sequences.IsChain _
    simp [segmentAt, WalSegment.sequences, legacyCounters]
  have hsized : ∀ segment ∈ entries, segment.Sized := by
    intro segment hsegment
    rcases List.mem_cons.mp hsegment with rfl | hlast
    · exact sized_segmentAt 2 (by decide)
    · rw [List.mem_singleton.mp hlast]
      exact sized_segmentAt 1 (by decide)
  have hfiles : entries.length ≤ 9 := by decide
  have hagree := (inspectRequiredWals_agrees_iff valid_legacyCounters (by decide) hsized hfiles).1
    hregular
  have hopened : openWals legacyCounters entries = .ok 7 := by rfl
  have hgap : openWals legacyCounters [segmentAt 1 [1, 3]] = .ok 5 := by rfl
  refine ⟨⟨hopened, (hagree 7).mpr hopened⟩, hgap, fun hsame ↦ ?_⟩
  have hgapSized : ∀ segment ∈ [segmentAt 1 [1, 3]], segment.Sized := fun segment hsegment ↦ by
    rw [List.mem_singleton.mp hsegment]
    exact sized_segmentAt 1 (by decide)
  have hgapFiles : [segmentAt 1 [1, 3]].length ≤ 9 := by decide
  have hgapRegular := (inspectRequiredWals_agrees_iff valid_legacyCounters (by decide) hgapSized
    hgapFiles).2 ⟨5, .inr hgap⟩ hsame
  have hpair := hgapRegular.flushed rfl (segmentAt 1 [1, 3]) (List.mem_singleton_self _)
  have hfollows : (1 : ℕ) ≤ 5 ∨ (3 : ℕ) ≤ 5 → (3 : ℕ) = 1 + 1 :=
    (List.isChain_cons_cons.mp hpair).1
  exact absurd (hfollows (.inl (by decide))) (by decide)

/-- A flushed segment with a gap is skipped by opening and refused by the inspector; a segment that
begins again below the end of the one before it is refused by opening and let through by the
inspector. -/
theorem inspectRequiredWals_disagrees :
    (openWals legacyCounters [segmentAt 1 [1, 3]] = .ok 5 ∧
      ∀ inspections last,
        inspectRequiredWals legacyCounters [segmentAt 1 [1, 3]] 9 ≠ .ok (inspections, last)) ∧
    (∃ inspections, inspectRequiredWals legacyCounters
        [segmentAt 1 [6, 7], segmentAt 2 [7, 8]] 9 = .ok (inspections, 8)) ∧
      ∀ last, openWals legacyCounters [segmentAt 1 [6, 7], segmentAt 2 [7, 8]] ≠ .ok last := by
  have hgap : ∃ error,
      inspectRequiredWals legacyCounters [segmentAt 1 [1, 3]] 9 = .error error := ⟨_, by rfl⟩
  have hoverlap : ∃ error,
      openWals legacyCounters [segmentAt 1 [6, 7], segmentAt 2 [7, 8]] = .error error :=
    ⟨_, by rfl⟩
  obtain ⟨gap, hgap⟩ := hgap
  obtain ⟨overlap, hoverlap⟩ := hoverlap
  refine ⟨⟨by rfl, fun inspections last h ↦ ?_⟩, ⟨_, by rfl⟩, fun last h ↦ ?_⟩
  · exact absurd (hgap.symm.trans h) nofun
  · exact absurd (hoverlap.symm.trans h) nofun

end MeteorDB
