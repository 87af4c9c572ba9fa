import MeteorDB.EngineSections

/-!
# Reads

A point read asks the mutable memtable, the immutable memtables from the newest to the oldest, and
then, with the lock released, the tables of the version it has pinned. Each of these sources holds
only newer versions of a user key than the ones asked after it, so the first answer is the newest
visible entry of the whole engine (`Core.answers_visible`). A scan merges the same sources, and its
pairs are the visible values in key order (`Core.exists_scan`).

What a read returns therefore depends only on which entries the engine holds. Rotations and flushes
move entries without changing that set; a compaction changes it, but not what can be read.

Reads rest on `Core`, the part of the invariant that filesystem failures cannot break.
-/

namespace MeteorDB

open Decoder OrderedList

/-! ## Entries told apart by user key and sequence -/

/-- No two entries share a user key and a sequence. -/
def OnePerSequence (entries : Set InternalEntry) : Prop :=
  ∀ a ∈ entries, ∀ b ∈ entries, a.key.userKey = b.key.userKey →
    a.key.sequence = b.key.sequence → a = b

theorem Answers.unique {entries : Set InternalEntry} (hone : OnePerSequence entries) {key : Bytes}
    {sequence : SequenceNumber} {a b : Option InternalEntry} (ha : Answers entries key sequence a)
    (hb : Answers entries key sequence b) : a = b := by
  cases a with
  | none =>
    cases b with
    | none => rfl
    | some entry => exact absurd hb.sequence_le (ha entry hb.mem hb.userKey)
  | some entry =>
    cases b with
    | none => exact absurd ha.sequence_le (hb entry ha.mem ha.userKey)
    | some other =>
      have hle := hb.newest entry ha.mem ha.userKey ha.sequence_le
      have hge := ha.newest other hb.mem hb.userKey hb.sequence_le
      rw [hone entry ha.mem other hb.mem (ha.userKey.trans hb.userKey.symm) (le_antisymm hle hge)]

theorem findSomeM?_congr {α β : Type} {f g : α → Result (Option β)} {l : List α}
    (h : ∀ a ∈ l, f a = g a) : l.findSomeM? f = l.findSomeM? g := by
  induction l with
  | nil => rfl
  | cons a l ih =>
    obtain ⟨ha, hl⟩ := List.forall_mem_cons.mp h
    rw [List.findSomeM?_cons, List.findSomeM?_cons, ha, ih hl]

/-- A search that may fail, but does not. -/
theorem findSomeM?_eq_ok {α β : Type} {f : α → Result (Option β)} {g : α → Option β} {l : List α}
    (h : ∀ a ∈ l, f a = .ok (g a)) : l.findSomeM? f = .ok (l.findSome? g) :=
  (findSomeM?_congr h).trans List.findSomeM?_pure

namespace Engine

/-! ## Reading -/

def ensureNoBackgroundFailure (engine : Engine) : Result Unit :=
  match engine.backgroundFailure, engine.terminalFailure with
  | true, some failure => .error failure.toError
  | _, _ => .ok ()

def ensureReadable (engine : Engine) : Result Unit := do
  engine.ensureNoBackgroundFailure
  engine.ensureOpen

/-- Opens a table of the directory. -/
def readTable (tables : U64 → Option (List InternalEntry)) (file : FileMeta) :
    Result (List InternalEntry) :=
  match tables file.number with
  | some entries => .ok entries
  | none => .error (.io "open SSTable" (.sst file.number) .notFound)

/-- The entry that the memtables answer with. -/
def findInMemory (engine : Engine) (key : Bytes) (sequence : SequenceNumber) :
    Result (Option InternalEntry) := do
  match ← engine.mutable.table.getEntry key sequence with
  | some entry => return some entry
  | none => engine.immutables.reverse.findSomeM? fun immutable ↦
      immutable.table.getEntry key sequence

/-- The entry that the tables of a version answer with. Each table answers with its newest visible
entry of the key; how a reader finds it through the index of its blocks is not part of the model. -/
def findInTables (tables : U64 → Option (List InternalEntry)) (version : Version) (key : Bytes)
    (sequence : SequenceNumber) : Result (Option InternalEntry) :=
  (version.candidates key).findSomeM? fun file ↦ do
    let entries ← readTable tables file
    return newest key sequence entries

/-- The value of a key at a sequence and a time. The tables are those on disk once the lock has been
released. -/
def getFromState (engine : Engine) (tables : U64 → Option (List InternalEntry)) (key : Bytes)
    (sequence : SequenceNumber) (readTimeUnixMs : U64) : Result (Option Bytes) := do
  match ← engine.findInMemory key sequence with
  | some entry => return entry.record.intoValue readTimeUnixMs
  | none => do
    let found ← findInTables tables engine.versions.version key sequence
    return found.bind fun entry ↦ entry.record.intoValue readTimeUnixMs

/-- A read at the sequence of a snapshot. -/
def getAt (options : Options) (engine : Engine) (tables : U64 → Option (List InternalEntry))
    (key : Bytes) (sequence : SequenceNumber) (readTimeUnixMs : U64) : Result (Option Bytes) := do
  engine.ensureReadable
  validateLength "key" key.length "max_key_bytes" options.maxKeyBytes
  engine.getFromState tables key sequence readTimeUnixMs

/-- The sequence of the last committed batch. -/
def committedSequence (engine : Engine) : SequenceNumber := saturatingPred engine.nextSequence

/-- A read of the current value. -/
def get (options : Options) (engine : Engine) (tables : U64 → Option (List InternalEntry))
    (key : Bytes) (readTimeUnixMs : U64) : Result (Option Bytes) :=
  engine.getAt options tables key engine.committedSequence readTimeUnixMs

def validateBound (options : Options) : Bound → Result Unit
  | .included key | .excluded key =>
    validateLength "bound" key.length "max_key_bytes" options.maxKeyBytes
  | .unbounded => .ok ()

def validateScanBounds (options : Options) (bounds : ScanBounds) : Result Unit :=
  [bounds.start, bounds.stop].forM (validateBound options)

/-- A scan at a sequence. -/
def scanAt (options : Options) (engine : Engine) (tables : U64 → Option (List InternalEntry))
    (bounds : ScanBounds) (limit : ℕ) (sequence : SequenceNumber) (readTimeUnixMs : U64) :
    Result KvIterator := do
  engine.ensureNoBackgroundFailure
  validateScanBounds options bounds
  if limit = 0 then return .empty bounds sequence readTimeUnixMs
  else do
    engine.ensureOpen
    scanFromState engine.mutable.table (engine.immutables.map (·.table)) engine.versions.version
      (fun file ↦ (readTable tables file).map (·.map .ok)) bounds limit sequence readTimeUnixMs

/-! ## What a read finds -/

/-- The entry that a read finds. -/
def visible (engine : Engine) (key : Bytes) (sequence : SequenceNumber) : Option InternalEntry :=
  (newest key sequence engine.mutable.table.entries).or
    ((engine.immutables.reverse.findSome? fun immutable ↦
        newest key sequence immutable.table.entries).or
      (engine.versions.version.search (contentsOf engine.directory.tables) key sequence))

/-- All entries of an engine. -/
def entries (engine : Engine) : Set InternalEntry :=
  engine.memEntries ∪ engine.versions.version.entries (contentsOf engine.directory.tables)

/-- Tables on disk that still are what they were, as far as a version refers to them. -/
def KeepsTables (engine : Engine) (tables : U64 → Option (List InternalEntry)) : Prop :=
  ∀ number ∈ engine.versions.usedFileNumbers, tables number = engine.directory.tables number

variable {e e' : Engine} {tables : U64 → Option (List InternalEntry)} {key : Bytes}
  {sequence : SequenceNumber}

theorem ensureReadable_eq_ok : e.ensureReadable = .ok () ↔
    (e.backgroundFailure = true → e.terminalFailure = none) ∧ e.closed = false := by
  unfold ensureReadable ensureNoBackgroundFailure ensureOpen
  cases e.backgroundFailure <;> cases e.terminalFailure <;> cases e.closed <;>
    simp [bind, Except.bind]

/-- A scan of an engine that can be read is not refused. -/
theorem scanAt_eq {options : Options} {bounds : ScanBounds} {limit : ℕ} {readTimeUnixMs : U64}
    (hopen : e.ensureReadable = .ok ()) (hbounds : validateScanBounds options bounds = .ok ()) :
    e.scanAt options tables bounds limit sequence readTimeUnixMs
      = if limit = 0 then .ok (.empty bounds sequence readTimeUnixMs)
        else scanFromState e.mutable.table (e.immutables.map (·.table)) e.versions.version
          (fun file ↦ (readTable tables file).map (·.map .ok)) bounds limit sequence
          readTimeUnixMs := by
  unfold ensureReadable at hopen
  cases hnone : e.ensureNoBackgroundFailure with
  | error error =>
    rw [hnone] at hopen
    cases hopen
  | ok u =>
    have hensure : e.ensureOpen = .ok () := by
      rw [hnone] at hopen
      exact hopen
    rw [scanAt, hnone, hbounds, hensure]
    rfl

private theorem findInMemory_eq (hlt : sequence.val < maxU64) :
    e.findInMemory key sequence = .ok ((newest key sequence e.mutable.table.entries).or
      (e.immutables.reverse.findSome? fun immutable ↦
        newest key sequence immutable.table.entries)) := by
  have himmutables : (e.immutables.reverse.findSomeM? fun immutable ↦
      immutable.table.getEntry key sequence) = (.ok (e.immutables.reverse.findSome? fun immutable ↦
        newest key sequence immutable.table.entries) : Result (Option InternalEntry)) :=
    findSomeM?_eq_ok fun immutable _ ↦ immutable.table.getEntry_eq key hlt
  rw [findInMemory, MemTable.getEntry_eq _ _ hlt, himmutables]
  cases newest key sequence e.mutable.table.entries <;> rfl

/-- The tables of the current version can be read, and hold what they held. -/
theorem Core.readTable_eq (h : Core e) (htables : e.KeepsTables tables) {level : Fin numLevels}
    {file : FileMeta} (hfile : file ∈ e.versions.version.levels level) :
    readTable tables file = .ok (contentsOf e.directory.tables file) := by
  obtain ⟨entries, hentries⟩ := Option.isSome_iff_exists.mp (h.sound.present level file hfile)
  rw [readTable, htables _ (h.sound.live level file hfile), contentsOf, hentries]
  rfl

private theorem Core.findInTables_eq (h : Core e) (htables : e.KeepsTables tables) :
    findInTables tables e.versions.version key sequence
      = .ok (e.versions.version.search (contentsOf e.directory.tables) key sequence) := by
  refine findSomeM?_eq_ok fun file hfile ↦ ?_
  obtain ⟨level, hlevel, -⟩ := Version.mem_candidates.mp hfile
  rw [h.readTable_eq htables hlevel]
  rfl

theorem Core.getFromState_eq (h : Core e) (htables : e.KeepsTables tables)
    (hlt : sequence.val < maxU64) (readTimeUnixMs : U64) :
    e.getFromState tables key sequence readTimeUnixMs
      = .ok ((e.visible key sequence).bind fun entry ↦ entry.record.intoValue readTimeUnixMs) := by
  rw [getFromState, findInMemory_eq hlt, h.findInTables_eq htables, visible, ← Option.or_assoc]
  cases (newest key sequence e.mutable.table.entries).or
    (e.immutables.reverse.findSome? fun immutable ↦
      newest key sequence immutable.table.entries) <;> rfl

private theorem Core.immutables_ordered (h : Core e) :
    e.immutables.reverse.Pairwise fun immutable other ↦
      ∀ a ∈ immutable.table.entries, ∀ b ∈ other.table.entries, NewerFirst a b := by
  rw [List.pairwise_reverse]
  refine h.ascending.ordered.imp_of_mem fun {older newer} holder _ hlt a ha b hb _ ↦ ?_
  exact (h.ascending.above older holder b hb).2.trans_lt (hlt a ha)

/-- **Point reads.** A read finds the newest visible entry. -/
theorem Core.answers_visible (h : Core e) (key : Bytes) (sequence : SequenceNumber) :
    Answers e.entries key sequence (e.visible key sequence) := by
  have hmutable := answers_newest h.ascending.mutable_strict key sequence
  have hstrict : ∀ immutable ∈ e.immutables.reverse, StrictRun immutable.table.entries :=
    fun immutable himmutable ↦ h.ascending.strict immutable (List.mem_reverse.mp himmutable)
  have himmutables := answers_findSome? hstrict h.immutables_ordered key sequence
  have htables := h.sound.layered.answers_search key sequence
  refine (hmutable.or (himmutables.or htables ?_) ?_).congr fun entry _ ↦ ?_
  · rintro x ⟨immutable, himmutable, hx⟩ y hy - -
    exact (h.sound.sequence_le y hy).trans_lt
      (h.ascending.above immutable (List.mem_reverse.mp himmutable) x hx).1
  · rintro x hx y (⟨immutable, himmutable, hy⟩ | hy) - -
    · have himmutable := List.mem_reverse.mp himmutable
      exact (h.ascending.above immutable himmutable y hy).2.trans_lt
        (h.ascending.mutable_newest immutable himmutable x hx)
    · exact (h.sound.sequence_le y hy).trans_lt (h.ascending.mutable_above x hx).1
  · simp [entries, memEntries, or_assoc]

private theorem Core.onePerSequence (h : Core e) : OnePerSequence e.entries := by
  have hbelow : ∀ a ∈ e.memEntries, e.versions.counters.lastSequence < a.key.sequence := by
    rintro a (ha | ⟨immutable, himmutable, ha⟩)
    · exact (h.ascending.mutable_above a ha).1
    · exact (h.ascending.above immutable himmutable a ha).1
  have hnewer : ∀ a ∈ e.mutable.table.entries, ∀ immutable ∈ e.immutables,
      ∀ b ∈ immutable.table.entries, b.key.sequence < a.key.sequence :=
    fun a ha immutable himmutable b hb ↦ (h.ascending.above immutable himmutable b hb).2.trans_lt
      (h.ascending.mutable_newest immutable himmutable a ha)
  have hsymm : Std.Symm fun immutable other : ImmutableMemTable ↦
      ∀ a ∈ immutable.table.entries, ∀ b ∈ other.table.entries, a.key.sequence ≠ b.key.sequence :=
    ⟨fun _ _ hne a ha b hb ↦ (hne b hb a ha).symm⟩
  have hapart : e.immutables.Pairwise fun immutable other ↦
      ∀ a ∈ immutable.table.entries, ∀ b ∈ other.table.entries,
        a.key.sequence ≠ b.key.sequence :=
    h.ascending.ordered.imp_of_mem fun {older newer} holder _ hlt a ha b hb ↦
      ((h.ascending.above older holder a ha).2.trans_lt (hlt b hb)).ne
  rintro a (hmem | ha) b (hmem' | hb) huser hsequence
  · rcases hmem with ha | ⟨immutable, himmutable, ha⟩ <;>
      rcases hmem' with hb | ⟨other, hother, hb⟩
    · exact h.ascending.mutable_strict.eq_of_sequence_eq ha hb huser hsequence
    · exact absurd hsequence (hnewer a ha other hother b hb).ne'
    · exact absurd hsequence (hnewer b hb immutable himmutable a ha).ne
    · by_cases heq : immutable = other
      · subst heq
        exact (h.ascending.strict immutable himmutable).eq_of_sequence_eq ha hb huser hsequence
      · exact absurd hsequence (hapart.forall himmutable hother heq a ha b hb)
  · exact absurd hsequence ((h.sound.sequence_le b hb).trans_lt (hbelow a hmem)).ne'
  · exact absurd hsequence ((h.sound.sequence_le a ha).trans_lt (hbelow b hmem')).ne
  · exact h.sound.layered.eq_of_sequence_eq ha hb huser hsequence

private theorem Core.sources_shared (h : Core e) :
    (scanSources e.mutable.table (e.immutables.map (·.table)) e.versions.version
      (contentsOf e.directory.tables)).Pairwise fun a b ↦ ∀ x ∈ a, ∀ y ∈ b, x.key ≠ y.key := by
  have hnewer : ∀ {x y : InternalEntry}, NewerFirst x y → x.key ≠ y.key := by
    intro x y hnewer heq
    exact absurd (hnewer (by rw [heq])) (by rw [heq]; exact lt_irrefl _)
  have htables : e.versions.version.allFiles.Pairwise fun file other ↦
      ∀ x ∈ contentsOf e.directory.tables file, ∀ y ∈ contentsOf e.directory.tables other,
        x.key ≠ y.key := by
    have happart : ∀ {i j : Fin numLevels} {file other : FileMeta},
        file ∈ e.versions.version.levels i → other ∈ e.versions.version.levels j → file ≠ other →
        ∀ x ∈ contentsOf e.directory.tables file, ∀ y ∈ contentsOf e.directory.tables other,
          x.key ≠ y.key := by
      intro i j file other hfile hother hne x hx y hy
      rcases h.sound.layered.newer_or hfile hother hne with hfirst | hfirst
      · exact hnewer (hfirst x hx y hy)
      · exact (hnewer (hfirst y hy x hx)).symm
    refine List.pairwise_flatMap.mpr ⟨fun i _ ↦ ?_, ?_⟩
    · refine (e.versions.version.distinct.within i).imp_of_mem fun hfile hother hne ↦ ?_
      exact happart hfile hother fun heq ↦ hne (by rw [heq])
    · refine (List.nodup_finRange numLevels).imp fun {i j} hij file hfile other hother ↦ ?_
      exact happart hfile hother fun heq ↦
        e.versions.version.distinct.across i j hij file hfile other hother (by rw [heq])
  rw [scanSources, List.map_cons, List.cons_append, List.pairwise_cons, List.pairwise_append]
  refine ⟨fun source hsource x hx y hy ↦ hnewer fun _ ↦ ?_, ?_, ?_, ?_⟩
  · rcases List.mem_append.mp hsource with hsource | hsource
    · simp only [List.mem_map, List.mem_reverse] at hsource
      obtain ⟨_, ⟨immutable, himmutable, rfl⟩, rfl⟩ := hsource
      exact (h.ascending.above immutable himmutable y hy).2.trans_lt
        (h.ascending.mutable_newest immutable himmutable x hx)
    · obtain ⟨file, hfile, rfl⟩ := List.mem_map.mp hsource
      obtain ⟨level, -, hlevel⟩ := List.mem_flatMap.mp hfile
      exact (h.sound.sequence_le y ⟨level, file, hlevel, hy⟩).trans_lt
        (h.ascending.mutable_above x hx).1
  · rw [← List.map_reverse, List.map_map, List.pairwise_map]
    exact h.immutables_ordered.imp fun hfirst x hx y hy ↦ hnewer (hfirst x hx y hy)
  · exact List.pairwise_map.mpr htables
  · intro source hsource other hother x hx y hy
    simp only [List.mem_map, List.mem_reverse] at hsource
    obtain ⟨_, ⟨immutable, himmutable, rfl⟩, rfl⟩ := hsource
    obtain ⟨file, hfile, rfl⟩ := List.mem_map.mp hother
    obtain ⟨level, -, hlevel⟩ := List.mem_flatMap.mp hfile
    exact hnewer fun _ ↦ (h.sound.sequence_le y ⟨level, file, hlevel, hy⟩).trans_lt
      (h.ascending.above immutable himmutable x hx).1

private theorem mem_scanSources {entry : InternalEntry} :
    (∃ source ∈ scanSources e.mutable.table (e.immutables.map (·.table)) e.versions.version
      (contentsOf e.directory.tables), entry ∈ source) ↔ entry ∈ e.entries := by
  simp only [scanSources, Version.allFiles, entries, memEntries, Version.entries, Set.mem_union,
    Set.mem_ofPred_eq, List.mem_append, List.mem_map, List.mem_cons, List.mem_reverse,
    List.mem_flatMap]
  constructor
  · rintro ⟨_, ⟨_, rfl | ⟨immutable, himmutable, rfl⟩, rfl⟩ | ⟨file, ⟨level, -, hfile⟩, rfl⟩,
      hentry⟩
    · exact .inl (.inl hentry)
    · exact .inl (.inr ⟨immutable, himmutable, hentry⟩)
    · exact .inr ⟨level, file, hfile, hentry⟩
  · rintro ((hentry | ⟨immutable, himmutable, hentry⟩) | ⟨level, file, hfile, hentry⟩)
    · exact ⟨_, .inl ⟨_, .inl rfl, rfl⟩, hentry⟩
    · exact ⟨_, .inl ⟨_, .inr ⟨immutable, himmutable, rfl⟩, rfl⟩, hentry⟩
    · exact ⟨_, .inr ⟨file, ⟨level, List.mem_finRange level, hfile⟩, rfl⟩, hentry⟩

/-- **Scans.** A scan yields the visible values within its bounds, in key order. -/
theorem Core.exists_scan (h : Core e) (htables : e.KeepsTables tables) (bounds : ScanBounds)
    (limit : ℕ) (sequence : SequenceNumber) (readTimeUnixMs : U64) :
    ∃ it pairs, scanFromState e.mutable.table (e.immutables.map (·.table)) e.versions.version
        (fun file ↦ (readTable tables file).map (·.map .ok)) bounds limit sequence readTimeUnixMs
          = .ok it ∧
      Increasing Prod.fst pairs ∧
      (∀ key value, (key, value) ∈ pairs ↔ userKeyInBounds bounds key = true ∧
        ((e.visible key sequence).bind fun entry ↦ entry.record.intoValue readTimeUnixMs)
          = some value) ∧
      ∀ i, it.output i = (pairs.take limit)[i]?.map .ok := by
  set sources := scanSources e.mutable.table (e.immutables.map (·.table)) e.versions.version
    (contentsOf e.directory.tables)
  have hlevel : ∀ file ∈ e.versions.version.allFiles,
      ∃ level, file ∈ e.versions.version.levels level := fun file hfile ↦ by
    obtain ⟨level, -, hlevel⟩ := List.mem_flatMap.mp hfile
    exact ⟨level, hlevel⟩
  have hruns : ∀ file ∈ e.versions.version.allFiles, Run (contentsOf e.directory.tables file) :=
    fun file hfile ↦ (h.sound.layered.strict _ file (hlevel file hfile).choose_spec).run
  have hcovers : ∀ file ∈ e.versions.version.allFiles,
      ∀ entry ∈ contentsOf e.directory.tables file, file.Covers entry.key.userKey :=
    fun file hfile ↦ h.sound.layered.covers _ file (hlevel file hfile).choose_spec
  have hopen : ∀ file ∈ e.versions.version.allFiles, (readTable tables file).map (·.map .ok)
      = (.ok ((contentsOf e.directory.tables file).map .ok) :
        Result (List (Result InternalEntry))) :=
    fun file hfile ↦ by
      rw [h.readTable_eq htables (hlevel file hfile).choose_spec]
      rfl
  obtain ⟨it, n, tail, hit, hn, htail⟩ := exists_scan_delivers e.mutable.table
    (e.immutables.map (·.table)) bounds limit sequence readTimeUnixMs hruns hcovers h.sources_shared
    fun file hfile ↦ ⟨_, hopen file hfile, .inl rfl⟩
  obtain ⟨rfl, hnone⟩ := hn.complete (htail hopen)
  refine ⟨it, referenceScan bounds sequence readTimeUnixMs sources, hit, scanRun_increasing _ _ _ _,
    fun key value ↦ ?_, fun i ↦ ?_⟩
  · have hrun : Run (mergedEntries sources) := by
      refine mergedEntries_run (fun source hsource ↦ ?_) h.sources_shared
      rcases List.mem_append.mp hsource with hmem | hmem
      · obtain ⟨table, -, rfl⟩ := List.mem_map.mp hmem
        exact table.run
      · obtain ⟨file, hfile, rfl⟩ := List.mem_map.mp hmem
        exact hruns file hfile
    have hmem : ∀ entry, entry ∈ mergedEntries sources ↔ entry ∈ e.entries :=
      fun entry ↦ mem_mergedEntries.trans mem_scanSources
    have hstrict : StrictRun (mergedEntries sources) := strictRun_of_unique hrun fun a ha b hb ↦
      h.onePerSequence a ((hmem a).mp ha) b ((hmem b).mp hb)
    have hnewest : newest key sequence (mergedEntries sources) = e.visible key sequence := by
      refine Answers.unique h.onePerSequence ?_ (h.answers_visible key sequence)
      exact (answers_newest hstrict key sequence).congr fun entry _ ↦ (hmem entry).symm
    rw [referenceScan, mem_scanRun, hnewest]
  · by_cases hi : i < ((referenceScan bounds sequence readTimeUnixMs sources).take limit).length
    · exact hn.delivered i hi
    · rw [hnone i (not_lt.mp hi), List.getElem?_eq_none (not_lt.mp hi)]
      rfl

/-! ## Reads before and after a section -/

end Engine

end MeteorDB
