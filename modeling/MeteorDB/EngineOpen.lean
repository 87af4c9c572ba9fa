import MeteorDB.EngineSections

/-!
# Opening the engine

Opening replays the WALs that the manifest asks for into memtables. A record must carry the sequence
after the one before it, so the recovered memtables ascend from the last sequence of the manifest,
whatever the WALs hold. `Engine.Rest` is what is left of the invariant when the memory is lost, and
it is enough to open the engine again.
-/

namespace MeteorDB

open Attempt OrderedList

namespace Engine

variable {e e' : Engine}

/-! ## Replaying the WALs -/

theorem checkedNextSequence_eq_ok {sequence next : SequenceNumber} :
    checkedNextSequence sequence = .ok next ↔ next.val = sequence.val + 1 := by
  unfold checkedNextSequence
  split_ifs with hlt
  · have hval : (sequence + 1).val = sequence.val + 1 := Fin.val_add_one_of_lt' hlt
    constructor
    · intro h
      rw [← Except.ok.inj h, hval]
    · intro h
      rw [Fin.ext (h.trans hval.symm)]
  · refine ⟨nofun, fun h ↦ absurd next.isLt ?_⟩
    omega

/-- What holds while one WAL is replayed into a table: its entries lie above the sequence `low` that
was reached before. -/
structure Replaying (low : SequenceNumber) (state : ReplayState) : Prop where
  expected : state.expectedSequence.val = state.largestSequence.val + 1
  low_le : low ≤ state.largestSequence
  strict : StrictRun state.table.entries
  above : ∀ entry ∈ state.table.entries,
    low < entry.key.sequence ∧ entry.key.sequence ≤ state.tableLargest
  largest_le : state.tableLargest ≤ state.largestSequence

theorem Replaying.record {low : SequenceNumber} {counters : Counters} {number : U64}
    {state state' : ReplayState} {record : RecoveredBatch} (h : Replaying low state)
    (hreplay : replayRecord counters number state record = .ok state') : Replaying low state' := by
  unfold replayRecord at hreplay
  split_ifs at hreplay with hlegacy hsequence
  · rwa [← Except.ok.inj hreplay]
  obtain ⟨expected, hexpected, hreplay⟩ := Decoder.bind_eq_ok.mp hreplay
  obtain ⟨table, happly, hreplay⟩ := Decoder.bind_eq_ok.mp hreplay
  obtain rfl := Except.ok.inj hreplay
  have hnext := checkedNextSequence_eq_ok.mp hexpected
  have hlt : record.sequence.val < maxU64 := by
    have := expected.isLt
    unfold maxU64
    omega
  have hgreater : state.largestSequence < record.sequence := by
    rw [not_not.mp hsequence]
    exact Fin.lt_def.mpr (by have := h.expected; omega)
  have hbelow : ∀ entry ∈ state.table.entries, entry.key.sequence < record.sequence :=
    fun entry hentry ↦ ((h.above entry hentry).2.trans h.largest_le).trans_lt hgreater
  obtain ⟨table', happly', hstrict, hmem⟩ := MemTable.apply_above h.strict hlt hbelow record.batch
  obtain rfl := Except.ok.inj (happly'.symm.trans happly)
  refine ⟨hnext, (h.low_le.trans_lt hgreater).le, hstrict, fun entry hentry ↦ ?_, le_refl _⟩
  rcases (hmem entry).mp hentry with hentry | ⟨userKey, value, -, rfl⟩
  · exact ⟨(h.above entry hentry).1, (hbelow entry hentry).le⟩
  · exact ⟨h.low_le.trans_lt hgreater, le_refl _⟩

/-- What holds between the WALs: the recovered tables ascend from the last sequence of the
manifest. -/
structure Replayed (lastSequence : SequenceNumber) (recovery : Recovery) : Prop where
  expected : recovery.expectedSequence.val = recovery.largestSequence.val + 1
  last_le : lastSequence ≤ recovery.largestSequence
  strict : ∀ immutable ∈ recovery.recovered, StrictRun immutable.table.entries
  above : ∀ immutable ∈ recovery.recovered, ∀ entry ∈ immutable.table.entries,
    lastSequence < entry.key.sequence ∧ entry.key.sequence ≤ immutable.largestSequence
  largest_le : ∀ immutable ∈ recovery.recovered,
    immutable.largestSequence ≤ recovery.largestSequence
  ordered : recovery.recovered.Pairwise fun older newer ↦
    ∀ entry ∈ newer.table.entries, older.largestSequence < entry.key.sequence

theorem Replayed.segment {lastSequence : SequenceNumber} {faults : Faults} {counters : Counters}
    {recovery recovery' : Recovery} {segment : WalSegment} (h : Replayed lastSequence recovery)
    (hreplay : replaySegment faults counters recovery segment = .ok recovery') :
    Replayed lastSequence recovery' ∧
      recovery'.recovered.map (·.walNumber)
        = recovery.recovered.map (·.walNumber) ++ [segment.number] := by
  unfold replaySegment at hreplay
  cases hfault : faults (.readWal segment.number) with
  | some failure =>
    rw [hfault] at hreplay
    cases hreplay
  | none =>
  rw [hfault] at hreplay
  obtain ⟨state, hfold, hreplay⟩ := Decoder.bind_eq_ok.mp hreplay
  obtain rfl := Except.ok.inj hreplay
  have hstart : Replaying recovery.largestSequence
      ⟨.empty, 0, recovery.largestSequence, recovery.expectedSequence⟩ :=
    ⟨h.expected, le_refl _, strictRun_nil, fun entry hentry ↦ absurd hentry List.not_mem_nil,
      Fin.zero_le _⟩
  have hstate : Replaying recovery.largestSequence state :=
    foldlM_preserves (fun _ _ _ hstate hrecord ↦ hstate.record hrecord) hstart hfold
  have hmem :
      ∀ immutable ∈ recovery.recovered ++ [⟨state.table, segment.number, state.tableLargest⟩],
      immutable ∈ recovery.recovered ∨
        immutable = ⟨state.table, segment.number, state.tableLargest⟩ :=
    fun immutable himmutable ↦ (List.mem_append.mp himmutable).imp_right List.mem_singleton.mp
  refine ⟨⟨hstate.expected, h.last_le.trans hstate.low_le, ?_, ?_, ?_, ?_⟩, by simp⟩
  · intro immutable himmutable
    rcases hmem immutable himmutable with himmutable | rfl
    · exact h.strict immutable himmutable
    · exact hstate.strict
  · intro immutable himmutable entry hentry
    rcases hmem immutable himmutable with himmutable | rfl
    · exact h.above immutable himmutable entry hentry
    · obtain ⟨habove, hbelow⟩ := hstate.above entry hentry
      exact ⟨h.last_le.trans_lt habove, hbelow⟩
  · intro immutable himmutable
    rcases hmem immutable himmutable with himmutable | rfl
    · exact (h.largest_le immutable himmutable).trans hstate.low_le
    · exact hstate.largest_le
  · rw [List.pairwise_append]
    refine ⟨h.ordered, List.pairwise_singleton _ _, fun older holder newer hnewer entry hentry ↦ ?_⟩
    rw [List.mem_singleton.mp hnewer] at hentry
    exact (h.largest_le older holder).trans_lt (hstate.above entry hentry).1

/-- **Recovery.** The WALs are replayed into memtables that ascend from the last sequence. -/
theorem recoverWals_eq_ok {faults : Faults} {counters : Counters} {segments : List WalSegment}
    {recovery : Recovery} (h : recoverWals faults counters segments = .ok recovery) :
    Replayed counters.lastSequence recovery ∧ counters.walSequence ≤ recovery.largestSequence ∧
      recovery.recovered.map (·.walNumber) = segments.map (·.number) := by
  unfold recoverWals at h
  obtain ⟨expected, hexpected, h⟩ := Decoder.bind_eq_ok.mp h
  obtain ⟨recovery', hfold, h⟩ := Decoder.bind_eq_ok.mp h
  split_ifs at h with hshort
  obtain rfl := Except.ok.inj h
  have hstart : Replayed counters.lastSequence ⟨[], counters.lastSequence, expected⟩ :=
    ⟨checkedNextSequence_eq_ok.mp hexpected, le_refl _, nofun, nofun, nofun, .nil⟩
  have hfolded : ∀ (segments : List WalSegment) (start finish : Recovery),
      Replayed counters.lastSequence start →
        segments.foldlM (replaySegment faults counters) start = .ok finish →
          Replayed counters.lastSequence finish ∧ finish.recovered.map (·.walNumber)
            = start.recovered.map (·.walNumber) ++ segments.map (·.number) := by
    intro segments
    induction segments with
    | nil =>
      intro start finish hstart hfold
      obtain rfl := Except.ok.inj hfold
      exact ⟨hstart, by simp⟩
    | cons segment segments ih =>
      intro start finish hstart hfold
      rw [List.foldlM_cons] at hfold
      obtain ⟨middle, hsegment, hfold⟩ := Decoder.bind_eq_ok.mp hfold
      obtain ⟨hmiddle, hnumbers⟩ := hstart.segment hsegment
      obtain ⟨hfinish, hnumbers'⟩ := ih middle finish hmiddle hfold
      exact ⟨hfinish, by rw [hnumbers', hnumbers]; simp⟩
  obtain ⟨hreplayed, hnumbers⟩ := hfolded segments _ _ hstart hfold
  exact ⟨hreplayed, not_lt.mp hshort, hnumbers⟩

/-- The recovered memtables that are not empty become the immutable ones. -/
theorem Replayed.ascending {lastSequence nextSequence : SequenceNumber} {recovery : Recovery}
    (h : Replayed lastSequence recovery)
    (hnext : nextSequence.val = recovery.largestSequence.val + 1) :
    Ascending lastSequence (recovery.recovered.filter fun immutable ↦ !immutable.table.isEmpty)
      .empty nextSequence := by
  have hlt : recovery.largestSequence < nextSequence := Fin.lt_def.mpr (by omega)
  have hmem : ∀ immutable ∈ recovery.recovered.filter fun immutable ↦ !immutable.table.isEmpty,
      immutable ∈ recovery.recovered ∧ immutable.table.entries ≠ [] := by
    intro immutable himmutable
    obtain ⟨himmutable, hne⟩ := List.mem_filter.mp himmutable
    exact ⟨himmutable, by simpa [MemTable.isEmpty] using hne⟩
  exact ⟨h.last_le.trans_lt hlt, fun immutable himmutable ↦ (hmem immutable himmutable).2,
    fun immutable himmutable ↦ h.strict immutable (hmem immutable himmutable).1,
    fun immutable himmutable ↦ h.above immutable (hmem immutable himmutable).1,
    fun immutable himmutable ↦ (h.largest_le immutable (hmem immutable himmutable).1).trans_lt hlt,
    h.ordered.filter _, strictRun_nil, fun entry hentry ↦ absurd hentry List.not_mem_nil,
    fun _ _ entry hentry ↦ absurd hentry List.not_mem_nil⟩

/-! ## Selecting the WALs -/

theorem selectWals_eq_ok {counters : Counters} {all segments : List WalSegment}
    (h : selectWals counters all = .ok segments) :
    List.Sublist segments all ∧ ∀ segment ∈ segments, counters.logNumber ≤ segment.number := by
  have hlegacy : legacyWalMetadata counters = true → ∀ number, counters.logNumber ≤ number := by
    intro hlegacy number
    have hzero : counters.logNumber = 0 := by simpa using (Bool.and_eq_true_iff.mp hlegacy).1
    rw [hzero]
    exact Fin.zero_le _
  unfold selectWals at h
  cases hrequired : requiredLogNumbers counters all with
  | none =>
    rw [hrequired] at h
    obtain rfl := Except.ok.inj h
    unfold requiredLogNumbers at hrequired
    split_ifs at hrequired with hmetadata
    exact ⟨List.Sublist.refl _, fun segment _ ↦ hlegacy hmetadata segment.number⟩
  | some required =>
    rw [hrequired] at h
    obtain ⟨u, -, h⟩ := Decoder.bind_eq_ok.mp h
    obtain rfl := Except.ok.inj h
    refine ⟨List.filter_sublist, fun segment hsegment ↦ ?_⟩
    obtain ⟨-, hinside⟩ := List.mem_filter.mp hsegment
    have hoff : required.1 ≤ segment.number := by simpa using (Bool.and_eq_true_iff.mp hinside).1
    unfold requiredLogNumbers at hrequired
    split_ifs at hrequired with hmetadata
    · exact hlegacy hmetadata segment.number
    · rwa [← Option.some.inj hrequired] at hoff

theorem le_foldl_max {α : Type} [LinearOrder α] (l : List α) (a : α) :
    a ≤ l.foldl max a ∧ ∀ b ∈ l, b ≤ l.foldl max a := by
  induction l generalizing a with
  | nil => exact ⟨le_refl a, nofun⟩
  | cons b l ih =>
    obtain ⟨hstart, hrest⟩ := ih (max a b)
    refine ⟨(le_max_left a b).trans hstart, fun c hc ↦ ?_⟩
    rcases List.mem_cons.mp hc with rfl | hc
    · exact (le_max_right a c).trans hstart
    · exact hrest c hc

/-! ## Opening -/

/-- What is left when the memory is lost. -/
structure Rest (engine : Engine) : Prop where
  sound : engine.directory.manifest.Sound engine.directory.tables
  accepted : ∀ built ∈ engine.edits, EditAccepted built
  walFiles_ne : ∀ segment ∈ engine.directory.wals, segment.number ≠ 0

theorem Inv.rest (h : Inv e) : Rest e := ⟨h.manifest ▸ h.sound, h.accepted, h.walFiles_ne⟩

/-- The edit of opening moves no counter backward. -/
theorem open_counters {state : VersionState} {tables : U64 → Option (List InternalEntry)}
    (h : state.Sound tables) {numbers : List U64} {number next : U64}
    {walSequence : SequenceNumber} (hnext : next.val = number.val + 1)
    (hnumber : state.counters.nextFileNumber ≤ number) (hne : ∀ wal ∈ numbers, wal ≠ 0)
    (hlog : ∀ wal ∈ numbers, state.counters.logNumber ≤ wal)
    (hwal : state.counters.walSequence ≤ walSequence) :
    ∃ edit : VersionEdit, edit =
        { nextFileNumber := some next
          lastSequence := some state.counters.lastSequence
          logNumber := some (numbers.foldr min number)
          activeLogNumber := some number
          walSequence := some walSequence } ∧
      edit.CountersOnly ∧ state.counters.Le (state.counters.merge edit) ∧
      (state.counters.merge edit).Valid := by
  obtain ⟨hmem, hmin⟩ := foldr_min_mem numbers number
  have hlt : number < next := Fin.lt_def.mpr (by omega)
  have hpos : number ≠ 0 := (h.next_pos.trans_le hnumber).ne'
  have hactive : state.counters.activeLogNumber ≤ number := by
    by_cases hzero : state.counters.activeLogNumber = 0
    · rw [hzero]
      exact Fin.zero_le _
    · exact ((h.valid.active_lt hzero).trans_le hnumber).le
  have hoff : ∀ wal ∈ numbers ++ [number], wal ≠ 0 ∧ state.counters.logNumber ≤ wal := by
    exact List.forall_mem_append.mpr ⟨fun wal hwal ↦ ⟨hne wal hwal, hlog wal hwal⟩,
      List.forall_mem_singleton.mpr ⟨hpos, h.valid.log_le.trans hactive⟩⟩
  refine ⟨_, rfl, ⟨rfl, rfl⟩, ⟨hnumber.trans hlt.le, le_refl _, (hoff _ hmem).2, hactive, hwal⟩, ?_⟩
  exact ⟨iff_of_false (hoff _ hmem).1 hpos,
    hmin _ (List.mem_append_right _ (List.mem_singleton.mpr rfl)), fun _ ↦ hlt⟩

/-- What opening reads before it writes: the WALs it replays, what they hold, and the numbers of the
new WAL and of the file after it. -/
structure Found (faults : Faults) (d : Directory) where
  segments : List WalSegment
  recovery : Recovery
  number : U64
  next : U64
  selected : selectWals d.manifest.counters (walPaths d) = .ok segments
  recovered : recoverWals faults d.manifest.counters segments = .ok recovery
  numbered : checkedNextFileNumber (((walPaths d).map (·.number)).foldl max
    (saturatingPred d.manifest.counters.nextFileNumber)) = .ok number
  follows : checkedNextFileNumber number = .ok next

namespace Found

variable {faults : Faults} {d : Directory} (found : Found faults d)

/-- The recovered memtables that are queued for flushing. -/
def immutables : List ImmutableMemTable :=
  found.recovery.recovered.filter fun immutable ↦ !immutable.table.isEmpty

/-- The WALs that are kept: those of the recovered memtables and the new one. -/
def retained : List U64 := found.immutables.map (·.walNumber) ++ [found.number]

def edit : VersionEdit where
  nextFileNumber := some found.next
  lastSequence := some d.manifest.counters.lastSequence
  logNumber := some ((found.immutables.map (·.walNumber)).foldr min found.number)
  activeLogNumber := some found.number
  walSequence := some found.recovery.largestSequence

/-- The WALs on disk while those that are not kept are removed. -/
structure Keeps (wals : List WalSegment) : Prop where
  sublist : List.Sublist wals (d.addWal found.number).wals
  kept : ∀ segment ∈ (d.addWal found.number).wals, segment.number ∈ found.retained →
    segment ∈ wals

theorem Keeps.remove {found : Found faults d} {wals : List WalSegment} {wal : U64}
    (h : found.Keeps wals) (hwal : wal ∉ found.retained) :
    found.Keeps (wals.filter (·.number ≠ wal)) := by
  refine ⟨List.filter_sublist.trans h.sublist, fun segment hsegment hretain ↦ ?_⟩
  refine List.mem_filter.mpr ⟨h.kept segment hsegment hretain, ?_⟩
  simpa using fun heq : segment.number = wal ↦ hwal (heq ▸ hretain)

theorem next_eq : found.next.val = found.number.val + 1 :=
  checkedNextFileNumber_eq_ok.mp found.follows

theorem number_lt : found.number < found.next :=
  Fin.lt_def.mpr (by rw [found.next_eq]; exact Nat.lt_succ_self _)

private theorem exists_segment {wal : U64} (hwal : wal ∈ found.immutables.map (·.walNumber)) :
    ∃ segment ∈ found.segments, segment.number = wal := by
  obtain ⟨immutable, himmutable, rfl⟩ := List.mem_map.mp hwal
  have hmem : immutable.walNumber ∈ found.segments.map (·.number) :=
    (recoverWals_eq_ok found.recovered).2.2 ▸
      List.mem_map.mpr ⟨immutable, List.mem_of_mem_filter himmutable, rfl⟩
  exact List.mem_map.mp hmem

private theorem le_number : d.manifest.counters.nextFileNumber ≤ found.number := by
  have hnumber := checkedNextFileNumber_eq_ok.mp found.numbered
  have hpred := Fin.le_def.mp (le_foldl_max ((walPaths d).map (·.number))
    (saturatingPred d.manifest.counters.nextFileNumber)).1
  rw [saturatingPred_val] at hpred
  exact Fin.le_def.mpr (by omega)

/-- The edit of opening is accepted. -/
theorem exists_apply (hsound : d.manifest.Sound d.tables)
    (hne : ∀ segment ∈ d.wals, segment.number ≠ 0) :
    ∃ versions : VersionState, d.manifest.apply false found.edit = .ok versions ∧
      found.edit.CountersOnly ∧ versions.Sound d.tables ∧
      d.manifest.version.SameTables versions.version ∧
      versions.counters = d.manifest.counters.merge found.edit ∧
      d.manifest.counters.Le versions.counters := by
  obtain ⟨hsub, hlog⟩ := selectWals_eq_ok found.selected
  have hnumbers : ∀ wal ∈ found.immutables.map (·.walNumber),
      wal ≠ 0 ∧ d.manifest.counters.logNumber ≤ wal := by
    intro wal hwal
    obtain ⟨segment, hmem, rfl⟩ := found.exists_segment hwal
    exact ⟨hne segment ((List.perm_insertionSort _ _).subset (hsub.subset hmem)),
      hlog segment hmem⟩
  obtain ⟨edit, hedit, honly, hle, hvalid⟩ := open_counters hsound found.next_eq found.le_number
    (fun wal hwal ↦ (hnumbers wal hwal).1) (fun wal hwal ↦ (hnumbers wal hwal).2)
    (recoverWals_eq_ok found.recovered).2.1
  obtain rfl : edit = found.edit := hedit
  obtain ⟨versions, happly, hsound', -, hcounters, hsame⟩ := hsound.exists_counters honly hle hvalid
  exact ⟨versions, happly, honly, hsound', hsame, hcounters, hcounters ▸ hle⟩

theorem of_apply {found : Found faults d} (hsound : d.manifest.Sound d.tables)
    (hne : ∀ segment ∈ d.wals, segment.number ≠ 0) {versions : VersionState}
    (happly : d.manifest.apply false found.edit = .ok versions) :
    versions.Sound d.tables ∧ d.manifest.version.SameTables versions.version ∧
      versions.counters = d.manifest.counters.merge found.edit ∧
      d.manifest.counters.Le versions.counters := by
  obtain ⟨versions', happly', -, hrest⟩ := found.exists_apply hsound hne
  rwa [Except.ok.inj (happly.symm.trans happly')]

theorem accepted (hsound : d.manifest.Sound d.tables)
    (hne : ∀ segment ∈ d.wals, segment.number ≠ 0) {edits : List (VersionState × VersionEdit)}
    (h : ∀ built ∈ edits, EditAccepted built) :
    ∀ built ∈ edits ++ [(d.manifest, found.edit)], EditAccepted built := by
  obtain ⟨versions, happly, -, hsound', -⟩ := found.exists_apply hsound hne
  exact accepted_append h happly hsound'

end Found

/-- What opening leaves, whichever of its steps fails: nothing but the state of the manifest has
been read (`refused`), the new WAL is there (`created`), the edit has failed (`unedited`), the WALs
that are not kept are being removed (`edited`), or the engine is open. -/
inductive Opens (faults : Faults) (e : Engine) : Result Unit → Engine → Prop
  | refused (error : Error) : Opens faults e (.error error)
      { e with versions := e.directory.manifest, manifestUsable := true }
  | created (found : Found faults e.directory) (error : Error) : Opens faults e (.error error)
      { e with
        versions := e.directory.manifest
        manifestUsable := true
        directory := e.directory.addWal found.number }
  | unedited (found : Found faults e.directory) (error : Error) (usable : Bool)
      (manifest : VersionState) (h : manifest = e.directory.manifest ∨
        e.directory.manifest.apply false found.edit = .ok manifest) :
      Opens faults e (.error error) { e with
        versions := e.directory.manifest
        edits := e.edits ++ [(e.directory.manifest, found.edit)]
        manifestUsable := usable
        directory := { e.directory.addWal found.number with manifest } }
  | edited (found : Found faults e.directory) (error : Error) {versions : VersionState}
      {wals : List WalSegment} (happly : e.directory.manifest.apply false found.edit = .ok versions)
      (hkeeps : found.Keeps wals) : Opens faults e (.error error) { e with
        versions
        edits := e.edits ++ [(e.directory.manifest, found.edit)]
        manifestUsable := true
        directory := { e.directory with manifest := versions, wals } }
  | opened (found : Found faults e.directory) {versions : VersionState} {wals : List WalSegment}
      {nextSequence : SequenceNumber}
      (happly : e.directory.manifest.apply false found.edit = .ok versions)
      (hkeeps : found.Keeps wals)
      (hsequence : nextSequence.val = found.recovery.largestSequence.val + 1) :
      Opens faults e (.ok ()) { e with
        versions
        edits := e.edits ++ [(e.directory.manifest, found.edit)]
        manifestUsable := true
        directory := { e.directory with manifest := versions, wals }
        mutable := ⟨.empty, found.number⟩
        immutables := found.immutables
        walNumbers := found.retained.toFinset
        nextFileNumber := found.next
        nextSequence
        flushRunning := false
        closed := false
        terminalFailure := none
        backgroundFailure := false }

/-- The last steps of opening. -/
private theorem opens_finish {faults : Faults} (found : Found faults e.directory)
    {versions : VersionState} {wals : List WalSegment}
    (happly : e.directory.manifest.apply false found.edit = .ok versions)
    (hkeeps : found.Keeps wals) :
    wp (do
      let nextSequence ← liftM (checkedNextSequence found.recovery.largestSequence)
      modify fun engine : Engine ↦ { engine with
        mutable := ⟨.empty, found.number⟩
        immutables := found.immutables
        walNumbers := found.retained.toFinset
        nextFileNumber := found.next
        nextSequence
        flushRunning := false
        closed := false
        terminalFailure := none
        backgroundFailure := false } : Section Unit) (Opens faults e) { e with
      versions
      edits := e.edits ++ [(e.directory.manifest, found.edit)]
      manifestUsable := true
      directory := { e.directory with manifest := versions, wals } } := by
  refine wp_lift_bind (fun error _ ↦ .edited found error happly hkeeps) fun next hsequence ↦ ?_
  exact .opened found happly hkeeps (checkedNextSequence_eq_ok.mp hsequence)

theorem openEngine_opens {faults : Faults} :
    wp (Engine.openEngine faults) (Opens faults e) e := by
  unfold Engine.openEngine
  rw [wp_modify_bind, wp_get_bind]
  refine wp_lift_bind (fun error _ ↦ .refused error) fun segments hselect ↦ ?_
  refine wp_lift_bind (fun error _ ↦ .refused error) fun recovery hrecover ↦ ?_
  refine wp_lift_bind (fun error _ ↦ .refused error) fun number hnumber ↦ ?_
  refine wp_lift_bind (fun error _ ↦ .refused error) fun next hnext ↦ ?_
  let found : Found faults e.directory :=
    ⟨segments, recovery, number, next, hselect, hrecover, hnumber, hnext⟩
  dsimp only
  rw [wp_bind]
  refine wp_perform_faults ?_ .refused (.created found)
  dsimp only
  rw [wp_bind]
  refine wp_forM (p := fun s ↦ s = { e with
    versions := e.directory.manifest
    manifestUsable := true
    directory := e.directory.addWal number }) rfl ?_ ?_
  swap
  · rintro segment - _ rfl
    refine wp_perform_id fun r ↦ ?_
    cases r with
    | ok u => rfl
    | error error => exact .created found error
  rintro _ rfl
  dsimp only
  rw [wp_bind]
  refine wp_applyEdit_usable rfl (fun error usable manifest h ↦ ?_) fun versions happly ↦ ?_
  · exact .unedited found error usable manifest (h.imp And.left fun h ↦ h.2.2)
  dsimp only
  rw [wp_bind]
  -- The removals change nothing but the WALs on disk.
  refine wp_forM (p := fun s ↦ ∃ wals, found.Keeps wals ∧ s = { e with
      versions
      edits := e.edits ++ [(e.directory.manifest, found.edit)]
      manifestUsable := true
      directory := { e.directory with manifest := versions, wals } })
    ⟨_, ⟨List.Sublist.refl _, fun _ hsegment _ ↦ hsegment⟩, rfl⟩ ?_ ?_
  swap
  · rintro wal hwal _ ⟨wals, hkeeps, rfl⟩
    have hkeeps' := hkeeps.remove (of_decide_eq_true (List.mem_filter.mp hwal).2)
    exact wp_perform_faults ⟨_, hkeeps', rfl⟩ (fun error ↦ .edited found error happly hkeeps)
      fun error ↦ .edited found error happly hkeeps'
  rintro _ ⟨wals, hkeeps, rfl⟩
  dsimp only
  rw [wp_ite]
  refine ⟨fun _ ↦ ?_, fun _ ↦ ?_⟩
  · rw [wp_bind]
    refine wp_perform_id fun r ↦ ?_
    cases r with
    | error error => exact .edited found error happly hkeeps
    | ok u => exact opens_finish found happly hkeeps
  · exact opens_finish found happly hkeeps

/-- **Opening.** From whatever an engine left on disk, opening either fails, or gives an engine that
has the invariant. -/
theorem Rest.openEngine {faults : Faults} (h : Rest e) :
    wp (Engine.openEngine faults) (fun r e' ↦ Rest e' ∧ (r = .ok () → Inv e' ∧
      e'.flushRunning = false)) e := by
  refine wp_mono openEngine_opens fun r e' hopens ↦ ?_
  have haccepted := fun found : Found faults e.directory ↦
    found.accepted h.sound h.walFiles_ne h.accepted
  have hpos : ∀ found : Found faults e.directory, found.number ≠ 0 :=
    fun found ↦ (h.sound.next_pos.trans_le found.le_number).ne'
  have hwals : ∀ found : Found faults e.directory,
      ∀ segment ∈ (e.directory.addWal found.number).wals, segment.number ≠ 0 := fun found ↦
    List.forall_mem_append.mpr ⟨h.walFiles_ne, List.forall_mem_singleton.mpr (hpos found)⟩
  cases hopens with
  | refused error => exact ⟨{ h with }, nofun⟩
  | created found error => exact ⟨⟨h.sound, h.accepted, hwals found⟩, nofun⟩
  | unedited found error usable manifest hcases =>
    refine ⟨⟨?_, haccepted found, hwals found⟩, nofun⟩
    rcases hcases with rfl | happly
    · exact h.sound
    · exact (Found.of_apply h.sound h.walFiles_ne happly).1
  | edited found error happly hkeeps =>
    exact ⟨⟨(Found.of_apply h.sound h.walFiles_ne happly).1, haccepted found,
      fun segment hsegment ↦ hwals found segment (hkeeps.sublist.subset hsegment)⟩, nofun⟩
  | @opened found versions wals nextSequence happly hkeeps hsequence =>
    obtain ⟨hsound, -, hcounters, -⟩ := Found.of_apply h.sound h.walFiles_ne happly
    have hrest := fun segment hsegment ↦ hwals found segment (hkeeps.sublist.subset hsegment)
    refine ⟨⟨hsound, haccepted found, hrest⟩, fun _ ↦ ⟨?_, rfl⟩⟩
    obtain ⟨-, hmin⟩ := foldr_min_mem (found.immutables.map (·.walNumber)) found.number
    refine ⟨rfl, rfl, hsound, haccepted found, hrest, ?_, found.number_lt, ?_, ?_, ?_, ?_, ?_⟩
    · rw [hcounters]
      exact le_refl _
    · intro wal hwal
      rcases List.mem_append.mp hwal with hwal | hwal
      · obtain ⟨segment, hmem, rfl⟩ := found.exists_segment hwal
        exact h.walFiles_ne segment ((List.perm_insertionSort _ _).subset
          ((selectWals_eq_ok found.selected).1.subset hmem))
      · rw [List.mem_singleton.mp hwal]
        exact hpos found
    · rw [hcounters]
      exact hmin
    · rw [hcounters]
      exact le_refl _
    · rw [hcounters]
      exact Fin.lt_def.mpr (by
        show found.recovery.largestSequence.val < nextSequence.val
        omega)
    · rw [hcounters]
      exact (recoverWals_eq_ok found.recovered).1.ascending hsequence

end Engine

end MeteorDB
