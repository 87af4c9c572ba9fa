import MeteorDB.WriteOutcome

/-!
# Which edits can be published

A flush and a compaction are published by an edit that names the first and the last key of every new
table. The manifest refuses a record of more than `maxEditBytes`, and that refusal disables the
engine. Nothing else bounds the record: keys are as long as the options allow, and a compaction may
write any number of tables.

The size of either edit follows from the state before it is built: for a flush from the memtable,
for a compaction from the merged entries and the target size (`splitOutputs`).
`Reachable.publishes_iff` says that this size alone decides.
-/

namespace MeteorDB

open Attempt Decoder

/-! ## Sizes of the edits -/

/-- The bytes that a table with these entries takes in an edit. -/
def tableEditBytes (entries : List InternalEntry) : ℕ :=
  28 + (entries.head?.elim 0 fun entry ↦ entry.key.asBytes.length)
    + (entries.getLast?.elim 0 fun entry ↦ entry.key.asBytes.length)

/-- The size of the edit that publishes a memtable. -/
def flushEditBytes (table : MemTable) : ℕ := 46 + tableEditBytes table.entries

/-- The size of the edit that publishes a plan. -/
def compactionEditBytes (context : CompactionContext)
    (tables : U64 → Option (List InternalEntry)) (plan : CompactionPlan) : ℕ :=
  22 + 12 * plan.files.length + ((splitOutputs context.targetSstableBytes
    (retainedGroups context plan.outputLevel
      (mergedEntries (plan.files.map (contentsOf tables)))) none).map tableEditBytes).sum

private theorem le_length_encodeUserKey (key : Bytes) :
    key.length ≤ (encodeUserKey key).length := by
  induction key with
  | nil => exact Nat.zero_le _
  | cons byte rest ih =>
    rw [encodeUserKey]
    split_ifs
    · exact Nat.succ_le_succ (ih.trans (Nat.le_succ _))
    · exact Nat.succ_le_succ ih

theorem CompactedTable.Described.editBytes {table : CompactedTable} (h : table.Described) :
    table.file.editBytes = tableEditBytes table.entries := by
  have hsmallest := h.smallest
  have hlargest := h.largest
  rw [FileMeta.editBytes, tableEditBytes]
  cases hfirst : table.entries.head? with
  | none => rw [hfirst] at hsmallest; cases hsmallest
  | some first =>
  cases hlast : table.entries.getLast? with
  | none => rw [hlast] at hlargest; cases hlargest
  | some last =>
  rw [hfirst] at hsmallest
  rw [hlast] at hlargest
  rw [← Option.some.inj hsmallest, ← Option.some.inj hlargest]
  rfl

namespace Engine

variable {e : Engine}

private theorem flushEdit_encodable_iff {immutable : ImmutableMemTable} {file : FileMeta}
    (h : (⟨file, immutable.table.entries⟩ : CompactedTable).Described) :
    (e.flushEdit immutable file).Encodable ↔ flushEditBytes immutable.table ≤ maxEditBytes := by
  have hlength : (e.flushEdit immutable file).bytes.length = flushEditBytes immutable.table := by
    rw [VersionEdit.length_bytes, flushEditBytes, ← h.editBytes]
    simp [flushEdit]
  rw [VersionEdit.encodable_iff (by simp [flushEdit]) (by simp [flushEdit, numLevels]), hlength]

end Engine

private theorem planEdit_encodable_iff {plan : CompactionPlan} {outputs : List CompactedTable}
    {next : U64} (h : ∀ table ∈ outputs, table.Described) :
    (plan.edit (outputs.map (·.file)) next).Encodable ↔
      22 + 12 * plan.files.length + ((outputs.map (·.entries)).map tableEditBytes).sum
        ≤ maxEditBytes := by
  have hsizes : outputs.map (fun table ↦ table.file.editBytes)
      = (outputs.map (·.entries)).map tableEditBytes := by
    rw [List.map_map]
    exact List.map_congr_left fun table htable ↦ (h table htable).editBytes
  have hlength : (plan.edit (outputs.map (·.file)) next).bytes.length
      = 22 + 12 * plan.files.length + ((outputs.map (·.entries)).map tableEditBytes).sum := by
    rw [VersionEdit.length_bytes, ← hsizes]
    simp [CompactionPlan.edit, CompactionPlan.files, Function.comp_def]
  rw [VersionEdit.encodable_iff ?_ ?_, hlength]
  · simp only [CompactionPlan.edit, List.mem_append, List.mem_map]
    rintro _ (⟨file, -, rfl⟩ | ⟨file, -, rfl⟩)
    · exact plan.inputLevel.isLt
    · exact plan.outputLevel.isLt
  · simp only [CompactionPlan.edit, List.mem_map]
    rintro _ ⟨file, -, rfl⟩
    exact plan.outputLevel.isLt

/-! ## Runs -/

namespace Machine

open Engine

variable {options : Options} {m m' : Machine} {e : Engine}

/-- The table that the worker has built is described by its metadata. -/
def BuiltDescribed (worker : Worker) : Prop :=
  ∀ immutable number file, worker = .built immutable number (.ok file) →
    (⟨file, immutable.table.entries⟩ : CompactedTable).Described

theorem BuiltDescribed.step (h : m.up = true → BuiltDescribed m.worker) (hinv : Inv m)
    (hstep : Step options m m') : BuiltDescribed m'.worker := by
  cases hstep with
  | write _ hup | writeFails _ hup | sync hup | close hup | callFlush hup | enterFlush _ hup
  | enterFlushFails _ hup | drainFlush _ hup | drainFlushFails _ hup | takeNothing hup
  | pick _ _ hup | compact _ _ _ hup | failCompaction hup => exact h hup
  | takeFlush | finishFlush | stop | openEngine => exact fun _ _ _ ↦ nofun
  | build fileSize hup hworker hexec =>
    intro immutable number file hbuilt
    have hflushing := (hinv.up hup).worker
    rw [hworker] at hflushing
    obtain ⟨-, -, hresult⟩ :=
      wp_of_exec ((hinv.up hup).inv.buildSstable hflushing.used_lt) hexec
    obtain ⟨rfl, rfl, rfl⟩ := Worker.built.inj hbuilt
    exact (hresult file rfl).2.2.2

private theorem Reachable.builtDescribed (h : Reachable options m) (hup : m.up = true) :
    BuiltDescribed m.worker := by
  induction h with
  | fresh h => exact absurd (h.2.2.symm.trans hup) Bool.false_ne_true
  | step h hstep ih => exact .step ih h.inv hstep

/-- The worker publishes what it has built exactly when the edit is within the limit. -/
theorem Reachable.finishFlush_iff (h : Reachable options m) (hup : m.up = true)
    {immutable : ImmutableMemTable} {number : U64} {file : FileMeta}
    (hworker : m.worker = .built immutable number (.ok file)) {r : Result Unit}
    (hexec : (Engine.finishFlush noFaults immutable (.ok file)).exec m.engine = (r, e)) :
    (r = .ok () ↔ flushEditBytes immutable.table ≤ maxEditBytes) ∧
      (e.terminalFailure = none ↔ m.engine.terminalFailure = none ∧
        flushEditBytes immutable.table ≤ maxEditBytes) := by
  have hopen := h.inv.up hup
  have hworkerInv := hopen.worker
  rw [hworker] at hworkerInv
  obtain ⟨hflushing, hbuilt⟩ := hworkerInv
  obtain ⟨immutables, himmutables⟩ := List.head?_eq_some_iff.mp hflushing.head
  obtain ⟨rfl, htable, hcovers⟩ := hbuilt file rfl
  obtain ⟨-, -, -, hresult, hfailure⟩ := wp_of_exec (hopen.inv.finishFlush himmutables
    fun other hother ↦ Except.ok.inj hother ▸
      ⟨hflushing.used_lt, hflushing.lt_next, htable, hcovers⟩) hexec
  have hencodable := flushEdit_encodable_iff (e := m.engine) (h.builtDescribed hup _ _ _ hworker)
  have hok : r = .ok () ↔ flushEditBytes immutable.table ≤ maxEditBytes := by
    rw [hresult, ← hencodable]
    exact ⟨fun ⟨_, hfile, hfits⟩ ↦ Except.ok.inj hfile ▸ hfits, fun hfits ↦ ⟨file, rfl, hfits⟩⟩
  exact ⟨hok, hfailure.trans (and_congr_right fun _ ↦ hok)⟩

/-- A plan whose run succeeds is published exactly when its edit is within the limit. -/
theorem Reachable.compact_iff (h : Reachable options m) (hup : m.up = true) {plan : CompactionPlan}
    (hplan : plan ∈ m.plans) {oldestActiveSnapshot : Option SequenceNumber} {readTimeUnixMs : U64}
    {fileSize : U64 → U64} {result : Result Unit}
    (hexec : (executeCompactionPlan options noFaults oldestActiveSnapshot readTimeUnixMs fileSize
      plan).exec m.engine = (.ok result, e)) {outputs : List CompactedTable} {next : U64}
    (hrun : compactionRun (m.engine.compactionContext options noFaults oldestActiveSnapshot
      readTimeUnixMs fileSize) plan = .ok (outputs, next)) :
    ((plan.edit (outputs.map (·.file)) next).Encodable ↔
      compactionEditBytes (m.engine.compactionContext options noFaults oldestActiveSnapshot
        readTimeUnixMs fileSize) m.engine.directory.tables plan ≤ maxEditBytes) ∧
    (result = .ok () ↔ (plan.edit (outputs.map (·.file)) next).Encodable) ∧
    e.terminalFailure = m.engine.terminalFailure := by
  have hopen := h.inv.up hup
  have hreplaceable : validateCompactionPlan plan m.engine.versions.version = .ok () →
      Replaceable m.engine.versions.version plan := by
    intro hvalid
    obtain ⟨hinputs, hoverlaps⟩ := validateCompactionPlan_eq_ok.mp hvalid
    exact (hopen.plans plan hplan).replaceable ⟨hinputs, hoverlaps⟩
  obtain ⟨-, -, hresult, -, hfailure⟩ :=
    wp_of_exec (hopen.inv.executeCompactionPlan hreplaceable) hexec
  obtain ⟨hvalid, hpublishable⟩ := hresult result rfl
  have hplan := hreplaceable hvalid
  have htables : ∀ file ∈ plan.files, (m.engine.compactionContext options noFaults
      oldestActiveSnapshot readTimeUnixMs fileSize).openTable file
        = .ok ((contentsOf m.engine.directory.tables file).map .ok) :=
    hopen.inv.openTable_eq_ok hplan
  have hunion := hplan.union hopen.inv.sound.layered
  obtain ⟨blocks, houtput⟩ := compactionRun_eq_ok htables hunion hrun
  refine ⟨?_, hpublishable.trans ⟨?_, fun hencodable ↦ ⟨outputs, next, hrun, hencodable⟩⟩, hfailure⟩
  · rw [planEdit_encodable_iff houtput.described, compactionRun_entries htables hunion hrun]
    rfl
  · rintro ⟨_, _, hok, hencodable⟩
    obtain ⟨rfl, rfl⟩ := Prod.mk.inj (Except.ok.inj (hrun.symm.trans hok))
    exact hencodable

/-! ## A run with one key -/

private def oneWrite (key : Bytes) : WriteBatch := ⟨[.put key [] none]⟩

private theorem recordFor_oneWrite {key userKey : Bytes} {record : ValueRecord}
    (h : (oneWrite key).recordFor userKey = some record) : userKey = key := by
  by_contra hne
  simp [WriteBatch.recordFor, oneWrite, WriteOp.key, Ne.symm hne] at h

private theorem eq_singleton_of_run {entries : List InternalEntry} {key : Bytes}
    {sequence : SequenceNumber} (hrun : Run entries) (hne : entries ≠ [])
    (h : ∀ entry ∈ entries, ∃ hlt : sequence.val < maxU64, ∃ record,
      (oneWrite key).recordFor key = some record ∧
        entry = MemTable.entryAt sequence hlt key record) :
    ∃ entry, entries = [entry] ∧ entry.key.userKey = key := by
  cases entries with
  | nil => exact absurd rfl hne
  | cons first rest =>
    obtain ⟨hlt, record, hrecord, hfirst⟩ := h first (List.mem_cons_self ..)
    refine ⟨first, ?_, by rw [hfirst]; rfl⟩
    cases rest with
    | nil => rfl
    | cons second rest =>
      -- A second entry would be the same one, and a run has no entry twice.
      obtain ⟨_, _, hrecord', hsecond⟩ := h second (by simp)
      obtain rfl := Option.some.inj (hrecord.symm.trans hrecord')
      have hless := List.rel_of_pairwise_cons hrun (List.mem_cons_self ..)
      rw [hfirst, hsecond] at hless
      exact absurd hless (lt_irrefl _)

private theorem wp_takeFlush {immutable : ImmutableMemTable} {immutables : List ImmutableMemTable}
    (hopen : e.closed = false) (hnone : e.terminalFailure = none)
    (himmutables : e.immutables = immutable :: immutables) (hne : e.nextFileNumber ≠ 0)
    (hnext : e.nextFileNumber.val + 1 < 2 ^ 64) :
    wp Engine.takeFlush (fun r e' ↦ r = .ok (.build immutable e.nextFileNumber) ∧
      e'.terminalFailure = none) e := by
  unfold Engine.takeFlush
  rw [wp_get_bind, wp_ite]
  refine ⟨fun hstop ↦ absurd hstop (by simp [hopen, hnone]), fun _ ↦ ?_⟩
  rw [himmutables]
  dsimp only
  rw [wp_modify_bind, wp_bind, wp_tryCatch]
  refine wp_allocateFileNumber (fun hlast ↦ ?_) fun next _ _ ↦ ⟨rfl, hnone⟩
  exact absurd (hlast.resolve_left hne) (not_le.mpr hnext)

private theorem wp_buildSstable {number : U64} (hne : number ≠ 0) {table : MemTable}
    {entry : InternalEntry} (hentries : table.entries = [entry]) :
    wp (Engine.buildSstable noFaults number table 1) (fun r e' ↦ (∃ file, r = .ok file) ∧
      e'.terminalFailure = e.terminalFailure) e := by
  unfold Engine.buildSstable
  rw [hentries]
  show wp (perform noFaults (.buildTable number) _ >>= fun _ ↦
    liftM (FileMeta.new number 1 entry.key entry.key)) _ e
  rw [wp_bind, wp_perform]
  dsimp only
  rw [wp_lift]
  refine ⟨?_, rfl⟩
  rw [FileMeta.new, dif_neg hne, dif_neg (by decide), dif_neg (lt_irrefl _)]
  exact ⟨_, rfl⟩

private theorem opened_facts : opened.ensureWritable = .ok () ∧ opened.immutables = [] ∧
    opened.mutable.table.entries = [] ∧ opened.mutable.table.approximateBytes = 0 ∧
    opened.nextSequence.val = 1 ∧ opened.nextFileNumber.val = 3 := by
  refine ⟨by decide +kernel, List.length_eq_zero_iff.mp (by decide +kernel),
    List.length_eq_zero_iff.mp (by decide +kernel), by decide +kernel, by decide +kernel,
    by decide +kernel⟩

private theorem bytesAfter_oneWrite (key : Bytes) :
    1 ≤ opened.mutable.table.bytesAfter (oneWrite key) := by
  rw [MemTable.bytesAfter, opened_facts.2.2.2.1]
  show 1 ≤ MemTable.saturatingAdd (MemTable.saturatingAdd 0 ((encodeUserKey key).length + 9)) 16
  simp only [MemTable.saturatingAdd, usizeRange]
  omega

/-- With memtables of one byte, a write is rotated at once, and the worker builds a table of the one
entry. -/
private theorem exists_built {options : Options} {limit : ℕ} {key : Bytes}
    (hlimit : encodedRecordLimit options.maxBatchBytes = .ok limit)
    (hmemtable : options.memtableBytes = 1) (hroom : 0 < options.maxImmutableMemtables)
    (hvalid : validateBatch options (oneWrite key) = .ok ())
    (hfits : FitsWal limit (oneWrite key)) :
    ∃ (m : Machine) (immutable : ImmutableMemTable) (number : U64) (file : FileMeta)
      (entry : InternalEntry), Reachable options m ∧ m.up = true ∧
      m.worker = .built immutable number (.ok file) ∧ m.engine.terminalFailure = none ∧
      immutable.table.entries = [entry] ∧ entry.key.userKey = key := by
  obtain ⟨hwritable, himmutables, hentries, -, hsequence, hnumber⟩ := opened_facts
  have hreach := reachable_opened options
  have hinv := (hreach.inv.up rfl).inv
  have haccepted : ¬ RefusesWrite options opened (oneWrite key) := by
    rintro (hnot | hnot | hstall | hmax)
    · exact hnot hwritable
    · exact hnot hvalid
    · rw [himmutables] at hstall
      exact absurd hroom (not_lt.mpr hstall)
    · rw [hsequence] at hmax
      exact absurd hmax (by decide)
  rcases hexec : (writeSerialized options noFaults (.ok (oneWrite key))).exec opened with ⟨r, e⟩
  have hwrote := wp_of_exec hinv.writeSerialized hexec
  cases wp_of_exec (hinv.write_outcome hlimit) hexec with
  | refused error hrefused => exact absurd hrefused haccepted
  | stopped error e _ hnot => exact absurd hfits hnot
  | written woken e _ _ hwoken hrotated hnext hopen hfailure =>
  obtain ⟨hinv₁, batch, hbatch, hwrote⟩ := hwrote
  obtain rfl := Except.ok.inj hbatch
  have hnone : e.terminalFailure = none := hfailure.mpr (.inr (by rw [hnumber]; decide))
  have hempty := hrotated (hwoken.mpr ⟨by rw [hmemtable]; exact bytesAfter_oneWrite key,
    by rw [hnumber]; decide⟩)
  have hmem : ∀ entry ∈ e.memEntries, ∃ hlt : opened.nextSequence.val < maxU64, ∃ record,
      (oneWrite key).recordFor key = some record ∧
        entry = MemTable.entryAt opened.nextSequence hlt key record := by
    rw [hwrote.mem]
    rintro entry (hold | ⟨hlt, userKey, record, hrecord, rfl⟩)
    · simp [memEntries, hentries, himmutables] at hold
    · obtain rfl := recordFor_oneWrite hrecord
      exact ⟨hlt, record, hrecord, rfl⟩
  cases hrotatedList : e.immutables with
  | nil =>
    have hwritten : MemTable.entryAt opened.nextSequence hwrote.sequence_lt key (.value [] none)
        ∈ e.memEntries := by
      rw [hwrote.mem]
      exact .inr ⟨hwrote.sequence_lt, key, .value [] none,
        by simp [WriteBatch.recordFor, oneWrite, WriteOp.key, WriteOp.toRecord], rfl⟩
    simp [memEntries, hempty, hrotatedList] at hwritten
  | cons immutable immutables =>
  have hhead : immutable ∈ e.immutables := hrotatedList ▸ List.mem_cons_self ..
  obtain ⟨entry, hentry, hkey⟩ := eq_singleton_of_run (hinv₁.ascending.strict immutable hhead).run
    (hinv₁.ascending.nonempty immutable hhead)
    fun entry hentry ↦ hmem entry (.inr ⟨immutable, hhead, hentry⟩)
  have hwritten := hreach.step (.write (.ok (oneWrite key)) rfl hexec)
  have hnext : e.nextFileNumber.val ≤ opened.nextFileNumber.val + 1 := hnext
  rcases htake : Engine.takeFlush.exec e with ⟨task, e₂⟩
  obtain ⟨rfl, hnone₂⟩ := wp_of_exec (wp_takeFlush hopen hnone hrotatedList hinv₁.next_ne
    (by omega)) htake
  have htaken := hwritten.step (.takeFlush rfl rfl htake)
  rcases hbuild : (Engine.buildSstable noFaults e.nextFileNumber immutable.table 1).exec e₂
    with ⟨built, e₃⟩
  obtain ⟨⟨file, rfl⟩, hnone₃⟩ := wp_of_exec (wp_buildSstable hinv₁.next_ne hentry) hbuild
  exact ⟨_, immutable, e.nextFileNumber, file, entry, htaken.step (.build 1 rfl rfl hbuild), rfl,
    rfl, hnone₃.trans hnone₂, hentry, hkey⟩

private def smallMemtables : Options :=
  { Options.new with memtableBytes := 1, maxKeyBytes := 2 ^ 26, maxBatchBytes := 2 ^ 26 }

/-- A key of at most `2 ^ 26` bytes can be written under these options, and flushed. -/
private theorem exists_built_key {key : Bytes} (hkey : key.length ≤ 2 ^ 26) :
    ∃ (m : Machine) (immutable : ImmutableMemTable) (number : U64) (file : FileMeta),
      Reachable smallMemtables m ∧ m.up = true ∧ m.worker = .built immutable number (.ok file) ∧
      m.engine.terminalFailure = none ∧
      flushEditBytes immutable.table = 92 + 2 * (encodeUserKey key).length := by
  have hlimit : encodedRecordLimit smallMemtables.maxBatchBytes = .ok 1275068429 := by decide
  have hvalid : validateBatch smallMemtables (oneWrite key) = .ok () := by
    have hpayload : (oneWrite key).approximateBytes = key.length := by
      simp [oneWrite, WriteBatch.approximateBytes, WriteOp.payloadBytes]
    have hlength : validateLength "key" key.length "max_key_bytes" (2 ^ 26) = .ok () :=
      if_neg (not_lt.mpr hkey)
    have hbatch : ¬ smallMemtables.maxBatchBytes < key.length := not_lt.mpr hkey
    have hone : ¬ maxWriteBatchOperations < (oneWrite key).len := by
      show ¬ maxWriteBatchOperations < 1
      decide
    rw [validateBatch, if_neg (by simp [oneWrite, WriteBatch.isEmpty]), if_neg hone, hpayload,
      if_neg hbatch]
    show (validateOperation smallMemtables (.put key [] none) >>= _) = _
    rw [validateOperation, smallMemtables, hlength]
    rfl
  have hfits : FitsWal 1275068429 (oneWrite key) := by
    constructor
    · rintro op hop
      obtain rfl := List.mem_singleton.mp hop
      exact ⟨by omega, by decide⟩
    · simp [oneWrite, WriteBatch.record, WriteOp.bytes, encodeExpiration]
      omega
  obtain ⟨m, immutable, number, file, entry, hreach, hup, hworker, hnone, hentries, rfl⟩ :=
    exists_built hlimit rfl (by decide) hvalid hfits
  refine ⟨m, immutable, number, file, hreach, hup, hworker, hnone, ?_⟩
  rw [flushEditBytes, tableEditBytes, hentries]
  show 46 + (28 + entry.key.asBytes.length + entry.key.asBytes.length) = _
  rw [InternalKey.length_asBytes]
  omega

/-! ## Publishing -/

/-- **Publishing.** In every state of a run without filesystem failures, the edit of a flush is
accepted, the flush is published and the engine stays writable exactly when the first and the last
key of the memtable leave the record within the limit; and the edit of a compaction whose outputs
are written is accepted, and the compaction published, exactly when the keys of its outputs do. A
refused edit is recorded as the terminal failure. -/
theorem Reachable.publishes_iff (h : Reachable options m) (hup : m.up = true) :
    (∀ immutable number file, m.worker = .built immutable number (.ok file) →
      ((∃ bytes, encodeEdit (m.engine.flushEdit immutable file) = .ok bytes) ↔
        flushEditBytes immutable.table ≤ maxEditBytes) ∧
      ∀ r e, (Engine.finishFlush noFaults immutable (.ok file)).exec m.engine = (r, e) →
        (r = .ok () ↔ flushEditBytes immutable.table ≤ maxEditBytes) ∧
        (e.terminalFailure = none ↔ m.engine.terminalFailure = none ∧
          flushEditBytes immutable.table ≤ maxEditBytes)) ∧
    ∀ plan ∈ m.plans, ∀ oldestActiveSnapshot readTimeUnixMs fileSize result e,
      (executeCompactionPlan options noFaults oldestActiveSnapshot readTimeUnixMs fileSize
        plan).exec m.engine = (.ok result, e) →
      ∀ outputs next, compactionRun (m.engine.compactionContext options noFaults
        oldestActiveSnapshot readTimeUnixMs fileSize) plan = .ok (outputs, next) →
        ((∃ bytes, encodeEdit (plan.edit (outputs.map (·.file)) next) = .ok bytes) ↔
          compactionEditBytes (m.engine.compactionContext options noFaults oldestActiveSnapshot
            readTimeUnixMs fileSize) m.engine.directory.tables plan ≤ maxEditBytes) ∧
        (result = .ok () ↔
          compactionEditBytes (m.engine.compactionContext options noFaults oldestActiveSnapshot
            readTimeUnixMs fileSize) m.engine.directory.tables plan ≤ maxEditBytes) ∧
        e.terminalFailure = m.engine.terminalFailure ∧
        ∀ error, result = .error error →
          ((Engine.failCompaction error).exec e).2.terminalFailure ≠ none := by
  have hencode {edit : VersionEdit} : (∃ bytes, encodeEdit edit = .ok bytes) ↔ edit.Encodable :=
    ⟨fun ⟨_, hbytes⟩ ↦ (encodeEdit_eq_ok.mp hbytes).1,
      fun hencodable ↦ ⟨_, encodeEdit_eq_ok.mpr ⟨hencodable, rfl⟩⟩⟩
  refine ⟨fun immutable number file hworker ↦
      ⟨?_, fun r e hexec ↦ h.finishFlush_iff hup hworker hexec⟩,
    fun plan hplan oldestActiveSnapshot readTimeUnixMs fileSize result e hexec outputs next
      hrun ↦ ?_⟩
  · rw [hencode]
    exact flushEdit_encodable_iff (h.builtDescribed hup _ _ _ hworker)
  · obtain ⟨hsize, hresult, hfailure⟩ := h.compact_iff hup hplan hexec hrun
    refine ⟨hencode.trans hsize, hresult.trans hsize, hfailure, fun error _ ↦ ?_⟩
    have hrecorded : wp (Engine.failCompaction error) (fun _ e' ↦ e'.terminalFailure ≠ none) e := by
      unfold Engine.failCompaction
      rw [wp_bind]
      exact wp_recordBackgroundFailure fun _ _ ↦ nofun
    exact hrecorded

/-- A valid plan is run, whatever comes of it. -/
private theorem exists_executeCompactionPlan {options : Options} {faults : Faults} {e : Engine}
    {oldestActiveSnapshot : Option SequenceNumber} {readTimeUnixMs : U64} {fileSize : U64 → U64}
    {plan : CompactionPlan} (hwritable : e.ensureWritable = .ok ()) (hidle : e.isFlushing = false)
    (hvalid : validateCompactionPlan plan e.versions.version = .ok ()) :
    ∃ result e', (executeCompactionPlan options faults oldestActiveSnapshot readTimeUnixMs fileSize
      plan).exec e = (.ok result, e') := by
  have hwp : wp (executeCompactionPlan options faults oldestActiveSnapshot readTimeUnixMs fileSize
      plan) (fun r _ ↦ ∃ result, r = .ok result) e := by
    unfold executeCompactionPlan
    rw [wp_get_bind, wp_bind, wp_lift, hwritable]
    dsimp only
    rw [hidle, if_neg Bool.false_ne_true, wp_bind, wp_lift, hvalid]
    dsimp only
    rw [wp_tryCatch, wp_bind, wp]
    cases (exec (executeValidCompactionPlan (e.compactionContext options faults
      oldestActiveSnapshot readTimeUnixMs fileSize) faults plan) e).1 with
    | ok u => exact ⟨_, rfl⟩
    | error error => exact ⟨_, rfl⟩
  obtain ⟨result, hresult⟩ := hwp
  exact ⟨result, _, Prod.ext hresult rfl⟩

/-- The plan for the table of a flush. -/
private def flushedPlan : CompactionPlan :=
  ⟨0, 1, (flushApplied rotated).2.versions.version.levels 0, []⟩

/-- The record that publishes the plan. -/
private def flushedRecord : Result Bytes := do
  let run ← compactionRun ((flushApplied rotated).2.compactionContext .new noFaults none 0
    fun _ ↦ 1) flushedPlan
  encodeEdit (flushedPlan.edit (run.1.map (·.file)) run.2)

/-- The table of a short key is published, and so is the compaction of such a table. -/
theorem publishes_shortKey :
    (∃ (m : Machine) (immutable : ImmutableMemTable) (number : U64) (file : FileMeta),
      Reachable smallMemtables m ∧ m.worker = .built immutable number (.ok file) ∧
      flushEditBytes immutable.table ≤ maxEditBytes ∧
      ∀ r e, (Engine.finishFlush noFaults immutable (.ok file)).exec m.engine = (r, e) →
        r = .ok () ∧ e.terminalFailure = none) ∧
    ∃ (m : Machine) (plan : CompactionPlan) (e : Engine), Reachable .new m ∧ plan ∈ m.plans ∧
      plan.files.length = 1 ∧ (executeCompactionPlan .new noFaults none 0 (fun _ ↦ 1) plan).exec
        m.engine = (.ok (.ok ()), e) ∧ e.terminalFailure = none := by
  constructor
  · obtain ⟨m, immutable, number, file, hreach, hup, hworker, hnone, hbytes⟩ :=
      @exists_built_key [7] (by decide)
    have hfits : flushEditBytes immutable.table ≤ maxEditBytes := by
      rw [hbytes]
      decide
    refine ⟨m, immutable, number, file, hreach, hworker, hfits, fun r e hexec ↦ ?_⟩
    obtain ⟨hok, hfailure⟩ :=
      ((hreach.publishes_iff hup).1 immutable number file hworker).2 r e hexec
    exact ⟨hok.mpr hfits, hfailure.mpr ⟨hnone, hfits⟩⟩
  · obtain ⟨wals, walNumbers, hflushed⟩ := exists_flushed
    have hpick : (CompactionPicker.new 1 1).pick (fun _ _ ↦ 2)
        (flushApplied rotated).2.versions.version = some flushedPlan := by decide +kernel
    have hreach := hflushed.step (.pick (fun _ _ ↦ 2) (.new 1 1) rfl hpick)
    have hrecord : flushedRecord = .ok (flushedRecord.toOption.getD []) := by decide +kernel
    obtain ⟨run, hrun, hbytes⟩ := bind_eq_ok.mp hrecord
    have hwritable : (flushApplied rotated).2.ensureWritable = .ok () := by decide +kernel
    have hempty : (flushApplied rotated).2.immutables.drop 1 = [] :=
      List.length_eq_zero_iff.mp (by decide +kernel)
    have hvalid : validateCompactionPlan flushedPlan (flushApplied rotated).2.versions.version
        = .ok () := by decide +kernel
    have hnone : (flushApplied rotated).2.terminalFailure.isNone = true := by decide +kernel
    obtain ⟨result, e, hexec⟩ := @exists_executeCompactionPlan .new noFaults
      (afterFlush rotated wals walNumbers) none 0 (fun _ ↦ 1) flushedPlan hwritable
      (by rw [isFlushing, afterFlush, hempty]; rfl) hvalid
    obtain ⟨hsize, hresult, hfailure, -⟩ := (hreach.publishes_iff rfl).2 flushedPlan
      (List.mem_singleton.mpr rfl) none 0 (fun _ ↦ 1) result e hexec run.1 run.2 hrun
    obtain rfl := hresult.mpr (hsize.mp ⟨_, hbytes⟩)
    exact ⟨_, flushedPlan, e, hreach, List.mem_singleton.mpr rfl, by decide +kernel, hexec,
      hfailure.trans (Option.isNone_iff_eq_none.mp hnone)⟩

/-- A key of half the limit appears twice in the edit of its flush, which is refused. -/
theorem flush_disables_engine : ∃ options : Options, options.validate = .ok () ∧
    ∃ (m : Machine) (immutable : ImmutableMemTable) (number : U64) (file : FileMeta),
      Reachable options m ∧ m.up = true ∧ m.worker = .built immutable number (.ok file) ∧
      m.engine.terminalFailure = none ∧
      (∀ bytes, encodeEdit (m.engine.flushEdit immutable file) ≠ .ok bytes) ∧
      ∃ error e, (Engine.finishFlush noFaults immutable (.ok file)).exec m.engine
        = (.error error, e) ∧ e.terminalFailure ≠ none := by
  obtain ⟨m, immutable, number, file, hreach, hup, hworker, hnone, hbytes⟩ :=
    @exists_built_key (List.replicate (2 ^ 25) 1)
      (by rw [List.length_replicate]; exact Nat.pow_le_pow_right (by decide) (by decide))
  have hlarge : ¬ flushEditBytes immutable.table ≤ maxEditBytes := by
    have hlength := le_length_encodeUserKey (List.replicate (2 ^ 25) 1)
    rw [List.length_replicate] at hlength
    unfold maxEditBytes
    omega
  refine ⟨smallMemtables, by decide, m, immutable, number, file, hreach, hup, hworker, hnone,
    fun bytes hencode ↦ ?_, ?_⟩
  · have hiff := flushEdit_encodable_iff (e := m.engine) (hreach.builtDescribed hup _ _ _ hworker)
    exact hlarge (hiff.mp (encodeEdit_eq_ok.mp hencode).1)
  · rcases hexec : (Engine.finishFlush noFaults immutable (.ok file)).exec m.engine with ⟨r, e⟩
    obtain ⟨hok, hfailure⟩ := hreach.finishFlush_iff hup hworker hexec
    cases r with
    | ok u => exact absurd (hok.mp rfl) hlarge
    | error error => exact ⟨error, e, rfl, fun hnone ↦ hlarge (hfailure.mp hnone).2⟩

end Machine

end MeteorDB
