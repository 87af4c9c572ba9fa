import MeteorDB.CompactionPublish
import MeteorDB.Engine

/-!
# What the engine keeps

The sections of the engine, run without filesystem failures, keep one invariant: the file numbers in
use lie below the next one, the log numbers in the manifest do not run ahead of the WALs that are
still needed, and the sequences ascend from the tables through the immutable memtables to the
mutable one. Every edit that a section builds is accepted because of it.

`VersionState.Sound` is the part about the live tables. `Engine.Inv` adds the memory.
-/

namespace MeteorDB

open Attempt OrderedList

/-! ## Memtables -/

/-- A run is strict if it has one entry for a user key and a sequence. -/
theorem strictRun_of_unique {entries : List InternalEntry} (hrun : Run entries)
    (hunique : ∀ a ∈ entries, ∀ b ∈ entries, a.key.userKey = b.key.userKey →
      a.key.sequence = b.key.sequence → a = b) : StrictRun entries := by
  refine ⟨hrun, hrun.imp_of_mem fun {a b} ha hb hlt huser ↦ ?_⟩
  rcases InternalKey.lt_iff.mp hlt with hless | ⟨-, hless | ⟨hsequence, -⟩⟩
  · exact absurd huser hless.ne
  · exact hless
  · exact absurd (hunique a ha b hb huser hsequence ▸ hlt) (lt_irrefl _)

theorem WriteBatch.exists_recordFor {batch : WriteBatch} (h : batch.isEmpty = false) :
    ∃ userKey record, batch.recordFor userKey = some record := by
  obtain ⟨operations⟩ := batch
  cases operations with
  | nil => cases h
  | cons op operations =>
    have hsome : ((op :: operations).findRev? fun other ↦ other.key = op.key).isSome := by
      rw [List.findRev?_eq_find?_reverse, List.find?_isSome]
      exact ⟨op, by simp, by simp⟩
    obtain ⟨found, hfound⟩ := Option.isSome_iff_exists.mp hsome
    exact ⟨op.key, found.toRecord, by rw [recordFor, hfound]; rfl⟩

/-- A batch above all sequences of a table adds strict entries at its own sequence. -/
theorem MemTable.apply_above {table : MemTable} (hstrict : StrictRun table.entries)
    {sequence : SequenceNumber} (hlt : sequence.val < maxU64)
    (habove : ∀ entry ∈ table.entries, entry.key.sequence < sequence) (batch : WriteBatch) :
    ∃ table', table.apply sequence batch = .ok table' ∧ StrictRun table'.entries ∧
      ∀ x, x ∈ table'.entries ↔ x ∈ table.entries ∨
        ∃ userKey record, batch.recordFor userKey = some record ∧
          x = entryAt sequence hlt userKey record := by
  obtain ⟨table', happly, hmem⟩ := table.apply_eq_ok hlt batch
  have hmem := hmem fun entry hentry ↦ (habove entry hentry).ne
  refine ⟨table', happly, strictRun_of_unique table'.run ?_, hmem⟩
  intro a ha b hb huser hsequence
  rcases (hmem a).mp ha with ha | ⟨userKey, record, hrecord, rfl⟩ <;>
    rcases (hmem b).mp hb with hb | ⟨userKey', record', hrecord', rfl⟩
  · exact hstrict.eq_of_sequence_eq ha hb huser hsequence
  · exact absurd hsequence (habove a ha).ne
  · exact absurd hsequence.symm (habove b hb).ne
  · obtain rfl : userKey = userKey' := huser
    rw [Option.some.inj (hrecord.symm.trans hrecord')]

/-! ## Live tables -/

/-- The entries of a table, by its number. -/
def contentsOf (tables : U64 → Option (List InternalEntry)) (file : FileMeta) :
    List InternalEntry :=
  (tables file.number).getD []

/-- What holds of the state of a manifest and of the tables on disk. -/
structure VersionState.Sound (state : VersionState)
    (tables : U64 → Option (List InternalEntry)) : Prop where
  live : ∀ level, ∀ file ∈ state.version.levels level, file.number ∈ state.usedFileNumbers
  used_lt : ∀ number ∈ state.usedFileNumbers, number < state.counters.nextFileNumber
  next_pos : 0 < state.counters.nextFileNumber
  valid : state.counters.Valid
  present : ∀ level, ∀ file ∈ state.version.levels level, (tables file.number).isSome
  layered : Layered state.version (contentsOf tables)
  sequence_le : ∀ entry ∈ state.version.entries (contentsOf tables),
    entry.key.sequence ≤ state.counters.lastSequence

/-- Fewer tables with the same entries are still layered. -/
theorem Layered.mono {version version' : Version}
    {contents contents' : FileMeta → List InternalEntry}
    (h : Layered version contents)
    (hsub : ∀ level, ∀ file ∈ version'.levels level, file ∈ version.levels level)
    (hcontents : ∀ level, ∀ file ∈ version'.levels level, contents' file = contents file) :
    Layered version' contents' where
  strict level file hfile := by
    rw [hcontents level file hfile]
    exact h.strict level file (hsub level file hfile)
  covers level file hfile := by
    rw [hcontents level file hfile]
    exact h.covers level file (hsub level file hfile)
  zero file hfile other hother hlt := by
    unfold AskedFirst
    rw [hcontents 0 file hfile, hcontents 0 other hother]
    exact h.zero file (hsub 0 file hfile) other (hsub 0 other hother) hlt
  across i j hij file hfile other hother := by
    unfold AskedFirst
    rw [hcontents i file hfile, hcontents j other hother]
    exact h.across i j hij file (hsub i file hfile) other (hsub j other hother)

theorem Version.entries_mono {version version' : Version}
    {contents contents' : FileMeta → List InternalEntry}
    (hsub : ∀ level, ∀ file ∈ version'.levels level, file ∈ version.levels level)
    (hcontents : ∀ level, ∀ file ∈ version'.levels level, contents' file = contents file) :
    version'.entries contents' ⊆ version.entries contents := by
  rintro entry ⟨level, file, hfile, hentry⟩
  exact ⟨level, file, hsub level file hfile, hcontents level file hfile ▸ hentry⟩

/-- The same tables in the same levels. -/
def Version.SameTables (version version' : Version) : Prop :=
  ∀ level file, file ∈ version'.levels level ↔ file ∈ version.levels level

/-- An edit that changes counters only. -/
structure VersionEdit.CountersOnly (edit : VersionEdit) : Prop where
  added : edit.addedFiles = []
  deleted : edit.deletedFiles = []

/-- An edit of counters only is within the limit of the manifest. -/
theorem VersionEdit.CountersOnly.encodable {edit : VersionEdit} (h : edit.CountersOnly) :
    edit.Encodable := by
  have hle (value : Option U64) : (putOptionalU64 value).length ≤ 9 := by
    cases value <;> simp
  refine (VersionEdit.encodable_iff (by simp [h.deleted]) (by simp [h.added])).mpr ?_
  rw [VersionEdit.length_bytes, h.deleted, h.added]
  have h₁ := hle edit.nextFileNumber
  have h₂ := hle edit.lastSequence
  have h₃ := hle edit.logNumber
  have h₄ := hle edit.activeLogNumber
  have h₅ := hle edit.walSequence
  unfold maxEditBytes
  simp only [List.length_nil, List.map_nil, List.sum_nil]
  omega

/-- A table that may be added to level zero: its number is above all numbers in use, and its entries
are newer than all entries of the version. -/
structure Flushed (state : VersionState)
    (tables : U64 → Option (List InternalEntry)) (file : FileMeta)
    (entries : List InternalEntry) (lastSequence : SequenceNumber) : Prop where
  number : ∀ number ∈ state.usedFileNumbers, number < file.number
  table : tables file.number = some entries
  strict : StrictRun entries
  covers : ∀ entry ∈ entries, file.Covers entry.key.userKey
  above : ∀ entry ∈ entries, state.counters.lastSequence < entry.key.sequence
  below : ∀ entry ∈ entries, entry.key.sequence ≤ lastSequence

namespace VersionState.Sound

variable {state : VersionState} {tables tables' : U64 → Option (List InternalEntry)}
  {edit : VersionEdit}

theorem fresh : (⟨.empty, {1}, ⟨2, 0, 0, 0, 0⟩⟩ : VersionState).Sound tables where
  live _ _ := nofun
  used_lt number hnumber := by
    rw [Finset.mem_singleton.mp hnumber]
    decide
  next_pos := by decide
  valid := ⟨Iff.rfl, le_refl _, fun hne ↦ absurd rfl hne⟩
  present _ _ := nofun
  layered := ⟨fun _ _ ↦ nofun, fun _ _ ↦ nofun, fun _ ↦ nofun, fun _ _ _ _ ↦ nofun⟩
  sequence_le entry hentry := by
    obtain ⟨_, _, hfile, -⟩ := hentry
    exact absurd hfile List.not_mem_nil

theorem active_lt (h : state.Sound tables) :
    state.counters.activeLogNumber < state.counters.nextFileNumber := by
  by_cases hzero : state.counters.activeLogNumber = 0
  · rw [hzero]
    exact h.next_pos
  · exact h.valid.active_lt hzero

/-- Only the tables of numbers in use matter. -/
theorem tables_congr (h : state.Sound tables)
    (heq : ∀ number ∈ state.usedFileNumbers, tables' number = tables number) :
    state.Sound tables' := by
  have hcontents : ∀ level, ∀ file ∈ state.version.levels level,
      contentsOf tables' file = contentsOf tables file := by
    intro level file hfile
    rw [contentsOf, contentsOf, heq _ (h.live level file hfile)]
  refine ⟨h.live, h.used_lt, h.next_pos, h.valid, fun level file hfile ↦ ?_,
    h.layered.mono (fun _ _ hfile ↦ hfile) hcontents, fun entry hentry ↦ ?_⟩
  · rw [heq _ (h.live level file hfile)]
    exact h.present level file hfile
  · exact h.sequence_le entry (Version.entries_mono (fun _ _ hfile ↦ hfile) hcontents hentry)

theorem next_ne (h : state.Sound tables) (hle : state.counters.Le (state.counters.merge edit)) :
    edit.nextFileNumber ≠ some 0 := by
  intro heq
  have hnext := hle.nextFileNumber
  rw [Counters.merge, heq, Option.getD_some] at hnext
  exact absurd h.next_pos (not_lt.mpr hnext)

/-- **Counters.** An edit that moves counters forward and leaves them valid is accepted. -/
theorem exists_counters (h : state.Sound tables) (hedit : edit.CountersOnly)
    (hle : state.counters.Le (state.counters.merge edit))
    (hvalid : (state.counters.merge edit).Valid) :
    ∃ state', state.apply false edit = .ok state' ∧ state'.Sound tables ∧
      state'.usedFileNumbers = state.usedFileNumbers ∧
      state'.counters = state.counters.merge edit ∧ state.version.SameTables state'.version := by
  obtain ⟨version', hversion⟩ : ∃ version', state.version.apply edit = .ok version' := by
    refine Version.exists_apply ?_ ?_ ?_ ?_ ?_ ?_ ?_ <;> simp [hedit.added, hedit.deleted]
  have hsame : state.version.SameTables version' := by
    intro level file
    rw [Version.mem_apply hversion]
    simp [hedit.added, hedit.deleted]
  have hused : ∀ number ∈ state.usedFileNumbers,
      number < (state.counters.merge edit).nextFileNumber :=
    fun number hnumber ↦ (h.used_lt number hnumber).trans_le hle.nextFileNumber
  have haccepts : state.Accepts edit := by
    refine ⟨hle, h.next_ne hle, hvalid, hused, ?_, ?_, ?_, ?_⟩ <;> simp [hedit.added]
  refine ⟨⟨version', state.usedFileNumbers, state.counters.merge edit⟩, ?_, ?_, rfl, rfl, hsame⟩
  · refine VersionState.apply_eq_ok.mpr ⟨haccepts, hversion, ?_, rfl⟩
    simp [hedit.added]
  · have hsub : ∀ level, ∀ file ∈ version'.levels level, file ∈ state.version.levels level :=
      fun level file ↦ (hsame level file).mp
    refine ⟨fun level file hfile ↦ h.live level file (hsub level file hfile), hused,
      h.next_pos.trans_le hle.nextFileNumber, hvalid,
      fun level file hfile ↦ h.present level file (hsub level file hfile),
      h.layered.mono hsub fun _ _ _ ↦ rfl, fun entry hentry ↦ ?_⟩
    exact (h.sequence_le entry (Version.entries_mono hsub (fun _ _ _ ↦ rfl) hentry)).trans
      hle.lastSequence

/-- An edit of counters that was accepted. -/
theorem counters (h : state.Sound tables) (hedit : edit.CountersOnly) {state' : VersionState}
    (happly : state.apply false edit = .ok state') :
    state'.Sound tables ∧ state'.usedFileNumbers = state.usedFileNumbers ∧
      state'.counters = state.counters.merge edit ∧ state.version.SameTables state'.version := by
  obtain ⟨haccepts, -⟩ := VersionState.apply_eq_ok.mp happly
  obtain ⟨state'', happly', hstate⟩ := h.exists_counters hedit haccepts.le haccepts.valid
  rwa [← Except.ok.inj (happly'.symm.trans happly)]

/-- **Flushing.** An edit that adds such a table is accepted, and the table becomes the newest. -/
theorem exists_flush (h : state.Sound tables) {file : FileMeta} {entries : List InternalEntry}
    {lastSequence : SequenceNumber} (hfile : Flushed state tables file entries lastSequence)
    (hadded : edit.addedFiles = [(0, file)]) (hdeleted : edit.deletedFiles = [])
    (hlast : edit.lastSequence = some lastSequence)
    (hle : state.counters.Le (state.counters.merge edit))
    (hvalid : (state.counters.merge edit).Valid)
    (hlt : file.number < (state.counters.merge edit).nextFileNumber) :
    ∃ state', state.apply false edit = .ok state' ∧ state'.Sound tables ∧
      state'.usedFileNumbers = insert file.number state.usedFileNumbers ∧
      state'.counters = state.counters.merge edit ∧
      ∀ level other, other ∈ state'.version.levels level ↔
        other ∈ state.version.levels level ∨ level = 0 ∧ other = file := by
  have hnew : ∀ level, ∀ other ∈ state.version.levels level, other.number < file.number :=
    fun level other hother ↦ hfile.number _ (h.live level other hother)
  obtain ⟨version', hversion⟩ : ∃ version', state.version.apply edit = .ok version' := by
    refine Version.exists_apply ?_ ?_ ?_ ?_ ?_ ?_ ?_
    · simp [hdeleted]
    · simp [hdeleted]
    · simp [hadded]
    · intro a ha level other hother
      obtain rfl := List.mem_singleton.mp (hadded ▸ ha)
      exact (hnew level other hother).ne
    · simp [hadded]
    · intro a ha b hb hzero
      obtain rfl := List.mem_singleton.mp (hadded ▸ ha)
      exact absurd rfl hzero
    · intro level hlevel other _ _ a ha hzero
      obtain rfl := List.mem_singleton.mp (hadded ▸ ha)
      exact absurd (Fin.ext hzero.symm) hlevel
  have hmem : ∀ level other, other ∈ version'.levels level ↔
      other ∈ state.version.levels level ∨ level = 0 ∧ other = file := by
    intro level other
    have hzero : (level.val, other) ∈ [(0, file)] ↔ level = 0 ∧ other = file := by
      rw [List.mem_singleton, Prod.mk.injEq, Fin.ext_iff]
      rfl
    rw [Version.mem_apply hversion, hadded, hdeleted, hzero]
    simp
  have hused : ∀ number ∈ state.usedFileNumbers,
      number < (state.counters.merge edit).nextFileNumber :=
    fun number hnumber ↦ (h.used_lt number hnumber).trans_le hle.nextFileNumber
  have haccepts : state.Accepts edit := by
    refine ⟨hle, h.next_ne hle, hvalid, hused, ?_, ?_, ?_, ?_⟩
    · simp [hadded]
    · intro a ha
      obtain rfl := List.mem_singleton.mp (hadded ▸ ha)
      exact hlt
    · simp [hdeleted]
    · intro a ha hmem
      obtain rfl := List.mem_singleton.mp (hadded ▸ ha)
      exact lt_irrefl _ (hfile.number _ hmem)
  refine ⟨⟨version', insert file.number state.usedFileNumbers, state.counters.merge edit⟩,
    VersionState.apply_eq_ok.mpr ⟨haccepts, hversion, ?_, rfl⟩, ?_, rfl, rfl, hmem⟩
  · simp [hadded]
  have hcontents : contentsOf tables file = entries := by rw [contentsOf, hfile.table]; rfl
  have hmerge : (state.counters.merge edit).lastSequence = lastSequence := by
    rw [Counters.merge, hlast]
    rfl
  have hnewer : ∀ level, ∀ other ∈ state.version.levels level,
      AskedFirst (contentsOf tables) file other := by
    intro level other hother a ha b hb _
    rw [hcontents] at ha
    exact (h.sequence_le b ⟨level, other, hother, hb⟩).trans_lt (hfile.above a ha)
  constructor
  · intro level other hother
    rcases (hmem level other).mp hother with hother | ⟨-, rfl⟩
    · exact Finset.mem_insert_of_mem (h.live level other hother)
    · exact Finset.mem_insert_self _ _
  · intro number hnumber
    rcases Finset.mem_insert.mp hnumber with rfl | hnumber
    · exact hlt
    · exact hused number hnumber
  · exact h.next_pos.trans_le hle.nextFileNumber
  · exact hvalid
  · intro level other hother
    rcases (hmem level other).mp hother with hother | ⟨-, rfl⟩
    · exact h.present level other hother
    · rw [hfile.table]
      rfl
  · constructor
    · intro level other hother
      rcases (hmem level other).mp hother with hother | ⟨-, rfl⟩
      · exact h.layered.strict level other hother
      · rw [hcontents]
        exact hfile.strict
    · intro level other hother entry hentry
      rcases (hmem level other).mp hother with hother | ⟨-, rfl⟩
      · exact h.layered.covers level other hother entry hentry
      · exact hfile.covers entry (hcontents ▸ hentry)
    · intro first hfirst second hsecond hnumber
      rcases (hmem 0 first).mp hfirst with hold | ⟨-, heq⟩ <;>
        rcases (hmem 0 second).mp hsecond with hold' | ⟨-, heq'⟩
      · exact h.layered.zero first hold second hold' hnumber
      · exact absurd (hnew 0 first hold) (heq' ▸ hnumber).asymm
      · exact heq ▸ hnewer 0 second hold'
      · exact absurd hnumber (by rw [heq, heq']; exact lt_irrefl _)
    · intro i j hij first hfirst second hsecond
      have hold' := ((hmem j second).mp hsecond).resolve_right fun heq ↦
        absurd (heq.1 ▸ hij) (Fin.not_lt_zero i)
      rcases (hmem i first).mp hfirst with hold | ⟨-, heq⟩
      · exact h.layered.across i j hij first hold second hold'
      · exact heq ▸ hnewer j second hold'
  · rintro entry ⟨level, other, hother, hentry⟩
    show entry.key.sequence ≤ (state.counters.merge edit).lastSequence
    rcases (hmem level other).mp hother with hother | ⟨-, rfl⟩
    · exact (h.sequence_le entry ⟨level, other, hother, hentry⟩).trans hle.lastSequence
    · rw [hmerge]
      exact hfile.below entry (hcontents ▸ hentry)

/-- An edit that adds such a table and was accepted. -/
theorem flush (h : state.Sound tables) {file : FileMeta} {entries : List InternalEntry}
    {lastSequence : SequenceNumber} (hfile : Flushed state tables file entries lastSequence)
    (hadded : edit.addedFiles = [(0, file)]) (hdeleted : edit.deletedFiles = [])
    (hlast : edit.lastSequence = some lastSequence) {state' : VersionState}
    (happly : state.apply false edit = .ok state') :
    state'.Sound tables ∧ state'.usedFileNumbers = insert file.number state.usedFileNumbers ∧
      state'.counters = state.counters.merge edit ∧
      ∀ level other, other ∈ state'.version.levels level ↔
        other ∈ state.version.levels level ∨ level = 0 ∧ other = file := by
  obtain ⟨haccepts, -⟩ := VersionState.apply_eq_ok.mp happly
  have hlt := haccepts.fresh.added_lt (0, file) (by rw [hadded]; exact List.mem_singleton.mpr rfl)
  obtain ⟨state'', happly', hstate⟩ :=
    h.exists_flush hfile hadded hdeleted hlast haccepts.le haccepts.valid hlt
  rwa [← Except.ok.inj (happly'.symm.trans happly)]

/-- **Compacting.** The edit of a plan that can be replaced is accepted, and reads are kept. -/
theorem exists_compaction (h : state.Sound tables) {plan : CompactionPlan}
    (hreplaceable : Replaceable state.version plan) {context : CompactionContext}
    (hversion : context.version = state.version)
    (hopen : ∀ file ∈ plan.files,
      context.openTable file = .ok ((contentsOf tables file).map .ok))
    (hnext : state.counters.nextFileNumber ≤ context.nextFileNumber)
    {outputs : List CompactedTable} {next : U64}
    (hrun : compactionRun context plan = .ok (outputs, next))
    (hold : ∀ number < context.nextFileNumber, tables' number = tables number)
    (hnew : ∀ table ∈ outputs, tables' table.file.number = some table.entries) :
    ∃ state', state.apply false (plan.edit (outputs.map (·.file)) next) = .ok state' ∧
      state'.Sound tables' ∧ context.nextFileNumber ≤ next ∧
      state'.counters = { state.counters with nextFileNumber := next } ∧
      (∀ number ∈ state.usedFileNumbers, number ∈ state'.usedFileNumbers) ∧
      ∃ blocks, Compacts state.version state'.version (contentsOf tables) (contentsOf tables')
        context plan (mergedEntries (plan.files.map (contentsOf tables))) outputs next blocks := by
  have hlive : ∀ level, ∀ file ∈ state.version.levels level,
      file.number < context.nextFileNumber :=
    fun level file hfile ↦ (h.used_lt _ (h.live level file hfile)).trans_le hnext
  obtain ⟨version', happly, blocks, hcompacts⟩ :=
    hreplaceable.exists_compacts h.layered hversion hopen hlive hrun
  have hcompacts := hcompacts (contentsOf tables')
    (fun level file hfile ↦ by rw [contentsOf, contentsOf, hold _ (hlive level file hfile)])
    (fun table htable ↦ by rw [contentsOf, hnew table htable]; rfl)
  have houtput := hcompacts.output
  have hnext_le : context.nextFileNumber ≤ next := houtput.start_le
  have hle : state.counters.Le (state.counters.merge (plan.edit (outputs.map (·.file)) next)) :=
    ⟨hnext.trans hnext_le, le_refl _, le_refl _, le_refl _, le_refl _⟩
  have hvalid : (state.counters.merge (plan.edit (outputs.map (·.file)) next)).Valid :=
    ⟨h.valid.log_iff, h.valid.log_le,
      fun hne ↦ (h.valid.active_lt hne).trans_le (hnext.trans hnext_le)⟩
  have hused : ∀ number ∈ state.usedFileNumbers, number < next :=
    fun number hnumber ↦ (h.used_lt number hnumber).trans_le (hnext.trans hnext_le)
  have haccepts : state.Accepts (plan.edit (outputs.map (·.file)) next) := by
    refine ⟨hle, h.next_ne hle, hvalid, hused, ?_, fun a ha ↦ ?_, fun a ha hdeleted ↦ ?_,
      fun a ha hmem ↦ ?_⟩
    · rw [edit_addedNumbers]
      exact houtput.numbers_nodup
    · obtain ⟨table, htable, rfl⟩ := mem_edit_addedFiles.mp ha
      exact (houtput.number_mem htable).2
    · -- Deleted tables are live, and outputs lie above all live numbers.
      obtain ⟨table, htable, rfl⟩ := mem_edit_addedFiles.mp ha
      rw [edit_deletedNumbers] at hdeleted
      obtain ⟨file, hfile, heq⟩ := List.mem_map.mp hdeleted
      obtain ⟨level, hlevel⟩ := hreplaceable.exists_level hfile
      exact absurd (heq ▸ hlive level file hlevel) (not_lt.mpr (houtput.number_mem htable).1)
    · obtain ⟨table, htable, rfl⟩ := mem_edit_addedFiles.mp ha
      exact absurd ((h.used_lt _ hmem).trans_le hnext) (not_lt.mpr (houtput.number_mem htable).1)
  refine ⟨⟨version', state.usedFileNumbers ∪ (outputs.map (·.file.number)).toFinset,
      { state.counters with nextFileNumber := next }⟩,
    VersionState.apply_eq_ok.mpr ⟨haccepts, happly, by rw [edit_addedNumbers], rfl⟩, ?_, hnext_le,
    rfl, fun number hnumber ↦ Finset.mem_union_left _ hnumber, blocks, hcompacts⟩
  constructor
  · intro level file hfile
    rcases (hcompacts.levels level file).mp hfile with ⟨hstays, -⟩ | ⟨-, hadded⟩
    · exact Finset.mem_union_left _ (h.live level file hstays)
    · obtain ⟨table, htable, rfl⟩ := List.mem_map.mp hadded
      exact Finset.mem_union_right _ (List.mem_toFinset.mpr (List.mem_map.mpr ⟨table, htable, rfl⟩))
  · intro number hnumber
    rcases Finset.mem_union.mp hnumber with hnumber | hnumber
    · exact hused number hnumber
    · obtain ⟨table, htable, rfl⟩ := List.mem_map.mp (List.mem_toFinset.mp hnumber)
      exact (houtput.number_mem htable).2
  · exact h.next_pos.trans_le (hnext.trans hnext_le)
  · exact hvalid
  · intro level file hfile
    rcases (hcompacts.levels level file).mp hfile with ⟨hstays, -⟩ | ⟨-, hadded⟩
    · rw [hold _ (hlive level file hstays)]
      exact h.present level file hstays
    · obtain ⟨table, htable, rfl⟩ := List.mem_map.mp hadded
      rw [hnew table htable]
      rfl
  · exact hcompacts.layered'
  · intro entry hentry
    rcases hcompacts.mem_entries.mp hentry with
      ⟨level, file, hfile, -, hmem⟩ | ⟨table, htable, hmem⟩
    · exact h.sequence_le entry ⟨level, file, hfile, hmem⟩
    · obtain ⟨original, horiginal, -, hsequence⟩ := houtput.exists_original htable hmem
      exact hsequence ▸ h.sequence_le original (hcompacts.merged_subset horiginal)

end VersionState.Sound

/-! ## Sequences -/

/-- Sequences ascend from the last one in the tables through the immutable memtables to the mutable
one, and all of them are below the next one. -/
structure Ascending (lastSequence : SequenceNumber) (immutables : List ImmutableMemTable)
    (mutable : MemTable) (nextSequence : SequenceNumber) : Prop where
  last_lt : lastSequence < nextSequence
  nonempty : ∀ immutable ∈ immutables, immutable.table.entries ≠ []
  strict : ∀ immutable ∈ immutables, StrictRun immutable.table.entries
  above : ∀ immutable ∈ immutables, ∀ entry ∈ immutable.table.entries,
    lastSequence < entry.key.sequence ∧ entry.key.sequence ≤ immutable.largestSequence
  largest_lt : ∀ immutable ∈ immutables, immutable.largestSequence < nextSequence
  ordered : immutables.Pairwise fun older newer ↦
    ∀ entry ∈ newer.table.entries, older.largestSequence < entry.key.sequence
  mutable_strict : StrictRun mutable.entries
  mutable_above : ∀ entry ∈ mutable.entries,
    lastSequence < entry.key.sequence ∧ entry.key.sequence < nextSequence
  mutable_newest : ∀ immutable ∈ immutables, ∀ entry ∈ mutable.entries,
    immutable.largestSequence < entry.key.sequence

theorem strictRun_nil : StrictRun [] := ⟨.nil, .nil⟩

namespace Ascending

variable {lastSequence nextSequence : SequenceNumber} {immutables : List ImmutableMemTable}
  {mutable : MemTable}

/-- A batch is written at the next sequence. -/
theorem commit (h : Ascending lastSequence immutables mutable nextSequence)
    (hlt : nextSequence.val < maxU64) (batch : WriteBatch) :
    ∃ table, mutable.apply nextSequence batch = .ok table ∧
      Ascending lastSequence immutables table (nextSequence + 1) ∧
      ∀ x, x ∈ table.entries ↔ x ∈ mutable.entries ∨
        ∃ userKey record, batch.recordFor userKey = some record ∧
          x = MemTable.entryAt nextSequence hlt userKey record := by
  have hsucc : (nextSequence + 1).val = nextSequence.val + 1 := by
    refine Fin.val_add_one_of_lt' ?_
    unfold maxU64 at hlt
    omega
  have hnext : nextSequence < nextSequence + 1 := Fin.lt_def.mpr (by omega)
  obtain ⟨table, happly, hstrict, hmem⟩ :=
    MemTable.apply_above h.mutable_strict hlt (fun entry hentry ↦ (h.mutable_above entry hentry).2)
      batch
  refine ⟨table, happly, ⟨h.last_lt.trans hnext, h.nonempty, h.strict, h.above,
    fun immutable himmutable ↦ (h.largest_lt immutable himmutable).trans hnext, h.ordered, hstrict,
    fun entry hentry ↦ ?_, fun immutable himmutable entry hentry ↦ ?_⟩, hmem⟩
  · rcases (hmem entry).mp hentry with hentry | ⟨userKey, record, -, rfl⟩
    · exact ⟨(h.mutable_above entry hentry).1, (h.mutable_above entry hentry).2.trans hnext⟩
    · exact ⟨h.last_lt, hnext⟩
  · rcases (hmem entry).mp hentry with hentry | ⟨userKey, record, -, rfl⟩
    · exact h.mutable_newest immutable himmutable entry hentry
    · exact h.largest_lt immutable himmutable

/-- The mutable memtable becomes immutable. -/
theorem rotate (h : Ascending lastSequence immutables mutable nextSequence)
    (hne : mutable.entries ≠ []) {largestSequence : SequenceNumber}
    (hlargest : largestSequence.val + 1 = nextSequence.val) (walNumber : U64) :
    Ascending lastSequence (immutables ++ [⟨mutable, walNumber, largestSequence⟩]) .empty
      nextSequence := by
  have hmem : ∀ immutable ∈ immutables ++ [⟨mutable, walNumber, largestSequence⟩],
      immutable ∈ immutables ∨ immutable = ⟨mutable, walNumber, largestSequence⟩ :=
    fun immutable himmutable ↦ (List.mem_append.mp himmutable).imp_right List.mem_singleton.mp
  constructor
  · exact h.last_lt
  · intro immutable himmutable
    rcases hmem immutable himmutable with himmutable | rfl
    · exact h.nonempty immutable himmutable
    · exact hne
  · intro immutable himmutable
    rcases hmem immutable himmutable with himmutable | rfl
    · exact h.strict immutable himmutable
    · exact h.mutable_strict
  · intro immutable himmutable entry hentry
    rcases hmem immutable himmutable with himmutable | rfl
    · exact h.above immutable himmutable entry hentry
    · obtain ⟨habove, hbelow⟩ := h.mutable_above entry hentry
      rw [Fin.lt_def] at hbelow
      exact ⟨habove, Fin.le_def.mpr (by show _ ≤ largestSequence.val; omega)⟩
  · intro immutable himmutable
    rcases hmem immutable himmutable with himmutable | rfl
    · exact h.largest_lt immutable himmutable
    · exact Fin.lt_def.mpr (by show largestSequence.val < _; omega)
  · rw [List.pairwise_append]
    refine ⟨h.ordered, List.pairwise_singleton _ _, fun older holder newer hnewer ↦ ?_⟩
    rw [List.mem_singleton.mp hnewer]
    exact h.mutable_newest older holder
  · exact strictRun_nil
  · exact fun entry hentry ↦ absurd hentry List.not_mem_nil
  · exact fun _ _ entry hentry ↦ absurd hentry List.not_mem_nil

/-- The oldest immutable memtable moves to the tables. -/
theorem flush {immutable : ImmutableMemTable}
    (h : Ascending lastSequence (immutable :: immutables) mutable nextSequence) :
    Ascending immutable.largestSequence immutables mutable nextSequence := by
  have hcons : ∀ other ∈ immutables, other ∈ immutable :: immutables :=
    fun other hother ↦ List.mem_cons_of_mem _ hother
  obtain ⟨hfirst, hordered⟩ := List.pairwise_cons.mp h.ordered
  exact ⟨h.largest_lt immutable (List.mem_cons_self ..),
    fun other hother ↦ h.nonempty other (hcons other hother),
    fun other hother ↦ h.strict other (hcons other hother),
    fun other hother entry hentry ↦
      ⟨hfirst other hother entry hentry, (h.above other (hcons other hother) entry hentry).2⟩,
    fun other hother ↦ h.largest_lt other (hcons other hother), hordered, h.mutable_strict,
    fun entry hentry ↦ ⟨h.mutable_newest immutable (List.mem_cons_self ..) entry hentry,
      (h.mutable_above entry hentry).2⟩,
    fun other hother ↦ h.mutable_newest other (hcons other hother)⟩

theorem last_le {immutable : ImmutableMemTable}
    (h : Ascending lastSequence immutables mutable nextSequence) (hmem : immutable ∈ immutables) :
    lastSequence ≤ immutable.largestSequence := by
  obtain ⟨entry, hentry⟩ := List.exists_mem_of_ne_nil _ (h.nonempty immutable hmem)
  obtain ⟨habove, hbelow⟩ := h.above immutable hmem entry hentry
  exact habove.le.trans hbelow

end Ascending

end MeteorDB
