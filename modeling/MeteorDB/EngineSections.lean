import MeteorDB.EngineInv

/-!
# What the sections of the engine do

Every section, run without filesystem failures, keeps `Engine.Inv`. Most sections moreover leave the
tables alone and keep what the memtables hold; `Extends` says what such a section may change. A
write first adds the entries of its batch (`Wrote`) and then behaves like such a section.
-/

namespace MeteorDB

open Attempt OrderedList

namespace Engine

/-! ## The invariant -/

/-- An edit is accepted in a state, and leaves the active WAL below the next file number. -/
def EditAccepted (built : VersionState × VersionEdit) : Prop :=
  ∃ versions, built.1.apply false built.2 = .ok versions ∧
    versions.counters.activeLogNumber < versions.counters.nextFileNumber

/-- What holds of an open engine between two sections. -/
structure Inv (engine : Engine) : Prop where
  manifest : engine.directory.manifest = engine.versions
  usable : engine.manifestUsable = true
  sound : engine.versions.Sound engine.directory.tables
  accepted : ∀ built ∈ engine.edits, EditAccepted built
  walFiles_ne : ∀ segment ∈ engine.directory.wals, segment.number ≠ 0
  next_le : engine.versions.counters.nextFileNumber ≤ engine.nextFileNumber
  wal_lt : engine.mutable.walNumber < engine.nextFileNumber
  wal_ne : ∀ number ∈ engine.requiredWals, number ≠ 0
  log_le : ∀ number ∈ engine.requiredWals, engine.versions.counters.logNumber ≤ number
  active_le : engine.versions.counters.activeLogNumber ≤ engine.mutable.walNumber
  walSequence_lt : engine.versions.counters.walSequence < engine.nextSequence
  ascending : Ascending engine.versions.counters.lastSequence engine.immutables
    engine.mutable.table engine.nextSequence

/-- The part of the invariant that does not depend on the WALs and the manifest: the tables are
layered, and sequences ascend from them through the memtables. -/
structure Core (engine : Engine) : Prop where
  sound : engine.versions.Sound engine.directory.tables
  next_le : engine.versions.counters.nextFileNumber ≤ engine.nextFileNumber
  ascending : Ascending engine.versions.counters.lastSequence engine.immutables
    engine.mutable.table engine.nextSequence

theorem Inv.core {engine : Engine} (h : Inv engine) : Core engine :=
  ⟨h.sound, h.next_le, h.ascending⟩

/-- The entries in memory. -/
def memEntries (engine : Engine) : Set InternalEntry :=
  {entry | entry ∈ engine.mutable.table.entries ∨
    ∃ immutable ∈ engine.immutables, entry ∈ immutable.table.entries}

/-- What a section keeps that does not publish tables. -/
structure Frame (engine engine' : Engine) : Prop where
  tables : ∀ number < engine.nextFileNumber,
    engine'.directory.tables number = engine.directory.tables number
  used : engine'.versions.usedFileNumbers = engine.versions.usedFileNumbers
  version : engine.versions.version.SameTables engine'.versions.version
  lastSequence : engine'.versions.counters.lastSequence = engine.versions.counters.lastSequence
  next_le : engine.nextFileNumber ≤ engine'.nextFileNumber
  immutables : engine.immutables <+: engine'.immutables
  flushRunning : engine'.flushRunning = engine.flushRunning

/-- A section that neither publishes tables nor writes a batch. -/
structure Extends (engine engine' : Engine) : Prop extends Frame engine engine' where
  mem : engine'.memEntries = engine.memEntries
  nextSequence : engine'.nextSequence = engine.nextSequence

/-- The entries that a batch writes at a sequence. -/
def batchEntries (sequence : SequenceNumber) (batch : WriteBatch) : Set InternalEntry :=
  {entry | ∃ (h : sequence.val < maxU64) (userKey : Bytes) (record : ValueRecord),
    batch.recordFor userKey = some record ∧ entry = MemTable.entryAt sequence h userKey record}

/-- A batch has been written, and nothing else. -/
structure Wrote (engine : Engine) (batch : WriteBatch) (engine' : Engine) : Prop extends
    Frame engine engine' where
  nonempty : batch.isEmpty = false
  sequence_lt : engine.nextSequence.val < maxU64
  mem : engine'.memEntries = engine.memEntries ∪ batchEntries engine.nextSequence batch
  nextSequence : engine'.nextSequence = engine.nextSequence + 1

variable {e e' e'' : Engine}

theorem Frame.trans (h : Frame e e') (h' : Frame e' e'') : Frame e e'' where
  tables number hlt := (h'.tables number (hlt.trans_le h.next_le)).trans (h.tables number hlt)
  used := h'.used.trans h.used
  version level file := (h'.version level file).trans (h.version level file)
  lastSequence := h'.lastSequence.trans h.lastSequence
  next_le := h.next_le.trans h'.next_le
  immutables := h.immutables.trans h'.immutables
  flushRunning := h'.flushRunning.trans h.flushRunning

theorem Extends.refl (e : Engine) : Extends e e :=
  ⟨⟨fun _ _ ↦ rfl, rfl, fun _ _ ↦ Iff.rfl, rfl, le_refl _, List.prefix_refl _, rfl⟩, rfl, rfl⟩

theorem Wrote.trans {batch : WriteBatch} (h : Wrote e batch e') (h' : Extends e' e'') :
    Wrote e batch e'' :=
  ⟨h.toFrame.trans h'.toFrame, h.nonempty, h.sequence_lt, h'.mem.trans h.mem,
    h'.nextSequence.trans h.nextSequence⟩

/-! ## The oldest required WAL -/

theorem foldr_min_mem {α : Type} [LinearOrder α] (l : List α) (a : α) :
    l.foldr min a ∈ l ++ [a] ∧ ∀ b ∈ l ++ [a], l.foldr min a ≤ b := by
  induction l with
  | nil => simp
  | cons b l ih =>
    rw [List.foldr_cons]
    refine ⟨?_, fun c hc ↦ ?_⟩
    · rcases min_choice b (l.foldr min a) with h | h
      · rw [h]
        exact List.mem_cons_self ..
      · rw [h]
        exact List.mem_cons_of_mem b ih.1
    · rcases List.mem_cons.mp hc with rfl | hc
      · exact min_le_left _ _
      · exact (min_le_right _ _).trans (ih.2 c hc)

theorem oldestRequiredWal_mem (e : Engine) : e.oldestRequiredWal ∈ e.requiredWals :=
  (foldr_min_mem _ _).1

theorem oldestRequiredWal_le (e : Engine) {number : U64} (h : number ∈ e.requiredWals) :
    e.oldestRequiredWal ≤ number :=
  (foldr_min_mem _ _).2 number h

theorem walNumber_mem (e : Engine) : e.mutable.walNumber ∈ e.requiredWals :=
  List.mem_append_right _ (List.mem_singleton.mpr rfl)

/-! ## Rules for the steps -/

theorem wp_perform {σ : Type} {step : IoStep} {effect : σ → σ}
    {q : Except Error PUnit → σ → Prop} {s : σ} :
    wp (perform noFaults step effect) q s ↔ q (.ok ()) (effect s) := Iff.rfl

/-- A step that may fail, with or without its effect. -/
theorem wp_perform_faults {σ : Type} {faults : Faults} {step : IoStep} {effect : σ → σ}
    {q : Except Error PUnit → σ → Prop} {s : σ} (hok : q (.ok ()) (effect s))
    (hnone : ∀ error, q (.error error) s) (hlate : ∀ error, q (.error error) (effect s)) :
    wp (perform faults step effect) q s := by
  unfold perform
  cases faults step with
  | none => exact hok
  | some failure =>
    dsimp only
    rw [wp_modify_bind, wp_throw]
    split_ifs
    · exact hlate _
    · exact hnone _

/-- A step that leaves the state alone. -/
theorem wp_perform_id {σ : Type} {faults : Faults} {step : IoStep}
    {q : Except Error PUnit → σ → Prop} {s : σ} (h : ∀ r, q r s) :
    wp (perform faults step id) q s :=
  wp_perform_faults (h _) (fun _ ↦ h _) fun _ ↦ h _

theorem wp_allocateFileNumber {q : Result U64 → Engine → Prop}
    (herror : e.nextFileNumber = 0 ∨ 2 ^ 64 ≤ e.nextFileNumber.val + 1 →
      ∀ error, q (.error error) e)
    (hok : ∀ next : U64, e.nextFileNumber ≠ 0 → next.val = e.nextFileNumber.val + 1 →
      q (.ok e.nextFileNumber) { e with nextFileNumber := next }) :
    wp allocateFileNumber q e := by
  unfold allocateFileNumber
  rw [wp_get_bind, wp_ite]
  refine ⟨fun hzero ↦ herror (.inl hzero) _, fun hne ↦ ?_⟩
  rw [wp_bind, wp_lift]
  cases hnext : checkedNextFileNumber e.nextFileNumber with
  | error error =>
    refine herror (.inr (not_lt.mp fun hlt ↦ ?_)) error
    rw [checkedNextFileNumber, if_pos hlt] at hnext
    cases hnext
  | ok next => exact hok next hne (checkedNextFileNumber_eq_ok.mp hnext)

/-- An edit that is accepted is installed, unless it is too large. -/
theorem wp_applyEdit {edit : VersionEdit} {versions : VersionState}
    {q : Result PUnit → Engine → Prop} (husable : e.manifestUsable = true)
    (happly : e.versions.apply false edit = .ok versions)
    (herror : ¬ edit.Encodable → ∀ error,
      q (.error error) { e with edits := e.edits ++ [(e.versions, edit)] })
    (hok : edit.Encodable → q (.ok ()) { e with
      edits := e.edits ++ [(e.versions, edit)]
      versions
      directory := { e.directory with manifest := versions } }) :
    wp (applyEdit noFaults edit) q e := by
  unfold applyEdit
  rw [wp_get_bind, wp_ite]
  refine ⟨fun _ ↦ ?_, fun hnot ↦ absurd husable hnot⟩
  rw [wp_modify_bind, wp_bind, wp_lift, happly]
  dsimp only
  rw [wp_bind, wp_lift]
  cases hencode : encodeEdit edit with
  | error error =>
    refine herror (fun hencodable ↦ ?_) error
    rw [encodeEdit_eq_ok.mpr ⟨hencodable, rfl⟩] at hencode
    cases hencode
  | ok bytes =>
    dsimp only
    rw [wp_bind, wp_perform]
    exact hok (encodeEdit_eq_ok.mp hencode).1

/-- What a failed edit leaves on disk: the manifest is as before, or the edit is in it and the
version set takes no more edits. -/
def Unapplied (engine : Engine) (edit : VersionEdit) (usable : Bool) (manifest : VersionState) :
    Prop :=
  manifest = engine.directory.manifest ∧ (usable = true → engine.manifestUsable = true) ∨
    engine.manifestUsable = true ∧ usable = false ∧ engine.versions.apply false edit = .ok manifest

/-- Whatever step of an edit may fail, the edit is installed or the versions in memory stay. -/
theorem wp_applyEdit_usable {faults : Faults} {edit : VersionEdit}
    {q : Result PUnit → Engine → Prop} (husable : e.manifestUsable = true)
    (herror : ∀ error manifestUsable manifest, Unapplied e edit manifestUsable manifest →
      q (.error error) { e with
        edits := e.edits ++ [(e.versions, edit)]
        manifestUsable
        directory := { e.directory with manifest } })
    (hok : ∀ versions, e.versions.apply false edit = .ok versions → q (.ok ()) { e with
      edits := e.edits ++ [(e.versions, edit)]
      versions
      directory := { e.directory with manifest := versions } }) :
    wp (applyEdit faults edit) q e := by
  have hsame : ∀ error, q (.error error) { e with edits := e.edits ++ [(e.versions, edit)] } :=
    fun error ↦ herror error e.manifestUsable e.directory.manifest (.inl ⟨rfl, id⟩)
  unfold applyEdit
  rw [wp_get_bind, wp_ite]
  refine ⟨fun _ ↦ ?_, fun hnot ↦ absurd husable hnot⟩
  rw [wp_modify_bind]
  refine wp_lift_bind (fun error _ ↦ hsame error) fun versions happly ↦ ?_
  refine wp_lift_bind (fun error _ ↦ hsame error) fun _ _ ↦ ?_
  rw [wp_bind]
  refine wp_perform_faults ?_ hsame hsame
  dsimp only
  cases faults .editManifest with
  | none => exact hok versions happly
  | some failure =>
    dsimp only
    rw [wp_bind, wp_modify]
    dsimp only [id]
    rw [wp_throw]
    split_ifs
    · exact herror _ _ _ (.inr ⟨husable, rfl, happly⟩)
    · exact herror _ _ _ (.inl ⟨rfl, fun _ ↦ husable⟩)

/-! ## Failures -/

/-- The engine is neither closed nor failed. -/
def Live (engine : Engine) : Prop := engine.terminalFailure = none ∧ engine.closed = false

theorem ensureWritable_eq_ok : e.ensureWritable = .ok () ↔ e.Live := by
  unfold ensureWritable ensureOpen Live
  cases e.terminalFailure <;> cases e.closed <;> simp

/-- The failure that is kept was there before, or there was none. -/
theorem wp_recordTerminalFailure {error : Error} {q : Result Error → Engine → Prop}
    (h : ∀ failure, e.terminalFailure = none ∨ e.terminalFailure = some failure →
      q (.ok failure.toError) { e with terminalFailure := some failure }) :
    wp (recordTerminalFailure error) q e := by
  unfold recordTerminalFailure
  rw [wp_get_bind]
  cases hfailure : e.terminalFailure with
  | some failure =>
    have hsame := h failure (.inr hfailure)
    rw [← hfailure] at hsame
    exact hsame
  | none => exact h _ (.inl hfailure)

theorem wp_recordBackgroundFailure {error : Error} {q : Result Error → Engine → Prop}
    (h : ∀ failure, e.terminalFailure = none ∨ e.terminalFailure = some failure →
      q (.ok failure.toError)
        { e with terminalFailure := some failure, backgroundFailure := true }) :
    wp (recordBackgroundFailure error) q e := by
  unfold recordBackgroundFailure
  rw [wp_bind]
  exact wp_recordTerminalFailure h

/-- A section whose error becomes the terminal failure. -/
theorem wp_orTerminal {α : Type} {x : Section α} {q : Result α → Engine → Prop}
    (h : wp x (fun r e' ↦ match r with
      | .ok a => q (.ok a) e'
      | .error _ => ∀ failure, e'.terminalFailure = none ∨ e'.terminalFailure = some failure →
          q (.error failure.toError) { e' with terminalFailure := some failure }) e) :
    wp (orTerminal x) q e := by
  unfold orTerminal
  rw [wp_tryCatch]
  refine wp_mono h fun r e' hr ↦ ?_
  cases r with
  | ok a => exact hr
  | error error =>
    dsimp only
    rw [wp_bind]
    exact wp_recordTerminalFailure hr

/-! ## Rotating -/

theorem accepted_append {state versions : VersionState} {edit : VersionEdit}
    {edits : List (VersionState × VersionEdit)} {tables : U64 → Option (List InternalEntry)}
    (h : ∀ built ∈ edits, EditAccepted built) (happly : state.apply false edit = .ok versions)
    (hsound : versions.Sound tables) : ∀ built ∈ edits ++ [(state, edit)], EditAccepted built :=
  List.forall_mem_append.mpr
    ⟨h, List.forall_mem_singleton.mpr ⟨versions, happly, hsound.active_lt⟩⟩

theorem Inv.next_ne (h : Inv e) : e.nextFileNumber ≠ 0 := by
  intro hzero
  have hlt := Fin.lt_def.mp h.wal_lt
  rw [hzero] at hlt
  exact absurd hlt (Nat.not_lt_zero _)

/-- The engine is as open, and as failed, as before. -/
def SameStatus (engine engine' : Engine) : Prop :=
  engine'.closed = engine.closed ∧ engine'.terminalFailure = engine.terminalFailure

private theorem Inv.oldest_ne (h : Inv e) : e.oldestRequiredWal ≠ 0 :=
  h.wal_ne _ e.oldestRequiredWal_mem

/-- After a rotation the entries of the mutable memtable are those of the last immutable one. -/
theorem memEntries_rotate {walNumber : U64} {largestSequence : SequenceNumber}
    (hmutable : e'.mutable.table = .empty)
    (himmutables : e'.immutables
      = e.immutables ++ [⟨e.mutable.table, walNumber, largestSequence⟩]) :
    e'.memEntries = e.memEntries := by
  ext entry
  simp only [memEntries, hmutable, himmutables, Set.mem_ofPred_eq, MemTable.empty, List.not_mem_nil,
    false_or, List.mem_append, List.mem_singleton]
  constructor
  · rintro ⟨immutable, himmutable | rfl, hentry⟩
    · exact .inr ⟨immutable, himmutable, hentry⟩
    · exact .inl hentry
  · rintro (hentry | ⟨immutable, himmutable, hentry⟩)
    · exact ⟨_, .inr rfl, hentry⟩
    · exact ⟨immutable, .inl himmutable, hentry⟩

/-- The edit of a rotation. -/
def rotationEdit (engine : Engine) (next : U64) : VersionEdit where
  nextFileNumber := some next
  logNumber := some engine.oldestRequiredWal
  activeLogNumber := some engine.nextFileNumber

theorem Inv.exists_rotation (h : Inv e) {next : U64} (hlt : e.nextFileNumber < next) :
    ∃ versions, e.versions.apply false (e.rotationEdit next) = .ok versions ∧
      versions.Sound e.directory.tables ∧ versions.usedFileNumbers = e.versions.usedFileNumbers ∧
      versions.counters = e.versions.counters.merge (e.rotationEdit next) ∧
      e.versions.version.SameTables versions.version ∧
      e.versions.counters.Le versions.counters := by
  have hle : e.versions.counters.Le (e.versions.counters.merge (e.rotationEdit next)) :=
    ⟨h.next_le.trans hlt.le, le_refl _, h.log_le _ e.oldestRequiredWal_mem,
      h.active_le.trans h.wal_lt.le, le_refl _⟩
  have hvalid : (e.versions.counters.merge (e.rotationEdit next)).Valid :=
    ⟨iff_of_false h.oldest_ne h.next_ne,
      (e.oldestRequiredWal_le e.walNumber_mem).trans h.wal_lt.le, fun _ ↦ hlt⟩
  obtain ⟨versions, happly, hsound, hused, hcounters, hsame⟩ :=
    h.sound.exists_counters ⟨rfl, rfl⟩ hle hvalid
  exact ⟨versions, happly, hsound, hused, hcounters, hsame, hcounters ▸ hle⟩

theorem requiredWals_rotate (e : Engine) (largestSequence : SequenceNumber) (number : U64) :
    (e.immutables ++ [(⟨e.mutable.table, e.mutable.walNumber, largestSequence⟩ :
      ImmutableMemTable)]).map (·.walNumber) ++ [number] = e.requiredWals ++ [number] := by
  rw [List.map_append]
  rfl

/-- After a rotation nothing is left in the mutable memtable. -/
theorem Inv.rotateMemtable (h : Inv e) (hne : e.mutable.table.entries ≠ [])
    {largestSequence : SequenceNumber}
    (hlargest : largestSequence.val + 1 = e.nextSequence.val) :
    wp (rotateMemtable noFaults largestSequence) (fun r e' ↦ Inv e' ∧ Extends e e' ∧
      (r = .ok () → e'.mutable.table.entries = [] ∧ e'.immutables ≠ []) ∧
      (r = .ok () ↔ e.nextFileNumber.val + 1 < 2 ^ 64) ∧
      e'.nextFileNumber.val ≤ e.nextFileNumber.val + 1 ∧ SameStatus e e') e := by
  unfold Engine.rotateMemtable
  rw [wp_bind]
  refine wp_allocateFileNumber (fun hlast error ↦ ?_) fun next hnumber hnext ↦ ?_
  · have hlast := hlast.resolve_left h.next_ne
    exact ⟨h, .refl e, nofun, iff_of_false nofun (not_lt.mpr hlast), Nat.le_succ _, rfl, rfl⟩
  have hlt : e.nextFileNumber < next := Fin.lt_def.mpr (by omega)
  dsimp only
  rw [wp_bind, wp_perform]
  dsimp only
  rw [wp_get_bind]
  obtain ⟨versions, happly, hsound, hused, hcounters, hsame, -⟩ := h.exists_rotation hlt
  have hwals : ∀ segment ∈ (e.directory.addWal e.nextFileNumber).wals, segment.number ≠ 0 :=
    List.forall_mem_append.mpr ⟨h.walFiles_ne, List.forall_mem_singleton.mpr hnumber⟩
  have haccepted := accepted_append h.accepted happly hsound
  have hencodable : (e.rotationEdit next).Encodable :=
    VersionEdit.CountersOnly.encodable ⟨rfl, rfl⟩
  rw [wp_bind]
  refine wp_applyEdit h.usable happly (absurd hencodable) fun _ ↦ ?_
  rw [wp_modify]
  refine ⟨?_, ?_, fun _ ↦ ⟨rfl, by simp⟩, iff_of_true rfl (hnext ▸ next.isLt), hnext.le, rfl, rfl⟩
  · refine ⟨rfl, h.usable, hsound, haccepted, hwals, ?_, hlt, ?_, ?_, ?_, ?_, ?_⟩
    · rw [hcounters]
      exact le_refl _
    · rw [requiredWals, requiredWals_rotate]
      exact List.forall_mem_append.mpr ⟨h.wal_ne, List.forall_mem_singleton.mpr hnumber⟩
    · rw [requiredWals, requiredWals_rotate, hcounters]
      refine List.forall_mem_append.mpr ⟨fun number hmem ↦ e.oldestRequiredWal_le hmem, ?_⟩
      exact List.forall_mem_singleton.mpr
        ((e.oldestRequiredWal_le e.walNumber_mem).trans h.wal_lt.le)
    · rw [hcounters]
      exact le_refl _
    · rw [hcounters]
      exact h.walSequence_lt
    · rw [hcounters]
      exact h.ascending.rotate hne hlargest _
  · refine ⟨⟨fun _ _ ↦ rfl, hused, hsame, by rw [hcounters]; rfl, hlt.le, List.prefix_append _ _,
      rfl⟩, ?_, rfl⟩
    exact memEntries_rotate rfl rfl

/-! ## Writing -/

/-- A logged batch goes into the memtable. -/
theorem Core.commit (h : Core e) {batch : WriteBatch} (hne : batch.isEmpty = false)
    (hlt : e.nextSequence.val < maxU64) :
    wp (Engine.commit e.nextSequence batch) (fun r e' ↦ r = .ok () ∧ Core e' ∧ Wrote e batch e' ∧
      e'.mutable.table.entries ≠ [] ∧
      e.mutable.table.apply e.nextSequence batch = .ok e'.mutable.table ∧
      e' = { e with mutable := e'.mutable, nextSequence := e.nextSequence + 1 } ∧
      e'.mutable.walNumber = e.mutable.walNumber) e := by
  obtain ⟨table, happly, hascending, hmem⟩ := h.ascending.commit hlt batch
  unfold Engine.commit
  rw [wp_get_bind, wp_bind, wp_lift, happly]
  dsimp only
  rw [wp_modify]
  refine ⟨rfl, { h with ascending := hascending }, ⟨?_, hne, hlt, ?_, rfl⟩, ?_, rfl, rfl, rfl⟩
  · exact { (Extends.refl e).toFrame with }
  · ext entry
    simp only [memEntries, batchEntries, Set.mem_union, Set.mem_ofPred_eq, hmem]
    constructor
    · rintro ((hentry | hentry) | hentry)
      · exact .inl (.inl hentry)
      · exact .inr ⟨hlt, hentry⟩
      · exact .inl (.inr hentry)
    · rintro ((hentry | hentry) | ⟨_, hentry⟩)
      · exact .inl (.inl hentry)
      · exact .inr hentry
      · exact .inl (.inr hentry)
  · obtain ⟨userKey, record, hrecord⟩ := WriteBatch.exists_recordFor hne
    exact List.ne_nil_of_mem ((hmem _).mpr (.inr ⟨userKey, record, hrecord, rfl⟩))

theorem Inv.commit (h : Inv e) {batch : WriteBatch} (hne : batch.isEmpty = false)
    (hlt : e.nextSequence.val < maxU64) :
    wp (Engine.commit e.nextSequence batch) (fun r e' ↦ r = .ok () ∧ Inv e' ∧ Wrote e batch e' ∧
      e'.mutable.table.entries ≠ [] ∧
      e.mutable.table.apply e.nextSequence batch = .ok e'.mutable.table ∧
      e'.nextFileNumber = e.nextFileNumber ∧ SameStatus e e') e := by
  refine wp_mono (h.core.commit hne hlt) fun r e' h' ↦ ?_
  obtain ⟨rfl, hcore, hwrote, hmutable, happly, heq, hwal⟩ := h'
  have hsucc : e.nextSequence < e.nextSequence + 1 := by
    rw [Fin.lt_def, Fin.val_add_one_of_lt' (by unfold maxU64 at hlt; omega)]
    omega
  generalize e'.mutable = mutable at *
  subst heq
  refine ⟨rfl, ?_, hwrote, hmutable, happly, rfl, rfl, rfl⟩
  have hrequired : e.immutables.map (·.walNumber) ++ [mutable.walNumber] = e.requiredWals := by
    rw [hwal]
    rfl
  exact { h with
    wal_lt := hwal ▸ h.wal_lt
    wal_ne := fun number hnumber ↦ h.wal_ne number (hrequired ▸ hnumber)
    log_le := fun number hnumber ↦ h.log_le number (hrequired ▸ hnumber)
    active_le := hwal ▸ h.active_le
    walSequence_lt := h.walSequence_lt.trans hsucc
    ascending := hcore.ascending }

/-- Logging a batch changes nothing but the WAL. -/
theorem Inv.appendWal (h : Inv e) {options : Options} {sequence : SequenceNumber}
    {batch : WriteBatch} :
    wp (Engine.appendWal options noFaults sequence batch) (fun _ e' ↦ Inv e' ∧ ∃ wals,
      e' = { e with directory := { e.directory with wals } }) e := by
  have hsame : Inv e ∧ ∃ wals, e = { e with directory := { e.directory with wals } } :=
    ⟨h, e.directory.wals, rfl⟩
  unfold Engine.appendWal
  rw [wp_get_bind]
  refine wp_lift_bind (fun _ _ ↦ hsame) fun writer _ ↦ ?_
  refine wp_lift_bind (fun _ _ ↦ hsame) fun bytes _ ↦ ?_
  rw [wp_perform]
  refine ⟨{ h with walFiles_ne := fun segment hsegment ↦ ?_ }, _, rfl⟩
  obtain ⟨original, horiginal, rfl⟩ := List.mem_map.mp hsegment
  split_ifs <;> exact h.walFiles_ne original horiginal

theorem validateBatch_eq_ok {options : Options} {batch : WriteBatch}
    (h : validateBatch options batch = .ok ()) : batch.isEmpty = false := by
  unfold validateBatch at h
  split_ifs at h with hempty
  simpa using hempty

/-- **Writing.** A write that returns has written its batch; one that fails has changed nothing that
can be seen. -/
theorem Inv.writeSerialized (h : Inv e) {options : Options} {prepare : Result WriteBatch} :
    wp (Engine.writeSerialized options noFaults prepare) (fun r e' ↦ Inv e' ∧ match r with
      | .ok _ => ∃ batch, prepare = .ok batch ∧ Wrote e batch e'
      | .error _ => Extends e e') e := by
  unfold Engine.writeSerialized
  rw [wp_get_bind]
  refine wp_lift_bind (fun _ _ ↦ ⟨h, .refl e⟩) fun _ _ ↦ ?_
  refine wp_lift_bind (fun _ _ ↦ ⟨h, .refl e⟩) fun batch hprepare ↦ ?_
  refine wp_lift_bind (fun _ _ ↦ ⟨h, .refl e⟩) fun _ hvalidate ↦ ?_
  rw [wp_get_bind, wp_ite]
  refine ⟨fun _ ↦ ⟨h, .refl e⟩, fun _ ↦ ?_⟩
  rw [wp_ite]
  refine ⟨fun _ ↦ ⟨h, .refl e⟩, fun hmax ↦ ?_⟩
  have hlt : e.nextSequence.val < maxU64 := by
    have := e.nextSequence.isLt
    unfold maxU64 at hmax ⊢
    omega
  rw [wp_bind]
  refine wp_orTerminal (wp_mono h.appendWal fun r e₁ h₁ ↦ ?_)
  obtain ⟨hinv, wals, rfl⟩ := h₁
  have hlogged : Extends e { e with directory := { e.directory with wals } } :=
    { Extends.refl e with }
  cases r with
  | error error => exact fun failure _ ↦ ⟨{ hinv with }, { hlogged with }⟩
  | ok u =>
  dsimp only
  rw [wp_bind]
  refine wp_mono (hinv.commit (validateBatch_eq_ok hvalidate) hlt) fun r e₂ h₂ ↦ ?_
  obtain ⟨rfl, hinv₂, hwrote, hne, -⟩ := h₂
  have hwrote : Wrote e batch e₂ := { hwrote with }
  dsimp only
  rw [wp_get_bind, wp_ite]
  refine ⟨fun _ ↦ ?_, fun _ ↦ ⟨hinv₂, batch, hprepare, hwrote⟩⟩
  have hlargest : e.nextSequence.val + 1 = e₂.nextSequence.val := by
    rw [hwrote.nextSequence, Fin.val_add_one_of_lt' (by unfold maxU64 at hlt; omega)]
  rw [wp_tryCatch, wp_bind]
  refine wp_mono (hinv₂.rotateMemtable hne hlargest) fun r e₃ h₃ ↦ ?_
  obtain ⟨hinv₃, hextends, -⟩ := h₃
  cases r with
  | ok u => exact ⟨hinv₃, batch, hprepare, hwrote.trans hextends⟩
  | error error =>
    -- The batch has been written; only the rotation failed.
    dsimp only
    rw [wp_bind]
    refine wp_recordTerminalFailure fun failure _ ↦ ?_
    have hsame : Extends e₃ { e₃ with terminalFailure := some failure } := { Extends.refl e₃ with }
    exact ⟨{ hinv₃ with }, batch, hprepare, (hwrote.trans hextends).trans hsame⟩

/-! ## Synchronizing and closing -/

private theorem wp_syncOwnedWals :
    wp (syncOwnedWals noFaults) (fun r e' ↦ r = .ok () ∧ e' = e) e := by
  unfold syncOwnedWals
  rw [wp_bind, wp_get]
  exact wp_forM (p := (· = e)) rfl (fun _ he' ↦ ⟨rfl, he'⟩) fun number _ e' he' ↦ he'

theorem saturatingPred_val (n : U64) : (saturatingPred n).val = n.val - 1 := by
  unfold saturatingPred
  rcases eq_or_ne n 0 with rfl | hne
  · rfl
  · have hpos : 1 ≤ n := Fin.one_le_of_ne_zero hne
    rw [min_eq_right hpos, Fin.sub_val_of_le hpos]
    rfl

/-- The edit that records how far the WALs reach. -/
def walStateEdit (engine : Engine) : VersionEdit where
  nextFileNumber := some engine.nextFileNumber
  logNumber := some engine.oldestRequiredWal
  activeLogNumber := some engine.mutable.walNumber
  walSequence := some (saturatingPred engine.nextSequence)

theorem Inv.exists_walState (h : Inv e) :
    ∃ versions, e.versions.apply false e.walStateEdit = .ok versions ∧
      versions.Sound e.directory.tables ∧ versions.usedFileNumbers = e.versions.usedFileNumbers ∧
      versions.counters = e.versions.counters.merge e.walStateEdit ∧
      e.versions.version.SameTables versions.version ∧
      e.versions.counters.Le versions.counters := by
  have hpos := Fin.lt_def.mp h.walSequence_lt
  have hpred := saturatingPred_val e.nextSequence
  have hle : e.versions.counters.Le (e.versions.counters.merge e.walStateEdit) :=
    ⟨h.next_le, le_refl _, h.log_le _ e.oldestRequiredWal_mem, h.active_le,
      Fin.le_def.mpr (by show _ ≤ (saturatingPred e.nextSequence).val; omega)⟩
  have hvalid : (e.versions.counters.merge e.walStateEdit).Valid :=
    ⟨iff_of_false h.oldest_ne (h.wal_ne _ e.walNumber_mem), e.oldestRequiredWal_le e.walNumber_mem,
      fun _ ↦ h.wal_lt⟩
  obtain ⟨versions, happly, hsound, hused, hcounters, hsame⟩ :=
    h.sound.exists_counters ⟨rfl, rfl⟩ hle hvalid
  exact ⟨versions, happly, hsound, hused, hcounters, hsame, hcounters ▸ hle⟩

theorem Inv.persistWalState (h : Inv e) :
    wp (Engine.persistWalState noFaults) (fun _ e' ↦ Inv e' ∧ Extends e e') e := by
  unfold Engine.persistWalState
  rw [wp_get_bind]
  have hpos := Fin.lt_def.mp h.walSequence_lt
  have hpred := saturatingPred_val e.nextSequence
  obtain ⟨versions, happly, hsound, hused, hcounters, hsame, -⟩ := h.exists_walState
  have haccepted := accepted_append h.accepted happly hsound
  have hencodable : e.walStateEdit.Encodable := VersionEdit.CountersOnly.encodable ⟨rfl, rfl⟩
  refine wp_applyEdit h.usable happly (absurd hencodable) fun _ ↦ ⟨?_, ?_⟩
  · refine ⟨rfl, h.usable, hsound, haccepted, h.walFiles_ne, ?_, h.wal_lt, h.wal_ne, ?_, ?_, ?_, ?_⟩
    · rw [hcounters]
      exact le_refl _
    · rw [hcounters]
      exact fun number hnumber ↦ e.oldestRequiredWal_le hnumber
    · rw [hcounters]
      exact le_refl _
    · rw [hcounters]
      exact Fin.lt_def.mpr (by show (saturatingPred e.nextSequence).val < e.nextSequence.val; omega)
    · rw [hcounters]
      exact h.ascending
  · exact ⟨⟨fun _ _ ↦ rfl, hused, hsame, by rw [hcounters]; rfl, le_refl _, List.prefix_refl _,
      rfl⟩, rfl, rfl⟩

theorem Inv.sync (h : Inv e) :
    wp (Engine.sync noFaults) (fun _ e' ↦ Inv e' ∧ Extends e e') e := by
  unfold Engine.sync
  rw [wp_get_bind]
  refine wp_lift_bind (fun _ _ ↦ ⟨h, .refl e⟩) fun _ _ ↦ ?_
  rw [wp_bind]
  refine wp_orTerminal (wp_mono wp_syncOwnedWals ?_)
  rintro r e' ⟨rfl, rfl⟩
  refine wp_orTerminal (wp_mono h.persistWalState fun r e₁ h₁ ↦ ?_)
  obtain ⟨hinv, hextends⟩ := h₁
  cases r with
  | error error => exact fun failure _ ↦ ⟨{ hinv with }, { hextends with }⟩
  | ok u => exact ⟨hinv, hextends⟩

theorem Inv.close (h : Inv e) :
    wp (Engine.close noFaults) (fun _ e' ↦ Inv e' ∧ Extends e e') e := by
  unfold Engine.close
  rw [wp_get_bind]
  cases e.terminalFailure with
  | some failure => exact ⟨{ h with }, { Extends.refl e with }⟩
  | none =>
  dsimp only
  rw [wp_ite]
  refine ⟨fun _ ↦ ⟨h, .refl e⟩, fun _ ↦ ?_⟩
  rw [wp_bind]
  have hfail : ∀ {e₁ : Engine}, Inv e₁ → Extends e e₁ → ∀ error,
      wp (do
        let error ← recordTerminalFailure error
        modify fun engine ↦ { engine with closed := true }
        throw error : Section Unit) (fun _ e' ↦ Inv e' ∧ Extends e e') e₁ := by
    intro e₁ hinv hextends error
    rw [wp_bind]
    exact wp_recordTerminalFailure fun failure _ ↦ ⟨{ hinv with }, { hextends with }⟩
  refine wp_mono (p := fun _ e' ↦ Inv e' ∧ Extends e e') ?_ fun r e' h' ↦ ?_
  · rw [wp_tryCatch, wp_bind]
    refine wp_mono wp_syncOwnedWals ?_
    rintro r e' ⟨rfl, rfl⟩
    refine wp_mono h.persistWalState fun r e₁ h₁ ↦ ?_
    cases r with
    | error error => exact hfail h₁.1 h₁.2 error
    | ok u => exact h₁
  · obtain ⟨hinv, hextends⟩ := h'
    cases r with
    | error error => exact ⟨hinv, hextends⟩
    | ok u => exact ⟨{ hinv with }, { hextends with }⟩

/-! ## Flushing -/

theorem isFlushing_eq_false :
    e.isFlushing = false ↔ e.immutables = [] ∧ e.flushRunning = false := by
  simp [isFlushing]

theorem Inv.flushRotate (h : Inv e) :
    wp (Engine.flushRotate noFaults) (fun r e' ↦ Inv e' ∧ Extends e e' ∧
      ∀ woken, r = .ok woken → e'.mutable.table.entries = []) e := by
  unfold Engine.flushRotate
  rw [wp_get_bind, wp_ite]
  refine ⟨fun hempty ↦ ⟨h, .refl e, fun _ _ ↦ List.isEmpty_iff.mp hempty⟩, fun hnot ↦ ?_⟩
  have hne : e.mutable.table.entries ≠ [] := fun hnil ↦ hnot (List.isEmpty_iff.mpr hnil)
  have hlargest : (saturatingPred e.nextSequence).val + 1 = e.nextSequence.val := by
    have hpos := Fin.lt_def.mp h.ascending.last_lt
    rw [saturatingPred_val]
    omega
  rw [wp_bind]
  refine wp_orTerminal (wp_mono (h.rotateMemtable hne hlargest) fun r e' h' ↦ ?_)
  obtain ⟨hinv, hextends, hrotated, -⟩ := h'
  cases r with
  | error error =>
    exact fun failure _ ↦ ⟨{ hinv with }, { hextends with }, nofun⟩
  | ok u => exact ⟨hinv, hextends, fun _ _ ↦ (hrotated rfl).1⟩

/-- A call of `flush` that is past its rotation has left nothing in the mutable memtable. -/
theorem Inv.flushEnter (h : Inv e) {options : Options} :
    wp (Engine.flushEnter options noFaults) (fun r e' ↦ Inv e' ∧ Extends e e' ∧
      ∀ phase woken, r = .ok (phase, woken) →
        phase = .waitingForRoom ∨ e'.mutable.table.entries = [] ∧
          (phase = .waitingForFlushes ∨ phase = .returned ∧ e'.isFlushing = false)) e := by
  unfold Engine.flushEnter
  rw [wp_get_bind]
  refine wp_lift_bind (fun _ _ ↦ ⟨h, .refl e, nofun⟩) fun _ _ ↦ ?_
  rw [wp_get_bind, wp_ite]
  refine ⟨fun _ ↦ ⟨h, .refl e, fun phase woken hphase ↦ .inl ?_⟩, fun _ ↦ ?_⟩
  · exact (Prod.mk.inj (Except.ok.inj hphase)).1.symm
  rw [wp_bind]
  refine wp_mono h.flushRotate fun r e' h' ↦ ?_
  obtain ⟨hinv, hextends, hrotated⟩ := h'
  cases r with
  | error error => exact ⟨hinv, hextends, nofun⟩
  | ok woken =>
  have hempty := hrotated woken rfl
  dsimp only
  rw [wp_get_bind, wp_ite]
  refine ⟨fun _ ↦ ⟨hinv, hextends, fun phase woken hphase ↦ .inr ⟨hempty, .inl ?_⟩⟩,
    fun hflushing ↦ ⟨hinv, hextends, fun phase woken hphase ↦ .inr ⟨hempty, .inr ⟨?_, ?_⟩⟩⟩⟩
  · exact (Prod.mk.inj (Except.ok.inj hphase)).1.symm
  · exact (Prod.mk.inj (Except.ok.inj hphase)).1.symm
  · exact Bool.eq_false_iff.mpr hflushing

theorem wp_flushDrain : wp Engine.flushDrain (fun r e' ↦ e' = e ∧ ∀ phase, r = .ok phase →
    phase = .waitingForFlushes ∨ phase = .returned ∧ e.isFlushing = false) e := by
  unfold Engine.flushDrain
  rw [wp_get_bind]
  refine wp_lift_bind (fun _ _ ↦ ⟨rfl, nofun⟩) fun _ _ ↦ ?_
  rw [wp_get_bind, wp_ite]
  refine ⟨fun _ ↦ ⟨rfl, fun phase hphase ↦ .inl (Except.ok.inj hphase).symm⟩,
    fun hflushing ↦ ⟨rfl, fun phase hphase ↦ .inr ⟨(Except.ok.inj hphase).symm, ?_⟩⟩⟩
  simpa using hflushing

/-- What the first half of a flush can end with. -/
def TakeResult (engine : Engine) (r : Result WorkerTask) (engine' : Engine) : Prop :=
  match r with
  | .ok .stop => ¬ engine.Live ∧ engine' = engine
  | .ok .sleep => engine.Live ∧ engine.immutables = [] ∧ engine' = engine
  | .ok (.build immutable number) => engine.Live ∧ engine.immutables.head? = some immutable ∧
      number = engine.nextFileNumber ∧ ∃ next : U64, next.val = number.val + 1 ∧
        engine' = { engine with flushRunning := true, nextFileNumber := next }
  | .error _ => engine.Live ∧ ∃ failure, engine' = { engine with
      flushRunning := false, terminalFailure := some failure, backgroundFailure := true }

/-- The first half of a flush takes the oldest immutable memtable and a file number. -/
theorem wp_takeFlush : wp takeFlush (TakeResult e) e := by
  unfold takeFlush
  rw [wp_get_bind, wp_ite]
  refine ⟨fun hdown ↦ ⟨fun hlive ↦ ?_, rfl⟩, fun hup ↦ ?_⟩
  · rw [hlive.1, hlive.2] at hdown
    cases hdown
  have hlive : e.Live := by
    unfold Live
    simpa [and_comm] using hup
  cases himmutables : e.immutables with
  | nil => exact ⟨hlive, himmutables, rfl⟩
  | cons immutable immutables =>
  dsimp only
  rw [wp_modify_bind, wp_bind, wp_tryCatch]
  refine wp_allocateFileNumber (fun _ error ↦ ?_) fun next hnumber hnext ↦ ?_
  · dsimp only
    rw [wp_bind]
    exact wp_recordBackgroundFailure fun failure _ ↦ ⟨hlive, failure, by rw [himmutables]; rfl⟩
  · dsimp only at hnext ⊢
    rw [wp_pure]
    exact ⟨hlive, by rw [himmutables]; rfl, rfl, next, hnext, by rw [himmutables]⟩

theorem Inv.takeFlush (h : Inv e) (hidle : e.flushRunning = false) :
    wp Engine.takeFlush (fun r e' ↦ match r with
      | .ok (.build immutable number) => Inv e' ∧ e.immutables.head? = some immutable ∧
          number = e.nextFileNumber ∧ ∃ next : U64, next.val = number.val + 1 ∧
            e' = { e with flushRunning := true, nextFileNumber := next }
      | _ => Inv e' ∧ Extends e e') e := by
  refine wp_mono wp_takeFlush fun r e' h' ↦ ?_
  rcases r with error | task
  · obtain ⟨-, failure, rfl⟩ := h'
    exact ⟨{ h with }, { Extends.refl e with flushRunning := hidle.symm }⟩
  cases task with
  | stop =>
    obtain ⟨-, rfl⟩ := h'
    exact ⟨h, .refl _⟩
  | sleep =>
    obtain ⟨-, -, rfl⟩ := h'
    exact ⟨h, .refl _⟩
  | build immutable number =>
    obtain ⟨-, himmutable, rfl, next, hnext, rfl⟩ := h'
    have hlt : e.nextFileNumber < next := Fin.lt_def.mpr (by omega)
    exact ⟨{ h with next_le := h.next_le.trans hlt.le, wal_lt := h.wal_lt.trans hlt }, himmutable,
      rfl, next, hnext, rfl⟩

/-- A table is built with the entries of a memtable, or an error is returned. -/
theorem wp_buildSstable {faults : Faults} {number : U64} {table : MemTable} {fileSize : U64} :
    wp (Engine.buildSstable faults number table fileSize) (fun r e' ↦
      (e' = e ∨ e' = { e with directory := e.directory.addTable number table.entries }) ∧
      ∀ file, r = .ok file → file.number = number ∧
        e'.directory.tables number = some table.entries ∧
        (∀ entry ∈ table.entries, file.Covers entry.key.userKey) ∧
        (⟨file, table.entries⟩ : CompactedTable).Described) e := by
  unfold Engine.buildSstable
  cases hfirst : table.entries.head? with
  | none => exact ⟨.inl rfl, nofun⟩
  | some first =>
  cases hlast : table.entries.getLast? with
  | none => exact ⟨.inl rfl, nofun⟩
  | some last =>
  dsimp only
  rw [wp_bind]
  refine wp_perform_faults ?_ (fun _ ↦ ⟨.inl rfl, nofun⟩) fun _ ↦ ⟨.inr rfl, nofun⟩
  dsimp only
  rw [wp_lift]
  refine ⟨.inr rfl, fun file hfile ↦ ?_⟩
  obtain ⟨hnumber, -, hsmallest, hlargest⟩ := FileMeta.eq_of_new hfile
  have hdescribed : (⟨file, table.entries⟩ : CompactedTable).Described :=
    ⟨by rw [hfirst, hsmallest]; rfl, by rw [hlast, hlargest]; rfl⟩
  exact ⟨hnumber, Function.update_self .., fun entry hentry ↦ hdescribed.covers table.run hentry,
    hdescribed⟩

/-- Tables under numbers that are not in use do not matter. -/
theorem sound_addTable {number : U64} (h : e.versions.Sound e.directory.tables)
    (hnumber : ∀ used ∈ e.versions.usedFileNumbers, used < number) (entries : List InternalEntry) :
    e.versions.Sound (e.directory.addTable number entries).tables :=
  h.tables_congr fun used hused ↦ Function.update_of_ne (hnumber used hused).ne _ _

theorem Inv.buildSstable (h : Inv e) {number : U64}
    (hnumber : ∀ used ∈ e.versions.usedFileNumbers, used < number) {table : MemTable}
    {fileSize : U64} :
    wp (Engine.buildSstable noFaults number table fileSize) (fun r e' ↦ Inv e' ∧
      (e' = e ∨ e' = { e with directory := e.directory.addTable number table.entries }) ∧
      ∀ file, r = .ok file → file.number = number ∧
        e'.directory.tables number = some table.entries ∧
        (∀ entry ∈ table.entries, file.Covers entry.key.userKey) ∧
        (⟨file, table.entries⟩ : CompactedTable).Described) e := by
  refine wp_mono wp_buildSstable fun r e' h' ↦ ⟨?_, h'⟩
  rcases h'.1 with rfl | rfl
  · exact h
  · exact { h with sound := sound_addTable h.sound hnumber _ }

theorem wp_retireObsoleteWals :
    wp (retireObsoleteWals noFaults) (fun r e' ↦ r = .ok () ∧
      ∃ wals walNumbers, wals ⊆ e.directory.wals ∧
        e' = { e with directory := { e.directory with wals }, walNumbers }) e := by
  unfold retireObsoleteWals
  rw [wp_get_bind]
  have hsame : ∃ wals walNumbers, wals ⊆ e.directory.wals ∧
      e = { e with directory := { e.directory with wals }, walNumbers } :=
    ⟨e.directory.wals, e.walNumbers, List.Subset.refl _, rfl⟩
  rw [wp_bind]
  refine wp_forM (p := fun e' ↦ ∃ wals walNumbers, wals ⊆ e.directory.wals ∧
    e' = { e with directory := { e.directory with wals }, walNumbers }) hsame ?_ ?_
  · intro e' hframe
    dsimp only
    rw [wp_ite]
    exact ⟨fun _ ↦ ⟨rfl, hframe⟩, fun _ ↦ ⟨rfl, hframe⟩⟩
  · rintro number - e' ⟨wals, walNumbers, hsub, rfl⟩
    rw [wp_bind, wp_perform]
    dsimp only
    rw [wp_modify]
    exact ⟨_, _, fun segment hsegment ↦ hsub (List.mem_of_mem_filter hsegment), rfl⟩

/-- A flush has been published: the oldest immutable memtable has become a table of level zero. -/
structure PublishedFlush (engine : Engine) (immutable : ImmutableMemTable) (file : FileMeta)
    (engine' : Engine) : Prop where
  immutables : engine.immutables = immutable :: engine'.immutables
  used_lt : ∀ used ∈ engine.versions.usedFileNumbers, used < file.number
  table : engine.directory.tables file.number = some immutable.table.entries
  tables : engine'.directory.tables = engine.directory.tables
  used : engine'.versions.usedFileNumbers = insert file.number engine.versions.usedFileNumbers
  version : ∀ level other, other ∈ engine'.versions.version.levels level ↔
    other ∈ engine.versions.version.levels level ∨ level = 0 ∧ other = file
  lastSequence : engine'.versions.counters.lastSequence = immutable.largestSequence
  mutable : engine'.mutable = engine.mutable
  nextFileNumber : engine'.nextFileNumber = engine.nextFileNumber
  nextSequence : engine'.nextSequence = engine.nextSequence

/-- The edit that publishes the oldest immutable memtable as a table. -/
def flushEdit (engine : Engine) (immutable : ImmutableMemTable) (file : FileMeta) :
    VersionEdit where
  addedFiles := [(0, file)]
  nextFileNumber := some engine.nextFileNumber
  lastSequence := some immutable.largestSequence
  logNumber := some
    (((engine.immutables.drop 1).map (·.walNumber)).foldr min engine.mutable.walNumber)
  activeLogNumber := some engine.mutable.walNumber

theorem requiredWals_flush (e : Engine) :
    ((e.immutables.drop 1).map (·.walNumber) ++ [e.mutable.walNumber]).Sublist e.requiredWals :=
  ((List.drop_sublist 1 _).map _).append (List.Sublist.refl _)

theorem Core.flushed (h : Core e) {immutable : ImmutableMemTable}
    (hmem : immutable ∈ e.immutables) {file : FileMeta}
    (hnumber : ∀ used ∈ e.versions.usedFileNumbers, used < file.number)
    (htable : e.directory.tables file.number = some immutable.table.entries)
    (hcovers : ∀ entry ∈ immutable.table.entries, file.Covers entry.key.userKey) :
    Flushed e.versions e.directory.tables file immutable.table.entries
      immutable.largestSequence :=
  ⟨hnumber, htable, h.ascending.strict immutable hmem, hcovers,
    fun entry hentry ↦ (h.ascending.above immutable hmem entry hentry).1,
    fun entry hentry ↦ (h.ascending.above immutable hmem entry hentry).2⟩

theorem Inv.exists_publication (h : Inv e) {immutable : ImmutableMemTable}
    (hmem : immutable ∈ e.immutables) {file : FileMeta}
    (hnumber : ∀ used ∈ e.versions.usedFileNumbers, used < file.number)
    (hlt : file.number < e.nextFileNumber)
    (htable : e.directory.tables file.number = some immutable.table.entries)
    (hcovers : ∀ entry ∈ immutable.table.entries, file.Covers entry.key.userKey) :
    ∃ versions, e.versions.apply false (e.flushEdit immutable file) = .ok versions ∧
      versions.Sound e.directory.tables ∧
      versions.usedFileNumbers = insert file.number e.versions.usedFileNumbers ∧
      versions.counters = e.versions.counters.merge (e.flushEdit immutable file) ∧
      ∀ level other, other ∈ versions.version.levels level ↔
        other ∈ e.versions.version.levels level ∨ level = 0 ∧ other = file := by
  obtain ⟨hoff_mem, hoff_le⟩ :=
    foldr_min_mem ((e.immutables.drop 1).map (·.walNumber)) e.mutable.walNumber
  have hoff := e.requiredWals_flush.subset hoff_mem
  have hle : e.versions.counters.Le (e.versions.counters.merge (e.flushEdit immutable file)) :=
    ⟨h.next_le, h.ascending.last_le hmem, h.log_le _ hoff, h.active_le, le_refl _⟩
  have hvalid : (e.versions.counters.merge (e.flushEdit immutable file)).Valid :=
    ⟨iff_of_false (h.wal_ne _ hoff) (h.wal_ne _ e.walNumber_mem),
      hoff_le _ (List.mem_append_right _ (List.mem_singleton.mpr rfl)), fun _ ↦ h.wal_lt⟩
  have hflushed := h.core.flushed hmem hnumber htable hcovers
  exact h.sound.exists_flush hflushed rfl rfl rfl hle hvalid hlt

theorem Inv.publishFlush (h : Inv e) {immutable : ImmutableMemTable}
    {immutables : List ImmutableMemTable} (himmutables : e.immutables = immutable :: immutables)
    {file : FileMeta} (hnumber : ∀ used ∈ e.versions.usedFileNumbers, used < file.number)
    (hlt : file.number < e.nextFileNumber)
    (htable : e.directory.tables file.number = some immutable.table.entries)
    (hcovers : ∀ entry ∈ immutable.table.entries, file.Covers entry.key.userKey) :
    wp (Engine.publishFlush noFaults immutable (.ok file)) (fun r e' ↦ Inv e' ∧
      (PublishedFlush e immutable file e' ∧ e'.flushRunning = e.flushRunning ∨ Extends e e') ∧
      (r = .ok () ↔ (e.flushEdit immutable file).Encodable) ∧ SameStatus e e') e := by
  have hmem : immutable ∈ e.immutables := himmutables ▸ List.mem_cons_self ..
  unfold Engine.publishFlush
  rw [wp_bind, wp_lift]
  dsimp only
  rw [wp_get_bind]
  obtain ⟨versions, happly, hsound, hused, hcounters, hversion⟩ :=
    h.exists_publication hmem hnumber hlt htable hcovers
  have haccepted := accepted_append h.accepted happly hsound
  rw [wp_bind]
  refine wp_applyEdit h.usable happly (fun hlarge error ↦ ?_) fun hencodable ↦ ?_
  · exact ⟨{ h with accepted := haccepted }, .inr { Extends.refl e with },
      iff_of_false nofun hlarge, rfl, rfl⟩
  dsimp only
  rw [wp_modify_bind]
  refine wp_mono wp_retireObsoleteWals ?_
  rintro r e' ⟨hretired, wals, walNumbers, hsub, rfl⟩
  have hdrop : e.immutables.drop 1 = immutables := by rw [himmutables]; rfl
  refine ⟨?_, .inl ⟨⟨?_, hnumber, htable, rfl, hused, hversion, by rw [hcounters]; rfl, rfl, rfl,
    rfl⟩, rfl⟩, iff_of_true hretired hencodable, rfl, rfl⟩
  · refine ⟨rfl, h.usable, hsound, haccepted, fun segment hsegment ↦
      h.walFiles_ne _ (hsub hsegment),
      ?_, h.wal_lt, fun number hnumber ↦
        h.wal_ne number (e.requiredWals_flush.subset hnumber), ?_, ?_, ?_, ?_⟩
    · rw [hcounters]
      exact le_refl _
    · rw [hcounters]
      exact (foldr_min_mem ((e.immutables.drop 1).map (·.walNumber)) e.mutable.walNumber).2
    · rw [hcounters]
      exact le_refl _
    · rw [hcounters]
      exact h.walSequence_lt
    · have hascending := h.ascending
      rw [himmutables] at hascending
      rw [hcounters]
      show Ascending immutable.largestSequence (e.immutables.drop 1) _ _
      rw [hdrop]
      exact hascending.flush
  · show e.immutables = immutable :: e.immutables.drop 1
    rw [hdrop, himmutables]

/-- **The second half of a flush.** -/
theorem Inv.finishFlush (h : Inv e) {immutable : ImmutableMemTable}
    {immutables : List ImmutableMemTable} (himmutables : e.immutables = immutable :: immutables)
    {built : Result FileMeta} (hbuilt : ∀ file, built = .ok file →
      (∀ used ∈ e.versions.usedFileNumbers, used < file.number) ∧
        file.number < e.nextFileNumber ∧
        e.directory.tables file.number = some immutable.table.entries ∧
        ∀ entry ∈ immutable.table.entries, file.Covers entry.key.userKey) :
    wp (Engine.finishFlush noFaults immutable built) (fun r e' ↦ Inv e' ∧ e'.flushRunning = false ∧
      ((∃ file, PublishedFlush e immutable file e') ∨
        Extends { e with flushRunning := false } e') ∧
      (r = .ok () ↔ ∃ file, built = .ok file ∧ (e.flushEdit immutable file).Encodable) ∧
      (e'.terminalFailure = none ↔ e.terminalFailure = none ∧ r = .ok ())) e := by
  unfold Engine.finishFlush
  rw [wp_bind, wp_tryCatch, wp_bind]
  have hstart : wp (Engine.publishFlush noFaults immutable built) (fun r e' ↦ Inv e' ∧
      ((∃ file, PublishedFlush e immutable file e' ∧ e'.flushRunning = e.flushRunning) ∨
        Extends e e') ∧
      (r = .ok () ↔ ∃ file, built = .ok file ∧ (e.flushEdit immutable file).Encodable) ∧
      SameStatus e e') e := by
    cases built with
    | error error =>
      refine ⟨h, .inr (.refl e), iff_of_false nofun ?_, rfl, rfl⟩
      rintro ⟨_, hfile, -⟩
      cases hfile
    | ok file =>
      obtain ⟨hnumber, hlt, htable, hcovers⟩ := hbuilt file rfl
      refine wp_mono (h.publishFlush himmutables hnumber hlt htable hcovers) fun r e' h' ↦ ?_
      obtain ⟨hinv, hpublished, hresult, hstatus⟩ := h'
      refine ⟨hinv, hpublished.imp_left fun hpublished ↦ ⟨file, hpublished⟩, hresult.trans ?_,
        hstatus⟩
      exact ⟨fun hencodable ↦ ⟨file, rfl, hencodable⟩,
        fun ⟨_, hfile, hencodable⟩ ↦ Except.ok.inj hfile ▸ hencodable⟩
  refine wp_mono hstart fun r e' h' ↦ ?_
  obtain ⟨hinv, hpublished, hresult, hstatus⟩ := h'
  -- Clearing the flag and recording a failure change nothing else.
  have hdone : ∀ terminalFailure backgroundFailure,
      Inv { e' with flushRunning := false, terminalFailure, backgroundFailure } ∧
        ((∃ file, PublishedFlush e immutable file
            { e' with flushRunning := false, terminalFailure, backgroundFailure }) ∨
          Extends { e with flushRunning := false }
            { e' with flushRunning := false, terminalFailure, backgroundFailure }) := by
    intro terminalFailure backgroundFailure
    refine ⟨{ hinv with }, ?_⟩
    rcases hpublished with ⟨file, hpublished, -⟩ | hextends
    · exact .inl ⟨file, { hpublished with }⟩
    · exact .inr { hextends with flushRunning := rfl }
  cases r with
  | ok u =>
    dsimp only
    rw [wp_pure]
    dsimp only
    rw [wp_bind, wp_modify]
    obtain ⟨hinv', hpublished'⟩ := hdone e'.terminalFailure e'.backgroundFailure
    exact ⟨hinv', rfl, hpublished', hresult, by rw [← hstatus.2]; exact (and_iff_left rfl).symm⟩
  | error error =>
    dsimp only
    rw [wp_pure]
    dsimp only
    rw [wp_modify_bind, wp_bind]
    refine wp_recordBackgroundFailure fun failure _ ↦ ?_
    obtain ⟨hinv', hpublished'⟩ := hdone (some failure) true
    refine ⟨hinv', rfl, hpublished', iff_of_false nofun fun hfile ↦ ?_, iff_of_false nofun ?_⟩
    · exact absurd (hresult.mpr hfile) nofun
    · exact fun hok ↦ absurd hok.2 nofun

/-! ## Compacting -/

/-- A compaction has been published. -/
structure PublishedCompaction (engine : Engine) (context : CompactionContext)
    (plan : CompactionPlan) (engine' : Engine) : Prop where
  tables : ∀ number < engine.nextFileNumber,
    engine'.directory.tables number = engine.directory.tables number
  compacts : ∃ outputs next blocks, Compacts engine.versions.version engine'.versions.version
    (contentsOf engine.directory.tables) (contentsOf engine'.directory.tables) context plan
    (mergedEntries (plan.files.map (contentsOf engine.directory.tables))) outputs next blocks
  used : engine.versions.usedFileNumbers ⊆ engine'.versions.usedFileNumbers
  lastSequence : engine'.versions.counters.lastSequence = engine.versions.counters.lastSequence
  immutables : engine'.immutables = engine.immutables
  mutable : engine'.mutable = engine.mutable
  flushRunning : engine'.flushRunning = engine.flushRunning
  next_le : engine.nextFileNumber ≤ engine'.nextFileNumber
  nextSequence : engine'.nextSequence = engine.nextSequence

theorem foldl_addTable (outputs : List CompactedTable) (directory : Directory) :
    outputs.foldl (fun d output ↦ d.addTable output.file.number output.entries) directory
      = { directory with tables := (outputs.foldl
          (fun d output ↦ d.addTable output.file.number output.entries) directory).tables } := by
  induction outputs generalizing directory with
  | nil => rfl
  | cons output outputs ih =>
    rw [List.foldl_cons, ih]
    rfl

private theorem tables_foldl_addTable {outputs : List CompactedTable} {directory : Directory}
    (hnodup : (outputs.map (·.file.number)).Nodup) :
    (∀ number, (∀ output ∈ outputs, output.file.number ≠ number) → (outputs.foldl
        (fun d output ↦ d.addTable output.file.number output.entries) directory).tables number
          = directory.tables number) ∧
      ∀ output ∈ outputs, (outputs.foldl
        (fun d output ↦ d.addTable output.file.number output.entries) directory).tables
          output.file.number = some output.entries := by
  induction outputs generalizing directory with
  | nil => exact ⟨fun _ _ ↦ rfl, nofun⟩
  | cons first outputs ih =>
    obtain ⟨hfirst, hnodup⟩ := List.nodup_cons.mp hnodup
    obtain ⟨hothers, houtputs⟩ := @ih (directory.addTable first.file.number first.entries) hnodup
    rw [List.foldl_cons]
    refine ⟨fun number hnumber ↦ ?_, fun output houtput ↦ ?_⟩
    · obtain ⟨hne, hnumber⟩ := List.forall_mem_cons.mp hnumber
      rw [hothers number hnumber]
      exact Function.update_of_ne hne.symm _ _
    · rcases List.mem_cons.mp houtput with rfl | houtput
      · rw [hothers _ fun other hother heq ↦ hfirst (List.mem_map.mpr ⟨other, hother, heq⟩)]
        exact Function.update_self ..
      · exact houtputs output houtput

/-- The outputs of a compaction are all there, and the tables with smaller numbers are as before. -/
theorem tables_of_compactionRun {context : CompactionContext} {plan : CompactionPlan}
    {contents : FileMeta → List InternalEntry} {merged : List InternalEntry}
    {outputs : List CompactedTable} {next : U64} (directory : Directory)
    (hopen : ∀ file ∈ plan.files, context.openTable file = .ok ((contents file).map .ok))
    (hunion : MergeIter.Union InternalEntry.key merged (plan.files.map contents))
    (hrun : compactionRun context plan = .ok (outputs, next)) :
    (∀ number < context.nextFileNumber, (outputs.foldl
        (fun d output ↦ d.addTable output.file.number output.entries) directory).tables number
          = directory.tables number) ∧
      ∀ output ∈ outputs, (outputs.foldl
        (fun d output ↦ d.addTable output.file.number output.entries) directory).tables
          output.file.number = some output.entries := by
  obtain ⟨blocks, houtput⟩ := compactionRun_eq_ok hopen hunion hrun
  obtain ⟨hothers, houtputs⟩ := @tables_foldl_addTable outputs directory houtput.numbers_nodup
  refine ⟨fun number hlt ↦ hothers number fun output hmem heq ↦ ?_, houtputs⟩
  exact absurd hlt (not_lt.mpr (heq ▸ (houtput.number_mem hmem).1))

/-- A plan can be published: its run succeeds, and the edit is within the limit. -/
def Publishable (context : CompactionContext) (plan : CompactionPlan) : Prop :=
  ∃ outputs next, compactionRun context plan = .ok (outputs, next) ∧
    (plan.edit (outputs.map (·.file)) next).Encodable

variable {options : Options} {oldestActiveSnapshot : Option SequenceNumber} {readTimeUnixMs : U64}
  {fileSize : U64 → U64} {plan : CompactionPlan}

/-- A compaction can read the tables of a plan. -/
theorem Inv.openTable_eq_ok (h : Inv e) (hreplaceable : Replaceable e.versions.version plan) :
    ∀ file ∈ plan.files,
      (e.compactionContext options noFaults oldestActiveSnapshot readTimeUnixMs fileSize).openTable
        file = .ok ((contentsOf e.directory.tables file).map .ok) := by
  intro file hfile
  obtain ⟨level, hlevel⟩ := hreplaceable.exists_level hfile
  obtain ⟨entries, hentries⟩ := Option.isSome_iff_exists.mp (h.sound.present level file hlevel)
  rw [contentsOf, hentries, compactionContext]
  simp [noFaults, hentries]

theorem Inv.executeValidCompactionPlan (h : Inv e)
    (hreplaceable : Replaceable e.versions.version plan) :
    wp (Engine.executeValidCompactionPlan (e.compactionContext options noFaults oldestActiveSnapshot
        readTimeUnixMs fileSize) noFaults plan) (fun r e' ↦ Inv e' ∧ (match r with
      | .ok _ => PublishedCompaction e (e.compactionContext options noFaults oldestActiveSnapshot
          readTimeUnixMs fileSize) plan e'
      | .error _ => Extends e e') ∧
      (r = .ok () ↔ Publishable (e.compactionContext options noFaults oldestActiveSnapshot
        readTimeUnixMs fileSize) plan) ∧ SameStatus e e') e := by
  set context := e.compactionContext options noFaults oldestActiveSnapshot readTimeUnixMs fileSize
    with hcontext
  have hopen : ∀ file ∈ plan.files,
      context.openTable file = .ok ((contentsOf e.directory.tables file).map .ok) :=
    h.openTable_eq_ok hreplaceable
  unfold Engine.executeValidCompactionPlan
  rw [wp_bind, wp_lift]
  cases hrun : compactionRun context plan with
  | error error =>
    refine ⟨h, .refl e, iff_of_false nofun ?_, rfl, rfl⟩
    rintro ⟨_, _, hok, -⟩
    exact absurd (hrun.symm.trans hok) nofun
  | ok result =>
  obtain ⟨outputs, next⟩ := result
  obtain ⟨hold, houtputs⟩ := tables_of_compactionRun e.directory hopen
    (hreplaceable.union h.sound.layered) hrun
  obtain ⟨versions, happly, hsound, hnext, hcounters, hused, hcompacts⟩ :=
    h.sound.exists_compaction hreplaceable rfl hopen h.next_le hrun hold houtputs
  have haccepted := accepted_append h.accepted happly hsound
  dsimp only
  rw [wp_modify_bind, wp_bind, foldl_addTable]
  refine wp_applyEdit h.usable happly (fun hlarge error ↦ ⟨?_, ?_, iff_of_false nofun ?_, rfl, rfl⟩)
    fun hencodable ↦ ?_
  · refine { h with
      accepted := haccepted
      sound := h.sound.tables_congr fun number hnumber ↦ hold number ?_ }
    exact (h.sound.used_lt number hnumber).trans_le h.next_le
  · exact { Extends.refl e with tables := hold }
  · rintro ⟨_, _, hok, hencodable⟩
    obtain ⟨rfl, rfl⟩ := Prod.mk.inj (Except.ok.inj (hrun.symm.trans hok))
    exact hlarge hencodable
  dsimp only
  rw [wp_modify_bind, wp_perform, id_eq]
  refine ⟨?_, ⟨hold, ⟨outputs, next, hcompacts⟩, hused, by rw [hcounters], rfl, rfl, rfl, hnext,
    rfl⟩, iff_of_true rfl ⟨outputs, next, hrun, hencodable⟩, rfl, rfl⟩
  refine ⟨rfl, h.usable, hsound, haccepted, h.walFiles_ne, ?_, h.wal_lt.trans_le hnext, h.wal_ne,
    ?_, ?_, ?_, ?_⟩
  · rw [hcounters]
  · rw [hcounters]
    exact h.log_le
  · rw [hcounters]
    exact h.active_le
  · rw [hcounters]
    exact h.walSequence_lt
  · rw [hcounters]
    exact h.ascending

/-- **Executing a plan.** A plan that is refused changes nothing; one that fails changes nothing
that can be seen; one that succeeds is published. -/
theorem Inv.executeCompactionPlan (h : Inv e)
    (hreplaceable : validateCompactionPlan plan e.versions.version = .ok () →
      Replaceable e.versions.version plan) :
    wp (Engine.executeCompactionPlan options noFaults oldestActiveSnapshot readTimeUnixMs fileSize
        plan) (fun r e' ↦ Inv e' ∧ (match r with
      | .ok (.ok _) => e.isFlushing = false ∧ Replaceable e.versions.version plan ∧
          PublishedCompaction e (e.compactionContext options noFaults oldestActiveSnapshot
            readTimeUnixMs fileSize) plan e'
      | .ok (.error _) => Extends e e'
      | .error _ => e' = e) ∧
      (∀ result, r = .ok result → validateCompactionPlan plan e.versions.version = .ok () ∧
        (result = .ok () ↔ Publishable (e.compactionContext options noFaults oldestActiveSnapshot
          readTimeUnixMs fileSize) plan)) ∧ SameStatus e e') e := by
  unfold Engine.executeCompactionPlan
  rw [wp_get_bind]
  refine wp_lift_bind (fun _ _ ↦ ⟨h, rfl, nofun, rfl, rfl⟩) fun _ _ ↦ ?_
  rw [wp_ite]
  refine ⟨fun _ ↦ ⟨h, rfl, nofun, rfl, rfl⟩, fun hflushing ↦ ?_⟩
  refine wp_lift_bind (fun _ _ ↦ ⟨h, rfl, nofun, rfl, rfl⟩) fun _ hvalid ↦ ?_
  have hplan := hreplaceable hvalid
  dsimp only
  rw [wp_tryCatch, wp_bind]
  refine wp_mono (h.executeValidCompactionPlan hplan) fun r e' h' ↦ ?_
  obtain ⟨hinv, hmatch, hresult, hstatus⟩ := h'
  cases r with
  | ok u =>
    refine ⟨hinv, ⟨by simpa using hflushing, hplan, hmatch⟩, ?_, hstatus⟩
    rintro _ ⟨⟩
    exact ⟨hvalid, hresult⟩
  | error error =>
    refine ⟨hinv, hmatch, ?_, hstatus⟩
    rintro _ ⟨⟩
    exact ⟨hvalid, iff_of_false nofun fun hok ↦ absurd (hresult.mpr hok) nofun⟩

theorem Inv.failCompaction (h : Inv e) {error : Error} :
    wp (Engine.failCompaction error) (fun _ e' ↦ Inv e' ∧ Extends e e') e := by
  unfold Engine.failCompaction
  rw [wp_bind]
  exact wp_recordBackgroundFailure fun _ _ ↦ ⟨{ h with }, { Extends.refl e with }⟩

end Engine

end MeteorDB
