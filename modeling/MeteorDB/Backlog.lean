import MeteorDB.Crashes
import MeteorDB.EngineFaults

/-!
# The backlog of memtables

A write is refused when the immutable memtables have reached their limit, and `flush` waits for
room. Opening checks nothing: every WAL that recovery needs and that is not empty becomes an
immutable memtable. That the limit still holds then is a matter of what was on disk.
`Directory.Backlog` says that no more WALs are pending there than the limit allows, and it holds at
every point where a crash can happen; `Engine.Backlog` is the invariant of an open engine that keeps
it so. A removed WAL that a crash brings back is `Spent`: recovery does not need it, or it is empty.
-/

namespace MeteorDB

open Attempt Engine

/-! ## On disk -/

theorem Counters.Le.refl (counters : Counters) : counters.Le counters :=
  ⟨le_refl _, le_refl _, le_refl _, le_refl _, le_refl _⟩

theorem Counters.Le.trans {a b c : Counters} (h : a.Le b) (h' : b.Le c) : a.Le c :=
  ⟨h.nextFileNumber.trans h'.nextFileNumber, h.lastSequence.trans h'.lastSequence,
    h.logNumber.trans h'.logNumber, h.activeLogNumber.trans h'.activeLogNumber,
    h.walSequence.trans h'.walSequence⟩

/-- What holds of every WAL that the engine has written. -/
structure WalSegment.Written (counters : Counters) (segment : WalSegment) : Prop where
  number_ne : segment.number ≠ 0
  batches : ∀ record ∈ segment.records, record.batch.isEmpty = false
  number_le : segment.records ≠ [] → segment.number ≤ counters.activeLogNumber

/-- A WAL from which recovery takes nothing. -/
structure WalSegment.Spent (counters : Counters) (segment : WalSegment) : Prop extends
    segment.Written counters where
  records : counters.logNumber ≤ segment.number → segment.records = []

theorem WalSegment.Written.mono {counters counters' : Counters} {segment : WalSegment}
    (h : segment.Written counters) (hle : counters.Le counters') : segment.Written counters' :=
  ⟨h.number_ne, h.batches, fun hne ↦ (h.number_le hne).trans hle.activeLogNumber⟩

theorem WalSegment.Spent.mono {counters counters' : Counters} {segment : WalSegment}
    (h : segment.Spent counters) (hle : counters.Le counters') : segment.Spent counters' :=
  ⟨h.toWritten.mono hle, fun hlog ↦ h.records (hle.logNumber.trans hlog)⟩

namespace Directory

/-- Whether recovery makes a memtable of a WAL. -/
def isPending (counters : Counters) (segment : WalSegment) : Bool :=
  !segment.records.isEmpty && counters.logNumber ≤ segment.number

private theorem isPending_iff {counters : Counters} {segment : WalSegment} :
    isPending counters segment = true ↔
      segment.records ≠ [] ∧ counters.logNumber ≤ segment.number := by
  simp [isPending]

/-- The WALs that recovery makes memtables of. -/
def pending (d : Directory) : List WalSegment := d.wals.filter (isPending d.manifest.counters)

/-- No more WALs are pending than the limit allows. -/
structure Backlog (limit : ℕ) (d : Directory) : Prop where
  nodup : (d.wals.map (·.number)).Nodup
  written : ∀ segment ∈ d.wals, segment.Written d.manifest.counters
  bounded : d.pending.length ≤ limit

variable {limit : ℕ} {d : Directory}

theorem mem_pending {segment : WalSegment} : segment ∈ d.pending ↔ segment ∈ d.wals ∧
    segment.records ≠ [] ∧ d.manifest.counters.logNumber ≤ segment.number := by
  rw [pending, List.mem_filter, isPending_iff]

/-- An edit makes no WAL pending. -/
theorem pending_edit {manifest : VersionState} (hle : d.manifest.counters.Le manifest.counters) :
    List.Sublist { d with manifest }.pending d.pending := by
  refine List.monotone_filter_right _ fun segment hpending ↦ ?_
  obtain ⟨hne, hlog⟩ := isPending_iff.mp hpending
  exact isPending_iff.mpr ⟨hne, hle.logNumber.trans hlog⟩

theorem Backlog.edit {manifest : VersionState} (h : d.Backlog limit)
    (hle : d.manifest.counters.Le manifest.counters) : { d with manifest }.Backlog limit :=
  ⟨h.nodup, fun segment hsegment ↦ (h.written segment hsegment).mono hle,
    (pending_edit hle).length_le.trans h.bounded⟩

theorem pending_addWal (number : U64) : (d.addWal number).pending = d.pending := by
  show (d.wals ++ [(⟨number, []⟩ : WalSegment)]).filter _ = _
  rw [List.filter_append]
  exact List.append_nil _

theorem Backlog.addWal {number : U64} (h : d.Backlog limit) (hne : number ≠ 0)
    (hnew : ∀ segment ∈ d.wals, segment.number ≠ number) : (d.addWal number).Backlog limit := by
  refine ⟨?_, fun segment hsegment ↦ ?_, ?_⟩
  · show ((d.wals ++ [(⟨number, []⟩ : WalSegment)]).map (·.number)).Nodup
    rw [List.map_append, List.nodup_append]
    refine ⟨h.nodup, List.nodup_singleton _, fun a ha b hb ↦ ?_⟩
    obtain ⟨segment, hsegment, rfl⟩ := List.mem_map.mp ha
    rw [List.mem_singleton.mp hb]
    exact hnew segment hsegment
  · rcases List.mem_append.mp hsegment with hsegment | hsegment
    · exact h.written segment hsegment
    · rw [List.mem_singleton.mp hsegment]
      exact ⟨hne, nofun, fun habsurd ↦ absurd rfl habsurd⟩
  · rw [pending_addWal]
    exact h.bounded

theorem numbers_appendWal (number : U64) (record : RecoveredBatch) :
    (d.appendWal number record).wals.map (·.number) = d.wals.map (·.number) := by
  show (d.wals.map _).map _ = _
  rw [List.map_map]
  refine List.map_congr_left fun segment _ ↦ ?_
  rw [Function.comp_apply]
  split_ifs <;> rfl

/-- Pending WALs with distinct numbers from a list are at most as many as the list. -/
theorem length_pending_le {numbers : List U64} (hnodup : (d.wals.map (·.number)).Nodup)
    (h : ∀ segment ∈ d.pending, segment.number ∈ numbers) : d.pending.length ≤ numbers.length := by
  have hdistinct : (d.pending.map (·.number)).Nodup :=
    hnodup.sublist (List.filter_sublist.map _)
  have hsub : d.pending.map (·.number) ⊆ numbers := by
    intro number hnumber
    obtain ⟨segment, hsegment, rfl⟩ := List.mem_map.mp hnumber
    exact h segment hsegment
  calc d.pending.length = (d.pending.map (·.number)).length := (List.length_map _).symm
    _ ≤ numbers.length := (hdistinct.subperm hsub).length_le

theorem mem_appendWal {number : U64} {record : RecoveredBatch} {segment : WalSegment}
    (h : segment ∈ (d.appendWal number record).wals) : segment ∈ d.wals ∨ ∃ old ∈ d.wals,
      old.number = number ∧ segment = { old with records := old.records ++ [record] } := by
  obtain ⟨old, hold, rfl⟩ := List.mem_map.mp h
  split_ifs with hnumber
  · exact .inr ⟨old, hold, hnumber, rfl⟩
  · exact .inl hold

theorem Backlog.sublist {wals : List WalSegment} (h : d.Backlog limit)
    (hsub : List.Sublist wals d.wals) : { d with wals }.Backlog limit :=
  ⟨h.nodup.sublist (hsub.map _), fun segment hsegment ↦ h.written segment (hsub.subset hsegment),
    (hsub.filter _).length_le.trans h.bounded⟩

end Directory

/-! ## In memory -/

namespace Engine

/-- The memtables that wait to be flushed, and the mutable one if it is not empty. -/
def backlog (engine : Engine) : ℕ :=
  engine.immutables.length + if engine.mutable.table.isEmpty then 0 else 1

/-- What holds of an open engine: every pending WAL belongs to a memtable. -/
structure Backlog (limit : ℕ) (engine : Engine) : Prop where
  bounded : engine.backlog ≤ limit
  disk : engine.directory.Backlog limit
  manifest : engine.manifestUsable = true → engine.directory.manifest = engine.versions
  covered : ∀ segment ∈ engine.directory.pending, segment.number ∈ engine.requiredWals
  ascending : engine.requiredWals.Pairwise (· < ·)
  required_lt : ∀ number ∈ engine.requiredWals, number < engine.nextFileNumber
  wal_lt : ∀ segment ∈ engine.directory.wals, segment.number < engine.nextFileNumber
  wal_le : engine.mutable.walNumber ≤ engine.directory.manifest.counters.activeLogNumber

/-- The manifest has moved forward, and no WAL has been removed. -/
structure Logs (engine engine' : Engine) : Prop where
  counters : engine.directory.manifest.counters.Le engine'.directory.manifest.counters
  numbers : engine.directory.wals.map (·.number) ⊆ engine'.directory.wals.map (·.number)

variable {limit : ℕ} {e e' e'' : Engine} {faults : Faults}

theorem Logs.refl (e : Engine) : Logs e e := ⟨.refl _, List.Subset.refl _⟩

theorem Logs.trans (h : Logs e e') (h' : Logs e' e'') : Logs e e'' :=
  ⟨h.counters.trans h'.counters, List.Subset.trans h.numbers h'.numbers⟩

private theorem backlog_le (e : Engine) : e.backlog ≤ e.immutables.length + 1 := by
  unfold backlog
  split_ifs <;> omega

private theorem length_requiredWals (e : Engine) :
    e.requiredWals.length = e.immutables.length + 1 := by
  simp [requiredWals]

theorem Backlog.next (h : Backlog limit e) {next : U64} (hle : e.nextFileNumber ≤ next) :
    Backlog limit { e with nextFileNumber := next } :=
  { h with
    required_lt := fun number hnumber ↦ (h.required_lt number hnumber).trans_le hle
    wal_lt := fun segment hsegment ↦ (h.wal_lt segment hsegment).trans_le hle }

/-! ## Edits -/

theorem Backlog.edit (h : Backlog limit e) {manifest versions : VersionState} {usable : Bool}
    {edits : List (VersionState × VersionEdit)}
    (hle : e.directory.manifest.counters.Le manifest.counters)
    (husable : usable = true → manifest = versions) :
    Backlog limit { e with
      versions, edits, manifestUsable := usable, directory := { e.directory with manifest } } :=
  { h with
    disk := h.disk.edit hle
    manifest := husable
    covered := fun segment hsegment ↦
      h.covered segment ((Directory.pending_edit hle).subset hsegment)
    wal_le := h.wal_le.trans hle.activeLogNumber }

private theorem Backlog.le_of_apply (h : Backlog limit e) (husable : e.manifestUsable = true)
    {edit : VersionEdit} {versions : VersionState}
    (happly : e.versions.apply false edit = .ok versions) :
    e.directory.manifest.counters.Le versions.counters := by
  rw [h.manifest husable]
  exact VersionState.le_of_apply happly

/-- No edit makes the backlog grow. -/
theorem Backlog.wp_applyEdit (h : Backlog limit e) {edit : VersionEdit}
    {q : Result PUnit → Engine → Prop}
    (herror : ∀ error e', Backlog limit e' → Logs e e' → q (.error error) e')
    (hok : ∀ versions edits, e.versions.apply false edit = .ok versions →
      ∀ e',
        e' = { e with edits, versions, directory := { e.directory with manifest := versions } } →
        Backlog limit e' → Logs e e' → q (.ok ()) e') :
    wp (applyEdit faults edit) q e := by
  refine wp_applyEdit_faults (fun error usable manifest edits hunapplied ↦ ?_)
    fun versions edits husable happly ↦ ?_
  · rcases hunapplied with ⟨rfl, husable⟩ | ⟨husable, rfl, happly⟩
    · exact herror _ _ (h.edit (.refl _) fun husable' ↦ h.manifest (husable husable'))
        ⟨.refl _, List.Subset.refl _⟩
    · have hle := h.le_of_apply husable happly
      exact herror _ _ (h.edit hle nofun) ⟨hle, List.Subset.refl _⟩
  · have hle := h.le_of_apply husable happly
    exact hok _ _ happly _ rfl (h.edit hle fun _ ↦ rfl) ⟨hle, List.Subset.refl _⟩

/-! ## Rotating and writing -/

theorem Backlog.rotateMemtable (h : Backlog limit e) (hroom : e.immutables.length + 1 ≤ limit)
    {largestSequence : SequenceNumber} :
    wp (Engine.rotateMemtable faults largestSequence)
      (fun _ e' ↦ Backlog limit e' ∧ Logs e e') e := by
  unfold Engine.rotateMemtable
  rw [wp_bind]
  refine wp_allocateFileNumber (fun _ error ↦ ⟨h, .refl e⟩) fun next hnumber hnext ↦ ?_
  have hlt : e.nextFileNumber < next := Fin.lt_def.mpr (by omega)
  have hallocated := h.next hlt.le
  have hcreated : Backlog limit { e with
      nextFileNumber := next, directory := e.directory.addWal e.nextFileNumber } := by
    refine { hallocated with
      disk := h.disk.addWal hnumber fun segment hsegment ↦ (h.wal_lt segment hsegment).ne
      covered := fun segment hsegment ↦
        h.covered segment (Directory.pending_addWal (d := e.directory) _ ▸ hsegment)
      wal_lt := List.forall_mem_append.mpr ⟨fun segment hsegment ↦
        (h.wal_lt segment hsegment).trans hlt, List.forall_mem_singleton.mpr hlt⟩ }
  have hlogs : Logs e { e with
      nextFileNumber := next, directory := e.directory.addWal e.nextFileNumber } :=
    ⟨.refl _, fun number hnumber ↦ by
      show number ∈ (e.directory.wals ++ _).map _
      rw [List.map_append]
      exact List.mem_append_left _ hnumber⟩
  dsimp only
  rw [wp_bind]
  refine wp_perform_faults ?_ (fun error ↦ ⟨hallocated, { Logs.refl e with }⟩)
    fun error ↦ ⟨hcreated, hlogs⟩
  dsimp only
  rw [wp_get_bind, wp_bind]
  refine hcreated.wp_applyEdit (fun error e' h' hlogs' ↦ ⟨h', hlogs.trans hlogs'⟩) ?_
  rintro versions edits happly _ rfl h' hlogs'
  obtain ⟨-, -, -, hcounters⟩ := VersionState.apply_eq_ok.mp happly
  have hrequired := e.requiredWals_rotate largestSequence e.nextFileNumber
  dsimp only
  rw [wp_modify]
  refine ⟨
    { h' with bounded := ?_, covered := ?_, ascending := ?_, required_lt := ?_, wal_le := ?_ },
    { hlogs.trans hlogs' with }⟩
  · show (e.immutables ++ _).length + 0 ≤ limit
    rw [List.length_append]
    exact hroom
  · exact fun segment hsegment ↦ by
      show segment.number ∈ _
      rw [requiredWals, hrequired]
      exact List.mem_append_left _ (h'.covered segment hsegment)
  · rw [requiredWals, hrequired, List.pairwise_append]
    refine ⟨h.ascending, List.pairwise_singleton _ _, fun a ha b hb ↦ ?_⟩
    rw [List.mem_singleton.mp hb]
    exact h.required_lt a ha
  · rw [requiredWals, hrequired]
    exact List.forall_mem_append.mpr ⟨h'.required_lt, List.forall_mem_singleton.mpr hlt⟩
  · show e.nextFileNumber ≤ versions.counters.activeLogNumber
    rw [hcounters]
    exact le_refl _

/-- The WAL of the mutable memtable may become pending; there is room for that. -/
theorem Backlog.append (h : Backlog limit e) (hroom : e.immutables.length + 1 ≤ limit)
    {record : RecoveredBatch} (hne : record.batch.isEmpty = false) :
    Backlog limit { e with directory := e.directory.appendWal e.mutable.walNumber record } := by
  have hnodup : ((e.directory.appendWal e.mutable.walNumber record).wals.map (·.number)).Nodup := by
    rw [Directory.numbers_appendWal]
    exact h.disk.nodup
  have hcovered : ∀ segment ∈ (e.directory.appendWal e.mutable.walNumber record).pending,
      segment.number ∈ e.requiredWals := by
    intro segment hsegment
    obtain ⟨hmem, hpending⟩ := Directory.mem_pending.mp hsegment
    rcases Directory.mem_appendWal hmem with hmem | ⟨old, -, hnumber, rfl⟩
    · exact h.covered segment (Directory.mem_pending.mpr ⟨hmem, hpending⟩)
    · exact hnumber ▸ e.walNumber_mem
  refine { h with disk := ⟨hnodup, fun segment hsegment ↦ ?_, ?_⟩, covered := hcovered,
                  wal_lt := fun segment hsegment ↦ ?_ }
  · rcases Directory.mem_appendWal hsegment with hsegment | ⟨old, hold, hnumber, rfl⟩
    · exact h.disk.written segment hsegment
    · have hwritten := h.disk.written old hold
      refine ⟨hwritten.number_ne, ?_, fun _ ↦ hnumber ▸ h.wal_le⟩
      exact List.forall_mem_append.mpr ⟨hwritten.batches, List.forall_mem_singleton.mpr hne⟩
  · have hlength := Directory.length_pending_le hnodup hcovered
    rw [length_requiredWals] at hlength
    exact hlength.trans hroom
  · rcases Directory.mem_appendWal hsegment with hsegment | ⟨old, hold, -, rfl⟩
    · exact h.wal_lt segment hsegment
    · exact h.wal_lt old hold

theorem Backlog.appendWal (h : Backlog limit e) (hroom : e.immutables.length + 1 ≤ limit)
    {options : Options} {sequence : SequenceNumber} {batch : WriteBatch}
    (hne : batch.isEmpty = false) :
    wp (Engine.appendWal options faults sequence batch)
      (fun _ e' ↦ Backlog limit e' ∧ Logs e e' ∧ e'.immutables = e.immutables) e := by
  have happended : Logs e { e with
      directory := e.directory.appendWal e.mutable.walNumber ⟨sequence, batch⟩ } :=
    ⟨.refl _, by rw [Directory.numbers_appendWal]; exact List.Subset.refl _⟩
  have hwritten : Backlog limit { e with
      directory := e.directory.appendWal e.mutable.walNumber ⟨sequence, batch⟩ } :=
    h.append hroom hne
  unfold Engine.appendWal
  rw [wp_get_bind]
  refine wp_lift_bind (fun _ _ ↦ ⟨h, .refl e, rfl⟩) fun writer _ ↦ ?_
  refine wp_lift_bind (fun _ _ ↦ ⟨h, .refl e, rfl⟩) fun bytes _ ↦ ?_
  exact wp_perform_faults ⟨hwritten, happended, rfl⟩ (fun _ ↦ ⟨h, .refl e, rfl⟩)
    fun _ ↦ ⟨hwritten, happended, rfl⟩

theorem Backlog.commit (h : Backlog limit e) (hroom : e.immutables.length + 1 ≤ limit)
    {sequence : SequenceNumber} {batch : WriteBatch} :
    wp (Engine.commit sequence batch)
      (fun _ e' ↦ Backlog limit e' ∧ Logs e e' ∧ e'.immutables = e.immutables) e := by
  unfold Engine.commit
  rw [wp_get_bind]
  refine wp_lift_bind (fun _ _ ↦ ⟨h, .refl e, rfl⟩) fun table _ ↦ ?_
  exact ⟨{ h with bounded := (backlog_le _).trans hroom }, { Logs.refl e with }, rfl⟩

theorem Backlog.writeSerialized (h : Backlog limit e) {options : Options}
    (hlimit : limit = options.maxImmutableMemtables) {prepare : Result WriteBatch} :
    wp (Engine.writeSerialized options faults prepare)
      (fun _ e' ↦ Backlog limit e' ∧ Logs e e') e := by
  unfold Engine.writeSerialized
  rw [wp_get_bind]
  refine wp_lift_bind (fun _ _ ↦ ⟨h, .refl e⟩) fun _ _ ↦ ?_
  refine wp_lift_bind (fun _ _ ↦ ⟨h, .refl e⟩) fun batch _ ↦ ?_
  refine wp_lift_bind (fun _ _ ↦ ⟨h, .refl e⟩) fun _ hvalidate ↦ ?_
  rw [wp_get_bind, wp_ite]
  refine ⟨fun _ ↦ ⟨h, .refl e⟩, fun hstall ↦ ?_⟩
  have hroom : e.immutables.length + 1 ≤ limit := by omega
  rw [wp_ite]
  refine ⟨fun _ ↦ ⟨h, .refl e⟩, fun _ ↦ ?_⟩
  rw [wp_bind]
  refine wp_orTerminal (wp_mono (h.appendWal hroom (validateBatch_eq_ok hvalidate))
    fun r e₁ h₁ ↦ ?_)
  obtain ⟨hlogged, hlogs, himmutables⟩ := h₁
  cases r with
  | error error => exact fun failure _ ↦ ⟨{ hlogged with }, { hlogs with }⟩
  | ok u =>
  dsimp only
  rw [wp_bind]
  have hroom₁ : e₁.immutables.length + 1 ≤ limit := himmutables ▸ hroom
  refine wp_mono (hlogged.commit hroom₁) fun r e₂ h₂ ↦ ?_
  obtain ⟨hcommitted, hlogs₂, himmutables₂⟩ := h₂
  have hlogs₂ := hlogs.trans hlogs₂
  cases r with
  | error error => exact ⟨hcommitted, hlogs₂⟩
  | ok u =>
  dsimp only
  rw [wp_get_bind, wp_ite]
  refine ⟨fun _ ↦ ?_, fun _ ↦ ⟨hcommitted, hlogs₂⟩⟩
  rw [wp_tryCatch, wp_bind]
  refine wp_mono (hcommitted.rotateMemtable (himmutables₂ ▸ hroom₁)) fun r e₃ h₃ ↦ ?_
  obtain ⟨hrotated, hlogs₃⟩ := h₃
  cases r with
  | ok u => exact ⟨hrotated, hlogs₂.trans hlogs₃⟩
  | error error =>
    dsimp only
    rw [wp_bind]
    exact wp_recordTerminalFailure fun failure _ ↦
      ⟨{ hrotated with }, { hlogs₂.trans hlogs₃ with }⟩

/-! ## Synchronizing and closing -/

theorem Backlog.persistWalState (h : Backlog limit e) :
    wp (Engine.persistWalState faults) (fun _ e' ↦ Backlog limit e' ∧ Logs e e') e := by
  unfold Engine.persistWalState
  rw [wp_get_bind]
  exact h.wp_applyEdit (fun _ _ h' hlogs ↦ ⟨h', hlogs⟩) fun _ _ _ _ _ h' hlogs ↦ ⟨h', hlogs⟩

theorem Backlog.sync (h : Backlog limit e) :
    wp (Engine.sync faults) (fun _ e' ↦ Backlog limit e' ∧ Logs e e') e := by
  unfold Engine.sync
  rw [wp_get_bind]
  refine wp_lift_bind (fun _ _ ↦ ⟨h, .refl e⟩) fun _ _ ↦ ?_
  rw [wp_bind]
  refine wp_orTerminal (wp_mono wp_syncOwnedWals_faults ?_)
  rintro r _ rfl
  cases r with
  | error error => exact fun failure _ ↦ ⟨{ h with }, { Logs.refl _ with }⟩
  | ok u =>
  refine wp_orTerminal (wp_mono h.persistWalState fun r e₁ h₁ ↦ ?_)
  cases r with
  | error error => exact fun failure _ ↦ ⟨{ h₁.1 with }, { h₁.2 with }⟩
  | ok u => exact h₁

theorem Backlog.close (h : Backlog limit e) :
    wp (Engine.close faults) (fun _ e' ↦ Backlog limit e' ∧ Logs e e') e := by
  unfold Engine.close
  rw [wp_get_bind]
  cases e.terminalFailure with
  | some failure => exact ⟨{ h with }, { Logs.refl e with }⟩
  | none =>
  dsimp only
  rw [wp_ite]
  refine ⟨fun _ ↦ ⟨h, .refl e⟩, fun _ ↦ ?_⟩
  have hfail : ∀ {e₁ : Engine}, Backlog limit e₁ → Logs e e₁ → ∀ error,
      wp (do
        let error ← recordTerminalFailure error
        modify fun engine ↦ { engine with closed := true }
        throw error : Section Unit) (fun _ e' ↦ Backlog limit e' ∧ Logs e e') e₁ := by
    intro e₁ h₁ hlogs error
    rw [wp_bind]
    exact wp_recordTerminalFailure fun failure _ ↦ ⟨{ h₁ with }, { hlogs with }⟩
  rw [wp_bind]
  refine wp_mono (p := fun _ e' ↦ Backlog limit e' ∧ Logs e e') ?_ fun r e' h' ↦ ?_
  · rw [wp_tryCatch, wp_bind]
    refine wp_mono wp_syncOwnedWals_faults ?_
    rintro r _ rfl
    cases r with
    | error error => exact hfail h (.refl _) error
    | ok u =>
    refine wp_mono h.persistWalState fun r e₁ h₁ ↦ ?_
    cases r with
    | error error => exact hfail h₁.1 h₁.2 error
    | ok u => exact h₁
  · cases r with
    | error error => exact h'
    | ok u => exact ⟨{ h'.1 with }, { h'.2 with }⟩

/-! ## Flushing -/

theorem Backlog.flushEnter (h : Backlog limit e) {options : Options} :
    wp (Engine.flushEnter options faults) (fun _ e' ↦ Backlog limit e' ∧ Logs e e') e := by
  unfold Engine.flushEnter Engine.flushRotate
  rw [wp_get_bind]
  refine wp_lift_bind (fun _ _ ↦ ⟨h, .refl e⟩) fun _ _ ↦ ?_
  rw [wp_get_bind, wp_ite]
  refine ⟨fun _ ↦ ⟨h, .refl e⟩, fun _ ↦ ?_⟩
  have hend : ∀ {e₁ : Engine} {woken : Bool}, Backlog limit e₁ → Logs e e₁ →
      wp (do
        if (← MonadState.get).isFlushing then return (.waitingForFlushes, woken)
        else return (.returned, woken) :
          Section (FlushPhase × Bool)) (fun _ e' ↦ Backlog limit e' ∧ Logs e e') e₁ := by
    intro e₁ woken h₁ hlogs
    rw [wp_get_bind, wp_ite]
    exact ⟨fun _ ↦ ⟨h₁, hlogs⟩, fun _ ↦ ⟨h₁, hlogs⟩⟩
  rw [wp_bind, wp_bind, wp_get]
  dsimp only
  rw [wp_ite]
  refine ⟨fun _ ↦ hend h (.refl e), fun hempty ↦ ?_⟩
  -- A memtable that is not empty has been counted already.
  have hroom : e.immutables.length + 1 ≤ limit := by
    have hbounded := h.bounded
    rwa [backlog, if_neg hempty] at hbounded
  rw [wp_bind]
  refine wp_orTerminal (wp_mono (h.rotateMemtable hroom) fun r e₁ h₁ ↦ ?_)
  cases r with
  | error error => exact fun failure _ ↦ ⟨{ h₁.1 with }, { h₁.2 with }⟩
  | ok u => exact hend h₁.1 h₁.2

theorem Backlog.takeFlush (h : Backlog limit e) :
    wp Engine.takeFlush (fun _ e' ↦ Backlog limit e' ∧ Logs e e') e := by
  refine wp_mono wp_takeFlush fun r e' h' ↦ ?_
  rcases r with error | task
  · obtain ⟨-, failure, rfl⟩ := h'
    exact ⟨{ h with }, { Logs.refl e with }⟩
  cases task with
  | stop =>
    obtain ⟨-, rfl⟩ := h'
    exact ⟨h, .refl _⟩
  | sleep =>
    obtain ⟨-, -, rfl⟩ := h'
    exact ⟨h, .refl _⟩
  | build immutable number =>
    obtain ⟨-, -, rfl, next, hnext, rfl⟩ := h'
    have hle : e.nextFileNumber ≤ next := Fin.le_def.mpr (by omega)
    exact ⟨{ h.next hle with }, { Logs.refl e with }⟩

theorem Backlog.buildSstable (h : Backlog limit e) {number : U64} {table : MemTable}
    {fileSize : U64} :
    wp (Engine.buildSstable faults number table fileSize)
      (fun _ e' ↦ Backlog limit e' ∧ Logs e e') e := by
  refine wp_mono wp_buildSstable fun r e' h' ↦ ?_
  rcases h'.1 with rfl | rfl
  · exact ⟨h, .refl _⟩
  · exact ⟨{ h with disk := { h.disk with } }, { Logs.refl e with }⟩

/-- The manifest has moved forward, and the WALs that have been removed are spent. -/
structure Retires (engine engine' : Engine) : Prop where
  counters : engine.directory.manifest.counters.Le engine'.directory.manifest.counters
  removed : ∀ segment ∈ engine.directory.wals,
    segment.number ∈ engine'.directory.wals.map (·.number) ∨
      segment.Spent engine'.directory.manifest.counters

theorem Logs.retires (h : Logs e e') : Retires e e' :=
  ⟨h.counters, fun _ hsegment ↦ .inl (h.numbers (List.mem_map.mpr ⟨_, hsegment, rfl⟩))⟩

/-- Without the oldest immutable memtable, the pending WALs still belong to memtables: those of the
edit begin at the next one. -/
theorem Backlog.dropOldest (h : Backlog limit e)
    (hlog : e.directory.manifest.counters.logNumber
      = ((e.immutables.drop 1).map (·.walNumber)).foldr min e.mutable.walNumber) :
    Backlog limit { e with immutables := e.immutables.drop 1 } := by
  have hlength : (e.immutables.drop 1).length ≤ e.immutables.length :=
    (List.drop_sublist 1 _).length_le
  have hsub := e.requiredWals_flush
  refine { h with bounded := ?_, covered := fun segment hsegment ↦ ?_, ascending := ?_,
                  required_lt := fun number hnumber ↦ h.required_lt number (hsub.subset hnumber) }
  · exact (Nat.add_le_add_right hlength _).trans h.bounded
  · obtain ⟨-, -, hle⟩ := Directory.mem_pending.mp hsegment
    have hcovered := h.covered segment hsegment
    have hascending := h.ascending
    obtain ⟨hmem, -⟩ := foldr_min_mem ((e.immutables.drop 1).map (·.walNumber)) e.mutable.walNumber
    rw [← hlog] at hmem
    unfold requiredWals at hcovered hascending
    cases himmutables : e.immutables with
    | nil =>
      rw [himmutables] at hcovered
      exact hcovered
    | cons oldest immutables =>
      rw [himmutables] at hcovered hascending hmem
      rcases List.mem_cons.mp hcovered with hoff | hcovered
      · exact absurd (hoff ▸ hle) (not_le.mpr ((List.pairwise_cons.mp hascending).1 _ hmem))
      · exact hcovered
  · exact h.ascending.sublist hsub

theorem Backlog.retireObsoleteWals (h : Backlog limit e)
    (hlog : e.directory.manifest.counters.logNumber = e.oldestRequiredWal) :
    wp (Engine.retireObsoleteWals faults) (fun _ e' ↦ Backlog limit e' ∧ Retires e e') e := by
  refine wp_mono wp_retireObsoleteWals_faults ?_
  rintro r _ ⟨wals, walNumbers, hsub, hkept, rfl⟩
  refine ⟨{ h with
    disk := h.disk.sublist hsub
    covered := fun segment hsegment ↦ h.covered segment ((hsub.filter _).subset hsegment)
    wal_lt := fun segment hsegment ↦ h.wal_lt segment (hsub.subset hsegment) }, .refl _, ?_⟩
  intro segment hsegment
  rcases le_or_gt e.oldestRequiredWal segment.number with hle | hlt
  · exact .inl (List.mem_map.mpr ⟨segment, hkept segment hsegment hle, rfl⟩)
  · refine .inr ⟨h.disk.written segment hsegment, fun hle ↦ absurd hlt (not_lt.mpr ?_)⟩
    rw [← hlog]
    exact hle

theorem Backlog.publishFlush (h : Backlog limit e) {immutable : ImmutableMemTable}
    {built : Result FileMeta} :
    wp (Engine.publishFlush faults immutable built)
      (fun _ e' ↦ Backlog limit e' ∧ Retires e e') e := by
  unfold Engine.publishFlush
  refine wp_lift_bind (fun _ _ ↦ ⟨h, (Logs.refl e).retires⟩) fun _ _ ↦ ?_
  rw [wp_get_bind, wp_bind]
  refine h.wp_applyEdit (fun _ _ h' hlogs ↦ ⟨h', hlogs.retires⟩) ?_
  rintro versions edits happly _ rfl h₁ hlogs
  obtain ⟨-, -, -, hcounters⟩ := VersionState.apply_eq_ok.mp happly
  have hlog : versions.counters.logNumber
      = ((e.immutables.drop 1).map (·.walNumber)).foldr min e.mutable.walNumber := by
    rw [hcounters]
    rfl
  dsimp only
  rw [wp_modify_bind]
  refine wp_mono ((h₁.dropOldest hlog).retireObsoleteWals hlog) fun r e' h' ↦ ⟨h'.1, ?_⟩
  exact ⟨hlogs.counters.trans h'.2.counters, h'.2.removed⟩

theorem Backlog.finishFlush (h : Backlog limit e) {immutable : ImmutableMemTable}
    {built : Result FileMeta} :
    wp (Engine.finishFlush faults immutable built)
      (fun _ e' ↦ Backlog limit e' ∧ Retires e e') e := by
  unfold Engine.finishFlush
  rw [wp_bind, wp_tryCatch, wp_bind]
  refine wp_mono h.publishFlush fun r e₁ h₁ ↦ ?_
  cases r with
  | ok u =>
    dsimp only
    rw [wp_pure]
    dsimp only
    rw [wp_bind, wp_modify]
    exact ⟨{ h₁.1 with }, { h₁.2 with }⟩
  | error error =>
    dsimp only
    rw [wp_pure]
    dsimp only
    rw [wp_modify_bind, wp_bind]
    exact wp_recordBackgroundFailure fun failure _ ↦ ⟨{ h₁.1 with }, { h₁.2 with }⟩

/-! ## Compacting -/

theorem Backlog.executeCompactionPlan (h : Backlog limit e) {options : Options}
    {oldestActiveSnapshot : Option SequenceNumber} {readTimeUnixMs : U64} {fileSize : U64 → U64}
    {plan : CompactionPlan} :
    wp (Engine.executeCompactionPlan options faults oldestActiveSnapshot readTimeUnixMs fileSize
      plan) (fun _ e' ↦ Backlog limit e' ∧ Logs e e') e := by
  unfold Engine.executeCompactionPlan
  rw [wp_get_bind]
  refine wp_lift_bind (fun _ _ ↦ ⟨h, .refl e⟩) fun _ _ ↦ ?_
  rw [wp_ite]
  refine ⟨fun _ ↦ ⟨h, .refl e⟩, fun _ ↦ ?_⟩
  refine wp_lift_bind (fun _ _ ↦ ⟨h, .refl e⟩) fun _ _ ↦ ?_
  rw [wp_tryCatch, wp_bind]
  refine wp_mono (p := fun _ e' ↦ Backlog limit e' ∧ Logs e e') ?_ fun r e' h' ↦ by
    cases r <;> exact h'
  unfold executeValidCompactionPlan
  refine wp_lift_bind (fun _ _ ↦ ⟨h, .refl e⟩) fun ⟨outputs, next⟩ hrun ↦ ?_
  have hnext : e.nextFileNumber ≤ next := nextFileNumber_le_compactionRun hrun
  dsimp only
  rw [wp_modify_bind, wp_bind, foldl_addTable]
  set tables := (outputs.foldl (fun d output ↦ d.addTable output.file.number output.entries)
    e.directory).tables
  have hbuilt : Backlog limit { e with directory := { e.directory with tables } } :=
    { h with disk := { h.disk with } }
  refine hbuilt.wp_applyEdit (fun _ _ h' hlogs ↦ ⟨h', { hlogs with }⟩) ?_
  rintro versions edits - _ rfl h' hlogs
  dsimp only
  rw [wp_modify_bind]
  exact wp_perform_id fun r ↦ ⟨h'.next hnext, { hlogs with }⟩

theorem Backlog.failCompaction (h : Backlog limit e) {error : Error} :
    wp (Engine.failCompaction error) (fun _ e' ↦ Backlog limit e' ∧ Logs e e') e := by
  unfold Engine.failCompaction
  rw [wp_bind]
  exact wp_recordBackgroundFailure fun _ _ ↦ ⟨{ h with }, { Logs.refl e with }⟩

/-! ## Opening -/

/-- A WAL between the log numbers is replayed. -/
theorem mem_of_selectWals {counters : Counters} {all segments : List WalSegment}
    {segment : WalSegment} (h : selectWals counters all = .ok segments) (hmem : segment ∈ all)
    (hne : segment.number ≠ 0) (hlog : counters.logNumber ≤ segment.number)
    (hactive : segment.number ≤ counters.activeLogNumber) :
    segment ∈ segments ∧ legacyWalMetadata counters = false := by
  have hlegacy : legacyWalMetadata counters = false := by
    by_contra hlegacy
    rw [Bool.not_eq_false, legacyWalMetadata, Bool.and_eq_true_iff] at hlegacy
    rw [of_decide_eq_true hlegacy.2] at hactive
    exact hne (le_antisymm hactive (Fin.zero_le _))
  unfold selectWals requiredLogNumbers at h
  rw [hlegacy] at h
  obtain ⟨u, -, h⟩ := Decoder.bind_eq_ok.mp h
  obtain rfl := Except.ok.inj h
  exact ⟨List.mem_filter.mpr ⟨hmem, by simpa using ⟨hlog, hactive⟩⟩, hlegacy⟩

/-- A memtable as recovery makes it of a WAL: it is empty if the WAL is, and only then unless the
manifest is an old one. -/
structure Recovers (counters : Counters) (segment : WalSegment) (immutable : ImmutableMemTable) :
    Prop where
  number : immutable.walNumber = segment.number
  empty : segment.records = [] → immutable.table.isEmpty = true
  nonempty : legacyWalMetadata counters = false → segment.records ≠ [] →
    (∀ record ∈ segment.records, record.batch.isEmpty = false) → immutable.table.isEmpty = false

private theorem isEmpty_apply {table table' : MemTable} {sequence : SequenceNumber}
    {batch : WriteBatch} (hlt : sequence.val < maxU64) (hne : batch.isEmpty = false)
    (h : table.apply sequence batch = .ok table') : table'.isEmpty = false := by
  obtain ⟨userKey, record, hrecord⟩ := WriteBatch.exists_recordFor hne
  have hmem := (finalOperations_spec batch).2 userKey record |>.mpr hrecord
  rw [MemTable.apply, MemTable.mapM_prepareEntry hlt] at h
  obtain rfl := Except.ok.inj h
  set prepared := (finalOperations batch).map fun f ↦ MemTable.entryAt sequence hlt f.1 f.2
    with hprepared
  have hfinal : prepared ≠ [] := List.ne_nil_of_mem (List.mem_map.mpr ⟨_, hmem, rfl⟩)
  -- The entry inserted last is there.
  obtain ⟨front, last, hsplit⟩ := (List.eq_nil_or_concat' prepared).resolve_left hfinal
  rw [hsplit, List.foldl_append]
  have hlast : last ∈ ((front.foldl MemTable.insertEntry table).insertEntry last).entries :=
    (OrderedList.mem_insert (front.foldl MemTable.insertEntry table).run).mpr (.inl rfl)
  exact Bool.eq_false_iff.mpr fun hempty ↦
    absurd (List.isEmpty_iff.mp hempty) (List.ne_nil_of_mem hlast)

private theorem isEmpty_replayRecord {counters : Counters} {number : U64}
    {state state' : ReplayState}
    {record : RecoveredBatch} (hlegacy : legacyWalMetadata counters = false)
    (hne : record.batch.isEmpty = false)
    (h : replayRecord counters number state record = .ok state') :
    state'.table.isEmpty = false := by
  unfold replayRecord at h
  split_ifs at h with hskipped hsequence
  · rw [hlegacy] at hskipped
    exact absurd hskipped.1 Bool.false_ne_true
  obtain ⟨expected, hexpected, h⟩ := Decoder.bind_eq_ok.mp h
  obtain ⟨table, happly, h⟩ := Decoder.bind_eq_ok.mp h
  obtain rfl := Except.ok.inj h
  have hnext := checkedNextSequence_eq_ok.mp hexpected
  refine isEmpty_apply ?_ hne happly
  have := expected.isLt
  unfold maxU64
  omega

theorem Recovers.of_replaySegment {counters : Counters} {recovery recovery' : Recovery}
    {segment : WalSegment} (h : replaySegment faults counters recovery segment = .ok recovery') :
    ∃ immutable, recovery'.recovered = recovery.recovered ++ [immutable] ∧
      Recovers counters segment immutable := by
  unfold replaySegment at h
  cases hfault : faults (.readWal segment.number) with
  | some failure =>
    rw [hfault] at h
    cases h
  | none =>
  rw [hfault] at h
  obtain ⟨state, hfold, h⟩ := Decoder.bind_eq_ok.mp h
  obtain rfl := Except.ok.inj h
  refine ⟨_, rfl, rfl, fun hnil ↦ ?_, fun hlegacy hrecords hne ↦ ?_⟩
  · rw [hnil] at hfold
    rw [← Except.ok.inj hfold]
    rfl
  · obtain ⟨front, last, hsplit⟩ := (List.eq_nil_or_concat' segment.records).resolve_left hrecords
    rw [hsplit, List.foldlM_append] at hfold
    obtain ⟨middle, -, hlast⟩ := Decoder.bind_eq_ok.mp hfold
    rw [List.foldlM_cons] at hlast
    obtain ⟨state', hreplay, hdone⟩ := Decoder.bind_eq_ok.mp hlast
    obtain rfl := Except.ok.inj hdone
    refine isEmpty_replayRecord hlegacy (hne last ?_) hreplay
    rw [hsplit]
    exact List.mem_append_right _ (List.mem_singleton.mpr rfl)

private theorem recovers_replaySegments {counters : Counters} {segments : List WalSegment}
    {start finish : Recovery}
    (h : segments.foldlM (replaySegment faults counters) start = .ok finish) :
    ∃ recovered, finish.recovered = start.recovered ++ recovered ∧
      List.Forall₂ (Recovers counters) segments recovered := by
  induction segments generalizing start with
  | nil =>
    obtain rfl := Except.ok.inj h
    exact ⟨[], (List.append_nil _).symm, .nil⟩
  | cons segment segments ih =>
    rw [List.foldlM_cons] at h
    obtain ⟨middle, hsegment, h⟩ := Decoder.bind_eq_ok.mp h
    obtain ⟨immutable, hmiddle, hrecovers⟩ := Recovers.of_replaySegment hsegment
    obtain ⟨recovered, hfinish, hrest⟩ := ih h
    refine ⟨immutable :: recovered, ?_, .cons hrecovers hrest⟩
    rw [hfinish, hmiddle, List.append_assoc, List.singleton_append]

private theorem recovers_recoverWals {counters : Counters} {segments : List WalSegment}
    {recovery : Recovery} (h : recoverWals faults counters segments = .ok recovery) :
    List.Forall₂ (Recovers counters) segments recovery.recovered := by
  unfold recoverWals at h
  obtain ⟨expected, -, h⟩ := Decoder.bind_eq_ok.mp h
  obtain ⟨recovery', hfold, h⟩ := Decoder.bind_eq_ok.mp h
  split_ifs at h
  obtain rfl := Except.ok.inj h
  obtain ⟨recovered, hrecovered, hforall⟩ := recovers_replaySegments hfold
  rw [hrecovered]
  exact hforall

/-- The recovered memtables that are not empty come from WALs that are not empty. -/
theorem numbers_recovered_sublist {counters : Counters} {segments : List WalSegment}
    {recovered : List ImmutableMemTable}
    (h : List.Forall₂ (Recovers counters) segments recovered) :
    List.Sublist ((recovered.filter fun immutable ↦ !immutable.table.isEmpty).map (·.walNumber))
      ((segments.filter fun segment ↦ !segment.records.isEmpty).map (·.number)) := by
  induction h with
  | nil => exact List.Sublist.refl _
  | @cons segment immutable segments recovered hrecovers _ ih =>
    cases hempty : immutable.table.isEmpty with
    | true =>
      rw [List.filter_cons_of_neg (by simp [hempty])]
      refine ih.trans (List.Sublist.map _ (List.Sublist.filter _ ?_))
      exact List.sublist_cons_self _ _
    | false =>
      have hrecords : segment.records.isEmpty = false := Bool.eq_false_iff.mpr fun hnil ↦
        absurd (hempty.symm.trans (hrecovers.empty (List.isEmpty_iff.mp hnil))) Bool.false_ne_true
      rw [List.filter_cons_of_pos (by simp [hempty]), List.filter_cons_of_pos (by simp [hrecords]),
        List.map_cons, List.map_cons, hrecovers.number]
      exact ih.cons_cons _

private theorem mem_numbers_recovered {counters : Counters} {segments : List WalSegment}
    {recovered : List ImmutableMemTable}
    (h : List.Forall₂ (Recovers counters) segments recovered) {segment : WalSegment}
    (hmem : segment ∈ segments) (hlegacy : legacyWalMetadata counters = false)
    (hrecords : segment.records ≠ [])
    (hne : ∀ record ∈ segment.records, record.batch.isEmpty = false) :
    segment.number
      ∈ (recovered.filter fun immutable ↦ !immutable.table.isEmpty).map (·.walNumber) := by
  induction h with
  | nil => exact absurd hmem List.not_mem_nil
  | @cons other immutable segments recovered hrecovers _ ih =>
    rcases List.mem_cons.mp hmem with rfl | hmem
    · rw [List.filter_cons_of_pos (by simp [hrecovers.nonempty hlegacy hrecords hne]),
        List.map_cons, hrecovers.number]
      exact List.mem_cons_self ..
    · refine List.map_subset _ ?_ (ih hmem)
      exact (List.Sublist.filter _ (List.sublist_cons_self _ _)).subset

/-- What recovery makes of a directory: a memtable for each pending WAL, in the order of the
WALs. -/
structure RecoversAll (limit : ℕ) (d : Directory) (immutables : List ImmutableMemTable) : Prop where
  bounded : immutables.length ≤ limit
  ascending : (immutables.map (·.walNumber)).Pairwise (· < ·)
  numbers : immutables.map (·.walNumber) ⊆ d.wals.map (·.number)
  pending : ∀ segment ∈ d.pending, segment.number ∈ immutables.map (·.walNumber)

theorem walPaths_perm (d : Directory) : (walPaths d).Perm d.wals := List.perm_insertionSort _ _

theorem walPaths_ascending {d : Directory} (h : (d.wals.map (·.number)).Nodup) :
    ((walPaths d).map (·.number)).Pairwise (· < ·) := by
  have hsorted : (walPaths d).Pairwise fun a b ↦ a.number ≤ b.number :=
    List.pairwise_insertionSort _ _
  have hdistinct : ((walPaths d).map (·.number)).Nodup :=
    ((walPaths_perm d).map _).nodup_iff.mpr h
  rw [List.pairwise_map]
  exact (hsorted.and (List.pairwise_map.mp hdistinct)).imp fun hab ↦ lt_of_le_of_ne hab.1 hab.2

theorem recoversAll_of_recoverWals {d : Directory} (h : d.Backlog limit)
    {segments : List WalSegment} {recovery : Recovery}
    (hselect : selectWals d.manifest.counters (walPaths d) = .ok segments)
    (hrecover : recoverWals faults d.manifest.counters segments = .ok recovery) :
    RecoversAll limit d (recovery.recovered.filter fun immutable ↦ !immutable.table.isEmpty) := by
  obtain ⟨hsub, hlog⟩ := selectWals_eq_ok hselect
  have hrecovers := recovers_recoverWals hrecover
  have hperm := walPaths_perm d
  -- The replayed WALs that are not empty are pending.
  have hpending : List.Sublist (segments.filter fun segment ↦ !segment.records.isEmpty)
      ((walPaths d).filter (Directory.isPending d.manifest.counters)) := by
    have hfilter : segments.filter (fun segment ↦ !segment.records.isEmpty)
        = segments.filter (Directory.isPending d.manifest.counters) := by
      refine List.filter_congr fun segment hsegment ↦ ?_
      simp [Directory.isPending, hlog segment hsegment]
    rw [hfilter]
    exact hsub.filter _
  have hnumbers := (numbers_recovered_sublist hrecovers).trans (hpending.map _)
  have hall := hnumbers.trans (List.Sublist.map _ List.filter_sublist)
  refine ⟨?_, ?_, ?_, fun segment hsegment ↦ ?_⟩
  · have hlength := hnumbers.length_le
    rw [List.length_map, List.length_map, (hperm.filter _).length_eq] at hlength
    exact hlength.trans h.bounded
  · exact (walPaths_ascending h.nodup).sublist hall
  · exact fun number hnumber ↦ ((hperm.map _).subset (hall.subset hnumber))
  · obtain ⟨hmem, hrecords, hle⟩ := Directory.mem_pending.mp hsegment
    have hwritten := h.written segment hmem
    obtain ⟨hselected, hlegacy⟩ := mem_of_selectWals hselect (hperm.mem_iff.mpr hmem)
      hwritten.number_ne hle (hwritten.number_le hrecords)
    exact mem_numbers_recovered hrecovers hselected hlegacy hrecords hwritten.batches

/-- The number after all others is larger than that of any WAL. -/
theorem lt_of_nextFileNumber {d : Directory} {start number : U64}
    (h : checkedNextFileNumber (((walPaths d).map (·.number)).foldl max start) = .ok number) :
    number ≠ 0 ∧ ∀ segment ∈ d.wals, segment.number < number := by
  rw [checkedNextFileNumber_eq_ok] at h
  refine ⟨fun hzero ↦ ?_, fun segment hsegment ↦ ?_⟩
  · rw [hzero] at h
    exact absurd h (Nat.succ_ne_zero _).symm
  · have hmem : segment.number ∈ (walPaths d).map (·.number) :=
      List.mem_map.mpr ⟨segment, (walPaths_perm d).mem_iff.mpr hsegment, rfl⟩
    have hle := Fin.le_def.mp ((le_foldl_max ((walPaths d).map (·.number)) start).2 _ hmem)
    exact Fin.lt_def.mpr (by omega)

namespace Found

variable {d : Directory} (found : Found faults d) {segment : WalSegment} {versions : VersionState}

private theorem wal_lt_number : ∀ segment ∈ d.wals, segment.number < found.number :=
  (lt_of_nextFileNumber found.numbered).2

private theorem backlog_addWal (h : d.Backlog limit) : (d.addWal found.number).Backlog limit :=
  h.addWal (lt_of_nextFileNumber found.numbered).1 fun segment hsegment ↦
    (found.wal_lt_number segment hsegment).ne

/-- Every WAL with records that matter is kept when the engine is opened. -/
theorem mem_retained (h : d.Backlog limit)
    (hsegment : segment ∈ (d.addWal found.number).pending) : segment.number ∈ found.retained := by
  rw [Directory.pending_addWal] at hsegment
  exact List.mem_append_left _
    ((recoversAll_of_recoverWals h found.selected found.recovered).pending segment hsegment)

private theorem mem_retained_of_apply (h : d.Backlog limit)
    (happly : d.manifest.apply false found.edit = .ok versions)
    (hsegment : segment ∈ { d.addWal found.number with manifest := versions }.pending) :
    segment.number ∈ found.retained :=
  found.mem_retained h ((Directory.pending_edit (d := d.addWal found.number)
    (VersionState.le_of_apply happly)).subset hsegment)

/-- A WAL that opening removes is spent. -/
private theorem mem_or_spent (h : d.Backlog limit)
    (happly : d.manifest.apply false found.edit = .ok versions) {wals : List WalSegment}
    (hkeeps : found.Keeps wals) : ∀ segment ∈ d.wals,
      segment.number ∈ wals.map (·.number) ∨ segment.Spent versions.counters := by
  intro segment hsegment
  have hmem : segment ∈ (d.addWal found.number).wals := List.mem_append_left _ hsegment
  by_cases hretain : segment.number ∈ found.retained
  · exact .inl (List.mem_map.mpr ⟨segment, hkeeps.kept segment hmem hretain, rfl⟩)
  · refine .inr ⟨((found.backlog_addWal h).edit (VersionState.le_of_apply happly)).written
      segment hmem, fun hlog ↦ ?_⟩
    by_contra hrecords
    exact hretain (found.mem_retained_of_apply h happly
      (Directory.mem_pending.mpr ⟨hmem, hrecords, hlog⟩))

end Found

/-- **Opening.** Whatever step fails, no more WALs are pending afterwards than before. -/
theorem openEngine_backlog (h : e.directory.Backlog limit) :
    wp (Engine.openEngine faults) (fun r e' ↦ e'.directory.Backlog limit ∧ Retires e e' ∧
      (r = .ok () → Backlog limit e')) e := by
  refine wp_mono openEngine_opens fun r e' hopens ↦ ?_
  have hlogs : ∀ (found : Found faults e.directory), ∀ segment ∈ e.directory.wals,
      segment.number ∈ (e.directory.addWal found.number).wals.map (·.number) :=
    fun found segment hsegment ↦
      List.mem_map.mpr ⟨segment, List.mem_append_left _ hsegment, rfl⟩
  cases hopens with
  | refused error => exact ⟨h, { (Logs.refl e).retires with }, nofun⟩
  | created found error =>
    exact ⟨found.backlog_addWal h,
      ⟨.refl _, fun segment hsegment ↦ .inl (hlogs found segment hsegment)⟩, nofun⟩
  | unedited found error usable manifest hcases =>
    have hle : e.directory.manifest.counters.Le manifest.counters := by
      rcases hcases with rfl | happly
      · exact .refl _
      · exact VersionState.le_of_apply happly
    exact ⟨(found.backlog_addWal h).edit hle,
      ⟨hle, fun segment hsegment ↦ .inl (hlogs found segment hsegment)⟩, nofun⟩
  | edited found error happly hkeeps =>
    have hle := VersionState.le_of_apply happly
    exact ⟨((found.backlog_addWal h).edit hle).sublist hkeeps.sublist,
      ⟨hle, found.mem_or_spent h happly hkeeps⟩, nofun⟩
  | @opened found versions wals nextSequence happly hkeeps hsequence =>
    have hle := VersionState.le_of_apply happly
    have hdisk := ((found.backlog_addWal h).edit hle).sublist hkeeps.sublist
    have hrecovers := recoversAll_of_recoverWals h found.selected found.recovered
    have hnumbers : ∀ wal ∈ found.immutables.map (·.walNumber), wal < found.number := by
      intro wal hwal
      obtain ⟨segment, hsegment, rfl⟩ := List.mem_map.mp (hrecovers.numbers hwal)
      exact found.wal_lt_number segment hsegment
    refine ⟨hdisk, ⟨hle, found.mem_or_spent h happly hkeeps⟩, fun _ ↦
      ⟨hrecovers.bounded, hdisk, fun _ ↦ rfl, fun segment hsegment ↦ ?_, ?_, ?_, ?_, ?_⟩⟩
    · exact found.mem_retained_of_apply h happly ((hkeeps.sublist.filter _).subset hsegment)
    · refine List.pairwise_append.mpr ⟨hrecovers.ascending, List.pairwise_singleton _ _, ?_⟩
      intro a ha b hb
      rw [List.mem_singleton.mp hb]
      exact hnumbers a ha
    · exact List.forall_mem_append.mpr ⟨fun wal hwal ↦ (hnumbers wal hwal).trans found.number_lt,
        List.forall_mem_singleton.mpr found.number_lt⟩
    · intro segment hsegment
      rcases List.mem_append.mp (hkeeps.sublist.subset hsegment) with hsegment | hsegment
      · exact (found.wal_lt_number segment hsegment).trans found.number_lt
      · rw [List.mem_singleton.mp hsegment]
        exact found.number_lt
    · show found.number ≤ versions.counters.activeLogNumber
      rw [(VersionState.apply_eq_ok.mp happly).2.2.2]
      exact le_refl _

end Engine

/-! ## Every run -/

namespace System

variable {options : Options} {s s' : System}

/-- The invariant of all runs. -/
structure Bounded (options : Options) (s : System) : Prop where
  disk : s.machine.engine.directory.Backlog options.maxImmutableMemtables
  removed : ∀ segment ∈ s.removed, segment.Spent s.machine.engine.directory.manifest.counters
  up : s.machine.up = true → s.machine.engine.Backlog options.maxImmutableMemtables

theorem Bounded.spent_removedBy (h : Bounded options s) {e : Engine}
    (hretires : Retires s.machine.engine e) :
    ∀ segment ∈ s.removedBy e, segment.Spent e.directory.manifest.counters := by
  intro segment hsegment
  rcases List.mem_append.mp hsegment with hsegment | hsegment
  · exact (h.removed segment hsegment).mono hretires.counters
  · obtain ⟨hmem, hgone⟩ := List.mem_filter.mp hsegment
    exact (hretires.removed segment hmem).resolve_left (of_decide_eq_true hgone)

/-- Spent WALs that are back are not pending. -/
theorem backlog_restore {limit : ℕ} {e : Engine} (h : e.directory.Backlog limit)
    {back : List WalSegment}
    (hspent : ∀ segment ∈ back, segment.Spent e.directory.manifest.counters)
    (hnodup : (back.map (·.number)).Nodup)
    (hnew : ∀ segment ∈ back, segment.number ∉ e.directory.wals.map (·.number)) :
    (restore e back).directory.Backlog limit := by
  refine ⟨?_, fun segment hsegment ↦ ?_, ?_⟩
  · show ((e.directory.wals ++ back).map (·.number)).Nodup
    rw [List.map_append]
    refine h.nodup.append hnodup fun number hold hback ↦ ?_
    obtain ⟨segment, hsegment, rfl⟩ := List.mem_map.mp hback
    exact hnew segment hsegment hold
  · rcases List.mem_append.mp hsegment with hsegment | hsegment
    · exact h.written segment hsegment
    · exact (hspent segment hsegment).toWritten
  · show ((e.directory.wals ++ back).filter
      (Directory.isPending e.directory.manifest.counters)).length ≤ limit
    have hnone : back.filter (Directory.isPending e.directory.manifest.counters) = [] := by
      refine List.filter_eq_nil_iff.mpr fun segment hsegment hpending ↦ ?_
      obtain ⟨hrecords, hlog⟩ := Directory.isPending_iff.mp hpending
      exact hrecords ((hspent segment hsegment).records hlog)
    rw [List.filter_append, hnone, List.append_nil]
    exact h.bounded

private theorem of_logs {α : Type} {limit : ℕ} {e : Engine} {x : Section α}
    (h : wp x (fun _ e' ↦ Backlog limit e' ∧ Logs e e') e) :
    (x.exec e).2.directory.Backlog limit ∧ Retires e (x.exec e).2 :=
  ⟨h.1.disk, h.2.retires⟩

/-- A crash leaves no more pending WALs than there were. -/
theorem Bounded.dies (h : Bounded options s) {e : Engine} (hdies : s.machine.Dies options e) :
    e.directory.Backlog options.maxImmutableMemtables ∧ Retires s.machine.engine e := by
  cases hdies with
  | between => exact ⟨h.disk, (Logs.refl _).retires⟩
  | write faults prepare hup => exact of_logs ((h.up hup).writeSerialized rfl)
  | sync faults hup => exact of_logs (h.up hup).sync
  | close faults hup => exact of_logs (h.up hup).close
  | enterFlush faults hup => exact of_logs ((h.up hup).flushEnter)
  | build faults fileSize hup hworker => exact of_logs (h.up hup).buildSstable
  | @finishFlush faults immutable number file hup hworker =>
    have hfinish : wp (Engine.finishFlush faults immutable file) _ _ := (h.up hup).finishFlush
    exact ⟨hfinish.1.disk, hfinish.2⟩
  | compact faults snapshot time fileSize hup hplan =>
    exact of_logs (h.up hup).executeCompactionPlan
  | openEngine faults hdown =>
    have hopen : wp (Engine.openEngine faults) _ _ := openEngine_backlog h.disk
    exact ⟨hopen.1, hopen.2.1⟩

/-- A section of an open engine that removes no WAL. -/
private theorem Bounded.logs {α : Type} (h : Bounded options s) {x : Section α} {r : Result α}
    {m : Machine} (hx : wp x (fun _ e' ↦ Backlog options.maxImmutableMemtables e' ∧
      Logs s.machine.engine e') s.machine.engine)
    (hexec : x.exec s.machine.engine = (r, m.engine)) :
    Bounded options ⟨m, s.removedBy m.engine⟩ := by
  obtain ⟨hbacklog, hlogs⟩ := wp_of_exec hx hexec
  exact ⟨hbacklog.disk, h.spent_removedBy hlogs.retires, fun _ ↦ hbacklog⟩

theorem Bounded.run (h : Bounded options s) {m : Machine}
    (hstep : Machine.Step options s.machine m) : Bounded options ⟨m, s.removedBy m.engine⟩ := by
  have hspent := h.spent_removedBy (Logs.refl s.machine.engine).retires
  have hsame : Backlog options.maxImmutableMemtables s.machine.engine →
      ∀ e, e = s.machine.engine →
        Backlog options.maxImmutableMemtables e ∧ Logs s.machine.engine e := by
    rintro hbacklog _ rfl
    exact ⟨hbacklog, .refl _⟩
  cases hstep with
  | write prepare hup hexec => exact h.logs ((h.up hup).writeSerialized rfl) hexec
  | writeFails prepare hup hexec => exact h.logs ((h.up hup).writeSerialized rfl) hexec
  | sync hup hexec => exact h.logs (h.up hup).sync hexec
  | close hup hexec => exact h.logs (h.up hup).close hexec
  | callFlush hup => exact ⟨h.disk, hspent, fun _ ↦ h.up hup⟩
  | enterFlush _ hup _ _ hexec => exact h.logs ((h.up hup).flushEnter) hexec
  | enterFlushFails _ hup _ _ hexec => exact h.logs ((h.up hup).flushEnter) hexec
  | drainFlush _ hup _ _ hexec =>
    exact h.logs (wp_mono wp_flushDrain fun _ e hdrain ↦ hsame (h.up hup) e hdrain.1) hexec
  | drainFlushFails _ hup _ _ hexec =>
    exact h.logs (wp_mono wp_flushDrain fun _ e hdrain ↦ hsame (h.up hup) e hdrain.1) hexec
  | takeFlush hup _ hexec => exact h.logs (h.up hup).takeFlush hexec
  | takeNothing hup _ hexec => exact h.logs (h.up hup).takeFlush hexec
  | build _ hup _ hexec => exact h.logs (h.up hup).buildSstable hexec
  | finishFlush hup _ hexec =>
    obtain ⟨hbacklog, hretires⟩ := wp_of_exec (h.up hup).finishFlush hexec
    exact ⟨hbacklog.disk, h.spent_removedBy hretires, fun _ ↦ hbacklog⟩
  | pick _ _ hup => exact ⟨h.disk, hspent, fun _ ↦ h.up hup⟩
  | compact _ _ _ hup _ hexec => exact h.logs (h.up hup).executeCompactionPlan hexec
  | failCompaction hup _ hexec => exact h.logs (h.up hup).failCompaction hexec
  | stop => exact ⟨h.disk, hspent, nofun⟩
  | @openEngine r e hdown hexec =>
    obtain ⟨hdisk, hretires, hopened⟩ := wp_of_exec (openEngine_backlog h.disk) hexec
    refine ⟨hdisk, h.spent_removedBy hretires, fun hup ↦ hopened ?_⟩
    cases r with
    | error error => exact absurd hup Bool.false_ne_true
    | ok u => rfl

theorem Bounded.step (h : Bounded options s) (hstep : Step options s s') : Bounded options s' := by
  cases hstep with
  | run hstep => exact h.run hstep
  | crash hdies hback hnodup hnew =>
    obtain ⟨hdisk, hretires⟩ := h.dies hdies
    have hspent := h.spent_removedBy hretires
    exact ⟨backlog_restore hdisk (fun segment hsegment ↦ hspent segment (hback hsegment)) hnodup
      hnew, hspent, nofun⟩

theorem Reachable.bounded (h : Reachable options s) : Bounded options s := by
  induction h with
  | @fresh m hfresh =>
    obtain ⟨hdirectory, -, hdown⟩ := hfresh
    refine ⟨?_, nofun, fun hup ↦ absurd (hdown.symm.trans hup) Bool.false_ne_true⟩
    rw [hdirectory]
    exact ⟨.nil, nofun, Nat.zero_le _⟩
  | step _ hstep ih => exact ih.step hstep

/-- **The backlog is bounded.** Whatever is written, flushed, compacted and recovered after crashes,
the immutable memtables and a mutable one that is not empty are at most as many as the options
allow. -/
theorem Reachable.immutables_bounded (h : Reachable options s) (hup : s.machine.up = true) :
    s.machine.engine.immutables.length +
      (if s.machine.engine.mutable.table.isEmpty then 0 else 1) ≤ options.maxImmutableMemtables :=
  (h.bounded.up hup).bounded

/-! ## A run

A new directory is opened, and the process dies right after it has logged a batch. When the engine
is opened again, the batch is in an immutable memtable. -/

private def logThenDie : Faults
  | .appendWal => some ⟨.closed, true⟩
  | _ => none

private def died : Engine :=
  ((writeSerialized .new logThenDie (.ok ⟨[.put [7] [1] none]⟩)).exec Machine.opened).2

private def reopened : Engine := ((Engine.openEngine noFaults).exec (restore died [])).2

private theorem reachable_reopened :
    ∃ removed, Reachable .new ⟨⟨reopened, true, .idle, [], [], [], []⟩, removed⟩ := by
  obtain ⟨_, hopened⟩ : ∃ removed,
      Reachable .new ⟨⟨Machine.opened, true, .idle, [], [], [], []⟩, removed⟩ := by
    have hstep : Machine.Step .new ⟨Machine.newEngine, false, .idle, [], [], [], []⟩ _ :=
      .openEngine rfl Machine.openEngine_newEngine
    exact ⟨_, .step (.fresh ⟨rfl, rfl, rfl⟩) (.run hstep)⟩
  obtain ⟨_, hdied⟩ : ∃ removed,
      Reachable .new ⟨⟨restore died [], false, .idle, [], [], [], []⟩, removed⟩ := by
    have hdies : Machine.Dies .new ⟨Machine.opened, true, .idle, [], [], [], []⟩ died :=
      .write logThenDie (.ok ⟨[.put [7] [1] none]⟩) rfl
    exact ⟨_, hopened.step (.crash hdies (List.nil_subset _) List.nodup_nil nofun)⟩
  have hexec : (Engine.openEngine noFaults).exec (restore died []) = (.ok (), reopened) :=
    Prod.ext (by decide +kernel) rfl
  have hstep : Machine.Step .new ⟨restore died [], false, .idle, [], [], [], []⟩ _ :=
    .openEngine rfl hexec
  exact ⟨_, hdied.step (.run hstep)⟩

theorem immutables_bounded_reopened : reopened.immutables.length = 1 ∧
    reopened.immutables.length + (if reopened.mutable.table.isEmpty then 0 else 1)
      ≤ Options.new.maxImmutableMemtables := by
  obtain ⟨removed, hreachable⟩ := reachable_reopened
  exact ⟨by decide +kernel, hreachable.immutables_bounded rfl⟩

end System

end MeteorDB
