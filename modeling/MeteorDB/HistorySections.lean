import MeteorDB.History

/-!
# What the sections of the engine keep of the history

Between two sections an open engine agrees with the history of its commits: its memtables hold the
entries above the last sequence of the tables (`Remembers`), and the directory would survive a crash
(`Durable`). Here each section is run with arbitrary failures of its filesystem steps, and whatever
it ends with is `Recorded` again. A write is the exception, since its batch may have been logged.

What an immutable memtable holds and which WAL it came from must divide the commits at the same
place; otherwise an edit that publishes the memtable would drop commits from the log that no table
has, or leave some that recovery would refuse.
-/

namespace MeteorDB

open Attempt

namespace Engine

/-- The memory agrees with the history. -/
structure Remembers (history : List WriteBatch) (engine : Engine) : Prop where
  next : engine.nextSequence.val = history.length + 1
  mem : engine.memEntries = historyEntries history engine.versions.counters.lastSequence
  files : ∀ number ∈ engine.requiredWals, number ∈ engine.directory.wals.map (·.number)
  divided : ∀ immutable ∈ engine.immutables, ∀ segment ∈ engine.directory.pending,
    ∀ record ∈ segment.records,
      record.sequence ≤ immutable.largestSequence ↔ segment.number ≤ immutable.walNumber

/-- The memory and the directory agree with the history. -/
structure Recorded (history : List WriteBatch) (floor : ℕ) (clock : U64) (engine : Engine) : Prop
    extends Remembers history engine where
  durable : Durable history floor clock engine.directory
  accepted : ∀ built ∈ engine.edits, EditAccepted built

variable {history : List WriteBatch} {floor : ℕ} {clock : U64} {limit : ℕ} {e e' : Engine}
  {faults : Faults}

theorem Recorded.mono {floor' : ℕ} {clock' : U64} (h : Recorded history floor clock e)
    (hfloor : floor ≤ floor') (hclock : clock ≤ clock') : Recorded history floor' clock' e :=
  { h with durable := h.durable.mono hfloor hclock }

/-! ## Required and pending WALs -/

private theorem Backlog.required_le (h : Backlog limit e) {number : U64}
    (hnumber : number ∈ e.requiredWals) : number ≤ e.mutable.walNumber := by
  have hascending := h.ascending
  rw [requiredWals, List.pairwise_append] at hascending
  rcases List.mem_append.mp hnumber with hmem | hmem
  · exact (hascending.2.2 number hmem _ (List.mem_singleton.mpr rfl)).le
  · exact (List.mem_singleton.mp hmem).le

private theorem Backlog.oldest_le_pending (h : Backlog limit e) :
    ∀ segment ∈ e.directory.pending, e.oldestRequiredWal ≤ segment.number :=
  fun segment hsegment ↦ e.oldestRequiredWal_le (h.covered segment hsegment)

theorem Backlog.pending_le (h : Backlog limit e) :
    ∀ segment ∈ e.directory.pending, segment.number ≤ e.mutable.walNumber :=
  fun segment hsegment ↦ h.required_le (h.covered segment hsegment)

/-! ## Edits -/

/-- An edit that is accepted is installed; or it fails, and the manifest is the old or the new
one. -/
theorem wp_applyEdit_kept {edit : VersionEdit} {versions : VersionState}
    {q : Result PUnit → Engine → Prop} (husable : e.manifestUsable = true)
    (happly : e.versions.apply false edit = .ok versions)
    (herror : ∀ error manifestUsable manifest,
      manifest = e.directory.manifest ∨ manifest = versions →
        q (.error error) { e with
          edits := e.edits ++ [(e.versions, edit)]
          manifestUsable
          directory := { e.directory with manifest } })
    (hok : q (.ok ()) { e with
      edits := e.edits ++ [(e.versions, edit)]
      versions
      directory := { e.directory with manifest := versions } }) :
    wp (applyEdit faults edit) q e := by
  refine wp_applyEdit_usable husable (fun error usable manifest h ↦ herror _ _ _ ?_)
    fun versions' h ↦ ?_
  · exact h.imp And.left fun h ↦ Except.ok.inj (h.2.2.symm.trans happly)
  · rwa [Except.ok.inj (h.symm.trans happly)]

/-- The counters of the manifest move forward. -/
theorem Remembers.edit (h : Remembers history e) {versions manifest : VersionState} {usable : Bool}
    {edits : List (VersionState × VersionEdit)}
    (hlast : versions.counters.lastSequence = e.versions.counters.lastSequence)
    (hle : e.directory.manifest.counters.Le manifest.counters) :
    Remembers history { e with
      versions, edits, manifestUsable := usable, directory := { e.directory with manifest } } :=
  { h with
    mem := by
      show e.memEntries = historyEntries history versions.counters.lastSequence
      rw [hlast]
      exact h.mem
    divided := fun immutable himmutable segment hsegment ↦
      h.divided immutable himmutable segment ((Directory.pending_edit hle).subset hsegment) }

/-- An edit fails. Its record may have reached the manifest. -/
theorem Recorded.edit_fails (h : Recorded history floor clock e) {versions manifest : VersionState}
    {usable : Bool} {edits : List (VersionState × VersionEdit)}
    (hle : e.directory.manifest.counters.Le versions.counters)
    (hdurable : Durable history floor clock { e.directory with manifest := versions })
    (haccepted : ∀ built ∈ edits, EditAccepted built)
    (hcases : manifest = e.directory.manifest ∨ manifest = versions) :
    Recorded history floor clock { e with
      edits, manifestUsable := usable, directory := { e.directory with manifest } } := by
  rcases hcases with rfl | rfl
  · exact ⟨h.toRemembers.edit rfl (.refl _), h.durable, haccepted⟩
  · exact ⟨h.toRemembers.edit rfl hle, hdurable, haccepted⟩

/-- An edit that changes counters only, and leaves all pending WALs to recovery. -/
theorem Recorded.wp_applyCounters (h : Recorded history floor clock e)
    (husable : e.manifestUsable = true) (hmanifest : e.directory.manifest = e.versions)
    {edit : VersionEdit} {versions : VersionState}
    (happly : e.versions.apply false edit = .ok versions)
    (hsound : versions.Sound e.directory.tables)
    (hsame : e.versions.version.SameTables versions.version)
    (hle : e.versions.counters.Le versions.counters)
    (hlast : versions.counters.lastSequence = e.versions.counters.lastSequence)
    (hlog : ∀ segment ∈ e.directory.pending, versions.counters.logNumber ≤ segment.number)
    (hwal : versions.counters.walSequence.val ≤ history.length)
    (hfiles : ∀ number ∈ [versions.counters.logNumber, versions.counters.activeLogNumber],
      number ∈ e.directory.wals.map (·.number))
    {q : Result PUnit → Engine → Prop}
    (herror : ∀ error e', Recorded history floor clock e' → q (.error error) e')
    (hok : ∀ e', e' = { e with
        edits := e.edits ++ [(e.versions, edit)]
        versions
        directory := { e.directory with manifest := versions } } →
      Recorded history floor clock e' → q (.ok ()) e') :
    wp (applyEdit faults edit) q e := by
  rw [← hmanifest] at hsame hle
  have hdurable : Durable history floor clock { e.directory with manifest := versions } :=
    h.durable.counters hsound hsame hle (hmanifest ▸ hlast) hlog hwal hfiles
  have haccepted := accepted_append h.accepted happly hsound
  refine wp_applyEdit_kept husable happly (fun error usable manifest hcases ↦ ?_) ?_
  · exact herror _ _ (h.edit_fails hle hdurable haccepted hcases)
  · exact hok _ rfl ⟨h.toRemembers.edit hlast hle, hdurable, haccepted⟩

/-! ## Rotating -/

theorem Recorded.rotateMemtable (h : Recorded history floor clock e) (hinv : Inv e)
    (hback : Backlog limit e) {largestSequence : SequenceNumber}
    (hlargest : largestSequence.val = history.length) :
    wp (Engine.rotateMemtable faults largestSequence)
      (fun _ e' ↦ Recorded history floor clock e') e := by
  unfold Engine.rotateMemtable
  rw [wp_bind]
  refine wp_allocateFileNumber (fun _ error ↦ h) fun next hnumber hnext ↦ ?_
  have hlt : e.nextFileNumber < next := Fin.lt_def.mpr (by omega)
  have hsub : ∀ number ∈ e.directory.wals.map (·.number),
      number ∈ (e.directory.addWal e.nextFileNumber).wals.map (·.number) := by
    intro number hmem
    show number ∈ (e.directory.wals ++ _).map _
    rw [List.map_append]
    exact List.mem_append_left _ hmem
  have hcreated : Recorded history floor clock { e with
      nextFileNumber := next, directory := e.directory.addWal e.nextFileNumber } :=
    { h with
      durable := h.durable.addWal e.nextFileNumber
      files := fun number hmem ↦ hsub number (h.files number hmem)
      divided := fun immutable himmutable segment hsegment ↦ h.divided immutable himmutable segment
        (Directory.pending_addWal (d := e.directory) _ ▸ hsegment) }
  dsimp only
  rw [wp_bind]
  refine wp_perform_faults ?_ (fun error ↦ { h with }) fun error ↦ hcreated
  dsimp only
  rw [wp_get_bind]
  obtain ⟨versions, happly, hsound, -, hcounters, hsame, hle⟩ := hinv.exists_rotation hlt
  rw [wp_bind]
  refine hcreated.wp_applyCounters hinv.usable hinv.manifest happly hsound hsame hle ?_ ?_ ?_ ?_
    (fun error e' h' ↦ h') ?_
  · rw [hcounters]
    rfl
  · rw [hcounters]
    intro segment hsegment
    exact hback.oldest_le_pending segment (Directory.pending_addWal (d := e.directory) _ ▸ hsegment)
  · rw [hcounters]
    show e.versions.counters.walSequence.val ≤ _
    rw [← hinv.manifest]
    exact h.durable.wal_le
  · rw [hcounters]
    intro number hmem
    rcases List.mem_cons.mp hmem with rfl | hmem
    · exact hsub _ (h.files _ e.oldestRequiredWal_mem)
    · rw [List.mem_singleton.mp hmem]
      exact List.mem_map.mpr ⟨⟨e.nextFileNumber, []⟩,
        List.mem_append_right _ (List.mem_singleton.mpr rfl), rfl⟩
  rintro _ rfl h'
  rw [wp_modify]
  refine { h' with mem := ?_, files := ?_, divided := ?_ }
  · exact (memEntries_rotate rfl rfl).trans h'.mem
  · intro number hmem
    rw [requiredWals, requiredWals_rotate] at hmem
    rcases List.mem_append.mp hmem with hmem | hmem
    · exact hsub number (h.files number hmem)
    · rw [List.mem_singleton.mp hmem]
      exact List.mem_map.mpr ⟨⟨e.nextFileNumber, []⟩,
        List.mem_append_right _ (List.mem_singleton.mpr rfl), rfl⟩
  · intro immutable himmutable segment hsegment record hrecord
    rcases List.mem_append.mp himmutable with himmutable | himmutable
    · exact h'.divided immutable himmutable segment hsegment record hrecord
    · -- The new immutable memtable has everything that was logged so far.
      rw [List.mem_singleton.mp himmutable]
      have hold : segment ∈ e.directory.pending := by
        rw [← Directory.pending_addWal (d := e.directory) e.nextFileNumber]
        refine (Directory.pending_edit ?_).subset hsegment
        show e.directory.manifest.counters.Le _
        rw [hinv.manifest]
        exact hle
      refine iff_of_true (Fin.le_def.mpr ?_) (hback.pending_le segment hold)
      show record.sequence.val ≤ largestSequence.val
      rw [hlargest]
      exact (h.durable.logged.faithful segment hold record hrecord).2.le_length

/-- A rotation moves nothing into the tables. -/
theorem wp_rotateMemtable_lastSequence (hmanifest : e.directory.manifest = e.versions)
    {largestSequence : SequenceNumber} :
    wp (Engine.rotateMemtable faults largestSequence) (fun _ e' ↦
      e'.directory.manifest.counters.lastSequence
        = e.directory.manifest.counters.lastSequence) e := by
  have hmerged : ∀ (edit : VersionEdit) (versions : VersionState), edit.lastSequence = none →
      e.versions.apply false edit = .ok versions →
      versions.counters.lastSequence = e.directory.manifest.counters.lastSequence := by
    intro edit versions hedit happly
    obtain ⟨-, -, -, hcounters⟩ := VersionState.apply_eq_ok.mp happly
    rw [hcounters, Counters.merge, hedit, hmanifest]
    rfl
  unfold Engine.rotateMemtable
  rw [wp_bind]
  refine wp_allocateFileNumber (fun _ error ↦ rfl) fun next _ _ ↦ ?_
  dsimp only
  rw [wp_bind]
  refine wp_perform_faults ?_ (fun error ↦ rfl) fun error ↦ rfl
  dsimp only
  rw [wp_get_bind, wp_bind]
  refine wp_applyEdit_faults (fun error usable manifest edits hunapplied ↦ ?_)
    fun versions edits _ happly ↦ ?_
  · rcases hunapplied with ⟨rfl, -⟩ | ⟨-, -, happly⟩
    · rfl
    · exact hmerged _ manifest rfl happly
  · rw [wp_modify]
    exact hmerged _ versions rfl happly

/-! ## Writing -/

private theorem Backlog.immutable_lt (h : Backlog limit e) {immutable : ImmutableMemTable}
    (himmutable : immutable ∈ e.immutables) : immutable.walNumber < e.mutable.walNumber := by
  have hascending := h.ascending
  rw [requiredWals, List.pairwise_append] at hascending
  exact hascending.2.2 _ (List.mem_map.mpr ⟨immutable, himmutable, rfl⟩) _
    (List.mem_singleton.mpr rfl)

/-- What is appended belongs to no immutable memtable. -/
theorem Remembers.divided_append (h : Remembers history e) (hinv : Inv e) (hback : Backlog limit e)
    (batch : WriteBatch) : ∀ immutable ∈ e.immutables,
      ∀ segment ∈ (e.directory.appendWal e.mutable.walNumber ⟨e.nextSequence, batch⟩).pending,
        ∀ record ∈ segment.records,
          record.sequence ≤ immutable.largestSequence ↔ segment.number ≤ immutable.walNumber := by
  intro immutable himmutable segment hsegment record hrecord
  obtain ⟨hmem, hne, hlog⟩ := Directory.mem_pending.mp hsegment
  rcases Directory.mem_appendWal hmem with hmem | ⟨old, hold, hnumber, rfl⟩
  · exact h.divided immutable himmutable segment (Directory.mem_pending.mpr ⟨hmem, hne, hlog⟩)
      record hrecord
  · have hlt : immutable.walNumber < old.number := hnumber ▸ hback.immutable_lt himmutable
    refine iff_of_false ?_ (not_le.mpr hlt)
    rcases List.mem_append.mp hrecord with hrecord | hrecord
    · have hpending : old ∈ e.directory.pending :=
        Directory.mem_pending.mpr ⟨hold, List.ne_nil_of_mem hrecord, hlog⟩
      rw [h.divided immutable himmutable old hpending record hrecord]
      exact not_le.mpr hlt
    · rw [List.mem_singleton.mp hrecord]
      exact not_le.mpr (hinv.ascending.largest_lt immutable himmutable)

private theorem wp_appendWal_kept {options : Options} {sequence : SequenceNumber}
    {batch : WriteBatch} {q : Result PUnit → Engine → Prop} (hnone : ∀ error, q (.error error) e)
    (hlate : ∀ error, faults .appendWal ≠ none → q (.error error) { e with
      directory := e.directory.appendWal e.mutable.walNumber ⟨sequence, batch⟩ })
    (hok : q (.ok ()) { e with
      directory := e.directory.appendWal e.mutable.walNumber ⟨sequence, batch⟩ }) :
    wp (Engine.appendWal options faults sequence batch) q e := by
  unfold Engine.appendWal
  rw [wp_get_bind]
  refine wp_lift_bind (fun error _ ↦ hnone error) fun writer _ ↦ ?_
  refine wp_lift_bind (fun error _ ↦ hnone error) fun _ _ ↦ ?_
  unfold perform
  cases hfault : faults .appendWal with
  | none => exact hok
  | some failure =>
    dsimp only
    rw [wp_modify_bind, wp_throw]
    split_ifs
    · exact hlate _ (by rw [hfault]; nofun)
    · exact hnone _

/-- A logged batch goes into the memtable, and the history has grown by it. -/
theorem Recorded.commit (h : Recorded history floor clock e) (hinv : Inv e)
    (hback : Backlog limit e) {batch : WriteBatch} (hne : batch.isEmpty = false)
    (hlt : e.nextSequence.val < maxU64)
    (hdurable : Durable (history ++ [batch]) floor clock
      (e.directory.appendWal e.mutable.walNumber ⟨e.nextSequence, batch⟩)) :
    wp (Engine.commit e.nextSequence batch)
      (fun _ e' ↦ Recorded (history ++ [batch]) floor clock e')
      { e with
        directory := e.directory.appendWal e.mutable.walNumber ⟨e.nextSequence, batch⟩ } := by
  have hcore : Core { e with
      directory := e.directory.appendWal e.mutable.walNumber ⟨e.nextSequence, batch⟩ } :=
    { hinv.core with }
  refine wp_mono (hcore.commit hne hlt) fun r e₁ h₁ ↦ ?_
  obtain ⟨-, -, hwrote, -, -, heq, hwalNumber⟩ := h₁
  have hmem := hwrote.mem
  generalize e₁.mutable = mutable at *
  subst heq
  have hrequired : e.immutables.map (·.walNumber) ++ [mutable.walNumber] = e.requiredWals := by
    rw [hwalNumber]
    rfl
  refine ⟨⟨?_, ?_, fun number hnumber ↦ ?_, h.divided_append hinv hback batch⟩, hdurable,
    h.accepted⟩
  · show (e.nextSequence + 1).val = _
    rw [Fin.val_add_one_of_lt' (by unfold maxU64 at hlt; omega), h.next, List.length_append]
    rfl
  · have hlast : e.versions.counters.lastSequence.val ≤ history.length := by
      rw [← hinv.manifest]
      exact h.durable.last_le
    rw [hmem]
    show e.memEntries ∪ _ = _
    rw [h.mem]
    exact (historyEntries_append_singleton hlast h.next).symm
  · rw [Directory.numbers_appendWal]
    exact h.files number (hrequired ▸ hnumber)

/-- What a write leaves: nothing, or its batch in memory and in the log, or, after a failure, its
batch in the log only. -/
def WriteKept (history : List WriteBatch) (floor : ℕ) (clock : U64) (faults : Faults)
    (prepare : Result WriteBatch) (r : Result Bool) (engine : Engine) : Prop :=
  (∃ error, r = .error error) ∧ Recorded history floor clock engine ∨
    ∃ batch, prepare = .ok batch ∧
      engine.directory.manifest.counters.lastSequence.val ≤ history.length ∧
      ((∃ woken, r = .ok woken) ∧ Recorded (history ++ [batch]) floor clock engine ∨
        (∃ error, r = .error error) ∧ faults .appendWal ≠ none ∧
          Durable (history ++ [batch]) floor clock engine.directory ∧
          ∀ built ∈ engine.edits, EditAccepted built)

/-- **Writing.** -/
theorem Recorded.writeSerialized (h : Recorded history floor clock e) (hinv : Inv e)
    (hback : Backlog limit e) {options : Options} (hlimit : limit = options.maxImmutableMemtables)
    {prepare : Result WriteBatch} :
    wp (Engine.writeSerialized options faults prepare)
      (WriteKept history floor clock faults prepare) e := by
  have hrefused : ∀ error, WriteKept history floor clock faults prepare (.error error) e :=
    fun error ↦ .inl ⟨⟨error, rfl⟩, h⟩
  unfold Engine.writeSerialized
  rw [wp_get_bind]
  refine wp_lift_bind (fun error _ ↦ hrefused error) fun _ _ ↦ ?_
  refine wp_lift_bind (fun error _ ↦ hrefused error) fun batch hprepare ↦ ?_
  refine wp_lift_bind (fun error _ ↦ hrefused error) fun _ hvalidate ↦ ?_
  rw [wp_get_bind, wp_ite]
  refine ⟨fun _ ↦ hrefused _, fun hstall ↦ ?_⟩
  have hroom : e.immutables.length + 1 ≤ limit := by omega
  rw [wp_ite]
  refine ⟨fun _ ↦ hrefused _, fun hmax ↦ ?_⟩
  have hlt : e.nextSequence.val < maxU64 := by
    have := e.nextSequence.isLt
    unfold maxU64 at hmax ⊢
    omega
  have hne := validateBatch_eq_ok hvalidate
  have hdurable : Durable (history ++ [batch]) floor clock
      (e.directory.appendWal e.mutable.walNumber ⟨e.nextSequence, batch⟩) :=
    h.durable.append ⟨e.nextSequence, batch⟩ h.next hlt (h.files _ e.walNumber_mem)
      (by rw [hinv.manifest]; exact hinv.log_le _ e.walNumber_mem) hback.pending_le
  rw [wp_bind]
  refine wp_orTerminal (wp_appendWal_kept (fun error failure _ ↦ ?_)
    (fun error hfault failure _ ↦ ?_) ?_)
  · exact .inl ⟨⟨_, rfl⟩, { h with }⟩
  · exact .inr ⟨batch, hprepare, h.durable.last_le, .inr ⟨⟨_, rfl⟩, hfault, hdurable, h.accepted⟩⟩
  have hinv₁ : Inv { e with
      directory := e.directory.appendWal e.mutable.walNumber ⟨e.nextSequence, batch⟩ } := by
    refine { hinv with walFiles_ne := fun segment hsegment ↦ ?_ }
    rcases Directory.mem_appendWal hsegment with hsegment | ⟨old, hold, -, rfl⟩
    · exact hinv.walFiles_ne segment hsegment
    · exact hinv.walFiles_ne old hold
  dsimp only
  rw [wp_bind]
  refine wp_mono (wp_and (wp_and (h.commit hinv hback hne hlt hdurable) (hinv₁.commit hne hlt))
    ((hback.append hroom hne).commit hroom)) fun r e₂ h₂ ↦ ?_
  obtain ⟨⟨hrecorded, rfl, hinv₂, hwrote, -⟩, hback₂, -⟩ := h₂
  have hlast : e₂.directory.manifest.counters.lastSequence.val ≤ history.length := by
    rw [hinv₂.manifest, hwrote.lastSequence, ← hinv₁.manifest]
    exact h.durable.last_le
  dsimp only
  rw [wp_get_bind, wp_ite]
  refine ⟨fun _ ↦ ?_, fun _ ↦ .inr ⟨batch, hprepare, hlast, .inl ⟨⟨_, rfl⟩, hrecorded⟩⟩⟩
  have hlargest : e.nextSequence.val = (history ++ [batch]).length := by
    rw [h.next, List.length_append]
    rfl
  rw [wp_tryCatch, wp_bind]
  refine wp_mono (wp_and (hrecorded.rotateMemtable hinv₂ hback₂ hlargest)
    (wp_rotateMemtable_lastSequence hinv₂.manifest)) fun r e₃ h₃ ↦ ?_
  obtain ⟨h₃, hsame⟩ := h₃
  rw [← hsame] at hlast
  cases r with
  | ok u => exact .inr ⟨batch, hprepare, hlast, .inl ⟨⟨_, rfl⟩, h₃⟩⟩
  | error error =>
    dsimp only
    rw [wp_bind]
    exact wp_recordTerminalFailure fun failure _ ↦
      .inr ⟨batch, hprepare, hlast, .inl ⟨⟨_, rfl⟩, { h₃ with }⟩⟩

/-! ## Synchronizing and closing -/

theorem Remembers.saturatingPred_next (h : Remembers history e) :
    (saturatingPred e.nextSequence).val = history.length := by
  rw [saturatingPred_val, h.next]
  rfl

theorem Recorded.persistWalState (h : Recorded history floor clock e) (hinv : Inv e)
    (hback : Backlog limit e) :
    wp (Engine.persistWalState faults) (fun _ e' ↦ Recorded history floor clock e') e := by
  unfold Engine.persistWalState
  rw [wp_get_bind]
  obtain ⟨versions, happly, hsound, -, hcounters, hsame, hle⟩ := hinv.exists_walState
  refine h.wp_applyCounters hinv.usable hinv.manifest happly hsound hsame hle ?_ ?_ ?_ ?_
    (fun error e' h' ↦ h') fun e' _ h' ↦ h'
  · rw [hcounters]
    rfl
  · rw [hcounters]
    exact hback.oldest_le_pending
  · rw [hcounters]
    exact h.saturatingPred_next.le
  · rw [hcounters]
    intro number hmem
    rcases List.mem_cons.mp hmem with rfl | hmem
    · exact h.files _ e.oldestRequiredWal_mem
    · rw [List.mem_singleton.mp hmem]
      exact h.files _ e.walNumber_mem

theorem Recorded.sync (h : Recorded history floor clock e) (hinv : Inv e)
    (hback : Backlog limit e) :
    wp (Engine.sync faults) (fun _ e' ↦ Recorded history floor clock e') e := by
  unfold Engine.sync
  rw [wp_get_bind]
  refine wp_lift_bind (fun _ _ ↦ h) fun _ _ ↦ ?_
  rw [wp_bind]
  refine wp_orTerminal (wp_mono wp_syncOwnedWals_faults ?_)
  rintro r _ rfl
  cases r with
  | error error => exact fun failure _ ↦ { h with }
  | ok u =>
  refine wp_orTerminal (wp_mono (h.persistWalState hinv hback) fun r e₁ h₁ ↦ ?_)
  cases r with
  | error error => exact fun failure _ ↦ { h₁ with }
  | ok u => exact h₁

theorem Recorded.close (h : Recorded history floor clock e) (hinv : Inv e)
    (hback : Backlog limit e) :
    wp (Engine.close faults) (fun _ e' ↦ Recorded history floor clock e') e := by
  unfold Engine.close
  rw [wp_get_bind]
  cases e.terminalFailure with
  | some failure => exact { h with }
  | none =>
  dsimp only
  rw [wp_ite]
  refine ⟨fun _ ↦ h, fun _ ↦ ?_⟩
  rw [wp_bind]
  have hfail : ∀ {e₁ : Engine}, Recorded history floor clock e₁ → ∀ error,
      wp (do
        let error ← recordTerminalFailure error
        modify fun engine ↦ { engine with closed := true }
        throw error : Section Unit) (fun _ e' ↦ Recorded history floor clock e') e₁ := by
    intro e₁ h₁ error
    rw [wp_bind]
    exact wp_recordTerminalFailure fun failure _ ↦ { h₁ with }
  refine wp_mono (p := fun _ e' ↦ Recorded history floor clock e') ?_ fun r e' h' ↦ ?_
  · rw [wp_tryCatch, wp_bind]
    refine wp_mono wp_syncOwnedWals_faults ?_
    rintro r _ rfl
    cases r with
    | error error => exact hfail h error
    | ok u =>
    refine wp_mono (h.persistWalState hinv hback) fun r e₁ h₁ ↦ ?_
    cases r with
    | error error => exact hfail h₁ error
    | ok u => exact h₁
  · cases r with
    | error error => exact h'
    | ok u => exact { h' with }

/-! ## Flushing -/

theorem Recorded.flushRotate (h : Recorded history floor clock e) (hinv : Inv e)
    (hback : Backlog limit e) :
    wp (Engine.flushRotate faults) (fun _ e' ↦ Recorded history floor clock e') e := by
  unfold Engine.flushRotate
  rw [wp_get_bind, wp_ite]
  refine ⟨fun _ ↦ h, fun _ ↦ ?_⟩
  rw [wp_bind]
  refine wp_orTerminal (wp_mono (h.rotateMemtable hinv hback h.saturatingPred_next)
    fun r e' h' ↦ ?_)
  cases r with
  | error error => exact fun failure _ ↦ { h' with }
  | ok u => exact h'

theorem Recorded.flushEnter (h : Recorded history floor clock e) (hinv : Inv e)
    (hback : Backlog limit e) {options : Options} :
    wp (Engine.flushEnter options faults) (fun _ e' ↦ Recorded history floor clock e') e := by
  unfold Engine.flushEnter
  rw [wp_get_bind]
  refine wp_lift_bind (fun _ _ ↦ h) fun _ _ ↦ ?_
  rw [wp_get_bind, wp_ite]
  refine ⟨fun _ ↦ h, fun _ ↦ ?_⟩
  rw [wp_bind]
  refine wp_mono (h.flushRotate hinv hback) fun r e' h' ↦ ?_
  cases r with
  | error error => exact h'
  | ok woken =>
  dsimp only
  rw [wp_get_bind, wp_ite]
  exact ⟨fun _ ↦ h', fun _ ↦ h'⟩

theorem Recorded.takeFlush (h : Recorded history floor clock e) :
    wp Engine.takeFlush (fun _ e' ↦ Recorded history floor clock e') e := by
  refine wp_mono wp_takeFlush fun r e' h' ↦ ?_
  rcases r with error | task
  · obtain ⟨-, failure, rfl⟩ := h'
    exact { h with }
  cases task with
  | stop => exact h'.2 ▸ h
  | sleep => exact h'.2.2 ▸ h
  | build immutable number =>
    obtain ⟨-, -, -, next, -, rfl⟩ := h'
    exact { h with }

theorem Recorded.buildSstable (h : Recorded history floor clock e) (hinv : Inv e) {number : U64}
    (hnumber : ∀ used ∈ e.versions.usedFileNumbers, used < number) {table : MemTable}
    {fileSize : U64} :
    wp (Engine.buildSstable faults number table fileSize)
      (fun _ e' ↦ Recorded history floor clock e') e := by
  refine wp_mono wp_buildSstable fun r e' h' ↦ ?_
  rcases h'.1 with rfl | rfl
  · exact h
  · refine { h with durable := h.durable.tables fun used hused ↦ ?_ }
    rw [hinv.manifest] at hused
    exact Function.update_of_ne (hnumber used hused).ne _ _

/-- The WALs of the memtables that remain once the oldest immutable one has been flushed. -/
theorem Backlog.lt_oldest_iff (h : Backlog limit e) {immutable : ImmutableMemTable}
    {immutables : List ImmutableMemTable} (himmutables : e.immutables = immutable :: immutables)
    {number : U64} (hnumber : number ∈ e.requiredWals) :
    number < ((e.immutables.drop 1).map (·.walNumber)).foldr min e.mutable.walNumber ↔
      number ≤ immutable.walNumber := by
  have hascending := h.ascending
  obtain ⟨hmem, hle⟩ := foldr_min_mem ((e.immutables.drop 1).map (·.walNumber)) e.mutable.walNumber
  unfold requiredWals at hascending hnumber
  rw [himmutables] at hascending hnumber hmem hle ⊢
  obtain ⟨hfirst, -⟩ := List.pairwise_cons.mp hascending
  constructor
  · intro hlt
    rcases List.mem_cons.mp hnumber with rfl | hrest
    · exact le_refl _
    · exact absurd (hle number hrest) (not_le.mpr hlt)
  · exact fun hnumberLe ↦ hnumberLe.trans_lt (hfirst _ hmem)

/-- The oldest immutable memtable has the oldest commits that no table has. -/
theorem Remembers.mem_oldest_iff (h : Remembers history e) (hinv : Inv e)
    {immutable : ImmutableMemTable} {immutables : List ImmutableMemTable}
    (himmutables : e.immutables = immutable :: immutables) (entry : InternalEntry) :
    entry ∈ immutable.table.entries ↔
      entry ∈ historyEntries history e.versions.counters.lastSequence ∧
        entry.key.sequence ≤ immutable.largestSequence := by
  have hmem : immutable ∈ e.immutables := himmutables ▸ List.mem_cons_self ..
  have hordered := hinv.ascending.ordered
  rw [himmutables] at hordered
  rw [← h.mem]
  constructor
  · exact fun hentry ↦
      ⟨.inr ⟨immutable, hmem, hentry⟩, (hinv.ascending.above immutable hmem entry hentry).2⟩
  · rintro ⟨hentry | ⟨other, hother, hentry⟩, hle⟩
    · exact absurd hle (not_le.mpr (hinv.ascending.mutable_newest immutable hmem entry hentry))
    · rw [himmutables] at hother
      rcases List.mem_cons.mp hother with rfl | hother
      · exact hentry
      · exact absurd hle (not_le.mpr ((List.pairwise_cons.mp hordered).1 other hother entry hentry))

/-- Without the oldest immutable memtable, the memory has the commits above it. -/
theorem Remembers.mem_drop (h : Remembers history e) (hinv : Inv e)
    {immutable : ImmutableMemTable} {immutables : List ImmutableMemTable}
    (himmutables : e.immutables = immutable :: immutables) :
    {entry | entry ∈ e.mutable.table.entries ∨
        ∃ other ∈ e.immutables.drop 1, entry ∈ other.table.entries}
      = historyEntries history immutable.largestSequence := by
  have hmem : immutable ∈ e.immutables := himmutables ▸ List.mem_cons_self ..
  have hordered := hinv.ascending.ordered
  have hdrop : e.immutables.drop 1 = immutables := by rw [himmutables]; rfl
  have hlast := hinv.ascending.last_le hmem
  rw [himmutables] at hordered
  -- What remains is newer than the oldest immutable memtable.
  have hsplit : ∀ entry, (entry ∈ e.mutable.table.entries ∨
      ∃ other ∈ e.immutables.drop 1, entry ∈ other.table.entries) ↔
        entry ∈ e.memEntries ∧ immutable.largestSequence < entry.key.sequence := by
    intro entry
    rw [hdrop]
    constructor
    · rintro (hentry | ⟨other, hother, hentry⟩)
      · exact ⟨.inl hentry, hinv.ascending.mutable_newest immutable hmem entry hentry⟩
      · exact ⟨.inr ⟨other, himmutables ▸ List.mem_cons_of_mem _ hother, hentry⟩,
          (List.pairwise_cons.mp hordered).1 other hother entry hentry⟩
    · rintro ⟨hentry | ⟨other, hother, hentry⟩, hlt⟩
      · exact .inl hentry
      · rw [himmutables] at hother
        rcases List.mem_cons.mp hother with rfl | hother
        · exact absurd hlt (not_lt.mpr (hinv.ascending.above _ hmem entry hentry).2)
        · exact .inr ⟨other, hother, hentry⟩
  ext entry
  rw [Set.mem_ofPred_eq, hsplit, h.mem]
  constructor
  · rintro ⟨⟨sequence, batch, -, hcommitted, hentry⟩, hlt⟩
    exact ⟨sequence, batch, (mem_batchEntries hentry).1 ▸ hlt, hcommitted, hentry⟩
  · rintro ⟨sequence, batch, hlt, hcommitted, hentry⟩
    exact ⟨⟨sequence, batch, hlast.trans_lt hlt, hcommitted, hentry⟩,
      (mem_batchEntries hentry).1.symm ▸ hlt⟩

/-- WALs are removed that no memtable needs. -/
theorem Recorded.retireObsoleteWals (h : Recorded history floor clock e)
    (hlog : e.directory.manifest.counters.logNumber = e.oldestRequiredWal)
    (hactive : e.oldestRequiredWal ≤ e.directory.manifest.counters.activeLogNumber) :
    wp (Engine.retireObsoleteWals faults) (fun _ e' ↦ Recorded history floor clock e') e := by
  refine wp_mono wp_retireObsoleteWals_faults ?_
  rintro r _ ⟨wals, walNumbers, hsub, hkept, rfl⟩
  have hnumbers : ∀ number ∈ e.directory.wals.map (·.number), e.oldestRequiredWal ≤ number →
      number ∈ wals.map (·.number) := by
    intro number hmem hle
    obtain ⟨segment, hsegment, rfl⟩ := List.mem_map.mp hmem
    exact List.mem_map.mpr ⟨segment, hkept segment hsegment hle, rfl⟩
  have hpending : ∀ segment, segment ∈ ({ e.directory with wals } : Directory).pending ↔
      segment ∈ e.directory.pending := by
    intro segment
    rw [Directory.mem_pending, Directory.mem_pending]
    refine and_congr_left fun ⟨_, hle⟩ ↦ ⟨fun hsegment ↦ hsub.subset hsegment, fun hsegment ↦ ?_⟩
    exact hkept segment hsegment (hlog ▸ hle)
  refine { h with
    files := fun number hmem ↦
      hnumbers number (h.files number hmem) (e.oldestRequiredWal_le hmem)
    divided := fun immutable himmutable segment hsegment ↦
      h.divided immutable himmutable segment ((hpending segment).mp hsegment)
    durable := h.durable.wals hpending fun number hmem hold ↦ hnumbers number hold ?_ }
  rcases List.mem_cons.mp hmem with rfl | hmem
  · exact hlog.ge
  · rw [List.mem_singleton.mp hmem]
    exact hactive

theorem Recorded.publishFlush (h : Recorded history floor clock e) (hinv : Inv e)
    (hback : Backlog limit e) {immutable : ImmutableMemTable} {immutables : List ImmutableMemTable}
    (himmutables : e.immutables = immutable :: immutables) {built : Result FileMeta}
    (hbuilt : ∀ file, built = .ok file → Ready e immutable file ∧ file.number < e.nextFileNumber) :
    wp (Engine.publishFlush faults immutable built)
      (fun _ e' ↦ Recorded history floor clock e') e := by
  have hmem : immutable ∈ e.immutables := himmutables ▸ List.mem_cons_self ..
  unfold Engine.publishFlush
  refine wp_lift_bind (fun _ _ ↦ h) fun file hfile ↦ ?_
  obtain ⟨hready, hlt⟩ := hbuilt file hfile
  rw [wp_get_bind]
  obtain ⟨hoff_mem, hoff_le⟩ :=
    foldr_min_mem ((e.immutables.drop 1).map (·.walNumber)) e.mutable.walNumber
  set edit : VersionEdit := e.flushEdit immutable file with hedit
  obtain ⟨versions, happly, hsound, -, hcounters, hversion⟩ :=
    hinv.exists_publication hmem hready.used_lt hlt hready.table hready.covers
  have haccepted := accepted_append h.accepted happly hsound
  have hle : e.directory.manifest.counters.Le versions.counters := by
    rw [hinv.manifest]
    exact VersionState.le_of_apply happly
  have hdurable : Durable history floor clock { e.directory with manifest := versions } := by
    refine h.durable.flush hsound ?_ hready.table ?_ hle ?_ ?_ ?_ ?_
    · rw [hinv.manifest]
      exact hversion
    · rw [hinv.manifest, hcounters]
      exact h.mem_oldest_iff hinv himmutables
    · intro segment hsegment record hrecord
      rw [hcounters]
      exact (h.divided immutable hmem segment hsegment record hrecord).trans
        (hback.lt_oldest_iff himmutables (hback.covered segment hsegment)).symm
    · rw [hcounters]
      have hlargest := Fin.lt_def.mp (hinv.ascending.largest_lt immutable hmem)
      show immutable.largestSequence.val ≤ _
      have := h.next
      omega
    · rw [hcounters]
      show e.versions.counters.walSequence.val ≤ _
      rw [← hinv.manifest]
      exact h.durable.wal_le
    · rw [hcounters]
      intro number hnumber
      rcases List.mem_cons.mp hnumber with rfl | hnumber
      · exact h.files _ (e.requiredWals_flush.subset hoff_mem)
      · rw [List.mem_singleton.mp hnumber]
        exact h.files _ e.walNumber_mem
  rw [wp_bind]
  refine wp_applyEdit_kept hinv.usable happly (fun error usable manifest hcases ↦ ?_) ?_
  · exact h.edit_fails hle hdurable haccepted hcases
  dsimp only
  rw [wp_modify_bind]
  have hpublished : Recorded history floor clock { e with
      edits := e.edits ++ [(e.versions, edit)]
      versions
      immutables := e.immutables.drop 1
      directory := { e.directory with manifest := versions } } := by
    refine ⟨⟨h.next, ?_, fun number hnumber ↦
      h.files number (e.requiredWals_flush.subset hnumber), ?_⟩, hdurable, haccepted⟩
    · rw [hcounters]
      exact h.mem_drop hinv himmutables
    · intro other hother segment hsegment
      exact h.divided other (List.mem_of_mem_drop hother) segment
        ((Directory.pending_edit hle).subset hsegment)
  refine hpublished.retireObsoleteWals ?_ ?_
  · rw [hcounters]
    rfl
  · rw [hcounters]
    exact hoff_le _ (List.mem_append_right _ (List.mem_singleton.mpr rfl))

theorem Recorded.finishFlush (h : Recorded history floor clock e) (hinv : Inv e)
    (hback : Backlog limit e) {immutable : ImmutableMemTable} {immutables : List ImmutableMemTable}
    (himmutables : e.immutables = immutable :: immutables) {built : Result FileMeta}
    (hbuilt : ∀ file, built = .ok file → Ready e immutable file ∧ file.number < e.nextFileNumber) :
    wp (Engine.finishFlush faults immutable built)
      (fun _ e' ↦ Recorded history floor clock e') e := by
  unfold Engine.finishFlush
  rw [wp_bind, wp_tryCatch, wp_bind]
  refine wp_mono (h.publishFlush hinv hback himmutables hbuilt) fun r e₁ h₁ ↦ ?_
  cases r with
  | ok u =>
    dsimp only
    rw [wp_pure]
    dsimp only
    rw [wp_bind, wp_modify]
    exact { h₁ with }
  | error error =>
    dsimp only
    rw [wp_pure]
    dsimp only
    rw [wp_modify_bind, wp_bind]
    exact wp_recordBackgroundFailure fun failure _ ↦ { h₁ with }

/-! ## Compacting -/

section Compacting

variable {options : Options} {oldestActiveSnapshot : Option SequenceNumber} {readTimeUnixMs : U64}
  {fileSize : U64 → U64} {plan : CompactionPlan}

theorem Recorded.executeValidCompactionPlan (h : Recorded history floor clock e) (hinv : Inv e)
    (hreplaceable : Replaceable e.versions.version plan)
    (hsnapshot : ∀ snapshot ∈ oldestActiveSnapshot, snapshot.val ≤ floor)
    (hnone : oldestActiveSnapshot = none → history.length ≤ floor)
    (htime : readTimeUnixMs ≤ clock) :
    wp (Engine.executeValidCompactionPlan (e.compactionContext options faults oldestActiveSnapshot
        readTimeUnixMs fileSize) faults plan) (fun _ e' ↦ Recorded history floor clock e') e := by
  set context := e.compactionContext options faults oldestActiveSnapshot readTimeUnixMs fileSize
    with hcontext
  unfold Engine.executeValidCompactionPlan
  refine wp_lift_bind (fun _ _ ↦ h) fun ⟨outputs, next⟩ hrun ↦ ?_
  have hopen := openTable_of_compactionRun hrun
  obtain ⟨hold, houtputs⟩ := tables_of_compactionRun e.directory hopen
    (hreplaceable.union hinv.sound.layered) hrun
  obtain ⟨versions, happly, hsound, -, hcounters, -, blocks', hcompacts⟩ :=
    hinv.sound.exists_compaction hreplaceable rfl hopen hinv.next_le hrun hold houtputs
  have haccepted := accepted_append h.accepted happly hsound
  dsimp only
  rw [wp_modify_bind, wp_bind, foldl_addTable]
  set tables := (outputs.foldl (fun d output ↦ d.addTable output.file.number output.entries)
    e.directory).tables
  have hbuilt :
      Recorded history floor clock { e with directory := { e.directory with tables } } := by
    refine { h with durable := h.durable.tables fun number hnumber ↦ hold number ?_ }
    rw [hinv.manifest] at hnumber
    exact (hinv.sound.used_lt number hnumber).trans_le hinv.next_le
  have hle : e.directory.manifest.counters.Le versions.counters := by
    rw [hinv.manifest]
    exact VersionState.le_of_apply happly
  have hdurable : Durable history floor clock
      { e.directory with manifest := versions, tables } := by
    rw [← hinv.manifest] at hcounters hcompacts
    exact h.durable.compact hsound hcounters hcompacts hsnapshot
      (fun hnil ↦ h.durable.last_le.trans (hnone hnil)) htime
  refine wp_applyEdit_kept hinv.usable happly (fun error usable manifest hcases ↦ ?_) ?_
  · exact hbuilt.edit_fails hle hdurable haccepted hcases
  dsimp only
  rw [wp_modify_bind]
  have hlast : versions.counters.lastSequence = e.versions.counters.lastSequence := by
    rw [hcounters]
  have hedited : Remembers history { e with
      edits := e.edits ++ [(e.versions, plan.edit (outputs.map (·.file)) next)]
      versions
      directory := { e.directory with manifest := versions, tables } } :=
    hbuilt.toRemembers.edit hlast hle
  exact wp_perform_id fun r ↦ ⟨{ hedited with }, hdurable, haccepted⟩

theorem Recorded.executeCompactionPlan (h : Recorded history floor clock e) (hinv : Inv e)
    (hreplaceable : validateCompactionPlan plan e.versions.version = .ok () →
      Replaceable e.versions.version plan)
    (hsnapshot : ∀ snapshot ∈ oldestActiveSnapshot, snapshot.val ≤ floor)
    (hnone : oldestActiveSnapshot = none → history.length ≤ floor)
    (htime : readTimeUnixMs ≤ clock) :
    wp (Engine.executeCompactionPlan options faults oldestActiveSnapshot readTimeUnixMs fileSize
      plan) (fun _ e' ↦ Recorded history floor clock e') e := by
  unfold Engine.executeCompactionPlan
  rw [wp_get_bind]
  refine wp_lift_bind (fun _ _ ↦ h) fun _ _ ↦ ?_
  rw [wp_ite]
  refine ⟨fun _ ↦ h, fun _ ↦ ?_⟩
  refine wp_lift_bind (fun _ _ ↦ h) fun _ hvalid ↦ ?_
  rw [wp_tryCatch, wp_bind]
  refine wp_mono (h.executeValidCompactionPlan hinv (hreplaceable hvalid) hsnapshot hnone htime)
    fun r e' h' ↦ ?_
  cases r <;> exact h'

theorem Recorded.failCompaction (h : Recorded history floor clock e) {error : Error} :
    wp (Engine.failCompaction error) (fun _ e' ↦ Recorded history floor clock e') e := by
  unfold Engine.failCompaction
  rw [wp_bind]
  exact wp_recordBackgroundFailure fun _ _ ↦ { h with }

end Compacting

end Engine

end MeteorDB
