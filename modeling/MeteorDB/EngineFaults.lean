import MeteorDB.EngineReads

/-!
# Sections under filesystem failures

Any step of a section may fail here, with or without having taken effect. What a failure leaves
behind is less than `Engine.Inv`: the manifest on disk may be ahead of the memory, and WALs may be
missing or unknown. But an edit reaches the memory only after the version set has accepted it, so
what reads rest on (`Core`) is kept by every section, and a section still changes the engine in no
other way than one that runs without failures does.

`Announces` is what the waiting worker relies on: a section that leaves the engine running has
either queued no memtable or asks for a wake-up, and each wake-up it asks for has cost it a file
number.
-/

namespace MeteorDB

open Attempt OrderedList

namespace Engine

variable {e e' : Engine} {faults : Faults}

/-! ## Rules for the steps -/

/-- An edit is installed, or the versions in memory stay as they are. -/
theorem wp_applyEdit_faults {edit : VersionEdit} {q : Result PUnit → Engine → Prop}
    (herror : ∀ error manifestUsable manifest edits, Unapplied e edit manifestUsable manifest →
      q (.error error) { e with
        manifestUsable, edits, directory := { e.directory with manifest } })
    (hok : ∀ versions edits, e.manifestUsable = true → e.versions.apply false edit = .ok versions →
      q (.ok ()) { e with
        edits, versions, directory := { e.directory with manifest := versions } }) :
    wp (applyEdit faults edit) q e := by
  by_cases husable : e.manifestUsable = true
  · exact wp_applyEdit_usable husable (fun error usable manifest ↦ herror error usable manifest _)
      fun versions ↦ hok versions _ husable
  · unfold applyEdit
    rw [wp_get_bind, wp_ite]
    exact ⟨fun h ↦ absurd h husable, fun _ ↦ herror _ _ _ _ (.inl ⟨rfl, id⟩)⟩

/-! ## Wake-ups -/

/-- If the engine is still running after a section, then it was before, the section queued no
memtable unless it asks for a wake-up, and a wake-up has cost a file number. -/
def Announces (woken : Bool) (engine engine' : Engine) : Prop :=
  engine'.Live → engine.Live ∧
    engine.nextFileNumber.val + woken.toNat ≤ engine'.nextFileNumber.val ∧
    (woken = false → engine'.immutables = engine.immutables)

theorem Announces.refl (e : Engine) : Announces false e e :=
  fun hlive ↦ ⟨hlive, le_refl _, fun _ ↦ rfl⟩

theorem Announces.of_not_live {woken : Bool} (h : ¬ e'.Live) : Announces woken e e' :=
  fun hlive ↦ absurd hlive h

theorem not_live_of_failure {failure : TerminalFailure} (h : e.terminalFailure = some failure) :
    ¬ e.Live := by
  rintro ⟨hnone, -⟩
  rw [hnone] at h
  cases h

/-! ## Rotating -/

theorem Core.rotateMemtable (h : Core e) (hne : e.mutable.table.entries ≠ [])
    {largestSequence : SequenceNumber}
    (hlargest : largestSequence.val + 1 = e.nextSequence.val) :
    wp (rotateMemtable faults largestSequence) (fun r e' ↦ Core e' ∧ Extends e e' ∧
      SameStatus e e' ∧ (r = .ok () → e.nextFileNumber < e'.nextFileNumber)) e := by
  unfold Engine.rotateMemtable
  rw [wp_bind]
  refine wp_allocateFileNumber (fun _ error ↦ ⟨h, .refl e, ⟨rfl, rfl⟩, nofun⟩)
    fun next hnumber hnext ↦ ?_
  have hlt : e.nextFileNumber < next := Fin.lt_def.mpr (by omega)
  have hnext_le := h.next_le.trans hlt.le
  have hframe : ∀ {directory : Directory}, directory.tables = e.directory.tables →
      Extends e { e with nextFileNumber := next, directory } := fun htables ↦
    { Extends.refl e with tables := fun _ _ ↦ by rw [htables], next_le := hlt.le }
  dsimp only
  rw [wp_bind]
  refine wp_perform_faults ?_ (fun error ↦ ⟨{ h with next_le := hnext_le }, hframe rfl, ⟨rfl, rfl⟩,
    nofun⟩) fun error ↦ ⟨{ h with next_le := hnext_le }, hframe rfl, ⟨rfl, rfl⟩, nofun⟩
  dsimp only
  rw [wp_get_bind, wp_bind]
  refine wp_applyEdit_faults (fun error usable manifest edits _ ↦ ?_)
    fun versions edits _ happly ↦ ?_
  · exact ⟨{ h with next_le := hnext_le }, { hframe rfl with }, ⟨rfl, rfl⟩, nofun⟩
  obtain ⟨hsound, hused, hcounters, hsame⟩ := h.sound.counters ⟨rfl, rfl⟩ happly
  rw [wp_modify]
  refine ⟨⟨hsound, ?_, ?_⟩, ⟨⟨fun _ _ ↦ rfl, hused, hsame, by rw [hcounters]; rfl, hlt.le,
    List.prefix_append _ _, rfl⟩, ?_, rfl⟩, ⟨rfl, rfl⟩, fun _ ↦ hlt⟩
  · rw [hcounters]
    exact le_refl _
  · rw [hcounters]
    exact h.ascending.rotate hne hlargest _
  · exact memEntries_rotate rfl rfl

/-! ## Writing -/

private theorem wp_appendWal_faults {options : Options} {sequence : SequenceNumber}
    {batch : WriteBatch} :
    wp (appendWal options faults sequence batch)
      (fun _ e' ↦ ∃ wals, e' = { e with directory := { e.directory with wals } }) e := by
  have hsame : ∃ wals, e = { e with directory := { e.directory with wals } } :=
    ⟨e.directory.wals, rfl⟩
  unfold appendWal
  rw [wp_get_bind]
  refine wp_lift_bind (fun _ _ ↦ hsame) fun writer _ ↦ ?_
  refine wp_lift_bind (fun _ _ ↦ hsame) fun bytes _ ↦ ?_
  exact wp_perform_faults ⟨_, rfl⟩ (fun _ ↦ hsame) fun _ ↦ ⟨_, rfl⟩

/-- What a write does: it has written its batch if it returns. -/
def WriteResult (prepare : Result WriteBatch) (engine : Engine) (r : Result Bool)
    (engine' : Engine) : Prop :=
  match r with
  | .ok woken => (∃ batch, prepare = .ok batch ∧ Wrote engine batch engine') ∧
      Announces woken engine engine'
  | .error _ => Extends engine engine' ∧ Announces false engine engine'

theorem Core.writeSerialized (h : Core e) {options : Options} {prepare : Result WriteBatch} :
    wp (Engine.writeSerialized options faults prepare)
      (fun r e' ↦ Core e' ∧ WriteResult prepare e r e') e := by
  have hsame : ∀ error, Core e ∧ WriteResult prepare e (.error error) e :=
    fun _ ↦ ⟨h, .refl e, .refl e⟩
  unfold Engine.writeSerialized
  rw [wp_get_bind]
  refine wp_lift_bind (fun error _ ↦ hsame error) fun _ hwritable ↦ ?_
  refine wp_lift_bind (fun error _ ↦ hsame error) fun batch hprepare ↦ ?_
  refine wp_lift_bind (fun error _ ↦ hsame error) fun _ hvalidate ↦ ?_
  rw [wp_get_bind, wp_ite]
  refine ⟨fun _ ↦ hsame _, fun _ ↦ ?_⟩
  rw [wp_ite]
  refine ⟨fun _ ↦ hsame _, fun hmax ↦ ?_⟩
  have hlt : e.nextSequence.val < maxU64 := by
    have := e.nextSequence.isLt
    unfold maxU64 at hmax ⊢
    omega
  have hlive : e.Live := ensureWritable_eq_ok.mp hwritable
  rw [wp_bind]
  refine wp_orTerminal (wp_mono wp_appendWal_faults ?_)
  rintro r _ ⟨wals, rfl⟩
  have hlogged : Core { e with directory := { e.directory with wals } } := { h with }
  cases r with
  | error error =>
    exact fun failure _ ↦ ⟨{ hlogged with }, { Extends.refl e with },
      .of_not_live (not_live_of_failure rfl)⟩
  | ok u =>
  dsimp only
  rw [wp_bind]
  refine wp_mono (hlogged.commit (validateBatch_eq_ok hvalidate) hlt) fun r e₂ h₂ ↦ ?_
  obtain ⟨rfl, hcore, hwrote, hne, -, heq, -⟩ := h₂
  have hwrote : Wrote e batch e₂ := { hwrote with }
  have hnext : e₂.nextFileNumber = e.nextFileNumber := by rw [heq]
  have hquiet : Announces false e e₂ :=
    fun _ ↦ ⟨hlive, by rw [hnext]; exact le_refl _, fun _ ↦ by rw [heq]⟩
  dsimp only
  rw [wp_get_bind, wp_ite]
  refine ⟨fun _ ↦ ?_, fun _ ↦ ⟨hcore, ⟨batch, hprepare, hwrote⟩, hquiet⟩⟩
  have hlargest : e.nextSequence.val + 1 = e₂.nextSequence.val := by
    rw [hwrote.nextSequence, Fin.val_add_one_of_lt' (by unfold maxU64 at hlt; omega)]
  rw [wp_tryCatch, wp_bind]
  refine wp_mono (hcore.rotateMemtable hne hlargest) fun r e₃ h₃ ↦ ?_
  obtain ⟨hcore₃, hextends, -, hrotated⟩ := h₃
  cases r with
  | ok u =>
    refine ⟨hcore₃, ⟨batch, hprepare, hwrote.trans hextends⟩, fun _ ↦ ⟨hlive, ?_, nofun⟩⟩
    exact hnext ▸ Fin.lt_def.mp (hrotated rfl)
  | error error =>
    -- The batch has been written; only the rotation failed.
    dsimp only
    rw [wp_bind]
    refine wp_recordTerminalFailure fun failure _ ↦ ?_
    have hsame : Extends e₃ { e₃ with terminalFailure := some failure } :=
      { Extends.refl e₃ with }
    exact ⟨{ hcore₃ with }, ⟨batch, hprepare, (hwrote.trans hextends).trans hsame⟩,
      .of_not_live (not_live_of_failure rfl)⟩

/-! ## Synchronizing and closing -/

theorem wp_syncOwnedWals_faults : wp (syncOwnedWals faults) (fun _ e' ↦ e' = e) e := by
  unfold syncOwnedWals
  rw [wp_bind, wp_get]
  refine wp_forM (p := (· = e)) rfl (fun _ he' ↦ he') fun number _ e' he' ↦ wp_perform_id fun r ↦ ?_
  cases r <;> exact he'

/-- A section that changes nothing in memory but counters of the manifest and the status. -/
structure Settles (engine engine' : Engine) : Prop extends Extends engine engine' where
  immutables_eq : engine'.immutables = engine.immutables
  next_eq : engine'.nextFileNumber = engine.nextFileNumber

theorem Settles.refl (e : Engine) : Settles e e := ⟨.refl e, rfl, rfl⟩

theorem Settles.announces (h : Settles e e') (hlive : e'.Live → e.Live) : Announces false e e' :=
  fun hlive' ↦ ⟨hlive hlive', by rw [h.next_eq]; exact le_refl _, fun _ ↦ h.immutables_eq⟩

theorem Core.persistWalState (h : Core e) :
    wp (Engine.persistWalState faults)
      (fun _ e' ↦ Core e' ∧ Settles e e' ∧ SameStatus e e') e := by
  unfold Engine.persistWalState
  rw [wp_get_bind]
  refine wp_applyEdit_faults (fun error usable manifest edits _ ↦ ?_)
    fun versions edits _ happly ↦ ?_
  · exact ⟨{ h with }, { Settles.refl e with }, rfl, rfl⟩
  obtain ⟨hsound, hused, hcounters, hsame⟩ := h.sound.counters ⟨rfl, rfl⟩ happly
  refine ⟨⟨hsound, ?_, ?_⟩,
    { Settles.refl e with used := hused, version := hsame, lastSequence := ?_ }, rfl, rfl⟩
  · rw [hcounters]
    exact le_refl _
  · rw [hcounters]
    exact h.ascending
  · rw [hcounters]
    rfl

theorem Core.sync (h : Core e) :
    wp (Engine.sync faults) (fun _ e' ↦ Core e' ∧ Settles e e' ∧ Announces false e e') e := by
  unfold Engine.sync
  rw [wp_get_bind]
  refine wp_lift_bind (fun _ _ ↦ ⟨h, .refl e, .refl e⟩) fun _ hwritable ↦ ?_
  have hlive : e.Live := ensureWritable_eq_ok.mp hwritable
  have hfailed : ∀ {e₁ : Engine}, Core e₁ → Settles e e₁ → ∀ failure,
      Core { e₁ with terminalFailure := some failure } ∧
        Settles e { e₁ with terminalFailure := some failure } ∧
        Announces false e { e₁ with terminalFailure := some failure } :=
    fun hcore hsettles failure ↦ ⟨{ hcore with }, { hsettles with },
      .of_not_live (not_live_of_failure rfl)⟩
  rw [wp_bind]
  refine wp_orTerminal (wp_mono wp_syncOwnedWals_faults ?_)
  rintro r _ rfl
  cases r with
  | error error => exact fun failure _ ↦ hfailed h (.refl _) failure
  | ok u =>
  refine wp_orTerminal (wp_mono h.persistWalState fun r e₁ h₁ ↦ ?_)
  obtain ⟨hcore, hsettles, -⟩ := h₁
  cases r with
  | error error => exact fun failure _ ↦ hfailed hcore hsettles failure
  | ok u => exact ⟨hcore, hsettles, hsettles.announces fun _ ↦ hlive⟩

theorem Core.close (h : Core e) :
    wp (Engine.close faults) (fun _ e' ↦ Core e' ∧ Settles e e' ∧ ¬ e'.Live) e := by
  have hclosed : ∀ e₁ : Engine, e₁.closed = true → ¬ e₁.Live := by
    rintro e₁ hclosed ⟨-, hopen⟩
    rw [hclosed] at hopen
    cases hopen
  unfold Engine.close
  rw [wp_get_bind]
  cases e.terminalFailure with
  | some failure => exact ⟨{ h with }, { Settles.refl e with }, hclosed _ rfl⟩
  | none =>
  dsimp only
  rw [wp_ite]
  refine ⟨fun hopen ↦ ⟨h, .refl e, hclosed _ hopen⟩, fun _ ↦ ?_⟩
  have hfail : ∀ {e₁ : Engine}, Core e₁ → Settles e e₁ → ∀ error,
      wp (do
        let error ← recordTerminalFailure error
        modify fun engine ↦ { engine with closed := true }
        throw error : Section Unit) (fun r e' ↦ Core e' ∧ Settles e e' ∧
          (r = .ok () ∨ ¬ e'.Live)) e₁ := by
    intro e₁ hcore hsettles error
    rw [wp_bind]
    exact wp_recordTerminalFailure fun failure _ ↦
      ⟨{ hcore with }, { hsettles with }, .inr (hclosed _ rfl)⟩
  rw [wp_bind]
  refine wp_mono (p := fun r e' ↦ Core e' ∧ Settles e e' ∧ (r = .ok () ∨ ¬ e'.Live)) ?_
    fun r e' h' ↦ ?_
  · rw [wp_tryCatch, wp_bind]
    refine wp_mono wp_syncOwnedWals_faults ?_
    rintro r _ rfl
    cases r with
    | error error => exact hfail h (.refl _) error
    | ok u =>
    refine wp_mono h.persistWalState fun r e₁ h₁ ↦ ?_
    obtain ⟨hcore, hsettles, -⟩ := h₁
    cases r with
    | error error => exact hfail hcore hsettles error
    | ok u => exact ⟨hcore, hsettles, .inl rfl⟩
  · obtain ⟨hcore, hsettles, hresult⟩ := h'
    cases r with
    | error error => exact ⟨hcore, hsettles, hresult.resolve_left nofun⟩
    | ok u => exact ⟨{ hcore with }, { hsettles with }, hclosed _ rfl⟩

/-! ## Flushing -/

theorem Core.flushRotate (h : Core e) (hlive : e.Live) :
    wp (Engine.flushRotate faults) (fun r e' ↦ Core e' ∧ Extends e e' ∧ match r with
      | .ok woken => Announces woken e e'
      | .error _ => Announces false e e') e := by
  unfold Engine.flushRotate
  rw [wp_get_bind, wp_ite]
  refine ⟨fun _ ↦ ⟨h, .refl e, .refl e⟩, fun hnot ↦ ?_⟩
  have hne : e.mutable.table.entries ≠ [] := fun hnil ↦ hnot (List.isEmpty_iff.mpr hnil)
  have hlargest : (saturatingPred e.nextSequence).val + 1 = e.nextSequence.val := by
    have hpos := Fin.lt_def.mp h.ascending.last_lt
    rw [saturatingPred_val]
    omega
  rw [wp_bind]
  refine wp_orTerminal (wp_mono (h.rotateMemtable hne hlargest) fun r e' h' ↦ ?_)
  obtain ⟨hcore, hextends, -, hrotated⟩ := h'
  cases r with
  | error error =>
    exact fun failure _ ↦ ⟨{ hcore with }, { hextends with },
      .of_not_live (not_live_of_failure rfl)⟩
  | ok u => exact ⟨hcore, hextends, fun _ ↦ ⟨hlive, Fin.lt_def.mp (hrotated rfl), nofun⟩⟩

theorem Core.flushEnter (h : Core e) {options : Options} :
    wp (Engine.flushEnter options faults) (fun r e' ↦ Core e' ∧ Extends e e' ∧ match r with
      | .ok (_, woken) => Announces woken e e'
      | .error _ => Announces false e e') e := by
  unfold Engine.flushEnter
  rw [wp_get_bind]
  refine wp_lift_bind (fun _ _ ↦ ⟨h, .refl e, .refl e⟩) fun _ hwritable ↦ ?_
  rw [wp_get_bind, wp_ite]
  refine ⟨fun _ ↦ ⟨h, .refl e, .refl e⟩, fun _ ↦ ?_⟩
  rw [wp_bind]
  refine wp_mono (h.flushRotate (ensureWritable_eq_ok.mp hwritable)) fun r e' h' ↦ ?_
  cases r with
  | error error => exact h'
  | ok woken =>
  dsimp only
  rw [wp_get_bind, wp_ite]
  exact ⟨fun _ ↦ h', fun _ ↦ h'⟩

theorem wp_retireObsoleteWals_faults :
    wp (retireObsoleteWals faults) (fun _ e' ↦ ∃ wals walNumbers,
      List.Sublist wals e.directory.wals ∧
      (∀ segment ∈ e.directory.wals, e.oldestRequiredWal ≤ segment.number → segment ∈ wals) ∧
      e' = { e with directory := { e.directory with wals }, walNumbers }) e := by
  unfold retireObsoleteWals
  rw [wp_get_bind, wp_bind]
  refine wp_forM (p := fun e' ↦ ∃ wals walNumbers, List.Sublist wals e.directory.wals ∧
      (∀ segment ∈ e.directory.wals, e.oldestRequiredWal ≤ segment.number → segment ∈ wals) ∧
      e' = { e with directory := { e.directory with wals }, walNumbers })
    ⟨_, _, List.Sublist.refl _, fun _ hsegment _ ↦ hsegment, rfl⟩ ?_ ?_
  · intro e' hframe
    dsimp only
    rw [wp_ite]
    exact ⟨fun _ ↦ wp_perform_id fun _ ↦ hframe, fun _ ↦ hframe⟩
  · rintro number hnumber _ ⟨wals, walNumbers, hsub, hkept, rfl⟩
    have hobsolete : number < e.oldestRequiredWal := by
      simpa using List.mem_takeWhile_imp hnumber
    have hsub' : List.Sublist (wals.filter (·.number ≠ number)) e.directory.wals :=
      List.filter_sublist.trans hsub
    have hkept' : ∀ segment ∈ e.directory.wals, e.oldestRequiredWal ≤ segment.number →
        segment ∈ wals.filter (·.number ≠ number) := fun segment hsegment hle ↦
      List.mem_filter.mpr ⟨hkept segment hsegment hle, by simpa using (hobsolete.trans_le hle).ne'⟩
    rw [wp_bind]
    exact wp_perform_faults ⟨_, _, hsub', hkept', rfl⟩ (fun _ ↦ ⟨_, _, hsub, hkept, rfl⟩)
      fun _ ↦ ⟨_, _, hsub', hkept', rfl⟩

/-- A table that the oldest immutable memtable can be replaced by. -/
structure Ready (engine : Engine) (immutable : ImmutableMemTable) (file : FileMeta) : Prop where
  used_lt : ∀ used ∈ engine.versions.usedFileNumbers, used < file.number
  table : engine.directory.tables file.number = some immutable.table.entries
  covers : ∀ entry ∈ immutable.table.entries, file.Covers entry.key.userKey

/-- The edit is installed before the WALs are retired, so a flush that fails may have been
published. -/
theorem Core.publishFlush (h : Core e) {immutable : ImmutableMemTable}
    {immutables : List ImmutableMemTable} (himmutables : e.immutables = immutable :: immutables)
    {built : Result FileMeta} (hbuilt : ∀ file, built = .ok file → Ready e immutable file) :
    wp (Engine.publishFlush faults immutable built) (fun _ e' ↦ Core e' ∧
      ((∃ file, PublishedFlush e immutable file e') ∨ Settles e e') ∧ SameStatus e e' ∧
      e'.backgroundFailure = e.backgroundFailure) e := by
  have hmem : immutable ∈ e.immutables := himmutables ▸ List.mem_cons_self ..
  have hdrop : e.immutables = immutable :: e.immutables.drop 1 := by rw [himmutables]; rfl
  unfold Engine.publishFlush
  refine wp_lift_bind (fun _ _ ↦ ⟨h, .inr (.refl e), ⟨rfl, rfl⟩, rfl⟩) fun file hfile ↦ ?_
  have hready := hbuilt file hfile
  rw [wp_get_bind, wp_bind]
  refine wp_applyEdit_faults (fun error usable manifest edits _ ↦ ?_)
    fun versions edits _ happly ↦ ?_
  · exact ⟨{ h with }, .inr { Settles.refl e with }, ⟨rfl, rfl⟩, rfl⟩
  have hflushed := h.flushed hmem hready.used_lt hready.table hready.covers
  obtain ⟨hsound, hused, hcounters, hversion⟩ := h.sound.flush hflushed rfl rfl rfl happly
  dsimp only
  rw [wp_modify_bind]
  refine wp_mono wp_retireObsoleteWals_faults ?_
  rintro r _ ⟨wals, walNumbers, -, -, rfl⟩
  refine ⟨⟨hsound, ?_, ?_⟩, .inl ⟨file, hdrop, hready.used_lt, hready.table, rfl, hused, hversion,
    by rw [hcounters]; rfl, rfl, rfl, rfl⟩, ⟨rfl, rfl⟩, rfl⟩
  · rw [hcounters]
    exact le_refl _
  · have hascending := h.ascending
    rw [hdrop] at hascending
    rw [hcounters]
    exact hascending.flush

/-- What the second half of a flush ends with: a table is published, or nothing changes that can be
seen; a failure that was recorded before stays. -/
structure FinishResult (engine : Engine) (immutable : ImmutableMemTable) (engine' : Engine) :
    Prop where
  core : Core engine'
  published : (∃ file, PublishedFlush engine immutable file engine') ∨
    Settles { engine with flushRunning := false } engine'
  failure : ∀ failure, engine.terminalFailure = some failure →
    engine'.terminalFailure = some failure
  closed : engine'.closed = engine.closed
  flushRunning : engine'.flushRunning = false
  backgroundFailure : engine'.backgroundFailure = false → engine.backgroundFailure = false

/-- **The second half of a flush.** -/
theorem Core.finishFlush (h : Core e) {immutable : ImmutableMemTable}
    {immutables : List ImmutableMemTable} (himmutables : e.immutables = immutable :: immutables)
    {built : Result FileMeta} (hbuilt : ∀ file, built = .ok file → Ready e immutable file) :
    wp (Engine.finishFlush faults immutable built) (fun _ ↦ FinishResult e immutable) e := by
  unfold Engine.finishFlush
  rw [wp_bind, wp_tryCatch, wp_bind]
  refine wp_mono (h.publishFlush himmutables hbuilt) fun r e₁ h₁ ↦ ?_
  obtain ⟨hcore, hpublished, ⟨hclosed, hfailure⟩, hbackground⟩ := h₁
  -- Clearing the flag and recording a failure change nothing else.
  have hdone : ∀ terminalFailure backgroundFailure,
      Core { e₁ with flushRunning := false, terminalFailure, backgroundFailure } ∧
        ((∃ file, PublishedFlush e immutable file
            { e₁ with flushRunning := false, terminalFailure, backgroundFailure }) ∨
          Settles { e with flushRunning := false }
            { e₁ with flushRunning := false, terminalFailure, backgroundFailure }) := by
    intro terminalFailure backgroundFailure
    refine ⟨{ hcore with }, ?_⟩
    rcases hpublished with ⟨file, hpublished⟩ | hsettles
    · exact .inl ⟨file, { hpublished with }⟩
    · exact .inr { hsettles with flushRunning := rfl }
  cases r with
  | ok u =>
    dsimp only
    rw [wp_pure]
    dsimp only
    rw [wp_bind, wp_modify]
    obtain ⟨hcore', hpublished'⟩ := hdone e₁.terminalFailure e₁.backgroundFailure
    exact ⟨hcore', hpublished', fun failure hfailed ↦ hfailure.trans hfailed, hclosed, rfl,
      hbackground ▸ id⟩
  | error error =>
    dsimp only
    rw [wp_pure]
    dsimp only
    rw [wp_modify_bind, wp_bind]
    refine wp_recordBackgroundFailure fun failure hkept ↦ ?_
    obtain ⟨hcore', hpublished'⟩ := hdone (some failure) true
    refine ⟨hcore', hpublished', fun other hother ↦ ?_, hclosed, rfl, nofun⟩
    rcases hkept with hkept | hkept
    · exact absurd (hkept.symm.trans (hfailure.trans hother)) nofun
    · exact hkept.symm.trans (hfailure.trans hother)

/-! ## Compacting -/

variable {options : Options} {oldestActiveSnapshot : Option SequenceNumber} {readTimeUnixMs : U64}
  {fileSize : U64 → U64} {plan : CompactionPlan}

/-- A compaction that finishes has read all its tables. -/
theorem openTable_of_compactionRun {result : List CompactedTable × U64}
    (hrun : compactionRun (e.compactionContext options faults oldestActiveSnapshot readTimeUnixMs
      fileSize) plan = .ok result) :
    ∀ file ∈ plan.files,
      (e.compactionContext options faults oldestActiveSnapshot readTimeUnixMs fileSize).openTable
        file = .ok ((contentsOf e.directory.tables file).map .ok) := by
  obtain ⟨children, hchildren, -⟩ := Decoder.bind_eq_ok.mp hrun
  intro file hfile
  obtain ⟨child, hchild⟩ := Decoder.exists_of_mapM_eq_ok hchildren file hfile
  rw [hchild]
  unfold compactionContext at hchild
  dsimp only at hchild
  cases hfault : faults (.readTable file.number) with
  | some failure =>
    rw [hfault] at hchild
    cases hchild
  | none =>
    cases htable : e.directory.tables file.number with
    | none =>
      rw [hfault, htable] at hchild
      cases hchild
    | some entries =>
      rw [hfault, htable] at hchild
      rw [← Except.ok.inj hchild, contentsOf, htable]
      rfl

theorem Core.executeValidCompactionPlan (h : Core e)
    (hreplaceable : Replaceable e.versions.version plan) :
    wp (Engine.executeValidCompactionPlan (e.compactionContext options faults oldestActiveSnapshot
        readTimeUnixMs fileSize) faults plan) (fun r e' ↦ Core e' ∧ (Settles e e' ∧ r ≠ .ok () ∨
      PublishedCompaction e (e.compactionContext options faults oldestActiveSnapshot readTimeUnixMs
        fileSize) plan e') ∧ SameStatus e e') e := by
  set context := e.compactionContext options faults oldestActiveSnapshot readTimeUnixMs fileSize
    with hcontext
  unfold Engine.executeValidCompactionPlan
  refine wp_lift_bind (fun _ _ ↦ ⟨h, .inl ⟨.refl e, nofun⟩, rfl, rfl⟩) fun ⟨outputs, next⟩ hrun ↦ ?_
  have hopen := openTable_of_compactionRun hrun
  obtain ⟨hold, houtputs⟩ := tables_of_compactionRun e.directory hopen
    (hreplaceable.union h.sound.layered) hrun
  obtain ⟨versions, happly, hsound, hnext, hcounters, hused, hcompacts⟩ :=
    h.sound.exists_compaction hreplaceable rfl hopen h.next_le hrun hold houtputs
  have hwritten : e.versions.Sound (outputs.foldl
      (fun d output ↦ d.addTable output.file.number output.entries) e.directory).tables :=
    h.sound.tables_congr fun number hnumber ↦
      hold number ((h.sound.used_lt number hnumber).trans_le h.next_le)
  dsimp only
  rw [wp_modify_bind, wp_bind, foldl_addTable]
  refine wp_applyEdit_faults (fun error usable manifest edits _ ↦ ?_)
    fun versions' edits _ happly' ↦ ?_
  · exact ⟨{ h with sound := hwritten }, .inl ⟨{ Settles.refl e with tables := hold }, nofun⟩,
      rfl, rfl⟩
  obtain rfl := Except.ok.inj (happly.symm.trans happly')
  dsimp only
  rw [wp_modify_bind]
  have hlast : versions.counters.lastSequence = e.versions.counters.lastSequence := by
    rw [hcounters]
  refine wp_perform_id fun r ↦ ⟨⟨hsound, ?_, ?_⟩, .inr ⟨hold, ⟨outputs, next, hcompacts⟩, hused,
    hlast, rfl, rfl, rfl, hnext, rfl⟩, rfl, rfl⟩
  · rw [hcounters]
  · rw [hcounters]
    exact h.ascending

/-- **Executing a plan.** A plan that is refused changes nothing. One that fails may have been
published, since tables are reclaimed afterwards. -/
theorem Core.executeCompactionPlan (h : Core e)
    (hreplaceable : validateCompactionPlan plan e.versions.version = .ok () →
      Replaceable e.versions.version plan) :
    wp (Engine.executeCompactionPlan options faults oldestActiveSnapshot readTimeUnixMs fileSize
        plan) (fun r e' ↦ Core e' ∧ (match r with
      | .ok result => Settles e e' ∧ result ≠ .ok () ∨
          e.isFlushing = false ∧ Replaceable e.versions.version plan ∧
            PublishedCompaction e (e.compactionContext options faults oldestActiveSnapshot
              readTimeUnixMs fileSize) plan e'
      | .error _ => e' = e) ∧ SameStatus e e') e := by
  unfold Engine.executeCompactionPlan
  rw [wp_get_bind]
  refine wp_lift_bind (fun _ _ ↦ ⟨h, rfl, rfl, rfl⟩) fun _ _ ↦ ?_
  rw [wp_ite]
  refine ⟨fun _ ↦ ⟨h, rfl, rfl, rfl⟩, fun hflushing ↦ ?_⟩
  refine wp_lift_bind (fun _ _ ↦ ⟨h, rfl, rfl, rfl⟩) fun _ hvalid ↦ ?_
  have hplan := hreplaceable hvalid
  dsimp only
  rw [wp_tryCatch, wp_bind]
  refine wp_mono (h.executeValidCompactionPlan hplan) fun r e' h' ↦ ?_
  obtain ⟨hcore, hresult, hstatus⟩ := h'
  have hpublished := hresult.imp_right fun hpublished ↦
    (⟨by simpa using hflushing, hplan, hpublished⟩ : e.isFlushing = false ∧ _ ∧ _)
  cases r with
  | ok u => exact ⟨hcore, hpublished.imp_left fun hsettles ↦ absurd rfl hsettles.2, hstatus⟩
  | error error => exact ⟨hcore, hpublished.imp_left fun hsettles ↦ ⟨hsettles.1, nofun⟩, hstatus⟩

theorem wp_pickCompaction {divide : ℕ → ℕ → ℚ} :
    wp (Engine.pickCompaction options faults divide) (fun r e' ↦ e' = e ∧
      ∀ plan, r = .ok (some plan) → Planned e.versions.version plan) e := by
  unfold Engine.pickCompaction
  rw [wp_get_bind]
  refine wp_lift_bind (fun _ _ ↦ ⟨rfl, nofun⟩) fun _ _ ↦ ?_
  rw [wp_bind]
  refine wp_perform_id fun r ↦ ?_
  cases r with
  | error error => exact ⟨rfl, nofun⟩
  | ok u => exact ⟨rfl, fun plan hplan ↦ CompactionPicker.planned_of_pick (Except.ok.inj hplan)⟩

end Engine

end MeteorDB
