import MeteorDB.Lib.LogFile
import MeteorDB.Manifest

/-!
# The version set

The version set owns the manifest: it creates it, recovers from it, and appends to it. `create`
installs a manifest with one edit and then a `CURRENT` file that names it; `recover` replays the
manifest, cuts off a torn tail and resumes behind it; `applyWithVisibility` synchronizes the tables
an edit adds, appends the edit, synchronizes the manifest, and only then takes over the new state.
The advisory lock on the directory is not modelled: a directory has one version set at a time.

Opening a file is modelled as reading it. Failed writes are told apart by whether the edit may
already be in the manifest, in which case the version set refuses further edits.
-/

namespace MeteorDB

open ByteString Decoder BlockLog CrashFs

variable [Crc32c]

/-! ## The name in `CURRENT` -/

/-- The text of some bytes. -/
def fromUtf8 (bytes : Bytes) : Option String :=
  String.fromUTF8? ⟨(bytes.map UInt8.ofFin).toArray⟩

def manifestName (number : U64) : String := (FileName.manifest number).display

/-- The number in the name of a manifest, which must have its canonical form. -/
def parseManifestNumber (name : String) : Result U64 :=
  match "MANIFEST-".toList.isPrefixOf? name.toList with
  | none => .error (manifestCorruption "CURRENT contains an invalid manifest name")
  | some digits =>
    if digits.length < 6 ∨ ¬ digits.all Char.isDigit then
      .error (manifestCorruption "CURRENT contains an invalid manifest name")
    else
      let number := digits.foldl (fun n digit ↦ 10 * n + (digit.toNat - '0'.toNat)) 0
      if h : number < 2 ^ 64 then
        if number = 0 ∨ name ≠ manifestName ⟨number, h⟩ then
          .error (manifestCorruption "CURRENT contains a noncanonical manifest name")
        else .ok ⟨number, h⟩
      else .error (manifestCorruption "manifest number does not fit u64")

def newline : Byte := 10

/-- The number of the manifest that `CURRENT` names. -/
def parseCurrent (bytes : Bytes) : Result U64 :=
  if bytes.getLast? ≠ some newline ∨ newline ∈ bytes.dropLast then
    .error (manifestCorruption "CURRENT must contain exactly one newline-terminated manifest name")
  else
    match fromUtf8 bytes.dropLast with
    | none => .error (manifestCorruption "CURRENT manifest name is not UTF-8")
    | some name => parseManifestNumber name

/-- The contents of `CURRENT`. -/
def currentText (number : U64) : Bytes := utf8 (manifestName number ++ "\n")

/-! ## Writing the manifest -/

/-- The writer of a manifest: its file, and the offset in the current block. -/
structure ManifestWriter where
  path : FileName
  blockOffset : ℕ
  deriving DecidableEq

namespace ManifestWriter

/-- Appends a record. -/
def append (writer : ManifestWriter) (logical : Bytes) : Fs ManifestWriter := do
  let blockOffset ← writeRecord logFraming
    (fun filling ↦ ioError (if filling then "pad manifest block" else "append manifest edit")
      writer.path) writer.path writer.blockOffset logical
  return { writer with blockOffset }

def sync (writer : ManifestWriter) (operation : String) : Fs Unit :=
  fsCall operation writer.path (.sync writer.path)

end ManifestWriter

/-! ## Creating and recovering -/

/-- The published version, the numbers and counters, and the manifest they are recorded in. -/
structure VersionSet where
  manifestNumber : U64
  manifest : ManifestWriter
  state : VersionState
  manifestUsable : Bool
  deriving DecidableEq

/-- The first edit of a manifest. -/
def initialEdit : VersionEdit where
  nextFileNumber := some 2
  lastSequence := some 0
  logNumber := some 0
  activeLogNumber := some 0
  walSequence := some 0

/-- Installs a file under an absent name, in two steps. -/
def atomicInstall (operation : String) (source destination : FileName) : Fs Unit := do
  fsCall operation destination (.link source destination)
  fsCall operation destination (.remove source)

def replaceCurrent (manifestNumber : U64) : Fs Unit := do
  fsCall "create CURRENT temporary file" .currentTmp (.create .currentTmp)
  fsCall "write CURRENT temporary file" .currentTmp
    (.append .currentTmp (currentText manifestNumber))
  fsCall "sync CURRENT temporary file" .currentTmp (.sync .currentTmp)
  atomicInstall "install CURRENT" .currentTmp .current
  fsCall "sync CURRENT directory" .directory .syncDirectory

def removeTemporaryIfPresent (path : FileName) : Fs Unit := do
  if ← fsCall "check temporary metadata file" path (.entryExists path) then
    fsCall "remove temporary metadata file" path (.remove path)

/-- The check that a live table is on disk. -/
def validateReferencedFile (file : ℕ × FileMeta) : Fs Unit := do
  let path := .sst file.2.number
  let _ ← Io.call (.read path) fun source ↦ manifestCorruption ("level " ++ toString file.1
    ++ " references missing SSTable or invalid file " ++ path.display ++ ": "
    ++ displayIoError source)

/-- The tables of a version with their levels. -/
def Version.referencedFiles (version : Version) : List (ℕ × FileMeta) :=
  (List.finRange numLevels).flatMap fun level ↦ (version.levels level).map (level.val, ·)

def validateReferencedFiles (version : Version) : Fs Unit :=
  version.referencedFiles.forM validateReferencedFile

/-- The edits in the manifest, and the length of their log. -/
def readManifest (manifestNumber : U64) : Fs (Summary (List VersionEdit)) := do
  let bytes ← fsCall "open manifest" (.manifest manifestNumber) (.read (.manifest manifestNumber))
  replayManifest bytes

/-- The state the edits of a manifest lead to. -/
def recoverState (manifestNumber : U64) (edits : List VersionEdit) : Fs VersionState := do
  if edits = [] then
    throw (manifestCorruption "manifest contains no complete initial edit")
  else
    let state ← VersionState.replay manifestNumber edits
    if state.counters.nextFileNumber = 0 then
      throw (manifestCorruption "manifest never records the next file number")
    else
      validateReferencedFiles state.version
      return state

def validateInterruptedBootstrap (manifestNumber : U64) : Fs Unit := do
  let replay ← readManifest manifestNumber
  if replay.validBytes ≠ replay.fileLength then
    throw (manifestCorruption ("interrupted bootstrap manifest has a torn tail at byte "
      ++ toString replay.validBytes ++ " of " ++ toString replay.fileLength))
  else
    let _ ← recoverState manifestNumber replay.out

namespace VersionSet

/-- Recovers the version set that `CURRENT` names. -/
def recover : Fs VersionSet := do
  let current ← fsCall "read CURRENT" .current (.read .current)
  let manifestNumber ← parseCurrent current
  let path := .manifest manifestNumber
  let replay ← readManifest manifestNumber
  let state ← recoverState manifestNumber replay.out
  if replay.validBytes < replay.fileLength then
    fsCall "truncate torn manifest tail" path (.truncate path replay.validBytes)
    fsCall "sync truncated manifest" path (.sync path)
  let _ ← fsCall "open manifest for append" path (.read path)
  return ⟨manifestNumber, ⟨path, replay.validBytes % logBlockBytes⟩, state, true⟩

/-- The error for a directory that already has a database. -/
def alreadyExists : Error :=
  .invalidArgument ("database already exists at " ++ FileName.directory.display)

/-- Installs a manifest with its first edit. -/
def installManifest (encoded : Bytes) : Fs Unit := do
  let path := .manifestTmp 1
  fsCall "create manifest temporary file" path (.create path)
  let writer ← ManifestWriter.append ⟨path, 0⟩ encoded
  writer.sync "sync new manifest"
  atomicInstall "install manifest temporary file" path (.manifest 1)
  fsCall "sync manifest directory" .directory .syncDirectory

/-- Creates a manifest and installs its `CURRENT` file; a bootstrap that was interrupted between
the two is resumed. -/
def create : Fs VersionSet := do
  if ← fsCall "check CURRENT" .current (.entryExists .current) then throw alreadyExists
  else if ← fsCall "check manifest" (.manifest 1) (.entryExists (.manifest 1)) then
    let _ ← Io.call (.read (.manifest 1)) fun _ ↦ alreadyExists
    validateInterruptedBootstrap 1
    removeTemporaryIfPresent .currentTmp
    replaceCurrent 1
    recover
  else
    removeTemporaryIfPresent (.manifestTmp 1)
    removeTemporaryIfPresent .currentTmp
    let encoded ← encodeEdit initialEdit
    installManifest encoded
    replaceCurrent 1
    let _ ← fsCall "open manifest for append" (.manifest 1) (.read (.manifest 1))
    return ⟨1, ⟨.manifest 1, encoded.length + headerBytes⟩, ⟨.empty, {1}, ⟨2, 0, 0, 0, 0⟩⟩, true⟩

end VersionSet

/-! ## Applying edits -/

/-- A failure to apply an edit, and whether the manifest may have the edit nevertheless. -/
structure VersionApplyError where
  error : Error
  editMayBeVisible : Bool
  deriving DecidableEq

namespace VersionApplyError

def beforeManifest (error : Error) : VersionApplyError := ⟨error, false⟩

def duringManifest (error : Error) : VersionApplyError := ⟨error, true⟩

end VersionApplyError

namespace VersionSet

/-- Makes the tables an edit adds durable. -/
def syncAdded (edit : VersionEdit) : Fs Unit :=
  edit.addedFiles.forM fun file ↦
    fsCall "sync referenced SSTable" (.sst file.2.number) (.sync (.sst file.2.number))

/-- What is done before the manifest is touched: the checks of an edit, its encoding, and the
synchronization of its tables. -/
def prepare (vs : VersionSet) (edit : VersionEdit) : Fs (VersionState × Bytes) := do
  if vs.manifestUsable then
    let state ← vs.state.apply false edit
    let encoded ← encodeEdit edit
    syncAdded edit
    return (state, encoded)
  else throw (.background "manifest writer is unusable after a failed append or sync")

/-- Appends an edit to the manifest and makes it durable. -/
def record (vs : VersionSet) (encoded : Bytes) : Fs ManifestWriter := do
  let manifest ← vs.manifest.append encoded
  manifest.sync "sync manifest edit"
  return manifest

/-- Installs an edit durably and takes over its state. After a failure in the manifest itself the
version set refuses further edits. -/
def applyWithVisibility (edit : VersionEdit) : StIo FileName VersionSet VersionApplyError Unit := do
  let vs ← get
  let (state, encoded) ← ((prepare vs edit).adapt VersionApplyError.beforeManifest :
    Io FileName VersionApplyError _)
  match ← (ExceptT.mk (Except.ok <$> (vs.record encoded).run) :
      Io FileName VersionApplyError _) with
  | .error error => do
    set { vs with manifestUsable := false }
    throw (.duringManifest error)
  | .ok manifest => set { vs with state, manifest }

/-- Installs an edit durably and takes over its state. -/
def apply (edit : VersionEdit) : StIo FileName VersionSet Error Unit :=
  (applyWithVisibility edit).adapt VersionApplyError.error

end VersionSet

/-! ### What applying an edit does -/

namespace VersionSet

/-- The tables an edit adds. -/
def addedTables (edit : VersionEdit) : Set FileName :=
  {name | ∃ file ∈ edit.addedFiles, name = .sst file.2.number}

/-- The bytes that add an edit to the manifest. -/
def recordBytes (vs : VersionSet) (edit : VersionEdit) : Bytes :=
  (emit logFraming vs.manifest.blockOffset true edit.bytes).1

/-- The manifest has got another file. -/
def Appended (vs : VersionSet) (d : Disk FileName) (file : File) (d' : Disk FileName) : Prop :=
  d.Updated vs.manifest.path ((d.slot vs.manifest.path).write file) d'

/-- An edit is being recorded: a part of it has been written, or it is durable. -/
def Recording (vs : VersionSet) (edit : VersionEdit) (file : File) (d d' : Disk FileName) : Prop :=
  (∃ written, written <+: vs.recordBytes edit ∧
    vs.Appended d ⟨file.bytes ++ written, file.synced⟩ d') ∨
  vs.Appended d (.durable (file.bytes ++ vs.recordBytes edit)) d'

/-- The version set after an edit. -/
def advance (vs : VersionSet) (edit : VersionEdit) (state : VersionState) : VersionSet :=
  { vs with
    state
    manifest :=
      { vs.manifest with
        blockOffset := (emit logFraming vs.manifest.blockOffset true edit.bytes).2 } }

/-- What an edit needs to be accepted: it passes the checks, can be encoded, and its tables are on
disk. -/
structure Admits (vs : VersionSet) (edit : VersionEdit) (d : Disk FileName) (state : VersionState) :
    Prop where
  apply : vs.state.apply false edit = .ok state
  encodable : edit.Encodable
  present : ∀ file ∈ edit.addedFiles, d.file (.sst file.2.number) ≠ none

/-- How applying an edit ends, when the manifest has the file `file`. -/
inductive ApplyOutcome (faults : Bool) (vs : VersionSet) (edit : VersionEdit) (file : File)
    (d : Disk FileName) : Except VersionApplyError Unit × VersionSet → Disk FileName → Prop
  | applied {state : VersionState} {d₁ d₂ : Disk FileName} (hadmits : vs.Admits edit d state)
      (hsynced : Disk.Resynced (addedTables edit) d d₁)
      (hdone : vs.Appended d₁ (.durable (file.bytes ++ vs.recordBytes edit)) d₂) :
      ApplyOutcome faults vs edit file d (.ok (), vs.advance edit state) d₂
  | refused {error : Error} {d₁ : Disk FileName}
      (hrefused : faults = true ∨ ∀ state, ¬ vs.Admits edit d state)
      (hsynced : Disk.Resynced (addedTables edit) d d₁) :
      ApplyOutcome faults vs edit file d (.error (.beforeManifest error), vs) d₁
  | broken {error : Error} {d₁ d₂ : Disk FileName} (hfaults : faults = true)
      (hsynced : Disk.Resynced (addedTables edit) d d₁)
      (hrecording : vs.Recording edit file d₁ d₂) :
      ApplyOutcome faults vs edit file d
        (.error (.duringManifest error), { vs with manifestUsable := false }) d₂

variable {faults : Bool} {allowed : Op FileName → Prop} {inv : Disk FileName → Prop}
  {d : Disk FileName} {vs : VersionSet} {edit : VersionEdit} {file : File}

omit [Crc32c] in
private theorem wp_syncAdded {q : Except Error Unit → Disk FileName → Prop}
    (hallowed : ∀ file ∈ edit.addedFiles, allowed (.sync (.sst file.2.number)))
    (hinv : ∀ d', Disk.Resynced (addedTables edit) d d' → inv d')
    (hok : ∀ d', Disk.Resynced (addedTables edit) d d' →
      (∀ file ∈ edit.addedFiles, d.file (.sst file.2.number) ≠ none) → q (.ok ()) d')
    (herr : ∀ e d', Disk.Resynced (addedTables edit) d d' →
      (faults = true ∨ ∃ file ∈ edit.addedFiles, d.file (.sst file.2.number) = none) →
      q (.error e) d') :
    wp faults allowed inv q (syncAdded edit).run d := by
  refine wp_forM (fun before d' ↦ Disk.Resynced (addedTables edit) d d' ∧
    ∀ file ∈ before, d.file (.sst file.2.number) ≠ none) (hinv d (.refl d)) ⟨.refl d, nofun⟩ ?_ ?_
  · rintro before added after d₁ hsplit ⟨hd₁, hbefore⟩
    have hadded : added ∈ edit.addedFiles := by rw [hsplit]; simp
    have hmem : FileName.sst added.2.number ∈ addedTables edit := ⟨added, hadded, rfl⟩
    cases htable : d₁.file (.sst added.2.number) with
    | none =>
      exact wp_sync_of_none htable (hinv d₁ hd₁) (hallowed added hadded) fun e ↦
        herr e d₁ hd₁ (.inr ⟨added, hadded, hd₁.file_eq_none.mp htable⟩)
    | some table =>
      have hstep {d' : Disk FileName} := @Disk.Resynced.sync _ _ _ d d₁ d' _ _ hd₁ hmem htable
      refine wp_sync htable (hinv d₁ hd₁) (hallowed added hadded) (fun d' hd' ↦ hinv d' (hstep hd'))
        (fun d' hd' ↦ ⟨hstep hd', fun other hother ↦ ?_⟩) (fun hfaults d' hd' ↦ ?_)
      · rcases List.mem_append.mp hother with hother | hother
        · exact hbefore other hother
        · rw [List.mem_singleton.mp hother, Ne, ← hd₁.file_eq_none, htable]
          exact nofun
      · refine herr _ d' ?_ (.inl hfaults)
        rcases hd' with rfl | hd'
        · exact hd₁
        · exact hstep hd'
  · exact fun d' h ↦ hok d' h.1 h.2

omit [Crc32c] in
private theorem wp_prepare {q : Except Error (VersionState × Bytes) → Disk FileName → Prop}
    (husable : vs.manifestUsable = true)
    (hallowed : ∀ file ∈ edit.addedFiles, allowed (.sync (.sst file.2.number)))
    (hinv : ∀ d', Disk.Resynced (addedTables edit) d d' → inv d')
    (hok : ∀ state d', vs.Admits edit d state → Disk.Resynced (addedTables edit) d d' →
      q (.ok (state, edit.bytes)) d')
    (herr : ∀ e d', (faults = true ∨ ∀ state, ¬ vs.Admits edit d state) →
      Disk.Resynced (addedTables edit) d d' → q (.error e) d') :
    wp faults allowed inv q (vs.prepare edit).run d := by
  have hinv₀ := hinv d (.refl d)
  rw [prepare, if_pos husable]
  refine wp_bind_io (wp_ofExcept hinv₀ ?_)
  cases happly : vs.state.apply false edit with
  | error e => exact herr e d (.inr fun state h ↦ by simp [h.apply] at happly) (.refl d)
  | ok state =>
    refine wp_bind_io (wp_ofExcept hinv₀ ?_)
    cases hencode : encodeEdit edit with
    | error e =>
      refine herr e d (.inr fun _ h ↦ ?_) (.refl d)
      rw [encodeEdit_eq_ok.mpr ⟨h.encodable, rfl⟩] at hencode
      cases hencode
    | ok encoded =>
      obtain ⟨hencodable, rfl⟩ := encodeEdit_eq_ok.mp hencode
      refine wp_bind_io (wp_syncAdded hallowed hinv (fun d' hd' hpresent ↦ ?_)
        fun e d' hd' hmissing ↦ ?_)
      · exact wp_pure (hinv d' hd') (hok state d' ⟨happly, hencodable, hpresent⟩ hd')
      · refine herr e d' (hmissing.imp_right ?_) hd'
        rintro ⟨added, hadded, hnone⟩ _ h
        exact h.present added hadded hnone

private theorem wp_record {q : Except Error ManifestWriter → Disk FileName → Prop}
    (hfile : d.file vs.manifest.path = some file)
    (happend : ∀ bytes, allowed (.append vs.manifest.path bytes))
    (hsync : allowed (.sync vs.manifest.path))
    (hinv : ∀ d', vs.Recording edit file d d' → inv d')
    (hok : ∀ d', vs.Appended d (.durable (file.bytes ++ vs.recordBytes edit)) d' →
      q (.ok { vs.manifest with
        blockOffset := (emit logFraming vs.manifest.blockOffset true edit.bytes).2 }) d')
    (herr : faults = true → ∀ e d', vs.Recording edit file d d' → q (.error e) d') :
    wp faults allowed inv q (vs.record edit.bytes).run d := by
  refine wp_bind_io (wp_bind_io (wp_writeRecord hfile happend
    (fun written d' hwritten hd' ↦ hinv d' (.inl ⟨written, hwritten, hd'⟩)) (fun d₁ hd₁ ↦ ?_)
    fun hfaults e written d' hwritten hd' ↦ herr hfaults e d' (.inl ⟨written, hwritten, hd'⟩)))
  have hinv₁ : inv d₁ := hinv d₁ (.inl ⟨_, List.prefix_rfl, hd₁⟩)
  refine wp_pure hinv₁ ?_
  have hfile₁ : d₁.file vs.manifest.path
      = some ⟨file.bytes ++ vs.recordBytes edit, file.synced⟩ :=
      hd₁.file_self
  have hstep {d' : Disk FileName} (hd' : d₁.Updated vs.manifest.path
      ((d₁.slot vs.manifest.path).write (.durable (file.bytes ++ vs.recordBytes edit))) d') :
      vs.Appended d (.durable (file.bytes ++ vs.recordBytes edit)) d' := by
    rw [hd₁.slot_self] at hd'
    exact hd₁.trans hd'
  refine wp_bind_io (wp_sync hfile₁ hinv₁ hsync (fun d' hd' ↦ hinv d' (.inr (hstep hd')))
    (fun d' hd' ↦ wp_pure (hinv d' (.inr (hstep hd'))) (hok d' (hstep hd')))
    fun hfaults d' hd' ↦ herr hfaults _ d' ?_)
  rcases hd' with rfl | hd'
  · exact .inl ⟨_, List.prefix_rfl, hd₁⟩
  · exact .inr (hstep hd')

/-- **Applying an edit.** The rule for `applyWithVisibility`. -/
theorem wp_applyWithVisibility (husable : vs.manifestUsable = true)
    (hpath : ∀ number, vs.manifest.path ≠ .sst number)
    (hfile : d.file vs.manifest.path = some file)
    (hsync : ∀ file ∈ edit.addedFiles, allowed (.sync (.sst file.2.number)))
    (hmanifest : (∀ bytes, allowed (.append vs.manifest.path bytes)) ∧
      allowed (.sync vs.manifest.path))
    (hinv : ∀ d₁ d₂, Disk.Resynced (addedTables edit) d d₁ → vs.Recording edit file d₁ d₂ →
      inv d₂) :
    wp faults allowed inv (ApplyOutcome faults vs edit file d)
      ((applyWithVisibility edit).run.run vs) d := by
  have hfile₁ {d₁ : Disk FileName} (hd₁ : Disk.Resynced (addedTables edit) d d₁) :
      d₁.file vs.manifest.path = some file := by
    rw [Disk.file, hd₁.slot_of_notMem]
    · exact hfile
    · rintro ⟨added, -, h⟩
      exact hpath _ h
  have hinv₁ {d₁ : Disk FileName} (hd₁ : Disk.Resynced (addedTables edit) d d₁) : inv d₁ := by
    refine hinv d₁ d₁ hd₁ (.inl ⟨[], List.nil_prefix, Disk.updated_self ?_⟩)
    rw [List.append_nil]
    exact Slot.ext (hfile₁ hd₁) rfl
  refine wp_get (wp_bind_st (wp_lift (wp_adapt (wp_prepare husable hsync (fun d₁ ↦ hinv₁)
    (fun state d₁ hadmits hd₁ ↦ ?_) fun e d₁ hrefused hd₁ ↦ ApplyOutcome.refused hrefused hd₁))))
  refine wp_bind_st (wp_lift (wp_bind (wp_record (hfile₁ hd₁) hmanifest.1 hmanifest.2
    (fun d₂ hd₂ ↦ hinv d₁ d₂ hd₁ hd₂) (fun d₂ hd₂ ↦ ?_) fun hfaults e d₂ hd₂ ↦ ?_)))
  · have hinv₂ := hinv d₁ d₂ hd₁ (.inr hd₂)
    exact ⟨hinv₂, hinv₂, .applied hadmits hd₁ hd₂⟩
  · have hinv₂ := hinv d₁ d₂ hd₁ hd₂
    exact ⟨hinv₂, hinv₂, .broken hfaults hd₁ hd₂⟩

/-- A version set over the log of some edits. -/
structure Logs (vs : VersionSet) (edits : List VersionEdit) (bytes : Bytes) : Prop where
  whole : Whole logFraming manifestFormat edits bytes
  replay : VersionState.replay vs.manifestNumber edits = .ok vs.state
  path : vs.manifest.path = .manifest vs.manifestNumber
  offset_le : vs.manifest.blockOffset ≤ logBlockBytes
  offset_mod : bytes.length % logBlockBytes = vs.manifest.blockOffset % logBlockBytes
  usable : vs.manifestUsable = true

omit [Crc32c] in
private theorem replay_concat {number : U64} {edits : List VersionEdit}
    {state state' : VersionState} (h : VersionState.replay number edits = .ok state)
    (happly : state.apply false edit = .ok state') :
    VersionState.replay number (edits ++ [edit]) = .ok state' := by
  have hreplay : state.apply true edit = .ok state' :=
    VersionState.apply_eq_ok.mpr (VersionState.apply_eq_ok.mp happly)
  rw [VersionState.replay, List.foldlM_append]
  exact bind_eq_ok.mpr ⟨state, h, by rw [List.foldlM_cons, hreplay]; rfl⟩

/-- An edit that is applied is logged. -/
theorem Logs.advance {edits : List VersionEdit} {bytes : Bytes} {state : VersionState}
    (h : vs.Logs edits bytes) (hadmits : vs.Admits edit d state) :
    (vs.advance edit state).Logs (edits ++ [edit]) (bytes ++ vs.recordBytes edit) := by
  obtain ⟨hle, hmod⟩ := emit_offset (F := logFraming) vs.manifest.blockOffset true
    edit.bytes h.offset_le h.offset_mod
  exact
    { whole := h.whole.append hadmits.encodable h.offset_le h.offset_mod
      replay := replay_concat h.replay hadmits.apply
      path := h.path
      offset_le := hle
      offset_mod := by rw [List.length_append]; exact hmod
      usable := h.usable }

end VersionSet

/-! ### What recovering does -/

omit [Crc32c] in
theorem Version.mem_referencedFiles {version : Version} {level : ℕ} {file : FileMeta} :
    (level, file) ∈ version.referencedFiles ↔ ∃ i, level = i.val ∧ file ∈ version.levels i := by
  simp only [referencedFiles, List.mem_flatMap, List.mem_finRange, List.mem_map, Prod.mk.injEq,
    true_and]
  constructor
  · rintro ⟨i, f, hf, rfl, rfl⟩
    exact ⟨i, rfl, hf⟩
  · rintro ⟨i, rfl, hf⟩
    exact ⟨i, file, hf, rfl, rfl⟩

/-- The tables of a version are on disk. -/
def Version.Present (version : Version) (d : Disk FileName) : Prop :=
  ∀ i, ∀ file ∈ version.levels i, d.file (.sst file.number) ≠ none

section Recover

variable {faults : Bool} {allowed : Op FileName → Prop} {inv : Disk FileName → Prop}
  {d : Disk FileName} {number : U64} {edits : List VersionEdit} {state : VersionState} {file : File}

omit [Crc32c] in
private theorem wp_validateReferencedFiles {version : Version}
    {q : Except Error Unit → Disk FileName → Prop}
    (hallowed : ∀ number, allowed (.read (.sst number))) (hinv : inv d)
    (hpresent : version.Present d) (hok : q (.ok ()) d)
    (herr : faults = true → ∀ e, q (.error e) d) :
    wp faults allowed inv q (validateReferencedFiles version).run d := by
  refine wp_forM (fun _ d' ↦ d' = d) hinv rfl ?_ (fun d' hd' ↦ hd' ▸ hok)
  rintro before ⟨level, table⟩ after _ hsplit rfl
  have hmem : (level, table) ∈ version.referencedFiles := by rw [hsplit]; simp
  obtain ⟨i, -, hi⟩ := Version.mem_referencedFiles.mp hmem
  exact wp_bind_io (wp_read hinv (hallowed _) (fun _ _ ↦ wp_pure hinv rfl)
    (fun hnone ↦ absurd hnone (hpresent i table hi)) fun hfaults ↦ herr hfaults _)

/-- What a manifest must hold to be recovered. -/
structure Recoverable (number : U64) (edits : List VersionEdit) (state : VersionState) : Prop where
  ne_nil : edits ≠ []
  replay : VersionState.replay number edits = .ok state
  next_ne : state.counters.nextFileNumber ≠ 0

omit [Crc32c] in
private theorem wp_recoverState {q : Except Error VersionState → Disk FileName → Prop}
    (hallowed : ∀ number, allowed (.read (.sst number))) (hinv : inv d)
    (hrecoverable : Recoverable number edits state) (hpresent : state.version.Present d)
    (hok : q (.ok state) d) (herr : faults = true → ∀ e, q (.error e) d) :
    wp faults allowed inv q (recoverState number edits).run d := by
  rw [recoverState, if_neg hrecoverable.ne_nil]
  refine wp_bind_io (wp_ofExcept hinv ?_)
  rw [hrecoverable.replay]
  refine wp_ite (fun h ↦ absurd h hrecoverable.next_ne) fun _ ↦ ?_
  exact wp_bind_io (wp_validateReferencedFiles hallowed hinv hpresent (wp_pure hinv hok) herr)

private theorem wp_readManifest
    {q : Except Error (Summary (List VersionEdit)) → Disk FileName → Prop}
    (hfile : d.file (.manifest number) = some file)
    (htorn : Torn logFraming manifestFormat edits file.bytes)
    (hallowed : allowed (.read (.manifest number))) (hinv : inv d)
    (hok : ∀ valid ≤ file.bytes.length,
      Whole logFraming manifestFormat edits (file.bytes.take valid) →
        q (.ok ⟨edits, valid, file.bytes.length⟩) d)
    (herr : faults = true → ∀ e, q (.error e) d) :
    wp faults allowed inv q (readManifest number).run d := by
  obtain ⟨valid, hvalid, hwhole, hreplay⟩ := htorn.replay
  refine wp_bind_io (wp_read hinv hallowed (fun found hfound ↦ ?_)
    (fun hnone ↦ nomatch hfile.symm.trans hnone) fun hfaults ↦ herr hfaults _)
  obtain rfl := Option.some.inj (hfile.symm.trans hfound)
  have hreplay' : replayManifest file.bytes = .ok ⟨edits, valid, file.bytes.length⟩ := hreplay
  refine wp_ofExcept hinv ?_
  rw [hreplay']
  exact hok valid hvalid hwhole

/-- The manifest after a torn tail has been cut off, if there was one. -/
inductive Trimmed (number : U64) (file : File) (d : Disk FileName) : File → Disk FileName → Prop
  | whole : Trimmed number file d file d
  | cut {bytes : Bytes} {d' : Disk FileName} (hpre : bytes <+: file.bytes)
      (hd' : d.Updated (.manifest number) ((d.slot (.manifest number)).write (.durable bytes)) d') :
      Trimmed number file d (.durable bytes) d'

/-- **Recovery.** The rule for `VersionSet.recover`. -/
theorem VersionSet.wp_recover {current : File}
    {q : Except Error VersionSet → Disk FileName → Prop}
    (hcurrent : d.file .current = some current) (hparse : parseCurrent current.bytes = .ok number)
    (hfile : d.file (.manifest number) = some file)
    (htorn : Torn logFraming manifestFormat edits file.bytes)
    (hrecoverable : Recoverable number edits state) (hpresent : state.version.Present d)
    (hread : ∀ name, allowed (.read name))
    (hmanifest : (∀ length, allowed (.truncate (.manifest number) length)) ∧
      allowed (.sync (.manifest number)))
    (hinv : inv d)
    (hinv_cut : ∀ bytes d', Whole logFraming manifestFormat edits bytes → bytes <+: file.bytes →
      (d.Updated (.manifest number) ((d.slot (.manifest number)).write ⟨bytes, file.synced⟩) d' ∨
        d.Updated (.manifest number) ((d.slot (.manifest number)).write (.durable bytes)) d') →
      inv d')
    (hok : ∀ vs file' d', vs.Logs edits file'.bytes → vs.manifestNumber = number →
      vs.state = state → Trimmed number file d file' d' → q (.ok vs) d')
    (herr : faults = true → ∀ e d', inv d' → q (.error e) d') :
    wp faults allowed inv q recover.run d := by
  refine wp_bind_io (wp_read hinv (hread _) (fun found hfound ↦ ?_)
    (fun hnone ↦ nomatch hcurrent.symm.trans hnone) fun hfaults ↦ herr hfaults _ d hinv)
  obtain rfl := Option.some.inj (hcurrent.symm.trans hfound)
  refine wp_bind_io (wp_ofExcept hinv ?_)
  rw [hparse]
  refine wp_bind_io (wp_readManifest hfile htorn (hread _) hinv (fun valid hvalid hwhole ↦ ?_)
    fun hfaults e ↦ herr hfaults e d hinv)
  refine wp_bind_io (wp_recoverState (fun _ ↦ hread _) hinv hrecoverable hpresent ?_
    fun hfaults e ↦ herr hfaults e d hinv)
  have hlogs : Logs ⟨number, ⟨.manifest number, valid % logBlockBytes⟩, state, true⟩ edits
      (file.bytes.take valid) :=
    { whole := hwhole
      replay := hrecoverable.replay
      path := rfl
      offset_le := (Nat.mod_lt _ (by decide)).le
      offset_mod := by rw [List.length_take_of_le hvalid, Nat.mod_mod]
      usable := rfl }
  have hopen {file' : File} {d' : Disk FileName} (hinv' : inv d')
      (hfile' : d'.file (.manifest number) = some file')
      (hq : q (.ok ⟨number, ⟨.manifest number, valid % logBlockBytes⟩, state, true⟩) d') :
      wp faults allowed inv q (do
        let _ ← fsCall "open manifest for append" (.manifest number) (.read (.manifest number))
        return ⟨number, ⟨.manifest number, valid % logBlockBytes⟩, state, true⟩ :
          Fs VersionSet).run d' :=
    wp_bind_io (wp_read hinv' (hread _) (fun _ _ ↦ wp_pure hinv' hq)
      (fun hnone ↦ nomatch hfile'.symm.trans hnone) fun hfaults ↦ herr hfaults _ d' hinv')
  refine wp_ite (fun hcut ↦ ?_) fun hcut ↦ ?_
  case refine_2 =>
    have hcut : file.bytes.length ≤ valid := not_lt.mp hcut
    rw [List.take_of_length_le hcut] at hlogs
    exact hopen hinv hfile (hok _ file d hlogs rfl rfl .whole)
  have hpre : file.bytes.take valid <+: file.bytes := List.take_prefix _ _
  refine wp_bind_io (wp_truncate hfile hinv (hmanifest.1 _)
    (fun d' hd' ↦ hinv_cut _ d' hwhole hpre (.inl hd')) (fun d₁ hd₁ ↦ ?_)
    fun hfaults d' hd' ↦ ?_)
  case refine_2 =>
    refine herr hfaults _ d' ?_
    rcases hd' with rfl | hd'
    · exact hinv
    · exact hinv_cut _ d' hwhole hpre (.inl hd')
  have hinv₁ := hinv_cut _ d₁ hwhole hpre (.inl hd₁)
  have hfile₁ : d₁.file (.manifest number) = some ⟨file.bytes.take valid, file.synced⟩ :=
      hd₁.file_self
  have hstep {d' : Disk FileName} (hd' : d₁.Updated (.manifest number)
      ((d₁.slot (.manifest number)).write (.durable (file.bytes.take valid))) d') :
      d.Updated (.manifest number)
        ((d.slot (.manifest number)).write (.durable (file.bytes.take valid))) d' := by
    rw [hd₁.slot_self] at hd'
    exact hd₁.trans hd'
  refine wp_bind_io (wp_sync hfile₁ hinv₁ hmanifest.2
    (fun d' hd' ↦ hinv_cut _ d' hwhole hpre (.inr (hstep hd'))) (fun d₂ hd₂ ↦ ?_)
    fun hfaults d' hd' ↦ ?_)
  · have hfile₂ : d₂.file (.manifest number) = some (.durable (file.bytes.take valid)) :=
      (hstep hd₂).file_self
    exact hopen (hinv_cut _ d₂ hwhole hpre (.inr (hstep hd₂))) hfile₂
      (hok _ (.durable (file.bytes.take valid)) d₂ hlogs rfl rfl (.cut hpre (hstep hd₂)))
  · refine herr hfaults _ d' ?_
    rcases hd' with rfl | hd'
    · exact hinv₁
    · exact hinv_cut _ d' hwhole hpre (.inr (hstep hd'))

/-- A log without filling has no shorter whole log of the same edits. -/
theorem eq_logBytes {bytes : Bytes} (hpre : bytes <+: logBytes logFraming manifestFormat edits)
    (hwhole : Whole logFraming manifestFormat edits bytes) :
    bytes = logBytes logFraming manifestFormat edits := by
  obtain ⟨filled, -, rfl⟩ := hwhole.eq
  exact hpre.eq_of_length_le (by rw [List.length_append]; exact Nat.le_add_right _ _)

private theorem wp_validateInterruptedBootstrap {q : Except Error Unit → Disk FileName → Prop}
    (hfile : d.file (.manifest number) = some file)
    (hbytes : file.bytes = logBytes logFraming manifestFormat edits)
    (hgood : ∀ edit ∈ edits, edit.Encodable)
    (hrecoverable : Recoverable number edits state) (hpresent : state.version.Present d)
    (hread : ∀ name, allowed (.read name)) (hinv : inv d) (hok : q (.ok ()) d)
    (herr : faults = true → ∀ e, q (.error e) d) :
    wp faults allowed inv q (validateInterruptedBootstrap number).run d := by
  have hwhole : Whole logFraming manifestFormat edits file.bytes :=
    ⟨hgood, 0, .inl rfl, hbytes.trans (List.append_nil _).symm⟩
  refine wp_bind_io (wp_readManifest hfile hwhole.torn (hread _) hinv (fun valid hvalid hcut ↦ ?_)
    herr)
  have hlength : valid = file.bytes.length := by
    rw [← List.length_take_of_le hvalid, eq_logBytes (hbytes ▸ List.take_prefix _ _) hcut, hbytes]
  refine wp_ite (fun h ↦ absurd hlength h) fun _ ↦ ?_
  exact wp_bind_io (wp_recoverState (fun _ ↦ hread _) hinv hrecoverable hpresent (wp_pure hinv hok)
    herr)

end Recover

/-! ### What creating does -/

/-- The log of the first edit. -/
def initialLog : Bytes := logBytes logFraming manifestFormat [initialEdit]

/-- The names that creating a version set works on. -/
def bootNames : Set FileName := {.current, .currentTmp, .manifest 1, .manifestTmp 1}

/-- The disks on which a version set is being created, from the disk `d₀`: what there is of the
manifest and of `CURRENT` is complete, and the manifest comes first. -/
structure Boot (d₀ d : Disk FileName) : Prop where
  current : ∀ entry, (d.slot .current).MayBe entry →
    entry = none ∨ entry = some (.durable (currentText 1))
  manifest : ∀ entry, (d.slot (.manifest 1)).MayBe entry →
    entry = none ∨ entry = some (.durable initialLog)
  order : (d₀.slot (.manifest 1)).past = [] → (∃ file, (d.slot .current).MayBe (some file)) →
    d.slot (.manifest 1) = .durable (.durable initialLog)
  frame : Frame bootNamesᶜ d₀ d

/-- The disks on which a version set has been created. -/
structure Booted (d₀ d : Disk FileName) : Prop where
  current : d.slot .current = .durable (.durable (currentText 1))
  manifest : d.slot (.manifest 1) = .durable (.durable initialLog)
  frame : Frame bootNamesᶜ d₀ d

section Create

variable {faults : Bool} {allowed : Op FileName → Prop} {d₀ d d' : Disk FileName} {n : FileName}
  {slot : Slot}

private theorem Boot.updated_tmp (h : Boot d₀ d) (hn : n = .currentTmp ∨ n = .manifestTmp 1)
    (hd : d.Updated n slot d') : Boot d₀ d' := by
  have hcurrent : d'.slot .current = d.slot .current :=
    hd.slot_of_ne (by rcases hn with rfl | rfl <;> nofun)
  have hmanifest : d'.slot (.manifest 1) = d.slot (.manifest 1) :=
    hd.slot_of_ne (by rcases hn with rfl | rfl <;> nofun)
  have hmem : n ∉ bootNamesᶜ := by rcases hn with rfl | rfl <;> simp [bootNames]
  refine ⟨by rw [hcurrent]; exact h.current, by rw [hmanifest]; exact h.manifest,
    by rw [hcurrent, hmanifest]; exact h.order, h.frame.trans fun m hm ↦ ?_⟩
  rw [hd.slot_of_ne fun heq ↦ hmem (heq ▸ hm)]
  exact ⟨rfl, List.Subset.refl _⟩

private theorem Boot.link_current (h : Boot d₀ d) (hmanifest : (d₀.slot (.manifest 1)).past = [] →
      d.slot (.manifest 1) = .durable (.durable initialLog))
    (hd : d.Updated .current
      ((d.slot .current).change (some (.durable (currentText 1)))) d') : Boot d₀ d' := by
  have hslot : d'.slot (.manifest 1) = d.slot (.manifest 1) := hd.slot_of_ne nofun
  refine ⟨?_, by rw [hslot]; exact h.manifest, fun hpast _ ↦ hslot.trans (hmanifest hpast),
    h.frame.trans fun m hm ↦ ?_⟩
  · rw [hd.slot_self]
    rintro entry (rfl | hentry)
    · exact .inr rfl
    · exact h.current entry ((List.mem_cons.mp hentry).imp id id)
  · rw [hd.slot_of_ne fun heq ↦ hm (by simp [heq, bootNames])]
    exact ⟨rfl, List.Subset.refl _⟩

private theorem Boot.link_manifest (h : Boot d₀ d)
    (hcurrent : ∀ entry, (d.slot .current).MayBe entry → entry = none)
    (hd : d.Updated (.manifest 1)
      ((d.slot (.manifest 1)).change (some (.durable initialLog))) d') : Boot d₀ d' := by
  have hslot : d'.slot .current = d.slot .current := hd.slot_of_ne nofun
  refine ⟨by rw [hslot]; exact h.current, ?_, ?_, h.frame.trans fun m hm ↦ ?_⟩
  · rw [hd.slot_self]
    rintro entry (rfl | hentry)
    · exact .inr rfl
    · exact h.manifest entry ((List.mem_cons.mp hentry).imp id id)
  · rw [hslot]
    rintro - ⟨file, hfile⟩
    cases hcurrent _ hfile
  · rw [hd.slot_of_ne fun heq ↦ hm (by simp [heq, bootNames])]
    exact ⟨rfl, List.Subset.refl _⟩

theorem Boot.syncDirectory (h : Boot d₀ d) : Boot d₀ d.syncDirectory := by
  have hmayBe {name : FileName} {entry : Option File}
      (hentry : (d.syncDirectory.slot name).MayBe entry) : (d.slot name).MayBe entry :=
    hentry.imp id nofun
  refine ⟨fun entry hentry ↦ h.current entry (hmayBe hentry),
    fun entry hentry ↦ h.manifest entry (hmayBe hentry), ?_, h.frame.trans (.syncDirectory d)⟩
  rintro hpast ⟨file, hfile⟩
  show Slot.mk (d.slot (.manifest 1)).entry [] = _
  rw [h.order hpast ⟨file, hmayBe hfile⟩]
  rfl

/-- `CURRENT` has not been installed. -/
def NoCurrent (d : Disk FileName) : Prop := ∀ entry, (d.slot .current).MayBe entry → entry = none

private theorem wp_removeTemporaryIfPresent {q : Except Error Unit → Disk FileName → Prop}
    (hn : n = .currentTmp ∨ n = .manifestTmp 1) (hallowed : ∀ operation, allowed operation)
    (hboot : Boot d₀ d)
    (hok : ∀ d', d'.file n = none → (∀ m ≠ n, d'.slot m = d.slot m) → Boot d₀ d' → q (.ok ()) d')
    (herr : faults = true → ∀ e d', Boot d₀ d' → q (.error e) d') :
    wp faults allowed (Boot d₀) q (removeTemporaryIfPresent n).run d := by
  refine wp_bind_io (wp_entryExists hboot (hallowed _) ?_ fun hfaults ↦ herr hfaults _ d hboot)
  cases hfile : d.file n with
  | none => exact wp_pure hboot (hok d hfile (fun _ _ ↦ rfl) hboot)
  | some file =>
    refine wp_remove hfile hboot (hallowed _) (fun d' hd' ↦ hboot.updated_tmp hn hd')
      (fun d' hd' ↦ hok d' ?_ (fun m hm ↦ hd'.slot_of_ne hm) (hboot.updated_tmp hn hd'))
      fun hfaults d' hd' ↦ herr hfaults _ d' ?_
    · exact hd'.file_self
    · rcases hd' with rfl | hd'
      · exact hboot
      · exact hboot.updated_tmp hn hd'

/-- Installs a temporary file under its name and makes the name durable. -/
theorem wp_installTmp {tmp name : FileName} {file : File} {operation sync : String}
    {q : Except Error Unit → Disk FileName → Prop} (htmp : tmp = .currentTmp ∨ tmp = .manifestTmp 1)
    (hne : tmp ≠ name) (hallowed : ∀ operation, allowed operation) (hboot : Boot d₀ d)
    (hfile : d.file tmp = some file) (hnone : d.file name = none)
    (hlink : ∀ d', d.Updated name ((d.slot name).change (some file)) d' → Boot d₀ d')
    (hok : ∀ d', d'.file name = some file → (∀ m, m ≠ tmp → m ≠ name → d'.file m = d.file m) →
      (∀ m, (d'.slot m).past = []) → Boot d₀ d' → q (.ok ()) d')
    (herr : faults = true → ∀ e d', Boot d₀ d' → q (.error e) d') :
    wp faults allowed (Boot d₀) q
      (do atomicInstall operation tmp name; fsCall sync .directory .syncDirectory : Fs Unit).run
        d := by
  have hself {d' d'' : Disk FileName} (hd : d'' = d' ∨ Boot d₀ d'') (h : Boot d₀ d') :
      Boot d₀ d'' :=
    hd.elim (fun h' ↦ h' ▸ h) id
  refine wp_bind_io (wp_bind_io (wp_link hfile hnone hboot (hallowed _) hlink (fun d₁ hd₁ ↦ ?_)
    fun hfaults d' hd' ↦ herr hfaults _ d' (hself (hd'.imp_right (hlink d')) hboot)))
  have hboot₁ := hlink d₁ hd₁
  have hfile₁ : d₁.file tmp = some file := by
    rw [Disk.file, hd₁.slot_of_ne hne]
    exact hfile
  refine wp_remove hfile₁ hboot₁ (hallowed _) (fun d' hd' ↦ hboot₁.updated_tmp htmp hd')
    (fun d₂ hd₂ ↦ ?_) fun hfaults d' hd' ↦
      herr hfaults _ d' (hself (hd'.imp_right (hboot₁.updated_tmp htmp)) hboot₁)
  have hboot₂ := hboot₁.updated_tmp htmp hd₂
  refine wp_syncDirectory hboot₂ (hallowed _) hboot₂.syncDirectory
    (hok _ ?_ (fun m hm hm' ↦ ?_) (fun _ ↦ rfl) hboot₂.syncDirectory) fun hfaults d' hd' ↦
      herr hfaults _ d' ?_
  · exact (hd₂.file_of_ne hne.symm).trans hd₁.file_self
  · exact (hd₂.file_of_ne hm).trans (hd₁.file_of_ne hm')
  · rcases hd' with rfl | rfl
    · exact hboot₂
    · exact hboot₂.syncDirectory

/-- A version set is being created and has its manifest, but no `CURRENT`. -/
structure HasManifest (d₀ d : Disk FileName) : Prop where
  boot : Boot d₀ d
  current : NoCurrent d
  manifest : d.file (.manifest 1) = some (.durable initialLog)
  durable : (d₀.slot (.manifest 1)).past = [] → (d.slot (.manifest 1)).past = []

private theorem wp_replaceCurrent {q : Except Error Unit → Disk FileName → Prop}
    (hallowed : ∀ operation, allowed operation) (h : HasManifest d₀ d)
    (htmp : d.file .currentTmp = none) (hok : ∀ d', Booted d₀ d' → q (.ok ()) d')
    (herr : faults = true → ∀ e d', Boot d₀ d' → q (.error e) d') :
    wp faults allowed (Boot d₀) q (replaceCurrent 1).run d := by
  have hinv {slot : Slot} {d' : Disk FileName} (hd' : d.Updated .currentTmp slot d') : Boot d₀ d' :=
    h.boot.updated_tmp (.inl rfl) hd'
  have hself {slot : Slot} {d' d'' : Disk FileName} (hd' : Boot d₀ d')
      (h : d'' = d' ∨ d'.Updated .currentTmp slot d'') : Boot d₀ d'' :=
    h.elim (fun h ↦ h ▸ hd') (hd'.updated_tmp (.inl rfl))
  refine wp_bind_io (wp_create htmp h.boot (hallowed _) (fun d' ↦ hinv) (fun d₁ hd₁ ↦ ?_)
    fun hfaults d' hd' ↦ herr hfaults _ d' (hself h.boot hd'))
  have hfile₁ : d₁.file .currentTmp = some ⟨[], []⟩ :=
      hd₁.file_self
  refine wp_bind_io (wp_append hfile₁ (hallowed _) (fun _ d' _ hd' ↦ hinv (hd₁.trans hd'))
    (fun d₂ hd₂ ↦ ?_) fun hfaults _ d' _ hd' ↦ herr hfaults _ d' (hinv (hd₁.trans hd')))
  have hfile₂ : d₂.file .currentTmp = some ⟨currentText 1, []⟩ :=
      hd₂.file_self
  have hd₂ := hd₁.trans hd₂
  refine wp_bind_io (wp_sync hfile₂ (hinv hd₂) (hallowed _) (fun d' hd' ↦ hinv (hd₂.trans hd'))
    (fun d₃ hd₃ ↦ ?_) fun hfaults d' hd' ↦ herr hfaults _ d' (hself (hinv hd₂) hd'))
  have hfile₃ : d₃.file .currentTmp = some (.durable (currentText 1)) :=
      hd₃.file_self
  have hd₃ := hd₂.trans hd₃
  have hmanifest : d₃.file (.manifest 1) = some (.durable initialLog) :=
    (hd₃.file_of_ne (by nofun)).trans h.manifest
  refine wp_installTmp (.inl rfl) nofun hallowed (hinv hd₃) hfile₃ ?_ (fun d' hd' ↦ ?_)
    (fun d' hcurrent hfiles hpast hboot ↦ hok d' ⟨?_, ?_, hboot.frame⟩) herr
  · exact (hd₃.file_of_ne (by nofun)).trans (h.current _ (.inl rfl))
  · refine (hinv hd₃).link_current (fun hpast ↦ ?_) hd'
    exact Slot.ext hmanifest ((congrArg Slot.past (hd₃.slot_of_ne (by nofun))).trans
      (h.durable hpast))
  · exact Slot.ext hcurrent (hpast _)
  · exact Slot.ext ((hfiles _ (by nofun) (by nofun)).trans hmanifest) (hpast _)

private theorem initialLog_eq : initialLog = (emit logFraming 0 true initialEdit.bytes).1 := by
  rw [initialLog, logBytes]
  exact List.append_nil _

private theorem wp_installManifest {q : Except Error Unit → Disk FileName → Prop}
    (hallowed : ∀ operation, allowed operation) (hboot : Boot d₀ d) (hcurrent : NoCurrent d)
    (hmanifest : d.file (.manifest 1) = none) (htmp : d.file (.manifestTmp 1) = none)
    (hok : ∀ d', d'.file .currentTmp = d.file .currentTmp → HasManifest d₀ d' → q (.ok ()) d')
    (herr : faults = true → ∀ e d', Boot d₀ d' → q (.error e) d') :
    wp faults allowed (Boot d₀) q (VersionSet.installManifest initialEdit.bytes).run d := by
  have hinv {slot : Slot} {d' : Disk FileName} (hd' : d.Updated (.manifestTmp 1) slot d') :
      Boot d₀ d' :=
    hboot.updated_tmp (.inr rfl) hd'
  have hself {slot : Slot} {d' d'' : Disk FileName} (hd' : Boot d₀ d')
      (h : d'' = d' ∨ d'.Updated (.manifestTmp 1) slot d'') : Boot d₀ d'' :=
    h.elim (fun h ↦ h ▸ hd') (hd'.updated_tmp (.inr rfl))
  refine wp_bind_io (wp_create htmp hboot (hallowed _) (fun d' ↦ hinv) (fun d₁ hd₁ ↦ ?_)
    fun hfaults d' hd' ↦ herr hfaults _ d' (hself hboot hd'))
  refine wp_bind_io (wp_bind_io (wp_writeRecord hd₁.file_self (fun _ ↦ hallowed _)
    (fun _ d' _ hd' ↦ hinv (hd₁.trans hd')) (fun d₂ hd₂ ↦ ?_)
    fun hfaults e _ d' _ hd' ↦ herr hfaults e d' (hinv (hd₁.trans hd'))))
  have hfile₂ : d₂.file (.manifestTmp 1) = some ⟨initialLog, []⟩ := by
    rw [initialLog_eq]
    exact hd₂.file_self
  have hd₂ := hd₁.trans hd₂
  refine wp_pure (hinv hd₂) (wp_bind_io (wp_sync hfile₂ (hinv hd₂) (hallowed _)
    (fun d' hd' ↦ hinv (hd₂.trans hd')) (fun d₃ hd₃ ↦ ?_)
    fun hfaults d' hd' ↦ herr hfaults _ d' (hself (hinv hd₂) hd')))
  have hfile₃ : d₃.file (.manifestTmp 1) = some (.durable initialLog) := hd₃.file_self
  have hd₃ := hd₂.trans hd₃
  have hcurrent₃ : NoCurrent d₃ := by
    rw [NoCurrent, hd₃.slot_of_ne (by nofun)]
    exact hcurrent
  refine wp_installTmp (.inr rfl) nofun hallowed (hinv hd₃) hfile₃
    ((hd₃.file_of_ne (by nofun)).trans hmanifest)
    (fun d' hd' ↦ (hinv hd₃).link_manifest hcurrent₃ hd')
    (fun d' hfile hfiles hpast hboot ↦ hok d' ?_ ⟨hboot, ?_, hfile, fun _ ↦ hpast _⟩) herr
  · exact (hfiles _ (by nofun) (by nofun)).trans (hd₃.file_of_ne (by nofun))
  · rintro entry (rfl | hentry)
    · exact (hfiles _ (by nofun) (by nofun)).trans (hcurrent₃ _ (.inl rfl))
    · rw [hpast] at hentry
      cases hentry

omit [Crc32c] in
theorem initialEdit_encodable : initialEdit.Encodable :=
  ⟨by decide, nofun, by decide, nofun, by decide⟩

/-- The state of a new version set. -/
def initialState : VersionState := ⟨.empty, {1}, ⟨2, 0, 0, 0, 0⟩⟩

omit [Crc32c] in
theorem recoverable_initialEdit : Recoverable 1 [initialEdit] initialState where
  ne_nil := List.cons_ne_nil _ _
  replay := by
    have happly : (VersionState.initial 1).apply true initialEdit = .ok initialState := by
      refine VersionState.apply_eq_ok.mpr
        ⟨⟨⟨by decide, by decide, by decide, by decide, by decide⟩, nofun,
          ⟨by decide, by decide, by decide⟩, ⟨?_, by decide, nofun, nofun, nofun⟩⟩,
        Version.apply_eq_ok.mpr rfl, by decide, rfl⟩
      intro number hnumber
      rw [Finset.mem_singleton.mp hnumber]
      decide
    rw [VersionState.replay, List.foldlM_cons, happly]
    rfl
  next_ne := by decide

omit [Crc32c] in
private theorem present_initialState (d : Disk FileName) : initialState.version.Present d :=
  fun _ _ hfile ↦ absurd hfile List.not_mem_nil

private theorem whole_initialLog : Whole logFraming manifestFormat [initialEdit] initialLog := by
  have h := (@Whole.nil _ _ logFraming manifestFormat).append initialEdit_encodable
    (Nat.zero_le _) rfl
  rw [initialLog_eq]
  exact h

omit [Crc32c] in
theorem parseCurrent_currentText : parseCurrent (currentText 1) = .ok 1 := by decide +kernel

/-- The first edit is one fragment. -/
theorem emit_initialEdit : (emit logFraming 0 true initialEdit.bytes).2
    = initialEdit.bytes.length + headerBytes := by
  have hne : initialEdit.bytes ≠ [] := List.cons_ne_nil _ _
  have hlength : fragmentLength logFraming 0 initialEdit.bytes = initialEdit.bytes.length := rfl
  rw [emit_snd_of_ne_nil 0 true hne, hlength, List.drop_length, emit_nil]
  rfl

private theorem VersionSet.logs_initial (vs : VersionSet) (hnumber : vs.manifestNumber = 1)
    (hmanifest : vs.manifest = ⟨.manifest 1, initialEdit.bytes.length + headerBytes⟩)
    (hstate : vs.state = initialState) (husable : vs.manifestUsable = true) :
    vs.Logs [initialEdit] initialLog where
  whole := whole_initialLog
  replay := by rw [hnumber, hstate]; exact recoverable_initialEdit.replay
  path := by rw [hmanifest, hnumber]
  offset_le := by rw [hmanifest]; decide
  offset_mod := by
    have h := (emit_offset (F := logFraming) 0 true initialEdit.bytes (Nat.zero_le _) rfl).2
    rw [Nat.zero_add, emit_initialEdit, ← initialLog_eq] at h
    rw [hmanifest]
    exact h
  usable := husable

private theorem Booted.boot (h : Booted d₀ d) : Boot d₀ d := by
  refine ⟨?_, ?_, fun _ _ ↦ h.manifest, h.frame⟩
  · rw [h.current]
    rintro entry (rfl | hentry)
    · exact .inr rfl
    · cases hentry
  · rw [h.manifest]
    rintro entry (rfl | hentry)
    · exact .inr rfl
    · cases hentry

/-- Writing the same file again changes nothing. -/
theorem Booted.rewrite (h : Booted d₀ d)
    (hd : d.Updated (.manifest 1) ((d.slot (.manifest 1)).write (.durable initialLog)) d') :
    Booted d₀ d' := by
  have hslot : d'.slot = d.slot := by
    rw [hd, h.manifest]
    refine Function.update_eq_self_iff.mpr ?_
    rw [h.manifest]
    rfl
  refine ⟨by rw [hslot]; exact h.current, by rw [hslot]; exact h.manifest, fun n hn ↦ ?_⟩
  rw [hslot]
  exact h.frame n hn

/-- **Creation.** The rule for `VersionSet.create`, on a disk without `CURRENT` whose manifest, if
there is one, was left by an interrupted creation. -/
theorem VersionSet.wp_create {q : Except Error VersionSet → Disk FileName → Prop}
    (hallowed : ∀ operation, allowed operation) (hcurrent : NoCurrent d)
    (hmanifest : ∀ entry, (d.slot (.manifest 1)).MayBe entry →
      entry = none ∨ entry = some (.durable initialLog))
    (hok : ∀ vs d', vs.Logs [initialEdit] initialLog → vs.manifestNumber = 1 →
      vs.state = initialState → Booted d d' → q (.ok vs) d')
    (herr : faults = true → ∀ e d', Boot d d' → q (.error e) d') :
    wp faults allowed (Boot d) q create.run d := by
  have hboot : Boot d d :=
    { current := fun entry hentry ↦ .inl (hcurrent entry hentry)
      manifest := hmanifest
      order := fun _ ⟨file, hfile⟩ ↦ nomatch hcurrent _ hfile
      frame := .refl d }
  refine wp_bind_io (wp_entryExists hboot (hallowed _) ?_ fun hfaults ↦ herr hfaults _ d hboot)
  have hnone : d.file .current = none := hcurrent _ (.inl rfl)
  rw [hnone]
  refine wp_bind_io (wp_entryExists hboot (hallowed _) ?_ fun hfaults ↦ herr hfaults _ d hboot)
  rcases hmanifest _ (.inl rfl) with hfile | hfile
  · -- nothing is there yet
    have hfile : d.file (.manifest 1) = none := hfile
    rw [hfile]
    refine wp_bind_io (wp_removeTemporaryIfPresent (.inr rfl) hallowed hboot
      (fun d₁ htmp₁ hslot₁ hboot₁ ↦ ?_) herr)
    refine wp_bind_io (wp_removeTemporaryIfPresent (.inl rfl) hallowed hboot₁
      (fun d₂ htmp₂ hslot₂ hboot₂ ↦ ?_) herr)
    refine wp_bind_io (wp_ofExcept hboot₂ ?_)
    rw [encodeEdit_eq_ok.mpr ⟨initialEdit_encodable, rfl⟩]
    have hslot {name : FileName} (hname : name ≠ .manifestTmp 1) (hname' : name ≠ .currentTmp) :
        d₂.slot name = d.slot name := (hslot₂ name hname').trans (hslot₁ name hname)
    have hcurrent₂ : NoCurrent d₂ := by
      rw [NoCurrent, hslot (by nofun) (by nofun)]
      exact hcurrent
    refine wp_bind_io (wp_installManifest hallowed hboot₂ hcurrent₂
      ((congrArg Slot.entry (hslot (by nofun) (by nofun))).trans hfile)
      ((congrArg Slot.entry (hslot₂ _ (by nofun))).trans htmp₁) (fun d₃ htmp₃ hhas ↦ ?_) herr)
    refine wp_bind_io (wp_replaceCurrent hallowed hhas (htmp₃.trans htmp₂)
      (fun d₄ hbooted ↦ ?_) herr)
    have hfile₄ : d₄.file (.manifest 1) = some (.durable initialLog) :=
      congrArg Slot.entry hbooted.manifest
    exact wp_bind_io (wp_read hbooted.boot (hallowed _)
      (fun _ _ ↦ wp_pure hbooted.boot
        (hok _ d₄ (logs_initial _ rfl rfl rfl rfl) rfl rfl hbooted))
      (fun hnone ↦ nomatch hfile₄.symm.trans hnone) fun hfaults ↦ herr hfaults _ d₄ hbooted.boot)
  · -- an earlier creation got as far as the manifest
    have hfile : d.file (.manifest 1) = some (.durable initialLog) := hfile
    rw [hfile]
    have hhas : HasManifest d d := ⟨hboot, hcurrent, hfile, id⟩
    refine wp_bind_io (wp_read hboot (hallowed _) (fun _ _ ↦ ?_)
      (fun hnone ↦ nomatch hfile.symm.trans hnone) fun hfaults ↦ herr hfaults _ d hboot)
    refine wp_bind_io (wp_validateInterruptedBootstrap hfile rfl whole_initialLog.good
      recoverable_initialEdit (present_initialState d) (fun _ ↦ hallowed _) hboot ?_
      fun hfaults e ↦ herr hfaults e d hboot)
    refine wp_bind_io (wp_removeTemporaryIfPresent (.inl rfl) hallowed hboot
      (fun d₁ htmp₁ hslot₁ hboot₁ ↦ ?_) herr)
    have hhas₁ : HasManifest d d₁ := by
      refine ⟨hboot₁, ?_, (congrArg Slot.entry (hslot₁ _ (by nofun))).trans hfile, fun h ↦ ?_⟩
      · rw [NoCurrent, hslot₁ _ (by nofun)]
        exact hcurrent
      · rw [hslot₁ _ (by nofun)]
        exact h
    refine wp_bind_io (wp_replaceCurrent hallowed hhas₁ htmp₁ (fun d₂ hbooted ↦ ?_) herr)
    refine wp_recover (congrArg Slot.entry hbooted.current) parseCurrent_currentText
      (congrArg Slot.entry hbooted.manifest) whole_initialLog.torn recoverable_initialEdit
      (present_initialState d₂) (fun _ ↦ hallowed _) ⟨fun _ ↦ hallowed _, hallowed _⟩ hbooted.boot
        ?_ ?_ herr
    · intro bytes d' hwhole hpre hd'
      rw [eq_logBytes hpre hwhole] at hd'
      exact (hbooted.rewrite (hd'.elim id id)).boot
    · rintro vs file' d' hlogs hnumber hstate (_ | ⟨hpre, hd'⟩)
      · exact hok vs d₂ hlogs hnumber hstate hbooted
      · obtain rfl := eq_logBytes hpre hlogs.whole
        exact hok vs d' hlogs hnumber hstate (hbooted.rewrite hd')

end Create

end MeteorDB
