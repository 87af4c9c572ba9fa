import MeteorDB.VersionSet
import MeteorDB.Options

/-!
# Read-only inspection of a manifest

`inspectManifest` replays the manifest that `CURRENT` names without changing anything. It has a
replay loop of its own: besides the checks of recovery it keeps samples of the edits and of the live
tables, and it gives up when the state outgrows the limits its caller trusts. Unlike recovery it
rejects a torn tail, and it compares the length of every live table with the recorded one.

`inspectManifest_agrees` says that where no limit is hit and the tables are complete, inspection and
recovery accept the same directories, a torn tail apart, and find the same state.
-/

namespace MeteorDB

open ByteString Decoder BlockLog CrashFs

/-! ## Limits and documents -/

/-- The limits on what an inspection retains. -/
structure ManifestInspectionOptions where
  maxEdits : ℕ
  maxFiles : ℕ
  maxBytes : ℕ
  maxHistoricalFiles : ℕ
  maxEdits_lt : maxEdits < usizeRange
  maxFiles_lt : maxFiles < usizeRange
  maxBytes_lt : maxBytes < usizeRange
  maxHistoricalFiles_lt : maxHistoricalFiles < usizeRange

/-- No limits but those of the machine. -/
def ManifestInspectionOptions.default : ManifestInspectionOptions :=
  ⟨usizeRange - 1, usizeRange - 1, usizeRange - 1, usizeRange - 1, by decide, by decide, by decide,
    by decide⟩

/-- A table of the manifest. -/
structure ManifestFileInspection where
  level : ℕ
  number : U64
  fileSize : U64
  smallestKeyHex : String
  largestKeyHex : String
  deriving DecidableEq

/-- An edit of the manifest. -/
structure ManifestEditInspection where
  index : ℕ
  addedFiles : List ManifestFileInspection
  addedFilesTotal : ℕ
  addedFilesTruncated : Bool
  deletedFiles : List (ℕ × U64)
  deletedFilesTotal : ℕ
  deletedFilesTruncated : Bool
  nextFileNumber : Option U64
  lastSequence : Option SequenceNumber
  logNumber : Option U64
  activeLogNumber : Option U64
  walSequence : Option SequenceNumber
  deriving DecidableEq

/-- The replayed manifest and the layout of the live tables. -/
structure ManifestInspection where
  formatVersion : ℕ
  manifest : String
  fileBytes : ℕ
  edits : List ManifestEditInspection
  editsTotal : ℕ
  editsTruncated : Bool
  levels : List (List ManifestFileInspection)
  filesTotal : ℕ
  levelFileCounts : List ℕ
  filesTruncated : Bool
  nextFileNumber : U64
  lastSequence : SequenceNumber
  logNumber : U64
  activeLogNumber : U64
  walSequence : SequenceNumber
  deriving DecidableEq

/-- Two lowercase digits for each byte. -/
def encodeHex (bytes : Bytes) : String :=
  String.ofList (bytes.flatMap fun byte ↦
    [Nat.digitChar (byte.val / 16), Nat.digitChar (byte.val % 16)])

def inspectFile (level : ℕ) (file : FileMeta) : ManifestFileInspection :=
  ⟨level, file.number, file.fileSize, encodeHex file.smallest.asBytes,
    encodeHex file.largest.asBytes⟩

/-- The key bytes of a table, saturating. -/
def manifestFileKeyBytes (file : FileMeta) : ℕ :=
  min (file.smallest.asBytes.length + file.largest.asBytes.length) (usizeRange - 1)

/-! ## The replay loop -/

/-- One table counted against the limits. -/
def countLiveFile (options : ManifestInspectionOptions) (counted : ℕ × ℕ) (file : ℕ × FileMeta) :
    Result (ℕ × ℕ) :=
  match checkedAdd counted.1 1 with
  | none => .error (.invalidArgument "live SSTable count exceeds usize")
  | some files =>
    if options.maxFiles < files then
      .error (.invalidArgument ("live SSTable count exceeds max_files "
        ++ toString options.maxFiles))
    else
      match checkedAdd counted.2 (manifestFileKeyBytes file.2) with
      | none => .error (.invalidArgument "live SSTable key bytes exceed usize")
      | some keyBytes =>
        if options.maxBytes < keyBytes then
          .error (.invalidArgument ("live SSTable key bytes exceed max_bytes "
            ++ toString options.maxBytes))
        else .ok (files, keyBytes)

/-- The check of a version against the limits. -/
def validateInspectionStateLimits (version : Version) (options : ManifestInspectionOptions) :
    Result Unit := do
  let _ ← version.referencedFiles.foldlM (countLiveFile options) (0, 0)
  return ()

/-- Remembers a file number, within the limit. -/
def insertHistoricalFileNumber (used : Finset U64) (number : U64) (maximum : ℕ) :
    Result (Finset U64) :=
  if number ∈ used then .ok used
  else if used.card = maximum then
    .error (.invalidArgument ("historical file number count exceeds max_historical_files "
      ++ toString maximum))
  else .ok (insert number used)

/-- The added tables that are retained, until one does not fit, and the key bytes then retained. -/
def sampleAdded (maxBytes retainedBytes : ℕ) :
    List (ℕ × FileMeta) → List ManifestFileInspection × ℕ
  | [] => ([], retainedBytes)
  | (level, file) :: rest =>
    match checkedAdd retainedBytes (manifestFileKeyBytes file) with
    | none => ([], retainedBytes)
    | some total =>
      if maxBytes < total then ([], retainedBytes)
      else
        let sampled := sampleAdded maxBytes total rest
        (inspectFile level file :: sampled.1, sampled.2)

/-- The document of an edit, and the tables and key bytes retained with it. -/
def inspectEdit (index : ℕ) (edit : VersionEdit) (availableFiles retainedFiles maxBytes
    retainedBytes : ℕ) : ManifestEditInspection × ℕ × ℕ :=
  let sampled := sampleAdded maxBytes retainedBytes (edit.addedFiles.take availableFiles)
  let retainedAdded := sampled.1.length
  let retainedDeleted := min edit.deletedFiles.length (availableFiles - retainedAdded)
  ({ index
     addedFiles := sampled.1
     addedFilesTotal := edit.addedFiles.length
     addedFilesTruncated := retainedAdded < edit.addedFiles.length
     deletedFiles := edit.deletedFiles.take retainedDeleted
     deletedFilesTotal := edit.deletedFiles.length
     deletedFilesTruncated := retainedDeleted < edit.deletedFiles.length
     nextFileNumber := edit.nextFileNumber
     lastSequence := edit.lastSequence
     logNumber := edit.logNumber
     activeLogNumber := edit.activeLogNumber
     walSequence := edit.walSequence },
    retainedFiles + retainedAdded + retainedDeleted, sampled.2)

/-- What the replay loop carries: the state of the edits so far, and what is retained of them. -/
structure Inspecting where
  state : VersionState
  edits : List ManifestEditInspection
  retainedFiles : ℕ
  retainedBytes : ℕ
  editsTotal : ℕ

/-- Retains a sample of an edit, while there is room for one. -/
def Inspecting.sample (options : ManifestInspectionOptions) (s : Inspecting) (edit : VersionEdit) :
    Inspecting :=
  if s.edits.length < options.maxEdits then
    let inspected := inspectEdit s.editsTotal edit (options.maxFiles - s.retainedFiles)
      s.retainedFiles options.maxBytes s.retainedBytes
    { s with
      edits := s.edits ++ [inspected.1]
      retainedFiles := inspected.2.1
      retainedBytes := inspected.2.2 }
  else s

/-- The callback of the inspection. -/
def inspectStep (options : ManifestInspectionOptions) (s : Inspecting) (edit : VersionEdit) :
    Result Inspecting := do
  let counters ← updateCounters true edit s.state.counters
  validateFileNumbers true edit counters.nextFileNumber s.state.usedFileNumbers
  let version ← VersionState.applyVersion true s.state.version edit
  validateInspectionStateLimits version options
  let used ← edit.addedFiles.foldlM
    (fun used file ↦ insertHistoricalFileNumber used file.2.number options.maxHistoricalFiles)
    s.state.usedFileNumbers
  let sampled := s.sample options edit
  match checkedAdd s.editsTotal 1 with
  | none => throw (manifestCorruption "manifest edit count exceeds usize")
  | some editsTotal => return { sampled with state := ⟨version, used, counters⟩, editsTotal }

/-! ## The live tables -/

/-- The tables of a level: each must have its recorded length, and is retained if there is room. -/
def inspectFiles (options : ManifestInspectionOptions) (level : ℕ) :
    List FileMeta → ℕ × ℕ → Fs (List ManifestFileInspection × ℕ × ℕ)
  | [], retained => return ([], retained)
  | file :: rest, (retainedFiles, retainedBytes) => do
    let path := .sst file.number
    let bytes ← fsCall "stat referenced SSTable" path (.read path)
    if bytes.length ≠ file.fileSize.val then
      throw (manifestCorruption ("referenced SSTable " ++ path.display ++ " has length "
        ++ toString bytes.length ++ ", expected " ++ toString file.fileSize.val))
    else
      let keyBytes := manifestFileKeyBytes file
      if retainedFiles < options.maxFiles
          ∧ (checkedAdd retainedBytes keyBytes).any (· ≤ options.maxBytes) then
        let (files, retained) ←
          inspectFiles options level rest (retainedFiles + 1, retainedBytes + keyBytes)
        return (inspectFile level file :: files, retained)
      else inspectFiles options level rest (retainedFiles, retainedBytes)

/-- The levels of a version, each with the number of its tables, and the number of all tables. -/
def inspectLevels (options : ManifestInspectionOptions) (version : Version) :
    List (Fin numLevels) → ℕ → ℕ × ℕ →
      Fs (List (List ManifestFileInspection) × List ℕ × ℕ)
  | [], filesTotal, _ => return ([], [], filesTotal)
  | level :: rest, filesTotal, retained => do
    let levelCount := (version.levels level).length
    match checkedAdd filesTotal levelCount with
    | none => throw (manifestCorruption "live SSTable count exceeds usize")
    | some filesTotal =>
      let (files, retained) ← inspectFiles options level (version.levels level) retained
      let (levels, counts, filesTotal) ← inspectLevels options version rest filesTotal retained
      return (files :: levels, levelCount :: counts, filesTotal)

/-! ## Where no limit is hit -/

/-- The key bytes of some tables. -/
def keyBytesOf (files : List (ℕ × FileMeta)) : ℕ := (files.map (manifestFileKeyBytes ·.2)).sum

/-- The tables that an edit names. -/
def VersionEdit.fileCount (edit : VersionEdit) : ℕ :=
  edit.addedFiles.length + edit.deletedFiles.length

/-- The state is within the limits on live tables, their key bytes and the file numbers. -/
structure WithinLimits (options : ManifestInspectionOptions) (state : VersionState) : Prop where
  files_le : state.version.referencedFiles.length ≤ options.maxFiles
  bytes_le : keyBytesOf state.version.referencedFiles ≤ options.maxBytes
  numbers_le : state.usedFileNumbers.card ≤ options.maxHistoricalFiles

/-- The limits are never hit by the edits of a manifest: every state they lead to is within them,
and there is room to retain every edit and, after the last one, every live table. -/
structure Ample (options : ManifestInspectionOptions) (number : U64) (edits : List VersionEdit) :
    Prop where
  positive : 0 < options.maxEdits ∧ 0 < options.maxFiles ∧ 0 < options.maxBytes
  edits_le : edits.length ≤ options.maxEdits
  within : ∀ k state, VersionState.replay number (edits.take k) = .ok state →
    WithinLimits options state
  files_le : ∀ state, VersionState.replay number edits = .ok state →
    (edits.map VersionEdit.fileCount).sum + state.version.referencedFiles.length ≤ options.maxFiles
  bytes_le : ∀ state, VersionState.replay number edits = .ok state →
    (edits.map fun edit ↦ keyBytesOf edit.addedFiles).sum
      + keyBytesOf state.version.referencedFiles ≤ options.maxBytes

variable {options : ManifestInspectionOptions}

private theorem keyBytesOf_cons (file : ℕ × FileMeta) (files : List (ℕ × FileMeta)) :
    keyBytesOf (file :: files) = manifestFileKeyBytes file.2 + keyBytesOf files := by
  rw [keyBytesOf, List.map_cons, List.sum_cons]
  rfl

private theorem checkedAdd_of_lt {a b : ℕ} (h : a + b < usizeRange) :
    checkedAdd a b = some (a + b) :=
  if_pos h

private theorem foldlM_countLiveFile {files : List (ℕ × FileMeta)} {counted : ℕ × ℕ}
    (hfiles : counted.1 + files.length ≤ options.maxFiles)
    (hbytes : counted.2 + keyBytesOf files ≤ options.maxBytes) :
    ∃ result, files.foldlM (countLiveFile options) counted = .ok result := by
  have hmaxFiles := options.maxFiles_lt
  have hmaxBytes := options.maxBytes_lt
  induction files generalizing counted with
  | nil => exact ⟨counted, rfl⟩
  | cons file files ih =>
    rw [List.length_cons] at hfiles
    rw [keyBytesOf_cons] at hbytes
    have hstep : countLiveFile options counted file
        = .ok (counted.1 + 1, counted.2 + manifestFileKeyBytes file.2) := by
      rw [countLiveFile, checkedAdd_of_lt (by omega)]
      simp only
      rw [if_neg (by omega), checkedAdd_of_lt (by omega)]
      simp only
      rw [if_neg (by omega)]
    rw [List.foldlM_cons, hstep]
    exact ih (by simp only; omega) (by simp only; omega)

private theorem validateInspectionStateLimits_of_within {state : VersionState}
    (h : WithinLimits options state) :
    validateInspectionStateLimits state.version options = .ok () := by
  obtain ⟨result, hfold⟩ := @foldlM_countLiveFile options
    state.version.referencedFiles (0, 0) (by rw [Nat.zero_add]; exact h.files_le)
    (by rw [Nat.zero_add]; exact h.bytes_le)
  rw [validateInspectionStateLimits, hfold]
  rfl

/-- The file numbers after an edit, however they were limited. -/
theorem foldlM_insertHistorical_eq_ok {files : List (ℕ × FileMeta)} {used result : Finset U64}
    {maximum : ℕ}
    (h : files.foldlM (fun used file ↦ insertHistoricalFileNumber used file.2.number maximum) used
      = .ok result) : result = used ∪ (files.map (·.2.number)).toFinset := by
  induction files generalizing used with
  | nil =>
    obtain rfl := Except.ok.inj h
    simp
  | cons file files ih =>
    rw [List.foldlM_cons] at h
    obtain ⟨next, hnext, h⟩ := bind_eq_ok.mp h
    rw [ih h, List.map_cons, List.toFinset_cons]
    unfold insertHistoricalFileNumber at hnext
    split_ifs at hnext with hmem hcard
    · obtain rfl := Except.ok.inj hnext
      rw [Finset.union_insert, ← Finset.insert_union, Finset.insert_eq_of_mem hmem]
    · obtain rfl := Except.ok.inj hnext
      rw [Finset.union_insert, Finset.insert_union]

private theorem foldlM_insertHistorical_of_card_le {files : List (ℕ × FileMeta)} {used : Finset U64}
    {maximum : ℕ} (h : (used ∪ (files.map (·.2.number)).toFinset).card ≤ maximum) :
    ∃ result,
      files.foldlM (fun used file ↦ insertHistoricalFileNumber used file.2.number maximum) used
        = .ok result := by
  induction files generalizing used with
  | nil => exact ⟨used, rfl⟩
  | cons file files ih =>
    rw [List.map_cons, List.toFinset_cons, Finset.union_insert] at h
    rw [List.foldlM_cons]
    by_cases hmem : file.2.number ∈ used
    · rw [insertHistoricalFileNumber, if_pos hmem]
      rw [← Finset.insert_union, Finset.insert_eq_of_mem hmem] at h
      exact ih h
    · have hcard : used.card < maximum := by
        have hsub : insert file.2.number used
            ⊆ insert file.2.number (used ∪ (files.map (·.2.number)).toFinset) :=
          Finset.insert_subset_insert _ Finset.subset_union_left
        have hle := (Finset.card_le_card hsub).trans h
        rw [Finset.card_insert_of_notMem hmem] at hle
        omega
      rw [insertHistoricalFileNumber, if_neg hmem, if_neg hcard.ne]
      rw [← Finset.insert_union] at h
      exact ih h

/-! ### What a sample takes -/

private theorem sampleAdded_le (maxBytes retainedBytes : ℕ) (files : List (ℕ × FileMeta)) :
    (sampleAdded maxBytes retainedBytes files).1.length ≤ files.length ∧
      (sampleAdded maxBytes retainedBytes files).2 ≤ retainedBytes + keyBytesOf files := by
  induction files generalizing retainedBytes with
  | nil => exact ⟨le_rfl, Nat.le_add_right _ _⟩
  | cons file files ih =>
    obtain ⟨level, file⟩ := file
    rw [keyBytesOf_cons, sampleAdded]
    unfold checkedAdd
    split_ifs with hlt
    · simp only
      split_ifs with hmax
      · exact ⟨Nat.zero_le _, Nat.le_add_right _ _⟩
      · obtain ⟨hlength, hbytes⟩ := ih (retainedBytes + manifestFileKeyBytes file)
        simp only [List.length_cons]
        omega
    · exact ⟨Nat.zero_le _, Nat.le_add_right _ _⟩

private theorem keyBytesOf_take_le (n : ℕ) (files : List (ℕ × FileMeta)) :
    keyBytesOf (files.take n) ≤ keyBytesOf files :=
  ((List.take_sublist n files).map _).sum_le_sum fun _ _ ↦ Nat.zero_le _

private theorem Inspecting.sample_le (s : Inspecting) (edit : VersionEdit) :
    (s.sample options edit).retainedFiles ≤ s.retainedFiles + edit.fileCount ∧
      (s.sample options edit).retainedBytes ≤ s.retainedBytes + keyBytesOf edit.addedFiles := by
  unfold sample
  split_ifs with hroom
  · obtain ⟨hlength, hbytes⟩ := sampleAdded_le options.maxBytes s.retainedBytes
      (edit.addedFiles.take (options.maxFiles - s.retainedFiles))
    have htake := keyBytesOf_take_le (options.maxFiles - s.retainedFiles) edit.addedFiles
    have hle := List.length_take_le' (options.maxFiles - s.retainedFiles) edit.addedFiles
    simp only [inspectEdit, VersionEdit.fileCount]
    omega
  · exact ⟨Nat.le_add_right _ _, Nat.le_add_right _ _⟩

/-! ### The replay loop against recovery -/

/-- The checks of recovery are among those of the inspection. -/
theorem inspectStep_eq_ok {s s' : Inspecting} {edit : VersionEdit}
    (h : inspectStep options s edit = .ok s') :
    s.state.apply true edit = .ok s'.state ∧ s'.editsTotal = s.editsTotal + 1 ∧
      s'.retainedFiles ≤ s.retainedFiles + edit.fileCount ∧
      s'.retainedBytes ≤ s.retainedBytes + keyBytesOf edit.addedFiles := by
  obtain ⟨hfiles, hbytes⟩ := @Inspecting.sample_le options s edit
  unfold inspectStep at h
  obtain ⟨counters, hcounters, h⟩ := bind_eq_ok.mp h
  obtain ⟨⟨⟩, hnumbers, h⟩ := bind_eq_ok.mp h
  obtain ⟨version, hversion, h⟩ := bind_eq_ok.mp h
  obtain ⟨⟨⟩, -, h⟩ := bind_eq_ok.mp h
  obtain ⟨used, hused, h⟩ := bind_eq_ok.mp h
  obtain rfl := foldlM_insertHistorical_eq_ok hused
  unfold checkedAdd at h
  split_ifs at h with hlt
  obtain rfl := Except.ok.inj h
  refine ⟨?_, rfl, hfiles, hbytes⟩
  refine bind_eq_ok.mpr ⟨counters, hcounters, ?_⟩
  refine bind_eq_ok.mpr ⟨(), hnumbers, ?_⟩
  exact bind_eq_ok.mpr ⟨version, hversion, rfl⟩

/-- An edit that recovery accepts is accepted by the inspection while no limit is hit. -/
theorem exists_inspectStep {s : Inspecting} {edit : VersionEdit} {state : VersionState}
    (h : s.state.apply true edit = .ok state) (hwithin : WithinLimits options state)
    (htotal : s.editsTotal + 1 < usizeRange) : ∃ s', inspectStep options s edit = .ok s' := by
  have hcard : (s.state.usedFileNumbers ∪ (edit.addedFiles.map (·.2.number)).toFinset).card
      ≤ options.maxHistoricalFiles := by
    rw [← (VersionState.apply_eq_ok.mp h).2.2.1]
    exact hwithin.numbers_le
  rw [VersionState.apply] at h
  obtain ⟨counters, hcounters, h⟩ := bind_eq_ok.mp h
  obtain ⟨⟨⟩, hnumbers, h⟩ := bind_eq_ok.mp h
  obtain ⟨version, hversion, h⟩ := bind_eq_ok.mp h
  obtain rfl := Except.ok.inj h
  obtain ⟨used, hused⟩ := foldlM_insertHistorical_of_card_le hcard
  refine ⟨{ s.sample options edit with
    state := ⟨version, used, counters⟩, editsTotal := s.editsTotal + 1 }, ?_⟩
  refine bind_eq_ok.mpr ⟨counters, hcounters, ?_⟩
  refine bind_eq_ok.mpr ⟨(), hnumbers, ?_⟩
  refine bind_eq_ok.mpr ⟨version, hversion, ?_⟩
  refine bind_eq_ok.mpr ⟨(), validateInspectionStateLimits_of_within hwithin, ?_⟩
  refine bind_eq_ok.mpr ⟨used, hused, ?_⟩
  rw [checkedAdd_of_lt htotal]
  rfl

private theorem foldlM_inspectStep_eq_ok {edits : List VersionEdit} {s s' : Inspecting}
    (h : edits.foldlM (inspectStep options) s = .ok s') :
    edits.foldlM (VersionState.apply true) s.state = .ok s'.state ∧
      s'.editsTotal = s.editsTotal + edits.length ∧
      s'.retainedFiles ≤ s.retainedFiles + (edits.map VersionEdit.fileCount).sum ∧
      s'.retainedBytes
        ≤ s.retainedBytes + (edits.map fun edit ↦ keyBytesOf edit.addedFiles).sum := by
  induction edits generalizing s with
  | nil =>
    obtain rfl := Except.ok.inj h
    exact ⟨rfl, rfl, le_rfl, le_rfl⟩
  | cons edit edits ih =>
    rw [List.foldlM_cons] at h
    obtain ⟨next, hnext, h⟩ := bind_eq_ok.mp h
    obtain ⟨happly, htotal, hfiles, hbytes⟩ := inspectStep_eq_ok hnext
    obtain ⟨hrest, htotal', hfiles', hbytes'⟩ := ih h
    refine ⟨?_, ?_, ?_, ?_⟩
    · rw [List.foldlM_cons, happly]
      exact hrest
    · rw [List.length_cons]
      omega
    · rw [List.map_cons, List.sum_cons]
      omega
    · rw [List.map_cons, List.sum_cons]
      omega

private theorem exists_foldlM_inspectStep {edits : List VersionEdit} {s : Inspecting}
    {state : VersionState} (h : edits.foldlM (VersionState.apply true) s.state = .ok state)
    (hwithin : ∀ k state', (edits.take k).foldlM (VersionState.apply true) s.state = .ok state' →
      WithinLimits options state')
    (htotal : s.editsTotal + edits.length < usizeRange) :
    ∃ s', edits.foldlM (inspectStep options) s = .ok s' := by
  induction edits generalizing s with
  | nil => exact ⟨s, rfl⟩
  | cons edit edits ih =>
    rw [List.foldlM_cons] at h
    obtain ⟨next, hnext, h⟩ := bind_eq_ok.mp h
    rw [List.length_cons] at htotal
    have hnext' : WithinLimits options next := hwithin 1 next (by
      rw [List.take_succ_cons, List.take_zero, List.foldlM_cons, hnext]
      rfl)
    obtain ⟨s₁, hs₁⟩ := exists_inspectStep hnext hnext' (by omega)
    obtain ⟨hstate, htotal₁, -, -⟩ := inspectStep_eq_ok hs₁
    obtain rfl := Except.ok.inj (hnext.symm.trans hstate)
    obtain ⟨s', hs'⟩ := ih h (fun k state' hk ↦ hwithin (k + 1) state' (by
      rw [List.take_succ_cons, List.foldlM_cons, hnext]
      exact hk)) (by omega)
    exact ⟨s', by rw [List.foldlM_cons, hs₁]; exact hs'⟩

/-! ### The live tables -/

/-- A table of the version is on disk with its recorded length. -/
def TableComplete (d : Disk FileName) (file : FileMeta) : Prop :=
  ∃ table, d.file (.sst file.number) = some table ∧ table.bytes.length = file.fileSize.val

variable {d : Disk FileName}

/-- With room for all of them, every table of a level is retained. -/
theorem exec_inspectFiles {level : ℕ} {files : List FileMeta} {retained : ℕ × ℕ}
    (hcomplete : ∀ file ∈ files, TableComplete d file)
    (hfiles : retained.1 + files.length ≤ options.maxFiles)
    (hbytes : retained.2 + keyBytesOf (files.map (level, ·)) ≤ options.maxBytes) :
    (inspectFiles options level files retained).run.exec d
      = (.ok (files.map (inspectFile level),
          (retained.1 + files.length, retained.2 + keyBytesOf (files.map (level, ·)))), d) := by
  have hmaxBytes := options.maxBytes_lt
  induction files generalizing retained with
  | nil => rfl
  | cons file files ih =>
    obtain ⟨retainedFiles, retainedBytes⟩ := retained
    rw [List.forall_mem_cons] at hcomplete
    rw [List.length_cons] at hfiles
    rw [List.map_cons, keyBytesOf_cons] at hbytes
    obtain ⟨⟨table, htable, hlength⟩, hrest⟩ := hcomplete
    simp only at hfiles hbytes
    have hsum : checkedAdd retainedBytes (manifestFileKeyBytes file)
        = some (retainedBytes + manifestFileKeyBytes file) := checkedAdd_of_lt (by omega)
    have hnext := @ih (retainedFiles + 1, retainedBytes + manifestFileKeyBytes file)
      hrest (by simp only; omega) (by simp only; omega)
    refine exec_bind_eq_ok.mpr ⟨table.bytes, d, exec_read_eq_ok.mpr ⟨⟨table, htable, rfl⟩, rfl⟩, ?_⟩
    refine exec_ite_throw_eq_ok.mpr ⟨not_not.mpr hlength, ?_⟩
    rw [if_pos ⟨by omega, by rw [hsum]; exact decide_eq_true (by omega)⟩]
    refine exec_bind_eq_ok.mpr ⟨_, d, hnext, ?_⟩
    refine exec_pure_eq_ok.mpr ⟨?_, rfl⟩
    simp only [List.map_cons, keyBytesOf_cons, List.length_cons, Prod.mk.injEq, true_and]
    omega

/-- The tables of some levels with their levels. -/
def filesOf (version : Version) (levels : List (Fin numLevels)) : List (ℕ × FileMeta) :=
  levels.flatMap fun level ↦ (version.levels level).map (level.val, ·)

private theorem exec_inspectLevels {version : Version} {levels : List (Fin numLevels)}
    {filesTotal : ℕ}
    {retained : ℕ × ℕ} (hcomplete : ∀ level, ∀ file ∈ version.levels level, TableComplete d file)
    (htotal : filesTotal + (filesOf version levels).length < usizeRange)
    (hfiles : retained.1 + (filesOf version levels).length ≤ options.maxFiles)
    (hbytes : retained.2 + keyBytesOf (filesOf version levels) ≤ options.maxBytes) :
    (inspectLevels options version levels filesTotal retained).run.exec d
      = (.ok (levels.map fun level ↦ (version.levels level).map (inspectFile level),
          levels.map fun level ↦ (version.levels level).length,
          filesTotal + (filesOf version levels).length), d) := by
  induction levels generalizing filesTotal retained with
  | nil => rfl
  | cons level levels ih =>
    have hsplit : filesOf version (level :: levels)
        = (version.levels level).map (level.val, ·) ++ filesOf version levels := by
      rw [filesOf, List.flatMap_cons]
      rfl
    have hlength : (filesOf version (level :: levels)).length
        = (version.levels level).length + (filesOf version levels).length := by
      rw [hsplit, List.length_append, List.length_map]
    have hkeys : keyBytesOf (filesOf version (level :: levels))
        = keyBytesOf ((version.levels level).map (level.val, ·))
          + keyBytesOf (filesOf version levels) := by
      rw [hsplit, keyBytesOf, List.map_append, List.sum_append]
      rfl
    rw [hlength] at htotal hfiles
    rw [hkeys] at hbytes
    rw [inspectLevels, checkedAdd_of_lt (by omega)]
    simp only
    refine exec_bind_eq_ok.mpr ⟨_, d, exec_inspectFiles (hcomplete level) (by omega) (by omega), ?_⟩
    refine exec_bind_eq_ok.mpr ⟨_, d, ih (by omega) (by simp only; omega) (by simp only; omega), ?_⟩
    refine exec_pure_eq_ok.mpr ⟨?_, rfl⟩
    rw [List.map_cons, List.map_cons, hlength, Nat.add_assoc]

/-! ## Inspection -/

section Agreement

variable [Crc32c]

/-- Replays the manifest that `CURRENT` names, retaining samples within the limits. -/
def inspectManifest (options : ManifestInspectionOptions) : Fs ManifestInspection := do
  if options.maxEdits = 0 then throw (.invalidArgument "max_edits must be greater than zero")
  else if options.maxFiles = 0 then throw (.invalidArgument "max_files must be greater than zero")
  else if options.maxBytes = 0 then throw (.invalidArgument "max_bytes must be greater than zero")
  else if options.maxHistoricalFiles = 0 then
    throw (.invalidArgument "max_historical_files must be greater than zero")
  else
    let current ← fsCall "read CURRENT" .current (.read .current)
    let manifestNumber ← parseCurrent current
    let used ← insertHistoricalFileNumber ∅ manifestNumber options.maxHistoricalFiles
    let path := .manifest manifestNumber
    let bytes ← fsCall "open manifest" path (.read path)
    let replay ← replayManifestStream bytes (inspectStep options)
      ⟨⟨.empty, used, ⟨0, 0, 0, 0, 0⟩⟩, [], 0, 0, 0⟩
    let s := replay.out
    if replay.validBytes ≠ replay.fileLength then
      throw (manifestCorruption ("manifest has a torn tail at byte " ++ toString replay.validBytes
        ++ " of " ++ toString replay.fileLength))
    else if s.editsTotal = 0 then
      throw (manifestCorruption "manifest contains no complete initial edit")
    else if s.state.counters.nextFileNumber = 0 then
      throw (manifestCorruption "manifest never records the next file number")
    else
      let (levels, levelFileCounts, filesTotal) ← inspectLevels options s.state.version
        (List.finRange numLevels) 0 (s.retainedFiles, s.retainedBytes)
      return {
        formatVersion := 1
        manifest := manifestName manifestNumber
        fileBytes := replay.fileLength
        edits := s.edits
        editsTotal := s.editsTotal
        editsTruncated := options.maxEdits < s.editsTotal
        levels
        filesTotal
        levelFileCounts
        filesTruncated := (levels.map List.length).sum < filesTotal
        nextFileNumber := s.state.counters.nextFileNumber
        lastSequence := s.state.counters.lastSequence
        logNumber := s.state.counters.logNumber
        activeLogNumber := s.state.counters.activeLogNumber
        walSequence := s.state.counters.walSequence }

/-! ## Agreement with recovery -/

/-- The number that `CURRENT` names, and the bytes of that manifest. -/
def ManifestIs (d : Disk FileName) (number : U64) (bytes : Bytes) : Prop :=
  (∃ current, d.file .current = some current ∧ parseCurrent current.bytes = .ok number) ∧
    ∃ file, d.file (.manifest number) = some file ∧ file.bytes = bytes

omit [Crc32c] in
theorem ManifestIs.unique {number number' : U64} {bytes bytes' : Bytes}
    (h : ManifestIs d number bytes) (h' : ManifestIs d number' bytes') :
    number = number' ∧ bytes = bytes' := by
  obtain ⟨⟨current, hcurrent, hparse⟩, file, hfile, rfl⟩ := h
  obtain ⟨⟨current', hcurrent', hparse'⟩, file', hfile', rfl⟩ := h'
  obtain rfl := Option.some.inj (hcurrent.symm.trans hcurrent')
  obtain rfl := Except.ok.inj (hparse.symm.trans hparse')
  obtain rfl := Option.some.inj (hfile.symm.trans hfile')
  exact ⟨rfl, rfl⟩

/-- The manifest does not end in a torn tail. -/
def NoTornTail (d : Disk FileName) : Prop :=
  ∀ number bytes replay, ManifestIs d number bytes → replayManifest bytes = .ok replay →
    replay.validBytes = replay.fileLength

/-- The edits of the manifest, all complete, and the state they are replayed to. -/
structure Replays (d : Disk FileName) (number : U64) (replay : Summary (List VersionEdit))
    (state : VersionState) : Prop where
  manifest : ∃ bytes, ManifestIs d number bytes ∧ replayManifest bytes = .ok replay
  recoverable : Recoverable number replay.out state

omit [Crc32c] in
private theorem exec_validateReferencedFiles {version : Version} {d' : Disk FileName} :
    (validateReferencedFiles version).run.exec d = (.ok (), d') ↔ version.Present d ∧ d = d' := by
  have hcheck (file : ℕ × FileMeta) (d' : Disk FileName) :
      (validateReferencedFile file).run.exec d = (.ok (), d') ↔
        d.file (.sst file.2.number) ≠ none ∧ d = d' := by
    rw [validateReferencedFile, exec_bind_eq_ok]
    constructor
    · rintro ⟨bytes, d₁, hread, hret⟩
      obtain ⟨⟨table, htable, -⟩, rfl⟩ := exec_read_eq_ok.mp hread
      exact ⟨by rw [htable]; nofun, (exec_pure_eq_ok.mp hret).2⟩
    · rintro ⟨hsome, rfl⟩
      obtain ⟨table, htable⟩ := Option.ne_none_iff_exists'.mp hsome
      exact ⟨table.bytes, d, exec_read_eq_ok.mpr ⟨⟨table, htable, rfl⟩, rfl⟩,
        exec_pure_eq_ok.mpr ⟨rfl, rfl⟩⟩
  rw [validateReferencedFiles, exec_forM_eq_ok hcheck]
  refine and_congr_left fun _ ↦ ⟨fun h i file hfile ↦ ?_, ?_⟩
  · exact h (i.val, file) (Version.mem_referencedFiles.mpr ⟨i, rfl, hfile⟩)
  · rintro h ⟨level, file⟩ hfile
    obtain ⟨i, -, hi⟩ := Version.mem_referencedFiles.mp hfile
    exact h i file hi

omit [Crc32c] in
private theorem exec_recoverState_eq_ok {number : U64} {edits : List VersionEdit}
    {state : VersionState} {d' : Disk FileName} :
    (recoverState number edits).run.exec d = (.ok state, d') ↔
      (Recoverable number edits state ∧ state.version.Present d) ∧ d = d' := by
  rw [recoverState, exec_ite_throw_eq_ok, exec_bind_eq_ok]
  constructor
  · rintro ⟨hne, state₁, d₁, hlift, h⟩
    obtain ⟨hreplay, rfl⟩ := exec_ofExcept_eq_ok.mp hlift
    obtain ⟨hnext, h⟩ := exec_ite_throw_eq_ok.mp h
    obtain ⟨⟨⟩, d₂, hcheck, h⟩ := exec_bind_eq_ok.mp h
    obtain ⟨hpresent, rfl⟩ := exec_validateReferencedFiles.mp hcheck
    obtain ⟨rfl, rfl⟩ := exec_pure_eq_ok.mp h
    exact ⟨⟨⟨hne, hreplay, hnext⟩, hpresent⟩, rfl⟩
  · rintro ⟨⟨⟨hne, hreplay, hnext⟩, hpresent⟩, rfl⟩
    refine ⟨hne, state, d, exec_ofExcept_eq_ok.mpr ⟨hreplay, rfl⟩, ?_⟩
    refine exec_ite_throw_eq_ok.mpr ⟨hnext, ?_⟩
    exact exec_bind_eq_ok.mpr ⟨(), d, exec_validateReferencedFiles.mpr ⟨hpresent, rfl⟩,
      exec_pure_eq_ok.mpr ⟨rfl, rfl⟩⟩

private theorem exec_readManifest_eq_ok {number : U64} {replay : Summary (List VersionEdit)}
    {d' : Disk FileName} :
    (readManifest number).run.exec d = (.ok replay, d') ↔
      (∃ file, d.file (.manifest number) = some file ∧ replayManifest file.bytes = .ok replay) ∧
        d = d' := by
  rw [readManifest, exec_bind_eq_ok]
  constructor
  · rintro ⟨bytes, d₁, hread, h⟩
    obtain ⟨⟨file, hfile, rfl⟩, rfl⟩ := exec_read_eq_ok.mp hread
    obtain ⟨hreplay, rfl⟩ := exec_ofExcept_eq_ok.mp h
    exact ⟨⟨file, hfile, hreplay⟩, rfl⟩
  · rintro ⟨⟨file, hfile, hreplay⟩, rfl⟩
    exact ⟨file.bytes, d, exec_read_eq_ok.mpr ⟨⟨file, hfile, rfl⟩, rfl⟩,
      exec_ofExcept_eq_ok.mpr ⟨hreplay, rfl⟩⟩

/-- Recovery succeeds exactly on a manifest that can be replayed and whose live tables exist. -/
theorem exec_recover_eq_ok {state : VersionState} :
    (∃ vs d', VersionSet.recover.run.exec d = (.ok vs, d') ∧ vs.state = state) ↔
      ∃ number replay, Replays d number replay state ∧ state.version.Present d := by
  constructor
  · rintro ⟨vs, d', h, rfl⟩
    unfold VersionSet.recover at h
    obtain ⟨current, d₁, hread, h⟩ := exec_bind_eq_ok.mp h
    obtain ⟨⟨file, hfile, rfl⟩, rfl⟩ := exec_read_eq_ok.mp hread
    obtain ⟨number, d₁, hlift, h⟩ := exec_bind_eq_ok.mp h
    obtain ⟨hparse, rfl⟩ := exec_ofExcept_eq_ok.mp hlift
    obtain ⟨replay, d₁, hmanifest, h⟩ := exec_bind_eq_ok.mp h
    obtain ⟨⟨manifest, hfile', hreplay⟩, rfl⟩ := exec_readManifest_eq_ok.mp hmanifest
    obtain ⟨state, d₁, hstate, h⟩ := exec_bind_eq_ok.mp h
    obtain ⟨⟨hrecoverable, hpresent⟩, rfl⟩ := exec_recoverState_eq_ok.mp hstate
    have hvs : vs.state = state := by
      by_cases htorn : replay.validBytes < replay.fileLength
      · simp only [if_pos htorn] at h
        obtain ⟨-, d₁, -, h⟩ := exec_bind_eq_ok.mp h
        obtain ⟨-, d₂, -, h⟩ := exec_bind_eq_ok.mp h
        obtain ⟨-, d₃, -, h⟩ := exec_bind_eq_ok.mp h
        rw [← (exec_pure_eq_ok.mp h).1]
      · simp only [if_neg htorn] at h
        obtain ⟨-, d₁, -, h⟩ := exec_bind_eq_ok.mp h
        rw [← (exec_pure_eq_ok.mp h).1]
    rw [hvs]
    exact ⟨number, replay, ⟨⟨_, ⟨⟨file, hfile, hparse⟩, manifest, hfile', rfl⟩, hreplay⟩,
      hrecoverable⟩, hpresent⟩
  · rintro ⟨number, replay, ⟨⟨bytes, ⟨⟨file, hfile, hparse⟩, manifest, hmanifest, rfl⟩, hreplay⟩,
      hrecoverable⟩, hpresent⟩
    let vs : VersionSet :=
      ⟨number, ⟨.manifest number, replay.validBytes % logBlockBytes⟩, state, true⟩
    have hopen {d₁ : Disk FileName} {file : File} (hd₁ : d₁.file (.manifest number) = some file) :
        (do
          let _ ← fsCall "open manifest for append" (.manifest number) (.read (.manifest number))
          return vs : Fs VersionSet).run.exec d₁ = (.ok vs, d₁) :=
      exec_bind_eq_ok.mpr ⟨file.bytes, d₁, exec_read_eq_ok.mpr ⟨⟨file, hd₁, rfl⟩, rfl⟩, rfl⟩
    obtain ⟨d', htail⟩ : ∃ d', (if replay.validBytes < replay.fileLength then do
          fsCall "truncate torn manifest tail" (.manifest number)
            (.truncate (.manifest number) replay.validBytes)
          fsCall "sync truncated manifest" (.manifest number) (.sync (.manifest number))
          let _ ← fsCall "open manifest for append" (.manifest number) (.read (.manifest number))
          return vs
        else do
          let _ ← fsCall "open manifest for append" (.manifest number) (.read (.manifest number))
          return vs : Fs VersionSet).run.exec d = (.ok vs, d') := by
      split_ifs with htorn
      · obtain ⟨d₁, hcut, hfile₁⟩ := exec_truncate
          (ioError "truncate torn manifest tail" (.manifest number)) replay.validBytes hmanifest
        obtain ⟨d₂, hsync, hfile₂⟩ := exec_sync
          (ioError "sync truncated manifest" (.manifest number)) hfile₁
        exact ⟨d₂, exec_bind_eq_ok.mpr ⟨(), d₁, hcut, exec_bind_eq_ok.mpr ⟨(), d₂, hsync,
          hopen hfile₂⟩⟩⟩
      · exact ⟨d, hopen hmanifest⟩
    refine ⟨vs, d', ?_, rfl⟩
    refine exec_bind_eq_ok.mpr ⟨file.bytes, d, exec_read_eq_ok.mpr ⟨⟨file, hfile, rfl⟩, rfl⟩, ?_⟩
    refine exec_bind_eq_ok.mpr ⟨number, d, exec_ofExcept_eq_ok.mpr ⟨hparse, rfl⟩, ?_⟩
    refine exec_bind_eq_ok.mpr ⟨replay, d,
      exec_readManifest_eq_ok.mpr ⟨⟨manifest, hmanifest, hreplay⟩, rfl⟩, ?_⟩
    exact exec_bind_eq_ok.mpr ⟨state, d,
      exec_recoverState_eq_ok.mpr ⟨⟨hrecoverable, hpresent⟩, rfl⟩, htail⟩

/-- Replaying a manifest with the callback of the inspection is folding its edits. -/
theorem replayManifestStream_eq_ok {σ : Type} {bytes : Bytes}
    {onEdit : σ → VersionEdit → Result σ} {out out' : σ} {valid length : ℕ} :
    replayManifestStream bytes onEdit out = .ok ⟨out', valid, length⟩ ↔
      ∃ edits, replayManifest bytes = .ok ⟨edits, valid, length⟩ ∧
        edits.foldlM onEdit out = .ok out' :=
  replay_foldConsumer_eq_ok

/-- The limits are not hit by the manifest of the directory. -/
def AmpleFor (options : ManifestInspectionOptions) (d : Disk FileName) : Prop :=
  ∀ number bytes replay, ManifestIs d number bytes → replayManifest bytes = .ok replay →
    Ample options number replay.out

/-- Every table that is live in the replayed version is complete. -/
def LiveTablesComplete (d : Disk FileName) : Prop :=
  ∀ number replay state, Replays d number replay state →
    ∀ level, ∀ file ∈ state.version.levels level, TableComplete d file

/-- What an inspection shows of a state. -/
structure Shows (inspection : ManifestInspection) (state : VersionState) : Prop where
  levels : inspection.levels = (List.finRange numLevels).map fun level ↦
    (state.version.levels level).map (inspectFile level)
  nextFileNumber : inspection.nextFileNumber = state.counters.nextFileNumber
  lastSequence : inspection.lastSequence = state.counters.lastSequence
  logNumber : inspection.logNumber = state.counters.logNumber
  activeLogNumber : inspection.activeLogNumber = state.counters.activeLogNumber
  walSequence : inspection.walSequence = state.counters.walSequence

omit [Crc32c] in
private theorem insertHistoricalFileNumber_empty_eq_ok {number : U64} {maximum : ℕ}
    {used : Finset U64} :
    insertHistoricalFileNumber ∅ number maximum = .ok used ↔ 0 ≠ maximum ∧ used = {number} := by
  rw [insertHistoricalFileNumber, if_neg (Finset.notMem_empty _), Finset.card_empty,
    insert_empty_eq]
  split_ifs with hzero
  · exact ⟨nofun, fun h ↦ absurd hzero h.1⟩
  · exact ⟨fun h ↦ ⟨hzero, (Except.ok.inj h).symm⟩, fun h ↦ by rw [h.2]⟩

omit [Crc32c] in
/-- The live tables after the replay loop, all of them retained. -/
theorem exec_inspectLevels_of_ample {number : U64} {edits : List VersionEdit} {s : Inspecting}
    (hample : Ample options number edits) (hstate : VersionState.replay number edits = .ok s.state)
    (hfiles : s.retainedFiles ≤ 0 + (edits.map VersionEdit.fileCount).sum)
    (hbytes : s.retainedBytes ≤ 0 + (edits.map fun edit ↦ keyBytesOf edit.addedFiles).sum)
    (hcomplete : ∀ level, ∀ file ∈ s.state.version.levels level, TableComplete d file) :
    (inspectLevels options s.state.version (List.finRange numLevels) 0
        (s.retainedFiles, s.retainedBytes)).run.exec d
      = (.ok ((List.finRange numLevels).map fun level ↦
            (s.state.version.levels level).map (inspectFile level),
          (List.finRange numLevels).map fun level ↦ (s.state.version.levels level).length,
          0 + s.state.version.referencedFiles.length), d) := by
  have hfiles' := hample.files_le s.state hstate
  have hbytes' := hample.bytes_le s.state hstate
  have hmax := options.maxFiles_lt
  refine exec_inspectLevels hcomplete ?_ ?_ ?_
  · show 0 + s.state.version.referencedFiles.length < usizeRange
    omega
  · show s.retainedFiles + s.state.version.referencedFiles.length ≤ options.maxFiles
    omega
  · show s.retainedBytes + keyBytesOf s.state.version.referencedFiles ≤ options.maxBytes
    omega

/-- What a successful inspection has read. -/
theorem exec_inspectManifest_reads {inspection : ManifestInspection} {d' : Disk FileName}
    (h : (inspectManifest options).run.exec d = (.ok inspection, d')) :
    ∃ (number : U64) (bytes : Bytes) (edits : List VersionEdit) (length : ℕ) (s : Inspecting)
      (levels : List (List ManifestFileInspection)) (levelFileCounts : List ℕ) (filesTotal : ℕ),
      ManifestIs d number bytes ∧ replayManifest bytes = .ok ⟨edits, length, length⟩ ∧
      Replays d number ⟨edits, length, length⟩ s.state ∧
      edits.foldlM (inspectStep options) ⟨.initial number, [], 0, 0, 0⟩ = .ok s ∧
      (inspectLevels options s.state.version (List.finRange numLevels) 0
        (s.retainedFiles, s.retainedBytes)).run.exec d
          = (.ok (levels, levelFileCounts, filesTotal), d') ∧
      inspection = {
        formatVersion := 1
        manifest := manifestName number
        fileBytes := length
        edits := s.edits
        editsTotal := s.editsTotal
        editsTruncated := options.maxEdits < s.editsTotal
        levels
        filesTotal
        levelFileCounts
        filesTruncated := (levels.map List.length).sum < filesTotal
        nextFileNumber := s.state.counters.nextFileNumber
        lastSequence := s.state.counters.lastSequence
        logNumber := s.state.counters.logNumber
        activeLogNumber := s.state.counters.activeLogNumber
        walSequence := s.state.counters.walSequence } := by
  unfold inspectManifest at h
  obtain ⟨-, h⟩ := exec_ite_throw_eq_ok.mp h
  obtain ⟨-, h⟩ := exec_ite_throw_eq_ok.mp h
  obtain ⟨-, h⟩ := exec_ite_throw_eq_ok.mp h
  obtain ⟨-, h⟩ := exec_ite_throw_eq_ok.mp h
  obtain ⟨current, d₁, hread, h⟩ := exec_bind_eq_ok.mp h
  obtain ⟨⟨file, hfile, rfl⟩, rfl⟩ := exec_read_eq_ok.mp hread
  obtain ⟨number, d₁, hlift, h⟩ := exec_bind_eq_ok.mp h
  obtain ⟨hparse, rfl⟩ := exec_ofExcept_eq_ok.mp hlift
  obtain ⟨used, d₁, hinsert, h⟩ := exec_bind_eq_ok.mp h
  obtain ⟨hinsert', rfl⟩ := exec_ofExcept_eq_ok.mp hinsert
  obtain ⟨-, rfl⟩ := insertHistoricalFileNumber_empty_eq_ok.mp hinsert'
  obtain ⟨bytes, d₁, hopen, h⟩ := exec_bind_eq_ok.mp h
  obtain ⟨⟨manifest, hmanifest, rfl⟩, rfl⟩ := exec_read_eq_ok.mp hopen
  obtain ⟨⟨s, valid, length⟩, d₁, hstream, h⟩ := exec_bind_eq_ok.mp h
  obtain ⟨hstream', rfl⟩ := exec_ofExcept_eq_ok.mp hstream
  obtain ⟨edits, hreplay, hfold⟩ := replayManifestStream_eq_ok.mp hstream'
  obtain ⟨hstate, htotal, -, -⟩ := foldlM_inspectStep_eq_ok hfold
  obtain ⟨hwhole, h⟩ := exec_ite_throw_eq_ok.mp h
  obtain rfl : valid = length := not_not.mp hwhole
  obtain ⟨hedits, h⟩ := exec_ite_throw_eq_ok.mp h
  obtain ⟨hnext, h⟩ := exec_ite_throw_eq_ok.mp h
  have hmanifestIs : ManifestIs d number manifest.bytes :=
    ⟨⟨file, hfile, hparse⟩, manifest, hmanifest, rfl⟩
  have hne : edits ≠ [] := by
    rintro rfl
    exact hedits htotal
  have hreplays : Replays d number ⟨edits, valid, valid⟩ s.state :=
    ⟨⟨_, hmanifestIs, hreplay⟩, hne, hstate, hnext⟩
  obtain ⟨⟨levels, levelFileCounts, filesTotal⟩, d₁, hlevels, h⟩ := exec_bind_eq_ok.mp h
  obtain ⟨rfl, rfl⟩ := exec_pure_eq_ok.mp h
  exact ⟨number, _, edits, valid, s, levels, levelFileCounts, filesTotal, hmanifestIs, hreplay,
    hreplays, hfold, hlevels, rfl⟩

/-- What the inspection accepts can be replayed and has no torn tail. -/
theorem exec_inspectManifest_eq_ok {inspection : ManifestInspection} {d' : Disk FileName}
    (hample : AmpleFor options d) (hcomplete : LiveTablesComplete d)
    (h : (inspectManifest options).run.exec d = (.ok inspection, d')) :
    ∃ number replay state, Replays d number replay state ∧ replay.validBytes = replay.fileLength ∧
      Shows inspection state := by
  obtain ⟨number, bytes, edits, length, s, levels, levelFileCounts, filesTotal, hmanifestIs,
    hreplay, hreplays, hfold, hlevels, rfl⟩ := exec_inspectManifest_reads h
  obtain ⟨hstate, -, hfiles, hbytes⟩ := foldlM_inspectStep_eq_ok hfold
  rw [exec_inspectLevels_of_ample (hample _ _ _ hmanifestIs hreplay) hstate hfiles hbytes
    (hcomplete _ _ _ hreplays)] at hlevels
  cases hlevels
  exact ⟨number, _, s.state, hreplays, rfl, ⟨rfl, rfl, rfl, rfl, rfl, rfl⟩⟩

/-- What can be replayed and has no torn tail is accepted by the inspection. -/
theorem exists_exec_inspectManifest {number : U64} {replay : Summary (List VersionEdit)}
    {state : VersionState} (hample : AmpleFor options d) (hcomplete : LiveTablesComplete d)
    (hreplays : Replays d number replay state) (hwhole : replay.validBytes = replay.fileLength) :
    ∃ inspection d', (inspectManifest options).run.exec d = (.ok inspection, d') := by
  obtain ⟨⟨bytes, hmanifestIs, hreplay⟩, hne, hstate, hnext⟩ := hreplays
  have hlimits := hample _ _ _ hmanifestIs hreplay
  obtain ⟨edits, valid, length⟩ := replay
  obtain ⟨⟨file, hfile, hparse⟩, manifest, hmanifest, rfl⟩ := hmanifestIs
  obtain ⟨hmaxEdits, hmaxFiles, hmaxBytes⟩ := hlimits.positive
  have hnumbers : 0 ≠ options.maxHistoricalFiles := by
    have hone := (hlimits.within 0 (.initial number) rfl).numbers_le
    rw [show (VersionState.initial number).usedFileNumbers = {number} from rfl,
      Finset.card_singleton] at hone
    omega
  obtain ⟨s, hfold⟩ := @exists_foldlM_inspectStep options edits
    ⟨.initial number, [], 0, 0, 0⟩ state hstate hlimits.within
    (by rw [Nat.zero_add]; exact hlimits.edits_le.trans_lt options.maxEdits_lt)
  obtain ⟨hstate', htotal, hfiles, hbytes⟩ := foldlM_inspectStep_eq_ok hfold
  obtain rfl := Except.ok.inj (hstate.symm.trans hstate')
  have hpos := List.length_pos_iff.mpr hne
  have hlevels := exec_inspectLevels_of_ample hlimits hstate hfiles hbytes (hcomplete _ _ _
    ⟨⟨_, ⟨⟨file, hfile, hparse⟩, manifest, hmanifest, rfl⟩, hreplay⟩, hne, hstate, hnext⟩)
  rw [inspectManifest, if_neg hmaxEdits.ne', if_neg hmaxFiles.ne', if_neg hmaxBytes.ne',
    if_neg hnumbers.symm]
  refine exists_exec_bind (exec_read_eq_ok.mpr ⟨⟨file, hfile, rfl⟩, rfl⟩) ?_
  refine exists_exec_bind (exec_ofExcept_eq_ok.mpr ⟨hparse, rfl⟩) ?_
  refine exists_exec_bind (exec_ofExcept_eq_ok.mpr
    ⟨insertHistoricalFileNumber_empty_eq_ok.mpr ⟨hnumbers, rfl⟩, rfl⟩) ?_
  refine exists_exec_bind (exec_read_eq_ok.mpr ⟨⟨manifest, hmanifest, rfl⟩, rfl⟩) ?_
  refine exists_exec_bind (exec_ofExcept_eq_ok.mpr
    ⟨replayManifestStream_eq_ok.mpr ⟨edits, hreplay, hfold⟩, rfl⟩) ?_
  simp only
  rw [if_neg (not_not.mpr hwhole), if_neg (by rw [htotal]; exact (Nat.add_pos_right 0 hpos).ne'),
    if_neg hnext]
  exact exists_exec_bind hlevels ⟨_, _, rfl⟩

/-- **Inspection agrees with recovery.** Where the live tables are complete and no limit is hit, the
inspection accepts a directory exactly if its manifest has no torn tail and recovery accepts it;
both then find the same live tables in the same order and the same counters. -/
theorem inspectManifest_agrees (options : ManifestInspectionOptions) (d : Disk FileName)
    (hample : AmpleFor options d) (hcomplete : LiveTablesComplete d) :
    ((∃ inspection d', (inspectManifest options).run.exec d = (.ok inspection, d')) ↔
      NoTornTail d ∧ ∃ vs d', VersionSet.recover.run.exec d = (.ok vs, d')) ∧
    ∀ inspection d₁ vs d₂, (inspectManifest options).run.exec d = (.ok inspection, d₁) →
      VersionSet.recover.run.exec d = (.ok vs, d₂) → Shows inspection vs.state := by
  have hpresent {number : U64} {replay : Summary (List VersionEdit)} {state : VersionState}
      (hreplays : Replays d number replay state) : state.version.Present d := by
    intro level file hfile
    obtain ⟨table, htable, -⟩ := hcomplete _ _ _ hreplays level file hfile
    rw [htable]
    nofun
  refine ⟨⟨?_, ?_⟩, ?_⟩
  · rintro ⟨inspection, d', h⟩
    obtain ⟨number, replay, state, hreplays, hwhole, -⟩ :=
      exec_inspectManifest_eq_ok hample hcomplete h
    refine ⟨fun number' bytes' replay' hmanifest' hreplay' ↦ ?_, ?_⟩
    · obtain ⟨bytes, hmanifest, hreplay⟩ := hreplays.manifest
      obtain ⟨rfl, rfl⟩ := hmanifest.unique hmanifest'
      obtain rfl := Except.ok.inj (hreplay.symm.trans hreplay')
      exact hwhole
    · obtain ⟨vs, d', hrecover, -⟩ :=
        exec_recover_eq_ok.mpr ⟨number, replay, hreplays, hpresent hreplays⟩
      exact ⟨vs, d', hrecover⟩
  · rintro ⟨htail, vs, d', hrecover⟩
    obtain ⟨number, replay, hreplays, -⟩ := exec_recover_eq_ok.mp ⟨vs, d', hrecover, rfl⟩
    obtain ⟨bytes, hmanifest, hreplay⟩ := hreplays.manifest
    exact exists_exec_inspectManifest hample hcomplete hreplays
      (htail number bytes replay hmanifest hreplay)
  · intro inspection d₁ vs d₂ hinspect hrecover
    obtain ⟨number, replay, state, hreplays, -, hshows⟩ :=
      exec_inspectManifest_eq_ok hample hcomplete hinspect
    obtain ⟨number', replay', hreplays', -⟩ := exec_recover_eq_ok.mp ⟨vs, d₂, hrecover, rfl⟩
    obtain ⟨bytes, hmanifest, hreplay⟩ := hreplays.manifest
    obtain ⟨bytes', hmanifest', hreplay'⟩ := hreplays'.manifest
    obtain ⟨rfl, rfl⟩ := hmanifest.unique hmanifest'
    obtain rfl := Except.ok.inj (hreplay.symm.trans hreplay')
    have hstate := hreplays.recoverable.replay.symm.trans hreplays'.recoverable.replay
    rw [← Except.ok.inj hstate]
    exact hshows

end Agreement

/-! ### A directory with tables in two levels -/

private theorem liveSequence_lt : (2 : SequenceNumber).val < maxU64 := by decide

private theorem upperNumber_ne : (5 : U64) ≠ 0 := by decide

private theorem lowerNumber_ne : (4 : U64) ≠ 0 := by decide

private theorem liveSize_ne : (3 : U64) ≠ 0 := by decide

private def liveKey : InternalKey := ⟨[1], 2, .value, liveSequence_lt⟩

private def upperTable : FileMeta := ⟨5, 3, liveKey, liveKey, upperNumber_ne, liveSize_ne, le_rfl⟩

private def lowerTable : FileMeta := ⟨4, 3, liveKey, liveKey, lowerNumber_ne, liveSize_ne, le_rfl⟩

/-- Publishes a table in level 0 and one in level 1. -/
private def liveEdit : VersionEdit where
  addedFiles := [(0, upperTable), (1, lowerTable)]
  nextFileNumber := some 6
  lastSequence := some 2
  logNumber := some 3
  activeLogNumber := some 3
  walSequence := some 2

private theorem liveEdit_encodable : liveEdit.Encodable := by
  have hkey : liveKey.asBytes.length < 2 ^ 32 := by decide +kernel
  refine ⟨by decide, nofun, by decide, fun added hadded ↦ ?_, by decide +kernel⟩
  rcases List.mem_cons.mp hadded with rfl | hadded
  · exact ⟨by decide, hkey, hkey⟩
  · rw [List.mem_singleton.mp hadded]
    exact ⟨by decide, hkey, hkey⟩

private theorem liveEdits_encodable : ∀ edit ∈ [initialEdit, liveEdit], edit.Encodable :=
  List.forall_mem_cons.mpr
    ⟨initialEdit_encodable, List.forall_mem_singleton.mpr liveEdit_encodable⟩

private def liveLevels : Levels := fun level ↦
  if level = 0 then [upperTable] else if level = 1 then [lowerTable] else []

private theorem replay_liveEdit : ∃ state,
    VersionState.replay 1 [initialEdit, liveEdit] = .ok state ∧
      state.version.levels = liveLevels ∧ state.usedFileNumbers = {1, 5, 4} ∧
        state.counters = ⟨6, 2, 3, 3, 2⟩ :=
  ⟨_, rfl, by decide +kernel, by decide +kernel, by decide +kernel⟩

private def liveDisk [Crc32c] : Disk FileName :=
  (((Disk.empty.set .current (.durable (.durable (currentText 1)))).set (.manifest 1)
    (.durable (.durable (logBytes logFraming manifestFormat [initialEdit, liveEdit])))).set
      (.sst 5) (.durable (.durable [7, 7, 7]))).set (.sst 4) (.durable (.durable [8, 8, 8]))

/-- A log is read back as a whole. -/
private theorem replayManifest_logBytes [Crc32c] {edits : List VersionEdit}
    (h : ∀ edit ∈ edits, edit.Encodable) :
    let bytes := logBytes logFraming manifestFormat edits
    replayManifest bytes = .ok ⟨edits, bytes.length, bytes.length⟩ := by
  intro bytes
  have hwhole : Whole logFraming manifestFormat edits bytes :=
    ⟨h, 0, .inl rfl, (List.append_nil _).symm⟩
  obtain ⟨valid, hvalid, ⟨-, filled, -, hbytes⟩, hreplay⟩ := hwhole.torn.replay
  have hlength := congrArg List.length hbytes
  rw [List.length_take_of_le hvalid, List.length_append] at hlength
  have hle : bytes.length ≤ valid := hlength ▸ Nat.le_add_right _ _
  rwa [le_antisymm hvalid hle] at hreplay

private theorem manifestIs_liveDisk [Crc32c] :
    ManifestIs liveDisk 1 (logBytes logFraming manifestFormat [initialEdit, liveEdit]) :=
  ⟨⟨.durable (currentText 1), rfl, parseCurrent_currentText⟩, .durable _, rfl, rfl⟩

/-- What is replayed from the directory. -/
private theorem replayManifest_liveDisk [Crc32c] {number : U64} {bytes : Bytes}
    {replay : Summary (List VersionEdit)} (h : ManifestIs liveDisk number bytes)
    (hreplay : replayManifest bytes = .ok replay) :
    number = 1 ∧ replay.out = [initialEdit, liveEdit] ∧ replay.validBytes = replay.fileLength := by
  obtain ⟨rfl, rfl⟩ := manifestIs_liveDisk.unique h
  obtain rfl := Except.ok.inj ((replayManifest_logBytes liveEdits_encodable).symm.trans hreplay)
  exact ⟨rfl, rfl, rfl⟩

/-- The states of the replay are within the limits. -/
private theorem ample_liveEdit : Ample .default 1 [initialEdit, liveEdit] := by
  obtain ⟨live, hlive, hlevels, hused, -⟩ := replay_liveEdit
  have hfiles : live.version.referencedFiles = [(0, upperTable), (1, lowerTable)] := by
    rw [Version.referencedFiles, hlevels]
    decide +kernel
  refine ⟨by decide, by decide, fun k state hstate ↦ ?_, fun state hstate ↦ ?_,
    fun state hstate ↦ ?_⟩
  · rcases k with _ | _ | k
    · obtain rfl := Except.ok.inj hstate
      exact ⟨Nat.zero_le _, Nat.zero_le _, by decide⟩
    · obtain rfl := Except.ok.inj (recoverable_initialEdit.replay.symm.trans hstate)
      exact ⟨Nat.zero_le _, Nat.zero_le _, by decide⟩
    · rw [List.take_succ_cons, List.take_succ_cons, List.take_nil] at hstate
      obtain rfl := Except.ok.inj (hlive.symm.trans hstate)
      refine ⟨?_, ?_, ?_⟩
      · rw [hfiles]
        decide
      · rw [hfiles]
        decide +kernel
      · rw [hused]
        decide
  · obtain rfl := Except.ok.inj (hlive.symm.trans hstate)
    rw [hfiles]
    decide +kernel
  · obtain rfl := Except.ok.inj (hlive.symm.trans hstate)
    rw [hfiles]
    decide +kernel

/-- A directory with tables in two levels, inspected without limits: both accept it and list the
tables. -/
theorem inspectManifest_agrees_twoLevels :
    let := castagnoli
    AmpleFor .default liveDisk ∧ LiveTablesComplete liveDisk ∧
      ∃ inspection vs d₁ d₂,
        (inspectManifest .default).run.exec liveDisk = (.ok inspection, d₁) ∧
        VersionSet.recover.run.exec liveDisk = (.ok vs, d₂) ∧
        vs.state.version.levels = liveLevels ∧
        inspection.levels = [[inspectFile 0 upperTable], [inspectFile 1 lowerTable], [], [], [], [],
          []] ∧
        inspection.nextFileNumber = 6 := by
  let := castagnoli
  obtain ⟨live, hlive, hlevels, -, hcounters⟩ := replay_liveEdit
  have hample : AmpleFor .default liveDisk := by
    intro number bytes replay h hreplay
    obtain ⟨rfl, hout, -⟩ := replayManifest_liveDisk h hreplay
    exact hout ▸ ample_liveEdit
  have htable : ∀ level, ∀ file ∈ liveLevels level, TableComplete liveDisk file := by
    intro level file hfile
    unfold liveLevels at hfile
    split_ifs at hfile
    · exact List.mem_singleton.mp hfile ▸ ⟨.durable [7, 7, 7], rfl, rfl⟩
    · exact List.mem_singleton.mp hfile ▸ ⟨.durable [8, 8, 8], rfl, rfl⟩
    · cases hfile
  have hcomplete : LiveTablesComplete liveDisk := by
    intro number replay state hreplays level file hfile
    obtain ⟨bytes, h, hreplay⟩ := hreplays.manifest
    obtain ⟨rfl, hout, -⟩ := replayManifest_liveDisk h hreplay
    have hstate := hreplays.recoverable.replay
    rw [hout] at hstate
    obtain rfl := Except.ok.inj (hlive.symm.trans hstate)
    exact htable level file (hlevels ▸ hfile)
  obtain ⟨hiff, hshows⟩ := inspectManifest_agrees .default liveDisk hample hcomplete
  have hpresent : live.version.Present liveDisk := fun level file hfile ↦ by
    obtain ⟨table, hfound, -⟩ := htable level file (hlevels ▸ hfile)
    rw [hfound]
    nofun
  have hreplays : Replays liveDisk 1 _ live :=
    ⟨⟨_, manifestIs_liveDisk, replayManifest_logBytes liveEdits_encodable⟩, List.cons_ne_nil _ _,
      hlive, by rw [hcounters]; decide⟩
  obtain ⟨vs, d₂, hrecover, hstate⟩ := exec_recover_eq_ok.mpr ⟨1, _, hreplays, hpresent⟩
  obtain ⟨inspection, d₁, hinspect⟩ := hiff.mpr
    ⟨fun _ _ _ h hreplay ↦ (replayManifest_liveDisk h hreplay).2.2, vs, d₂, hrecover⟩
  have hshown := hshows inspection d₁ vs d₂ hinspect hrecover
  rw [hstate] at hshown
  refine ⟨hample, hcomplete, inspection, vs, d₁, d₂, hinspect, hrecover, hstate ▸ hlevels, ?_, ?_⟩
  · rw [hshown.levels, hlevels]
    decide +kernel
  · rw [hshown.nextFileNumber, hcounters]

end MeteorDB
