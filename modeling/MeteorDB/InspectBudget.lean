import MeteorDB.Inspect

/-!
# The budgets of an inspection

The limits of `inspectManifest` are the protection of the tool that runs it on a hostile manifest:
one budget of file references and one of key bytes are threaded through the samples of the edits and
then through the live levels. The budgets are spent in two loops with different exits: the added
tables of an edit are cut at the first one that does not fit, while a live table that does not fit
is passed over and a later one may still be retained.

`Sampled` is the invariant of the replay loop, and `Retains` says what the live levels add to it.
`inspectManifest_budgets` puts them together: no budget is ever exceeded, no subtraction of the
source underflows, and each flag says exactly whether its list was cut.
-/

namespace MeteorDB

open ByteString Decoder BlockLog CrashFs

/-! ## What a document holds -/

/-- The key bytes behind the hexadecimal texts of a table, saturating. -/
def ManifestFileInspection.keyBytes (file : ManifestFileInspection) : ℕ :=
  min ((file.smallestKeyHex.length + file.largestKeyHex.length) / 2) (usizeRange - 1)

/-- The key bytes of the tables of a list. -/
def shownKeyBytes (files : List ManifestFileInspection) : ℕ := (files.map (·.keyBytes)).sum

/-- The tables that the document of an edit names. -/
def ManifestEditInspection.fileReferences (doc : ManifestEditInspection) : ℕ :=
  doc.addedFiles.length + doc.deletedFiles.length

/-- The tables that an inspection names, in its edits and in its levels together. -/
def ManifestInspection.fileReferences (inspection : ManifestInspection) : ℕ :=
  (inspection.edits.map (·.fileReferences)).sum + (inspection.levels.map List.length).sum

/-- The key bytes that an inspection retains, in its edits and in its levels together. -/
def ManifestInspection.keyBytes (inspection : ManifestInspection) : ℕ :=
  (inspection.edits.map fun doc ↦ shownKeyBytes doc.addedFiles).sum
    + (inspection.levels.map shownKeyBytes).sum

/-- Every added table of an edit. -/
def VersionEdit.allAdded (edit : VersionEdit) : List ManifestFileInspection :=
  edit.addedFiles.map fun file ↦ inspectFile file.1 file.2

/-- Every live table of a version, level by level. -/
def Version.allLive (version : Version) (levels : List (Fin numLevels)) :
    List (List ManifestFileInspection) :=
  levels.map fun level ↦ (version.levels level).map (inspectFile level)

/-- The document of an edit shows how its two lists begin, and says which of them is cut. -/
structure Documents (doc : ManifestEditInspection) (edit : VersionEdit) : Prop where
  added : doc.addedFiles <+: edit.allAdded
  deleted : doc.deletedFiles <+: edit.deletedFiles
  addedTruncated : doc.addedFilesTruncated = true ↔ doc.addedFiles ≠ edit.allAdded
  deletedTruncated : doc.deletedFilesTruncated = true ↔ doc.deletedFiles ≠ edit.deletedFiles

/-- An inspection shows the first edits and some of the live tables, in order, and says where
something is left out. -/
structure Flagged (inspection : ManifestInspection) (edits : List VersionEdit) (version : Version) :
    Prop where
  documents : List.Forall₂ Documents inspection.edits (edits.take inspection.edits.length)
  editsTruncated : inspection.editsTruncated = true ↔ inspection.edits.length ≠ edits.length
  levels : List.Forall₂ List.Sublist inspection.levels (version.allLive (List.finRange numLevels))
  filesTruncated : inspection.filesTruncated = true ↔
    inspection.levels ≠ version.allLive (List.finRange numLevels)

private theorem length_encodeHex (bytes : Bytes) : (encodeHex bytes).length = 2 * bytes.length := by
  rw [encodeHex, String.length_ofList]
  induction bytes with
  | nil => rfl
  | cons byte bytes ih =>
    rw [List.flatMap_cons, List.length_append, ih, List.length_cons]
    simp only [List.length_cons, List.length_nil]
    omega

private theorem keyBytes_inspectFile (level : ℕ) (file : FileMeta) :
    (inspectFile level file).keyBytes = manifestFileKeyBytes file := by
  rw [ManifestFileInspection.keyBytes, inspectFile, length_encodeHex, length_encodeHex,
    manifestFileKeyBytes, ← Nat.mul_add, Nat.mul_div_cancel_left _ Nat.two_pos]

private theorem shownKeyBytes_cons (file : ManifestFileInspection)
    (files : List ManifestFileInspection) :
    shownKeyBytes (file :: files) = file.keyBytes + shownKeyBytes files := by
  rw [shownKeyBytes, List.map_cons, List.sum_cons]
  rfl

private theorem length_lt_iff_ne_of_sublist {α : Type*} {l l' : List α} (h : l.Sublist l') :
    l.length < l'.length ↔ l ≠ l' := by
  refine ⟨fun hlt heq ↦ hlt.ne (congrArg List.length heq), fun hne ↦ ?_⟩
  exact h.length_le.lt_of_ne fun heq ↦ hne (h.eq_of_length heq)

/-- Of lists with sublists taken from each, something is missing exactly if the lengths say so. -/
theorem sum_length_lt_iff_ne {α : Type*} {shown all : List (List α)}
    (h : List.Forall₂ List.Sublist shown all) :
    (shown.map List.length).sum < (all.map List.length).sum ↔ shown ≠ all := by
  have hle {shown all : List (List α)} (h : List.Forall₂ List.Sublist shown all) :
      (shown.map List.length).sum ≤ (all.map List.length).sum := by
    induction h with
    | nil => exact le_rfl
    | cons hsub _ ih =>
      rw [List.map_cons, List.map_cons, List.sum_cons, List.sum_cons]
      exact Nat.add_le_add hsub.length_le ih
  induction h with
  | nil => simp
  | @cons l l' shown all hsub hrest ih =>
    have hne : l :: shown ≠ l' :: all ↔ l ≠ l' ∨ shown ≠ all := by
      rw [Ne, List.cons.injEq, not_and_or]
    rw [List.map_cons, List.map_cons, List.sum_cons, List.sum_cons, hne,
      ← length_lt_iff_ne_of_sublist hsub]
    refine Iff.trans ?_ (or_congr_right ih)
    have hlength := hsub.length_le
    have hsum := hle hrest
    omega

/-! ## The samples of the edits -/

/-- The added tables are cut at the first that does not fit. -/
theorem sampleAdded_spec (maxBytes retainedBytes : ℕ) (files : List (ℕ × FileMeta)) :
    let sampled := sampleAdded maxBytes retainedBytes files
    sampled.1 <+: files.map (fun file ↦ inspectFile file.1 file.2) ∧
      sampled.2 = retainedBytes + shownKeyBytes sampled.1 ∧
      (retainedBytes ≤ maxBytes → sampled.2 ≤ maxBytes) := by
  induction files generalizing retainedBytes with
  | nil => exact ⟨List.nil_prefix, rfl, id⟩
  | cons file files ih =>
    obtain ⟨level, file⟩ := file
    rw [sampleAdded]
    unfold checkedAdd
    split_ifs with hlt
    · simp only
      split_ifs with hmax
      · exact ⟨List.nil_prefix, rfl, id⟩
      · obtain ⟨hpre, hbytes, hle⟩ := ih (retainedBytes + manifestFileKeyBytes file)
        refine ⟨?_, ?_, fun _ ↦ hle (by omega)⟩
        · rw [List.map_cons]
          exact (List.prefix_cons_inj _).mpr hpre
        · rw [shownKeyBytes_cons, keyBytes_inspectFile, ← Nat.add_assoc]
          exact hbytes
    · exact ⟨List.nil_prefix, rfl, id⟩

private theorem length_sampleAdded_take_le (maxBytes retainedBytes available : ℕ)
    (files : List (ℕ × FileMeta)) :
    (sampleAdded maxBytes retainedBytes (files.take available)).1.length ≤ available := by
  refine (sampleAdded_spec maxBytes retainedBytes (files.take available)).1.length_le.trans ?_
  rw [List.length_map]
  exact List.length_take_le _ _

private theorem documents_inspectEdit (index : ℕ) (edit : VersionEdit)
    (availableFiles retainedFiles maxBytes retainedBytes : ℕ) :
    Documents
      (inspectEdit index edit availableFiles retainedFiles maxBytes retainedBytes).1 edit := by
  have hadded : (sampleAdded maxBytes retainedBytes (edit.addedFiles.take availableFiles)).1
      <+: edit.allAdded := by
    refine (sampleAdded_spec _ _ _).1.trans ?_
    exact (List.take_prefix _ _).map _
  refine ⟨hadded, List.take_prefix _ _, ?_, ?_⟩
  · refine Iff.trans ?_ (length_lt_iff_ne_of_sublist hadded.sublist)
    rw [VersionEdit.allAdded, List.length_map]
    exact decide_eq_true_iff
  · refine Iff.trans ?_ (length_lt_iff_ne_of_sublist (List.take_sublist _ _))
    simp only [inspectEdit, List.length_take, Nat.min_eq_left (Nat.min_le_left _ _),
      decide_eq_true_iff]

/-- The invariant of the replay loop after some edits: the first of them are documented, and what
the budgets have lost is what the documents hold. -/
structure Sampled (options : ManifestInspectionOptions) (seen : List VersionEdit) (s : Inspecting) :
    Prop where
  total : s.editsTotal = seen.length
  count : s.edits.length = min seen.length options.maxEdits
  documents : List.Forall₂ Documents s.edits (seen.take s.edits.length)
  files : s.retainedFiles = (s.edits.map (·.fileReferences)).sum
  bytes : s.retainedBytes = (s.edits.map fun doc ↦ shownKeyBytes doc.addedFiles).sum
  files_le : s.retainedFiles ≤ options.maxFiles
  bytes_le : s.retainedBytes ≤ options.maxBytes

variable {options : ManifestInspectionOptions}

theorem Sampled.sample {seen : List VersionEdit} {s : Inspecting} (h : Sampled options seen s)
    (edit : VersionEdit) :
    Sampled options (seen ++ [edit])
      { s.sample options edit with editsTotal := s.editsTotal + 1 } := by
  have hcount := h.count
  have hfiles := h.files_le
  have htotal : s.editsTotal + 1 = (seen ++ [edit]).length := by
    rw [List.length_append, h.total]
    rfl
  have hlength : (seen ++ [edit]).length = seen.length + 1 := List.length_append
  by_cases hroom : s.edits.length < options.maxEdits
  · -- There is room for a document, so every edit before this one has been given one.
    have hall : s.edits.length = seen.length := by omega
    have hsampled := length_sampleAdded_take_le options.maxBytes s.retainedBytes
      (options.maxFiles - s.retainedFiles) edit.addedFiles
    obtain ⟨-, hbytes, hle⟩ := sampleAdded_spec options.maxBytes s.retainedBytes
      (edit.addedFiles.take (options.maxFiles - s.retainedFiles))
    rw [Inspecting.sample, if_pos hroom]
    refine ⟨htotal, ?_, ?_, ?_, ?_, ?_, hle h.bytes_le⟩
    · rw [List.length_append, List.length_singleton, hlength]
      omega
    · rw [List.length_append, List.length_singleton, hall, ← hlength, List.take_length]
      have hdocuments := h.documents
      rw [hall, List.take_length] at hdocuments
      exact List.rel_append hdocuments (.cons (documents_inspectEdit ..) .nil)
    · rw [List.map_append, List.sum_append, ← h.files, List.map_singleton, List.sum_singleton,
        ManifestEditInspection.fileReferences]
      simp only [inspectEdit, List.length_take]
      omega
    · rw [List.map_append, List.sum_append, ← h.bytes, List.map_singleton, List.sum_singleton]
      exact hbytes
    · simp only [inspectEdit]
      omega
  · rw [Inspecting.sample, if_neg hroom]
    refine ⟨htotal, ?_, ?_, h.files, h.bytes, hfiles, h.bytes_le⟩
    · rw [hlength]
      simp only
      omega
    · simp only
      rw [List.take_append_of_le_length (by omega)]
      exact h.documents

theorem Sampled.inspectStep {seen : List VersionEdit} {s s' : Inspecting} {edit : VersionEdit}
    (h : Sampled options seen s) (hstep : inspectStep options s edit = .ok s') :
    Sampled options (seen ++ [edit]) s' := by
  unfold MeteorDB.inspectStep at hstep
  obtain ⟨counters, -, hstep⟩ := bind_eq_ok.mp hstep
  obtain ⟨⟨⟩, -, hstep⟩ := bind_eq_ok.mp hstep
  obtain ⟨version, -, hstep⟩ := bind_eq_ok.mp hstep
  obtain ⟨⟨⟩, -, hstep⟩ := bind_eq_ok.mp hstep
  obtain ⟨used, -, hstep⟩ := bind_eq_ok.mp hstep
  unfold checkedAdd at hstep
  split_ifs at hstep with hlt
  obtain rfl := Except.ok.inj hstep
  obtain ⟨htotal, hcount, hdocuments, hfiles, hbytes, hfiles', hbytes'⟩ := h.sample edit
  exact ⟨htotal, hcount, hdocuments, hfiles, hbytes, hfiles', hbytes'⟩

theorem Sampled.foldlM {seen edits : List VersionEdit} {s s' : Inspecting}
    (h : Sampled options seen s) (hfold : edits.foldlM (MeteorDB.inspectStep options) s = .ok s') :
    Sampled options (seen ++ edits) s' := by
  induction edits generalizing seen s with
  | nil =>
    obtain rfl := Except.ok.inj hfold
    rwa [List.append_nil]
  | cons edit edits ih =>
    rw [List.foldlM_cons] at hfold
    obtain ⟨next, hnext, hfold⟩ := bind_eq_ok.mp hfold
    rw [← List.singleton_append, ← List.append_assoc]
    exact ih (h.inspectStep hnext) hfold

/-- The replay loop before the first edit. -/
def Inspecting.start (state : VersionState) : Inspecting := ⟨state, [], 0, 0, 0⟩

theorem Sampled.start (state : VersionState) : Sampled options [] (.start state) :=
  ⟨rfl, (Nat.zero_min _).symm, .nil, rfl, rfl, Nat.zero_le _, Nat.zero_le _⟩

/-! ## The live levels -/

/-- Retaining some tables takes what they need from budgets that had enough. -/
structure Retains (options : ManifestInspectionOptions) (before after : ℕ × ℕ)
    (files : ℕ) (bytes : ℕ) : Prop where
  files : after.1 = before.1 + files
  bytes : after.2 = before.2 + bytes
  files_le : before.1 ≤ options.maxFiles → after.1 ≤ options.maxFiles
  bytes_le : before.2 ≤ options.maxBytes → after.2 ≤ options.maxBytes

variable {d d' : Disk FileName}

/-- The tables of a level that are retained are some of them, in order. -/
theorem exec_inspectFiles_eq_ok {level : ℕ} {files : List FileMeta} {retained retained' : ℕ × ℕ}
    {shown : List ManifestFileInspection}
    (h : (inspectFiles options level files retained).run.exec d = (.ok (shown, retained'), d')) :
    shown.Sublist (files.map (inspectFile level)) ∧
      Retains options retained retained' shown.length (shownKeyBytes shown) := by
  induction files generalizing retained shown d with
  | nil =>
    obtain ⟨heq, -⟩ := exec_pure_eq_ok.mp h
    obtain ⟨rfl, rfl⟩ := Prod.mk.inj heq
    exact ⟨List.Sublist.slnil, rfl, rfl, id, id⟩
  | cons file files ih =>
    obtain ⟨retainedFiles, retainedBytes⟩ := retained
    rw [inspectFiles] at h
    obtain ⟨bytes, d₁, -, h⟩ := exec_bind_eq_ok.mp h
    obtain ⟨-, h⟩ := exec_ite_throw_eq_ok.mp h
    rw [List.map_cons]
    simp only at h
    split_ifs at h with hfits
    · obtain ⟨⟨shown₁, retained₁⟩, d₂, hrest, h⟩ := exec_bind_eq_ok.mp h
      obtain ⟨heq, rfl⟩ := exec_pure_eq_ok.mp h
      obtain ⟨rfl, rfl⟩ := Prod.mk.inj heq
      obtain ⟨hsub, hfiles, hbytes, hfiles_le, hbytes_le⟩ := ih hrest
      obtain ⟨hroom, hkeys⟩ := hfits
      have hmax : retainedBytes + manifestFileKeyBytes file ≤ options.maxBytes := by
        unfold checkedAdd at hkeys
        split_ifs at hkeys with hlt
        · exact of_decide_eq_true hkeys
        · cases hkeys
      refine ⟨hsub.cons_cons _, ?_, ?_, fun _ ↦ hfiles_le hroom, fun _ ↦ hbytes_le hmax⟩
      · rw [hfiles, List.length_cons, Nat.add_right_comm]
        rfl
      · rw [hbytes, shownKeyBytes_cons, keyBytes_inspectFile, ← Nat.add_assoc]
    · obtain ⟨hsub, hretains⟩ := ih h
      exact ⟨hsub.cons _, hretains⟩

private theorem exec_inspectLevels_eq_ok {version : Version} {levels : List (Fin numLevels)}
    {filesTotal filesTotal' : ℕ} {retained : ℕ × ℕ} {shown : List (List ManifestFileInspection)}
    {counts : List ℕ}
    (h : (inspectLevels options version levels filesTotal retained).run.exec d
      = (.ok (shown, counts, filesTotal'), d')) :
    List.Forall₂ List.Sublist shown (version.allLive levels) ∧
      filesTotal' = filesTotal + ((version.allLive levels).map List.length).sum ∧
      ∃ retained', Retains options retained retained' (shown.map List.length).sum
        (shown.map shownKeyBytes).sum := by
  induction levels generalizing filesTotal retained shown counts d with
  | nil =>
    obtain ⟨heq, -⟩ := exec_pure_eq_ok.mp h
    obtain ⟨rfl, htotal⟩ := Prod.mk.inj heq
    obtain ⟨-, rfl⟩ := Prod.mk.inj htotal
    exact ⟨.nil, rfl, retained, rfl, rfl, id, id⟩
  | cons level levels ih =>
    rw [inspectLevels] at h
    simp only at h
    cases hsum : checkedAdd filesTotal (version.levels level).length with
    | none =>
      rw [hsum] at h
      exact absurd h exec_throw_ne_ok
    | some total =>
      rw [hsum] at h
      obtain ⟨rfl, -⟩ := checkedAdd_eq_some.mp hsum
      obtain ⟨⟨files, retained₁⟩, d₁, hfiles, h⟩ := exec_bind_eq_ok.mp h
      obtain ⟨⟨shown₁, counts₁, total₁⟩, d₂, hlevels, h⟩ := exec_bind_eq_ok.mp h
      obtain ⟨heq, rfl⟩ := exec_pure_eq_ok.mp h
      obtain ⟨rfl, htotal⟩ := Prod.mk.inj heq
      obtain ⟨-, rfl⟩ := Prod.mk.inj htotal
      obtain ⟨hsub, hfirst⟩ := exec_inspectFiles_eq_ok hfiles
      obtain ⟨hsubs, htotal, retained', hrest⟩ := ih hlevels
      have hlive : version.allLive (level :: levels)
          = (version.levels level).map (inspectFile level) :: version.allLive levels := rfl
      refine ⟨?_, ?_, retained', ?_⟩
      · rw [hlive]
        exact .cons hsub hsubs
      · rw [htotal, hlive, List.map_cons, List.sum_cons, List.length_map, Nat.add_assoc]
      · rw [List.map_cons, List.sum_cons, List.map_cons, List.sum_cons]
        refine ⟨?_, ?_, hrest.files_le ∘ hfirst.files_le, hrest.bytes_le ∘ hfirst.bytes_le⟩
        · rw [hrest.files, hfirst.files, Nat.add_assoc]
        · rw [hrest.bytes, hfirst.bytes, Nat.add_assoc]

/-! ## Subtractions -/

/-- The calls that the loop over the levels makes, each with the levels to come and what has been
retained before them. -/
inductive LevelCall (options : ManifestInspectionOptions) (version : Version) (d : Disk FileName)
    (start : ℕ × ℕ) : List (Fin numLevels) → ℕ × ℕ → Prop
  | start : LevelCall options version d start (List.finRange numLevels) start
  | next {level : Fin numLevels} {rest : List (Fin numLevels)} {retained retained' : ℕ × ℕ}
      {files : List ManifestFileInspection} {d' : Disk FileName}
      (h : LevelCall options version d start (level :: rest) retained)
      (hfiles : (inspectFiles options level (version.levels level) retained).run.exec d
        = (.ok (files, retained'), d')) :
      LevelCall options version d start rest retained'

/-- The subtractions of the source: of the files retained so far from the budget before an edit and
before a level, and in an edit of the added tables it retains from the files available to it. They
are made whether or not the inspection succeeds in the end. -/
inductive Subtracts (options : ManifestInspectionOptions) (d : Disk FileName) : ℕ → ℕ → Prop
  | edit {state : VersionState} {edits : List VersionEdit} {s : Inspecting}
      (h : edits.foldlM (inspectStep options) (.start state) = .ok s)
      (hroom : s.edits.length < options.maxEdits) :
      Subtracts options d options.maxFiles s.retainedFiles
  | remaining {state : VersionState} {edits : List VersionEdit} {s : Inspecting}
      (h : edits.foldlM (inspectStep options) (.start state) = .ok s)
      (hroom : s.edits.length < options.maxEdits) (edit : VersionEdit) :
      Subtracts options d (options.maxFiles - s.retainedFiles)
        (sampleAdded options.maxBytes s.retainedBytes
          (edit.addedFiles.take (options.maxFiles - s.retainedFiles))).1.length
  | level {state : VersionState} {edits : List VersionEdit} {s : Inspecting}
      {level : Fin numLevels} {rest : List (Fin numLevels)} {retained : ℕ × ℕ}
      (h : edits.foldlM (inspectStep options) (.start state) = .ok s)
      (hcall : LevelCall options s.state.version d (s.retainedFiles, s.retainedBytes)
        (level :: rest) retained) :
      Subtracts options d options.maxFiles retained.1

private theorem LevelCall.retained_le {version : Version} {start retained : ℕ × ℕ}
    {levels : List (Fin numLevels)} (h : LevelCall options version d start levels retained)
    (hstart : start.1 ≤ options.maxFiles) : retained.1 ≤ options.maxFiles := by
  induction h with
  | start => exact hstart
  | next _ hfiles ih => exact (exec_inspectFiles_eq_ok hfiles).2.files_le ih

theorem Subtracts.le {a b : ℕ} (h : Subtracts options d a b) : b ≤ a := by
  cases h with
  | edit hfold _ => exact ((Sampled.start _).foldlM hfold).files_le
  | remaining _ _ edit => exact length_sampleAdded_take_le _ _ _ _
  | level hfold hcall => exact hcall.retained_le ((Sampled.start _).foldlM hfold).files_le

/-! ## Budgets -/

variable [Crc32c]

/-- **Inspection stays within its budgets.** Whatever the directory holds, a successful inspection
retains no more edits, file references and key bytes than its limits allow, the file references and
key bytes of the edits and of the live levels taken together; each of its flags is set exactly if
the list it belongs to was cut; and no subtraction underflows, also where the inspection fails. -/
theorem inspectManifest_budgets (options : ManifestInspectionOptions) (d : Disk FileName) :
    (∀ inspection d', (inspectManifest options).run.exec d = (.ok inspection, d') →
      inspection.edits.length ≤ options.maxEdits ∧
      inspection.fileReferences ≤ options.maxFiles ∧
      inspection.keyBytes ≤ options.maxBytes ∧
      ∃ number replay state, Replays d number replay state ∧
        Flagged inspection replay.out state.version) ∧
    ∀ a b, Subtracts options d a b → b ≤ a := by
  refine ⟨fun inspection d' h ↦ ?_, fun a b h ↦ h.le⟩
  obtain ⟨number, bytes, edits, length, s, levels, levelFileCounts, filesTotal, -, -, hreplays,
    hfold, hlevels, rfl⟩ := exec_inspectManifest_reads h
  have hsampled : Sampled options edits s := (Sampled.start (.initial number)).foldlM hfold
  obtain ⟨hsubs, hfilesTotal, retained, hretains⟩ := exec_inspectLevels_eq_ok hlevels
  have hcount := hsampled.count
  refine ⟨?_, ?_, ?_, number, ⟨edits, length, length⟩, s.state, hreplays, hsampled.documents, ?_,
    hsubs, ?_⟩
  · exact hcount.trans_le (Nat.min_le_right _ _)
  · rw [ManifestInspection.fileReferences, ← hsampled.files]
    exact hretains.files.symm.trans_le (hretains.files_le hsampled.files_le)
  · rw [ManifestInspection.keyBytes, ← hsampled.bytes]
    exact hretains.bytes.symm.trans_le (hretains.bytes_le hsampled.bytes_le)
  · show decide (options.maxEdits < s.editsTotal) = true ↔ s.edits.length ≠ edits.length
    rw [decide_eq_true_iff, hsampled.total]
    omega
  · rw [Nat.zero_add] at hfilesTotal
    rw [← sum_length_lt_iff_ne hsubs, ← hfilesTotal]
    exact decide_eq_true_iff

end MeteorDB
