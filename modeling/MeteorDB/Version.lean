import MeteorDB.InternalKey
import MeteorDB.Lib.Decoder

/-!
# Versions

A version is the set of live tables, in seven levels. Level zero holds tables in the order of their
file numbers, newest first, and its tables may overlap; the tables of every other level are in key
order and do not. File numbers are distinct throughout.

Versions are built only by applying edits to the empty one, and `Version.apply` checks what it
builds, so a version carries these facts as fields.
-/

namespace MeteorDB

open Decoder

/-! ## Tables -/

/-- The metadata of one live table. -/
structure FileMeta where
  number : U64
  fileSize : U64
  smallest : InternalKey
  largest : InternalKey
  number_ne : number ≠ 0
  fileSize_ne : fileSize ≠ 0
  smallest_le : smallest ≤ largest
  deriving DecidableEq

namespace FileMeta

/-- Checked metadata. -/
def new (number fileSize : U64) (smallest largest : InternalKey) : Result FileMeta :=
  if hnumber : number = 0 then
    .error (.invalidArgument "SSTable file number must be greater than zero")
  else if hsize : fileSize = 0 then
    .error (.invalidArgument "SSTable file size must be greater than zero")
  else if hkeys : largest < smallest then
    .error (.invalidArgument "SSTable smallest internal key must not follow its largest key")
  else .ok ⟨number, fileSize, smallest, largest, hnumber, hsize, not_lt.mp hkeys⟩

theorem new_eq_ok (file : FileMeta) :
    new file.number file.fileSize file.smallest file.largest = .ok file := by
  rw [new, dif_neg file.number_ne, dif_neg file.fileSize_ne, dif_neg (not_lt.mpr file.smallest_le)]

theorem eq_of_new {number fileSize : U64} {smallest largest : InternalKey} {file : FileMeta}
    (h : new number fileSize smallest largest = .ok file) :
    file.number = number ∧ file.fileSize = fileSize ∧ file.smallest = smallest ∧
      file.largest = largest := by
  unfold new at h
  split_ifs at h
  obtain rfl := Except.ok.inj h
  exact ⟨rfl, rfl, rfl, rfl⟩

/-- The user keys between the ends of a table, both included. -/
def Covers (file : FileMeta) (userKey : Bytes) : Prop :=
  file.smallest.userKey ≤ userKey ∧ userKey ≤ file.largest.userKey

instance (file : FileMeta) (userKey : Bytes) : Decidable (file.Covers userKey) :=
  inferInstanceAs (Decidable (_ ∧ _))

theorem userKey_le (file : FileMeta) : file.smallest.userKey ≤ file.largest.userKey :=
  InternalKey.userKey_le_of_le file.smallest_le

end FileMeta

/-- The number of levels. -/
abbrev numLevels : ℕ := 7

instance numLevels.neZero : NeZero numLevels := ⟨by decide⟩

/-- The tables of every level. -/
abbrev Levels := Fin numLevels → List FileMeta

/-- File numbers are distinct within a level and across levels. -/
structure Distinct (levels : Levels) : Prop where
  within : ∀ i, (levels i).Pairwise fun a b ↦ a.number ≠ b.number
  across : ∀ i j, i ≠ j → ∀ a ∈ levels i, ∀ b ∈ levels j, a.number ≠ b.number

/-- The tables of a level are in key order and do not overlap. -/
def NonOverlapping (files : List FileMeta) : Prop :=
  files.Pairwise fun a b ↦ a.largest.userKey < b.smallest.userKey

/-- One immutable set of live tables. -/
@[ext] structure Version where
  levels : Levels
  distinct : Distinct levels
  newest_first : (levels 0).Pairwise fun a b ↦ b.number < a.number
  disjoint : ∀ i, i ≠ 0 → NonOverlapping (levels i)
  deriving DecidableEq

/-! ## Edits -/

/-- A change to the live tables and to the recovery counters. -/
structure VersionEdit where
  addedFiles : List (ℕ × FileMeta) := []
  deletedFiles : List (ℕ × U64) := []
  nextFileNumber : Option U64 := none
  lastSequence : Option SequenceNumber := none
  logNumber : Option U64 := none
  activeLogNumber : Option U64 := none
  walSequence : Option SequenceNumber := none
  deriving DecidableEq

/-- The error for a level that does not exist. -/
def levelRange (level : ℕ) : Error :=
  .invalidArgument ("level " ++ toString level ++ " is outside the supported range 0.."
    ++ toString numLevels)

/-- Removes a table from a level. -/
def deleteFile (levels : Levels) (deleted : ℕ × U64) : Result Levels :=
  if h : deleted.1 < numLevels then
    let level : Fin numLevels := ⟨deleted.1, h⟩
    if (levels level).any (·.number = deleted.2) then
      .ok (Function.update levels level ((levels level).eraseP (·.number = deleted.2)))
    else .error (.invalidArgument ("cannot delete absent SSTable " ++ toString deleted.2.val
      ++ " from level " ++ toString deleted.1))
  else .error (levelRange deleted.1)

/-- Adds a table to a level. -/
def addFile (levels : Levels) (added : ℕ × FileMeta) : Result Levels :=
  if ∃ i, (levels i).any (·.number = added.2.number) then
    .error (.invalidArgument ("SSTable file number " ++ toString added.2.number.val
      ++ " is already live"))
  else if h : added.1 < numLevels then
    let level : Fin numLevels := ⟨added.1, h⟩
    .ok (Function.update levels level (levels level ++ [added.2]))
  else .error (levelRange added.1)

/-- The order of the tables in a level. -/
def levelOrder (level : Fin numLevels) (a b : FileMeta) : Prop :=
  if level = 0 then b.number ≤ a.number else a.smallest.userKey ≤ b.smallest.userKey

instance (level : Fin numLevels) : DecidableRel (levelOrder level) := fun a b ↦
  inferInstanceAs
    (Decidable (if level = 0 then b.number ≤ a.number else a.smallest.userKey ≤ b.smallest.userKey))

/-- Puts the tables of every level in order. -/
def sortLevels (levels : Levels) : Levels := fun level ↦
  (levels level).insertionSort (levelOrder level)

/-- Compares the neighbours of a level. -/
def neighboursDisjoint (files : List FileMeta) : Bool :=
  (files.zip files.tail).all fun pair ↦ pair.1.largest.userKey < pair.2.smallest.userKey

/-- The check of one level. -/
def validateNonOverlapping (level : ℕ) (files : List FileMeta) : Result Unit :=
  if neighboursDisjoint files then .ok ()
  else .error (.invalidArgument ("level " ++ toString level ++ " SSTable user-key ranges overlap"))

/-- The levels after the deletions and additions of an edit, in order but not yet checked. -/
def editLevels (levels : Levels) (edit : VersionEdit) : Result Levels := do
  let levels ← edit.deletedFiles.foldlM deleteFile levels
  let levels ← edit.addedFiles.foldlM addFile levels
  return sortLevels levels

/-- The check of every level but the first. -/
def validateLevels (levels : Levels) : Result Unit :=
  (List.finRange numLevels).forM fun level ↦
    if level = 0 then .ok () else validateNonOverlapping level (levels level)

/-! ## What the checks establish -/

private theorem Distinct.of_subset {levels levels' : Levels} (h : Distinct levels)
    (hsub : ∀ i, (levels' i).Sublist (levels i)) : Distinct levels' where
  within i := (h.within i).sublist (hsub i)
  across i j hij a ha b hb := h.across i j hij a ((hsub i).subset ha) b ((hsub j).subset hb)

theorem Distinct.of_perm {levels levels' : Levels} (h : Distinct levels)
    (hperm : ∀ i, (levels' i).Perm (levels i)) : Distinct levels' where
  within i := ((hperm i).pairwise_iff fun hab ↦ hab.symm).mpr (h.within i)
  across i j hij a ha b hb :=
    h.across i j hij a ((hperm i).subset ha) b ((hperm j).subset hb)

private theorem Distinct.deleteFile {levels levels' : Levels} {deleted : ℕ × U64}
    (h : Distinct levels)
    (hdelete : deleteFile levels deleted = .ok levels') : Distinct levels' := by
  simp only [MeteorDB.deleteFile] at hdelete
  split_ifs at hdelete with hlevel hany
  obtain rfl := Except.ok.inj hdelete
  refine h.of_subset fun i ↦ ?_
  by_cases hi : i = ⟨deleted.1, hlevel⟩
  · subst hi
    rw [Function.update_self]
    exact List.eraseP_sublist
  · rw [Function.update_of_ne hi]

private theorem Distinct.addFile {levels levels' : Levels} {added : ℕ × FileMeta}
    (h : Distinct levels) (hadd : addFile levels added = .ok levels') : Distinct levels' := by
  simp only [MeteorDB.addFile] at hadd
  split_ifs at hadd with hlive hlevel
  obtain rfl := Except.ok.inj hadd
  have hfresh : ∀ i, ∀ a ∈ levels i, a.number ≠ added.2.number := by
    intro i a ha heq
    exact hlive ⟨i, List.any_eq_true.mpr ⟨a, ha, by simpa using heq⟩⟩
  have hmem {i : Fin numLevels} {a : FileMeta}
      (ha : a ∈ Function.update levels ⟨added.1, hlevel⟩
        (levels ⟨added.1, hlevel⟩ ++ [added.2]) i) :
      a ∈ levels i ∨ i = ⟨added.1, hlevel⟩ ∧ a = added.2 := by
    by_cases hi : i = ⟨added.1, hlevel⟩
    · subst hi
      rw [Function.update_self, List.mem_append, List.mem_singleton] at ha
      exact ha.imp_right fun ha ↦ ⟨rfl, ha⟩
    · rw [Function.update_of_ne hi] at ha
      exact .inl ha
  constructor
  · intro i
    by_cases hi : i = ⟨added.1, hlevel⟩
    · subst hi
      rw [Function.update_self, List.pairwise_append]
      refine ⟨h.within _, List.pairwise_singleton _ _, fun a ha b hb ↦ ?_⟩
      rw [List.mem_singleton.mp hb]
      exact hfresh _ a ha
    · rw [Function.update_of_ne hi]
      exact h.within i
  · intro i j hij a ha b hb
    rcases hmem ha with ha | ⟨rfl, rfl⟩ <;> rcases hmem hb with hb | ⟨rfl, rfl⟩
    · exact h.across i j hij a ha b hb
    · exact hfresh i a ha
    · exact (hfresh j b hb).symm
    · exact absurd rfl hij

theorem foldlM_preserves {α β : Type} {step : β → α → Result β} {P : β → Prop}
    (hstep : ∀ b a b', P b → step b a = .ok b' → P b') :
    ∀ {as : List α} {b b' : β}, P b → as.foldlM step b = .ok b' → P b' := by
  intro as
  induction as with
  | nil =>
    intro b b' hb h
    obtain rfl := Except.ok.inj h
    exact hb
  | cons a as ih =>
    intro b b' hb h
    rw [List.foldlM_cons] at h
    obtain ⟨c, ha, h⟩ := bind_eq_ok.mp h
    exact ih (hstep b a c hb ha) h

private theorem editLevels_eq_ok {levels levels' : Levels} {edit : VersionEdit} :
    editLevels levels edit = .ok levels' ↔
      ∃ levels₁ levels₂, edit.deletedFiles.foldlM deleteFile levels = .ok levels₁ ∧
        edit.addedFiles.foldlM addFile levels₁ = .ok levels₂ ∧ sortLevels levels₂ = levels' := by
  unfold editLevels
  rw [bind_eq_ok]
  constructor
  · rintro ⟨levels₁, hdel, h⟩
    obtain ⟨levels₂, hadd, h⟩ := bind_eq_ok.mp h
    exact ⟨levels₁, levels₂, hdel, hadd, Except.ok.inj h⟩
  · rintro ⟨levels₁, levels₂, hdel, hadd, rfl⟩
    exact ⟨levels₁, hdel, bind_eq_ok.mpr ⟨levels₂, hadd, rfl⟩⟩

private theorem Distinct.editLevels {levels levels' : Levels} {edit : VersionEdit}
    (h : Distinct levels) (hedit : editLevels levels edit = .ok levels') : Distinct levels' := by
  obtain ⟨levels₁, levels₂, hdel, hadd, rfl⟩ := editLevels_eq_ok.mp hedit
  have h₁ : Distinct levels₁ := foldlM_preserves (fun _ _ _ h ↦ h.deleteFile) h hdel
  have h₂ : Distinct levels₂ := foldlM_preserves (fun _ _ _ h ↦ h.addFile) h₁ hadd
  exact h₂.of_perm fun i ↦ List.perm_insertionSort _ _

private theorem neighboursDisjoint_iff {files : List FileMeta} :
    neighboursDisjoint files = true ↔ NonOverlapping files := by
  unfold neighboursDisjoint NonOverlapping
  induction files with
  | nil => simp
  | cons a files ih =>
    cases files with
    | nil => simp
    | cons b files =>
      rw [List.tail_cons, List.zip_cons_cons, List.all_cons, Bool.and_eq_true, decide_eq_true_eq,
        List.pairwise_cons]
      constructor
      · rintro ⟨hab, hrest⟩
        have hpair := ih.mp hrest
        refine ⟨fun c hc ↦ ?_, hpair⟩
        rcases List.mem_cons.mp hc with rfl | hc
        · exact hab
        · exact (hab.trans_le b.userKey_le).trans ((List.pairwise_cons.mp hpair).1 c hc)
      · rintro ⟨hall, hpair⟩
        exact ⟨hall b (List.mem_cons_self ..), ih.mpr hpair⟩

private theorem validateLevels_eq_ok {levels : Levels} :
    validateLevels levels = .ok () ↔ ∀ i, i ≠ 0 → NonOverlapping (levels i) := by
  rw [validateLevels, Decoder.forM_eq_ok]
  refine ⟨fun h i hi ↦ ?_, fun h i _ ↦ ?_⟩
  · have hcheck := h i (List.mem_finRange i)
    rw [if_neg hi, validateNonOverlapping] at hcheck
    split_ifs at hcheck with hdisjoint
    exact neighboursDisjoint_iff.mp hdisjoint
  · split_ifs with hi
    · rfl
    · rw [validateNonOverlapping, if_pos (neighboursDisjoint_iff.mpr (h i hi))]

private theorem sortLevels_newest_first {levels : Levels} (h : Distinct levels) :
    (sortLevels levels 0).Pairwise fun a b ↦ b.number < a.number := by
  have htotal : Std.Total (levelOrder 0) := ⟨fun a b ↦ le_total b.number a.number⟩
  have htrans : IsTrans FileMeta (levelOrder 0) := ⟨fun a b c hab hbc ↦ le_trans hbc hab⟩
  have hsorted := List.pairwise_insertionSort (levelOrder 0) (levels 0)
  have hdistinct := (h.of_perm fun i ↦ List.perm_insertionSort (levelOrder i) (levels i)).within 0
  exact (hsorted.and hdistinct).imp fun hab ↦ lt_of_le_of_ne hab.1 hab.2.symm

private theorem editLevels_newest_first {levels levels' : Levels} {edit : VersionEdit}
    (h : Distinct levels) (hedit : editLevels levels edit = .ok levels') :
    (levels' 0).Pairwise fun a b ↦ b.number < a.number := by
  obtain ⟨levels₁, levels₂, hdel, hadd, rfl⟩ := editLevels_eq_ok.mp hedit
  have h₁ : Distinct levels₁ := foldlM_preserves (fun _ _ _ h ↦ h.deleteFile) h hdel
  exact sortLevels_newest_first (foldlM_preserves (fun _ _ _ h ↦ h.addFile) h₁ hadd)

/-! ## Versions and their edits -/

namespace Version

/-- No live tables. -/
def empty : Version where
  levels _ := []
  distinct := ⟨fun _ ↦ .nil, fun _ _ _ ↦ nofun⟩
  newest_first := .nil
  disjoint _ _ := .nil

/-- The levels after an edit, if everything the edit asks for is possible. -/
def applyLevels (levels : Levels) (edit : VersionEdit) : Result Levels := do
  let levels ← editLevels levels edit
  validateLevels levels
  return levels

/-- The version after an edit: its levels, with the facts that the checks establish about them. -/
def apply (version : Version) (edit : VersionEdit) : Result Version :=
  match hlevels : editLevels version.levels edit with
  | .error e => .error e
  | .ok levels =>
    match hvalid : validateLevels levels with
    | .error e => .error e
    | .ok () => .ok
      { levels
        distinct := version.distinct.editLevels hlevels
        newest_first := editLevels_newest_first version.distinct hlevels
        disjoint := validateLevels_eq_ok.mp hvalid }

theorem apply_eq_ok {version version' : Version} {edit : VersionEdit} :
    version.apply edit = .ok version' ↔
      editLevels version.levels edit = .ok version'.levels := by
  unfold apply
  split
  next e he => simp [he]
  next levels hlevels =>
    split
    next e he =>
      refine ⟨nofun, fun h ↦ ?_⟩
      rw [hlevels] at h
      obtain rfl := Except.ok.inj h
      rw [validateLevels_eq_ok.mpr version'.disjoint] at he
      cases he
    next hvalid =>
      refine ⟨fun h ↦ ?_, fun h ↦ ?_⟩
      · cases h
        exact hlevels
      · exact congrArg Except.ok (Version.ext (Except.ok.inj (hlevels.symm.trans h)))

private theorem applyLevels_eq_ok {version : Version} {levels : Levels} {edit : VersionEdit} :
    applyLevels version.levels edit = .ok levels ↔
      ∃ version', version.apply edit = .ok version' ∧ version'.levels = levels := by
  constructor
  · intro h
    obtain ⟨edited, hedited, h⟩ := bind_eq_ok.mp h
    obtain ⟨_, hvalid, h⟩ := bind_eq_ok.mp h
    obtain rfl := Except.ok.inj h
    exact ⟨⟨edited, version.distinct.editLevels hedited,
      editLevels_newest_first version.distinct hedited, validateLevels_eq_ok.mp hvalid⟩,
      apply_eq_ok.mpr hedited, rfl⟩
  · rintro ⟨version', happly, rfl⟩
    rw [applyLevels, apply_eq_ok.mp happly]
    show (validateLevels version'.levels >>= fun _ ↦ pure version'.levels) = _
    rw [validateLevels_eq_ok.mpr version'.disjoint]
    rfl

/-- The levels that edits lead to from none carry the facts of a version. -/
theorem foldlM_applyLevels_eq_ok (version : Version) {edits : List VersionEdit} {levels : Levels} :
    edits.foldlM applyLevels version.levels = .ok levels ↔
      ∃ version', edits.foldlM apply version = .ok version' ∧ version'.levels = levels := by
  induction edits generalizing version with
  | nil =>
    exact ⟨fun h ↦ ⟨version, rfl, Except.ok.inj h⟩, fun ⟨_, h, hlevels⟩ ↦ by
      obtain rfl := Except.ok.inj h
      rw [← hlevels]
      rfl⟩
  | cons edit edits ih =>
    rw [List.foldlM_cons, List.foldlM_cons]
    constructor
    · intro h
      obtain ⟨next, hnext, h⟩ := bind_eq_ok.mp h
      obtain ⟨version₁, happly, rfl⟩ := applyLevels_eq_ok.mp hnext
      obtain ⟨version₂, hrest, hlevels⟩ := (ih version₁).mp h
      exact ⟨version₂, bind_eq_ok.mpr ⟨version₁, happly, hrest⟩, hlevels⟩
    · rintro ⟨version₂, h, hlevels⟩
      obtain ⟨version₁, happly, hrest⟩ := bind_eq_ok.mp h
      exact bind_eq_ok.mpr ⟨version₁.levels, applyLevels_eq_ok.mpr ⟨version₁, happly, rfl⟩,
        (ih version₁).mpr ⟨version₂, hrest, hlevels⟩⟩

end Version

/-! ## The tables after an edit -/

private theorem mem_deleteFile {levels levels' : Levels} {deleted : ℕ × U64} (h : Distinct levels)
    (hdelete : deleteFile levels deleted = .ok levels') {i : Fin numLevels} {file : FileMeta} :
    file ∈ levels' i ↔ file ∈ levels i ∧ (i.val, file.number) ≠ deleted := by
  simp only [deleteFile] at hdelete
  split_ifs at hdelete with hlevel hany
  obtain rfl := Except.ok.inj hdelete
  by_cases hi : i = ⟨deleted.1, hlevel⟩
  · subst hi
    rw [Function.update_self]
    have hpair : (deleted.1, file.number) ≠ deleted ↔ file.number ≠ deleted.2 := by
      rw [Ne, Prod.ext_iff]
      simp
    rw [hpair]
    have hwithin := h.within ⟨deleted.1, hlevel⟩
    generalize levels ⟨deleted.1, hlevel⟩ = files at hwithin hany
    induction files with
    | nil => simp
    | cons a files ih =>
      obtain ⟨ha, hfiles⟩ := List.pairwise_cons.mp hwithin
      by_cases hnumber : a.number = deleted.2
      · rw [List.eraseP_cons_of_pos (by simpa using hnumber), List.mem_cons]
        refine ⟨fun hf ↦ ⟨.inr hf, hnumber ▸ (ha file hf).symm⟩, ?_⟩
        rintro ⟨rfl | hf, hne⟩
        · exact absurd hnumber hne
        · exact hf
      · have ih' := ih hfiles (by simpa [hnumber] using hany)
        rw [List.eraseP_cons_of_neg (by simpa using hnumber), List.mem_cons, List.mem_cons]
        refine (or_congr_right ih').trans ?_
        constructor
        · rintro (rfl | ⟨hf, hne⟩)
          · exact ⟨.inl rfl, hnumber⟩
          · exact ⟨.inr hf, hne⟩
        · rintro ⟨rfl | hf, hne⟩
          · exact .inl rfl
          · exact .inr ⟨hf, hne⟩
  · rw [Function.update_of_ne hi]
    refine ⟨fun hf ↦ ⟨hf, fun heq ↦ hi (Fin.ext (congrArg Prod.fst heq))⟩, And.left⟩

private theorem mem_addFile {levels levels' : Levels} {added : ℕ × FileMeta}
    (hadd : addFile levels added = .ok levels') {i : Fin numLevels} {file : FileMeta} :
    file ∈ levels' i ↔ file ∈ levels i ∨ (i.val, file) = added := by
  simp only [addFile] at hadd
  split_ifs at hadd with hlive hlevel
  obtain rfl := Except.ok.inj hadd
  by_cases hi : i = ⟨added.1, hlevel⟩
  · subst hi
    rw [Function.update_self, List.mem_append, List.mem_singleton, Prod.ext_iff]
    simp
  · rw [Function.update_of_ne hi]
    refine ⟨.inl, ?_⟩
    rintro (hf | heq)
    · exact hf
    · exact absurd (Fin.ext (congrArg Prod.fst heq)) hi

private theorem mem_foldlM_deleteFile {deleted : List (ℕ × U64)} {levels levels' : Levels}
    (h : Distinct levels) (hdelete : deleted.foldlM deleteFile levels = .ok levels')
    {i : Fin numLevels} {file : FileMeta} :
    file ∈ levels' i ↔ file ∈ levels i ∧ (i.val, file.number) ∉ deleted := by
  induction deleted generalizing levels with
  | nil =>
    obtain rfl := Except.ok.inj hdelete
    simp
  | cons d deleted ih =>
    rw [List.foldlM_cons] at hdelete
    obtain ⟨levels₁, hd, hrest⟩ := bind_eq_ok.mp hdelete
    rw [ih (h.deleteFile hd) hrest, mem_deleteFile h hd, List.mem_cons, and_assoc, not_or]

private theorem exists_of_deleteFile {levels levels' : Levels} {deleted : ℕ × U64}
    (hdelete : deleteFile levels deleted = .ok levels') :
    ∃ i : Fin numLevels, i.val = deleted.1 ∧ ∃ file ∈ levels i, file.number = deleted.2 := by
  simp only [deleteFile] at hdelete
  split_ifs at hdelete with hlevel hany
  obtain ⟨file, hfile, hnumber⟩ := List.any_eq_true.mp hany
  exact ⟨⟨deleted.1, hlevel⟩, rfl, file, hfile, by simpa using hnumber⟩

/-- Deletions that are all possible delete different live tables. -/
theorem nodup_of_foldlM_deleteFile {deleted : List (ℕ × U64)} {levels levels' : Levels}
    (h : Distinct levels) (hdelete : deleted.foldlM deleteFile levels = .ok levels') :
    (∀ d ∈ deleted, ∃ i : Fin numLevels, i.val = d.1 ∧ ∃ file ∈ levels i, file.number = d.2) ∧
      (deleted.map Prod.snd).Nodup := by
  induction deleted generalizing levels with
  | nil => exact ⟨nofun, List.nodup_nil⟩
  | cons d deleted ih =>
    rw [List.foldlM_cons] at hdelete
    obtain ⟨levels₁, hd, hrest⟩ := bind_eq_ok.mp hdelete
    obtain ⟨hlive, hnodup⟩ := ih (h.deleteFile hd) hrest
    obtain ⟨i, hi, file, hfile, hnumber⟩ := exists_of_deleteFile hd
    have hlive' : ∀ d' ∈ deleted, ∃ j : Fin numLevels, j.val = d'.1 ∧
        ∃ file ∈ levels j, file.number = d'.2 ∧ (j.val, file.number) ≠ d := by
      intro d' hd'
      obtain ⟨j, hj, file', hfile', hnumber'⟩ := hlive d' hd'
      obtain ⟨hmem, hne⟩ := (mem_deleteFile h hd).mp hfile'
      exact ⟨j, hj, file', hmem, hnumber', hne⟩
    refine ⟨?_, ?_⟩
    · intro d' hd'
      rcases List.mem_cons.mp hd' with rfl | hd'
      · exact ⟨i, hi, file, hfile, hnumber⟩
      · obtain ⟨j, hj, file', hfile', hnumber', -⟩ := hlive' d' hd'
        exact ⟨j, hj, file', hfile', hnumber'⟩
    · rw [List.map_cons, List.nodup_cons]
      refine ⟨fun hmem ↦ ?_, hnodup⟩
      obtain ⟨d', hd', heq⟩ := List.mem_map.mp hmem
      obtain ⟨j, -, file', hfile', hnumber', hne⟩ := hlive' d' hd'
      -- Both tables carry the number of `d`, so they lie in the same level.
      have hij : j = i := by
        by_contra hij
        exact h.across j i hij file' hfile' file hfile (by rw [hnumber', heq, hnumber])
      exact hne (Prod.ext (by rw [hij, hi]) (by rw [hnumber', heq]))

private theorem mem_foldlM_addFile {added : List (ℕ × FileMeta)} {levels levels' : Levels}
    (hadd : added.foldlM addFile levels = .ok levels') {i : Fin numLevels} {file : FileMeta} :
    file ∈ levels' i ↔ file ∈ levels i ∨ (i.val, file) ∈ added := by
  induction added generalizing levels with
  | nil =>
    obtain rfl := Except.ok.inj hadd
    simp
  | cons a added ih =>
    rw [List.foldlM_cons] at hadd
    obtain ⟨levels₁, ha, hrest⟩ := bind_eq_ok.mp hadd
    rw [ih hrest, mem_addFile ha, List.mem_cons, or_assoc]

/-- An edit removes the tables it deletes and adds the tables it adds. -/
theorem Version.mem_apply {version version' : Version} {edit : VersionEdit}
    (h : version.apply edit = .ok version') {i : Fin numLevels} {file : FileMeta} :
    file ∈ version'.levels i ↔
      file ∈ version.levels i ∧ (i.val, file.number) ∉ edit.deletedFiles ∨
        (i.val, file) ∈ edit.addedFiles := by
  obtain ⟨levels₁, levels₂, hdel, hadd, hsort⟩ := editLevels_eq_ok.mp (Version.apply_eq_ok.mp h)
  rw [← hsort, ← mem_foldlM_deleteFile version.distinct hdel, ← mem_foldlM_addFile hadd]
  exact (List.perm_insertionSort _ _).mem_iff

/-- An edit that is applied deletes different live tables. -/
theorem Version.deleted_of_apply {version version' : Version} {edit : VersionEdit}
    (h : version.apply edit = .ok version') :
    (∀ d ∈ edit.deletedFiles, ∃ i : Fin numLevels, i.val = d.1 ∧
      ∃ file ∈ version.levels i, file.number = d.2) ∧ (edit.deletedFiles.map Prod.snd).Nodup := by
  obtain ⟨_, _, hdel, -, -⟩ := editLevels_eq_ok.mp (Version.apply_eq_ok.mp h)
  exact nodup_of_foldlM_deleteFile version.distinct hdel

/-- A deleted number is deleted from the level it is in. -/
theorem Version.mem_deletedFiles {version version' : Version} {edit : VersionEdit}
    (h : version.apply edit = .ok version') {i : Fin numLevels} {file : FileMeta}
    (hfile : file ∈ version.levels i) (hmem : file.number ∈ edit.deletedFiles.map Prod.snd) :
    (i.val, file.number) ∈ edit.deletedFiles := by
  obtain ⟨d, hd, hnumber⟩ := List.mem_map.mp hmem
  obtain ⟨j, hj, file', hfile', hnumber'⟩ := (Version.deleted_of_apply h).1 d hd
  have hij : i = j := by
    by_contra hij
    exact version.distinct.across i j hij file hfile file' hfile' (hnumber'.trans hnumber).symm
  rw [hij, hj, ← hnumber]
  exact hd

/-! ## Edits that are possible -/

private theorem exists_deleteFile {levels : Levels} {deleted : ℕ × U64} {i : Fin numLevels}
    (hi : i.val = deleted.1) {file : FileMeta} (hfile : file ∈ levels i)
    (hnumber : file.number = deleted.2) : ∃ levels', deleteFile levels deleted = .ok levels' := by
  have hlevel : deleted.1 < numLevels := hi ▸ i.isLt
  have hany : (levels ⟨deleted.1, hlevel⟩).any (·.number = deleted.2) = true := by
    obtain rfl : i = ⟨deleted.1, hlevel⟩ := Fin.ext hi
    exact List.any_eq_true.mpr ⟨file, hfile, decide_eq_true hnumber⟩
  rw [deleteFile, dif_pos hlevel, if_pos hany]
  exact ⟨_, rfl⟩

/-- Different live tables can be deleted one after the other. -/
theorem exists_foldlM_deleteFile {deleted : List (ℕ × U64)} {levels : Levels} (h : Distinct levels)
    (hlive : ∀ d ∈ deleted, ∃ i : Fin numLevels, i.val = d.1 ∧
      ∃ file ∈ levels i, file.number = d.2) (hnodup : (deleted.map Prod.snd).Nodup) :
    ∃ levels', deleted.foldlM deleteFile levels = .ok levels' := by
  induction deleted generalizing levels with
  | nil => exact ⟨levels, rfl⟩
  | cons d deleted ih =>
    obtain ⟨⟨i, hi, file, hfile, hnumber⟩, hlive⟩ := List.forall_mem_cons.mp hlive
    obtain ⟨hfresh, hnodup⟩ := List.nodup_cons.mp hnodup
    obtain ⟨levels₁, hd⟩ := exists_deleteFile hi hfile hnumber
    have hlive₁ : ∀ d' ∈ deleted, ∃ j : Fin numLevels, j.val = d'.1 ∧
        ∃ file ∈ levels₁ j, file.number = d'.2 := by
      intro d' hd'
      obtain ⟨j, hj, file', hfile', hnumber'⟩ := hlive d' hd'
      refine ⟨j, hj, file', (mem_deleteFile h hd).mpr ⟨hfile', fun heq ↦ hfresh ?_⟩, hnumber'⟩
      rw [← heq]
      exact List.mem_map.mpr ⟨d', hd', hnumber'.symm⟩
    obtain ⟨levels', hrest⟩ := ih (h.deleteFile hd) hlive₁ hnodup
    exact ⟨levels', by rw [List.foldlM_cons]; exact bind_eq_ok.mpr ⟨levels₁, hd, hrest⟩⟩

/-- Tables with new numbers can be added one after the other. -/
theorem exists_foldlM_addFile {added : List (ℕ × FileMeta)} {levels : Levels}
    (hlevel : ∀ a ∈ added, a.1 < numLevels)
    (hfresh : ∀ a ∈ added, ∀ i, ∀ file ∈ levels i, file.number ≠ a.2.number)
    (hnodup : (added.map (·.2.number)).Nodup) :
    ∃ levels', added.foldlM addFile levels = .ok levels' := by
  induction added generalizing levels with
  | nil => exact ⟨levels, rfl⟩
  | cons a added ih =>
    obtain ⟨ha, hlevel⟩ := List.forall_mem_cons.mp hlevel
    obtain ⟨hfirst, hfresh⟩ := List.forall_mem_cons.mp hfresh
    obtain ⟨hnew, hnodup⟩ := List.nodup_cons.mp hnodup
    have hlive : ¬ ∃ i, (levels i).any (·.number = a.2.number) = true := by
      rintro ⟨i, hany⟩
      obtain ⟨file, hfile, hnumber⟩ := List.any_eq_true.mp hany
      exact hfirst i file hfile (of_decide_eq_true hnumber)
    obtain ⟨levels₁, hadd⟩ : ∃ levels₁, addFile levels a = .ok levels₁ := by
      rw [addFile, if_neg hlive, dif_pos ha]
      exact ⟨_, rfl⟩
    have hfresh₁ : ∀ b ∈ added, ∀ i, ∀ file ∈ levels₁ i, file.number ≠ b.2.number := by
      intro b hb i file hfile
      rcases (mem_addFile hadd).mp hfile with hfile | rfl
      · exact hfresh b hb i file hfile
      · intro heq
        exact hnew (List.mem_map.mpr ⟨b, hb, heq.symm⟩)
    obtain ⟨levels', hrest⟩ := ih hlevel hfresh₁ hnodup
    exact ⟨levels', by rw [List.foldlM_cons]; exact bind_eq_ok.mpr ⟨levels₁, hadd, hrest⟩⟩

/-- Two tables that share no user key. -/
def FileMeta.Apart (a b : FileMeta) : Prop :=
  a.largest.userKey < b.smallest.userKey ∨ b.largest.userKey < a.smallest.userKey

instance : Std.Symm FileMeta.Apart := ⟨fun _ _ ↦ Or.symm⟩

theorem NonOverlapping.apart {files : List FileMeta} (h : NonOverlapping files) {a b : FileMeta}
    (ha : a ∈ files) (hb : b ∈ files) (hne : a ≠ b) : a.Apart b :=
  (List.Pairwise.imp (S := FileMeta.Apart) .inl h).forall ha hb hne

/-- Tables that are apart do not overlap once they are in order. -/
theorem nonOverlapping_insertionSort {level : Fin numLevels} (hlevel : level ≠ 0)
    {files : List FileMeta} (h : files.Pairwise FileMeta.Apart) :
    NonOverlapping (files.insertionSort (levelOrder level)) := by
  have horder : ∀ a b, levelOrder level a b ↔ a.smallest.userKey ≤ b.smallest.userKey :=
    fun a b ↦ by rw [levelOrder, if_neg hlevel]
  have htotal : Std.Total (levelOrder level) :=
    ⟨fun a b ↦ by rw [horder, horder]; exact le_total _ _⟩
  have htrans : IsTrans FileMeta (levelOrder level) :=
    ⟨fun a b c ↦ by rw [horder, horder, horder]; exact le_trans⟩
  have hsorted := List.pairwise_insertionSort (levelOrder level) files
  have hapart := ((List.perm_insertionSort (levelOrder level) files).pairwise_iff
    fun {_ _} ↦ Std.Symm.symm _ _).mpr h
  refine (hsorted.and hapart).imp fun {a b} ⟨hle, hapart⟩ ↦ hapart.resolve_right fun hlt ↦ ?_
  exact absurd (hlt.trans_le ((horder a b).mp hle)) (not_lt.mpr b.userKey_le)

/-- **Possible edits.** An edit that deletes different live tables and adds tables with new numbers
can be applied if the tables it leaves in each sorted level are apart. -/
theorem Version.exists_apply {version : Version} {edit : VersionEdit}
    (hdeleted : ∀ d ∈ edit.deletedFiles, ∃ i : Fin numLevels, i.val = d.1 ∧
      ∃ file ∈ version.levels i, file.number = d.2)
    (hdeletedNodup : (edit.deletedFiles.map Prod.snd).Nodup)
    (hlevel : ∀ a ∈ edit.addedFiles, a.1 < numLevels)
    (hfresh : ∀ a ∈ edit.addedFiles, ∀ i, ∀ file ∈ version.levels i, file.number ≠ a.2.number)
    (haddedNodup : (edit.addedFiles.map (·.2.number)).Nodup)
    (hnew : ∀ a ∈ edit.addedFiles, ∀ b ∈ edit.addedFiles, a.1 ≠ 0 → a.1 = b.1 → a.2 ≠ b.2 →
      a.2.Apart b.2)
    (hold : ∀ i : Fin numLevels, i ≠ 0 → ∀ file ∈ version.levels i,
      (i.val, file.number) ∉ edit.deletedFiles → ∀ a ∈ edit.addedFiles, a.1 = i.val →
        file.Apart a.2) :
    ∃ version', version.apply edit = .ok version' := by
  obtain ⟨levels₁, hdel⟩ := exists_foldlM_deleteFile version.distinct hdeleted hdeletedNodup
  have hdel_mem : ∀ {i : Fin numLevels} {file : FileMeta}, file ∈ levels₁ i ↔
      file ∈ version.levels i ∧ (i.val, file.number) ∉ edit.deletedFiles :=
    mem_foldlM_deleteFile version.distinct hdel
  have hdistinct₁ : Distinct levels₁ :=
    foldlM_preserves (fun _ _ _ h ↦ h.deleteFile) version.distinct hdel
  have hfresh₁ : ∀ a ∈ edit.addedFiles, ∀ i, ∀ file ∈ levels₁ i, file.number ≠ a.2.number :=
    fun a ha i file hfile ↦ hfresh a ha i file (hdel_mem.mp hfile).1
  obtain ⟨levels₂, hadd⟩ := exists_foldlM_addFile hlevel hfresh₁ haddedNodup
  have hdistinct₂ : Distinct levels₂ :=
    foldlM_preserves (fun _ _ _ h ↦ h.addFile) hdistinct₁ hadd
  have hedit : editLevels version.levels edit = .ok (sortLevels levels₂) :=
    editLevels_eq_ok.mpr ⟨levels₁, levels₂, hdel, hadd, rfl⟩
  -- Two tables of one level are apart: both old, one old and one new, or both new.
  have happart : ∀ i, i ≠ 0 → ∀ a ∈ levels₂ i, ∀ b ∈ levels₂ i, a ≠ b → a.Apart b := by
    intro i hi a ha b hb hne
    have hi' : i.val ≠ 0 := fun heq ↦ hi (Fin.ext heq)
    rcases (mem_foldlM_addFile hadd).mp ha with ha | ha <;>
      rcases (mem_foldlM_addFile hadd).mp hb with hb | hb
    · exact (version.disjoint i hi).apart (hdel_mem.mp ha).1 (hdel_mem.mp hb).1 hne
    · exact hold i hi a (hdel_mem.mp ha).1 (hdel_mem.mp ha).2 _ hb rfl
    · exact Std.Symm.symm _ _ (hold i hi b (hdel_mem.mp hb).1 (hdel_mem.mp hb).2 _ ha rfl)
    · exact hnew _ ha _ hb hi' rfl hne
  have hvalid : validateLevels (sortLevels levels₂) = .ok () := by
    refine validateLevels_eq_ok.mpr fun i hi ↦ nonOverlapping_insertionSort hi ?_
    refine (hdistinct₂.within i).imp_of_mem fun {a b} ha hb hne ↦ ?_
    exact happart i hi a ha b hb fun heq ↦ hne (congrArg FileMeta.number heq)
  exact ⟨⟨sortLevels levels₂, version.distinct.editLevels hedit,
    editLevels_newest_first version.distinct hedit, validateLevels_eq_ok.mp hvalid⟩,
    Version.apply_eq_ok.mpr hedit⟩

end MeteorDB
