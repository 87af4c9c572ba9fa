import MeteorDB.Compaction

/-!
# What a compaction plan covers

The expansion loop of `makePlan` ends with a selection that is closed: every table of the output
level that meets the range of the plan belongs to it. For an input level other than zero the tables
of a plan moreover cover its whole range without a gap, because every round adds only tables that
meet the range reached so far. Closure is what makes the outputs fit between the tables that stay,
and cover is what keeps two plans of the same level apart.
-/

namespace MeteorDB

/-! ## Ranges -/

/-- A range of user keys, both ends included. -/
def InRange (range : Bytes × Bytes) (key : Bytes) : Prop := range.1 ≤ key ∧ key ≤ range.2

/-- A range covers a table if it contains both of its ends. -/
def Encloses (range : Bytes × Bytes) (file : FileMeta) : Prop :=
  range.1 ≤ file.smallest.userKey ∧ file.largest.userKey ≤ range.2

theorem rangesOverlap_iff {file : FileMeta} {range : Bytes × Bytes} :
    rangesOverlap file range = true ↔
      file.smallest.userKey ≤ range.2 ∧ range.1 ≤ file.largest.userKey := by
  simp [rangesOverlap]

theorem Encloses.overlap {file : FileMeta} {range : Bytes × Bytes} (h : Encloses range file) :
    rangesOverlap file range = true :=
  rangesOverlap_iff.mpr ⟨file.userKey_le.trans h.2, h.1.trans file.userKey_le⟩

/-- The range of some tables encloses them, and both of its ends are ends of tables. -/
structure IsRange (files : List FileMeta) (range : Bytes × Bytes) : Prop where
  encloses : ∀ file ∈ files, Encloses range file
  smallest : ∃ file ∈ files, file.smallest.userKey = range.1
  largest : ∃ file ∈ files, file.largest.userKey = range.2

theorem isRange_of_userRange {files : List FileMeta} {range : Bytes × Bytes}
    (h : userRange files = some range) : IsRange files range := by
  cases files with
  | nil => cases h
  | cons file files =>
    obtain rfl := Option.some.inj h
    have hstart : IsRange [file] (file.smallest.userKey, file.largest.userKey) :=
      ⟨by simp [Encloses], ⟨file, by simp, rfl⟩, ⟨file, by simp, rfl⟩⟩
    -- The fold is followed with the tables it has seen so far.
    have hfold : ∀ (more seen : List FileMeta) (range : Bytes × Bytes), IsRange seen range →
        IsRange (seen ++ more) (more.foldl (fun range file ↦
          (min range.1 file.smallest.userKey, max range.2 file.largest.userKey)) range) := by
      intro more
      induction more with
      | nil =>
        intro seen range hseen
        rwa [List.append_nil]
      | cons next more ih =>
        intro seen range hseen
        rw [List.foldl_cons, ← List.singleton_append, ← List.append_assoc]
        refine ih _ _ ⟨fun file hfile ↦ ?_, ?_, ?_⟩
        · rcases List.mem_append.mp hfile with hfile | hfile
          · obtain ⟨hsmallest, hlargest⟩ := hseen.encloses file hfile
            exact ⟨(min_le_left _ _).trans hsmallest, hlargest.trans (le_max_left _ _)⟩
          · rw [List.mem_singleton.mp hfile]
            exact ⟨min_le_right _ _, le_max_right _ _⟩
        · rcases min_choice range.1 next.smallest.userKey with hmin | hmin
          · obtain ⟨file, hfile, heq⟩ := hseen.smallest
            exact ⟨file, List.mem_append_left _ hfile, heq.trans hmin.symm⟩
          · exact ⟨next, by simp, hmin.symm⟩
        · rcases max_choice range.2 next.largest.userKey with hmax | hmax
          · obtain ⟨file, hfile, heq⟩ := hseen.largest
            exact ⟨file, List.mem_append_left _ hfile, heq.trans hmax.symm⟩
          · exact ⟨next, by simp, hmax.symm⟩
    exact hfold files [file] _ hstart

theorem exists_userRange {files : List FileMeta} (h : files ≠ []) :
    ∃ range, userRange files = some range := by
  cases files with
  | nil => exact absurd rfl h
  | cons file files => exact ⟨_, rfl⟩

/-- More tables have a wider range. -/
theorem IsRange.encloses_of_subset {files files' : List FileMeta} {range range' : Bytes × Bytes}
    (h : IsRange files range) (h' : IsRange files' range') (hsub : files ⊆ files') :
    range'.1 ≤ range.1 ∧ range.2 ≤ range'.2 := by
  obtain ⟨file, hfile, heq⟩ := h.smallest
  obtain ⟨file', hfile', heq'⟩ := h.largest
  exact ⟨heq ▸ (h'.encloses file (hsub hfile)).1, heq' ▸ (h'.encloses file' (hsub hfile')).2⟩

/-! ## Tables without gaps -/

/-- Every user key in a range lies between the ends of one of the tables. -/
def Covered (files : List FileMeta) (range : Bytes × Bytes) : Prop :=
  ∀ key, InRange range key → ∃ file ∈ files, file.Covers key

/-- Adding tables that meet the range leaves no gap. -/
theorem Covered.of_overlap {files files' : List FileMeta} {range range' : Bytes × Bytes}
    (h : Covered files range) (h' : IsRange files' range') (hsub : files ⊆ files')
    (hoverlap : ∀ file ∈ files', rangesOverlap file range = true) : Covered files' range' := by
  intro key hkey
  rcases lt_or_ge key range.1 with hlt | hge
  · -- Below the old range: the table with the smallest key reaches up to it.
    obtain ⟨file, hfile, heq⟩ := h'.smallest
    have hmeets := rangesOverlap_iff.mp (hoverlap file hfile)
    exact ⟨file, hfile, heq ▸ hkey.1, hlt.le.trans hmeets.2⟩
  rcases lt_or_ge range.2 key with hlt | hle
  · obtain ⟨file, hfile, heq⟩ := h'.largest
    have hmeets := rangesOverlap_iff.mp (hoverlap file hfile)
    exact ⟨file, hfile, hmeets.1.trans hlt.le, heq ▸ hkey.2⟩
  · obtain ⟨file, hfile, hcovers⟩ := h key ⟨hge, hle⟩
    exact ⟨file, hsub hfile, hcovers⟩

/-! ## The expansion loop -/

variable {version : Version} {level outputLevel : Fin numLevels}

/-- One round, when there is at least one input. -/
structure Round (version : Version) (level outputLevel : Fin numLevels)
    (inputs overlaps inputs' overlaps' : List FileMeta) (range range' : Bytes × Bytes) : Prop where
  range_eq : userRange (inputs ++ overlaps) = some range
  overlaps_eq : overlaps' = version.overlapping outputLevel range
  expanded_eq : userRange (inputs ++ overlaps') = some range'
  inputs_eq : inputs' = if level = 0 then inputs else version.overlapping level range'

private theorem expandOnce_eq_some {inputs overlaps inputs' overlaps' : List FileMeta} :
    expandOnce version level outputLevel inputs overlaps = some (inputs', overlaps') ↔
      ∃ range range',
        Round version level outputLevel inputs overlaps inputs' overlaps' range range' := by
  unfold expandOnce
  constructor
  · intro h
    obtain ⟨range, hrange, h⟩ := Option.bind_eq_some_iff.mp h
    obtain ⟨range', hrange', h⟩ := Option.bind_eq_some_iff.mp h
    obtain ⟨rfl, rfl⟩ := Prod.mk.inj (Option.some.inj h)
    exact ⟨range, range', hrange, rfl, hrange', rfl⟩
  · rintro ⟨range, range', hround⟩
    obtain ⟨hrange, rfl, hrange', rfl⟩ := hround
    rw [hrange]
    show ((userRange (inputs ++ version.overlapping outputLevel range)).bind fun _ ↦ _) = _
    rw [hrange']
    rfl

/-- What holds between rounds. -/
structure Expanding (version : Version) (level outputLevel : Fin numLevels)
    (inputs overlaps : List FileMeta) : Prop where
  inputs_ne : inputs ≠ []
  inputs_filter : ∃ p, inputs = (version.levels level).filter p
  overlaps_filter : ∃ p, overlaps = (version.levels outputLevel).filter p
  inputs_zero : level = 0 → inputs = version.levels 0
  covered : level ≠ 0 → ∀ range, userRange (inputs ++ overlaps) = some range →
    Covered (inputs ++ overlaps) range

namespace Expanding

variable {inputs overlaps inputs' overlaps' : List FileMeta} {range range' : Bytes × Bytes}

theorem inputs_subset (h : Expanding version level outputLevel inputs overlaps) :
    inputs ⊆ version.levels level := by
  obtain ⟨p, rfl⟩ := h.inputs_filter
  exact List.filter_sublist.subset

theorem overlaps_subset (h : Expanding version level outputLevel inputs overlaps) :
    overlaps ⊆ version.levels outputLevel := by
  obtain ⟨p, rfl⟩ := h.overlaps_filter
  exact List.filter_sublist.subset

/-- A round keeps the output tables it has. -/
theorem overlaps_grow (h : Expanding version level outputLevel inputs overlaps)
    (hround : Round version level outputLevel inputs overlaps inputs' overlaps' range range') :
    overlaps ⊆ overlaps' := by
  intro file hfile
  rw [hround.overlaps_eq]
  refine List.mem_filter.mpr ⟨h.overlaps_subset hfile, ?_⟩
  exact ((isRange_of_userRange hround.range_eq).encloses file
    (List.mem_append_right _ hfile)).overlap

/-- A round keeps the input tables it has. -/
theorem inputs_grow (h : Expanding version level outputLevel inputs overlaps)
    (hround : Round version level outputLevel inputs overlaps inputs' overlaps' range range') :
    inputs ⊆ inputs' := by
  rw [hround.inputs_eq]
  split_ifs with hlevel
  · exact List.Subset.refl _
  · intro file hfile
    refine List.mem_filter.mpr ⟨h.inputs_subset hfile, ?_⟩
    exact ((isRange_of_userRange hround.expanded_eq).encloses file
      (List.mem_append_left _ hfile)).overlap

private theorem round (h : Expanding version level outputLevel inputs overlaps)
    (hround : Round version level outputLevel inputs overlaps inputs' overlaps' range range') :
    Expanding version level outputLevel inputs' overlaps' where
  inputs_ne := fun hnil ↦ h.inputs_ne (List.subset_nil.mp (hnil ▸ h.inputs_grow hround))
  inputs_filter := by
    rw [hround.inputs_eq]
    split_ifs
    · exact h.inputs_filter
    · exact ⟨_, rfl⟩
  overlaps_filter := ⟨_, hround.overlaps_eq⟩
  inputs_zero hlevel := by
    rw [hround.inputs_eq, if_pos hlevel]
    exact h.inputs_zero hlevel
  covered hlevel range₂ hrange₂ := by
    have hrange := isRange_of_userRange hround.range_eq
    have hrange' := isRange_of_userRange hround.expanded_eq
    -- First the output tables that meet the range are added, then the input tables.
    have hmiddle : Covered (inputs ++ overlaps') range' := by
      refine (h.covered hlevel range hround.range_eq).of_overlap hrange' ?_ fun file hfile ↦ ?_
      · intro file hfile
        rcases List.mem_append.mp hfile with hfile | hfile
        · exact List.mem_append_left _ hfile
        · exact List.mem_append_right _ (h.overlaps_grow hround hfile)
      · rcases List.mem_append.mp hfile with hfile | hfile
        · exact (hrange.encloses file (List.mem_append_left _ hfile)).overlap
        · rw [hround.overlaps_eq] at hfile
          exact (List.mem_filter.mp hfile).2
    refine hmiddle.of_overlap (isRange_of_userRange hrange₂) ?_ fun file hfile ↦ ?_
    · intro file hfile
      rcases List.mem_append.mp hfile with hfile | hfile
      · exact List.mem_append_left _ (h.inputs_grow hround hfile)
      · exact List.mem_append_right _ hfile
    · rcases List.mem_append.mp hfile with hfile | hfile
      · rw [hround.inputs_eq, if_neg hlevel] at hfile
        exact (List.mem_filter.mp hfile).2
      · exact (hrange'.encloses file (List.mem_append_right _ hfile)).overlap

private theorem exists_round (h : Expanding version level outputLevel inputs overlaps) :
    ∃ inputs' overlaps' range range',
      Round version level outputLevel inputs overlaps inputs' overlaps' range range' := by
  obtain ⟨range, hrange⟩ :=
    exists_userRange (List.append_ne_nil_of_left_ne_nil h.inputs_ne overlaps)
  obtain ⟨range', hrange'⟩ := exists_userRange
    (List.append_ne_nil_of_left_ne_nil h.inputs_ne (version.overlapping outputLevel range))
  exact ⟨_, _, range, range', hrange, rfl, hrange', rfl⟩

/-- A round that does not end the loop adds a table. -/
theorem length_lt (h : Expanding version level outputLevel inputs overlaps)
    (hround : Round version level outputLevel inputs overlaps inputs' overlaps' range range')
    (hne : ¬ (overlaps' = overlaps ∧ inputs' = inputs)) :
    inputs.length + overlaps.length < inputs'.length + overlaps'.length := by
  have hgrow : ∀ {l a b : List FileMeta}, (∃ p, a = l.filter p) → (∃ p, b = l.filter p) → a ⊆ b →
      a.Sublist b := by
    rintro l _ _ ⟨p, rfl⟩ ⟨q, rfl⟩ hsub
    have hfilter : l.filter p = (l.filter q).filter p := by
      rw [List.filter_filter]
      refine List.filter_congr fun file hfile ↦ ?_
      by_cases hp : p file = true
      · rw [hp, Bool.true_and]
        exact (List.mem_filter.mp (hsub (List.mem_filter.mpr ⟨hfile, hp⟩))).2.symm
      · simp [hp]
    rw [hfilter]
    exact List.filter_sublist
  have hinputs := hgrow h.inputs_filter (h.round hround).inputs_filter (h.inputs_grow hround)
  have hoverlaps :=
    hgrow h.overlaps_filter (h.round hround).overlaps_filter (h.overlaps_grow hround)
  have hle := hinputs.length_le
  have hle' := hoverlaps.length_le
  by_contra hnot
  exact hne ⟨(hoverlaps.eq_of_length (by omega)).symm, (hinputs.eq_of_length (by omega)).symm⟩

end Expanding

/-- A selection that a round leaves as it is. -/
structure Closed (version : Version) (level outputLevel : Fin numLevels)
    (inputs overlaps : List FileMeta) : Prop extends
    Expanding version level outputLevel inputs overlaps where
  fixed : ∃ range range',
    Round version level outputLevel inputs overlaps inputs overlaps range range'

private theorem expand_succ {inputs overlaps inputs' overlaps' : List FileMeta}
    {range range' : Bytes × Bytes}
    (hround : Round version level outputLevel inputs overlaps inputs' overlaps' range range')
    (rounds : ℕ) : expand version level outputLevel (rounds + 1) inputs overlaps =
      if overlaps' = overlaps ∧ inputs' = inputs then some (inputs, overlaps)
      else expand version level outputLevel rounds inputs' overlaps' := by
  rw [expand, expandOnce_eq_some.mpr ⟨range, range', hround⟩]
  rfl

/-- With enough rounds, the loop ends with a closed selection. -/
theorem exists_expand {inputs overlaps : List FileMeta}
    (h : Expanding version level outputLevel inputs overlaps) {rounds : ℕ}
    (hrounds : (version.levels level).length + (version.levels outputLevel).length
      < rounds + (inputs.length + overlaps.length)) :
    ∃ inputs' overlaps', expand version level outputLevel rounds inputs overlaps
        = some (inputs', overlaps') ∧ Closed version level outputLevel inputs' overlaps' := by
  induction rounds generalizing inputs overlaps with
  | zero =>
    obtain ⟨p, hp⟩ := h.inputs_filter
    obtain ⟨q, hq⟩ := h.overlaps_filter
    have hle := List.length_filter_le p (version.levels level)
    have hle' := List.length_filter_le q (version.levels outputLevel)
    rw [hp, hq] at hrounds
    omega
  | succ rounds ih =>
    obtain ⟨inputs', overlaps', range, range', hround⟩ := h.exists_round
    rw [expand_succ hround]
    split_ifs with hfixed
    · refine ⟨inputs, overlaps, rfl, h, range, range', ?_⟩
      rw [hfixed.1, hfixed.2] at hround
      exact hround
    · have hlt := h.length_lt hround hfixed
      exact ih (h.round hround) (by omega)

/-- More rounds than are needed change nothing. -/
theorem expand_mono {inputs overlaps : List FileMeta} {selection : List FileMeta × List FileMeta}
    {rounds rounds' : ℕ} (hle : rounds ≤ rounds')
    (h : expand version level outputLevel rounds inputs overlaps = some selection) :
    expand version level outputLevel rounds' inputs overlaps = some selection := by
  induction rounds generalizing inputs overlaps rounds' with
  | zero => cases h
  | succ rounds ih =>
    obtain ⟨rounds', rfl⟩ : ∃ n, rounds' = n + 1 := ⟨rounds' - 1, by omega⟩
    rw [expand] at h ⊢
    obtain ⟨⟨inputs', overlaps'⟩, hround, h⟩ := Option.bind_eq_some_iff.mp h
    rw [hround]
    show (if overlaps' = overlaps ∧ inputs' = inputs then pure (inputs, overlaps)
      else expand version level outputLevel rounds' inputs' overlaps') = _
    simp only at h
    split_ifs at h ⊢ with hfixed
    · exact h
    · exact ih (by omega) h

/-- The range of a closed selection is one that no other table of its levels meets. -/
theorem Closed.complete {inputs overlaps : List FileMeta}
    (h : Closed version level outputLevel inputs overlaps) :
    ∃ range, userRange (inputs ++ overlaps) = some range ∧
      (∀ file ∈ version.levels outputLevel, rangesOverlap file range = true → file ∈ overlaps) ∧
      (level ≠ 0 → ∀ file ∈ version.levels level, rangesOverlap file range = true →
        file ∈ inputs) := by
  obtain ⟨range, range', hround⟩ := h.fixed
  -- a round that changes nothing sees the same range twice
  obtain rfl : range = range' :=
    Option.some.inj (hround.range_eq.symm.trans hround.expanded_eq)
  refine ⟨range, hround.range_eq, fun file hfile hmeets ↦ ?_, fun hlevel file hfile hmeets ↦ ?_⟩
  · rw [hround.overlaps_eq]
    exact List.mem_filter.mpr ⟨hfile, hmeets⟩
  · rw [hround.inputs_eq, if_neg hlevel]
    exact List.mem_filter.mpr ⟨hfile, hmeets⟩

/-! ## Plans -/

/-- What `makePlan` says of the plan it returns. -/
structure Planned (version : Version) (plan : CompactionPlan) : Prop where
  succ : plan.outputLevel.val = plan.inputLevel.val + 1
  closed : Closed version plan.inputLevel plan.outputLevel plan.inputs plan.overlaps

private theorem firstInputs_expanding {level outputLevel : Fin numLevels}
    (h : firstInputs version level ≠ []) :
    Expanding version level outputLevel (firstInputs version level) [] := by
  by_cases hlevel : level = 0
  · subst hlevel
    rw [firstInputs, if_pos rfl] at h ⊢
    exact ⟨h, ⟨fun _ ↦ true, by simp⟩, ⟨fun _ ↦ false, by simp⟩, fun _ ↦ rfl,
      fun hne ↦ absurd rfl hne⟩
  · rw [firstInputs, if_neg hlevel] at h ⊢
    have hwithin := version.distinct.within level
    cases hfiles : version.levels level with
    | nil => simp [hfiles] at h
    | cons file files =>
      rw [hfiles] at hwithin
      obtain ⟨hfirst, -⟩ := List.pairwise_cons.mp hwithin
      refine ⟨by simp, ⟨fun other ↦ other.number = file.number, ?_⟩, ⟨fun _ ↦ false, by simp⟩,
        fun h ↦ absurd h hlevel, fun _ range hrange ↦ ?_⟩
      · rw [hfiles, List.filter_cons_of_pos (by simp)]
        have hnone : files.filter (fun other ↦ other.number = file.number) = [] := by
          refine List.filter_eq_nil_iff.mpr fun other hother ↦ ?_
          simp [(hfirst other hother).symm]
        rw [hnone, List.take_succ_cons, List.take_zero]
      · rw [List.take_succ_cons, List.take_zero, List.append_nil] at hrange ⊢
        intro key hkey
        obtain rfl := Option.some.inj hrange
        exact ⟨file, List.mem_singleton.mpr rfl, hkey⟩

private theorem firstInputs_ne_nil {level : Fin numLevels} (h : version.levels level ≠ []) :
    firstInputs version level ≠ [] := by
  unfold firstInputs
  split_ifs with hlevel
  · rwa [← hlevel]
  · intro hnil
    rcases List.take_eq_nil_iff.mp hnil with hzero | hnil
    · cases hzero
    · exact h hnil

private theorem exists_expand_firstInputs {version : Version} {level : Fin (numLevels - 1)}
    (h : version.levels level.castSucc ≠ []) :
    ∃ inputs overlaps, expand version level.castSucc level.succ
        ((version.levels level.castSucc).length + (version.levels level.succ).length + 2)
        (firstInputs version level.castSucc) [] = some (inputs, overlaps) ∧
      Closed version level.castSucc level.succ inputs overlaps :=
  exists_expand (firstInputs_expanding (firstInputs_ne_nil h)) (by omega)

private theorem makePlan_of_expand {version : Version} {level : Fin (numLevels - 1)}
    {inputs overlaps : List FileMeta} (h : version.levels level.castSucc ≠ [])
    (hexpand : expand version level.castSucc level.succ
      ((version.levels level.castSucc).length + (version.levels level.succ).length + 2)
      (firstInputs version level.castSucc) [] = some (inputs, overlaps)) :
    makePlan version level = some ⟨level.castSucc, level.succ, inputs, overlaps⟩ := by
  rw [makePlan]
  simp only [if_neg (firstInputs_ne_nil h), hexpand]
  rfl

/-- **Planning.** A level with a table has a plan, and every plan is closed. -/
theorem makePlan_eq_some {version : Version} {level : Fin (numLevels - 1)}
    (h : version.levels level.castSucc ≠ []) :
    ∃ plan, makePlan version level = some plan ∧ plan.inputLevel = level.castSucc ∧
      Planned version plan := by
  obtain ⟨inputs, overlaps, hexpand, hclosed⟩ := exists_expand_firstInputs h
  exact ⟨_, makePlan_of_expand h hexpand, rfl, by simp, hclosed⟩

/-- **Planning ends, with a closed selection.** For a level with a table the loop ends after
finitely many rounds. In the smallest range of user keys that covers the selected tables, every
table of the output level that meets it is selected, and every table of the input level too; of
level zero all tables are selected. -/
theorem makePlan_closed {version : Version} {level : Fin (numLevels - 1)}
    (h : version.levels level.castSucc ≠ []) :
    ∃ plan : CompactionPlan, ∃ range : Bytes × Bytes, makePlan version level = some plan ∧
      (∃ enough, ∀ rounds ≥ enough,
        expand version level.castSucc level.succ rounds (firstInputs version level.castSucc) []
          = some (plan.inputs, plan.overlaps)) ∧
      plan.inputLevel = level.castSucc ∧ plan.outputLevel = level.succ ∧
      plan.inputs ≠ [] ∧ plan.inputs ⊆ version.levels plan.inputLevel ∧
      plan.overlaps ⊆ version.levels plan.outputLevel ∧
      IsRange (plan.inputs ++ plan.overlaps) range ∧
      (∀ file ∈ version.levels plan.outputLevel, file.smallest.userKey ≤ range.2 →
        range.1 ≤ file.largest.userKey → file ∈ plan.overlaps) ∧
      (plan.inputLevel ≠ 0 → ∀ file ∈ version.levels plan.inputLevel,
        file.smallest.userKey ≤ range.2 → range.1 ≤ file.largest.userKey → file ∈ plan.inputs) ∧
      (plan.inputLevel = 0 → plan.inputs = version.levels 0) := by
  obtain ⟨inputs, overlaps, hexpand, hclosed⟩ := exists_expand_firstInputs h
  obtain ⟨range, hrange, houtput, hinput⟩ := hclosed.complete
  refine ⟨⟨level.castSucc, level.succ, inputs, overlaps⟩, range, makePlan_of_expand h hexpand,
    ⟨_, fun rounds hrounds ↦ expand_mono hrounds hexpand⟩, rfl, rfl, hclosed.inputs_ne,
    hclosed.inputs_subset, hclosed.overlaps_subset, isRange_of_userRange hrange, ?_, ?_,
    hclosed.inputs_zero⟩
  · exact fun file hfile hsmallest hlargest ↦
      houtput file hfile (rangesOverlap_iff.mpr ⟨hsmallest, hlargest⟩)
  · exact fun hlevel file hfile hsmallest hlargest ↦
      hinput hlevel file hfile (rangesOverlap_iff.mpr ⟨hsmallest, hlargest⟩)

private theorem chainSequence_lt : (5 : SequenceNumber).val < maxU64 := by decide

private theorem chainSize_ne : (100 : U64) ≠ 0 := by decide

private def chainKey (byte : Byte) : InternalKey := ⟨[byte], 5, .value, chainSequence_lt⟩

private theorem chainNumber_ne (number : U64) : max 1 number ≠ 0 :=
  fun h ↦ absurd (h ▸ le_max_left 1 number) (by decide)

/-- A table with keys of one byte. -/
private def chainTable (number : U64) (low high : Byte) : FileMeta :=
  ⟨max 1 number, 100, chainKey low, max (chainKey low) (chainKey high), chainNumber_ne number,
    chainSize_ne, le_max_left _ _⟩

private def chainFirst : FileMeta := chainTable 3 1 3
private def chainSecond : FileMeta := chainTable 4 5 7
private def chainThird : FileMeta := chainTable 5 9 10
private def linkFirst : FileMeta := chainTable 6 2 6
private def linkSecond : FileMeta := chainTable 7 7 8
private def linkThird : FileMeta := chainTable 8 11 12

/-- Two levels in which every selected table but the last meets a further one. -/
private def chain : Version where
  levels level := if level = 1 then [chainFirst, chainSecond, chainThird]
    else if level = 2 then [linkFirst, linkSecond, linkThird] else []
  distinct := ⟨by decide, by decide⟩
  newest_first := by decide
  disjoint level hlevel := by
    split_ifs
    · rw [NonOverlapping]; decide
    · rw [NonOverlapping]; decide
    · exact .nil

private theorem chainLevel_lt : 1 < numLevels - 1 := by decide

/-- The plan starts from one table and takes up a table of the output level, by it a second one of
its own level, and by that a second one of the output level. Two rounds are not enough for it. Of
each level the table outside the range stays. -/
theorem makePlan_closed_chain :
    expand chain 1 2 2 [chainFirst] [] = none ∧
    makePlan chain ⟨1, chainLevel_lt⟩
      = some ⟨1, 2, [chainFirst, chainSecond], [linkFirst, linkSecond]⟩ ∧
    (∃ enough, ∀ rounds ≥ enough, expand chain 1 2 rounds [chainFirst] []
      = some ([chainFirst, chainSecond], [linkFirst, linkSecond])) ∧
    ∃ range : Bytes × Bytes,
      IsRange [chainFirst, chainSecond, linkFirst, linkSecond] range ∧
      ∀ file ∈ chain.levels 2, file.smallest.userKey ≤ range.2 →
        range.1 ≤ file.largest.userKey → file ∈ [linkFirst, linkSecond] := by
  obtain ⟨plan, range, hplan, henough, -, -, -, -, -, hrange, houtput, -⟩ :=
    @makePlan_closed chain ⟨1, chainLevel_lt⟩ (by decide)
  have heq : makePlan chain ⟨1, chainLevel_lt⟩
      = some ⟨1, 2, [chainFirst, chainSecond], [linkFirst, linkSecond]⟩ := by decide +kernel
  obtain rfl := Option.some.inj (hplan.symm.trans heq)
  exact ⟨by decide +kernel, hplan, henough, range, hrange, houtput⟩

theorem planned_of_makePlan {version : Version} {level : Fin (numLevels - 1)}
    {plan : CompactionPlan} (h : makePlan version level = some plan) : Planned version plan := by
  have hfiles : version.levels level.castSucc ≠ [] := by
    intro hnil
    have hinputs : firstInputs version level.castSucc = [] := by
      unfold firstInputs
      split_ifs with hlevel
      · rwa [← hlevel]
      · rw [hnil, List.take_nil]
    rw [makePlan] at h
    simp [hinputs] at h
  obtain ⟨plan', hplan, -, hplanned⟩ := makePlan_eq_some hfiles
  rw [hplan] at h
  exact Option.some.inj h ▸ hplanned

theorem CompactionPicker.planned_of_pick {divide : ℕ → ℕ → ℚ} {picker : CompactionPicker}
    {version : Version} {plan : CompactionPlan} (h : picker.pick divide version = some plan) :
    Planned version plan := by
  have hfold : ∀ (levels : List (Fin (numLevels - 1))) (selected : Option (CompactionPlan × ℚ)),
      (∀ p ∈ selected, Planned version p.1) →
        ∀ p ∈ levels.foldl (fun selected level ↦
          let score := picker.score divide version level
          if 1 < score ∧ selected.all (fun plan : CompactionPlan × ℚ ↦ plan.2 < score) then
            (makePlan version level).map (·, score)
          else selected) selected, Planned version p.1 := by
    intro levels
    induction levels with
    | nil => exact fun _ h ↦ h
    | cons level levels ih =>
      intro selected hselected
      refine ih _ fun p hp ↦ ?_
      dsimp only at hp
      split_ifs at hp
      · obtain ⟨plan', hplan', rfl⟩ := Option.map_eq_some_iff.mp hp
        exact planned_of_makePlan hplan'
      · exact hselected p hp
  obtain ⟨p, hp, rfl⟩ := Option.map_eq_some_iff.mp h
  exact hfold _ none nofun p hp

end MeteorDB
