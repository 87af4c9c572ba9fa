import MeteorDB.EngineSections

/-!
# Plans that outlive their version

A plan may be executed long after it was picked. `validateCompactionPlan` checks only that its
tables are still live; `PlanInv` is the history argument that makes this enough. As long as all
tables of a plan are live, no table that stays has come to lie in its way.

A flush adds a table to level zero only, with a larger number than all others. Another compaction
adds tables within its own range. If it works on the same levels and leaves all tables of the plan
alive, the two ranges do not meet: above level zero the tables of a plan cover its range without a
gap, and in level zero every plan contains the oldest table.
-/

namespace MeteorDB

open OrderedList

/-- All tables of a plan are live. -/
structure PlanLive (version : Version) (plan : CompactionPlan) : Prop where
  inputs : ∀ file ∈ plan.inputs, file ∈ version.levels plan.inputLevel
  overlaps : ∀ file ∈ plan.overlaps, file ∈ version.levels plan.outputLevel

/-- What remains true of a plan after it was picked. -/
structure PlanInv (version : Version) (used : Finset U64) (plan : CompactionPlan) : Prop where
  succ : plan.outputLevel.val = plan.inputLevel.val + 1
  inputs_ne : plan.inputs ≠ []
  used : ∀ file ∈ plan.files, file.number ∈ used
  covered : plan.inputLevel ≠ 0 → ∀ range, IsRange plan.files range → Covered plan.files range
  replaceable : PlanLive version plan → Replaceable version plan

variable {version version' : Version} {used used' : Finset U64} {plan : CompactionPlan}

theorem IsRange.unique {files : List FileMeta} {range range' : Bytes × Bytes}
    (h : IsRange files range) (h' : IsRange files range') : range = range' := by
  have hle := h.encloses_of_subset h' (List.Subset.refl _)
  have hge := h'.encloses_of_subset h (List.Subset.refl _)
  exact Prod.ext (le_antisymm hge.1 hle.1) (le_antisymm hle.2 hge.2)

/-- A plan has the invariant when it is picked. -/
theorem Planned.inv (h : Planned version plan)
    (hlive : ∀ level, ∀ file ∈ version.levels level, file.number ∈ used) :
    PlanInv version used plan := by
  refine ⟨h.succ, h.closed.inputs_ne, fun file hfile ↦ ?_, fun hlevel range hrange ↦ ?_,
    fun _ ↦ h.replaceable⟩
  · obtain ⟨level, hlevel⟩ := h.replaceable.exists_level hfile
    exact hlive level file hlevel
  · obtain ⟨range', hrange'⟩ := exists_userRange
      (List.append_ne_nil_of_left_ne_nil h.closed.inputs_ne plan.overlaps)
    rw [hrange.unique (isRange_of_userRange hrange')]
    exact h.closed.covered hlevel range' hrange'

/-- The check before a plan is executed is enough. -/
theorem PlanInv.replaceable_of_valid (h : PlanInv version used plan)
    (hvalid : validateCompactionPlan plan version = .ok ()) : Replaceable version plan := by
  obtain ⟨hinputs, hoverlaps⟩ := validateCompactionPlan_eq_ok.mp hvalid
  exact h.replaceable ⟨hinputs, hoverlaps⟩

theorem PlanLive.mono (h : PlanLive version' plan)
    (hsub : ∀ level, ∀ file ∈ plan.files, file ∈ version'.levels level →
      file ∈ version.levels level) : PlanLive version plan :=
  ⟨fun file hfile ↦ hsub _ file (List.mem_append_left _ hfile) (h.inputs file hfile),
    fun file hfile ↦ hsub _ file (List.mem_append_right _ hfile) (h.overlaps file hfile)⟩

/-- The same tables. -/
theorem PlanInv.congr (h : PlanInv version used plan) (hsame : version.SameTables version') :
    PlanInv version' used plan := by
  refine ⟨h.succ, h.inputs_ne, h.used, h.covered, fun hlive ↦ ?_⟩
  have hold := h.replaceable (hlive.mono fun level file _ ↦ (hsame level file).mp)
  exact ⟨hold.succ, hlive.inputs, hlive.overlaps, hold.inputs_nodup, hold.overlaps_nodup,
    fun hzero file hfile ↦ hold.zero hzero file ((hsame 0 file).mp hfile),
    fun range hrange file hfile ↦ hold.outside range hrange file ((hsame _ file).mp hfile)⟩

/-- A flush adds a table with the largest number to level zero. -/
theorem PlanInv.flush (h : PlanInv version used plan) {added : FileMeta}
    (hnumber : ∀ number ∈ used, number < added.number)
    (hmem : ∀ level file, file ∈ version'.levels level ↔
      file ∈ version.levels level ∨ level = 0 ∧ file = added) :
    PlanInv version' (insert added.number used) plan := by
  refine ⟨h.succ, h.inputs_ne, fun file hfile ↦ Finset.mem_insert_of_mem (h.used file hfile),
    h.covered, fun hlive ↦ ?_⟩
  have hold := h.replaceable (hlive.mono fun level file hfile hnew ↦
    ((hmem level file).mp hnew).resolve_right fun heq ↦
      lt_irrefl _ (heq.2 ▸ hnumber _ (h.used file hfile)))
  have hpos : plan.outputLevel ≠ 0 := by
    intro hzero
    have hsucc := h.succ
    rw [hzero] at hsucc
    exact absurd hsucc (by simp)
  refine ⟨hold.succ, hlive.inputs, hlive.overlaps, hold.inputs_nodup, hold.overlaps_nodup, ?_, ?_⟩
  · intro hzero file hfile hnot input hinput
    rcases (hmem 0 file).mp hfile with hfile | ⟨-, rfl⟩
    · exact hold.zero hzero file hfile hnot input hinput
    · exact hnumber _ (h.used input (List.mem_append_left _ hinput))
  · intro range hrange file hfile
    exact hold.outside range hrange file (((hmem _ file).mp hfile).resolve_right fun heq ↦
      hpos heq.1)

/-! ## Another compaction -/

/-- Two plans for level zero that are live share the oldest table. -/
theorem PlanInv.shares_oldest {other : CompactionPlan} (hne : plan.inputs ≠ [])
    (hother : other.inputs ≠ []) (hreplaceable : Replaceable version plan)
    (hreplaceable' : Replaceable version other) (hlevel : plan.inputLevel = 0)
    (hlevel' : other.inputLevel = 0) : ∃ file ∈ plan.inputs, file ∈ other.inputs := by
  have hzero : version.levels 0 ≠ [] := by
    obtain ⟨input, hinput⟩ := List.exists_mem_of_ne_nil _ hne
    exact List.ne_nil_of_mem (hlevel ▸ hreplaceable.inputs input hinput)
  -- The last table of level zero has the least number.
  obtain ⟨oldest, hoff⟩ : ∃ oldest ∈ version.levels 0, ∀ file ∈ version.levels 0,
      ¬ file.number < oldest.number := by
    refine ⟨_, List.getLast_mem hzero, fun file hfile hlt ↦ ?_⟩
    have hfirst := version.newest_first
    rw [← List.dropLast_append_getLast hzero] at hfirst hfile
    rcases List.mem_append.mp hfile with hmem | hmem
    · have := (List.pairwise_append.mp hfirst).2.2 file hmem _ (List.mem_singleton.mpr rfl)
      exact lt_asymm this hlt
    · rw [List.mem_singleton.mp hmem] at hlt
      exact lt_irrefl _ hlt
  obtain ⟨hmem, hleast⟩ := hoff
  have hin : ∀ {p : CompactionPlan}, p.inputs ≠ [] → Replaceable version p → p.inputLevel = 0 →
      oldest ∈ p.inputs := by
    intro p hne hp hlevel
    obtain ⟨input, hinput⟩ := List.exists_mem_of_ne_nil _ hne
    by_contra hnot
    exact hleast input (hlevel ▸ hp.inputs input hinput)
      (hp.zero hlevel oldest hmem hnot input hinput)
  exact ⟨oldest, hin hne hreplaceable hlevel, hin hother hreplaceable' hlevel'⟩

/-- Above level zero, two live plans of one level without a common table have ranges that do not
meet. -/
theorem PlanInv.ranges_apart {other : CompactionPlan} (h : PlanInv version used plan)
    (h' : PlanInv version used other) (hreplaceable : Replaceable version plan)
    (hreplaceable' : Replaceable version other) (hlevel : plan.inputLevel = other.inputLevel)
    (hpos : plan.inputLevel ≠ 0) (hdisjoint : ∀ file ∈ plan.files, file ∉ other.files)
    {range range' : Bytes × Bytes} (hrange : IsRange plan.files range)
    (hrange' : IsRange other.files range') {key : Bytes} (hkey : InRange range key) :
    ¬ InRange range' key := by
  intro hkey'
  have hout : plan.outputLevel = other.outputLevel := by
    refine Fin.ext ?_
    rw [h.succ, h'.succ, hlevel]
  have hpos' : plan.outputLevel ≠ 0 := by
    intro hzero
    have hsucc := h.succ
    rw [hzero] at hsucc
    exact absurd hsucc (by simp)
  -- A table that covers a key of a range meets that range.
  have hmeets : ∀ {range : Bytes × Bytes} {file : FileMeta}, InRange range key → file.Covers key →
      rangesOverlap file range = true :=
    fun hkey hcovers ↦ rangesOverlap_iff.mpr ⟨hcovers.1.trans hkey.2, hkey.1.trans hcovers.2⟩
  obtain ⟨file, hfile, hcovers⟩ := h.covered hpos range hrange key hkey
  obtain ⟨file', hfile', hcovers'⟩ := h'.covered (hlevel ▸ hpos) range' hrange' key hkey'
  rcases List.mem_append.mp hfile with hinput | hoverlap <;>
    rcases List.mem_append.mp hfile' with hinput' | hoverlap'
  · have heq := Version.eq_of_covers hpos (hreplaceable.inputs file hinput)
      (hlevel ▸ hreplaceable'.inputs file' hinput') hcovers hcovers'
    exact hdisjoint file hfile (heq ▸ hfile')
  · have hapart := hreplaceable.outside range hrange file'
      (hout ▸ hreplaceable'.overlaps file' hoverlap')
      fun hmem ↦ hdisjoint file' (List.mem_append_right _ hmem) hfile'
    exact absurd ((hmeets hkey hcovers').symm.trans hapart) (by decide)
  · have hapart := hreplaceable'.outside range' hrange' file
      (hout ▸ hreplaceable.overlaps file hoverlap)
      fun hmem ↦ hdisjoint file hfile (List.mem_append_right _ hmem)
    exact absurd ((hmeets hkey' hcovers).symm.trans hapart) (by decide)
  · have heq := Version.eq_of_covers hpos' (hreplaceable.overlaps file hoverlap)
      (hout ▸ hreplaceable'.overlaps file' hoverlap') hcovers hcovers'
    exact hdisjoint file hfile (heq ▸ hfile')

/-- **Another compaction.** A plan that is still live after another one was executed can still be
replaced. -/
theorem PlanInv.compaction {other : CompactionPlan} (h : PlanInv version used plan)
    (hother : PlanInv version used other) (hreplaceable : Replaceable version other)
    {added : List FileMeta} (hsub : used ⊆ used') (hfresh : ∀ file ∈ added, file.number ∉ used)
    (hinside : ∀ range, IsRange other.files range → ∀ file ∈ added, Encloses range file)
    (hmem : ∀ level file, file ∈ version'.levels level ↔
      file ∈ version.levels level ∧ file ∉ other.files ∨
        level = other.outputLevel ∧ file ∈ added) :
    PlanInv version' used' plan := by
  refine ⟨h.succ, h.inputs_ne, fun file hfile ↦ hsub (h.used file hfile), h.covered, fun hlive ↦ ?_⟩
  have hstay : ∀ level, ∀ file ∈ plan.files, file ∈ version'.levels level →
      file ∈ version.levels level ∧ file ∉ other.files :=
    fun level file hfile hnew ↦ ((hmem level file).mp hnew).resolve_right fun hadded ↦
      hfresh file hadded.2 (h.used file hfile)
  have hold := h.replaceable
    (hlive.mono fun level file hfile hnew ↦ (hstay level file hfile hnew).1)
  have hdisjoint : ∀ file ∈ plan.files, file ∉ other.files := by
    intro file hfile
    rcases List.mem_append.mp hfile with hinput | hoverlap
    · exact (hstay _ file hfile (hlive.inputs file hinput)).2
    · exact (hstay _ file hfile (hlive.overlaps file hoverlap)).2
  have hzero : ∀ {level : Fin numLevels}, level.val = other.inputLevel.val + 1 → level ≠ 0 := by
    rintro level hsucc rfl
    exact absurd hsucc (by simp)
  refine ⟨hold.succ, hlive.inputs, hlive.overlaps, hold.inputs_nodup, hold.overlaps_nodup, ?_, ?_⟩
  · intro hlevel file hfile hnot input hinput
    have hfile := ((hmem 0 file).mp hfile).resolve_right fun hadded ↦
      hzero (hadded.1 ▸ hother.succ) rfl
    exact hold.zero hlevel file hfile.1 hnot input hinput
  · intro range hrange file hfile hnot
    rcases (hmem _ file).mp hfile with ⟨hfile, -⟩ | ⟨hout, hadded⟩
    · exact hold.outside range hrange file hfile hnot
    -- The new table lies in the range of the other plan, which works on the same levels.
    have hlevel : plan.inputLevel = other.inputLevel := by
      refine Fin.ext ?_
      have hsucc := h.succ
      have hsucc' := hother.succ
      rw [hout] at hsucc
      omega
    have hne : plan.inputLevel ≠ 0 := by
      intro hzero
      obtain ⟨shared, hshared, hshared'⟩ := PlanInv.shares_oldest h.inputs_ne hother.inputs_ne hold
        hreplaceable hzero (hlevel ▸ hzero)
      exact hdisjoint shared (List.mem_append_left _ hshared) (List.mem_append_left _ hshared')
    obtain ⟨range', hrange'⟩ := exists_userRange
      (List.append_ne_nil_of_left_ne_nil hother.inputs_ne other.overlaps)
    have hrange' := isRange_of_userRange hrange'
    obtain ⟨hleft, hright⟩ := hinside range' hrange' file hadded
    by_contra hmeets
    rw [Bool.not_eq_false] at hmeets
    obtain ⟨hsmall, hlarge⟩ := rangesOverlap_iff.mp hmeets
    -- The larger of the two lower ends lies in both ranges.
    have hrange_le : range.1 ≤ range.2 := by
      obtain ⟨first, hfirst, heq⟩ := hrange.smallest
      exact heq ▸ first.userKey_le.trans (hrange.encloses first hfirst).2
    have hkey : InRange range (max range.1 file.smallest.userKey) :=
      ⟨le_max_left _ _, max_le hrange_le hsmall⟩
    have hkey' : InRange range' (max range.1 file.smallest.userKey) :=
      ⟨hleft.trans (le_max_right _ _), (max_le hlarge file.userKey_le).trans hright⟩
    exact h.ranges_apart hother hold hreplaceable hlevel hne hdisjoint hrange hrange' hkey hkey'

/-- Plans outlive a published compaction. -/
theorem Engine.PublishedCompaction.planInv {e e' : Engine} {options : Options} {faults : Faults}
    {oldestActiveSnapshot : Option SequenceNumber} {readTimeUnixMs : U64} {fileSize : U64 → U64}
    {other : CompactionPlan}
    (hpublished : PublishedCompaction e (e.compactionContext options faults oldestActiveSnapshot
      readTimeUnixMs fileSize) plan e') (h : Core e)
    (hplan : PlanInv e.versions.version e.versions.usedFileNumbers plan)
    (hreplaceable : Replaceable e.versions.version plan)
    (hother : PlanInv e.versions.version e.versions.usedFileNumbers other) :
    PlanInv e'.versions.version e'.versions.usedFileNumbers other := by
  obtain ⟨outputs, next, blocks, hcompacts⟩ := hpublished.compacts
  refine hother.compaction hplan hreplaceable hpublished.used ?_ ?_ hcompacts.levels
  · intro file hfile hmem
    obtain ⟨table, htable, rfl⟩ := List.mem_map.mp hfile
    have hge := (hcompacts.output.number_mem htable).1
    exact absurd ((h.sound.used_lt _ hmem).trans_le h.next_le) (not_lt.mpr hge)
  · intro range hrange file hfile
    obtain ⟨table, htable, rfl⟩ := List.mem_map.mp hfile
    exact hreplaceable.encloses h.sound.layered hcompacts.output hrange htable

end MeteorDB
