import MeteorDB.CompactionReads

/-!
# Publishing a compaction

The edit of a plan deletes its tables and adds the outputs. It can be applied whenever the plan is
replaceable: the outputs have new numbers, do not overlap each other, and lie within the range of
the plan, which no table that stays in the output level meets (`Replaceable.exists_apply`). A plan
is replaceable in the version it was made for (`Planned.replaceable`).
-/

namespace MeteorDB

open OrderedList MergeIter

variable {version version' : Version} {contents contents' : FileMeta → List InternalEntry}
  {plan : CompactionPlan} {context : CompactionContext}

variable {outputs : List CompactedTable} {next : U64}

/-! ## The edit of a plan -/

theorem mem_edit_addedFiles {a : ℕ × FileMeta} :
    a ∈ (plan.edit (outputs.map (·.file)) next).addedFiles ↔
      ∃ table ∈ outputs, a = (plan.outputLevel.val, table.file) := by
  simp only [CompactionPlan.edit, List.map_map, List.mem_map, Function.comp_apply, eq_comm]

theorem edit_addedNumbers : (plan.edit (outputs.map (·.file)) next).addedFiles.map (·.2.number)
    = outputs.map (·.file.number) := by
  rw [CompactionPlan.edit, List.map_map, List.map_map]
  rfl

theorem edit_deletedNumbers : (plan.edit (outputs.map (·.file)) next).deletedFiles.map Prod.snd
    = plan.files.map FileMeta.number := by
  rw [CompactionPlan.edit, CompactionPlan.files, List.map_append, List.map_append, List.map_map,
    List.map_map]
  rfl

namespace Replaceable

private theorem mem_edit_deletedFiles (h : Replaceable version plan) {level : Fin numLevels}
    {file : FileMeta} (hfile : file ∈ version.levels level) (files : List FileMeta) (next : U64) :
    (level.val, file.number) ∈ (plan.edit files next).deletedFiles ↔ file ∈ plan.files := by
  have hiff : ∀ {target : Fin numLevels} {tables : List FileMeta},
      (∀ table ∈ tables, table ∈ version.levels target) →
        ((level.val, file.number) ∈ tables.map (fun table ↦ (target.val, table.number)) ↔
          file ∈ tables) := by
    intro target tables htables
    rw [List.mem_map]
    constructor
    · rintro ⟨table, htable, heq⟩
      have hnumber := (Prod.mk.inj heq).2
      rwa [← (Version.eq_of_number_eq (htables table htable) hfile hnumber).2]
    · intro hmem
      have hlevel := (Version.eq_of_number_eq (htables file hmem) hfile rfl).1
      exact ⟨file, hmem, by rw [hlevel]⟩
  rw [CompactionPlan.files, List.mem_append, ← hiff h.inputs, ← hiff h.overlaps]
  exact List.mem_append

private theorem disjoint_files (h : Replaceable version plan) {input overlap : FileMeta}
    (hinput : input ∈ plan.inputs) (hoverlap : overlap ∈ plan.overlaps) :
    input.number ≠ overlap.number := by
  intro heq
  have hlevel := (Version.eq_of_number_eq (h.inputs input hinput) (h.overlaps overlap hoverlap)
    heq).1
  have hsucc := h.succ
  rw [← hlevel] at hsucc
  omega

/-- The tables of a plan have different numbers. -/
theorem files_pairwise (h : Replaceable version plan) :
    plan.files.Pairwise fun a b ↦ a.number ≠ b.number := by
  have hwithin : ∀ {target : Fin numLevels} {tables : List FileMeta}, tables.Nodup →
      (∀ table ∈ tables, table ∈ version.levels target) →
        tables.Pairwise fun a b ↦ a.number ≠ b.number := by
    intro target tables hnodup htables
    refine hnodup.imp_of_mem fun {a b} ha hb hne heq ↦ hne ?_
    exact (Version.eq_of_number_eq (htables a ha) (htables b hb) heq).2
  refine List.pairwise_append.mpr ⟨hwithin h.inputs_nodup h.inputs,
    hwithin h.overlaps_nodup h.overlaps, fun input hinput overlap hoverlap ↦ ?_⟩
  exact h.disjoint_files hinput hoverlap

/-- The tables of a plan have an ordered union. -/
theorem union (h : Replaceable version plan) (hlayered : Layered version contents) :
    Union InternalEntry.key (mergedEntries (plan.files.map contents))
      (plan.files.map contents) := by
  have hruns : ∀ l ∈ plan.files.map contents, Run l := by
    intro l hl
    obtain ⟨file, hfile, rfl⟩ := List.mem_map.mp hl
    obtain ⟨level, hlevel⟩ := h.exists_level hfile
    exact (hlayered.strict level file hlevel).run
  have hshared : (plan.files.map contents).Pairwise fun a b ↦ ∀ x ∈ a, ∀ y ∈ b, x.key ≠ y.key := by
    rw [List.pairwise_map]
    refine h.files_pairwise.imp_of_mem fun {a b} ha hb hne x hx y hy heq ↦ ?_
    obtain ⟨i, hi⟩ := h.exists_level ha
    obtain ⟨j, hj⟩ := h.exists_level hb
    rcases hlayered.newer_or hi hj (fun hab ↦ hne (hab ▸ rfl)) with hnewer | hnewer
    · exact (hnewer x hx y hy (congrArg InternalKey.userKey heq)).ne (heq ▸ rfl)
    · exact (hnewer y hy x hx (congrArg InternalKey.userKey heq.symm)).ne (heq ▸ rfl)
  exact .of_pairwise (mergedEntries_run hruns hshared) hruns hshared fun _ ↦ mem_mergedEntries

/-- The ends of an output are user keys of the plan. -/
theorem encloses (h : Replaceable version plan) (hlayered : Layered version contents)
    {start : U64} {blocks : List (List (List InternalEntry))}
    (houtput : CompactionOutput start (retainedGroups context plan.outputLevel
      (mergedEntries (plan.files.map contents))) outputs next blocks)
    {range : Bytes × Bytes} (hrange : IsRange plan.files range) {table : CompactedTable}
    (htable : table ∈ outputs) : Encloses range table.file := by
  have hinside : ∀ entry ∈ table.entries,
      range.1 ≤ entry.key.userKey ∧ entry.key.userKey ≤ range.2 := by
    intro entry hentry
    obtain ⟨original, hmem, huser, -⟩ := houtput.exists_original htable hentry
    obtain ⟨l, hl, horiginal⟩ := mem_mergedEntries.mp hmem
    obtain ⟨file, hfile, rfl⟩ := List.mem_map.mp hl
    obtain ⟨level, hlevel⟩ := h.exists_level hfile
    obtain ⟨hsmallest, hlargest⟩ := hlayered.covers level file hlevel original horiginal
    obtain ⟨hleft, hright⟩ := hrange.encloses file hfile
    rw [← huser]
    exact ⟨hleft.trans hsmallest, hlargest.trans hright⟩
  obtain ⟨first, hfirst, hsmallest⟩ := (houtput.described table htable).exists_first
  obtain ⟨last, hlast, hlargest⟩ := (houtput.described table htable).exists_last
  exact ⟨hsmallest ▸ (hinside first hfirst).1, hlargest ▸ (hinside last hlast).2⟩

/-- **The outputs fit.** The edit that replaces the tables of a plan can be applied. -/
theorem exists_apply (h : Replaceable version plan) (hlayered : Layered version contents)
    {start : U64} {blocks : List (List (List InternalEntry))}
    (houtput : CompactionOutput start (retainedGroups context plan.outputLevel
      (mergedEntries (plan.files.map contents))) outputs next blocks)
    (hfresh : ∀ level, ∀ file ∈ version.levels level, file.number < start) :
    ∃ version', version.apply (plan.edit (outputs.map (·.file)) next) = .ok version' := by
  have hadded {a : ℕ × FileMeta} := @mem_edit_addedFiles plan outputs next a
  have hdeleted : ∀ d ∈ (plan.edit (outputs.map (·.file)) next).deletedFiles,
      ∃ i : Fin numLevels, i.val = d.1 ∧ ∃ file ∈ version.levels i, file.number = d.2 := by
    intro d hd
    rcases List.mem_append.mp hd with hd | hd
    · obtain ⟨file, hfile, rfl⟩ := List.mem_map.mp hd
      exact ⟨_, rfl, file, h.inputs file hfile, rfl⟩
    · obtain ⟨file, hfile, rfl⟩ := List.mem_map.mp hd
      exact ⟨_, rfl, file, h.overlaps file hfile, rfl⟩
  refine Version.exists_apply hdeleted ?_ ?_ ?_ ?_ ?_ ?_
  · rw [edit_deletedNumbers, List.Nodup, List.pairwise_map]
    exact h.files_pairwise
  · intro a ha
    obtain ⟨table, -, rfl⟩ := hadded.mp ha
    exact plan.outputLevel.isLt
  · intro a ha level file hfile
    obtain ⟨table, htable, rfl⟩ := hadded.mp ha
    exact ((hfresh level file hfile).trans_le (houtput.number_mem htable).1).ne
  · rw [edit_addedNumbers]
    exact houtput.numbers_nodup
  · have hpairs := houtput.pairwise (retainedGroups_pairwise context plan.outputLevel _)
    intro a ha b hb _ _ hne
    obtain ⟨table, htable, rfl⟩ := hadded.mp ha
    obtain ⟨other, hother, rfl⟩ := hadded.mp hb
    exact NonOverlapping.apart hpairs (List.mem_map_of_mem htable) (List.mem_map_of_mem hother) hne
  · intro i _ file hfile hstays a ha hlevel
    obtain ⟨table, htable, rfl⟩ := hadded.mp ha
    obtain rfl : plan.outputLevel = i := Fin.ext hlevel
    -- The output lies in the range of the plan, and the table does not meet that range.
    rw [h.mem_edit_deletedFiles hfile] at hstays
    obtain ⟨range, hrange⟩ : ∃ range, IsRange plan.files range := by
      obtain ⟨entry, hentry, -⟩ := (houtput.described table htable).exists_first
      obtain ⟨original, hmem, -, -⟩ := houtput.exists_original htable hentry
      obtain ⟨l, hl, -⟩ := mem_mergedEntries.mp hmem
      obtain ⟨input, hinput, -⟩ := List.mem_map.mp hl
      obtain ⟨range, hrange⟩ := exists_userRange (List.ne_nil_of_mem hinput)
      exact ⟨range, isRange_of_userRange hrange⟩
    obtain ⟨hleft, hright⟩ := h.encloses hlayered houtput hrange htable
    have hapart := h.outside range hrange file hfile
      fun hmem ↦ hstays (List.mem_append_right _ hmem)
    by_contra hnot
    obtain ⟨hnot, hnot'⟩ := not_or.mp hnot
    refine absurd (rangesOverlap_iff.mpr ⟨?_, ?_⟩) (by rw [hapart]; exact Bool.false_ne_true)
    · exact (not_lt.mp hnot').trans hright
    · exact hleft.trans (not_lt.mp hnot)

theorem mem_apply (h : Replaceable version plan)
    (happly : version.apply (plan.edit (outputs.map (·.file)) next) = .ok version')
    (level : Fin numLevels) (file : FileMeta) : file ∈ version'.levels level ↔
      file ∈ version.levels level ∧ file ∉ plan.files ∨
        level = plan.outputLevel ∧ file ∈ outputs.map (·.file) := by
  rw [Version.mem_apply happly]
  refine or_congr (and_congr_right fun hfile ↦ not_congr (h.mem_edit_deletedFiles hfile _ _)) ?_
  rw [CompactionPlan.edit, List.mem_map]
  constructor
  · rintro ⟨added, hadded, heq⟩
    obtain ⟨hlevel, rfl⟩ := Prod.mk.inj heq
    exact ⟨Fin.ext hlevel.symm, hadded⟩
  · rintro ⟨rfl, hadded⟩
    exact ⟨file, hadded, rfl⟩

/-- **Executing a plan.** A run of a replaceable plan can be published, and is then a compaction. -/
theorem exists_compacts (h : Replaceable version plan) (hlayered : Layered version contents)
    (hversion : context.version = version)
    (hopen : ∀ file ∈ plan.files, context.openTable file = .ok ((contents file).map .ok))
    (hfresh : ∀ level, ∀ file ∈ version.levels level, file.number < context.nextFileNumber)
    (hrun : compactionRun context plan = .ok (outputs, next)) :
    ∃ version', version.apply (plan.edit (outputs.map (·.file)) next) = .ok version' ∧
      ∃ blocks, ∀ contents' : FileMeta → List InternalEntry,
        (∀ level, ∀ file ∈ version.levels level, contents' file = contents file) →
          (∀ table ∈ outputs, contents' table.file = table.entries) →
            Compacts version version' contents contents' context plan
              (mergedEntries (plan.files.map contents)) outputs next blocks := by
  obtain ⟨blocks, houtput⟩ := compactionRun_eq_ok hopen (h.union hlayered) hrun
  obtain ⟨version', happly⟩ := h.exists_apply hlayered houtput hfresh
  refine ⟨version', happly, blocks, fun contents' hold hnew ↦ ?_⟩
  exact ⟨hlayered, h, h.union hlayered, houtput, hversion, h.mem_apply happly, hold, hnew⟩

end Replaceable

/-! ## Plans for the version they were made for -/

theorem Planned.replaceable (h : Planned version plan) : Replaceable version plan := by
  have hfilter : ∀ {level : Fin numLevels} {files : List FileMeta},
      (∃ p, files = (version.levels level).filter p) → files.Nodup := by
    rintro level _ ⟨p, rfl⟩
    refine List.Pairwise.filter p ?_
    exact (version.distinct.within level).imp fun hne heq ↦ hne (congrArg FileMeta.number heq)
  refine ⟨h.succ, fun file hfile ↦ h.closed.inputs_subset hfile,
    fun file hfile ↦ h.closed.overlaps_subset hfile, hfilter h.closed.inputs_filter,
    hfilter h.closed.overlaps_filter, ?_, ?_⟩
  · -- A plan for level zero takes all of it.
    intro hzero file hfile hnot
    rw [h.closed.inputs_zero hzero] at hnot
    exact absurd hfile hnot
  · intro range hrange file hfile hnot
    obtain ⟨range', _, hround⟩ := h.closed.fixed
    have hrange' := isRange_of_userRange hround.range_eq
    have hle := hrange.encloses_of_subset hrange' (List.Subset.refl _)
    by_contra hmeets
    rw [Bool.not_eq_false] at hmeets
    obtain ⟨hleft, hright⟩ := rangesOverlap_iff.mp hmeets
    refine hnot ?_
    rw [hround.overlaps_eq]
    refine List.mem_filter.mpr ⟨hfile, rangesOverlap_iff.mpr ⟨hleft.trans hle.2, ?_⟩⟩
    exact hle.1.trans hright

/-- **Compaction keeps every visible read.** The tables of a version are layered, and a plan is made
for it and run. The outputs can be published, and the new version is layered and answers every read
that is still allowed as before. -/
theorem makePlan_keeps_reads (version : Version) (contents : FileMeta → List InternalEntry)
    (hlayered : Layered version contents) (level : Fin (numLevels - 1)) (plan : CompactionPlan)
    (hplan : makePlan version level = some plan) (context : CompactionContext)
    (hversion : context.version = version)
    (hopen : ∀ file ∈ plan.files, context.openTable file = .ok ((contents file).map .ok))
    (hfresh : ∀ level, ∀ file ∈ version.levels level, file.number < context.nextFileNumber)
    (outputs : List CompactedTable) (next : U64)
    (hrun : compactionRun context plan = .ok (outputs, next))
    (contents' : FileMeta → List InternalEntry)
    (hold : ∀ level, ∀ file ∈ version.levels level, contents' file = contents file)
    (hnew : ∀ table ∈ outputs, contents' table.file = table.entries) :
    ∃ version', version.apply (plan.edit (outputs.map (·.file)) next) = .ok version' ∧
      Layered version' contents' ∧
      ∀ key sequence readTimeUnixMs,
        Readable (version.entries contents) context.oldestActiveSnapshot sequence →
          context.readTimeUnixMs ≤ readTimeUnixMs →
            version'.lookup contents' key sequence readTimeUnixMs
              = version.lookup contents key sequence readTimeUnixMs := by
  have hreplaceable := (planned_of_makePlan hplan).replaceable
  obtain ⟨version', happly, blocks, hcompacts⟩ :=
    hreplaceable.exists_compacts hlayered hversion hopen hfresh hrun
  have h := hcompacts contents' hold hnew
  exact ⟨version', happly, h.layered', fun _ _ _ hreadable htime ↦ h.lookup_eq hreadable htime⟩

/-- A version of a key, written into a table. -/
private def putAt (sequence : SequenceNumber) (h : sequence.val < maxU64) (value : Bytes)
    (expires : Option U64) : InternalEntry :=
  ⟨⟨[7], sequence, .value, h⟩, .value value expires, rfl⟩

private theorem newerSequence_lt : (2 : SequenceNumber).val < maxU64 := by decide

private theorem olderSequence_lt : (1 : SequenceNumber).val < maxU64 := by decide

private def newerPut : InternalEntry := putAt 2 newerSequence_lt [20] (some 9)
private def olderPut : InternalEntry := putAt 1 olderSequence_lt [10] none

private theorem mergeSize_ne : (1 : U64) ≠ 0 := by decide

/-- A table of one version. -/
private def tableOf (number : U64) (h : number ≠ 0) (put : InternalEntry) : FileMeta :=
  ⟨number, 1, put.key, put.key, h, mergeSize_ne, le_refl _⟩

private theorem newerNumber_ne : (4 : U64) ≠ 0 := by decide

private theorem olderNumber_ne : (3 : U64) ≠ 0 := by decide

private def newerFile : FileMeta := tableOf 4 newerNumber_ne newerPut

private def olderFile : FileMeta := tableOf 3 olderNumber_ne olderPut

/-- Two tables of level zero with one version each. -/
private def twoVersions : Version where
  levels level := if level = 0 then [newerFile, olderFile] else []
  distinct := by constructor <;> decide
  newest_first := by decide
  disjoint := by
    intro level hlevel
    rw [if_neg hlevel]
    exact .nil

private def twoContents (file : FileMeta) : List InternalEntry :=
  if file.number = 3 then [olderPut] else [newerPut]

private def mergeContext : CompactionContext where
  targetSstableBytes := 100
  version := twoVersions
  oldestActiveSnapshot := none
  readTimeUnixMs := 5
  nextFileNumber := 5
  openTable file := .ok ((twoContents file).map .ok)
  finishTable _ _ := .ok 1

private def mergePlan : CompactionPlan := ⟨0, 1, [newerFile, olderFile], []⟩

private theorem mergedNumber_ne : (5 : U64) ≠ 0 := by decide

private def mergedFile : FileMeta := tableOf 5 mergedNumber_ne newerPut

private theorem twoVersions_mem {level : Fin numLevels} {file : FileMeta}
    (h : file ∈ twoVersions.levels level) :
    level = 0 ∧ (file = newerFile ∨ file = olderFile) := by
  by_cases hlevel : level = 0
  · subst hlevel
    exact ⟨rfl, by simpa [twoVersions] using h⟩
  · simp [twoVersions, hlevel] at h

private theorem twoVersions_layered : Layered twoVersions twoContents where
  strict level file hfile := by
    obtain ⟨-, rfl | rfl⟩ := twoVersions_mem hfile <;>
      exact ⟨List.pairwise_singleton _ _, List.pairwise_singleton _ _⟩
  covers level file hfile entry hentry := by
    obtain ⟨-, rfl | rfl⟩ := twoVersions_mem hfile <;>
      · obtain rfl := List.mem_singleton.mp hentry
        decide
  zero file hfile other hother hlt a ha b hb := by
    obtain ⟨-, rfl | rfl⟩ := twoVersions_mem hfile <;>
      obtain ⟨-, rfl | rfl⟩ := twoVersions_mem hother
    · exact absurd hlt (lt_irrefl _)
    · obtain rfl := List.mem_singleton.mp ha
      obtain rfl := List.mem_singleton.mp hb
      exact fun _ ↦ by decide
    · exact absurd hlt (by decide)
    · exact absurd hlt (lt_irrefl _)
  across i j hij file hfile other hother := by
    rw [(twoVersions_mem hfile).1, (twoVersions_mem hother).1] at hij
    exact absurd hij (lt_irrefl _)

/-- The newer of two versions survives a compaction without snapshots. -/
theorem makePlan_keeps_reads_twoVersions :
    ∃ version', twoVersions.apply (mergePlan.edit [mergedFile] 6) = .ok version' ∧
      version'.lookup twoContents [7] 2 8 = some [20] := by
  have hplan : makePlan twoVersions ⟨0, by decide⟩ = some mergePlan := by decide +kernel
  have hrun : compactionRun mergeContext mergePlan = .ok ([⟨mergedFile, [newerPut]⟩], 6) := by
    decide +kernel
  have hfresh : ∀ level, ∀ file ∈ twoVersions.levels level,
      file.number < mergeContext.nextFileNumber := by
    intro level file hfile
    obtain ⟨-, rfl | rfl⟩ := twoVersions_mem hfile <;> decide
  have hreadable : Readable (twoVersions.entries twoContents) none 2 := by
    refine ⟨nofun, fun _ entry hentry ↦ ?_⟩
    obtain ⟨level, file, hfile, hentry⟩ := hentry
    obtain ⟨-, rfl | rfl⟩ := twoVersions_mem hfile <;>
      · obtain rfl := List.mem_singleton.mp hentry
        decide
  have hnew : ∀ table ∈ [(⟨mergedFile, [newerPut]⟩ : CompactedTable)],
      twoContents table.file = table.entries := by
    intro table htable
    obtain rfl := List.mem_singleton.mp htable
    rfl
  obtain ⟨version', happly, -, hlookup⟩ := makePlan_keeps_reads twoVersions twoContents
    twoVersions_layered _ mergePlan hplan mergeContext rfl (fun _ _ ↦ rfl) hfresh _ 6 hrun
    twoContents (fun _ _ _ ↦ rfl) hnew
  refine ⟨version', happly, ?_⟩
  rw [hlookup [7] 2 8 hreadable (by decide)]
  decide +kernel

end MeteorDB
