import MeteorDB.Compaction

/-!
# What a compaction writes

`CompactionRun.groups` goes through the merged entries of a plan, one user key at a time, and adds
the versions that are kept to the current output. So the outputs, put together, hold the retained
versions of every user key in key order, and an output ends only between two user keys
(`compactionRun_eq_ok`).
-/

namespace MeteorDB

open OrderedList MergeIter Decoder

/-! ## One user key at a time -/

/-- The retained versions of one user key of a run. -/
def retainedOf (context : CompactionContext) (outputLevel : Fin numLevels)
    (entries : List InternalEntry) (userKey : Bytes) : List InternalEntry :=
  retainVersions (versionsOf userKey entries) context.oldestActiveSnapshot
    (keyMayExistBelow context.version outputLevel userKey) context.readTimeUnixMs

/-- The retained versions of every user key that has any, in key order. -/
def retainedGroups (context : CompactionContext) (outputLevel : Fin numLevels)
    (entries : List InternalEntry) : List (List InternalEntry) :=
  ((userKeys entries).map (retainedOf context outputLevel entries)).filter (· ≠ [])

variable {context : CompactionContext} {outputLevel : Fin numLevels} {userKey : Bytes}
  {group rest : List InternalEntry}

private theorem Group.versionsOf_append (h : Group userKey group rest) :
    versionsOf userKey (group ++ rest) = group := by
  rw [versionsOf, List.filter_append, List.filter_eq_self.mpr, List.filter_eq_nil_iff.mpr,
    List.append_nil]
  · intro entry hentry
    simp [(h.lt entry hentry).ne']
  · intro entry hentry
    simp [h.eq entry hentry]

private theorem Group.versionsOf_rest (h : Group userKey group rest) {other : Bytes}
    (hother : other ∈ userKeys rest) :
    versionsOf other (group ++ rest) = versionsOf other rest := by
  obtain ⟨entry, hentry, rfl⟩ :=
    List.mem_map.mp (List.mem_toFinset.mp ((Finset.mem_sort _).mp hother))
  rw [versionsOf, List.filter_append, List.filter_eq_nil_iff.mpr, List.nil_append]
  · rfl
  · intro first hfirst
    simp [h.eq first hfirst, (h.lt entry hentry).ne]

private theorem Group.retainedGroups_append (h : Group userKey group rest) :
    retainedGroups context outputLevel (group ++ rest)
      = [retainedOf context outputLevel group userKey].filter (· ≠ [])
        ++ retainedGroups context outputLevel rest := by
  have hfirst : retainedOf context outputLevel (group ++ rest) userKey
      = retainedOf context outputLevel group userKey := by
    have hgroup : versionsOf userKey group = group := by
      rw [versionsOf, List.filter_eq_self]
      intro entry hentry
      simp [h.eq entry hentry]
    rw [retainedOf, h.versionsOf_append, retainedOf, hgroup]
  have hlater : (userKeys rest).map (retainedOf context outputLevel (group ++ rest))
      = (userKeys rest).map (retainedOf context outputLevel rest) := by
    refine List.map_congr_left fun other hother ↦ ?_
    rw [retainedOf, h.versionsOf_rest hother, retainedOf]
  rw [retainedGroups, h.userKeys_append, List.map_cons, hfirst, hlater, ← List.singleton_append,
    List.filter_append]
  rfl

private theorem takeWhile_isVersionOf (hgroup : ∀ entry ∈ group, entry.key.userKey = userKey)
    (hrest : ∀ entry ∈ rest, userKey < entry.key.userKey) :
    ((group ++ rest).map (.ok : InternalEntry → Result InternalEntry)).takeWhile
        (isVersionOf userKey) = group.map .ok ∧
      ((group ++ rest).map (.ok : InternalEntry → Result InternalEntry)).dropWhile
        (isVersionOf userKey) = rest.map .ok := by
  induction group with
  | nil =>
    cases rest with
    | nil => exact ⟨rfl, rfl⟩
    | cons entry rest =>
      have hne : isVersionOf userKey (.ok entry) = false := by
        simp [isVersionOf, (hrest entry (List.mem_cons_self ..)).ne']
      rw [List.nil_append, List.map_cons, List.takeWhile_cons, List.dropWhile_cons, hne]
      exact ⟨rfl, rfl⟩
  | cons entry group ih =>
    obtain ⟨hentry, hgroup⟩ := List.forall_mem_cons.mp hgroup
    have heq : isVersionOf userKey (.ok entry) = true := by simp [isVersionOf, hentry]
    rw [List.cons_append, List.map_cons, List.takeWhile_cons, List.dropWhile_cons, heq]
    exact ⟨by rw [if_pos rfl, (ih hgroup).1]; rfl, by rw [if_pos rfl, (ih hgroup).2]⟩

private theorem entriesOf_map_ok (entries : List InternalEntry) :
    entriesOf (entries.map .ok) = entries := by
  rw [entriesOf, List.filterMap_map]
  exact List.filterMap_some

/-- Going through a run adds the retained versions of its user keys one after the other. -/
theorem groups_eq_foldlM {entries : List InternalEntry} (hrun : Run entries) (run : CompactionRun) :
    CompactionRun.groups context outputLevel (entries.map .ok) run
      = (retainedGroups context outputLevel entries).foldlM
          (fun run retained ↦ run.addGroup context retained) run := by
  induction hlength : entries.length using Nat.strong_induction_on generalizing entries run with
  | _ n ih =>
  cases entries with
  | nil =>
    rw [List.map_nil, CompactionRun.groups]
    simp [retainedGroups, userKeys]
  | cons first entries =>
    obtain ⟨group, rest, rfl, hgroup⟩ := exists_group hrun
    have hsame : ∀ entry ∈ group, entry.key.userKey = first.key.userKey :=
      fun entry hentry ↦ hgroup.eq entry (List.mem_cons_of_mem first hentry)
    obtain ⟨htake, hdrop⟩ := takeWhile_isVersionOf hsame hgroup.lt
    have hversions : versionsOf first.key.userKey (first :: group) = first :: group :=
      List.filter_eq_self.mpr fun entry hentry ↦ by simp [hgroup.eq entry hentry]
    have hrest : Run rest := hrun.sublist ((List.sublist_append_right group rest).cons first)
    have hlt : rest.length < n := by
      rw [← hlength, List.length_cons, List.length_append]
      omega
    rw [List.map_cons, CompactionRun.groups, htake, hdrop, entriesOf_map_ok, ← List.cons_append,
      hgroup.retainedGroups_append, List.foldlM_append, retainedOf, hversions]
    by_cases hnil : retainVersions (first :: group) context.oldestActiveSnapshot
        (keyMayExistBelow context.version outputLevel first.key.userKey)
        context.readTimeUnixMs = []
    · rw [if_pos hnil, hnil]
      exact ih rest.length hlt hrest run rfl
    · rw [if_neg hnil, List.filter_cons_of_pos (by simpa using hnil), List.filter_nil,
        List.foldlM_cons]
      simp only [List.foldlM_nil, bind_pure]
      exact bind_congr fun run ↦ ih rest.length hlt hrest run rfl

/-! ## Outputs -/

/-- A table's metadata names its first and its last key. -/
structure CompactedTable.Described (table : CompactedTable) : Prop where
  smallest : table.entries.head?.map InternalEntry.key = some table.file.smallest
  largest : table.entries.getLast?.map InternalEntry.key = some table.file.largest

private theorem finishOutput_eq_ok {builder : OutputBuilder} {table : CompactedTable}
    (h : finishOutput context builder = .ok table) :
    table.entries = builder.entries ∧ table.file.number = builder.number ∧ table.Described := by
  unfold finishOutput at h
  obtain ⟨fileSize, -, h⟩ := bind_eq_ok.mp h
  split at h
  next first last hfirst hlast =>
    obtain ⟨file, hfile, h⟩ := bind_eq_ok.mp h
    obtain rfl := Except.ok.inj h
    obtain ⟨hnumber, -, hsmallest, hlargest⟩ := FileMeta.eq_of_new hfile
    exact ⟨rfl, hnumber, by rw [hfirst, hsmallest]; rfl, by rw [hlast, hlargest]; rfl⟩
  next => cases h

theorem checkedNextFileNumber_eq_ok {number next : U64} :
    checkedNextFileNumber number = .ok next ↔ next.val = number.val + 1 := by
  unfold checkedNextFileNumber
  split_ifs with hlt
  · have hval : (number + 1).val = number.val + 1 := by
      rw [Fin.val_add_one_of_lt']
      exact hlt
    constructor
    · intro h
      rw [← Except.ok.inj h, hval]
    · intro h
      rw [Fin.ext (h.trans hval.symm)]
  · refine ⟨nofun, fun h ↦ absurd next.isLt ?_⟩
    omega

/-- What a run has written: finished outputs, each made of some groups, and the groups that are in
the current output. -/
structure Writes (start : U64) (groups : List (List InternalEntry)) (run : CompactionRun)
    (blocks : List (List (List InternalEntry))) (current : List (List InternalEntry)) : Prop where
  groups_eq : groups = blocks.flatten ++ current
  blocks_ne : ∀ block ∈ blocks, block ≠ []
  entries : run.outputs.map (·.entries) = blocks.map List.flatten
  numbers : run.outputs.map (·.file.number.val) = List.range' start.val blocks.length
  described : ∀ table ∈ run.outputs, table.Described
  idle : run.builder = none → current = [] ∧ run.nextFileNumber.val = start.val + blocks.length
  building : ∀ builder, run.builder = some builder → current ≠ [] ∧
    builder.entries = current.flatten ∧ builder.number.val = start.val + blocks.length ∧
      run.nextFileNumber.val = start.val + blocks.length + 1

variable {start : U64} {groups : List (List InternalEntry)} {run run' : CompactionRun}
  {blocks : List (List (List InternalEntry))} {current : List (List InternalEntry)}

/-- Finishing the current output makes a block of its groups. -/
theorem Writes.finish (h : Writes start groups run blocks current) {builder : OutputBuilder}
    (hbuilder : run.builder = some builder) {table : CompactedTable}
    (hfinish : finishOutput context builder = .ok table) :
    Writes start groups { run with outputs := run.outputs ++ [table], builder := none }
      (blocks ++ [current]) [] := by
  obtain ⟨hcurrent, hentries, hnumber, hnext⟩ := h.building builder hbuilder
  obtain ⟨htable, hfile, hdescribed⟩ := finishOutput_eq_ok hfinish
  constructor
  · rw [h.groups_eq]
    simp
  · exact List.forall_mem_append.mpr ⟨h.blocks_ne, List.forall_mem_singleton.mpr hcurrent⟩
  · rw [List.map_append, h.entries, List.map_append, List.map_singleton, List.map_singleton, htable,
      hentries]
  · rw [List.map_append, h.numbers, List.map_singleton, hfile, hnumber, List.length_append,
      List.length_singleton, List.range'_concat, one_mul]
  · exact List.forall_mem_append.mpr ⟨h.described, List.forall_mem_singleton.mpr hdescribed⟩
  · intro _
    rw [List.length_append, List.length_singleton, ← add_assoc]
    exact ⟨rfl, hnext⟩
  · exact nofun

theorem Writes.makeRoom (h : Writes start groups run blocks current) {bytes : ℕ}
    (hroom : run.makeRoom context bytes = .ok run') :
    ∃ blocks' current', Writes start groups run' blocks' current' := by
  unfold CompactionRun.makeRoom at hroom
  split at hroom
  next builder hbuilder =>
    split_ifs at hroom
    · obtain ⟨table, hfinish, hroom⟩ := bind_eq_ok.mp hroom
      obtain rfl := Except.ok.inj hroom
      exact ⟨_, _, h.finish hbuilder hfinish⟩
    · obtain rfl := Except.ok.inj hroom
      exact ⟨blocks, current, h⟩
  next =>
    obtain rfl := Except.ok.inj hroom
    exact ⟨blocks, current, h⟩

/-- Adding a group puts it into the current output or into a new one. -/
theorem Writes.addGroup (h : Writes start groups run blocks current)
    {retained : List InternalEntry} (hadd : run.addGroup context retained = .ok run') :
    ∃ blocks' current', Writes start (groups ++ [retained]) run' blocks' current' := by
  unfold CompactionRun.addGroup at hadd
  obtain ⟨bytes, -, hadd⟩ := bind_eq_ok.mp hadd
  obtain ⟨run₁, hroom, hadd⟩ := bind_eq_ok.mp hadd
  obtain ⟨blocks₁, current₁, h₁⟩ := h.makeRoom hroom
  have hgroups : groups ++ [retained] = blocks₁.flatten ++ (current₁ ++ [retained]) := by
    rw [h₁.groups_eq, List.append_assoc]
  split at hadd
  next builder hbuilder =>
    obtain rfl := Except.ok.inj hadd
    obtain ⟨-, hentries, hnumber, hnext⟩ := h₁.building builder hbuilder
    refine ⟨blocks₁, current₁ ++ [retained], hgroups, h₁.blocks_ne, h₁.entries, h₁.numbers,
      h₁.described, nofun, ?_⟩
    intro builder' hbuilder'
    obtain rfl := Option.some.inj hbuilder'
    exact ⟨by simp, by simp [hentries], hnumber, hnext⟩
  next hbuilder =>
    obtain ⟨hcurrent, hnext⟩ := h₁.idle hbuilder
    obtain ⟨next, hchecked, hadd⟩ := bind_eq_ok.mp hadd
    obtain rfl := Except.ok.inj hadd
    refine ⟨blocks₁, current₁ ++ [retained], hgroups, h₁.blocks_ne, h₁.entries, h₁.numbers,
      h₁.described, nofun, ?_⟩
    intro builder' hbuilder'
    obtain rfl := Option.some.inj hbuilder'
    rw [checkedNextFileNumber_eq_ok, hnext] at hchecked
    exact ⟨by simp, by simp [hcurrent], hnext, hchecked⟩

theorem Writes.foldlM (h : Writes start groups run blocks current)
    {more : List (List InternalEntry)}
    (hfold : more.foldlM (fun run retained ↦ run.addGroup context retained) run = .ok run') :
    ∃ blocks' current', Writes start (groups ++ more) run' blocks' current' := by
  induction more generalizing groups run blocks current with
  | nil =>
    obtain rfl := Except.ok.inj hfold
    rw [List.append_nil]
    exact ⟨blocks, current, h⟩
  | cons retained more ih =>
    rw [List.foldlM_cons] at hfold
    obtain ⟨run₁, hadd, hfold⟩ := bind_eq_ok.mp hfold
    obtain ⟨blocks₁, current₁, h₁⟩ := h.addGroup hadd
    rw [← List.singleton_append, ← List.append_assoc]
    exact ih h₁ hfold

/-- What a compaction that succeeds returns: outputs with consecutive numbers, each made of the
retained versions of some user keys. -/
structure CompactionOutput (start : U64) (groups : List (List InternalEntry))
    (outputs : List CompactedTable) (next : U64) (blocks : List (List (List InternalEntry))) :
    Prop where
  groups_eq : groups = blocks.flatten
  blocks_ne : ∀ block ∈ blocks, block ≠ []
  entries : outputs.map (·.entries) = blocks.map List.flatten
  numbers : outputs.map (·.file.number.val) = List.range' start.val blocks.length
  described : ∀ table ∈ outputs, table.Described
  next_eq : next.val = start.val + blocks.length

theorem Writes.output (h : Writes start groups run blocks []) (hbuilder : run.builder = none) :
    CompactionOutput start groups run.outputs run.nextFileNumber blocks :=
  ⟨by rw [h.groups_eq, List.append_nil], h.blocks_ne, h.entries, h.numbers, h.described,
    (h.idle hbuilder).2⟩

/-- When all tables of a plan can be read, a compaction adds the retained versions of the merged
entries and finishes the output that is left over. -/
theorem compactionRun_eq {plan : CompactionPlan} {tables : FileMeta → List InternalEntry}
    {merged : List InternalEntry}
    (hopen : ∀ file ∈ plan.files, context.openTable file = .ok ((tables file).map .ok))
    (hunion : Union InternalEntry.key merged (plan.files.map tables)) :
    compactionRun context plan = (do
      let run ← (retainedGroups context plan.outputLevel merged).foldlM
        (fun run retained ↦ CompactionRun.addGroup context retained run)
        ⟨context.nextFileNumber, [], none⟩
      match run.builder with
      | some builder =>
        let output ← finishOutput context builder
        return (run.outputs ++ [output], run.nextFileNumber)
      | none => return (run.outputs, run.nextFileNumber)) := by
  have hmap : plan.files.mapM context.openTable
      = .ok (plan.files.map fun file ↦ (tables file).map .ok) := mapM_eq_ok_of_forall hopen
  -- No child fails, so the merger yields the union of the tables.
  have hfollows : List.Forall₂ Follows
      (plan.files.map fun file ↦ (tables file).map (.ok : InternalEntry → Result InternalEntry))
      (plan.files.map tables) := by
    rw [List.forall₂_map_left_iff, List.forall₂_map_right_iff]
    exact List.forall₂_same.mpr fun file _ ↦ .inl rfl
  obtain ⟨n, tail, hstreams, htail⟩ := streams_new hfollows hunion
  obtain ⟨rfl, rfl⟩ : tail = [] ∧ n = merged.length := by
    refine htail.resolve_right ?_
    rintro ⟨e, -, child, hchild, herror⟩
    obtain ⟨file, -, rfl⟩ := List.mem_map.mp hchild
    simp at herror
  rw [List.take_length, List.append_nil] at hstreams
  have hgroups : CompactionRun.groups context plan.outputLevel
      ((Merger.new InternalEntry.key
        (plan.files.map fun file ↦ (tables file).map .ok)).drain InternalEntry.key)
      ⟨context.nextFileNumber, [], none⟩ = _ :=
    (congrArg (CompactionRun.groups context plan.outputLevel · _) hstreams.drain_eq).trans
      (groups_eq_foldlM hunion.merged_increasing _)
  rw [compactionRun, hmap]
  exact congrArg₂ (· >>= ·) hgroups rfl

/-- **The outputs of a compaction.** -/
theorem compactionRun_eq_ok {plan : CompactionPlan} {tables : FileMeta → List InternalEntry}
    {merged : List InternalEntry} {outputs : List CompactedTable} {next : U64}
    (hopen : ∀ file ∈ plan.files, context.openTable file = .ok ((tables file).map .ok))
    (hunion : Union InternalEntry.key merged (plan.files.map tables))
    (h : compactionRun context plan = .ok (outputs, next)) :
    ∃ blocks, CompactionOutput context.nextFileNumber
      (retainedGroups context plan.outputLevel merged) outputs next blocks := by
  rw [compactionRun_eq hopen hunion] at h
  obtain ⟨run, hgroups, hlast⟩ := bind_eq_ok.mp h
  have hstart : Writes context.nextFileNumber [] ⟨context.nextFileNumber, [], none⟩ [] [] :=
    ⟨rfl, nofun, rfl, rfl, nofun, fun _ ↦ ⟨rfl, rfl⟩, nofun⟩
  obtain ⟨blocks, current, hwrites⟩ := hstart.foldlM hgroups
  rw [List.nil_append] at hwrites
  split at hlast
  next builder hbuilder =>
    obtain ⟨table, hfinish, hlast⟩ := bind_eq_ok.mp hlast
    obtain ⟨rfl, rfl⟩ := Prod.mk.inj (Except.ok.inj hlast)
    exact ⟨_, (hwrites.finish hbuilder hfinish).output rfl⟩
  next hbuilder =>
    obtain ⟨rfl, rfl⟩ := Prod.mk.inj (Except.ok.inj hlast)
    obtain rfl := (hwrites.idle hbuilder).1
    exact ⟨blocks, hwrites.output hbuilder⟩

/-! ## Where outputs end -/

/-- The bytes of a group of entries. -/
def groupSize (entries : List InternalEntry) : ℕ :=
  (entries.map fun entry ↦
    entry.key.asBytes.length + entry.record.encodeEngineValue.length).sum

/-- The entries of the outputs that take up the groups, after an output with some entries and an
estimated size. An output ends before the group that would make it larger than the target. -/
def splitOutputs (targetSstableBytes : ℕ) :
    List (List InternalEntry) → Option (List InternalEntry × ℕ) → List (List InternalEntry)
  | [], none => []
  | [], some (entries, _) => [entries]
  | group :: groups, none =>
    splitOutputs targetSstableBytes groups
      (some (group, MemTable.saturatingAdd 0 (groupSize group)))
  | group :: groups, some (entries, bytes) =>
    if bytes ≠ 0 ∧ targetSstableBytes < MemTable.saturatingAdd bytes (groupSize group) then
      entries :: splitOutputs targetSstableBytes groups
        (some (group, MemTable.saturatingAdd 0 (groupSize group)))
    else
      splitOutputs targetSstableBytes groups
        (some (entries ++ group, MemTable.saturatingAdd bytes (groupSize group)))

private theorem groupBytes_eq_ok {entries : List InternalEntry} {bytes : ℕ}
    (h : groupBytes entries = .ok bytes) : bytes = groupSize entries := by
  unfold groupBytes at h
  rw [← zero_add (groupSize entries)]
  generalize 0 = start at h ⊢
  induction entries generalizing start with
  | nil => exact (Except.ok.inj h).symm
  | cons entry entries ih =>
    rw [List.foldlM_cons] at h
    obtain ⟨sum, hsum, h⟩ := bind_eq_ok.mp h
    have hsum : sum = start + (entry.key.asBytes.length
        + entry.record.encodeEngineValue.length) := by
      split at hsum
      next total htotal =>
        obtain rfl := Except.ok.inj hsum
        obtain ⟨first, hfirst, hsecond⟩ := Option.bind_eq_some_iff.mp htotal
        unfold checkedAdd at hfirst hsecond
        split_ifs at hfirst hsecond
        rw [← Option.some.inj hsecond, ← Option.some.inj hfirst, add_assoc]
      next => cases hsum
    rw [ih sum h, hsum, groupSize, groupSize, List.map_cons, List.sum_cons, add_assoc]

/-- The entries and the estimated size of the current output. -/
def CompactionRun.pending (run : CompactionRun) : Option (List InternalEntry × ℕ) :=
  run.builder.map fun builder ↦ (builder.entries, builder.estimatedBytes)

/-- All entries of the outputs of a run once more groups have been added. -/
def CompactionRun.split (context : CompactionContext) (run : CompactionRun)
    (groups : List (List InternalEntry)) : List (List InternalEntry) :=
  run.outputs.map (·.entries) ++ splitOutputs context.targetSstableBytes groups run.pending

private theorem CompactionRun.split_addGroup {retained : List InternalEntry}
    (h : run.addGroup context retained = .ok run') (groups : List (List InternalEntry)) :
    run.split context (retained :: groups) = run'.split context groups := by
  unfold addGroup at h
  obtain ⟨bytes, hbytes, h⟩ := bind_eq_ok.mp h
  obtain rfl := groupBytes_eq_ok hbytes
  obtain ⟨run₁, hroom, h⟩ := bind_eq_ok.mp h
  unfold makeRoom at hroom
  unfold split pending
  cases hbuilder : run.builder with
  | none =>
    rw [hbuilder] at hroom
    obtain rfl := Except.ok.inj hroom
    rw [hbuilder] at h
    obtain ⟨next, -, h⟩ := bind_eq_ok.mp h
    obtain rfl := Except.ok.inj h
    rfl
  | some builder =>
    rw [hbuilder] at hroom
    dsimp only at hroom
    rw [Option.map_some, splitOutputs]
    split_ifs at hroom ⊢ with hfull
    · obtain ⟨table, hfinish, hroom⟩ := bind_eq_ok.mp hroom
      obtain rfl := Except.ok.inj hroom
      obtain ⟨next, -, h⟩ := bind_eq_ok.mp h
      obtain rfl := Except.ok.inj h
      rw [List.map_append, List.map_singleton, (finishOutput_eq_ok hfinish).1, List.append_assoc]
      rfl
    · obtain rfl := Except.ok.inj hroom
      rw [hbuilder] at h
      obtain rfl := Except.ok.inj h
      rfl

private theorem CompactionRun.split_foldlM {groups : List (List InternalEntry)}
    (h : groups.foldlM (fun run retained ↦ run.addGroup context retained) run = .ok run') :
    run.split context groups = run'.split context [] := by
  induction groups generalizing run with
  | nil => rw [Except.ok.inj h]
  | cons retained groups ih =>
    rw [List.foldlM_cons] at h
    obtain ⟨run₁, hadd, h⟩ := bind_eq_ok.mp h
    rw [split_addGroup hadd, ih h]

/-- The entries of the outputs follow from the merged entries and the target size. -/
theorem compactionRun_entries {plan : CompactionPlan} {tables : FileMeta → List InternalEntry}
    {merged : List InternalEntry} {outputs : List CompactedTable} {next : U64}
    (hopen : ∀ file ∈ plan.files, context.openTable file = .ok ((tables file).map .ok))
    (hunion : Union InternalEntry.key merged (plan.files.map tables))
    (h : compactionRun context plan = .ok (outputs, next)) :
    outputs.map (·.entries) = splitOutputs context.targetSstableBytes
      (retainedGroups context plan.outputLevel merged) none := by
  rw [compactionRun_eq hopen hunion] at h
  obtain ⟨run, hgroups, hlast⟩ := bind_eq_ok.mp h
  have hsplit := CompactionRun.split_foldlM hgroups
  rw [CompactionRun.split, List.map_nil, List.nil_append] at hsplit
  refine Eq.trans ?_ hsplit.symm
  unfold CompactionRun.split CompactionRun.pending
  split at hlast
  next builder hbuilder =>
    obtain ⟨table, hfinish, hlast⟩ := bind_eq_ok.mp hlast
    obtain ⟨rfl, rfl⟩ := Prod.mk.inj (Except.ok.inj hlast)
    rw [hbuilder, List.map_append, List.map_singleton, (finishOutput_eq_ok hfinish).1]
    rfl
  next hbuilder =>
    obtain ⟨rfl, rfl⟩ := Prod.mk.inj (Except.ok.inj hlast)
    rw [hbuilder]
    exact (List.append_nil _).symm

/-! ### Sizes of outputs -/

private theorem groupSize_append (entries more : List InternalEntry) :
    groupSize (entries ++ more) = groupSize entries + groupSize more := by
  rw [groupSize, groupSize, groupSize, List.map_append, List.sum_append]

private theorem groupSize_ne_zero {entries : List InternalEntry} (h : entries ≠ []) :
    groupSize entries ≠ 0 := by
  obtain ⟨entry, rest, rfl⟩ := List.exists_cons_of_ne_nil h
  have htrailer := InternalKey.length_trailer entry.key.sequence entry.key.kind
  rw [groupSize, List.map_cons, List.sum_cons, InternalKey.asBytes, List.length_append]
  omega

/-- The size of some entries, as far as a `usize` can express it. -/
def estimate (entries : List InternalEntry) : ℕ := min (groupSize entries) (usizeRange - 1)

private theorem estimate_append (entries more : List InternalEntry) :
    estimate (entries ++ more) = MemTable.saturatingAdd (estimate entries) (groupSize more) := by
  unfold estimate MemTable.saturatingAdd
  rw [groupSize_append]
  omega

private theorem estimate_eq_saturatingAdd (entries : List InternalEntry) :
    estimate entries = MemTable.saturatingAdd 0 (groupSize entries) := by
  rw [estimate, MemTable.saturatingAdd, zero_add]

/-- An output that takes up more than one group is not larger than the target. The size that the
current output was started with is its estimate. -/
theorem estimate_splitOutputs_le {target : ℕ} {groups all : List (List InternalEntry)}
    (hgroups : ∀ group ∈ groups, group ≠ [] ∧ group ∈ all)
    {pending : Option (List InternalEntry × ℕ)}
    (hpending : ∀ entries bytes, pending = some (entries, bytes) → entries ≠ [] ∧
      bytes = estimate entries ∧ (estimate entries ≤ target ∨ entries ∈ all)) :
    ∀ output ∈ splitOutputs target groups pending, estimate output ≤ target ∨ output ∈ all := by
  induction groups generalizing pending with
  | nil =>
    cases pending with
    | none => exact nofun
    | some current =>
      intro output houtput
      obtain rfl := List.mem_singleton.mp houtput
      exact (hpending _ _ rfl).2.2
  | cons group groups ih =>
    obtain ⟨⟨hne, hall⟩, hrest⟩ := List.forall_mem_cons.mp hgroups
    have hfresh : ∀ entries bytes, some (group, MemTable.saturatingAdd 0 (groupSize group))
        = some (entries, bytes) → entries ≠ [] ∧ bytes = estimate entries ∧
          (estimate entries ≤ target ∨ entries ∈ all) := by
      intro entries bytes heq
      obtain ⟨rfl, rfl⟩ := Prod.mk.inj (Option.some.inj heq)
      exact ⟨hne, (estimate_eq_saturatingAdd _).symm, .inr hall⟩
    cases pending with
    | none => exact ih hrest hfresh
    | some current =>
      obtain ⟨entries, bytes⟩ := current
      obtain ⟨hentries, rfl, hsize⟩ := hpending entries bytes rfl
      rw [splitOutputs]
      split_ifs with hfull
      · exact List.forall_mem_cons.mpr ⟨hsize, ih hrest hfresh⟩
      · refine ih hrest fun entries' bytes' heq ↦ ?_
        obtain ⟨rfl, rfl⟩ := Prod.mk.inj (Option.some.inj heq)
        refine ⟨List.append_ne_nil_of_left_ne_nil hentries _, (estimate_append _ _).symm, .inl ?_⟩
        have hne_zero : estimate entries ≠ 0 := by
          have hne_zero := groupSize_ne_zero hentries
          unfold estimate usizeRange
          omega
        rw [estimate_append]
        exact not_lt.mp fun hlt ↦ hfull ⟨hne_zero, hlt⟩

/-! ## File numbers -/

private theorem CompactionRun.nextFileNumber_makeRoom {context : CompactionContext} {bytes : ℕ}
    {run run' : CompactionRun} (h : run.makeRoom context bytes = .ok run') :
    run'.nextFileNumber = run.nextFileNumber := by
  unfold CompactionRun.makeRoom at h
  cases hbuilder : run.builder with
  | none =>
    rw [hbuilder] at h
    rw [← Except.ok.inj h]
  | some builder =>
    rw [hbuilder] at h
    dsimp only at h
    split_ifs at h
    · obtain ⟨output, -, h⟩ := Decoder.bind_eq_ok.mp h
      rw [← Except.ok.inj h]
    · rw [← Except.ok.inj h]

private theorem CompactionRun.nextFileNumber_le_addGroup {context : CompactionContext}
    {retained : List InternalEntry} {run run' : CompactionRun}
    (h : run.addGroup context retained = .ok run') : run.nextFileNumber ≤ run'.nextFileNumber := by
  unfold CompactionRun.addGroup at h
  obtain ⟨bytes, -, h⟩ := Decoder.bind_eq_ok.mp h
  obtain ⟨room, hroom, h⟩ := Decoder.bind_eq_ok.mp h
  rw [← nextFileNumber_makeRoom hroom]
  cases hbuilder : room.builder with
  | some builder =>
    rw [hbuilder] at h
    rw [← Except.ok.inj h]
  | none =>
    rw [hbuilder] at h
    obtain ⟨next, hnext, h⟩ := Decoder.bind_eq_ok.mp h
    rw [← Except.ok.inj h]
    exact Fin.le_def.mpr (by rw [checkedNextFileNumber_eq_ok.mp hnext]; omega)

private theorem CompactionRun.nextFileNumber_le_groups {context : CompactionContext}
    {outputLevel : Fin numLevels} (items : List (Result InternalEntry)) {run run' : CompactionRun}
    (h : CompactionRun.groups context outputLevel items run = .ok run') :
    run.nextFileNumber ≤ run'.nextFileNumber := by
  -- A round takes away all items of one user key.
  induction hlength : items.length using Nat.strong_induction_on generalizing items run with
  | _ n ih =>
  match items with
  | [] =>
    rw [CompactionRun.groups] at h
    rw [← Except.ok.inj h]
  | .error _ :: _ =>
    rw [CompactionRun.groups] at h
    cases h
  | .ok first :: items =>
    rw [CompactionRun.groups] at h
    have hshorter := List.length_dropWhile_le (isVersionOf first.key.userKey) items
    rw [List.length_cons] at hlength
    split_ifs at h
    · exact ih _ (by omega) _ h rfl
    · obtain ⟨middle, hmiddle, h⟩ := Decoder.bind_eq_ok.mp h
      exact (nextFileNumber_le_addGroup hmiddle).trans (ih _ (by omega) _ h rfl)

/-- A compaction only takes file numbers. -/
theorem nextFileNumber_le_compactionRun {context : CompactionContext} {plan : CompactionPlan}
    {outputs : List CompactedTable} {next : U64}
    (h : compactionRun context plan = .ok (outputs, next)) : context.nextFileNumber ≤ next := by
  unfold compactionRun at h
  obtain ⟨children, -, h⟩ := Decoder.bind_eq_ok.mp h
  obtain ⟨run, hgroups, h⟩ := Decoder.bind_eq_ok.mp h
  have hle := CompactionRun.nextFileNumber_le_groups _ hgroups
  cases hbuilder : run.builder with
  | some builder =>
    rw [hbuilder] at h
    obtain ⟨output, -, h⟩ := Decoder.bind_eq_ok.mp h
    rwa [← (Prod.mk.inj (Except.ok.inj h)).2]
  | none =>
    rw [hbuilder] at h
    rwa [← (Prod.mk.inj (Except.ok.inj h)).2]

end MeteorDB
