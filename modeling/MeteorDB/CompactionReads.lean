import MeteorDB.CompactionOutput
import MeteorDB.Lookup
import MeteorDB.PlanClosure

/-!
# Compaction keeps every visible read

A compaction drops versions of a user key that no reader can see any more: older ones below the
oldest snapshot, and a deletion with nothing below it. So a read at or above the oldest snapshot, at
or after the time of the compaction, finds the same version before and after, up to a value that
had expired by then (`retainVersions_find?`).

For a whole version this needs that the tables of the plan can be replaced by tables of the output
level without changing the read order. `Replaceable` says when: tables that stay and share a user
key with the plan are either asked earlier and newer, or lie below the output level.
-/

namespace MeteorDB

open OrderedList MergeIter

/-! ## Retained versions -/

private theorem expireEntry_userKey (readTimeUnixMs : U64) (entry : InternalEntry) :
    (expireEntry readTimeUnixMs entry).key.userKey = entry.key.userKey := by
  unfold expireEntry
  split
  · split_ifs <;> rfl
  · rfl

private theorem expireEntry_sequence (readTimeUnixMs : U64) (entry : InternalEntry) :
    (expireEntry readTimeUnixMs entry).key.sequence = entry.key.sequence := by
  unfold expireEntry
  split
  · split_ifs <;> rfl
  · rfl

/-- What has expired at the time of a compaction stays expired. -/
theorem expireEntry_intoValue {compactedAt readTimeUnixMs : U64} (h : compactedAt ≤ readTimeUnixMs)
    (entry : InternalEntry) :
    (expireEntry compactedAt entry).record.intoValue readTimeUnixMs
      = entry.record.intoValue readTimeUnixMs := by
  unfold expireEntry
  split
  next value expires hrecord =>
    split_ifs with hexpired
    · rw [hrecord, ValueRecord.intoValue, ValueRecord.intoValue, if_neg]
      simpa using hexpired.trans h
    · rfl
  next => rfl

/-- The versions of one user key, newest first. -/
def Descending (entries : List InternalEntry) : Prop :=
  entries.Pairwise fun a b ↦ b.key.sequence < a.key.sequence

/-- Without a snapshot only the newest version is kept. -/
theorem retainLoop_none (entries : List InternalEntry) :
    retainLoop none entries [] false = entries.take 1 := by
  have hskip : ∀ (later retained : List InternalEntry) (kept : Bool), retained ≠ [] →
      retainLoop none later retained kept = retained := by
    intro later
    induction later with
    | nil => exact fun _ _ _ ↦ rfl
    | cons entry later ih =>
      intro retained kept hne
      rw [retainLoop, if_neg hne]
      exact ih retained kept hne
  cases entries with
  | nil => rfl
  | cons entry entries =>
    rw [retainLoop, if_pos rfl, hskip _ _ _ (List.cons_ne_nil _ _)]
    rfl

/-- With a snapshot, all versions above it are kept, and the newest one at or below it. -/
theorem retainLoop_some {snapshot : SequenceNumber} {newer older : List InternalEntry}
    (hnewer : ∀ entry ∈ newer, snapshot < entry.key.sequence)
    (holder : ∀ entry ∈ older, entry.key.sequence ≤ snapshot) :
    retainLoop (some snapshot) (newer ++ older) [] false = newer ++ older.take 1 := by
  have hskip : ∀ (later retained : List InternalEntry), retained ≠ [] →
      (∀ entry ∈ later, entry.key.sequence ≤ snapshot) →
        retainLoop (some snapshot) later retained true = retained := by
    intro later
    induction later with
    | nil => exact fun _ _ _ ↦ rfl
    | cons entry later ih =>
      intro retained hne hlater
      obtain ⟨hentry, hlater⟩ := List.forall_mem_cons.mp hlater
      rw [retainLoop, if_neg hne]
      simp only [if_neg (not_lt.mpr hentry), if_true]
      exact ih retained hne hlater
  have hbase : ∀ (later retained : List InternalEntry), retained ≠ [] →
      (∀ entry ∈ later, entry.key.sequence ≤ snapshot) →
        retainLoop (some snapshot) later retained false = retained ++ later.take 1 := by
    intro later retained hne hlater
    cases later with
    | nil => simp [retainLoop]
    | cons entry later =>
      obtain ⟨hentry, hlater⟩ := List.forall_mem_cons.mp hlater
      rw [retainLoop, if_neg hne]
      simp only [if_neg (not_lt.mpr hentry), if_false, Bool.false_eq_true]
      rw [hskip later _ (by simp) hlater]
      simp
  have hkeep : ∀ (newer retained : List InternalEntry), retained ≠ [] →
      (∀ entry ∈ newer, snapshot < entry.key.sequence) →
        retainLoop (some snapshot) (newer ++ older) retained false
          = retained ++ (newer ++ older.take 1) := by
    intro newer
    induction newer with
    | nil =>
      intro retained hne _
      exact hbase older retained hne holder
    | cons entry newer ih =>
      intro retained hne hnewer
      obtain ⟨hentry, hnewer⟩ := List.forall_mem_cons.mp hnewer
      rw [List.cons_append, retainLoop, if_neg hne]
      simp only [if_pos hentry]
      rw [ih _ (by simp) hnewer]
      simp
  cases newer with
  | nil =>
    cases older with
    | nil => rfl
    | cons entry older =>
      obtain ⟨hentry, holder⟩ := List.forall_mem_cons.mp holder
      rw [List.nil_append, retainLoop, if_pos rfl]
      have hany : (false || (some snapshot).any (entry.key.sequence ≤ ·)) = true := by
        simpa using hentry
      rw [hany, hskip older _ (List.cons_ne_nil _ _) holder]
      rfl
  | cons entry newer =>
    obtain ⟨hentry, hnewer⟩ := List.forall_mem_cons.mp hnewer
    rw [List.cons_append, retainLoop, if_pos rfl]
    have hany : (false || (some snapshot).any (entry.key.sequence ≤ ·)) = false := by
      simpa using hentry
    rw [hany, hkeep newer _ (List.cons_ne_nil _ _) hnewer]
    rfl

/-- The sequences a reader may still use: not below the oldest snapshot, and without a snapshot not
below any version. -/
structure Readable (entries : Set InternalEntry) (oldestSnapshot : Option SequenceNumber)
    (sequence : SequenceNumber) : Prop where
  snapshot : ∀ snapshot ∈ oldestSnapshot, snapshot ≤ sequence
  all : oldestSnapshot = none → ∀ entry ∈ entries, entry.key.sequence ≤ sequence

theorem Readable.mono {entries entries' : Set InternalEntry}
    {oldestSnapshot : Option SequenceNumber}
    {sequence : SequenceNumber} (h : Readable entries oldestSnapshot sequence)
    (hsub : entries' ⊆ entries) : Readable entries' oldestSnapshot sequence :=
  ⟨h.snapshot, fun hnone entry hentry ↦ h.all hnone entry (hsub hentry)⟩

/-- The loop keeps the newest version a reader can see. -/
theorem retainLoop_find? {entries : List InternalEntry} (hdescending : Descending entries)
    {oldestSnapshot : Option SequenceNumber} {sequence : SequenceNumber}
    (hreadable : Readable {entry | entry ∈ entries} oldestSnapshot sequence) :
    (retainLoop oldestSnapshot entries [] false).find? (·.key.sequence ≤ sequence)
      = entries.find? (·.key.sequence ≤ sequence) := by
  have hhead : ∀ {later : List InternalEntry}, (∀ entry ∈ later, entry.key.sequence ≤ sequence) →
      (later.take 1).find? (·.key.sequence ≤ sequence)
        = later.find? (·.key.sequence ≤ sequence) := by
    intro later hlater
    cases later with
    | nil => rfl
    | cons entry later =>
      have hentry := hlater entry (List.mem_cons_self ..)
      rw [List.take_succ_cons, List.find?_cons_of_pos (by simpa using hentry),
        List.find?_cons_of_pos (by simpa using hentry)]
  cases oldestSnapshot with
  | none =>
    rw [retainLoop_none]
    exact hhead (hreadable.all rfl)
  | some snapshot =>
    have hle := hreadable.snapshot snapshot rfl
    -- Sequences descend, so the versions above the snapshot come first.
    obtain ⟨newer, older, rfl, hnewer, holder⟩ : ∃ newer older, entries = newer ++ older ∧
        (∀ entry ∈ newer, snapshot < entry.key.sequence) ∧
          ∀ entry ∈ older, entry.key.sequence ≤ snapshot := by
      clear hreadable
      induction entries with
      | nil => exact ⟨[], [], rfl, nofun, nofun⟩
      | cons entry entries ih =>
        obtain ⟨hfirst, hrest⟩ := List.pairwise_cons.mp hdescending
        rcases lt_or_ge snapshot entry.key.sequence with hlt | hge
        · obtain ⟨newer, older, rfl, hnewer, holder⟩ := ih hrest
          exact ⟨entry :: newer, older, rfl, List.forall_mem_cons.mpr ⟨hlt, hnewer⟩, holder⟩
        · refine ⟨[], entry :: entries, rfl, nofun, List.forall_mem_cons.mpr ⟨hge, ?_⟩⟩
          exact fun other hother ↦ (hfirst other hother).le.trans hge
    rw [retainLoop_some hnewer holder, List.find?_append, List.find?_append,
      hhead fun entry hentry ↦ (holder entry hentry).trans hle]

private theorem retainLoop_sublist (oldestSnapshot : Option SequenceNumber)
    (entries : List InternalEntry) :
    (retainLoop oldestSnapshot entries [] false).Sublist entries := by
  have hloop : ∀ (entries retained : List InternalEntry) (kept : Bool),
      ∃ more, more.Sublist entries ∧
        retainLoop oldestSnapshot entries retained kept = retained ++ more := by
    intro entries
    induction entries with
    | nil => exact fun retained _ ↦ ⟨[], .slnil, by simp [retainLoop]⟩
    | cons entry entries ih =>
      intro retained kept
      have hadd : ∀ kept, ∃ more, more.Sublist (entry :: entries) ∧
          retainLoop oldestSnapshot entries (retained ++ [entry]) kept = retained ++ more := by
        intro kept
        obtain ⟨more, hmore, heq⟩ := ih (retained ++ [entry]) kept
        exact ⟨entry :: more, hmore.cons_cons entry, by rw [heq]; simp⟩
      have hskip : ∀ kept, ∃ more, more.Sublist (entry :: entries) ∧
          retainLoop oldestSnapshot entries retained kept = retained ++ more := by
        intro kept
        obtain ⟨more, hmore, heq⟩ := ih retained kept
        exact ⟨more, hmore.cons entry, heq⟩
      rw [retainLoop.eq_def]
      simp only
      by_cases hnil : retained = []
      · rw [if_pos hnil]
        subst hnil
        exact hadd _
      · rw [if_neg hnil]
        split
        · split_ifs
          · exact hadd _
          · exact hskip _
          · exact hadd _
        · exact hskip _
  obtain ⟨more, hmore, heq⟩ := hloop entries [] false
  rw [heq]
  exact hmore

private theorem find?_map_expireEntry (compactedAt : U64) (sequence : SequenceNumber)
    (entries : List InternalEntry) :
    (entries.map (expireEntry compactedAt)).find? (·.key.sequence ≤ sequence)
      = (entries.find? (·.key.sequence ≤ sequence)).map (expireEntry compactedAt) := by
  rw [List.find?_map]
  congr 2
  funext entry
  simp [expireEntry_sequence]

/-- **Retained versions.** A reader finds the same version as before, with an expired value turned
into a deletion; or nothing, if it found a deleted or expired version and there is nothing below. -/
theorem retainVersions_find? {entries : List InternalEntry} (hdescending : Descending entries)
    {oldestSnapshot : Option SequenceNumber} {sequence : SequenceNumber}
    {compactedAt readTimeUnixMs : U64} (htime : compactedAt ≤ readTimeUnixMs)
    (hreadable : Readable {entry | entry ∈ entries} oldestSnapshot sequence) (below : Bool) :
    (retainVersions entries oldestSnapshot below compactedAt).find? (·.key.sequence ≤ sequence)
        = (entries.find? (·.key.sequence ≤ sequence)).map (expireEntry compactedAt) ∨
      retainVersions entries oldestSnapshot below compactedAt = [] ∧ below = false ∧
        ∀ entry ∈ entries.find? (·.key.sequence ≤ sequence),
          entry.record.intoValue readTimeUnixMs = none := by
  have hdescending' : Descending (entries.map (expireEntry compactedAt)) := by
    rw [Descending, List.pairwise_map]
    refine hdescending.imp fun hlt ↦ ?_
    rwa [expireEntry_sequence, expireEntry_sequence]
  have hreadable' : Readable {entry | entry ∈ entries.map (expireEntry compactedAt)} oldestSnapshot
      sequence := by
    refine ⟨hreadable.snapshot, fun hnone entry hentry ↦ ?_⟩
    obtain ⟨original, horiginal, rfl⟩ := List.mem_map.mp hentry
    rw [expireEntry_sequence]
    exact hreadable.all hnone original horiginal
  have hfind := retainLoop_find? hdescending' hreadable'
  rw [find?_map_expireEntry] at hfind
  unfold retainVersions
  simp only
  split_ifs with hclear
  · refine .inr ⟨rfl, ?_⟩
    -- The first retained version is the newest one; it is a deletion at or below the snapshot.
    obtain ⟨first, hfirst⟩ := Option.isSome_iff_exists.mp (Option.isSome_of_any hclear)
    have hdeleted := hclear
    rw [hfirst, Option.any_some] at hdeleted
    simp only [Bool.and_eq_true, decide_eq_true_eq, Bool.not_eq_true'] at hdeleted
    obtain ⟨⟨hkind, hbelow⟩, hsnapshot⟩ := hdeleted
    refine ⟨hbelow, fun entry hentry ↦ ?_⟩
    obtain ⟨retained, hretained⟩ : ∃ retained,
        retainLoop oldestSnapshot (entries.map (expireEntry compactedAt)) [] false
          = first :: retained := List.head?_eq_some_iff.mp hfirst
    have hmem : first ∈ entries.map (expireEntry compactedAt) :=
      (retainLoop_sublist oldestSnapshot _).subset (by rw [hretained]; exact List.mem_cons_self ..)
    have hle : first.key.sequence ≤ sequence := by
      cases hoption : oldestSnapshot with
      | none => exact hreadable'.all hoption first hmem
      | some snapshot =>
        rw [hoption] at hsnapshot
        exact (by simpa using hsnapshot : first.key.sequence ≤ snapshot).trans
          (hreadable.snapshot snapshot hoption)
    rw [hretained, List.find?_cons_of_pos (by simpa using hle), Option.mem_def.mp hentry] at hfind
    have heq : expireEntry compactedAt entry = first := (Option.some.inj hfind).symm
    rw [← expireEntry_intoValue htime, heq]
    have hrecord := first.kind_eq
    rw [hkind] at hrecord
    cases hvalue : first.record with
    | value bytes expires =>
      rw [hvalue] at hrecord
      cases hrecord
    | tombstone => rfl
  · exact .inl hfind

private theorem mem_retainVersions {entries : List InternalEntry}
    {oldestSnapshot : Option SequenceNumber}
    {below : Bool} {compactedAt : U64} {entry : InternalEntry}
    (h : entry ∈ retainVersions entries oldestSnapshot below compactedAt) :
    ∃ original ∈ entries, entry = expireEntry compactedAt original := by
  unfold retainVersions at h
  simp only at h
  split_ifs at h
  · cases h
  · obtain ⟨original, horiginal, heq⟩ :=
      List.mem_map.mp ((retainLoop_sublist oldestSnapshot _).subset h)
    exact ⟨original, horiginal, heq.symm⟩

/-! ## The outputs of a strict run -/

theorem StrictRun.sublist {entries entries' : List InternalEntry} (h : StrictRun entries)
    (hsub : entries'.Sublist entries) : StrictRun entries' :=
  ⟨h.run.sublist hsub, h.newer_first.sublist hsub⟩

private theorem InternalKey.lt_of_sequence_lt {a b : InternalKey} (huser : a.userKey = b.userKey)
    (h : b.sequence < a.sequence) : a < b :=
  InternalKey.lt_iff.mpr (.inr ⟨huser, .inl h⟩)

private theorem StrictRun.descending {entries : List InternalEntry} (h : StrictRun entries)
    (userKey : Bytes) : Descending (versionsOf userKey entries) := by
  have hpairs := h.newer_first.sublist (List.filter_sublist (p := fun entry ↦
    decide (entry.key.userKey = userKey)))
  refine hpairs.imp_of_mem fun {a b} ha hb hnewer ↦ hnewer ?_
  have ha' := (List.mem_filter.mp ha).2
  have hb' := (List.mem_filter.mp hb).2
  simp only [decide_eq_true_eq] at ha' hb'
  rw [ha', hb']

/-- Descending versions of one user key are a strict run. -/
theorem strictRun_of_descending {entries : List InternalEntry} {userKey : Bytes}
    (huser : ∀ entry ∈ entries, entry.key.userKey = userKey) (h : Descending entries) :
    StrictRun entries := by
  refine ⟨h.imp_of_mem fun {a b} ha hb hlt ↦ ?_,
    h.imp fun {a b} hlt (_ : a.key.userKey = b.key.userKey) ↦ hlt⟩
  exact InternalKey.lt_of_sequence_lt ((huser a ha).trans (huser b hb).symm) hlt

variable {context : CompactionContext} {outputLevel : Fin numLevels}

private theorem mem_retainedOf {entries : List InternalEntry} {userKey : Bytes}
    {entry : InternalEntry} (h : entry ∈ retainedOf context outputLevel entries userKey) :
    ∃ original ∈ entries, original.key.userKey = userKey ∧
      entry = expireEntry context.readTimeUnixMs original := by
  obtain ⟨original, horiginal, heq⟩ := mem_retainVersions h
  obtain ⟨hmem, huser⟩ := List.mem_filter.mp horiginal
  exact ⟨original, hmem, by simpa using huser, heq⟩

private theorem userKey_of_mem_retainedOf {entries : List InternalEntry} {userKey : Bytes}
    {entry : InternalEntry} (h : entry ∈ retainedOf context outputLevel entries userKey) :
    entry.key.userKey = userKey := by
  obtain ⟨original, -, huser, rfl⟩ := mem_retainedOf h
  rw [expireEntry_userKey, huser]

private theorem mem_userKeys {entries : List InternalEntry} {userKey : Bytes} :
    userKey ∈ userKeys entries ↔ ∃ entry ∈ entries, entry.key.userKey = userKey := by
  simp [userKeys]

/-- What the outputs hold. -/
theorem mem_flatten_retainedGroups {entries : List InternalEntry} {entry : InternalEntry} :
    entry ∈ (retainedGroups context outputLevel entries).flatten ↔
      entry ∈ retainedOf context outputLevel entries entry.key.userKey := by
  rw [List.mem_flatten]
  constructor
  · rintro ⟨group, hgroup, hentry⟩
    obtain ⟨hgroup, -⟩ := List.mem_filter.mp hgroup
    obtain ⟨userKey, -, rfl⟩ := List.mem_map.mp hgroup
    rwa [userKey_of_mem_retainedOf hentry]
  · intro hentry
    refine ⟨_, List.mem_filter.mpr ⟨List.mem_map.mpr ⟨entry.key.userKey, ?_, rfl⟩, ?_⟩, hentry⟩
    · obtain ⟨original, horiginal, huser, -⟩ := mem_retainedOf hentry
      exact mem_userKeys.mpr ⟨original, horiginal, huser⟩
    · simpa using List.ne_nil_of_mem hentry

private theorem retainedOf_descending {entries : List InternalEntry} (h : StrictRun entries)
    (userKey : Bytes) : Descending (retainedOf context outputLevel entries userKey) := by
  have hexpired : Descending
      ((versionsOf userKey entries).map (expireEntry context.readTimeUnixMs)) := by
    rw [Descending, List.pairwise_map]
    refine (h.descending userKey).imp fun hlt ↦ ?_
    rwa [expireEntry_sequence, expireEntry_sequence]
  unfold retainedOf retainVersions
  simp only
  split_ifs
  · exact .nil
  · exact hexpired.sublist (retainLoop_sublist _ _)

/-- The user keys of one group are below those of the next. -/
theorem retainedGroups_pairwise (context : CompactionContext) (outputLevel : Fin numLevels)
    (entries : List InternalEntry) :
    (retainedGroups context outputLevel entries).Pairwise fun group later ↦
      ∀ a ∈ group, ∀ b ∈ later, a.key.userKey < b.key.userKey := by
  have hkeys : (userKeys entries).Pairwise (· < ·) := Finset.sortedLT_sort _ |>.pairwise
  have hmap : ((userKeys entries).map (retainedOf context outputLevel entries)).Pairwise
      fun group later ↦ ∀ a ∈ group, ∀ b ∈ later, a.key.userKey < b.key.userKey := by
    rw [List.pairwise_map]
    refine hkeys.imp fun hlt a ha b hb ↦ ?_
    rwa [userKey_of_mem_retainedOf ha, userKey_of_mem_retainedOf hb]
  exact hmap.filter _

private theorem strictRun_flatten_retainedGroups {entries : List InternalEntry}
    (h : StrictRun entries) : StrictRun (retainedGroups context outputLevel entries).flatten := by
  have hgroups : ∀ group ∈ retainedGroups context outputLevel entries, StrictRun group := by
    intro group hgroup
    obtain ⟨userKey, -, rfl⟩ := List.mem_map.mp (List.mem_filter.mp hgroup).1
    exact strictRun_of_descending (fun entry hentry ↦ userKey_of_mem_retainedOf hentry)
      (retainedOf_descending h userKey)
  have hpairs := retainedGroups_pairwise context outputLevel entries
  constructor
  · rw [Run, Increasing, List.pairwise_flatten]
    refine ⟨fun group hgroup ↦ (hgroups group hgroup).run, hpairs.imp fun hlt a ha b hb ↦ ?_⟩
    exact InternalKey.lt_iff.mpr (.inl (hlt a ha b hb))
  · rw [List.pairwise_flatten]
    refine ⟨fun group hgroup ↦ (hgroups group hgroup).newer_first,
      hpairs.imp fun hlt a ha b hb ↦ ?_⟩
    exact fun huser ↦ absurd huser (hlt a ha b hb).ne

namespace CompactionOutput

variable {start next : U64} {groups : List (List InternalEntry)} {outputs : List CompactedTable}
  {blocks : List (List (List InternalEntry))}

/-- Outputs have the numbers from the first one to the next one. -/
theorem number_mem (h : CompactionOutput start groups outputs next blocks)
    {table : CompactedTable} (htable : table ∈ outputs) :
    start ≤ table.file.number ∧ table.file.number < next := by
  have hmem : table.file.number.val ∈ outputs.map (·.file.number.val) :=
    List.mem_map.mpr ⟨table, htable, rfl⟩
  rw [h.numbers, List.mem_range'_1] at hmem
  exact ⟨Fin.le_def.mpr hmem.1, Fin.lt_def.mpr (by rw [h.next_eq]; exact hmem.2)⟩

theorem start_le (h : CompactionOutput start groups outputs next blocks) : start ≤ next :=
  Fin.le_def.mpr (by rw [h.next_eq]; exact Nat.le_add_right _ _)

theorem numbers_nodup (h : CompactionOutput start groups outputs next blocks) :
    (outputs.map (·.file.number)).Nodup := by
  have hnodup : (outputs.map (·.file.number.val)).Nodup := h.numbers ▸ List.nodup_range'
  rw [List.Nodup, List.pairwise_map] at hnodup ⊢
  exact hnodup.imp fun hne heq ↦ hne (congrArg Fin.val heq)

private theorem flatten_entries (h : CompactionOutput start groups outputs next blocks) :
    (outputs.map (·.entries)).flatten = groups.flatten := by
  rw [h.entries, h.groups_eq, List.flatten_flatten]

theorem mem_iff (h : CompactionOutput start groups outputs next blocks) {entry : InternalEntry} :
    (∃ table ∈ outputs, entry ∈ table.entries) ↔ entry ∈ groups.flatten := by
  rw [← h.flatten_entries, List.mem_flatten]
  simp

private theorem strictRun (h : CompactionOutput start groups outputs next blocks)
    (hstrict : StrictRun groups.flatten) {table : CompactedTable} (htable : table ∈ outputs) :
    StrictRun table.entries := by
  refine hstrict.sublist ?_
  rw [← h.flatten_entries]
  exact List.sublist_flatten_of_mem (List.mem_map.mpr ⟨table, htable, rfl⟩)

end CompactionOutput

namespace CompactedTable.Described

variable {table : CompactedTable}

theorem exists_first (h : table.Described) :
    ∃ first ∈ table.entries, first.key = table.file.smallest := by
  obtain ⟨first, hfirst, hkey⟩ := Option.map_eq_some_iff.mp h.smallest
  exact ⟨first, List.mem_of_head? hfirst, hkey⟩

theorem exists_last (h : table.Described) :
    ∃ last ∈ table.entries, last.key = table.file.largest := by
  obtain ⟨last, hlast, hkey⟩ := Option.map_eq_some_iff.mp h.largest
  exact ⟨last, List.mem_of_getLast? hlast, hkey⟩

/-- The metadata of a table covers its entries. -/
theorem covers (h : table.Described) (hrun : Run table.entries) {entry : InternalEntry}
    (hentry : entry ∈ table.entries) : table.file.Covers entry.key.userKey := by
  obtain ⟨first, hfirst, hsmallest⟩ := Option.map_eq_some_iff.mp h.smallest
  obtain ⟨last, hlast, hlargest⟩ := Option.map_eq_some_iff.mp h.largest
  constructor
  · rw [← hsmallest]
    obtain ⟨later, hlater⟩ := List.head?_eq_some_iff.mp hfirst
    rw [hlater] at hrun hentry
    rcases List.mem_cons.mp hentry with rfl | hentry
    · exact le_rfl
    · exact InternalKey.userKey_le_of_le ((increasing_cons.mp hrun).1 entry hentry).le
  · rw [← hlargest]
    obtain ⟨earlier, hearlier⟩ := List.getLast?_eq_some_iff.mp hlast
    rw [hearlier] at hrun hentry
    rcases List.mem_append.mp hentry with hentry | hentry
    · exact InternalKey.userKey_le_of_le
        ((increasing_append.mp hrun).2.2 entry hentry last (List.mem_singleton.mpr rfl)).le
    · rw [List.mem_singleton.mp hentry]

end CompactedTable.Described

/-- The user keys of one output are below those of the next. -/
theorem CompactionOutput.entries_pairwise {start next : U64} {groups : List (List InternalEntry)}
    {outputs : List CompactedTable} {blocks : List (List (List InternalEntry))}
    (h : CompactionOutput start groups outputs next blocks)
    (hgroups : groups.Pairwise fun group later ↦
      ∀ a ∈ group, ∀ b ∈ later, a.key.userKey < b.key.userKey) :
    outputs.Pairwise fun table later ↦
      ∀ a ∈ table.entries, ∀ b ∈ later.entries, a.key.userKey < b.key.userKey := by
  rw [h.groups_eq, List.pairwise_flatten] at hgroups
  have hblocks : (blocks.map List.flatten).Pairwise fun entries later ↦
      ∀ a ∈ entries, ∀ b ∈ later, a.key.userKey < b.key.userKey := by
    rw [List.pairwise_map]
    refine hgroups.2.imp fun hlt a ha b hb ↦ ?_
    obtain ⟨group, hgroup, ha⟩ := List.mem_flatten.mp ha
    obtain ⟨later, hlater, hb⟩ := List.mem_flatten.mp hb
    exact hlt group hgroup later hlater a ha b hb
  rwa [← h.entries, List.pairwise_map] at hblocks

/-- Outputs are in key order and share no user key. -/
theorem CompactionOutput.pairwise {start next : U64} {groups : List (List InternalEntry)}
    {outputs : List CompactedTable} {blocks : List (List (List InternalEntry))}
    (h : CompactionOutput start groups outputs next blocks)
    (hgroups : groups.Pairwise fun group later ↦
      ∀ a ∈ group, ∀ b ∈ later, a.key.userKey < b.key.userKey) :
    (outputs.map (·.file)).Pairwise fun file later ↦
      file.largest.userKey < later.smallest.userKey := by
  rw [List.pairwise_map]
  refine (h.entries_pairwise hgroups).imp_of_mem fun {table later} htable hlater hlt ↦ ?_
  obtain ⟨last, hlast, hlargest⟩ := (h.described table htable).exists_last
  obtain ⟨first, hfirst, hsmallest⟩ := (h.described later hlater).exists_first
  rw [← hlargest, ← hsmallest]
  exact hlt last hlast first hfirst

/-- Outputs hold the retained versions of every user key. -/
theorem CompactionOutput.mem_retainedOf_iff {start next : U64} {merged : List InternalEntry}
    {outputs : List CompactedTable} {blocks : List (List (List InternalEntry))}
    (h : CompactionOutput start (retainedGroups context outputLevel merged) outputs next blocks)
    {entry : InternalEntry} : (∃ table ∈ outputs, entry ∈ table.entries) ↔
      entry ∈ retainedOf context outputLevel merged entry.key.userKey := by
  rw [h.mem_iff, mem_flatten_retainedGroups]

/-- An entry of an output comes from a merged entry with the same user key and sequence. -/
theorem CompactionOutput.exists_original {start next : U64} {merged : List InternalEntry}
    {outputs : List CompactedTable} {blocks : List (List (List InternalEntry))}
    (h : CompactionOutput start (retainedGroups context outputLevel merged) outputs next blocks)
    {table : CompactedTable} (htable : table ∈ outputs) {entry : InternalEntry}
    (hentry : entry ∈ table.entries) : ∃ original ∈ merged,
      original.key.userKey = entry.key.userKey ∧ original.key.sequence = entry.key.sequence := by
  obtain ⟨original, hmem, huser, heq⟩ :=
    mem_retainedOf (h.mem_retainedOf_iff.mp ⟨table, htable, hentry⟩)
  exact ⟨original, hmem, huser, by rw [heq, expireEntry_sequence]⟩

/-! ## The files a compaction writes -/

private theorem expireEntry_of_deletion (readTimeUnixMs : U64) {entry : InternalEntry}
    (h : entry.key.kind = .deletion) : expireEntry readTimeUnixMs entry = entry := by
  unfold expireEntry
  split
  next value expires hrecord =>
    have hkind := entry.kind_eq
    rw [hrecord, h] at hkind
    cases hkind
  next => rfl

/-- Expiring values does not change the order of the versions of a user key. -/
theorem expireEntry_key_le (readTimeUnixMs : U64) {a b : InternalEntry}
    (huser : a.key.userKey = b.key.userKey) (h : a.key < b.key) :
    (expireEntry readTimeUnixMs a).key ≤ (expireEntry readTimeUnixMs b).key := by
  rcases InternalKey.lt_iff.mp h with hlt | ⟨-, hlt | ⟨hsequence, hkind⟩⟩
  · exact absurd huser hlt.ne
  · refine (InternalKey.lt_of_sequence_lt ?_ ?_).le
    · rw [expireEntry_userKey, expireEntry_userKey, huser]
    · rwa [expireEntry_sequence, expireEntry_sequence]
  · -- the first of two versions with one sequence is a deletion and stays as it is
    obtain ⟨ha, -⟩ := ValueKind.byte_lt_byte.mp hkind
    rw [expireEntry_of_deletion _ ha, ← not_lt, InternalKey.lt_iff]
    rintro (hlt | ⟨-, hlt | ⟨-, hlt⟩⟩)
    · rw [expireEntry_userKey, huser] at hlt
      exact lt_irrefl _ hlt
    · rw [expireEntry_sequence, hsequence] at hlt
      exact lt_irrefl _ hlt
    · rw [ha] at hlt
      exact absurd (ValueKind.byte_lt_byte.mp hlt).2 (by decide)

private theorem retainedOf_ascending {entries : List InternalEntry} (h : Run entries)
    (userKey : Bytes) :
    (retainedOf context outputLevel entries userKey).Pairwise fun a b ↦ a.key ≤ b.key := by
  have hexpired : ((versionsOf userKey entries).map (expireEntry context.readTimeUnixMs)).Pairwise
      fun a b ↦ a.key ≤ b.key := by
    have hversions : Run (versionsOf userKey entries) := h.sublist List.filter_sublist
    rw [List.pairwise_map]
    refine hversions.imp_of_mem fun {a b} ha hb hlt ↦ ?_
    have ha' : a.key.userKey = userKey := by simpa using (List.mem_filter.mp ha).2
    have hb' : b.key.userKey = userKey := by simpa using (List.mem_filter.mp hb).2
    exact expireEntry_key_le _ (ha'.trans hb'.symm) hlt
  unfold retainedOf retainVersions
  simp only
  split_ifs
  · exact .nil
  · exact hexpired.sublist (retainLoop_sublist _ _)

private theorem flatten_retainedGroups (context : CompactionContext) (outputLevel : Fin numLevels)
    (entries : List InternalEntry) : (retainedGroups context outputLevel entries).flatten
      = (userKeys entries).flatMap (retainedOf context outputLevel entries) := by
  rw [retainedGroups, List.flatten_filter_ne_nil, List.flatMap_def]

private theorem flatten_retainedGroups_ascending (context : CompactionContext)
    (outputLevel : Fin numLevels) {entries : List InternalEntry} (h : Run entries) :
    (retainedGroups context outputLevel entries).flatten.Pairwise fun a b ↦ a.key ≤ b.key := by
  refine List.pairwise_flatten.mpr ⟨fun group hgroup ↦ ?_,
    (retainedGroups_pairwise context outputLevel entries).imp fun hlt a ha b hb ↦ ?_⟩
  · obtain ⟨userKey, -, rfl⟩ := List.mem_map.mp (List.mem_filter.mp hgroup).1
    exact retainedOf_ascending h userKey
  · exact (InternalKey.lt_iff.mpr (.inl (hlt a ha b hb))).le

/-- Entries in ascending order lie between the first and the last one. -/
theorem CompactedTable.Described.le {table : CompactedTable} (h : table.Described)
    (hascending : table.entries.Pairwise fun a b ↦ a.key ≤ b.key) {entry : InternalEntry}
    (hentry : entry ∈ table.entries) :
    table.file.smallest ≤ entry.key ∧ entry.key ≤ table.file.largest := by
  obtain ⟨first, hfirst, hsmallest⟩ := Option.map_eq_some_iff.mp h.smallest
  obtain ⟨last, hlast, hlargest⟩ := Option.map_eq_some_iff.mp h.largest
  rw [← hsmallest, ← hlargest]
  constructor
  · obtain ⟨later, hlater⟩ := List.head?_eq_some_iff.mp hfirst
    rw [hlater] at hascending hentry
    rcases List.mem_cons.mp hentry with rfl | hentry
    · exact le_rfl
    · exact (List.pairwise_cons.mp hascending).1 entry hentry
  · obtain ⟨earlier, hearlier⟩ := List.getLast?_eq_some_iff.mp hlast
    rw [hearlier] at hascending hentry
    rcases List.mem_append.mp hentry with hentry | hentry
    · exact (List.pairwise_append.mp hascending).2.2 entry hentry last (List.mem_singleton.mpr rfl)
    · rw [List.mem_singleton.mp hentry]

/-- **The files of a compaction.** If the tables of a plan can be read, are sorted, and share no
internal key, then the entries of the outputs, put together, are what is retained of the versions of
each user key in ascending order. The user keys of one output are below those of the next, so that
the versions of a user key are in one output. No output is empty, each has a size within the target
unless it holds a single user key, and its metadata names the least and the greatest key. A size is
compared as a `usize`. -/
theorem compactionRun_files {context : CompactionContext} {plan : CompactionPlan}
    {tables : FileMeta → List InternalEntry} {outputs : List CompactedTable} {next : U64}
    (hopen : ∀ file ∈ plan.files, context.openTable file = .ok ((tables file).map .ok))
    (hruns : ∀ file ∈ plan.files, Run (tables file))
    (hdistinct : plan.files.Pairwise fun file other ↦
      ∀ a ∈ tables file, ∀ b ∈ tables other, a.key ≠ b.key)
    (h : compactionRun context plan = .ok (outputs, next)) :
    (outputs.flatMap (·.entries)
      = (userKeys (mergedEntries (plan.files.map tables))).flatMap fun userKey ↦
        retainVersions (versionsOf userKey (mergedEntries (plan.files.map tables)))
          context.oldestActiveSnapshot (keyMayExistBelow context.version plan.outputLevel userKey)
          context.readTimeUnixMs) ∧
    (outputs.Pairwise fun table later ↦
      ∀ a ∈ table.entries, ∀ b ∈ later.entries, a.key.userKey < b.key.userKey) ∧
    (outputs.Pairwise fun table later ↦
      table.file.largest.userKey < later.file.smallest.userKey) ∧
    ∀ table ∈ outputs, table.entries ≠ [] ∧
      (min (groupSize table.entries) (usizeRange - 1) ≤ context.targetSstableBytes ∨
        ∃ userKey, ∀ entry ∈ table.entries, entry.key.userKey = userKey) ∧
      (∃ entry ∈ table.entries, entry.key = table.file.smallest) ∧
      (∃ entry ∈ table.entries, entry.key = table.file.largest) ∧
      ∀ entry ∈ table.entries,
        table.file.smallest ≤ entry.key ∧ entry.key ≤ table.file.largest := by
  set merged := mergedEntries (plan.files.map tables) with hmerged
  have hruns' : ∀ l ∈ plan.files.map tables, Run l := by
    intro l hl
    obtain ⟨file, hfile, rfl⟩ := List.mem_map.mp hl
    exact hruns file hfile
  have hshared : (plan.files.map tables).Pairwise fun a b ↦ ∀ x ∈ a, ∀ y ∈ b, x.key ≠ y.key :=
    List.pairwise_map.mpr hdistinct
  have hrun : Run merged := mergedEntries_run hruns' hshared
  have hunion : Union InternalEntry.key merged (plan.files.map tables) :=
    .of_pairwise hrun hruns' hshared fun _ ↦ mem_mergedEntries
  obtain ⟨blocks, houtput⟩ := compactionRun_eq_ok hopen hunion h
  have hflatten := houtput.flatten_entries
  have hgroups := retainedGroups_pairwise context plan.outputLevel merged
  refine ⟨?_, houtput.entries_pairwise hgroups, List.pairwise_map.mp (houtput.pairwise hgroups),
    fun table htable ↦ ?_⟩
  · rw [List.flatMap_def, hflatten, flatten_retainedGroups]
    rfl
  have hdescribed := houtput.described table htable
  have hascending : table.entries.Pairwise fun a b ↦ a.key ≤ b.key := by
    refine (flatten_retainedGroups_ascending context plan.outputLevel hrun).sublist ?_
    rw [← hflatten]
    exact List.sublist_flatten_of_mem (List.mem_map.mpr ⟨table, htable, rfl⟩)
  obtain ⟨first, hfirst, hsmallest⟩ := hdescribed.exists_first
  refine ⟨List.ne_nil_of_mem hfirst, ?_, ⟨first, hfirst, hsmallest⟩, hdescribed.exists_last,
    fun entry hentry ↦ hdescribed.le hascending hentry⟩
  have hentries : table.entries ∈ splitOutputs context.targetSstableBytes
      (retainedGroups context plan.outputLevel merged) none := by
    rw [← compactionRun_entries hopen hunion h]
    exact List.mem_map.mpr ⟨table, htable, rfl⟩
  have hgroup_ne : ∀ group ∈ retainedGroups context plan.outputLevel merged,
      group ≠ [] ∧ group ∈ retainedGroups context plan.outputLevel merged := fun group hgroup ↦
    ⟨by simpa using (List.mem_filter.mp hgroup).2, hgroup⟩
  refine (estimate_splitOutputs_le hgroup_ne (by rintro _ _ ⟨⟩) _ hentries).imp id fun hgroup ↦ ?_
  obtain ⟨userKey, -, heq⟩ := List.mem_map.mp (List.mem_filter.mp hgroup).1
  exact ⟨userKey, fun entry hentry ↦ userKey_of_mem_retainedOf (heq ▸ hentry)⟩

private theorem sharedRange : 5 ≤ 2 ^ 64 := by decide

private theorem sharedSequence_lt (sequence : Fin 5) :
    (sequence.castLE sharedRange : SequenceNumber).val < maxU64 :=
  sequence.isLt.trans (by decide)

/-- A key of one byte, written into a table. -/
private def putOf (byte : Byte) (sequence : Fin 5) (value : Bytes) : InternalEntry :=
  ⟨⟨[byte], sequence.castLE sharedRange, .value, sharedSequence_lt sequence⟩, .value value none,
    rfl⟩

private def leftOld : InternalEntry := putOf 7 1 [10]
private def rightOld : InternalEntry := putOf 9 2 [20]
private def leftNew : InternalEntry := putOf 7 3 [30]
private def middleNew : InternalEntry := putOf 8 4 [40]

private theorem sharedNumber_ne (number : U64) : max 1 number ≠ 0 :=
  fun h ↦ absurd (h ▸ le_max_left 1 number) (by decide)

private theorem sharedSize_ne : (1 : U64) ≠ 0 := by decide

private def sharedFile (number : U64) (first last : InternalEntry) : FileMeta :=
  ⟨max 1 number, 1, first.key, max first.key last.key, sharedNumber_ne number, sharedSize_ne,
    le_max_left _ _⟩

private def olderTable : FileMeta := sharedFile 3 leftOld rightOld
private def newerTable : FileMeta := sharedFile 4 leftNew middleNew

/-- Two tables with a version of one user key each. -/
private def sharedTables (file : FileMeta) : List InternalEntry :=
  if file.number = 3 then [leftOld, rightOld] else [leftNew, middleNew]

/-- A snapshot of sequence `2` keeps the older version of the shared key. -/
private def sharedContext : CompactionContext where
  targetSstableBytes := 40
  version := .empty
  oldestActiveSnapshot := some 2
  readTimeUnixMs := 5
  nextFileNumber := 5
  openTable file := .ok ((sharedTables file).map .ok)
  finishTable _ _ := .ok 1

private def sharedPlan : CompactionPlan := ⟨1, 2, [newerTable], [olderTable]⟩

private def leftOutput : CompactedTable := ⟨sharedFile 5 leftNew leftOld, [leftNew, leftOld]⟩

private def rightOutput : CompactedTable :=
  ⟨sharedFile 6 middleNew rightOld, [middleNew, rightOld]⟩

private theorem sharedPlan_runs :
    (∀ file ∈ sharedPlan.files, Run (sharedTables file)) ∧
      sharedPlan.files.Pairwise fun file other ↦
        ∀ a ∈ sharedTables file, ∀ b ∈ sharedTables other, a.key ≠ b.key := by
  refine ⟨List.forall_mem_cons.mpr ⟨?_, List.forall_mem_singleton.mpr ?_⟩,
    List.pairwise_pair.mpr (by decide)⟩ <;>
  exact List.pairwise_pair.mpr (by decide)

private theorem compactionRun_sharedPlan :
    compactionRun sharedContext sharedPlan = .ok ([leftOutput, rightOutput], 7) := by
  have hmerged : mergedEntries (sharedPlan.files.map sharedTables)
      = [leftNew, leftOld, middleNew, rightOld] := by decide +kernel
  have hkeys : userKeys [leftNew, leftOld, middleNew, rightOld] = [[7], [8], [9]] :=
    userKeys_eq (by decide) (by decide)
  have hruns : ∀ l ∈ sharedPlan.files.map sharedTables, Run l :=
    List.forall_mem_map.mpr sharedPlan_runs.1
  have hshared : (sharedPlan.files.map sharedTables).Pairwise
      fun a b ↦ ∀ x ∈ a, ∀ y ∈ b, x.key ≠ y.key := List.pairwise_map.mpr sharedPlan_runs.2
  rw [compactionRun_eq (fun _ _ ↦ rfl) (.of_pairwise (mergedEntries_run hruns hshared) hruns
    hshared fun _ ↦ mem_mergedEntries), hmerged, retainedGroups, hkeys]
  decide +kernel

/-- The target has room for two entries. The versions of the shared key fill one output, and the
other two user keys the next. -/
theorem compactionRun_files_shared :
    compactionRun sharedContext sharedPlan = .ok ([leftOutput, rightOutput], 7) ∧
      [leftNew, leftOld, middleNew, rightOld]
        = ((userKeys (mergedEntries (sharedPlan.files.map sharedTables))).flatMap fun userKey ↦
          retainVersions (versionsOf userKey (mergedEntries (sharedPlan.files.map sharedTables)))
            (some 2) (keyMayExistBelow .empty 2 userKey) 5) ∧
      leftOutput.file.largest.userKey < rightOutput.file.smallest.userKey ∧
      min (groupSize rightOutput.entries) (usizeRange - 1) ≤ 40 ∧
      ∀ entry ∈ leftOutput.entries,
        leftOutput.file.smallest ≤ entry.key ∧ entry.key ≤ leftOutput.file.largest := by
  obtain ⟨hentries, -, hranges, hfiles⟩ := compactionRun_files (fun _ _ ↦ rfl) sharedPlan_runs.1
    sharedPlan_runs.2 compactionRun_sharedPlan
  obtain ⟨-, -, -, -, hbetween⟩ := hfiles leftOutput (List.mem_cons_self ..)
  obtain ⟨-, hsize, -⟩ := hfiles rightOutput (List.mem_cons_of_mem _ (List.mem_singleton.mpr rfl))
  refine ⟨compactionRun_sharedPlan, hentries,
    List.rel_of_pairwise_cons hranges (List.mem_singleton.mpr rfl),
    hsize.resolve_right ?_, hbetween⟩
  rintro ⟨userKey, hsame⟩
  have hmiddle := hsame middleNew (by decide)
  have hright := hsame rightOld (by decide)
  exact absurd (hmiddle.trans hright.symm) (by decide)

/-! ## Replacing the tables of a plan -/

/-- The tables of a plan are live, and the tables that stay leave room for the outputs: in level
zero they are newer, and those of the output level lie outside the range of the plan. -/
structure Replaceable (version : Version) (plan : CompactionPlan) : Prop where
  succ : plan.outputLevel.val = plan.inputLevel.val + 1
  inputs : ∀ file ∈ plan.inputs, file ∈ version.levels plan.inputLevel
  overlaps : ∀ file ∈ plan.overlaps, file ∈ version.levels plan.outputLevel
  inputs_nodup : plan.inputs.Nodup
  overlaps_nodup : plan.overlaps.Nodup
  zero : plan.inputLevel = 0 → ∀ file ∈ version.levels 0, file ∉ plan.inputs →
    ∀ input ∈ plan.inputs, input.number < file.number
  outside : ∀ range, IsRange plan.files range → ∀ file ∈ version.levels plan.outputLevel,
    file ∉ plan.overlaps → rangesOverlap file range = false

variable {version version' : Version} {contents contents' : FileMeta → List InternalEntry}
  {plan : CompactionPlan}

theorem Replaceable.exists_level (h : Replaceable version plan) {file : FileMeta}
    (hfile : file ∈ plan.files) : ∃ level, file ∈ version.levels level := by
  rcases List.mem_append.mp hfile with hfile | hfile
  · exact ⟨_, h.inputs file hfile⟩
  · exact ⟨_, h.overlaps file hfile⟩

/-- A table that stays and shares a user key with the plan is newer and above the output level, or
older and below it. -/
theorem Replaceable.stays (h : Replaceable version plan) (hlayered : Layered version contents)
    {level : Fin numLevels} {file input : FileMeta} (hfile : file ∈ version.levels level)
    (hstays : file ∉ plan.files) (hinput : input ∈ plan.files) {a b : InternalEntry}
    (ha : a ∈ contents input) (hb : b ∈ contents file) (huser : a.key.userKey = b.key.userKey) :
    a.key.sequence < b.key.sequence ∧ level < plan.outputLevel ∨
      b.key.sequence < a.key.sequence ∧ plan.outputLevel < level := by
  have hsucc := h.succ
  have hlt : plan.inputLevel < plan.outputLevel := Fin.lt_def.mpr (by omega)
  have hnotInput : file ∉ plan.inputs := fun hmem ↦ hstays (List.mem_append_left _ hmem)
  rcases lt_trichotomy level plan.outputLevel with hlevel | rfl | hlevel
  · refine .inl ⟨?_, hlevel⟩
    have hle : level ≤ plan.inputLevel := Fin.le_def.mpr (by have := Fin.lt_def.mp hlevel; omega)
    rcases List.mem_append.mp hinput with hinput | hinput
    · rcases hle.lt_or_eq with hless | rfl
      · exact hlayered.across level _ hless file hfile input (h.inputs input hinput) b hb a ha
          huser.symm
      · by_cases hzero : plan.inputLevel = 0
        · rw [hzero] at hfile
          have hnumber := h.zero hzero file hfile hnotInput input hinput
          have hinputs := h.inputs input hinput
          rw [hzero] at hinputs
          exact hlayered.zero file hfile input hinputs hnumber b hb a ha huser.symm
        · -- Two tables of a sorted level that cover one key are the same.
          have heq := Version.eq_of_covers hzero hfile (h.inputs input hinput)
            (hlayered.covers _ file hfile b hb)
            (huser ▸ hlayered.covers _ input (h.inputs input hinput) a ha)
          exact absurd (heq ▸ hinput) hnotInput
    · exact hlayered.across level _ hlevel file hfile input (h.overlaps input hinput) b hb a ha
        huser.symm
  · have hnotOverlap : file ∉ plan.overlaps := fun hmem ↦ hstays (List.mem_append_right _ hmem)
    obtain ⟨range, hrange⟩ := exists_userRange (List.ne_nil_of_mem hinput)
    have hinside := (isRange_of_userRange hrange).encloses input hinput
    obtain ⟨inputLevel, hinputLevel⟩ := h.exists_level hinput
    have ha := hlayered.covers inputLevel input hinputLevel a ha
    have hb := hlayered.covers _ file hfile b hb
    rw [← huser] at hb
    have hmeets : rangesOverlap file range = true :=
      rangesOverlap_iff.mpr ⟨hb.1.trans (ha.2.trans hinside.2), (hinside.1.trans ha.1).trans hb.2⟩
    have hapart := h.outside range (isRange_of_userRange hrange) file hfile hnotOverlap
    exact absurd (hmeets.symm.trans hapart) (by decide)
  · refine .inr ⟨?_, hlevel⟩
    rcases List.mem_append.mp hinput with hinput | hinput
    · exact hlayered.across _ level (hlt.trans hlevel) input (h.inputs input hinput) file hfile a ha
        b hb huser
    · exact hlayered.across _ level hlevel input (h.overlaps input hinput) file hfile a ha b
        hb huser

private theorem keyMayExistBelow_of_covers {outputLevel level : Fin numLevels}
    (hlevel : outputLevel < level)
    {file : FileMeta} (hfile : file ∈ version.levels level) {key : Bytes}
    (hcovers : file.Covers key) : keyMayExistBelow version outputLevel key = true := by
  refine List.any_eq_true.mpr ⟨level, List.mem_finRange level, ?_⟩
  rw [Bool.and_eq_true]
  exact ⟨decide_eq_true hlevel, List.any_eq_true.mpr ⟨file, hfile, decide_eq_true hcovers⟩⟩

/-- One compaction: the tables of the plan give way to the outputs of a run. -/
structure Compacts (version version' : Version) (contents contents' : FileMeta → List InternalEntry)
    (context : CompactionContext) (plan : CompactionPlan) (merged : List InternalEntry)
    (outputs : List CompactedTable) (next : U64) (blocks : List (List (List InternalEntry))) :
    Prop where
  layered : Layered version contents
  replaceable : Replaceable version plan
  union : Union InternalEntry.key merged (plan.files.map contents)
  output : CompactionOutput context.nextFileNumber
    (retainedGroups context plan.outputLevel merged) outputs next blocks
  version_eq : context.version = version
  levels : ∀ level file, file ∈ version'.levels level ↔
    file ∈ version.levels level ∧ file ∉ plan.files ∨
      level = plan.outputLevel ∧ file ∈ outputs.map (·.file)
  old : ∀ level, ∀ file ∈ version.levels level, contents' file = contents file
  new : ∀ table ∈ outputs, contents' table.file = table.entries

namespace Compacts

variable {merged : List InternalEntry} {outputs : List CompactedTable} {next : U64}
  {blocks : List (List (List InternalEntry))}
  (h : Compacts version version' contents contents' context plan merged outputs next blocks)

include h

private theorem mem_merged {entry : InternalEntry} :
    entry ∈ merged ↔ ∃ file ∈ plan.files, entry ∈ contents file := by
  rw [h.union.mem_iff]
  constructor
  · rintro ⟨i, hentry⟩
    have hmem := (getD_mem_or_nil (plan.files.map contents) i).resolve_right
      (List.ne_nil_of_mem hentry)
    obtain ⟨file, hfile, heq⟩ := List.mem_map.mp hmem
    exact ⟨file, hfile, heq ▸ hentry⟩
  · rintro ⟨file, hfile, hentry⟩
    obtain ⟨i, hi, heq⟩ := List.getElem_of_mem (List.mem_map.mpr ⟨file, hfile, rfl⟩)
    exact ⟨i, by rw [List.getD_eq_getElem _ _ hi, heq]; exact hentry⟩

theorem merged_subset {entry : InternalEntry} (hentry : entry ∈ merged) :
    entry ∈ version.entries contents := by
  obtain ⟨file, hfile, hentry⟩ := h.mem_merged.mp hentry
  obtain ⟨level, hlevel⟩ := h.replaceable.exists_level hfile
  exact ⟨level, file, hlevel, hentry⟩

private theorem merged_strict : StrictRun merged := by
  refine ⟨h.union.merged_increasing, ?_⟩
  refine h.union.merged_increasing.imp_of_mem fun {a b} ha hb hlt huser ↦ ?_
  rcases InternalKey.lt_iff.mp hlt with hless | ⟨-, hless | ⟨hsequence, -⟩⟩
  · exact absurd huser hless.ne
  · exact hless
  · have heq := h.layered.eq_of_sequence_eq (h.merged_subset ha) (h.merged_subset hb) huser
      hsequence
    exact absurd (heq ▸ hlt) (lt_irrefl _)

private theorem output_strict {table : CompactedTable} (htable : table ∈ outputs) :
    StrictRun table.entries :=
  h.output.strictRun (strictRun_flatten_retainedGroups h.merged_strict) htable

/-- What a version holds after a compaction: what stays, and the outputs. -/
theorem mem_entries {entry : InternalEntry} : entry ∈ version'.entries contents' ↔
    (∃ level, ∃ file ∈ version.levels level, file ∉ plan.files ∧ entry ∈ contents file) ∨
      ∃ table ∈ outputs, entry ∈ table.entries := by
  constructor
  · rintro ⟨level, file, hfile, hentry⟩
    rcases (h.levels level file).mp hfile with ⟨hold, hstays⟩ | ⟨-, hnew⟩
    · exact .inl ⟨level, file, hold, hstays, h.old level file hold ▸ hentry⟩
    · obtain ⟨table, htable, rfl⟩ := List.mem_map.mp hnew
      exact .inr ⟨table, htable, h.new table htable ▸ hentry⟩
  · rintro (⟨level, file, hfile, hstays, hentry⟩ | ⟨table, htable, hentry⟩)
    · exact ⟨level, file, (h.levels level file).mpr (.inl ⟨hfile, hstays⟩),
        (h.old level file hfile).symm ▸ hentry⟩
    · exact ⟨plan.outputLevel, table.file, (h.levels _ _).mpr
        (.inr ⟨rfl, List.mem_map.mpr ⟨table, htable, rfl⟩⟩), (h.new table htable).symm ▸ hentry⟩

/-- A table that stays is newer than the outputs and above them, or older and below. -/
theorem stays {level : Fin numLevels} {file : FileMeta} (hfile : file ∈ version.levels level)
    (hstays : file ∉ plan.files) {a b : InternalEntry} (ha : a ∈ merged) (hb : b ∈ contents file)
    (huser : a.key.userKey = b.key.userKey) :
    a.key.sequence < b.key.sequence ∧ level < plan.outputLevel ∨
      b.key.sequence < a.key.sequence ∧ plan.outputLevel < level := by
  obtain ⟨input, hinput, ha⟩ := h.mem_merged.mp ha
  exact h.replaceable.stays h.layered hfile hstays hinput ha hb huser

/-- **Layers stay layers.** -/
theorem layered' : Layered version' contents' where
  strict level file hfile := by
    rcases (h.levels level file).mp hfile with ⟨hold, -⟩ | ⟨-, hnew⟩
    · rw [h.old level file hold]
      exact h.layered.strict level file hold
    · obtain ⟨table, htable, rfl⟩ := List.mem_map.mp hnew
      rw [h.new table htable]
      exact h.output_strict htable
  covers level file hfile entry hentry := by
    rcases (h.levels level file).mp hfile with ⟨hold, -⟩ | ⟨-, hnew⟩
    · rw [h.old level file hold] at hentry
      exact h.layered.covers level file hold entry hentry
    · obtain ⟨table, htable, rfl⟩ := List.mem_map.mp hnew
      rw [h.new table htable] at hentry
      exact (h.output.described table htable).covers (h.output_strict htable).run hentry
  zero file hfile other hother hlt := by
    have hpos : (0 : Fin numLevels) ≠ plan.outputLevel := by
      intro heq
      have hsucc := h.replaceable.succ
      rw [← heq] at hsucc
      exact absurd hsucc (by simp)
    have hold : ∀ {file : FileMeta}, file ∈ version'.levels 0 → file ∈ version.levels 0 :=
      fun {file} hfile ↦ (((h.levels 0 file).mp hfile).resolve_right fun hnew ↦ hpos hnew.1).1
    unfold AskedFirst
    rw [h.old 0 file (hold hfile), h.old 0 other (hold hother)]
    exact h.layered.zero file (hold hfile) other (hold hother) hlt
  across i j hij file hfile other hother a ha b hb huser := by
    rcases (h.levels i file).mp hfile with ⟨hold, hstays⟩ | ⟨rfl, hnew⟩ <;>
      rcases (h.levels j other).mp hother with ⟨hold', hstays'⟩ | ⟨rfl, hnew'⟩
    · rw [h.old i file hold] at ha
      rw [h.old j other hold'] at hb
      exact h.layered.across i j hij file hold other hold' a ha b hb huser
    · rw [h.old i file hold] at ha
      obtain ⟨table, htable, rfl⟩ := List.mem_map.mp hnew'
      rw [h.new table htable] at hb
      obtain ⟨original, horiginal, huser', hsequence⟩ := h.output.exists_original htable hb
      rcases h.stays hold hstays horiginal ha (huser'.trans huser.symm) with hnewer | hless
      · exact hsequence ▸ hnewer.1
      · exact absurd hij hless.2.asymm
    · obtain ⟨table, htable, rfl⟩ := List.mem_map.mp hnew
      rw [h.new table htable] at ha
      rw [h.old j other hold'] at hb
      obtain ⟨original, horiginal, huser', hsequence⟩ := h.output.exists_original htable ha
      rcases h.stays hold' hstays' horiginal hb (huser'.trans huser) with hless | holder
      · exact absurd hij hless.2.asymm
      · exact hsequence ▸ holder.1
    · exact absurd hij (lt_irrefl _)

/-- The newest visible entry of a version, if the plan replaces it, is kept, or dropped because it
holds no value and no lower level may hold the key. -/
theorem retainedOf_find? {sequence : SequenceNumber} {readTimeUnixMs : U64}
    (hreadable : Readable (version.entries contents) context.oldestActiveSnapshot sequence)
    (htime : context.readTimeUnixMs ≤ readTimeUnixMs) {entry : InternalEntry}
    (hmerged : entry ∈ merged)
    (hnewest : IsNewest (version.entries contents) entry.key.userKey sequence entry) :
    (retainedOf context plan.outputLevel merged entry.key.userKey).find?
          (·.key.sequence ≤ sequence) = some (expireEntry context.readTimeUnixMs entry) ∨
      retainedOf context plan.outputLevel merged entry.key.userKey = [] ∧
        keyMayExistBelow context.version plan.outputLevel entry.key.userKey = false ∧
          entry.record.intoValue readTimeUnixMs = none := by
  have hdescending := h.merged_strict.descending entry.key.userKey
  have hsub : ∀ other ∈ versionsOf entry.key.userKey merged,
      other ∈ version.entries contents ∧ other.key.userKey = entry.key.userKey := by
    intro other hother
    obtain ⟨hother, huser⟩ := List.mem_filter.mp hother
    exact ⟨h.merged_subset hother, of_decide_eq_true huser⟩
  have hmem : entry ∈ versionsOf entry.key.userKey merged :=
    List.mem_filter.mpr ⟨hmerged, decide_eq_true rfl⟩
  have hfind : (versionsOf entry.key.userKey merged).find? (·.key.sequence ≤ sequence)
      = some entry := by
    cases hfound : (versionsOf entry.key.userKey merged).find? (·.key.sequence ≤ sequence) with
    | none =>
      have hnot := List.find?_eq_none.mp hfound entry hmem
      exact absurd (decide_eq_true hnewest.sequence_le) hnot
    | some found =>
      obtain ⟨hvisible, before, after, heq, hbefore⟩ := List.find?_eq_some_iff_append.mp hfound
      obtain ⟨hfoundMem, huser⟩ := hsub found (heq ▸ by simp)
      have hle := hnewest.newest found hfoundMem huser (of_decide_eq_true hvisible)
      -- The entry is not before the first visible one, and not below it.
      rw [heq] at hmem hdescending
      rcases List.mem_append.mp hmem with hmem | hmem
      · have hnot := hbefore entry hmem
        simp [hnewest.sequence_le] at hnot
      · rcases List.mem_cons.mp hmem with rfl | hmem
        · rfl
        · have hpairs := (List.pairwise_append.mp hdescending).2.1
          exact absurd ((List.pairwise_cons.mp hpairs).1 entry hmem) (not_lt.mpr hle)
  rcases retainVersions_find? hdescending htime (hreadable.mono fun other hother ↦
    (hsub other hother).1) (keyMayExistBelow context.version plan.outputLevel entry.key.userKey)
    with hkept | ⟨hnil, hbelow, hgone⟩
  · exact .inl (by rw [hfind] at hkept; exact hkept)
  · exact .inr ⟨hnil, hbelow, hgone entry hfind⟩

/-- **Compaction keeps every visible read.** -/
theorem lookup_eq {key : Bytes} {sequence : SequenceNumber} {readTimeUnixMs : U64}
    (hreadable : Readable (version.entries contents) context.oldestActiveSnapshot sequence)
    (htime : context.readTimeUnixMs ≤ readTimeUnixMs) :
    version'.lookup contents' key sequence readTimeUnixMs
      = version.lookup contents key sequence readTimeUnixMs := by
  have hbefore := h.layered.answers_search key sequence
  have hafter := h.layered'.answers_search key sequence
  unfold Version.lookup
  generalize version.search contents key sequence = before at hbefore
  generalize version'.search contents' key sequence = after at hafter
  -- Whatever the new version finds has a counterpart of the same sequence in the old one.
  have hback : ∀ entry ∈ version'.entries contents', ∃ original ∈ version.entries contents,
      original.key.userKey = entry.key.userKey ∧ original.key.sequence = entry.key.sequence := by
    intro entry hentry
    rcases h.mem_entries.mp hentry with ⟨level, file, hfile, -, hentry⟩ | ⟨table, htable, hentry⟩
    · exact ⟨entry, ⟨level, file, hfile, hentry⟩, rfl, rfl⟩
    · obtain ⟨original, hmem, heq⟩ := h.output.exists_original htable hentry
      exact ⟨original, h.merged_subset hmem, heq⟩
  cases before with
  | none =>
    cases after with
    | none => rfl
    | some entry =>
      obtain ⟨original, hmem, huser, hsequence⟩ := hback entry hafter.mem
      exact absurd (hsequence ▸ hafter.sequence_le)
        (hbefore original hmem (huser.trans hafter.userKey))
  | some entry =>
    -- The new version finds nothing above the entry.
    have hle : ∀ found ∈ after, found.key.sequence ≤ entry.key.sequence := by
      rintro found rfl
      obtain ⟨original, hmem, huser, hsequence⟩ := hback found hafter.mem
      rw [← hsequence]
      exact hbefore.newest original hmem (huser.trans hafter.userKey)
        (hsequence ▸ hafter.sequence_le)
    by_cases hstays : ∃ level, ∃ file ∈ version.levels level, file ∉ plan.files ∧
        entry ∈ contents file
    · -- The entry stays, so it is found again.
      have hmem : entry ∈ version'.entries contents' := h.mem_entries.mpr (.inl hstays)
      cases after with
      | none => exact absurd hbefore.sequence_le (hafter entry hmem hbefore.userKey)
      | some found =>
        have hge := hafter.newest entry hmem hbefore.userKey hbefore.sequence_le
        rw [h.layered'.eq_of_sequence_eq hafter.mem hmem
          (hafter.userKey.trans hbefore.userKey.symm) (le_antisymm (hle found rfl) hge)]
    · have hmerged : entry ∈ merged := by
        obtain ⟨level, file, hfile, hentry⟩ := hbefore.mem
        by_contra hnot
        refine hstays ⟨level, file, hfile, fun hplan ↦ hnot ?_, hentry⟩
        exact h.mem_merged.mpr ⟨file, hplan, hentry⟩
      obtain rfl := hbefore.userKey
      rcases h.retainedOf_find? hreadable htime hmerged hbefore with hkept | ⟨hnil, hbelow, hgone⟩
      · -- The entry is kept, up to its expiry.
        have houtput : expireEntry context.readTimeUnixMs entry ∈ version'.entries contents' := by
          refine h.mem_entries.mpr (.inr (h.output.mem_retainedOf_iff.mpr ?_))
          rw [expireEntry_userKey]
          exact List.mem_of_find?_eq_some hkept
        cases after with
        | none =>
          exact absurd (by rw [expireEntry_sequence]; exact hbefore.sequence_le)
            (hafter _ houtput (expireEntry_userKey ..))
        | some found =>
          have hge := hafter.newest _ houtput (expireEntry_userKey ..)
            (by rw [expireEntry_sequence]; exact hbefore.sequence_le)
          have hsequence := expireEntry_sequence context.readTimeUnixMs entry
          rw [h.layered'.eq_of_sequence_eq hafter.mem houtput
            (hafter.userKey.trans (expireEntry_userKey ..).symm)
            (le_antisymm (hsequence ▸ hle found rfl) hge)]
          exact expireEntry_intoValue htime entry
      · -- The entry is dropped: it was not visible, and there is nothing below it.
        cases after with
        | none => exact hgone.symm
        | some found =>
          exfalso
          rcases h.mem_entries.mp hafter.mem with ⟨level, file, hfile, hfound, hmem⟩ | hmem
          · rcases h.stays hfile hfound hmerged hmem hafter.userKey.symm with hnewer | hbelow'
            · exact absurd (hle found rfl) (not_le.mpr hnewer.1)
            · have hcovers := h.layered.covers level file hfile found hmem
              rw [hafter.userKey] at hcovers
              have hmay : keyMayExistBelow context.version plan.outputLevel entry.key.userKey := by
                rw [h.version_eq]
                exact keyMayExistBelow_of_covers hbelow'.2 hfile hcovers
              exact absurd (hbelow.symm.trans hmay) Bool.false_ne_true
          · have hmem := h.output.mem_retainedOf_iff.mp hmem
            rw [hafter.userKey, hnil] at hmem
            exact absurd hmem List.not_mem_nil

end Compacts

end MeteorDB
