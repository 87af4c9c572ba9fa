import MeteorDB.Compaction
import MeteorDB.Lib.PartitionPoint

/-!
# Point lookups in a version

A lookup asks the tables of a version in read order: the tables of level zero that cover the key,
newest first, and then in every other level the one table that may hold it. The first table with a
visible entry answers.

This finds the newest visible entry of the whole version if the tables are layered: of two tables,
the one that is asked first holds only newer versions of every user key they share (`Layered`).
`IsNewest` says what the newest visible entry of a set of entries is, and `Layered.answers_search`
that a lookup returns it.
-/

namespace MeteorDB

open OrderedList

/-! ## The search -/

/-- The table of a sorted level in which a user key would be. -/
def levelCandidate (files : List FileMeta) (key : Bytes) : Option FileMeta :=
  (files[(files.takeWhile (·.largest.userKey < key)).length]?).filter (·.Covers key)

/-- The tables a lookup asks, in order. -/
def Version.candidates (version : Version) (key : Bytes) : List FileMeta :=
  (version.levels 0).filter (·.Covers key)
    ++ ((List.finRange numLevels).drop 1).filterMap fun level ↦
      levelCandidate (version.levels level) key

/-- The first answer of a table. The entries of each table are given; a table answers with its
newest visible entry for the key. -/
def Version.search (version : Version) (contents : FileMeta → List InternalEntry) (key : Bytes)
    (sequence : SequenceNumber) : Option InternalEntry :=
  (version.candidates key).findSome? fun file ↦ newest key sequence (contents file)

/-- What a read at a sequence and a time returns. -/
def Version.lookup (version : Version) (contents : FileMeta → List InternalEntry) (key : Bytes)
    (sequence : SequenceNumber) (readTimeUnixMs : U64) : Option Bytes :=
  (version.search contents key sequence).bind fun entry ↦ entry.record.intoValue readTimeUnixMs

/-! ## The newest visible entry -/

/-- The newest entry of a user key in a set of entries, among those not above a sequence. -/
structure IsNewest (entries : Set InternalEntry) (key : Bytes) (sequence : SequenceNumber)
    (entry : InternalEntry) : Prop where
  mem : entry ∈ entries
  userKey : entry.key.userKey = key
  sequence_le : entry.key.sequence ≤ sequence
  newest : ∀ other ∈ entries, other.key.userKey = key → other.key.sequence ≤ sequence →
    other.key.sequence ≤ entry.key.sequence

/-- No entry of a user key is visible at a sequence. -/
def NoneVisible (entries : Set InternalEntry) (key : Bytes) (sequence : SequenceNumber) : Prop :=
  ∀ entry ∈ entries, entry.key.userKey = key → ¬ entry.key.sequence ≤ sequence

/-- An answer is right if it is the newest visible entry, or nothing when there is none. -/
def Answers (entries : Set InternalEntry) (key : Bytes) (sequence : SequenceNumber) :
    Option InternalEntry → Prop
  | some entry => IsNewest entries key sequence entry
  | none => NoneVisible entries key sequence

/-- The newer of two entries comes first. -/
def NewerFirst (a b : InternalEntry) : Prop :=
  a.key.userKey = b.key.userKey → b.key.sequence < a.key.sequence

/-- Entries in key order, with different sequences for one user key. -/
structure StrictRun (entries : List InternalEntry) : Prop where
  run : Run entries
  newer_first : entries.Pairwise NewerFirst

theorem answers_newest {entries : List InternalEntry} (h : StrictRun entries) (key : Bytes)
    (sequence : SequenceNumber) :
    Answers {entry | entry ∈ entries} key sequence (newest key sequence entries) := by
  cases hnewest : newest key sequence entries with
  | none =>
    intro entry hentry huser hle
    have hnot := List.find?_eq_none.mp hnewest entry hentry
    simp [huser, hle] at hnot
  | some entry =>
    obtain ⟨hvisible, before, after, rfl, hbefore⟩ := List.find?_eq_some_iff_append.mp hnewest
    simp only [decide_eq_true_eq] at hvisible
    refine ⟨by simp, hvisible.1, hvisible.2, fun other hother huser hle ↦ ?_⟩
    rcases List.mem_append.mp hother with hother | hother
    · have hnot := hbefore other hother
      simp [huser, hle] at hnot
    · rcases List.mem_cons.mp hother with rfl | hother
      · exact le_rfl
      · have hpairs := (List.pairwise_append.mp h.newer_first).2.1
        exact ((List.pairwise_cons.mp hpairs).1 other hother (hvisible.1.trans huser.symm)).le

/-- Of two sets, the first of which is newer, the first answers if it can. -/
theorem Answers.or {first second : Set InternalEntry} {key : Bytes} {sequence : SequenceNumber}
    {a b : Option InternalEntry} (ha : Answers first key sequence a)
    (hb : Answers second key sequence b)
    (hnewer : ∀ x ∈ first, ∀ y ∈ second, x.key.userKey = key → NewerFirst x y) :
    Answers (first ∪ second) key sequence (a.or b) := by
  cases a with
  | some entry =>
    refine ⟨.inl ha.mem, ha.userKey, ha.sequence_le, ?_⟩
    rintro other (hother | hother) huser hle
    · exact ha.newest other hother huser hle
    · exact (hnewer entry ha.mem other hother ha.userKey (ha.userKey.trans huser.symm)).le
  | none =>
    cases b with
    | some entry =>
      refine ⟨.inr hb.mem, hb.userKey, hb.sequence_le, ?_⟩
      rintro other (hother | hother) huser hle
      · exact absurd hle (ha other hother huser)
      · exact hb.newest other hother huser hle
    | none =>
      rintro other (hother | hother) huser
      · exact ha other hother huser
      · exact hb other hother huser

/-! ## Layered tables -/

/-- A table that is asked before another holds only newer versions of the user keys they share. -/
def AskedFirst (contents : FileMeta → List InternalEntry) (file other : FileMeta) : Prop :=
  ∀ a ∈ contents file, ∀ b ∈ contents other, NewerFirst a b

/-- The tables of a version are well formed and layered in read order. -/
structure Layered (version : Version) (contents : FileMeta → List InternalEntry) : Prop where
  strict : ∀ level, ∀ file ∈ version.levels level, StrictRun (contents file)
  covers : ∀ level, ∀ file ∈ version.levels level, ∀ entry ∈ contents file,
    file.Covers entry.key.userKey
  zero : ∀ file ∈ version.levels 0, ∀ other ∈ version.levels 0, other.number < file.number →
    AskedFirst contents file other
  across : ∀ i j, i < j → ∀ file ∈ version.levels i, ∀ other ∈ version.levels j,
    AskedFirst contents file other

/-- All entries of a version. -/
def Version.entries (version : Version) (contents : FileMeta → List InternalEntry) :
    Set InternalEntry :=
  {entry | ∃ level, ∃ file ∈ version.levels level, entry ∈ contents file}

/-- In a sorted level, the candidate is the only table that covers the key. -/
theorem levelCandidate_eq_some {files : List FileMeta} (h : NonOverlapping files) {key : Bytes}
    {file : FileMeta} (hfile : file ∈ files) (hcovers : file.Covers key) :
    levelCandidate files key = some file := by
  obtain ⟨before, after, rfl⟩ := List.append_of_mem hfile
  obtain ⟨-, -, hbefore⟩ := List.pairwise_append.mp h
  have htake : (before ++ file :: after).takeWhile (·.largest.userKey < key) = before := by
    rw [List.takeWhile_append_of_pos, List.takeWhile_cons_of_neg, List.append_nil]
    · simpa using hcovers.2
    · intro other hother
      have hlt := hbefore other hother file (List.mem_cons_self ..)
      simpa using hlt.trans_le hcovers.1
  rw [levelCandidate, htake, List.getElem?_append_right le_rfl, Nat.sub_self,
    List.getElem?_cons_zero]
  exact Option.filter_eq_some_iff.mpr ⟨rfl, by simpa using hcovers⟩

private theorem mem_of_levelCandidate {files : List FileMeta} {key : Bytes} {file : FileMeta}
    (h : levelCandidate files key = some file) : file ∈ files ∧ file.Covers key := by
  obtain ⟨hget, hcovers⟩ := Option.filter_eq_some_iff.mp h
  exact ⟨List.mem_of_getElem? hget, by simpa using hcovers⟩

/-- The search by bisection that a lookup makes in a sorted level. -/
theorem levelCandidate_eq_partitionPoint {files : List FileMeta} (h : NonOverlapping files)
    (key : Bytes) : levelCandidate files key
      = (files[partitionPoint (·.largest.userKey < key) files]?).filter (·.Covers key) := by
  have hsplit := List.takeWhile_append_dropWhile (p := fun file : FileMeta ↦
    decide (file.largest.userKey < key)) (l := files)
  have hafter : ∀ file ∈ files.dropWhile (·.largest.userKey < key),
      decide (file.largest.userKey < key) = false := by
    cases hdrop : files.dropWhile (·.largest.userKey < key) with
    | nil => exact nofun
    | cons first rest =>
      have hfirst := List.head?_dropWhile_not (fun file : FileMeta ↦
        decide (file.largest.userKey < key)) files
      rw [hdrop, List.head?_cons] at hfirst
      have hsorted : NonOverlapping (first :: rest) :=
        h.sublist (hdrop ▸ List.dropWhile_sublist _)
      have hle : key ≤ first.largest.userKey := by simpa using hfirst
      refine List.forall_mem_cons.mpr ⟨by simpa using hle, fun file hfile ↦ ?_⟩
      have hlt := (List.pairwise_cons.mp hsorted).1 file hfile
      simpa using hle.trans (hlt.le.trans file.userKey_le)
  have hbefore : ∀ file ∈ files.takeWhile (·.largest.userKey < key),
      decide (file.largest.userKey < key) = true := fun file hfile ↦
    List.all_eq_true.mp (List.all_takeWhile (l := files)) file hfile
  have hpoint := partitionPoint_append hbefore hafter
  rw [hsplit] at hpoint
  rw [levelCandidate, hpoint]

/-- **What edits keep.** Whatever edits are applied to the version without tables, level zero is in
strictly descending order of file numbers, no number occurs twice, and every other level is sorted
with disjoint ranges; so at most one table of it covers a key, and the search finds that table. -/
theorem applyLevels_invariant {edits : List VersionEdit} {levels : Levels}
    (h : edits.foldlM Version.applyLevels (fun _ ↦ []) = .ok levels) :
    (levels 0).Pairwise (fun a b ↦ b.number < a.number) ∧
    (((List.finRange numLevels).flatMap levels).map (·.number)).Nodup ∧
    ∀ level, level ≠ 0 →
      (levels level).Pairwise (fun a b ↦ a.largest.userKey < b.smallest.userKey) ∧
      ∀ key file, (file ∈ levels level ∧ file.smallest.userKey ≤ key ∧ key ≤ file.largest.userKey) ↔
        ((levels level)[partitionPoint (·.largest.userKey < key) (levels level)]?).filter
          (·.Covers key) = some file := by
  obtain ⟨version, -, rfl⟩ := (Version.foldlM_applyLevels_eq_ok .empty).mp h
  refine ⟨version.newest_first, ?_, fun level hlevel ↦ ⟨version.disjoint level hlevel,
    fun key file ↦ ?_⟩⟩
  · rw [List.Nodup, List.pairwise_map, List.pairwise_flatMap]
    refine ⟨fun level _ ↦ version.distinct.within level, ?_⟩
    exact (List.nodup_finRange numLevels).imp fun hne a ha b hb ↦
      version.distinct.across _ _ hne a ha b hb
  · rw [← levelCandidate_eq_partitionPoint (version.disjoint level hlevel)]
    exact ⟨fun ⟨hfile, hcovers⟩ ↦ levelCandidate_eq_some (version.disjoint level hlevel) hfile
      hcovers, mem_of_levelCandidate⟩

private theorem someSequence_lt : (5 : SequenceNumber).val < maxU64 := by decide

private theorem someSize_ne : (100 : U64) ≠ 0 := by decide

private def someKey (byte : Byte) : InternalKey := ⟨[byte], 5, .value, someSequence_lt⟩

private theorem someNumber_ne (number : U64) : max 1 number ≠ 0 :=
  fun h ↦ absurd (h ▸ le_max_left 1 number) (by decide)

/-- A table with keys of one byte. -/
private def someTable (number : U64) (low high : Byte) : FileMeta :=
  ⟨max 1 number, 100, someKey low, max (someKey low) (someKey high), someNumber_ne number,
    someSize_ne, le_max_left _ _⟩

private def oldFlush : FileMeta := someTable 3 1 9
private def midFlush : FileMeta := someTable 4 1 9
private def newFlush : FileMeta := someTable 7 1 3
private def lowTable : FileMeta := someTable 5 1 3
private def highTable : FileMeta := someTable 6 4 6

/-- Two flushes, a compaction of the older one into two tables, and one more flush. -/
private def someEdits : List VersionEdit :=
  [{ addedFiles := [(0, oldFlush)] },
    { addedFiles := [(0, midFlush)] },
    { deletedFiles := [(0, 3)], addedFiles := [(1, highTable), (1, lowTable)] },
    { addedFiles := [(0, newFlush)] }]

/-- Of two tables in level zero the newer is first, those of level one are sorted, and the search
there finds the table of each key, and none between them. -/
theorem applyLevels_invariant_flushed : ∃ levels,
    someEdits.foldlM Version.applyLevels (fun _ ↦ []) = .ok levels ∧
    levels 0 = [newFlush, midFlush] ∧ levels 1 = [lowTable, highTable] ∧
    (levels 0).Pairwise (fun a b ↦ b.number < a.number) ∧
    (levels 1).Pairwise (fun a b ↦ a.largest.userKey < b.smallest.userKey) ∧
    ((levels 1)[partitionPoint (·.largest.userKey < [2]) (levels 1)]?).filter (·.Covers [2])
      = some lowTable ∧
    ((levels 1)[partitionPoint (·.largest.userKey < [5]) (levels 1)]?).filter (·.Covers [5])
      = some highTable ∧
    ((levels 1)[partitionPoint (·.largest.userKey < [7]) (levels 1)]?).filter (·.Covers [7])
      = none := by
  have hrun : someEdits.foldlM Version.applyLevels (fun _ ↦ []) = .ok _ := rfl
  obtain ⟨hzero, -, hlevels⟩ := applyLevels_invariant hrun
  obtain ⟨hsorted, hsearch⟩ := hlevels 1 (by decide)
  have hone : ∀ file ∈ [lowTable, highTable],
      ¬(file.smallest.userKey ≤ [7] ∧ [7] ≤ file.largest.userKey) := by decide
  refine ⟨_, hrun, rfl, rfl, hzero, hsorted, (hsearch [2] lowTable).mp (by decide +kernel),
    (hsearch [5] highTable).mp (by decide +kernel), Option.eq_none_iff_forall_ne_some.mpr ?_⟩
  intro file hfile
  obtain ⟨hmem, hcovers⟩ := (hsearch [7] file).mpr hfile
  exact hone file hmem hcovers

/-! ## Lookups are exact -/

theorem Answers.congr {entries entries' : Set InternalEntry} {key : Bytes}
    {sequence : SequenceNumber} {answer : Option InternalEntry}
    (h : Answers entries key sequence answer)
    (hmem : ∀ entry : InternalEntry, entry.key.userKey = key →
      (entry ∈ entries' ↔ entry ∈ entries)) :
    Answers entries' key sequence answer := by
  cases answer with
  | none => exact fun entry hentry huser ↦ h entry ((hmem entry huser).mp hentry) huser
  | some entry =>
    exact ⟨(hmem entry h.userKey).mpr h.mem, h.userKey, h.sequence_le,
      fun other hother huser ↦ h.newest other ((hmem other huser).mp hother) huser⟩

/-- The first answer of some sources, in the order they are asked, is right for all of them. -/
theorem answers_findSome? {ι : Type} {sources : List ι} {contents : ι → List InternalEntry}
    (hstrict : ∀ source ∈ sources, StrictRun (contents source))
    (hasked : sources.Pairwise fun source other ↦
      ∀ a ∈ contents source, ∀ b ∈ contents other, NewerFirst a b)
    (key : Bytes) (sequence : SequenceNumber) :
    Answers {entry | ∃ source ∈ sources, entry ∈ contents source} key sequence
      (sources.findSome? fun source ↦ newest key sequence (contents source)) := by
  induction sources with
  | nil => exact fun entry ⟨source, hsource, _⟩ ↦ absurd hsource List.not_mem_nil
  | cons source sources ih =>
    obtain ⟨hsource, hsources⟩ := List.forall_mem_cons.mp hstrict
    obtain ⟨hfirst, hrest⟩ := List.pairwise_cons.mp hasked
    have hor := (answers_newest hsource key sequence).or (ih hsources hrest) (by
      rintro x hx y ⟨other, hother, hy⟩ -
      exact hfirst other hother x hx y hy)
    have heq : (source :: sources).findSome? (fun source ↦ newest key sequence (contents source))
        = (newest key sequence (contents source)).or
          (sources.findSome? fun source ↦ newest key sequence (contents source)) := by
      rw [List.findSome?_cons]
      cases newest key sequence (contents source) <;> rfl
    rw [heq]
    refine hor.congr fun entry _ ↦ ?_
    simp

variable {version : Version} {contents : FileMeta → List InternalEntry}

theorem Version.mem_candidates {key : Bytes} {file : FileMeta} :
    file ∈ version.candidates key ↔ ∃ level, file ∈ version.levels level ∧ file.Covers key := by
  rw [candidates, List.mem_append, List.mem_filter, List.mem_filterMap]
  constructor
  · rintro (⟨hfile, hcovers⟩ | ⟨level, -, hcandidate⟩)
    · exact ⟨0, hfile, by simpa using hcovers⟩
    · exact ⟨level, mem_of_levelCandidate hcandidate⟩
  · rintro ⟨level, hfile, hcovers⟩
    by_cases hlevel : level = 0
    · subst hlevel
      exact .inl ⟨hfile, by simpa using hcovers⟩
    · refine .inr ⟨level, ?_, levelCandidate_eq_some (version.disjoint level hlevel) hfile hcovers⟩
      rw [List.finRange_succ, List.drop_one, List.tail_cons, List.mem_map]
      exact ⟨level.pred hlevel, List.mem_finRange _, Fin.succ_pred level hlevel⟩

private theorem Layered.candidates_pairwise (h : Layered version contents) (key : Bytes) :
    (version.candidates key).Pairwise (AskedFirst contents) := by
  rw [Version.candidates, List.pairwise_append]
  refine ⟨?_, ?_, ?_⟩
  · have hpairs : (version.levels 0).Pairwise (AskedFirst contents) :=
      version.newest_first.imp_of_mem fun ha hb hlt ↦ h.zero _ ha _ hb hlt
    exact hpairs.filter _
  · have hlevels : ((List.finRange numLevels).drop 1).Pairwise (· < ·) :=
      (List.pairwise_lt_finRange numLevels).drop
    refine hlevels.filterMap _ fun i j hij file hfile other hother ↦ ?_
    exact h.across i j hij file (mem_of_levelCandidate hfile).1 other
      (mem_of_levelCandidate hother).1
  · intro file hfile other hother
    obtain ⟨level, hlevel, hcandidate⟩ := List.mem_filterMap.mp hother
    have hpos : 0 < level := by
      rw [List.finRange_succ, List.drop_one, List.tail_cons, List.mem_map] at hlevel
      obtain ⟨i, -, rfl⟩ := hlevel
      exact Fin.succ_pos i
    exact h.across 0 level hpos file (List.mem_filter.mp hfile).1 other
      (mem_of_levelCandidate hcandidate).1

/-- **A lookup returns the newest visible entry of the version.** -/
theorem Layered.answers_search (h : Layered version contents) (key : Bytes)
    (sequence : SequenceNumber) :
    Answers (version.entries contents) key sequence (version.search contents key sequence) := by
  have hstrict : ∀ file ∈ version.candidates key, StrictRun (contents file) := by
    intro file hfile
    obtain ⟨level, hmem, -⟩ := Version.mem_candidates.mp hfile
    exact h.strict level file hmem
  refine (answers_findSome? hstrict (h.candidates_pairwise key) key sequence).congr
    fun entry huser ↦ ?_
  constructor
  · rintro ⟨level, file, hfile, hentry⟩
    exact ⟨file, Version.mem_candidates.mpr
      ⟨level, hfile, huser ▸ h.covers level file hfile entry hentry⟩, hentry⟩
  · rintro ⟨file, hfile, hentry⟩
    obtain ⟨level, hmem, -⟩ := Version.mem_candidates.mp hfile
    exact ⟨level, file, hmem, hentry⟩

/-! ### Entries are told apart by user key and sequence -/

theorem StrictRun.eq_of_sequence_eq {entries : List InternalEntry} (h : StrictRun entries)
    {a b : InternalEntry} (ha : a ∈ entries) (hb : b ∈ entries)
    (huser : a.key.userKey = b.key.userKey) (hsequence : a.key.sequence = b.key.sequence) :
    a = b := by
  by_contra hne
  have hdiffer : entries.Pairwise fun a b ↦
      a.key.userKey = b.key.userKey → a.key.sequence ≠ b.key.sequence :=
    h.newer_first.imp fun hnewer huser ↦ (hnewer huser).ne'
  have hsymm : Std.Symm fun a b : InternalEntry ↦
      a.key.userKey = b.key.userKey → a.key.sequence ≠ b.key.sequence :=
    ⟨fun _ _ hab huser ↦ (hab huser.symm).symm⟩
  exact hdiffer.forall ha hb hne huser hsequence

theorem Version.eq_of_number_eq {i j : Fin numLevels} {file other : FileMeta}
    (hfile : file ∈ version.levels i) (hother : other ∈ version.levels j)
    (hnumber : file.number = other.number) : i = j ∧ file = other := by
  obtain rfl : i = j := by
    by_contra hij
    exact version.distinct.across i j hij file hfile other hother hnumber
  refine ⟨rfl, ?_⟩
  by_contra hne
  have hsymm : Std.Symm fun a b : FileMeta ↦ a.number ≠ b.number := ⟨fun _ _ hab ↦ hab.symm⟩
  exact (version.distinct.within i).forall hfile hother hne hnumber

theorem Version.eq_of_covers {i : Fin numLevels} (hi : i ≠ 0) {file other : FileMeta}
    (hfile : file ∈ version.levels i) (hother : other ∈ version.levels i) {key : Bytes}
    (hcovers : file.Covers key) (hcovers' : other.Covers key) : file = other := by
  have heq := levelCandidate_eq_some (version.disjoint i hi) hfile hcovers
  rw [levelCandidate_eq_some (version.disjoint i hi) hother hcovers'] at heq
  exact (Option.some.inj heq).symm

/-- Of two different tables that share a user key, one holds only newer versions of it. -/
theorem Layered.newer_or (h : Layered version contents) {i j : Fin numLevels}
    {file other : FileMeta} (hfile : file ∈ version.levels i) (hother : other ∈ version.levels j)
    (hne : file ≠ other) : AskedFirst contents file other ∨ AskedFirst contents other file := by
  rcases lt_trichotomy i j with hij | rfl | hij
  · exact .inl (h.across i j hij file hfile other hother)
  · by_cases hzero : i = 0
    · subst hzero
      rcases lt_trichotomy file.number other.number with hlt | heq | hlt
      · exact .inr (h.zero other hother file hfile hlt)
      · exact absurd (Version.eq_of_number_eq hfile hother heq).2 hne
      · exact .inl (h.zero file hfile other hother hlt)
    · refine .inl fun a ha b hb huser ↦ absurd ?_ hne
      exact Version.eq_of_covers hzero hfile hother (h.covers i file hfile a ha)
        (huser ▸ h.covers i other hother b hb)
  · exact .inr (h.across j i hij other hother file hfile)

theorem Layered.eq_of_sequence_eq (h : Layered version contents) {a b : InternalEntry}
    (ha : a ∈ version.entries contents) (hb : b ∈ version.entries contents)
    (huser : a.key.userKey = b.key.userKey) (hsequence : a.key.sequence = b.key.sequence) :
    a = b := by
  obtain ⟨i, file, hfile, ha⟩ := ha
  obtain ⟨j, other, hother, hb⟩ := hb
  by_cases heq : file = other
  · subst heq
    exact (h.strict i file hfile).eq_of_sequence_eq ha hb huser hsequence
  · rcases h.newer_or hfile hother heq with hnewer | hnewer
    · exact absurd hsequence (hnewer a ha b hb huser).ne'
    · exact absurd hsequence (hnewer b hb a ha huser.symm).ne

end MeteorDB
