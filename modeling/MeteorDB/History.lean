import MeteorDB.Backlog
import MeteorDB.Lib.VersionedMap

/-!
# The history of commits

What an engine is for can be said without its memtables, tables and logs: there is a history of
batches, the one with sequence `i + 1` at place `i`, and a read at a sequence returns what the
commits up to it have left for its key (`valueAt`).

`Presents` connects the two views. Some entries present a history up to a sequence if every read
that is still allowed, at the oldest snapshot or later, finds in them what the history says.
Compactions drop entries that no such read can find, so this is weaker than holding all entries of
the history. On disk the commits above the last sequence of the manifest are in the pending WALs,
each of them once and in order (`Logged`); `Durable` collects what a crash must leave intact.
-/

namespace MeteorDB

open Engine

/-! ## The abstract history -/

/-- A batch is the commit with a sequence. -/
def CommittedAt (history : List WriteBatch) (sequence : SequenceNumber) (batch : WriteBatch) :
    Prop :=
  ∃ i, history[i]? = some batch ∧ sequence.val = i + 1

/-- The value of a key after the first commits, at a time. -/
def valueAt (history : List WriteBatch) (n : ℕ) (key : Bytes) (readTimeUnixMs : U64) :
    Option Bytes :=
  (VersionedMap.lookup (history.map WriteBatch.recordFor) n key).bind
    fun record ↦ record.intoValue readTimeUnixMs

/-- The entries of the commits above a sequence. -/
def historyEntries (history : List WriteBatch) (low : SequenceNumber) : Set InternalEntry :=
  {entry | ∃ sequence batch, low < sequence ∧ CommittedAt history sequence batch ∧
    entry ∈ batchEntries sequence batch}

variable {history : List WriteBatch} {batch other : WriteBatch} {sequence low : SequenceNumber}

theorem CommittedAt.pos (h : CommittedAt history sequence batch) : 0 < sequence.val := by
  obtain ⟨i, -, hi⟩ := h
  omega

theorem CommittedAt.le_length (h : CommittedAt history sequence batch) :
    sequence.val ≤ history.length := by
  obtain ⟨i, hbatch, hi⟩ := h
  have := (List.getElem?_eq_some_iff.mp hbatch).1
  omega

theorem exists_committedAt (hpos : 0 < sequence.val) (hle : sequence.val ≤ history.length) :
    ∃ batch, CommittedAt history sequence batch := by
  have hlt : sequence.val - 1 < history.length := by omega
  exact ⟨history[sequence.val - 1], _, List.getElem?_eq_getElem hlt, by omega⟩

theorem committedAt_append_singleton : CommittedAt (history ++ [batch]) sequence other ↔
    CommittedAt history sequence other ∨ sequence.val = history.length + 1 ∧ other = batch := by
  constructor
  · rintro ⟨i, hother, hi⟩
    rcases Nat.lt_or_ge i history.length with hlt | hge
    · rw [List.getElem?_append_left hlt] at hother
      exact .inl ⟨i, hother, hi⟩
    · have hlength := (List.getElem?_eq_some_iff.mp hother).1
      rw [List.length_append, List.length_singleton] at hlength
      obtain rfl : i = history.length := by omega
      rw [List.getElem?_concat_length] at hother
      exact .inr ⟨hi, (Option.some.inj hother).symm⟩
  · rintro (⟨i, hother, hi⟩ | ⟨hsequence, rfl⟩)
    · have hlt := (List.getElem?_eq_some_iff.mp hother).1
      exact ⟨i, by rwa [List.getElem?_append_left hlt], hi⟩
    · exact ⟨history.length, List.getElem?_concat_length, hsequence⟩

theorem mem_batchEntries {entry : InternalEntry} (h : entry ∈ batchEntries sequence batch) :
    entry.key.sequence = sequence ∧ batch.recordFor entry.key.userKey = some entry.record := by
  obtain ⟨_, userKey, record, hrecord, rfl⟩ := h
  exact ⟨rfl, hrecord⟩

theorem historyEntries_append_singleton (hlow : low.val ≤ history.length)
    (hsequence : sequence.val = history.length + 1) :
    historyEntries (history ++ [batch]) low
      = historyEntries history low ∪ batchEntries sequence batch := by
  ext entry
  constructor
  · rintro ⟨other, found, hlt, hcommitted, hentry⟩
    rcases committedAt_append_singleton.mp hcommitted with hcommitted | ⟨hother, rfl⟩
    · exact .inl ⟨other, found, hlt, hcommitted, hentry⟩
    · obtain rfl : other = sequence := Fin.ext (hother.trans hsequence.symm)
      exact .inr hentry
  · rintro (⟨other, found, hlt, hcommitted, hentry⟩ | hentry)
    · exact ⟨other, found, hlt, committedAt_append_singleton.mpr (.inl hcommitted), hentry⟩
    · exact ⟨sequence, batch, Fin.lt_def.mpr (by omega),
        committedAt_append_singleton.mpr (.inr ⟨hsequence, rfl⟩), hentry⟩

/-! ## Entries that present a history -/

/-- Every read from `floor` on, at the time `clock` or later, finds in the entries what the commits
up to `top` have left. -/
def Presents (history : List WriteBatch) (floor : ℕ) (clock : U64) (top : ℕ)
    (entries : Set InternalEntry) : Prop :=
  ∀ key (sequence : SequenceNumber) time answer, floor ≤ sequence.val → clock ≤ time →
    Answers entries key sequence answer →
      (answer.bind fun entry ↦ entry.record.intoValue time)
        = valueAt history (min sequence.val top) key time

variable {floor top : ℕ} {clock : U64} {entries : Set InternalEntry}

theorem Presents.mono {floor' : ℕ} {clock' : U64} (h : Presents history floor clock top entries)
    (hfloor : floor ≤ floor') (hclock : clock ≤ clock') :
    Presents history floor' clock' top entries :=
  fun key sequence time answer hle htime ↦
    h key sequence time answer (hfloor.trans hle) (hclock.trans htime)

theorem Presents.append (h : Presents history floor clock top entries) (htop : top ≤ history.length)
    (more : List WriteBatch) : Presents (history ++ more) floor clock top entries := by
  intro key sequence time answer hfloor hclock hanswer
  rw [h key sequence time answer hfloor hclock hanswer, valueAt, valueAt, List.map_append,
    VersionedMap.lookup_append]
  rw [List.length_map]
  exact (Nat.min_le_right _ _).trans htop

theorem presents_empty : Presents [] floor clock top ∅ := by
  intro key sequence time answer _ _ hanswer
  cases answer with
  | none => simp [valueAt, VersionedMap.lookup]
  | some entry => exact absurd hanswer.mem (Set.notMem_empty _)

/-- **More commits.** Entries that present a history, together with those of some later commits,
present more of it. -/
theorem Presents.add (h : Presents history floor clock low.val entries)
    (hentries : ∀ entry ∈ entries, entry.key.sequence ≤ low) (htop : low.val ≤ top)
    {later : Set InternalEntry}
    (hlater : ∀ entry, entry ∈ later ↔
      entry ∈ historyEntries history low ∧ entry.key.sequence.val ≤ top)
    (hlength : history.length < maxU64) :
    Presents history floor clock top (entries ∪ later) := by
  intro key sequence time answer hfloor hclock hanswer
  set commits := history.map WriteBatch.recordFor with hcommits
  -- A commit that has a record for the key and can be read has an entry.
  have hentry : ∀ (i : ℕ) (commit : Bytes → Option ValueRecord) (record : ValueRecord),
      low.val ≤ i → i < min sequence.val top → commits[i]? = some commit →
      commit key = some record → ∃ entry ∈ later, entry.key.userKey = key ∧
        entry.key.sequence.val = i + 1 ∧ entry.key.sequence ≤ sequence := by
    intro i commit record hlow hi hcommit hrecord
    rw [hcommits, List.getElem?_map, Option.map_eq_some_iff] at hcommit
    obtain ⟨batch, hbatch, rfl⟩ := hcommit
    have hlt := (List.getElem?_eq_some_iff.mp hbatch).1
    have hmax : i + 1 < maxU64 := by omega
    have hrange : i + 1 < 2 ^ 64 := hmax.trans (by decide)
    refine ⟨MemTable.entryAt ⟨i + 1, hrange⟩ hmax key record, (hlater _).mpr ⟨?_, ?_⟩, rfl, rfl, ?_⟩
    · exact ⟨⟨i + 1, hrange⟩, batch, Fin.lt_def.mpr (Nat.lt_succ_of_le hlow), ⟨i, hbatch, rfl⟩,
        hmax, key, record, hrecord, rfl⟩
    · exact (Nat.le_min.mp hi).2
    · exact Fin.le_def.mpr (Nat.le_min.mp hi).1
  by_cases hnew : ∃ entry ∈ later, entry.key.userKey = key ∧ entry.key.sequence ≤ sequence
  · -- The newest visible entry is one of the later ones.
    obtain ⟨seen, hseen, hseenKey, hseenLe⟩ := hnew
    obtain ⟨⟨_, _, hseenLow, -, hseenEntry⟩, -⟩ := (hlater seen).mp hseen
    rw [← (mem_batchEntries hseenEntry).1] at hseenLow
    cases answer with
    | none => exact absurd hseenLe (hanswer seen (.inr hseen) hseenKey)
    | some entry =>
      have hge := hanswer.newest seen (.inr hseen) hseenKey hseenLe
      have hmem : entry ∈ later := hanswer.mem.resolve_left fun hold ↦
        absurd ((hentries entry hold).trans_lt hseenLow) (not_lt.mpr hge)
      obtain ⟨⟨other, batch, hlow, ⟨i, hbatch, hi⟩, hbatchEntry⟩, hle⟩ := (hlater entry).mp hmem
      obtain ⟨rfl, hrecord⟩ := mem_batchEntries hbatchEntry
      rw [hanswer.userKey] at hrecord
      have hvisible := Fin.le_def.mp hanswer.sequence_le
      have hlookup : VersionedMap.lookup commits (min sequence.val top) key
          = some entry.record := by
        have hcommit : commits[i]? = some batch.recordFor := by
          rw [hcommits, List.getElem?_map, hbatch]
          rfl
        refine VersionedMap.lookup_eq_some hcommit hrecord (by omega)
          fun j hij hj commit hother ↦ ?_
        by_contra htouched
        obtain ⟨record, hnewerRecord⟩ := Option.ne_none_iff_exists'.mp htouched
        obtain ⟨newer, hnewer, hkey, hsequence, hnewerLe⟩ := hentry j commit record
          (by have := Fin.lt_def.mp hlow; omega) hj hother hnewerRecord
        have := Fin.le_def.mp (hanswer.newest newer (.inr hnewer) hkey hnewerLe)
        omega
      rw [valueAt, hlookup]
      rfl
  · -- Nothing above `low` can be seen.
    have hold : Answers entries key sequence answer := by
      cases answer with
      | none => exact fun entry hmem ↦ hanswer entry (.inl hmem)
      | some entry =>
        have hmem : entry ∈ entries := hanswer.mem.resolve_right fun hmem ↦
          hnew ⟨entry, hmem, hanswer.userKey, hanswer.sequence_le⟩
        exact ⟨hmem, hanswer.userKey, hanswer.sequence_le,
          fun other hother ↦ hanswer.newest other (.inl hother)⟩
    rw [h key sequence time answer hfloor hclock hold, valueAt, valueAt]
    congr 1
    refine (VersionedMap.lookup_of_untouched (min_le_min_left _ htop)
      fun i hi hlt commit hcommit ↦ ?_).symm
    by_contra htouched
    obtain ⟨record, hrecord⟩ := Option.ne_none_iff_exists'.mp htouched
    obtain ⟨entry, hmem, hkey, -, hle⟩ := hentry i commit record (by omega) hlt hcommit hrecord
    exact hnew ⟨entry, hmem, hkey, hle⟩

/-- In a layered version it is enough that searches find what the history says. -/
theorem Layered.presents_iff {version : Version} {contents : FileMeta → List InternalEntry}
    (h : Layered version contents) :
    Presents history floor clock top (version.entries contents) ↔
      ∀ key (sequence : SequenceNumber) time, floor ≤ sequence.val → clock ≤ time →
        version.lookup contents key sequence time
          = valueAt history (min sequence.val top) key time := by
  have hone : OnePerSequence (version.entries contents) :=
    fun a ha b hb huser hsequence ↦ h.eq_of_sequence_eq ha hb huser hsequence
  constructor
  · intro hpresents key sequence time hfloor hclock
    exact hpresents key sequence time _ hfloor hclock (h.answers_search key sequence)
  · intro hlookup key sequence time answer hfloor hclock hanswer
    rw [hanswer.unique hone (h.answers_search key sequence)]
    exact hlookup key sequence time hfloor hclock

/-! ## On disk -/

/-- The commits above the last sequence of the manifest are in the pending WALs, in order. -/
structure Logged (history : List WriteBatch) (d : Directory) : Prop where
  faithful : ∀ segment ∈ d.pending, ∀ record ∈ segment.records,
    d.manifest.counters.lastSequence < record.sequence ∧
      CommittedAt history record.sequence record.batch
  complete : ∀ sequence batch, CommittedAt history sequence batch →
    d.manifest.counters.lastSequence < sequence →
      ∃ segment ∈ d.pending, (⟨sequence, batch⟩ : RecoveredBatch) ∈ segment.records
  ascending : ∀ segment ∈ d.pending, segment.records.Pairwise fun a b ↦ a.sequence < b.sequence
  ordered : ∀ segment ∈ d.pending, ∀ later ∈ d.pending, segment.number < later.number →
    ∀ a ∈ segment.records, ∀ b ∈ later.records, a.sequence < b.sequence

variable {d d' : Directory}

/-- Only the pending WALs matter. -/
theorem Logged.congr (h : Logged history d)
    (hlast : d'.manifest.counters.lastSequence = d.manifest.counters.lastSequence)
    (hpending : ∀ segment, segment ∈ d'.pending ↔ segment ∈ d.pending) : Logged history d' where
  faithful segment hsegment := by
    rw [hlast]
    exact h.faithful segment ((hpending segment).mp hsegment)
  complete sequence batch hcommitted hlt := by
    obtain ⟨segment, hsegment, hrecord⟩ := h.complete sequence batch hcommitted (hlast ▸ hlt)
    exact ⟨segment, (hpending segment).mpr hsegment, hrecord⟩
  ascending segment hsegment := h.ascending segment ((hpending segment).mp hsegment)
  ordered segment hsegment later hlater :=
    h.ordered segment ((hpending segment).mp hsegment) later ((hpending later).mp hlater)

/-- An edit moves the last sequence and the oldest WAL past the same commits. -/
theorem Logged.edit (h : Logged history d) {manifest : VersionState}
    (hle : d.manifest.counters.Le manifest.counters)
    (hdivided : ∀ segment ∈ d.pending, ∀ record ∈ segment.records,
      record.sequence ≤ manifest.counters.lastSequence ↔
        segment.number < manifest.counters.logNumber) :
    Logged history { d with manifest } := by
  have hsub := (Directory.pending_edit hle).subset
  refine ⟨fun segment hsegment record hrecord ↦ ?_, fun sequence batch hcommitted hlt ↦ ?_,
    fun segment hsegment ↦ h.ascending segment (hsub hsegment),
    fun segment hsegment later hlater ↦ h.ordered segment (hsub hsegment) later (hsub hlater)⟩
  · obtain ⟨-, -, hlog⟩ := Directory.mem_pending.mp hsegment
    refine ⟨not_le.mp fun hrecordLe ↦ ?_, (h.faithful segment (hsub hsegment) record hrecord).2⟩
    exact absurd ((hdivided segment (hsub hsegment) record hrecord).mp hrecordLe) (not_lt.mpr hlog)
  · obtain ⟨segment, hsegment, hrecord⟩ :=
      h.complete sequence batch hcommitted (hle.lastSequence.trans_lt hlt)
    obtain ⟨hmem, hne, -⟩ := Directory.mem_pending.mp hsegment
    refine ⟨segment, Directory.mem_pending.mpr ⟨hmem, hne, not_lt.mp fun hlog ↦ ?_⟩, hrecord⟩
    exact absurd hlt (not_lt.mpr ((hdivided segment hsegment _ hrecord).mpr hlog))

/-- The next commit is appended to the newest WAL. -/
theorem Logged.append (h : Logged history d) {number : U64} {record : RecoveredBatch}
    (hsequence : record.sequence.val = history.length + 1)
    (hlast : d.manifest.counters.lastSequence.val ≤ history.length)
    (hfile : number ∈ d.wals.map (·.number)) (hlog : d.manifest.counters.logNumber ≤ number)
    (hnewest : ∀ segment ∈ d.pending, segment.number ≤ number) :
    Logged (history ++ [record.batch]) (d.appendWal number record) := by
  have hbelow : ∀ segment ∈ d.pending, ∀ other ∈ segment.records,
      other.sequence < record.sequence := by
    intro segment hsegment other hother
    have := (h.faithful segment hsegment other hother).2.le_length
    exact Fin.lt_def.mpr (by omega)
  -- A WAL is as before, or it is the one that was appended to.
  have hcases : ∀ segment ∈ (d.appendWal number record).pending,
      segment ∈ d.pending ∧ segment.number ≠ number ∨
        segment.number = number ∧ ∃ records, segment.records = records ++ [record] ∧
          (records = [] ∨ ⟨number, records⟩ ∈ d.pending) := by
    intro segment hsegment
    obtain ⟨hmem, hne, hle⟩ := Directory.mem_pending.mp hsegment
    obtain ⟨old, hold, rfl⟩ := List.mem_map.mp hmem
    by_cases hnumber : old.number = number
    · rw [if_pos hnumber] at hle ⊢
      refine .inr ⟨hnumber, old.records, rfl, ?_⟩
      by_cases hempty : old.records = []
      · exact .inl hempty
      · exact .inr (hnumber ▸ Directory.mem_pending.mpr ⟨hold, hempty, hle⟩)
    · rw [if_neg hnumber] at hne hle ⊢
      exact .inl ⟨Directory.mem_pending.mpr ⟨hold, hne, hle⟩, hnumber⟩
  have hkept : ∀ segment ∈ d.pending, ∃ kept ∈ (d.appendWal number record).pending,
      segment.records ⊆ kept.records := by
    intro segment hsegment
    obtain ⟨hmem, hne, hle⟩ := Directory.mem_pending.mp hsegment
    refine ⟨_, Directory.mem_pending.mpr ⟨List.mem_map.mpr ⟨segment, hmem, rfl⟩, ?_, ?_⟩, ?_⟩
    · split_ifs
      · exact List.append_ne_nil_of_right_ne_nil _ (List.cons_ne_nil _ _)
      · exact hne
    · split_ifs <;> exact hle
    · split_ifs
      · exact List.subset_append_left _ _
      · exact List.Subset.refl _
  refine ⟨fun segment hsegment other hother ↦ ?_, fun sequence batch hcommitted hlt ↦ ?_,
    fun segment hsegment ↦ ?_, fun segment hsegment later hlater hnumbers a ha b hb ↦ ?_⟩
  · have hold : ∀ old ∈ d.pending, other ∈ old.records →
        d.manifest.counters.lastSequence < other.sequence ∧
          CommittedAt (history ++ [record.batch]) other.sequence other.batch := fun old hold hmem ↦
      (h.faithful old hold other hmem).imp_right fun hcommitted ↦
        committedAt_append_singleton.mpr (.inl hcommitted)
    rcases hcases segment hsegment with ⟨hsegment, -⟩ | ⟨-, records, hrecords, hpending⟩
    · exact hold segment hsegment hother
    · rw [hrecords] at hother
      rcases List.mem_append.mp hother with hother | hother
      · rcases hpending with rfl | hpending
        · exact absurd hother List.not_mem_nil
        · exact hold _ hpending hother
      · have hlt : d.manifest.counters.lastSequence < record.sequence := Fin.lt_def.mpr (by omega)
        rw [List.mem_singleton.mp hother]
        exact ⟨hlt, committedAt_append_singleton.mpr (.inr ⟨hsequence, rfl⟩)⟩
  · rcases committedAt_append_singleton.mp hcommitted with hcommitted | ⟨hsame, rfl⟩
    · obtain ⟨segment, hsegment, hmem⟩ := h.complete sequence batch hcommitted hlt
      obtain ⟨kept, hpending, hsub⟩ := hkept segment hsegment
      exact ⟨kept, hpending, hsub hmem⟩
    · obtain rfl : sequence = record.sequence := Fin.ext (hsame.trans hsequence.symm)
      obtain ⟨old, hold, rfl⟩ := List.mem_map.mp hfile
      have hmem : { old with records := old.records ++ [record] }
          ∈ (d.appendWal old.number record).wals := List.mem_map.mpr ⟨old, hold, if_pos rfl⟩
      refine ⟨_, Directory.mem_pending.mpr ⟨hmem, ?_, hlog⟩, ?_⟩
      · exact List.append_ne_nil_of_right_ne_nil _ (List.cons_ne_nil _ _)
      · exact List.mem_append_right _ (List.mem_singleton.mpr rfl)
  · rcases hcases segment hsegment with ⟨hsegment, -⟩ | ⟨-, records, hrecords, hpending⟩
    · exact h.ascending segment hsegment
    · rw [hrecords, List.pairwise_append]
      rcases hpending with rfl | hpending
      · exact ⟨.nil, List.pairwise_singleton _ _, nofun⟩
      · refine ⟨h.ascending _ hpending, List.pairwise_singleton _ _, fun a ha b hb ↦ ?_⟩
        rw [List.mem_singleton.mp hb]
        exact hbelow _ hpending a ha
  · rcases hcases segment hsegment with ⟨hsegment, -⟩ | ⟨hnumber, -⟩
    · rcases hcases later hlater with ⟨hlater, -⟩ | ⟨hnumber, records, hrecords, hpending⟩
      · exact h.ordered segment hsegment later hlater hnumbers a ha b hb
      · rw [hrecords] at hb
        rcases List.mem_append.mp hb with hb | hb
        · rcases hpending with rfl | hpending
          · exact absurd hb List.not_mem_nil
          · exact h.ordered segment hsegment _ hpending (hnumber ▸ hnumbers) a ha b hb
        · rw [List.mem_singleton.mp hb]
          exact hbelow segment hsegment a ha
    · -- No WAL is newer than the one that was appended to.
      rw [hnumber] at hnumbers
      rcases hcases later hlater with ⟨hlater, -⟩ | ⟨hnumber', -⟩
      · exact absurd hnumbers (not_lt.mpr (hnewest later hlater))
      · exact absurd hnumbers (hnumber' ▸ lt_irrefl _)

/-- What a crash leaves intact. -/
structure Durable (history : List WriteBatch) (floor : ℕ) (clock : U64) (d : Directory) : Prop where
  sound : d.manifest.Sound d.tables
  presents : Presents history floor clock d.manifest.counters.lastSequence.val
    (d.manifest.version.entries (contentsOf d.tables))
  logged : Logged history d
  last_le : d.manifest.counters.lastSequence.val ≤ history.length
  wal_le : d.manifest.counters.walSequence.val ≤ history.length
  length_lt : history.length < maxU64
  files : ∀ number ∈ [d.manifest.counters.logNumber, d.manifest.counters.activeLogNumber],
    number ≠ 0 → number ∈ d.wals.map (·.number)

theorem Durable.mono {floor' : ℕ} {clock' : U64} (h : Durable history floor clock d)
    (hfloor : floor ≤ floor') (hclock : clock ≤ clock') : Durable history floor' clock' d :=
  { h with presents := h.presents.mono hfloor hclock }

/-- An edit that changes counters only. -/
theorem Durable.counters (h : Durable history floor clock d) {manifest : VersionState}
    (hsound : manifest.Sound d.tables) (hsame : d.manifest.version.SameTables manifest.version)
    (hle : d.manifest.counters.Le manifest.counters)
    (hlast : manifest.counters.lastSequence = d.manifest.counters.lastSequence)
    (hlog : ∀ segment ∈ d.pending, manifest.counters.logNumber ≤ segment.number)
    (hwal : manifest.counters.walSequence.val ≤ history.length)
    (hfiles : ∀ number ∈ [manifest.counters.logNumber, manifest.counters.activeLogNumber],
      number ∈ d.wals.map (·.number)) :
    Durable history floor clock { d with manifest } := by
  refine ⟨hsound, ?_, h.logged.edit hle fun segment hsegment record hrecord ↦ ?_, ?_, hwal,
    h.length_lt, fun number hnumber _ ↦ hfiles number hnumber⟩
  · have hentries : manifest.version.entries (contentsOf d.tables)
        = d.manifest.version.entries (contentsOf d.tables) :=
      Set.Subset.antisymm
        (Version.entries_mono (fun level file ↦ (hsame level file).mp) fun _ _ _ ↦ rfl)
        (Version.entries_mono (fun level file ↦ (hsame level file).mpr) fun _ _ _ ↦ rfl)
    show Presents _ _ _ manifest.counters.lastSequence.val (manifest.version.entries _)
    rw [hlast, hentries]
    exact h.presents
  · rw [hlast]
    exact iff_of_false (not_le.mpr (h.logged.faithful segment hsegment record hrecord).1)
      (not_lt.mpr (hlog segment hsegment))
  · show manifest.counters.lastSequence.val ≤ _
    rw [hlast]
    exact h.last_le

/-- WALs come and go that are not pending. -/
theorem Durable.wals (h : Durable history floor clock d) {wals : List WalSegment}
    (hpending : ∀ segment, segment ∈ { d with wals }.pending ↔ segment ∈ d.pending)
    (hfiles : ∀ number ∈ [d.manifest.counters.logNumber, d.manifest.counters.activeLogNumber],
      number ∈ d.wals.map (·.number) → number ∈ wals.map (·.number)) :
    Durable history floor clock { d with wals } :=
  { h with
    logged := h.logged.congr rfl hpending
    files := fun number hnumber hne ↦ hfiles number hnumber (h.files number hnumber hne) }

/-- Tables come and go that are not in use. -/
theorem Durable.tables (h : Durable history floor clock d)
    {tables : U64 → Option (List InternalEntry)}
    (htables : ∀ number ∈ d.manifest.usedFileNumbers, tables number = d.tables number) :
    Durable history floor clock { d with tables } := by
  have hcontents : ∀ level, ∀ file ∈ d.manifest.version.levels level,
      contentsOf tables file = contentsOf d.tables file := by
    intro level file hfile
    rw [contentsOf, contentsOf, htables _ (h.sound.live level file hfile)]
  have hentries : d.manifest.version.entries (contentsOf tables)
      = d.manifest.version.entries (contentsOf d.tables) :=
    Set.Subset.antisymm (Version.entries_mono (fun _ _ hfile ↦ hfile) hcontents)
      (Version.entries_mono (fun _ _ hfile ↦ hfile) fun level file hfile ↦
        (hcontents level file hfile).symm)
  refine { h with
    sound := h.sound.tables_congr htables
    logged := h.logged.congr rfl fun _ ↦ Iff.rfl
    presents := ?_ }
  show Presents _ _ _ _ (d.manifest.version.entries (contentsOf tables))
  rw [hentries]
  exact h.presents

/-- An empty WAL comes to the others. -/
theorem Durable.addWal (h : Durable history floor clock d) (number : U64) :
    Durable history floor clock (d.addWal number) := by
  refine h.wals (fun segment ↦ ?_) fun other _ hother ↦ ?_
  · show segment ∈ (d.addWal number).pending ↔ _
    rw [Directory.pending_addWal]
  · rw [List.map_append]
    exact List.mem_append_left _ hother

/-- The next commit is logged. -/
theorem Durable.append (h : Durable history floor clock d) {number : U64} (record : RecoveredBatch)
    (hsequence : record.sequence.val = history.length + 1) (hlt : record.sequence.val < maxU64)
    (hfile : number ∈ d.wals.map (·.number)) (hlog : d.manifest.counters.logNumber ≤ number)
    (hnewest : ∀ segment ∈ d.pending, segment.number ≤ number) :
    Durable (history ++ [record.batch]) floor clock (d.appendWal number record) where
  sound := h.sound
  presents := h.presents.append h.last_le [record.batch]
  logged := h.logged.append hsequence h.last_le hfile hlog hnewest
  last_le := by
    rw [List.length_append]
    exact h.last_le.trans (Nat.le_add_right _ _)
  wal_le := by
    rw [List.length_append]
    exact h.wal_le.trans (Nat.le_add_right _ _)
  length_lt := by
    rw [List.length_append, List.length_singleton]
    omega
  files other hother hne := by
    rw [Directory.numbers_appendWal]
    exact h.files other hother hne

/-- A table takes the place of the oldest commits in the WALs. -/
theorem Durable.flush (h : Durable history floor clock d) {manifest : VersionState}
    {file : FileMeta} {entries : List InternalEntry} (hsound : manifest.Sound d.tables)
    (hversion : ∀ level other, other ∈ manifest.version.levels level ↔
      other ∈ d.manifest.version.levels level ∨ level = 0 ∧ other = file)
    (htable : d.tables file.number = some entries)
    (hentries : ∀ entry, entry ∈ entries ↔
      entry ∈ historyEntries history d.manifest.counters.lastSequence ∧
        entry.key.sequence ≤ manifest.counters.lastSequence)
    (hle : d.manifest.counters.Le manifest.counters)
    (hdivided : ∀ segment ∈ d.pending, ∀ record ∈ segment.records,
      record.sequence ≤ manifest.counters.lastSequence ↔
        segment.number < manifest.counters.logNumber)
    (hlast : manifest.counters.lastSequence.val ≤ history.length)
    (hwal : manifest.counters.walSequence.val ≤ history.length)
    (hfiles : ∀ number ∈ [manifest.counters.logNumber, manifest.counters.activeLogNumber],
      number ∈ d.wals.map (·.number)) :
    Durable history floor clock { d with manifest } := by
  have hcontents : contentsOf d.tables file = entries := by rw [contentsOf, htable]; rfl
  have hunion : manifest.version.entries (contentsOf d.tables)
      = d.manifest.version.entries (contentsOf d.tables) ∪ {entry | entry ∈ entries} := by
    ext entry
    constructor
    · rintro ⟨level, other, hother, hentry⟩
      rcases (hversion level other).mp hother with hother | ⟨-, rfl⟩
      · exact .inl ⟨level, other, hother, hentry⟩
      · exact .inr (hcontents ▸ hentry)
    · rintro (⟨level, other, hother, hentry⟩ | hentry)
      · exact ⟨level, other, (hversion level other).mpr (.inl hother), hentry⟩
      · exact ⟨0, file, (hversion 0 file).mpr (.inr ⟨rfl, rfl⟩), hcontents ▸ hentry⟩
  refine ⟨hsound, ?_, h.logged.edit hle hdivided, hlast, hwal, h.length_lt,
    fun number hnumber _ ↦ hfiles number hnumber⟩
  show Presents _ _ _ _ (manifest.version.entries (contentsOf d.tables))
  rw [hunion]
  exact h.presents.add h.sound.sequence_le (Fin.le_def.mp hle.lastSequence)
    (fun entry ↦ hentries entry) h.length_lt

/-- A compaction keeps what can be read from the oldest snapshot on. -/
theorem Durable.compact (h : Durable history floor clock d) {manifest : VersionState}
    {tables : U64 → Option (List InternalEntry)} {context : CompactionContext}
    {plan : CompactionPlan} {merged : List InternalEntry} {outputs : List CompactedTable}
    {next : U64} {blocks : List (List (List InternalEntry))} (hsound : manifest.Sound tables)
    (hcounters : manifest.counters = { d.manifest.counters with nextFileNumber := next })
    (hcompacts : Compacts d.manifest.version manifest.version (contentsOf d.tables)
      (contentsOf tables) context plan merged outputs next blocks)
    (hsnapshot : ∀ snapshot ∈ context.oldestActiveSnapshot, snapshot.val ≤ floor)
    (hnone : context.oldestActiveSnapshot = none →
      d.manifest.counters.lastSequence.val ≤ floor)
    (htime : context.readTimeUnixMs ≤ clock) :
    Durable history floor clock { d with manifest, tables } := by
  have hlast : manifest.counters.lastSequence = d.manifest.counters.lastSequence := by
    rw [hcounters]
  have hlog : manifest.counters.logNumber = d.manifest.counters.logNumber := by rw [hcounters]
  have hactive : manifest.counters.activeLogNumber = d.manifest.counters.activeLogNumber := by
    rw [hcounters]
  have hwal : manifest.counters.walSequence = d.manifest.counters.walSequence := by rw [hcounters]
  have hpending : ∀ segment, segment ∈ ({ d with manifest, tables } : Directory).pending ↔
      segment ∈ d.pending := by
    intro segment
    rw [Directory.mem_pending, Directory.mem_pending]
    show _ ∧ _ ∧ manifest.counters.logNumber ≤ _ ↔ _
    rw [hlog]
  refine ⟨hsound, ?_, h.logged.congr hlast hpending, ?_, ?_, h.length_lt, fun number hnumber ↦ ?_⟩
  · show Presents _ _ _ manifest.counters.lastSequence.val
      (manifest.version.entries (contentsOf tables))
    rw [hlast, hcompacts.layered'.presents_iff]
    intro key sequence time hfloor hclock
    have hreadable : Readable (d.manifest.version.entries (contentsOf d.tables))
        context.oldestActiveSnapshot sequence := by
      refine ⟨fun snapshot hmem ↦ Fin.le_def.mpr ((hsnapshot snapshot hmem).trans hfloor),
        fun hnil entry hentry ↦ ?_⟩
      exact (h.sound.sequence_le entry hentry).trans (Fin.le_def.mpr ((hnone hnil).trans hfloor))
    rw [hcompacts.lookup_eq hreadable (htime.trans hclock)]
    exact h.sound.layered.presents_iff.mp h.presents key sequence time hfloor hclock
  · show manifest.counters.lastSequence.val ≤ _
    rw [hlast]
    exact h.last_le
  · show manifest.counters.walSequence.val ≤ _
    rw [hwal]
    exact h.wal_le
  · have hold := h.files number
    rw [← hlog, ← hactive] at hold
    exact hold hnumber

end MeteorDB
