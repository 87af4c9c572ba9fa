import MeteorDB.HistorySections
import MeteorDB.InspectWals

/-!
# Opening recovers the history

The pending WALs of a directory that agrees with a history hold its last commits, one record for
each. Sorted by the numbers of the WALs the records count up from the last sequence of the manifest
to the length of the history (`Logged.runs`), so recovery succeeds; and the memtables it makes hold
the entries of these commits (`Replays`). What opening writes and removes afterwards keeps the
directory `Durable` at every step, so a crash while opening loses nothing either.
-/

namespace MeteorDB

open Attempt Decoder

/-! ## The sequences in the pending WALs -/

/-- An ascending list that has all numbers of an interval counts up through it. -/
theorem runs_of_ascending {previous last : ℕ} {l : List ℕ} (h : l.Pairwise (· < ·))
    (hle : previous ≤ last) (hmem : ∀ n, n ∈ l ↔ previous < n ∧ n ≤ last) :
    Runs previous l last := by
  induction l generalizing previous with
  | nil =>
    by_contra hne
    have hlt : previous < last := lt_of_le_of_ne hle fun heq ↦ hne heq.symm
    exact absurd ((hmem last).mpr ⟨hlt, le_refl _⟩) List.not_mem_nil
  | cons a l ih =>
    obtain ⟨hfirst, hrest⟩ := List.pairwise_cons.mp h
    obtain ⟨hlt, hale⟩ := (hmem a).mp (List.mem_cons_self ..)
    have hnext : a = previous + 1 := by
      rcases List.mem_cons.mp ((hmem (previous + 1)).mpr ⟨Nat.lt_succ_self _, by omega⟩) with
        heq | hmem
      · exact heq.symm
      · have := hfirst _ hmem
        omega
    refine ⟨hnext, ih hrest hale fun n ↦ ⟨fun hn ↦ ?_, fun ⟨han, hn⟩ ↦ ?_⟩⟩
    · exact ⟨hfirst n hn, ((hmem n).mp (List.mem_cons_of_mem _ hn)).2⟩
    · rcases List.mem_cons.mp ((hmem n).mpr ⟨by omega, hn⟩) with rfl | hn
      · exact absurd han (lt_irrefl _)
      · exact hn

namespace Engine

variable {limit : ℕ} {d : Directory} {segments : List WalSegment}

/-- Of the selected WALs, those with records are the pending ones. -/
theorem mem_selected_iff (hback : d.Backlog limit)
    (hselect : selectWals d.manifest.counters (walPaths d) = .ok segments) {segment : WalSegment}
    (hne : segment.records ≠ []) : segment ∈ segments ↔ segment ∈ d.pending := by
  obtain ⟨hsub, hlog⟩ := selectWals_eq_ok hselect
  rw [Directory.mem_pending]
  constructor
  · intro hmem
    exact ⟨(walPaths_perm d).subset (hsub.subset hmem), hne, hlog segment hmem⟩
  · rintro ⟨hmem, -, hle⟩
    have hwritten := hback.written segment hmem
    exact (mem_of_selectWals hselect ((walPaths_perm d).mem_iff.mpr hmem) hwritten.number_ne hle
      (hwritten.number_le hne)).1

private theorem selected_ascending (hback : d.Backlog limit)
    (hselect : selectWals d.manifest.counters (walPaths d) = .ok segments) :
    segments.Pairwise fun a b ↦ a.number < b.number :=
  List.pairwise_map.mp
    ((walPaths_ascending hback.nodup).sublist ((selectWals_eq_ok hselect).1.map _))

end Engine

open Engine

/-- **The log is complete.** The records to be replayed count up to the length of the history. -/
theorem Logged.runs {history : List WriteBatch} {limit : ℕ} {d : Directory}
    {segments : List WalSegment} (h : Logged history d) (hback : d.Backlog limit)
    (hlast : d.manifest.counters.lastSequence.val ≤ history.length)
    (hlength : history.length < maxU64)
    (hselect : selectWals d.manifest.counters (walPaths d) = .ok segments) :
    Runs d.manifest.counters.lastSequence.val (neededSequences d.manifest.counters segments)
      history.length := by
  have hpending : ∀ segment ∈ segments, ∀ record ∈ segment.records, segment ∈ d.pending :=
    fun segment hsegment record hrecord ↦
      (mem_selected_iff hback hselect (List.ne_nil_of_mem hrecord)).mp hsegment
  have hmem : ∀ n, n ∈ segments.flatMap WalSegment.sequences ↔
      d.manifest.counters.lastSequence.val < n ∧ n ≤ history.length := by
    intro n
    rw [List.mem_flatMap]
    constructor
    · rintro ⟨segment, hsegment, hn⟩
      obtain ⟨record, hrecord, rfl⟩ := List.mem_map.mp hn
      obtain ⟨hlt, hcommitted⟩ :=
        h.faithful segment (hpending segment hsegment record hrecord) record hrecord
      exact ⟨Fin.lt_def.mp hlt, hcommitted.le_length⟩
    · rintro ⟨hlt, hle⟩
      have hrange : n < 2 ^ 64 := (hle.trans_lt hlength).trans (by decide)
      obtain ⟨batch, hcommitted⟩ :=
        @exists_committedAt history ⟨n, hrange⟩ (Nat.zero_lt_of_lt hlt) hle
      obtain ⟨segment, hsegment, hrecord⟩ := h.complete _ batch hcommitted (Fin.lt_def.mpr hlt)
      refine ⟨segment, ?_, List.mem_map.mpr ⟨_, hrecord, rfl⟩⟩
      exact (mem_selected_iff hback hselect (List.ne_nil_of_mem hrecord)).mpr hsegment
  have hneeded : neededSequences d.manifest.counters segments
      = segments.flatMap WalSegment.sequences := by
    refine List.filter_eq_self.mpr fun n hn ↦ ?_
    have hlt := ((hmem n).mp hn).1
    simp [needed, not_le.mpr hlt]
  rw [hneeded]
  refine runs_of_ascending (List.pairwise_flatMap.mpr ⟨fun segment hsegment ↦ ?_, ?_⟩) hlast hmem
  · rw [WalSegment.sequences, List.pairwise_map]
    by_cases hempty : segment.records = []
    · rw [hempty]
      exact .nil
    · exact h.ascending segment ((mem_selected_iff hback hselect hempty).mp hsegment)
  · refine (selected_ascending hback hselect).imp_of_mem fun {a b} ha hb hlt x hx y hy ↦ ?_
    obtain ⟨first, hfirst, rfl⟩ := List.mem_map.mp hx
    obtain ⟨second, hsecond, rfl⟩ := List.mem_map.mp hy
    exact Fin.lt_def.mp (h.ordered a (hpending a ha first hfirst) b (hpending b hb second hsecond)
      hlt first hfirst second hsecond)

/-! ## The memtables that recovery makes -/

namespace Engine

/-- A memtable has what a WAL has logged. -/
structure Replays (segment : WalSegment) (immutable : ImmutableMemTable) : Prop where
  number : immutable.walNumber = segment.number
  entries : ∀ entry, entry ∈ immutable.table.entries ↔
    ∃ record ∈ segment.records, entry ∈ batchEntries record.sequence record.batch
  largest : immutable.largestSequence = (segment.records.getLast?.map (·.sequence)).getD 0

variable {counters : Counters} {number : U64} {state state' : ReplayState}
  {record : RecoveredBatch} {records : List RecoveredBatch} {low : SequenceNumber} {faults : Faults}

private theorem Replaying.entries_record (h : Replaying low state)
    (hneeded : counters.lastSequence < record.sequence)
    (hreplay : replayRecord counters number state record = .ok state') :
    (∀ entry, entry ∈ state'.table.entries ↔
      entry ∈ state.table.entries ∨ entry ∈ batchEntries record.sequence record.batch) ∧
      state'.tableLargest = record.sequence := by
  unfold replayRecord at hreplay
  rw [if_neg fun hskipped ↦ absurd hskipped.2 (not_le.mpr hneeded)] at hreplay
  split_ifs at hreplay with hsequence
  obtain ⟨expected, hexpected, hreplay⟩ := bind_eq_ok.mp hreplay
  obtain ⟨table, happly, hreplay⟩ := bind_eq_ok.mp hreplay
  obtain rfl := Except.ok.inj hreplay
  have hnext := checkedNextSequence_eq_ok.mp hexpected
  have hlt : record.sequence.val < maxU64 := by
    have := expected.isLt
    unfold maxU64
    omega
  have hgreater : state.largestSequence < record.sequence := by
    rw [not_not.mp hsequence]
    exact Fin.lt_def.mpr (by have := h.expected; omega)
  obtain ⟨table', happly', -, hmem⟩ := MemTable.apply_above h.strict hlt
    (fun entry hentry ↦ ((h.above entry hentry).2.trans h.largest_le).trans_lt hgreater)
      record.batch
  obtain rfl := Except.ok.inj (happly'.symm.trans happly)
  refine ⟨fun entry ↦ (hmem entry).trans (or_congr_right ?_), rfl⟩
  exact ⟨fun hentry ↦ ⟨hlt, hentry⟩, fun ⟨_, hentry⟩ ↦ hentry⟩

private theorem Replaying.entries_records (h : Replaying low state)
    (hneeded : ∀ record ∈ records, counters.lastSequence < record.sequence)
    (hreplay : records.foldlM (replayRecord counters number) state = .ok state') :
    (∀ entry, entry ∈ state'.table.entries ↔ entry ∈ state.table.entries ∨
      ∃ record ∈ records, entry ∈ batchEntries record.sequence record.batch) ∧
      state'.tableLargest = (records.getLast?.map (·.sequence)).getD state.tableLargest := by
  induction records generalizing state with
  | nil =>
    obtain rfl := Except.ok.inj hreplay
    exact ⟨fun entry ↦ by simp, rfl⟩
  | cons record records ih =>
    rw [List.foldlM_cons] at hreplay
    obtain ⟨middle, hrecord, hrest⟩ := bind_eq_ok.mp hreplay
    obtain ⟨hfirst, hrest_needed⟩ := List.forall_mem_cons.mp hneeded
    obtain ⟨hentries, hlargest⟩ := h.entries_record hfirst hrecord
    obtain ⟨hentries', hlargest'⟩ := ih (h.record hrecord) hrest_needed hrest
    refine ⟨fun entry ↦ ?_, ?_⟩
    · rw [hentries', hentries, or_assoc]
      simp
    · rw [hlargest', hlargest, List.getLast?_cons]
      cases records.getLast? <;> rfl

theorem Replays.of_replaySegment {recovery recovery' : Recovery} {segment : WalSegment}
    {lastSequence : SequenceNumber} (h : Replayed lastSequence recovery)
    (hneeded : ∀ record ∈ segment.records, counters.lastSequence < record.sequence)
    (hreplay : replaySegment faults counters recovery segment = .ok recovery') :
    ∃ immutable, recovery'.recovered = recovery.recovered ++ [immutable] ∧
      Replays segment immutable := by
  unfold replaySegment at hreplay
  cases hfault : faults (.readWal segment.number) with
  | some failure =>
    rw [hfault] at hreplay
    cases hreplay
  | none =>
  rw [hfault] at hreplay
  obtain ⟨state, hfold, hreplay⟩ := bind_eq_ok.mp hreplay
  obtain rfl := Except.ok.inj hreplay
  have hstart : Replaying recovery.largestSequence
      ⟨.empty, 0, recovery.largestSequence, recovery.expectedSequence⟩ :=
    ⟨h.expected, le_refl _, strictRun_nil, fun entry hentry ↦ absurd hentry List.not_mem_nil,
      Fin.zero_le _⟩
  obtain ⟨hentries, hlargest⟩ := hstart.entries_records hneeded hfold
  refine ⟨_, rfl, rfl, fun entry ↦ (hentries entry).trans ?_, hlargest⟩
  exact or_iff_right List.not_mem_nil

private theorem replays_replaySegments {segments : List WalSegment} {start finish : Recovery}
    {lastSequence : SequenceNumber} (h : Replayed lastSequence start)
    (hneeded : ∀ segment ∈ segments, ∀ record ∈ segment.records,
      counters.lastSequence < record.sequence)
    (hreplay : segments.foldlM (replaySegment faults counters) start = .ok finish) :
    ∃ recovered, finish.recovered = start.recovered ++ recovered ∧
      List.Forall₂ Replays segments recovered := by
  induction segments generalizing start with
  | nil =>
    obtain rfl := Except.ok.inj hreplay
    exact ⟨[], (List.append_nil _).symm, .nil⟩
  | cons segment segments ih =>
    rw [List.foldlM_cons] at hreplay
    obtain ⟨middle, hsegment, hrest⟩ := bind_eq_ok.mp hreplay
    obtain ⟨hfirst, hrest_needed⟩ := List.forall_mem_cons.mp hneeded
    obtain ⟨immutable, hmiddle, hreplays⟩ := Replays.of_replaySegment h hfirst hsegment
    obtain ⟨recovered, hfinish, hall⟩ := ih (h.segment hsegment).1 hrest_needed hrest
    refine ⟨immutable :: recovered, ?_, .cons hreplays hall⟩
    rw [hfinish, hmiddle, List.append_assoc, List.singleton_append]

private theorem replays_recoverWals {segments : List WalSegment} {recovery : Recovery}
    (hneeded : ∀ segment ∈ segments, ∀ record ∈ segment.records,
      counters.lastSequence < record.sequence)
    (h : recoverWals faults counters segments = .ok recovery) :
    List.Forall₂ Replays segments recovery.recovered := by
  unfold recoverWals at h
  obtain ⟨expected, hexpected, h⟩ := bind_eq_ok.mp h
  obtain ⟨recovery', hfold, h⟩ := bind_eq_ok.mp h
  split_ifs at h
  obtain rfl := Except.ok.inj h
  have hstart : Replayed counters.lastSequence ⟨[], counters.lastSequence, expected⟩ :=
    ⟨checkedNextSequence_eq_ok.mp hexpected, le_refl _, nofun, nofun, nofun, .nil⟩
  obtain ⟨recovered, hrecovered, hall⟩ := replays_replaySegments hstart hneeded hfold
  rw [hrecovered]
  exact hall

/-- Failures do not change what is recovered. -/
theorem recoverWals_noFaults {segments : List WalSegment} {recovery : Recovery}
    (h : recoverWals faults counters segments = .ok recovery) :
    recoverWals noFaults counters segments = .ok recovery := by
  have hsegment : ∀ {start finish : Recovery} {segment : WalSegment},
      replaySegment faults counters start segment = .ok finish →
        replaySegment noFaults counters start segment = .ok finish := by
    intro start finish segment hreplay
    unfold replaySegment at hreplay ⊢
    cases hfault : faults (.readWal segment.number) with
    | some failure =>
      rw [hfault] at hreplay
      cases hreplay
    | none =>
      rw [hfault] at hreplay
      exact hreplay
  have hsegments : ∀ {segments : List WalSegment} {start finish : Recovery},
      segments.foldlM (replaySegment faults counters) start = .ok finish →
        segments.foldlM (replaySegment noFaults counters) start = .ok finish := by
    intro segments
    induction segments with
    | nil => exact fun hfold ↦ hfold
    | cons segment segments ih =>
      intro start finish hfold
      rw [List.foldlM_cons] at hfold ⊢
      obtain ⟨middle, hfirst, hrest⟩ := bind_eq_ok.mp hfold
      exact bind_eq_ok.mpr ⟨middle, hsegment hfirst, ih hrest⟩
  unfold recoverWals at h ⊢
  obtain ⟨expected, hexpected, h⟩ := bind_eq_ok.mp h
  obtain ⟨recovery', hfold, h⟩ := bind_eq_ok.mp h
  exact bind_eq_ok.mpr ⟨expected, hexpected, bind_eq_ok.mpr ⟨recovery', hsegments hfold, h⟩⟩

private theorem exists_of_forall₂ {α β : Type} {R : α → β → Prop} {l : List α} {l' : List β}
    (h : List.Forall₂ R l l') :
    (∀ a ∈ l, ∃ b ∈ l', R a b) ∧ ∀ b ∈ l', ∃ a ∈ l, R a b := by
  induction h with
  | nil => exact ⟨nofun, nofun⟩
  | @cons a b l l' hab _ ih =>
    refine ⟨List.forall_mem_cons.mpr ⟨⟨b, List.mem_cons_self .., hab⟩, fun x hx ↦ ?_⟩,
      List.forall_mem_cons.mpr ⟨⟨a, List.mem_cons_self .., hab⟩, fun y hy ↦ ?_⟩⟩
    · obtain ⟨y, hy, hxy⟩ := ih.1 x hx
      exact ⟨y, List.mem_cons_of_mem _ hy, hxy⟩
    · obtain ⟨x, hx, hxy⟩ := ih.2 y hy
      exact ⟨x, List.mem_cons_of_mem _ hx, hxy⟩

/-- The largest sequence of a replayed WAL is that of its last record. -/
theorem Replays.exists_largest {segment : WalSegment} {immutable : ImmutableMemTable}
    (h : Replays segment immutable) (hne : segment.records ≠ [])
    (hascending : segment.records.Pairwise fun a b ↦ a.sequence < b.sequence) :
    ∃ last ∈ segment.records, last.sequence = immutable.largestSequence ∧
      ∀ record ∈ segment.records, record.sequence ≤ last.sequence := by
  obtain ⟨front, last, hsplit⟩ := (List.eq_nil_or_concat' segment.records).resolve_left hne
  have hlargest := h.largest
  rw [hsplit, List.getLast?_concat] at hlargest
  rw [hsplit] at hascending ⊢
  refine ⟨last, List.mem_append_right _ (List.mem_singleton.mpr rfl), hlargest.symm,
    fun record hrecord ↦ ?_⟩
  rcases List.mem_append.mp hrecord with hrecord | hrecord
  · exact ((List.pairwise_append.mp hascending).2.2 record hrecord last
      (List.mem_singleton.mpr rfl)).le
  · rw [List.mem_singleton.mp hrecord]

/-- The recovered memtables agree with the history. -/
structure RecoversHistory (history : List WriteBatch) (d : Directory)
    (immutables : List ImmutableMemTable) : Prop where
  entries : {entry | ∃ immutable ∈ immutables, entry ∈ immutable.table.entries}
    = historyEntries history d.manifest.counters.lastSequence
  divided : ∀ immutable ∈ immutables, ∀ segment ∈ d.pending, ∀ record ∈ segment.records,
    record.sequence ≤ immutable.largestSequence ↔ segment.number ≤ immutable.walNumber

end Engine

private theorem Logged.recoversHistory {history : List WriteBatch} {limit : ℕ} {d : Directory}
    {segments : List WalSegment} {faults : Faults} {recovery : Recovery} (h : Logged history d)
    (hback : d.Backlog limit)
    (hselect : selectWals d.manifest.counters (walPaths d) = .ok segments)
    (hrecover : recoverWals faults d.manifest.counters segments = .ok recovery) :
    RecoversHistory history d
      (recovery.recovered.filter fun immutable ↦ !immutable.table.isEmpty) := by
  have hpending : ∀ segment ∈ segments, ∀ record ∈ segment.records, segment ∈ d.pending :=
    fun segment hsegment record hrecord ↦
      (mem_selected_iff hback hselect (List.ne_nil_of_mem hrecord)).mp hsegment
  have hreplays := replays_recoverWals (fun segment hsegment record hrecord ↦
    (h.faithful segment (hpending segment hsegment record hrecord) record hrecord).1) hrecover
  obtain ⟨hleft, hright⟩ := exists_of_forall₂ hreplays
  refine ⟨?_, fun immutable himmutable segment hsegment record hrecord ↦ ?_⟩
  · ext entry
    constructor
    · rintro ⟨immutable, himmutable, hentry⟩
      obtain ⟨segment, hsegment, hreplay⟩ := hright immutable (List.mem_of_mem_filter himmutable)
      obtain ⟨record, hrecord, hentry⟩ := (hreplay.entries entry).mp hentry
      obtain ⟨hlt, hcommitted⟩ :=
        h.faithful segment (hpending segment hsegment record hrecord) record hrecord
      exact ⟨record.sequence, record.batch, hlt, hcommitted, hentry⟩
    · rintro ⟨sequence, batch, hlt, hcommitted, hentry⟩
      obtain ⟨segment, hsegment, hrecord⟩ := h.complete sequence batch hcommitted hlt
      obtain ⟨immutable, himmutable, hreplay⟩ := hleft segment
        ((mem_selected_iff hback hselect (List.ne_nil_of_mem hrecord)).mpr hsegment)
      have hmem := (hreplay.entries entry).mpr ⟨_, hrecord, hentry⟩
      refine ⟨immutable, List.mem_filter.mpr ⟨himmutable, ?_⟩, hmem⟩
      simpa [MemTable.isEmpty] using List.ne_nil_of_mem hmem
  · obtain ⟨himmutable, hne⟩ := List.mem_filter.mp himmutable
    obtain ⟨source, hsource, hreplay⟩ := hright immutable himmutable
    obtain ⟨entry, hentry⟩ := List.exists_mem_of_ne_nil immutable.table.entries
      (by simpa [MemTable.isEmpty] using hne)
    obtain ⟨witness, hwitness, -⟩ := (hreplay.entries entry).mp hentry
    have hsource := hpending source hsource witness hwitness
    obtain ⟨last, hlast, hlargest, hle⟩ :=
      hreplay.exists_largest (List.ne_nil_of_mem hwitness) (h.ascending source hsource)
    rw [← hlargest, hreplay.number]
    rcases lt_trichotomy segment.number source.number with hlt | heq | hgt
    · exact iff_of_true (h.ordered segment hsegment source hsource hlt record hrecord last hlast).le
        hlt.le
    · have hsame : segment = source := List.inj_on_of_nodup_map hback.nodup
        (Directory.mem_pending.mp hsegment).1 (Directory.mem_pending.mp hsource).1 heq
      subst hsame
      exact iff_of_true (hle record hrecord) (le_refl _)
    · exact iff_of_false
        (not_le.mpr (h.ordered source hsource segment hsegment hgt last hlast record hrecord))
        (not_le.mpr hgt)

/-! ## Recovery succeeds -/

section Recovery

variable {history : List WriteBatch} {floor : ℕ} {clock : U64} {limit : ℕ} {d : Directory}
  {segments : List WalSegment} {recovery : Recovery} {faults : Faults}

/-- The WALs that the manifest asks for are there. -/
theorem Durable.exists_selectWals (h : Durable history floor clock d) :
    ∃ segments, selectWals d.manifest.counters (walPaths d) = .ok segments := by
  have hall : ∀ number ∈ d.wals.map (·.number),
      (walPaths d).any (·.number = number) = true := by
    intro number hnumber
    obtain ⟨segment, hsegment, rfl⟩ := List.mem_map.mp hnumber
    exact List.any_eq_true.mpr ⟨segment, (walPaths_perm d).mem_iff.mpr hsegment, by simp⟩
  have hwal : ∀ segment ∈ walPaths d, segment.number ∈ d.wals.map (·.number) :=
    fun segment hsegment ↦ List.mem_map.mpr ⟨segment, (walPaths_perm d).subset hsegment, rfl⟩
  unfold selectWals
  cases hrequired : requiredLogNumbers d.manifest.counters (walPaths d) with
  | none => exact ⟨_, rfl⟩
  | some required =>
    obtain ⟨oldest, active⟩ := required
    have hfiles : oldest ∈ d.wals.map (·.number) ∧ active ∈ d.wals.map (·.number) := by
      unfold requiredLogNumbers at hrequired
      split_ifs at hrequired with hlegacy
      · obtain ⟨first, hfirst, hrequired⟩ := Option.bind_eq_some_iff.mp hrequired
        obtain ⟨last, hlast, hrequired⟩ := Option.bind_eq_some_iff.mp hrequired
        obtain ⟨rfl, rfl⟩ := Prod.mk.inj (Option.some.inj hrequired)
        exact ⟨hwal first (List.mem_of_head? hfirst), hwal last (List.mem_of_getLast? hlast)⟩
      · obtain ⟨rfl, rfl⟩ := Prod.mk.inj (Option.some.inj hrequired)
        have hiff := h.sound.valid.log_iff
        have hne : d.manifest.counters.logNumber ≠ 0 := by
          intro hzero
          exact hlegacy (by simp [legacyWalMetadata, hzero, hiff.mp hzero])
        exact ⟨h.files _ (by simp) hne, h.files _ (by simp) fun hzero ↦ hne (hiff.mpr hzero)⟩
    refine ⟨_, bind_eq_ok.mpr ⟨(), forM_eq_ok.mpr fun required hmem ↦ if_pos (hall required ?_),
      rfl⟩⟩
    rcases List.mem_cons.mp hmem with rfl | hmem
    · exact hfiles.1
    · rw [List.mem_singleton.mp hmem]
      exact hfiles.2

/-- **Recovery.** It reaches the length of the history. -/
theorem Durable.exists_recoverWals (h : Durable history floor clock d) (hback : d.Backlog limit)
    (hselect : selectWals d.manifest.counters (walPaths d) = .ok segments) :
    ∃ recovery, recoverWals noFaults d.manifest.counters segments = .ok recovery ∧
      recovery.largestSequence.val = history.length := by
  have hlt : history.length + 1 < 2 ^ 64 := by
    have := h.length_lt
    unfold maxU64 at this
    omega
  have hruns := h.logged.runs hback h.last_le h.length_lt hselect
  obtain ⟨recovery, hrecover, hlargest⟩ := (recoverWals_reaches d.manifest.counters segments
    ⟨history.length, by omega⟩).mpr ⟨hruns, hlt, Fin.le_def.mpr h.wal_le⟩
  exact ⟨recovery, hrecover, congrArg Fin.val hlargest⟩

private theorem Durable.largest_recoverWals (h : Durable history floor clock d)
    (hback : d.Backlog limit) (hselect : selectWals d.manifest.counters (walPaths d) = .ok segments)
    (hrecover : recoverWals faults d.manifest.counters segments = .ok recovery) :
    recovery.largestSequence.val = history.length := by
  obtain ⟨other, hother, hlargest⟩ := h.exists_recoverWals hback hselect
  rw [Except.ok.inj ((recoverWals_noFaults hrecover).symm.trans hother)]
  exact hlargest

end Recovery

/-! ## Opening -/

section Opening

variable {history : List WriteBatch} {floor : ℕ} {clock : U64} {limit : ℕ} {e : Engine}
  {faults : Faults}

/-- There are file numbers left for opening. -/
def Directory.HasRoom (d : Directory) : Prop :=
  (((walPaths d).map (·.number)).foldl max
    (saturatingPred d.manifest.counters.nextFileNumber)).val + 2 < 2 ^ 64

/-- Every WAL that is kept is on disk. -/
theorem Engine.Found.mem_files {d : Directory} (found : Found faults d) (hback : d.Backlog limit)
    {wal : U64} (hwal : wal ∈ found.retained) :
    wal ∈ (d.addWal found.number).wals.map (·.number) := by
  show wal ∈ (d.wals ++ [(⟨found.number, []⟩ : WalSegment)]).map (·.number)
  rw [List.map_append]
  rcases List.mem_append.mp hwal with hwal | hwal
  · exact List.mem_append_left _
      ((recoversAll_of_recoverWals hback found.selected found.recovered).numbers hwal)
  · exact List.mem_append_right _ hwal

theorem Directory.Backlog.number_ne {d : Directory} (h : d.Backlog limit) :
    ∀ segment ∈ d.wals, segment.number ≠ 0 :=
  fun segment hsegment ↦ (h.written segment hsegment).number_ne

/-- The edit of opening keeps the WALs that are needed. -/
theorem Durable.opening (h : Durable history floor clock d) (hback : d.Backlog limit)
    {found : Found faults d} {versions : VersionState}
    (happly : d.manifest.apply false found.edit = .ok versions) :
    Durable history floor clock { d.addWal found.number with manifest := versions } := by
  obtain ⟨hsound, hsame, hcounters, hle⟩ := Found.of_apply h.sound hback.number_ne happly
  obtain ⟨hlog, hlog_le⟩ := foldr_min_mem (found.immutables.map (·.walNumber)) found.number
  refine (h.addWal found.number).counters hsound hsame hle ?_ (fun segment hsegment ↦ ?_) ?_
    fun wal hmem ↦ ?_
  · rw [hcounters]
    rfl
  · rw [hcounters]
    exact hlog_le _ (found.mem_retained hback hsegment)
  · rw [hcounters]
    exact (h.largest_recoverWals hback found.selected found.recovered).le
  · rw [hcounters] at hmem
    refine found.mem_files hback ?_
    rcases List.mem_cons.mp hmem with rfl | hmem
    · exact hlog
    · rw [List.mem_singleton.mp hmem]
      exact List.mem_append_right _ (List.mem_singleton.mpr rfl)

/-- And so does the removal of the others. -/
theorem Durable.removing (h : Durable history floor clock d) (hback : d.Backlog limit)
    {found : Found faults d} {versions : VersionState} {wals : List WalSegment}
    (happly : d.manifest.apply false found.edit = .ok versions) (hkeeps : found.Keeps wals) :
    Durable history floor clock { d with manifest := versions, wals } := by
  obtain ⟨-, -, hcounters, hle⟩ := Found.of_apply h.sound hback.number_ne happly
  obtain ⟨hlog, -⟩ := foldr_min_mem (found.immutables.map (·.walNumber)) found.number
  refine (h.opening hback happly).wals (fun segment ↦ ?_) fun wal hmem hwal ↦ ?_
  · rw [Directory.mem_pending, Directory.mem_pending]
    refine and_congr_left fun ⟨hrecords, hlog⟩ ↦
      ⟨fun hsegment ↦ hkeeps.sublist.subset hsegment, fun hsegment ↦ ?_⟩
    refine hkeeps.kept segment hsegment (found.mem_retained hback ?_)
    exact Directory.mem_pending.mpr ⟨hsegment, hrecords, hle.logNumber.trans hlog⟩
  · obtain ⟨segment, hsegment, rfl⟩ := List.mem_map.mp hwal
    refine List.mem_map.mpr ⟨segment, hkeeps.kept segment hsegment ?_, rfl⟩
    rw [hcounters] at hmem
    rcases List.mem_cons.mp hmem with heq | hmem
    · exact heq ▸ hlog
    · exact List.mem_singleton.mp hmem ▸ List.mem_append_right _ (List.mem_singleton.mpr rfl)

/-- **Opening.** Whatever step fails, the directory still agrees with the history; and an engine
that has been opened agrees with it in memory. -/
theorem Durable.openEngine (h : Durable history floor clock e.directory)
    (hback : e.directory.Backlog limit) (haccepted : ∀ built ∈ e.edits, EditAccepted built) :
    wp (Engine.openEngine faults) (fun r e' ↦ Durable history floor clock e'.directory ∧
      (∀ built ∈ e'.edits, EditAccepted built) ∧
      (r = .ok () → Recorded history floor clock e')) e := by
  refine wp_mono openEngine_opens fun r e' hopens ↦ ?_
  have haccepted' := fun found : Found faults e.directory ↦
    found.accepted h.sound hback.number_ne haccepted
  cases hopens with
  | refused error => exact ⟨h, haccepted, nofun⟩
  | created found error => exact ⟨h.addWal found.number, haccepted, nofun⟩
  | unedited found error usable manifest hcases =>
    refine ⟨?_, haccepted' found, nofun⟩
    rcases hcases with rfl | happly
    · exact h.addWal found.number
    · exact h.opening hback happly
  | edited found error happly hkeeps =>
    exact ⟨h.removing hback happly hkeeps, haccepted' found, nofun⟩
  | @opened found versions wals nextSequence happly hkeeps hsequence =>
    have hdurable := h.removing hback happly hkeeps
    have hhistory := h.logged.recoversHistory hback found.selected found.recovered
    obtain ⟨-, -, hcounters, hle⟩ := Found.of_apply h.sound hback.number_ne happly
    refine ⟨hdurable, haccepted' found, fun _ ↦ ⟨⟨?_, ?_, fun wal hmem ↦ ?_, ?_⟩, hdurable,
      haccepted' found⟩⟩
    · rw [hsequence, h.largest_recoverWals hback found.selected found.recovered]
    · have hlast : versions.counters.lastSequence
          = e.directory.manifest.counters.lastSequence := by
        rw [hcounters]
        rfl
      rw [hlast, ← hhistory.entries]
      ext entry
      exact or_iff_right List.not_mem_nil
    · obtain ⟨segment, hsegment, rfl⟩ := List.mem_map.mp (found.mem_files hback hmem)
      exact List.mem_map.mpr ⟨segment, hkeeps.kept segment hsegment hmem, rfl⟩
    · intro immutable himmutable segment hsegment
      obtain ⟨hmem, hrecords, hlog⟩ := Directory.mem_pending.mp hsegment
      refine hhistory.divided immutable himmutable segment ?_
      rw [← Directory.pending_addWal (d := e.directory) found.number]
      exact Directory.mem_pending.mpr
        ⟨hkeeps.sublist.subset hmem, hrecords, hle.logNumber.trans hlog⟩

/-- **Opening succeeds** if no step fails and there are file numbers left. -/
theorem Durable.openEngine_eq_ok (h : Durable history floor clock e.directory)
    (hback : e.directory.Backlog limit) :
    wp (Engine.openEngine noFaults) (fun r _ ↦ r = .ok () ↔ e.directory.HasRoom) e := by
  obtain ⟨segments, hselect⟩ := h.exists_selectWals
  obtain ⟨recovery, hrecover, hlength⟩ := h.exists_recoverWals hback hselect
  unfold Engine.openEngine
  rw [wp_modify_bind, wp_get_bind, wp_bind, wp_lift, hselect]
  dsimp only
  rw [wp_bind, wp_lift, hrecover]
  dsimp only
  rw [wp_bind, wp_lift]
  cases hnumber : checkedNextFileNumber (((walPaths e.directory).map (·.number)).foldl max
      (saturatingPred e.directory.manifest.counters.nextFileNumber)) with
  | error error =>
    refine iff_of_false nofun fun hroom ↦ ?_
    unfold Directory.HasRoom at hroom
    rw [checkedNextFileNumber, if_pos (by omega)] at hnumber
    cases hnumber
  | ok number =>
  have hval := checkedNextFileNumber_eq_ok.mp hnumber
  dsimp only
  rw [wp_bind, wp_lift]
  cases hnext : checkedNextFileNumber number with
  | error error =>
    refine iff_of_false nofun fun hroom ↦ ?_
    unfold Directory.HasRoom at hroom
    rw [checkedNextFileNumber, if_pos (by omega)] at hnext
    cases hnext
  | ok next =>
  have hroom : e.directory.HasRoom := by
    have hnext := checkedNextFileNumber_eq_ok.mp hnext
    have := next.isLt
    unfold Directory.HasRoom
    omega
  let found : Found noFaults e.directory :=
    ⟨segments, recovery, number, next, hselect, hrecover, hnumber, hnext⟩
  obtain ⟨versions, happly, honly, -⟩ := found.exists_apply h.sound hback.number_ne
  dsimp only
  rw [wp_bind, wp_perform]
  dsimp only
  rw [wp_bind]
  refine wp_forM (p := fun s ↦ s = { e with
    versions := e.directory.manifest
    manifestUsable := true
    directory := e.directory.addWal number }) rfl ?_ fun _ _ _ hs ↦ hs
  rintro _ rfl
  dsimp only
  rw [wp_bind]
  refine wp_applyEdit rfl happly (absurd honly.encodable) fun _ ↦ ?_
  dsimp only
  rw [wp_bind]
  refine wp_forM (p := fun _ ↦ True) trivial (fun s _ ↦ ?_) fun _ _ _ _ ↦ trivial
  -- There is a sequence after the last one of the history.
  have hsequence : checkedNextSequence recovery.largestSequence
      = .ok (recovery.largestSequence + 1) := by
    refine if_pos ?_
    rw [hlength]
    have := h.length_lt
    unfold maxU64 at this
    omega
  dsimp only
  rw [wp_ite, hsequence]
  exact ⟨fun _ ↦ iff_of_true rfl hroom, fun _ ↦ iff_of_true rfl hroom⟩

end Opening

end MeteorDB
