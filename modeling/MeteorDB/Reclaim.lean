import MeteorDB.Compaction

/-!
# Retiring tables

A compaction takes tables out of the current version, but a read that is under way still needs them.
The tables of each compaction are queued together with the version they were live in, and
`reclaimObsoleteSstables` removes those that no one can need: it protects the tables of every queued
version that someone besides the queue still refers to, and those of every version a live reader has
registered.

Shared versions are counted references. A version is told apart by the number of publications before
it, a lease by the number of leases before it, and the counts are computed from who holds what.

`Retirement.Reachable.keeps` is the result: in every state that reads, publications, compactions
and reclaiming lead to, with removals that fail anywhere, the tables of the current version and of
every reader are on disk, and a table that was taken out of the version has either been removed or
is queued exactly once.
-/

namespace MeteorDB

open CrashFs Decoder

/-! ## Versions in use -/

/-- The numbers of the tables of a version. -/
def Version.fileNumbers (version : Version) : List U64 :=
  (List.finRange numLevels).flatMap fun level ↦ (version.levels level).map FileMeta.number

private theorem Version.mem_fileNumbers {version : Version} {number : U64} :
    number ∈ version.fileNumbers ↔
      ∃ level, ∃ file ∈ version.levels level, file.number = number := by
  simp [fileNumbers]

/-- A shared version: the version, and the number by which references to it are told apart. -/
structure VersionArc where
  id : ℕ
  version : Version

/-- The tables of one compaction, queued with the version they were live in. -/
structure ObsoleteSstables where
  version : VersionArc
  files : List U64

/-- The registration of a reader: weak references to its version and to its lease. -/
structure ReaderVersion where
  version : VersionArc
  lease : ℕ

/-- A point read or a scan under way. It refers to its version and holds its lease. -/
structure Reader where
  version : VersionArc
  lease : ℕ

/-- What retiring tables depends on: the version set, the queue, the registrations, the readers
under way and the tables on disk. The numbers of all tables ever taken out of the version are kept
to state the result. -/
structure Retirement where
  versions : VersionState
  published : ℕ
  obsoleteSstables : List ObsoleteSstables
  readerVersions : List ReaderVersion
  readers : List Reader
  leases : ℕ
  disk : Finset U64
  obsoleted : List U64

namespace Retirement

variable (t : Retirement)

/-- The current version. -/
def current : VersionArc := ⟨t.published, t.versions.version⟩

/-- The references to a version: the version set, the queue and the readers. -/
def strongCount (version : VersionArc) : ℕ :=
  (if version.id = t.published then 1 else 0)
    + t.obsoleteSstables.countP (·.version.id = version.id)
    + t.readers.countP (·.version.id = version.id)

/-- The references to a lease. -/
def leaseCount (lease : ℕ) : ℕ := t.readers.countP (·.lease = lease)

/-- Only the queue refers to the version. -/
def isUnreferenced (obsolete : ObsoleteSstables) : Bool := t.strongCount obsolete.version == 1

/-- A registration whose reader is still under way. -/
def isLive (reader : ReaderVersion) : Bool :=
  0 < t.leaseCount reader.lease && 0 < t.strongCount reader.version

/-! ## Reading -/

def readerLeasePruneInterval : ℕ := 64

/-- Registers a reader of the current version, after dropping dead registrations if there are
many. -/
def registerReaderVersion : Retirement :=
  let kept := if readerLeasePruneInterval ≤ t.readerVersions.length then
    t.readerVersions.filter t.isLive else t.readerVersions
  { t with
    readerVersions := kept ++ [⟨t.current, t.leases⟩]
    readers := t.readers ++ [⟨t.current, t.leases⟩]
    leases := t.leases + 1 }

/-- A reader that finishes drops its version and its lease. -/
def finish (lease : ℕ) : Retirement :=
  { t with readers := t.readers.filter (·.lease ≠ lease) }

/-! ## Reclaiming -/

/-- The tables that must stay. -/
def protectedFiles : List U64 :=
  ((t.obsoleteSstables.filter fun obsolete ↦ !t.isUnreferenced obsolete).map (·.version.version)
    ++ (t.readerVersions.filter t.isLive).map (·.version.version)).flatMap Version.fileNumbers

/-- How the removal of a file goes wrong: before or after the file is gone. -/
inductive RemoveFault where
  | before
  | after
  deriving DecidableEq

/-- Removes one table. -/
def removeFile (fault : Option RemoveFault) (number : U64) (disk : Finset U64) :
    Except IoErrorKind Unit × Finset U64 :=
  match fault with
  | some .before => (.error .other, disk)
  | some .after => (.error .other, disk.erase number)
  | none => if number ∈ disk then (.ok (), disk.erase number) else (.error .notFound, disk)

/-- The outcome of removing the tables of one entry of the queue: those that stay, or the failed
removal and all that are left. -/
inductive Drained where
  | done (stillProtected : List U64) (disk : Finset U64) (removed : Bool)
  | failed (left : List U64) (disk : Finset U64) (number : U64) (source : IoErrorKind)

/-- Removes the unprotected tables of one entry. -/
def drainFiles (protect : List U64) (faults : U64 → Option RemoveFault) :
    List U64 → List U64 → Finset U64 → Bool → Drained
  | [], stillProtected, disk, removed => .done stillProtected disk removed
  | number :: files, stillProtected, disk, removed =>
    if number ∈ protect then
      drainFiles protect faults files (stillProtected ++ [number]) disk removed
    else
      match removeFile (faults number) number disk with
      | (.ok (), disk) => drainFiles protect faults files stillProtected disk true
      | (.error source, disk) => .failed (number :: stillProtected ++ files) disk number source

/-- Removes the unprotected tables of the queue, up to the first failure. The result is the new
queue, the disk, and either whether a table was removed or the removal that failed. -/
def drainQueue (protect : List U64) (faults : U64 → Option RemoveFault) :
    List ObsoleteSstables → List ObsoleteSstables → Finset U64 → Bool →
      List ObsoleteSstables × Finset U64 × Except (U64 × IoErrorKind) Bool
  | [], retained, disk, removed => (retained, disk, .ok removed)
  | obsolete :: queue, retained, disk, removed =>
    match drainFiles protect faults obsolete.files [] disk removed with
    | .done stillProtected disk removed =>
      drainQueue protect faults queue
        (if stillProtected ≠ [] then retained ++ [{ obsolete with files := stillProtected }]
          else retained) disk removed
    | .failed left disk number source =>
      ({ obsolete with files := left } :: retained ++ queue, disk, .error (number, source))

/-- Removes the queued tables that no one can need. Removals fail as `faults` says, and so may
synchronizing the directory at the end. -/
def reclaimObsoleteSstables (faults : U64 → Option RemoveFault) (syncFails : Bool) :
    Result Unit × Retirement :=
  let t := { t with readerVersions := t.readerVersions.filter t.isLive }
  let (queue, disk, outcome) :=
    drainQueue t.protectedFiles faults t.obsoleteSstables [] t.disk false
  let t := { t with obsoleteSstables := queue, disk }
  match outcome with
  | .error (number, source) =>
    (.error (.io "remove obsolete SSTable" (.sst number) source), t)
  | .ok removed =>
    if removed && syncFails then
      (.error (.io "sync obsolete SSTable retirement" .directory .other), t)
    else (.ok (), t)

/-! ## Publishing -/

/-- Publishes an edit: its tables are on disk by then, and the version set moves on. -/
def publish (edit : VersionEdit) : Result Retirement := do
  let versions ← t.versions.apply false edit
  return { t with
    versions
    published := t.published + 1
    disk := t.disk ∪ (edit.addedFiles.map (·.2.number)).toFinset }

/-- Publishes the outputs of a compaction, queues its tables, and reclaims. -/
def compact (plan : CompactionPlan) (outputs : List FileMeta) (nextFileNumber : U64)
    (faults : U64 → Option RemoveFault) (syncFails : Bool) : Result Retirement := do
  validateCompactionPlan plan t.versions.version
  let t' ← t.publish (plan.edit outputs nextFileNumber)
  let obsolete : ObsoleteSstables := ⟨t.current, plan.files.map FileMeta.number⟩
  return ({ t' with
    obsoleteSstables := t'.obsoleteSstables ++ [obsolete]
    obsoleted := t'.obsoleted ++ obsolete.files }.reclaimObsoleteSstables faults syncFails).2

/-- One step: a read begins or finishes, an edit that deletes nothing is published (a flush), a
compaction is carried out, or queued tables are reclaimed. -/
inductive Step (t : Retirement) : Retirement → Prop
  | read : Step t t.registerReaderVersion
  | finish (lease : ℕ) : Step t (t.finish lease)
  | publish {t' : Retirement} (edit : VersionEdit) (hdeleted : edit.deletedFiles = [])
      (h : t.publish edit = .ok t') : Step t t'
  | compact {t' : Retirement} (plan : CompactionPlan) (outputs : List FileMeta)
      (nextFileNumber : U64) (faults : U64 → Option RemoveFault) (syncFails : Bool)
      (h : t.compact plan outputs nextFileNumber faults syncFails = .ok t') : Step t t'
  | reclaim (faults : U64 → Option RemoveFault) (syncFails : Bool) :
      Step t (t.reclaimObsoleteSstables faults syncFails).2

/-- The state after opening: the version that a manifest is replayed to, with its tables on disk. -/
structure Opened (t : Retirement) : Prop where
  replayed : ∃ number edits, VersionState.replay number edits = .ok t.versions
  obsoleteSstables : t.obsoleteSstables = []
  readerVersions : t.readerVersions = []
  readers : t.readers = []
  obsoleted : t.obsoleted = []
  onDisk : ∀ number ∈ t.versions.version.fileNumbers, number ∈ t.disk

/-- The states that steps lead to. -/
inductive Reachable : Retirement → Prop
  | opened {t : Retirement} (h : Opened t) : Reachable t
  | step {t t' : Retirement} (h : Reachable t) (hstep : Step t t') : Reachable t'

/-! ## What removing tables does -/

/-- The numbers of the queued tables. -/
def queuedFiles (queue : List ObsoleteSstables) : List U64 := queue.flatMap (·.files)

/-- Going through a list of tables removes some of them, but no protected one; what is not removed
is kept, once for each time it was listed. -/
structure Drains (protect listed kept : List U64) (disk disk' : Finset U64) : Prop where
  subset : disk' ⊆ disk
  keeps : ∀ number ∈ protect, number ∈ disk → number ∈ disk'
  unlisted : ∀ number ∈ disk, number ∉ listed → number ∈ disk'
  subperm : kept.Subperm listed
  removed : ∀ number ∈ listed, number ∈ disk' → number ∈ kept

theorem Drains.refl (protect listed : List U64) (disk : Finset U64) :
    Drains protect listed listed disk disk :=
  ⟨subset_rfl, fun _ _ h ↦ h, fun _ h _ ↦ h, .refl _, fun _ h _ ↦ h⟩

theorem Drains.trans {protect a b c : List U64} {disk disk₁ disk₂ : Finset U64}
    (h : Drains protect a b disk disk₁) (h' : Drains protect b c disk₁ disk₂) :
    Drains protect a c disk disk₂ where
  subset := h'.subset.trans h.subset
  keeps number hmem hdisk := h'.keeps number hmem (h.keeps number hmem hdisk)
  unlisted number hdisk hlisted := by
    refine h'.unlisted number (h.unlisted number hdisk hlisted) fun hb ↦ ?_
    exact hlisted (h.subperm.subset hb)
  subperm := h'.subperm.trans h.subperm
  removed number hmem hdisk := h'.removed number (h.removed number hmem (h'.subset hdisk)) hdisk

theorem Drains.of_perm {protect a b a' b' : List U64} {disk disk' : Finset U64}
    (h : Drains protect a b disk disk') (ha : a.Perm a') (hb : b.Perm b') :
    Drains protect a' b' disk disk' where
  subset := h.subset
  keeps := h.keeps
  unlisted number hdisk hlisted := h.unlisted number hdisk fun hmem ↦ hlisted (ha.subset hmem)
  subperm := (hb.symm.subperm.trans h.subperm).trans ha.subperm
  removed number hmem hdisk := hb.subset (h.removed number (ha.symm.subset hmem) hdisk)

private theorem removeFile_subset (fault : Option RemoveFault) (number : U64) (disk : Finset U64) :
    (removeFile fault number disk).2 ⊆ disk ∧ disk.erase number ⊆ (removeFile fault number disk).2 ∧
      ((removeFile fault number disk).1 = .ok () → number ∉ (removeFile fault number disk).2) := by
  rcases fault with _ | (_ | _)
  · by_cases hmem : number ∈ disk
    · simp [removeFile, hmem, Finset.erase_subset]
    · simp [removeFile, hmem]
  · simp [removeFile, Finset.erase_subset]
  · simp [removeFile, Finset.erase_subset]

private theorem removeFile_keeps {fault : Option RemoveFault} {number other : U64}
    {disk disk' : Finset U64} {outcome : Except IoErrorKind Unit}
    (h : removeFile fault number disk = (outcome, disk')) (hmem : other ∈ disk)
    (hne : other ≠ number) : other ∈ disk' := by
  have hkeeps := (removeFile_subset fault number disk).2.1 (Finset.mem_erase.mpr ⟨hne, hmem⟩)
  rwa [h] at hkeeps

/-- A successful removal. -/
theorem Drains.remove {protect : List U64} {fault : Option RemoveFault} {number : U64}
    (listed : List U64) {disk disk' : Finset U64} (hprotect : number ∉ protect)
    (h : removeFile fault number disk = (.ok (), disk')) :
    Drains protect (number :: listed) listed disk disk' := by
  obtain ⟨hsub, -, hgone⟩ := removeFile_subset fault number disk
  rw [h] at hsub hgone
  refine ⟨hsub, fun other hmem hdisk ↦ ?_, fun other hdisk hlisted ↦ ?_, ?_, ?_⟩
  · exact removeFile_keeps h hdisk fun heq ↦ hprotect (heq ▸ hmem)
  · exact removeFile_keeps h hdisk fun heq ↦ hlisted (heq ▸ List.mem_cons_self ..)
  · exact (List.sublist_cons_self number listed).subperm
  · intro other hmem hdisk
    rcases List.mem_cons.mp hmem with rfl | hmem
    · exact absurd hdisk (hgone rfl)
    · exact hmem

/-- A failed removal, after which the file may be gone or not. -/
theorem Drains.fail {protect : List U64} {fault : Option RemoveFault} {number : U64}
    {listed : List U64} {disk disk' : Finset U64} {source : IoErrorKind}
    (hprotect : number ∉ protect) (hlisted : number ∈ listed)
    (h : removeFile fault number disk = (.error source, disk')) :
    Drains protect listed listed disk disk' := by
  obtain ⟨hsub, -, -⟩ := removeFile_subset fault number disk
  rw [h] at hsub
  refine ⟨hsub, fun other hmem hdisk ↦ ?_, fun other hdisk hother ↦ ?_, .refl _, fun _ h _ ↦ h⟩
  · exact removeFile_keeps h hdisk fun heq ↦ hprotect (heq ▸ hmem)
  · exact removeFile_keeps h hdisk fun heq ↦ hother (heq ▸ hlisted)

namespace Drained

/-- The tables that are kept. -/
def left : Drained → List U64
  | .done stillProtected _ _ => stillProtected
  | .failed left _ _ _ => left

/-- The disk afterwards. -/
def onDisk : Drained → Finset U64
  | .done _ disk _ => disk
  | .failed _ disk _ _ => disk

end Drained

private theorem drainFiles_drains (protect : List U64) (faults : U64 → Option RemoveFault)
    (files : List U64) :
    ∀ (stillProtected : List U64) (disk : Finset U64) (removed : Bool),
      Drains protect (stillProtected ++ files)
        (drainFiles protect faults files stillProtected disk removed).left disk
        (drainFiles protect faults files stillProtected disk removed).onDisk := by
  induction files with
  | nil =>
    intro stillProtected disk removed
    rw [List.append_nil]
    exact Drains.refl protect stillProtected disk
  | cons number files ih =>
    intro stillProtected disk removed
    rw [drainFiles]
    split_ifs with hprotect
    · have htail := ih (stillProtected ++ [number]) disk removed
      rwa [List.append_assoc, List.singleton_append] at htail
    · have hperm : (number :: (stillProtected ++ files)).Perm (stillProtected ++ number :: files) :=
        List.perm_middle.symm
      split
      next disk' hremove =>
        exact ((Drains.remove _ hprotect hremove).of_perm hperm (.refl _)).trans
          (ih stillProtected disk' true)
      next source disk' hremove =>
        exact (Drains.fail hprotect (List.mem_cons_self ..) hremove).of_perm hperm (.refl _)

/-- More tables may be listed that are all kept. -/
theorem Drains.frame {protect a b : List U64} {disk disk' : Finset U64} (before after : List U64)
    (h : Drains protect a b disk disk') :
    Drains protect (before ++ a ++ after) (before ++ b ++ after) disk disk' where
  subset := h.subset
  keeps := h.keeps
  unlisted number hdisk hlisted := by
    refine h.unlisted number hdisk fun hmem ↦ hlisted ?_
    exact List.mem_append_left _ (List.mem_append_right _ hmem)
  subperm := (List.subperm_append_right after).mpr ((List.subperm_append_left before).mpr h.subperm)
  removed number hmem hdisk := by
    simp only [List.mem_append] at hmem ⊢
    exact hmem.imp_left (Or.imp_right fun hmem ↦ h.removed number hmem hdisk)

private theorem queuedFiles_append (queue queue' : List ObsoleteSstables) :
    queuedFiles (queue ++ queue') = queuedFiles queue ++ queuedFiles queue' :=
  List.flatMap_append

private theorem queuedFiles_cons (obsolete : ObsoleteSstables) (queue : List ObsoleteSstables) :
    queuedFiles (obsolete :: queue) = obsolete.files ++ queuedFiles queue := rfl

private theorem drainQueue_drains (protect : List U64) (faults : U64 → Option RemoveFault)
    (queue : List ObsoleteSstables) :
    ∀ (retained : List ObsoleteSstables) (disk : Finset U64) (removed : Bool),
      Drains protect (queuedFiles retained ++ queuedFiles queue)
        (queuedFiles (drainQueue protect faults queue retained disk removed).1) disk
        (drainQueue protect faults queue retained disk removed).2.1 := by
  induction queue with
  | nil =>
    intro retained disk removed
    rw [show queuedFiles [] = [] from rfl, List.append_nil]
    exact Drains.refl protect _ disk
  | cons obsolete queue ih =>
    intro retained disk removed
    have hfiles := (drainFiles_drains protect faults obsolete.files [] disk removed).frame
      (queuedFiles retained) (queuedFiles queue)
    rw [List.nil_append] at hfiles
    rw [drainQueue, queuedFiles_cons, ← List.append_assoc]
    split
    next stillProtected disk' removed' hdrain =>
      rw [hdrain] at hfiles
      refine hfiles.trans ?_
      have hretained : queuedFiles retained ++ stillProtected = queuedFiles
          (if stillProtected ≠ [] then retained ++ [{ obsolete with files := stillProtected }]
            else retained) := by
        split_ifs with hnil
        · rw [queuedFiles_append, queuedFiles_cons]
          simp [queuedFiles]
        · rw [not_not.mp hnil, List.append_nil]
      show Drains protect (queuedFiles retained ++ stillProtected ++ queuedFiles queue) _ disk' _
      rw [hretained]
      exact ih _ disk' removed'
    next left disk' number source hdrain =>
      rw [hdrain] at hfiles
      refine hfiles.of_perm (.refl _) ?_
      -- The failed entry goes to the front of the queue.
      show (queuedFiles retained ++ left ++ queuedFiles queue).Perm
        (queuedFiles ({ obsolete with files := left } :: retained ++ queue))
      rw [List.cons_append, queuedFiles_cons, queuedFiles_append, ← List.append_assoc]
      exact List.perm_append_comm.append_right _

/-! ## The invariant -/

/-- What holds at every moment. Numbers are never used twice, so a table that has been taken out of
the version cannot come back into it or onto the disk. -/
structure Inv (t : Retirement) : Prop where
  current_used : ∀ number ∈ t.versions.version.fileNumbers, number ∈ t.versions.usedFileNumbers
  current_disk : ∀ number ∈ t.versions.version.fileNumbers, number ∈ t.disk
  reader_disk : ∀ reader ∈ t.readers, ∀ number ∈ reader.version.version.fileNumbers, number ∈ t.disk
  registered : ∀ reader ∈ t.readers, ⟨reader.version, reader.lease⟩ ∈ t.readerVersions
  nodup : (queuedFiles t.obsoleteSstables).Nodup
  queued : ∀ number ∈ queuedFiles t.obsoleteSstables, number ∈ t.obsoleted
  obsoleted_used : ∀ number ∈ t.obsoleted, number ∈ t.versions.usedFileNumbers
  not_current : ∀ number ∈ t.obsoleted, number ∉ t.versions.version.fileNumbers
  retired : ∀ number ∈ t.obsoleted, number ∈ t.disk → number ∈ queuedFiles t.obsoleteSstables

variable {t}

private theorem isLive_of_reader {t : Retirement} {reader : Reader} (h : reader ∈ t.readers) :
    t.isLive ⟨reader.version, reader.lease⟩ = true := by
  have hlease : 0 < t.leaseCount reader.lease :=
    List.countP_pos_iff.mpr ⟨reader, h, decide_eq_true rfl⟩
  have hversion : 0 < t.readers.countP (·.version.id = reader.version.id) :=
    List.countP_pos_iff.mpr ⟨reader, h, decide_eq_true rfl⟩
  have hstrong : 0 < t.strongCount reader.version := Nat.add_pos_right _ hversion
  rw [isLive, decide_eq_true hlease, decide_eq_true hstrong, Bool.and_self]

/-- The tables of a registered reader are protected. -/
theorem mem_protectedFiles {reader : Reader} (h : reader ∈ t.readers)
    (hregistered : ⟨reader.version, reader.lease⟩ ∈ t.readerVersions) {number : U64}
    (hnumber : number ∈ reader.version.version.fileNumbers) : number ∈ t.protectedFiles := by
  refine List.mem_flatMap.mpr ⟨reader.version.version, List.mem_append_right _ ?_, hnumber⟩
  refine List.mem_map.mpr ⟨⟨reader.version, reader.lease⟩, ?_, rfl⟩
  exact List.mem_filter.mpr ⟨hregistered, isLive_of_reader h⟩

theorem Inv.read (h : Inv t) : Inv t.registerReaderVersion where
  current_used := h.current_used
  current_disk := h.current_disk
  reader_disk := List.forall_mem_append.mpr
    ⟨h.reader_disk, List.forall_mem_singleton.mpr h.current_disk⟩
  registered reader hreader := by
    rcases List.mem_append.mp hreader with hreader | hreader
    · refine List.mem_append_left _ ?_
      -- Pruning drops registrations, but none of a reader under way.
      split_ifs
      · exact List.mem_filter.mpr ⟨h.registered reader hreader, isLive_of_reader hreader⟩
      · exact h.registered reader hreader
    · rw [List.mem_singleton.mp hreader]
      exact List.mem_append_right _ (List.mem_singleton.mpr rfl)
  nodup := h.nodup
  queued := h.queued
  obsoleted_used := h.obsoleted_used
  not_current := h.not_current
  retired := h.retired

theorem Inv.finish (h : Inv t) (lease : ℕ) : Inv (t.finish lease) where
  current_used := h.current_used
  current_disk := h.current_disk
  reader_disk reader hreader := h.reader_disk reader (List.mem_filter.mp hreader).1
  registered reader hreader := h.registered reader (List.mem_filter.mp hreader).1
  nodup := h.nodup
  queued := h.queued
  obsoleted_used := h.obsoleted_used
  not_current := h.not_current
  retired := h.retired

/-- The state after reclaiming, whatever is returned. -/
theorem reclaimObsoleteSstables_snd (t : Retirement) (faults : U64 → Option RemoveFault)
    (syncFails : Bool) : (t.reclaimObsoleteSstables faults syncFails).2 =
      let t' := { t with readerVersions := t.readerVersions.filter t.isLive }
      let drained := drainQueue t'.protectedFiles faults t.obsoleteSstables [] t.disk false
      { t' with obsoleteSstables := drained.1, disk := drained.2.1 } := by
  simp only [reclaimObsoleteSstables]
  split
  · rfl
  · split_ifs <;> rfl

private theorem Inv.reclaim (h : Inv t) (faults : U64 → Option RemoveFault) (syncFails : Bool) :
    Inv (t.reclaimObsoleteSstables faults syncFails).2 := by
  rw [reclaimObsoleteSstables_snd]
  set t' : Retirement := { t with readerVersions := t.readerVersions.filter t.isLive } with ht'
  have hregistered : ∀ reader ∈ t.readers, ⟨reader.version, reader.lease⟩ ∈ t'.readerVersions :=
    fun reader hreader ↦
      List.mem_filter.mpr ⟨h.registered reader hreader, isLive_of_reader hreader⟩
  have hdrains := drainQueue_drains t'.protectedFiles faults t.obsoleteSstables [] t.disk false
  rw [show queuedFiles [] = [] from rfl, List.nil_append] at hdrains
  exact {
    current_used := h.current_used
    current_disk := fun number hnumber ↦ by
      refine hdrains.unlisted number (h.current_disk number hnumber) fun hqueued ↦ ?_
      exact h.not_current number (h.queued number hqueued) hnumber
    reader_disk := fun reader hreader number hnumber ↦ by
      refine hdrains.keeps number ?_ (h.reader_disk reader hreader number hnumber)
      exact mem_protectedFiles (t := t') hreader (hregistered reader hreader) hnumber
    registered := hregistered
    nodup := by
      obtain ⟨files, hperm, hsub⟩ := hdrains.subperm
      exact hperm.nodup_iff.mp (h.nodup.sublist hsub)
    queued := fun number hnumber ↦ h.queued number (hdrains.subperm.subset hnumber)
    obsoleted_used := h.obsoleted_used
    not_current := h.not_current
    retired := fun number hnumber hdisk ↦
      hdrains.removed number (h.retired number hnumber (hdrains.subset hdisk)) hdisk }

/-! ### Publishing -/

private theorem publish_eq_ok {t' : Retirement} {edit : VersionEdit} :
    t.publish edit = .ok t' ↔ ∃ versions, t.versions.apply false edit = .ok versions ∧
      t' = { t with
        versions
        published := t.published + 1
        disk := t.disk ∪ (edit.addedFiles.map (·.2.number)).toFinset } := by
  rw [publish, bind_eq_ok]
  refine exists_congr fun versions ↦ and_congr_right fun _ ↦ ?_
  exact ⟨fun h ↦ (Except.ok.inj h).symm, fun h ↦ congrArg Except.ok h.symm⟩

/-- Publishing an edit and queueing what it deletes. -/
theorem Inv.publish (h : Inv t) {edit : VersionEdit} {versions : VersionState}
    (happly : t.versions.apply false edit = .ok versions)
    (queue : List ObsoleteSstables) (deleted : List U64)
    (hdeleted : deleted = edit.deletedFiles.map Prod.snd)
    (hqueue : queuedFiles queue = queuedFiles t.obsoleteSstables ++ deleted)
    (hlive : ∀ number ∈ deleted, number ∈ t.versions.version.fileNumbers) :
    Inv { t with
      versions
      published := t.published + 1
      obsoleteSstables := queue
      obsoleted := t.obsoleted ++ deleted
      disk := t.disk ∪ (edit.addedFiles.map (·.2.number)).toFinset } := by
  obtain ⟨haccepts, hversion, hused, -⟩ := VersionState.apply_eq_ok.mp happly
  have hfresh : ∀ number ∈ (edit.addedFiles.map (·.2.number)).toFinset,
      number ∉ t.versions.usedFileNumbers := by
    intro number hnumber
    obtain ⟨file, hfile, rfl⟩ := List.mem_map.mp (List.mem_toFinset.mp hnumber)
    exact haccepts.fresh.not_used file hfile
  have hobsoleted : ∀ number ∈ t.obsoleted ++ deleted, number ∈ t.versions.usedFileNumbers := by
    intro number hnumber
    rcases List.mem_append.mp hnumber with hnumber | hnumber
    · exact h.obsoleted_used number hnumber
    · exact h.current_used number (hlive number hnumber)
  -- A number of the new version is one of the old version that was not deleted, or a fresh one.
  have hnew : ∀ number ∈ versions.version.fileNumbers,
      number ∈ t.versions.version.fileNumbers ∧ number ∉ deleted ∨
        number ∈ (edit.addedFiles.map (·.2.number)).toFinset := by
    intro number hnumber
    obtain ⟨level, file, hfile, rfl⟩ := Version.mem_fileNumbers.mp hnumber
    rcases (Version.mem_apply hversion).mp hfile with ⟨hold, hkept⟩ | hadded
    · refine .inl ⟨Version.mem_fileNumbers.mpr ⟨level, file, hold, rfl⟩, fun hmem ↦ hkept ?_⟩
      exact Version.mem_deletedFiles hversion hold (hdeleted ▸ hmem)
    · exact .inr (List.mem_toFinset.mpr (List.mem_map.mpr ⟨_, hadded, rfl⟩))
  exact {
    current_used := fun number hnumber ↦ by
      rw [hused, Finset.mem_union]
      exact (hnew number hnumber).imp_left fun hold ↦ h.current_used number hold.1
    current_disk := fun number hnumber ↦
      Finset.mem_union.mpr ((hnew number hnumber).imp_left fun hold ↦ h.current_disk number hold.1)
    reader_disk := fun reader hreader number hnumber ↦
      Finset.mem_union_left _ (h.reader_disk reader hreader number hnumber)
    registered := h.registered
    nodup := by
      rw [hqueue, List.nodup_append]
      refine ⟨h.nodup, hdeleted ▸ (Version.deleted_of_apply hversion).2, ?_⟩
      rintro number hqueued _ hmem rfl
      exact h.not_current number (h.queued number hqueued) (hlive number hmem)
    queued := fun number hnumber ↦ by
      rw [hqueue] at hnumber
      exact List.mem_append.mpr ((List.mem_append.mp hnumber).imp_left (h.queued number))
    obsoleted_used := fun number hnumber ↦ by
      rw [hused]
      exact Finset.mem_union_left _ (hobsoleted number hnumber)
    not_current := fun number hnumber hcurrent ↦ by
      rcases hnew number hcurrent with ⟨hold, hkept⟩ | hadded
      · rcases List.mem_append.mp hnumber with hnumber | hnumber
        · exact h.not_current number hnumber hold
        · exact hkept hnumber
      · exact hfresh number hadded (hobsoleted number hnumber)
    retired := fun number hnumber hdisk ↦ by
      rw [hqueue]
      have hold : number ∈ t.disk := (Finset.mem_union.mp hdisk).resolve_right fun hadded ↦
        hfresh number hadded (hobsoleted number hnumber)
      refine List.mem_append.mpr ((List.mem_append.mp hnumber).imp_left fun hnumber ↦ ?_)
      exact h.retired number hnumber hold }

theorem Inv.compact (h : Inv t) {t' : Retirement} {plan : CompactionPlan} {outputs : List FileMeta}
    {nextFileNumber : U64} {faults : U64 → Option RemoveFault} {syncFails : Bool}
    (hcompact : t.compact plan outputs nextFileNumber faults syncFails = .ok t') : Inv t' := by
  obtain ⟨⟨⟩, hvalid, hcompact⟩ := bind_eq_ok.mp hcompact
  obtain ⟨t₁, hpublish, hcompact⟩ := bind_eq_ok.mp hcompact
  obtain ⟨versions, happly, rfl⟩ := publish_eq_ok.mp hpublish
  obtain rfl := Except.ok.inj hcompact
  obtain ⟨hinputs, hoverlaps⟩ := validateCompactionPlan_eq_ok.mp hvalid
  refine Inv.reclaim (h.publish happly _ (plan.files.map FileMeta.number) ?_ ?_ ?_) _ _
  · simp [CompactionPlan.edit, CompactionPlan.files, Function.comp_def]
  · simp [queuedFiles]
  · intro number hnumber
    obtain ⟨file, hfile, rfl⟩ := List.mem_map.mp hnumber
    rw [Version.mem_fileNumbers]
    rcases List.mem_append.mp hfile with hfile | hfile
    · exact ⟨plan.inputLevel, file, hinputs file hfile, rfl⟩
    · exact ⟨plan.outputLevel, file, hoverlaps file hfile, rfl⟩

/-- Every step keeps the invariant. -/
theorem Inv.step (h : Inv t) {t' : Retirement} (hstep : Step t t') : Inv t' := by
  cases hstep with
  | read => exact h.read
  | finish lease => exact h.finish lease
  | publish edit hdeleted hpublish =>
    obtain ⟨versions, happly, rfl⟩ := publish_eq_ok.mp hpublish
    have hinv := h.publish happly t.obsoleteSstables []
      (by rw [hdeleted]; rfl) (List.append_nil _).symm nofun
    simpa using hinv
  | compact plan outputs nextFileNumber faults syncFails hcompact => exact h.compact hcompact
  | reclaim faults syncFails => exact h.reclaim faults syncFails

/-- The tables of a version that was replayed have numbers that are recorded as used. -/
theorem replay_used {number : U64} {edits : List VersionEdit} {versions : VersionState}
    (h : VersionState.replay number edits = .ok versions) :
    ∀ number ∈ versions.version.fileNumbers, number ∈ versions.usedFileNumbers := by
  refine foldlM_preserves (P := fun versions : VersionState ↦
    ∀ number ∈ versions.version.fileNumbers, number ∈ versions.usedFileNumbers) ?_ ?_ h
  · intro versions edit versions' ih happly number hnumber
    obtain ⟨-, hversion, hused, -⟩ := VersionState.apply_eq_ok.mp happly
    obtain ⟨level, file, hfile, rfl⟩ := Version.mem_fileNumbers.mp hnumber
    rw [hused, Finset.mem_union]
    rcases (Version.mem_apply hversion).mp hfile with ⟨hold, -⟩ | hadded
    · exact .inl (ih _ (Version.mem_fileNumbers.mpr ⟨level, file, hold, rfl⟩))
    · exact .inr (List.mem_toFinset.mpr (List.mem_map.mpr ⟨_, hadded, rfl⟩))
  · intro number hnumber
    obtain ⟨level, file, hfile, -⟩ := Version.mem_fileNumbers.mp hnumber
    exact absurd hfile List.not_mem_nil

theorem Opened.inv (h : Opened t) : Inv t := by
  obtain ⟨number, edits, hreplay⟩ := h.replayed
  refine ⟨replay_used hreplay, h.onDisk, ?_, ?_, ?_, ?_, ?_, ?_, ?_⟩
  · simp [h.readers]
  · simp [h.readers]
  · simp [h.obsoleteSstables, queuedFiles]
  · simp [h.obsoleteSstables, queuedFiles]
  · simp [h.obsoleted]
  · simp [h.obsoleted]
  · simp [h.obsoleted]

theorem Reachable.inv (h : Reachable t) : Inv t := by
  induction h with
  | opened h => exact h.inv
  | step _ hstep ih => exact ih.step hstep

/-- **Readers keep their tables.** In every reachable state the tables of every reader and of the
current version are on disk, and a table that a compaction made obsolete is gone or queued once. -/
theorem Reachable.keeps (h : Reachable t) :
    (∀ reader ∈ t.readers, ∀ number ∈ reader.version.version.fileNumbers, number ∈ t.disk) ∧
      (∀ number ∈ t.versions.version.fileNumbers, number ∈ t.disk) ∧
      ∀ number ∈ t.obsoleted, (queuedFiles t.obsoleteSstables).count number ≤ 1 ∧
        (number ∉ t.disk ∨ (queuedFiles t.obsoleteSstables).count number = 1) := by
  have hinv := h.inv
  refine ⟨hinv.reader_disk, hinv.current_disk, fun number hnumber ↦ ?_⟩
  refine ⟨List.nodup_iff_count_le_one.mp hinv.nodup number, ?_⟩
  rw [or_iff_not_imp_left, not_not]
  exact fun hdisk ↦ List.count_eq_one_of_mem hinv.nodup (hinv.retired number hnumber hdisk)

private theorem tinySequence_lt : (1 : SequenceNumber).val < maxU64 := by decide

private theorem tinySize_ne : (1 : U64) ≠ 0 := by decide

private def tinyKey : InternalKey := ⟨[7], 1, .value, tinySequence_lt⟩

/-- A table with one entry. -/
private def tinyTable (number : U64) (h : number ≠ 0) : FileMeta :=
  ⟨number, 1, tinyKey, tinyKey, h, tinySize_ne, le_refl _⟩

private theorem three_ne : (3 : U64) ≠ 0 := by decide

private theorem four_ne : (4 : U64) ≠ 0 := by decide

/-- Two tables in level zero. -/
private def twoTables : VersionEdit where
  addedFiles := [(0, tinyTable 3 three_ne), (0, tinyTable 4 four_ne)]
  nextFileNumber := some 5
  logNumber := some 2
  activeLogNumber := some 2

private def mergeTwoTables : CompactionPlan :=
  ⟨0, 1, [tinyTable 4 four_ne, tinyTable 3 three_ne], []⟩

private def freshlyOpened (versions : VersionState) : Retirement :=
  ⟨versions, 0, [], [], [], 0, {3, 4}, []⟩

/-- A reader of two tables outlives the compaction that replaces them. -/
theorem keeps_outliving_reader :
    ∃ t : Retirement, Reachable t ∧ t.readers.length = 1 ∧ t.obsoleted = [4, 3] ∧
      (∀ reader ∈ t.readers, ∀ number ∈ reader.version.version.fileNumbers, number ∈ t.disk) ∧
      (∀ number ∈ t.versions.version.fileNumbers, number ∈ t.disk) ∧
      ∀ number ∈ t.obsoleted, (queuedFiles t.obsoleteSstables).count number ≤ 1 ∧
        (number ∉ t.disk ∨ (queuedFiles t.obsoleteSstables).count number = 1) := by
  have hrun : (do
      let versions ← VersionState.replay 1 [twoTables]
      let t ← (freshlyOpened versions).registerReaderVersion.compact mergeTwoTables
        [tinyTable 5 (by decide)] 6 (fun _ ↦ none) false
      return (versions.version.fileNumbers, t.readers.length, t.obsoleted) : Result _)
        = .ok ([4, 3], 1, [4, 3]) := by decide +kernel
  obtain ⟨versions, hreplay, hrun⟩ := bind_eq_ok.mp hrun
  obtain ⟨t, hcompact, hrun⟩ := bind_eq_ok.mp hrun
  obtain ⟨hfiles, hreaders, hobsoleted⟩ : versions.version.fileNumbers = [4, 3] ∧
      t.readers.length = 1 ∧ t.obsoleted = [4, 3] := by simpa using Except.ok.inj hrun
  have hopened : Opened (freshlyOpened versions) :=
    ⟨⟨1, [twoTables], hreplay⟩, rfl, rfl, rfl, rfl, by
      show ∀ number ∈ versions.version.fileNumbers, number ∈ ({3, 4} : Finset U64)
      simp [hfiles]⟩
  have hreachable : Reachable t :=
    ((Reachable.opened hopened).step .read).step (.compact _ _ _ _ _ hcompact)
  exact ⟨t, hreachable, hreaders, hobsoleted, hreachable.keeps⟩

end Retirement

end MeteorDB
