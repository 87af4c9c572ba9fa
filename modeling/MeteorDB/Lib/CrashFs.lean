import MeteorDB.Lib.ByteString

/-!
# A directory of files that can crash

The files of one directory, under names of an arbitrary type. A file has the bytes a reader sees
and the bytes of its last synchronization; a name has the entry a reader sees and the entries it
had since the directory was last synchronized. A crash keeps, for every name, one of these entries
(`Slot.MayBe`).

An operation either succeeds, or is refused because a name is absent or taken, or fails. A failure
may leave the directory as it was, as the operation would have left it, or in between for an append.
-/

namespace CrashFs

open ByteString

/-! ## Files and names -/

/-- The operating-system failures a caller tells apart. -/
inductive IoErrorKind where
  | notFound
  | alreadyExists
  | other
  deriving DecidableEq, Repr

/-- The bytes of a file, and those that were last synchronized. -/
@[ext] structure File where
  bytes : Bytes
  synced : Bytes
  deriving DecidableEq

/-- A file with durable contents. -/
def File.durable (bytes : Bytes) : File := ⟨bytes, bytes⟩

/-- The entry of a name, and those it had since the last synchronization of the directory. -/
@[ext] structure Slot where
  entry : Option File := none
  past : List (Option File) := []
  deriving DecidableEq

/-- The entry a name has after a crash, or had before it. -/
def Slot.MayBe (slot : Slot) (entry : Option File) : Prop := entry = slot.entry ∨ entry ∈ slot.past

/-- A durable entry. -/
def Slot.durable (file : File) : Slot := ⟨some file, []⟩

/-- The slot after the entry has changed. -/
def Slot.change (slot : Slot) (entry : Option File) : Slot := ⟨entry, slot.entry :: slot.past⟩

/-- The slot after the contents of the file have changed. -/
def Slot.write (slot : Slot) (file : File) : Slot := ⟨some file, slot.past⟩

/-! ## Disks -/

/-- The slots of all names. Only finitely many names are taken. -/
structure Disk (N : Type) where
  slot : N → Slot
  names : List N
  mem_names : ∀ n, (slot n).entry ≠ none → n ∈ names

namespace Disk

variable {N : Type} [DecidableEq N]

/-- A disk without files. -/
def empty : Disk N := ⟨fun _ ↦ {}, [], fun _ h ↦ absurd rfl h⟩

/-- Changes the slot of a name. -/
def set (d : Disk N) (n : N) (slot : Slot) : Disk N where
  slot := Function.update d.slot n slot
  names := n :: d.names
  mem_names m hm := by
    by_cases h : m = n
    · exact h ▸ List.mem_cons_self ..
    · rw [Function.update_of_ne h] at hm
      exact List.mem_cons_of_mem n (d.mem_names m hm)

/-- One disk is the other with a new slot for a name. -/
def Updated (d : Disk N) (n : N) (slot : Slot) (d' : Disk N) : Prop :=
  d'.slot = Function.update d.slot n slot

section Updated

variable {d d' d'' : Disk N} {m n : N} {slot slot' : Slot}

theorem updated_set (d : Disk N) (n : N) (slot : Slot) : d.Updated n slot (d.set n slot) := rfl

theorem updated_self (h : d.slot n = slot) : d.Updated n slot d := by
  rw [Updated, ← h, Function.update_eq_self]

theorem Updated.slot_self (h : d.Updated n slot d') : d'.slot n = slot := by
  rw [h, Function.update_self]

theorem Updated.slot_of_ne (h : d.Updated n slot d') (hne : m ≠ n) : d'.slot m = d.slot m := by
  rw [h, Function.update_of_ne hne]

theorem Updated.trans (h : d.Updated n slot d') (h' : d'.Updated n slot' d'') :
    d.Updated n slot' d'' := by
  rw [Updated, h', h, Function.update_idem]

end Updated

/-- The file of a name. -/
def file (d : Disk N) (n : N) : Option File := (d.slot n).entry

theorem Updated.file_self {d d' : Disk N} {n : N} {slot : Slot} (h : d.Updated n slot d') :
    d'.file n = slot.entry := congrArg Slot.entry h.slot_self

theorem Updated.file_of_ne {d d' : Disk N} {m n : N} {slot : Slot} (h : d.Updated n slot d')
    (hne : m ≠ n) : d'.file m = d.file m := congrArg Slot.entry (h.slot_of_ne hne)

/-- Some of the files with names in `names` have been synchronized. -/
def Resynced (names : Set N) (d d' : Disk N) : Prop :=
  ∀ n, d'.slot n = d.slot n ∨
    n ∈ names ∧ ∃ file, d.file n = some file ∧ d'.slot n = (d.slot n).write (.durable file.bytes)

namespace Resynced

variable {names : Set N} {d d' d'' : Disk N} {n : N}

omit [DecidableEq N] in
theorem refl (d : Disk N) : Resynced names d d := fun _ ↦ .inl rfl

omit [DecidableEq N] in
theorem file_eq_none (h : Resynced names d d') : d'.file n = none ↔ d.file n = none := by
  rcases h n with h | ⟨-, file, hfile, h⟩
  · rw [file, file, h]
  · rw [hfile, Disk.file, h]
    exact ⟨nofun, nofun⟩

omit [DecidableEq N] in
theorem slot_of_notMem (h : Resynced names d d') (hn : n ∉ names) : d'.slot n = d.slot n :=
  (h n).resolve_right fun h ↦ hn h.1

/-- One more file is synchronized. -/
theorem sync {file : File} (h : Resynced names d d') (hn : n ∈ names)
    (hfile : d'.file n = some file)
    (hd : d'.Updated n ((d'.slot n).write (.durable file.bytes)) d'') : Resynced names d d'' := by
  intro m
  by_cases hm : m = n
  · subst hm
    rw [hd.slot_self]
    rcases h m with h | ⟨-, file', hfile', h⟩
    · rw [Disk.file, h] at hfile
      exact .inr ⟨hn, file, hfile, by rw [h]⟩
    · rw [Disk.file, h] at hfile
      obtain rfl : File.durable file'.bytes = file := Option.some.inj hfile
      exact .inr ⟨hn, file', hfile', by rw [h]; rfl⟩
  · rw [hd.slot_of_ne hm]
    exact h m

end Resynced

/-- The names that are taken. -/
def listing (d : Disk N) : List N := d.names.dedup.filter fun n ↦ (d.file n).isSome

/-- Makes all entries durable. -/
def syncDirectory (d : Disk N) : Disk N where
  slot n := ⟨(d.slot n).entry, []⟩
  names := d.names
  mem_names := d.mem_names

end Disk

/-! ## Operations -/

/-- The operations on a directory. -/
inductive Op (N : Type) where
  | entryExists (n : N)
  | read (n : N)
  | list
  | create (n : N)
  | append (n : N) (bytes : Bytes)
  | sync (n : N)
  | truncate (n : N) (length : ℕ)
  | link (source destination : N)
  | remove (n : N)
  | syncDirectory
  deriving DecidableEq

namespace Op

variable {N : Type} [DecidableEq N]

/-- What an operation returns when it succeeds. -/
abbrev Response : Op N → Type
  | entryExists _ => Bool
  | read _ => Bytes
  | list => List N
  | _ => Unit

/-- Changes the file of a name, which must be there. -/
def onFile (d : Disk N) (n : N) (f : File → File) : Except IoErrorKind Unit × Disk N :=
  match d.file n with
  | some file => (.ok (), d.set n ((d.slot n).write (f file)))
  | none => (.error .notFound, d)

/-- An operation that does not fail. -/
def perform : (op : Op N) → Disk N → Except IoErrorKind op.Response × Disk N
  | entryExists n, d => (.ok (d.file n).isSome, d)
  | read n, d =>
    match d.file n with
    | some file => (.ok file.bytes, d)
    | none => (.error .notFound, d)
  | list, d => (.ok d.listing, d)
  | create n, d =>
    match d.file n with
    | some _ => (.error .alreadyExists, d)
    | none => (.ok (), d.set n ((d.slot n).change (some ⟨[], []⟩)))
  | append n bytes, d => onFile d n fun file ↦ ⟨file.bytes ++ bytes, file.synced⟩
  | sync n, d => onFile d n fun file ↦ ⟨file.bytes, file.bytes⟩
  | truncate n length, d => onFile d n fun file ↦ ⟨file.bytes.take length, file.synced⟩
  | link source destination, d =>
    match d.file source, d.file destination with
    | none, _ => (.error .notFound, d)
    | some _, some _ => (.error .alreadyExists, d)
    | some file, none => (.ok (), d.set destination ((d.slot destination).change (some file)))
  | remove n, d =>
    match d.file n with
    | some _ => (.ok (), d.set n ((d.slot n).change none))
    | none => (.error .notFound, d)
  | syncDirectory, d => (.ok (), d.syncDirectory)

/-- What an operation may return and leave behind. Entries are listed in any order, and with
`faults` an operation may fail. -/
inductive Outcome (faults : Bool) (d : Disk N) :
    (op : Op N) → Except IoErrorKind op.Response → Disk N → Prop
  | done (op : Op N) : Outcome faults d op (op.perform d).1 (op.perform d).2
  | listed (names : List N) (h : names.Perm d.listing) : Outcome faults d .list (.ok names) d
  | failed (op : Op N) (h : faults = true) : Outcome faults d op (.error .other) d
  | failedAfter (op : Op N) (h : faults = true) :
      Outcome faults d op (.error .other) (op.perform d).2
  | failedWithin (n : N) (bytes written : Bytes) (h : faults = true)
      (hwritten : written <+: bytes) :
      Outcome faults d (.append n bytes) (.error .other) ((append n written).perform d).2

/-! ### What each operation can do -/

section Inversion

variable {faults : Bool} {d d' : Disk N} {n : N} {file : File}

private theorem onFile_of_file (h : d.file n = some file) (f : File → File) :
    onFile d n f = (.ok (), d.set n ((d.slot n).write (f file))) := by
  rw [onFile, h]

/-- An operation other than an append or a listing is carried out, or fails with or without
effect. -/
theorem Outcome.done_or_failed {operation : Op N} {answer : Except IoErrorKind operation.Response}
    (h : operation.Outcome faults d answer d') (hlist : operation ≠ .list)
    (happend : ∀ n bytes, operation ≠ .append n bytes) :
    (answer = (operation.perform d).1 ∧ d' = (operation.perform d).2) ∨
      faults = true ∧ answer = .error .other ∧ (d' = d ∨ d' = (operation.perform d).2) := by
  cases h with
  | done => exact .inl ⟨rfl, rfl⟩
  | listed => exact absurd rfl hlist
  | failed _ hfaults => exact .inr ⟨hfaults, rfl, .inl rfl⟩
  | failedAfter _ hfaults => exact .inr ⟨hfaults, rfl, .inr rfl⟩
  | failedWithin n bytes => exact absurd rfl (happend n bytes)

theorem Outcome.entryExists_cases {answer : Except IoErrorKind Bool}
    (h : (entryExists n).Outcome faults d answer d') :
    d' = d ∧ (answer = .ok (d.file n).isSome ∨ faults = true ∧ answer = .error .other) := by
  rcases h.done_or_failed nofun nofun with ⟨hanswer, hd⟩ | ⟨hfaults, hanswer, hd⟩
  · exact ⟨hd, .inl hanswer⟩
  · exact ⟨hd.elim id id, .inr ⟨hfaults, hanswer⟩⟩

theorem Outcome.read_cases {answer : Except IoErrorKind Bytes}
    (h : (read n).Outcome faults d answer d') :
    d' = d ∧ (answer = ((d.file n).map File.bytes).elim (.error .notFound) .ok ∨
      faults = true ∧ answer = .error .other) := by
  have hperform : (read n).perform d
      = (((d.file n).map File.bytes).elim (.error .notFound) .ok, d) := by
    rw [perform]
    cases d.file n <;> rfl
  rcases h.done_or_failed nofun nofun with ⟨hanswer, hd⟩ | ⟨hfaults, hanswer, hd⟩
  · rw [hperform] at hanswer hd
    exact ⟨hd, .inl hanswer⟩
  · rw [hperform] at hd
    exact ⟨hd.elim id id, .inr ⟨hfaults, hanswer⟩⟩

theorem Outcome.append_cases {bytes : Bytes} {answer : Except IoErrorKind Unit}
    (hfile : d.file n = some file) (h : (append n bytes).Outcome faults d answer d') :
    (answer = .ok () ∧ d.Updated n ((d.slot n).write ⟨file.bytes ++ bytes, file.synced⟩) d') ∨
      faults = true ∧ answer = .error .other ∧ ∃ written, written <+: bytes ∧
        d.Updated n ((d.slot n).write ⟨file.bytes ++ written, file.synced⟩) d' := by
  have hperform (written : Bytes) : (append n written).perform d
      = (.ok (), d.set n ((d.slot n).write ⟨file.bytes ++ written, file.synced⟩)) :=
    onFile_of_file hfile _
  cases h with
  | done => rw [hperform]; exact .inl ⟨rfl, Disk.updated_set ..⟩
  | failed _ hfaults =>
    refine .inr ⟨hfaults, rfl, [], List.nil_prefix, Disk.updated_self ?_⟩
    rw [List.append_nil]
    exact Slot.ext hfile rfl
  | failedAfter _ hfaults =>
    rw [hperform]
    exact .inr ⟨hfaults, rfl, bytes, List.prefix_rfl, Disk.updated_set ..⟩
  | failedWithin _ _ written hfaults hwritten =>
    rw [hperform]
    exact .inr ⟨hfaults, rfl, written, hwritten, Disk.updated_set ..⟩

/-- The slot an operation with one effect gives a name. -/
private theorem Outcome.updated_cases {operation : Op N} {slot : Slot}
    {answer : Except IoErrorKind operation.Response} (h : operation.Outcome faults d answer d')
    (hlist : operation ≠ .list) (happend : ∀ n bytes, operation ≠ .append n bytes)
    {value : operation.Response} (hperform : operation.perform d = (.ok value, d.set n slot)) :
    (answer = .ok value ∧ d.Updated n slot d') ∨
      faults = true ∧ answer = .error .other ∧ (d' = d ∨ d.Updated n slot d') := by
  rcases h.done_or_failed hlist happend with ⟨hanswer, hd⟩ | ⟨hfaults, hanswer, hd⟩
  · rw [hperform] at hanswer hd
    exact .inl ⟨hanswer, hd ▸ Disk.updated_set ..⟩
  · rw [hperform] at hd
    refine .inr ⟨hfaults, hanswer, hd.imp_right ?_⟩
    rintro rfl
    exact Disk.updated_set ..

theorem Outcome.create_cases {answer : Except IoErrorKind Unit} (hfile : d.file n = none)
    (h : (create n).Outcome faults d answer d') :
    (answer = .ok () ∧ d.Updated n ((d.slot n).change (some ⟨[], []⟩)) d') ∨
      faults = true ∧ answer = .error .other ∧
        (d' = d ∨ d.Updated n ((d.slot n).change (some ⟨[], []⟩)) d') :=
  h.updated_cases nofun nofun (by rw [perform, hfile])

theorem Outcome.sync_cases {answer : Except IoErrorKind Unit} (hfile : d.file n = some file)
    (h : (sync n).Outcome faults d answer d') :
    (answer = .ok () ∧ d.Updated n ((d.slot n).write (.durable file.bytes)) d') ∨
      faults = true ∧ answer = .error .other ∧
        (d' = d ∨ d.Updated n ((d.slot n).write (.durable file.bytes)) d') :=
  h.updated_cases nofun nofun (onFile_of_file hfile _)

theorem Outcome.sync_cases_of_none {answer : Except IoErrorKind Unit} (hfile : d.file n = none)
    (h : (sync n).Outcome faults d answer d') : d' = d ∧ ∃ e, answer = .error e := by
  have hperform : (sync n).perform d = (.error .notFound, d) := by
    rw [perform, onFile, hfile]
  rcases h.done_or_failed nofun nofun with ⟨rfl, rfl⟩ | ⟨-, rfl, hd⟩
  · rw [hperform]
    exact ⟨rfl, _, rfl⟩
  · rw [hperform] at hd
    exact ⟨hd.elim id id, _, rfl⟩

theorem Outcome.truncate_cases {length : ℕ} {answer : Except IoErrorKind Unit}
    (hfile : d.file n = some file) (h : (truncate n length).Outcome faults d answer d') :
    (answer = .ok () ∧
        d.Updated n ((d.slot n).write ⟨file.bytes.take length, file.synced⟩) d') ∨
      faults = true ∧ answer = .error .other ∧
        (d' = d ∨ d.Updated n ((d.slot n).write ⟨file.bytes.take length, file.synced⟩) d') :=
  h.updated_cases nofun nofun (onFile_of_file hfile _)

theorem Outcome.link_cases {m : N} {answer : Except IoErrorKind Unit}
    (hfile : d.file n = some file) (hnone : d.file m = none)
    (h : (link n m).Outcome faults d answer d') :
    (answer = .ok () ∧ d.Updated m ((d.slot m).change (some file)) d') ∨
      faults = true ∧ answer = .error .other ∧
        (d' = d ∨ d.Updated m ((d.slot m).change (some file)) d') :=
  h.updated_cases nofun nofun (by rw [perform, hfile, hnone])

theorem Outcome.remove_cases {answer : Except IoErrorKind Unit} (hfile : d.file n = some file)
    (h : (remove n).Outcome faults d answer d') :
    (answer = .ok () ∧ d.Updated n ((d.slot n).change none) d') ∨
      faults = true ∧ answer = .error .other ∧
        (d' = d ∨ d.Updated n ((d.slot n).change none) d') :=
  h.updated_cases nofun nofun (by rw [perform, hfile])

theorem Outcome.syncDirectory_cases {answer : Except IoErrorKind Unit}
    (h : (syncDirectory : Op N).Outcome faults d answer d') :
    (answer = .ok () ∧ d' = d.syncDirectory) ∨
      faults = true ∧ answer = .error .other ∧ (d' = d ∨ d' = d.syncDirectory) :=
  h.done_or_failed nofun nofun

end Inversion

end Op

end CrashFs
