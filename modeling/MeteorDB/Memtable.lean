import MeteorDB.Batch
import MeteorDB.Entry
import MeteorDB.Options

/-!
# Memtables

An ordered in-memory run of versions. Applying a batch first reduces it to the final operation on
each key, then prepares every internal key, and only then changes the table, so that a rejected
sequence leaves it as it was.

`MemTable.apply_eq_ok` gives the entries after a batch: the old ones and, for every key of the
batch, the record of the last operation on it under the batch's sequence.
-/

namespace MeteorDB

open OrderedList

/-! ## The final operations of a batch -/

namespace WriteOp

/-- The record an operation leaves behind. -/
def toRecord : WriteOp → ValueRecord
  | put _ value expiresAtUnixMs => .value value expiresAtUnixMs
  | delete _ => .tombstone

end WriteOp

/-- The ordered map from the keys of a batch to the record of the last operation on each. -/
def finalOperations (batch : WriteBatch) : List (Bytes × ValueRecord) :=
  batch.operations.foldl (fun final op ↦ insert Prod.fst (op.key, op.toRecord) final) []

/-- The record a batch leaves for a key: that of the last operation on it. -/
def WriteBatch.recordFor (batch : WriteBatch) (key : Bytes) : Option ValueRecord :=
  (batch.operations.findRev? fun op ↦ op.key = key).map WriteOp.toRecord

theorem finalOperations_spec (batch : WriteBatch) :
    Increasing Prod.fst (finalOperations batch) ∧
      ∀ key record, (key, record) ∈ finalOperations batch ↔ batch.recordFor key = some record := by
  obtain ⟨ops⟩ := batch
  induction ops using List.reverseRecOn with
  | nil => simp [finalOperations, WriteBatch.recordFor, Increasing]
  | append_singleton ops op ih =>
    obtain ⟨hinc, hmem⟩ := ih
    have hfold : finalOperations ⟨ops ++ [op]⟩
        = insert Prod.fst (op.key, op.toRecord) (finalOperations ⟨ops⟩) := by
      simp [finalOperations, List.foldl_append]
    have hfor (key : Bytes) : WriteBatch.recordFor ⟨ops ++ [op]⟩ key
        = if op.key = key then some op.toRecord else WriteBatch.recordFor ⟨ops⟩ key := by
      simp only [WriteBatch.recordFor, List.findRev?_eq_find?_reverse, List.reverse_append,
        List.reverse_singleton, List.singleton_append, List.find?_cons]
      by_cases h : op.key = key <;> simp [h]
    rw [hfold]
    refine ⟨hinc.insert, fun key record ↦ ?_⟩
    rw [mem_insert hinc, hfor]
    by_cases h : op.key = key
    · simp [h, eq_comm]
    · rw [if_neg h, hmem]
      simp [Ne.symm h]

/-! ## Tables -/

/-- A run of versions with the bytes it is charged for. -/
structure MemTable where
  entries : List InternalEntry
  approximateBytes : ℕ
  run : Run entries

namespace MemTable

def empty : MemTable := ⟨[], 0, .nil⟩

def isEmpty (table : MemTable) : Bool := table.entries.isEmpty

/-- Addition that stops at the largest `usize`. -/
def saturatingAdd (a b : ℕ) : ℕ := min (a + b) (usizeRange - 1)

/-- The bytes charged for a record: the value and its optional deadline. -/
def recordBytes : ValueRecord → ℕ
  | .value value _ => value.length + 16
  | .tombstone => 0

/-- The bytes charged for an entry, added to those of the table. -/
def chargedBytes (bytes : ℕ) (entry : InternalEntry) : ℕ :=
  saturatingAdd (saturatingAdd bytes entry.key.asBytes.length) (recordBytes entry.record)

/-- Adds one prepared entry. -/
def insertEntry (table : MemTable) (entry : InternalEntry) : MemTable where
  entries := insert InternalEntry.key entry table.entries
  approximateBytes := chargedBytes table.approximateBytes entry
  run := Increasing.insert table.run

/-- The entry of a final operation at a sequence. -/
def prepareEntry (sequence : SequenceNumber) (final : Bytes × ValueRecord) : Result InternalEntry :=
  if h : sequence.val < maxU64 then .ok ⟨⟨final.1, sequence, final.2.kind, h⟩, final.2, rfl⟩
  else .error (.invalidArgument "sequence number must be less than u64::MAX")

/-- Applies one complete batch at a sequence. -/
def apply (table : MemTable) (sequence : SequenceNumber) (batch : WriteBatch) :
    Result MemTable := do
  let prepared ← (finalOperations batch).mapM (prepareEntry sequence)
  return prepared.foldl insertEntry table

/-- The newest entry of a user key visible at a sequence. -/
def getEntry (table : MemTable) (userKey : Bytes) (sequence : SequenceNumber) :
    Result (Option InternalEntry) := do
  let seek ← InternalKey.tryNew userKey sequence .deletion
  return (table.entries.find? fun entry ↦ seek ≤ entry.key).filter
    fun entry ↦ entry.key.userKey = userKey

/-- The entries whose keys satisfy a test. -/
def ownedEntriesMatching (table : MemTable) (matching : InternalKey → Bool) : List InternalEntry :=
  table.entries.filter fun entry ↦ matching entry.key

/-! ## Lookups -/

/-- A lookup below the reserved sequence returns the newest visible entry. -/
theorem getEntry_eq (table : MemTable) (userKey : Bytes) {sequence : SequenceNumber}
    (h : sequence.val < maxU64) :
    table.getEntry userKey sequence = .ok (newest userKey sequence table.entries) := by
  have hseek : InternalKey.tryNew userKey sequence .deletion
      = .ok ⟨userKey, sequence, .deletion, h⟩ := dif_pos h
  rw [getEntry, hseek, ← find?_seek_eq_newest table.run hseek]
  rfl

/-- **Internal key order.** The encodings are ordered by user key, then by descending sequence, then
by kind; so a lookup returns the version of the user key with the greatest sequence that is not
above the bound, and nothing if there is none. -/
theorem asBytes_order_and_getEntry (a b : InternalKey) (table : MemTable) (userKey : Bytes)
    {sequence : SequenceNumber} (hsequence : sequence.val < maxU64) :
    (a.asBytes < b.asBytes ↔ a.userKey < b.userKey ∨ a.userKey = b.userKey ∧
      (b.sequence < a.sequence ∨
        a.sequence = b.sequence ∧ a.kind = .deletion ∧ b.kind = .value)) ∧
    (a.asBytes = b.asBytes ↔
      a.userKey = b.userKey ∧ a.sequence = b.sequence ∧ a.kind = b.kind) ∧
    ∃ found, table.getEntry userKey sequence = .ok found ∧
      (∀ entry, found = some entry → entry ∈ table.entries ∧ entry.key.userKey = userKey ∧
        entry.key.sequence ≤ sequence ∧
        ∀ other ∈ table.entries, other.key.userKey = userKey → other.key.sequence ≤ sequence →
          other.key.sequence ≤ entry.key.sequence) ∧
      (found = none → ∀ entry ∈ table.entries, entry.key.userKey = userKey →
        ¬ entry.key.sequence ≤ sequence) := by
  refine ⟨?_, ?_, _, table.getEntry_eq userKey hsequence, fun entry hentry ↦ ?_, fun hnone ↦ ?_⟩
  · rw [InternalKey.asBytes_lt_asBytes, ValueKind.byte_lt_byte]
  · rw [InternalKey.asBytes_injective.eq_iff, InternalKey.ext_iff]
  · obtain ⟨hfound, before, after, hsplit, hbefore⟩ := List.find?_eq_some_iff_append.mp hentry
    obtain ⟨huser, hle⟩ := of_decide_eq_true hfound
    refine ⟨List.mem_of_find?_eq_some hentry, huser, hle, fun other hother huser' hle' ↦ ?_⟩
    -- A visible version is not before the one found, and sequences descend after it.
    have hrun := table.run.sequence_le
    rw [hsplit] at hother hrun
    rcases List.mem_append.mp hother with hmem | hmem
    · have hhidden := hbefore other hmem
      rw [decide_eq_true ⟨huser', hle'⟩] at hhidden
      exact absurd hhidden Bool.false_ne_true
    · rcases List.mem_cons.mp hmem with rfl | hmem
      · exact le_rfl
      · have hpairs := (List.pairwise_cons.mp (List.pairwise_append.mp hrun).2.1).1
        exact hpairs other hmem (huser.trans huser'.symm)
  · intro entry hentry huser hle
    exact absurd (decide_eq_true ⟨huser, hle⟩) (List.find?_eq_none.mp hnone entry hentry)

/-- A table with two versions of one user key. -/
theorem asBytes_order_and_getEntry_twoVersions :
    let old : InternalEntry := ⟨⟨[0], 1, .value, by decide⟩, .value [7] none, rfl⟩
    let new : InternalEntry := ⟨⟨[0], 2, .deletion, by decide⟩, .tombstone, rfl⟩
    let table := (empty.insertEntry old).insertEntry new
    new.key.asBytes < old.key.asBytes ∧
      ∃ entry, table.getEntry [0] 1 = .ok (some entry) ∧ entry.key.sequence ≤ 1 := by
  intro old new table
  obtain ⟨horder, -, found, hget, hsome, hnone⟩ := asBytes_order_and_getEntry new.key old.key table
    [0] (show (1 : SequenceNumber).val < maxU64 by decide)
  refine ⟨horder.mpr (.inr ⟨rfl, .inl (by decide)⟩), ?_⟩
  cases found with
  | none => exact absurd (le_refl 1) (hnone rfl old (by decide) rfl)
  | some entry => exact ⟨entry, hget, (hsome entry rfl).2.2.1⟩

/-! ## Applying a batch -/

/-- The entry of a record under a user key and a sequence. -/
def entryAt (sequence : SequenceNumber) (h : sequence.val < maxU64) (userKey : Bytes)
    (record : ValueRecord) : InternalEntry :=
  ⟨⟨userKey, sequence, record.kind, h⟩, record, rfl⟩

theorem mapM_prepareEntry {sequence : SequenceNumber} (h : sequence.val < maxU64)
    (final : List (Bytes × ValueRecord)) :
    final.mapM (prepareEntry sequence) = .ok (final.map fun f ↦ entryAt sequence h f.1 f.2) := by
  induction final with
  | nil => rfl
  | cons f final ih =>
    rw [List.mapM_cons, ih, prepareEntry, dif_pos h]
    rfl

private theorem mem_foldl_insertEntry {entries : List InternalEntry} {table : MemTable}
    (hfresh : ∀ a ∈ table.entries, ∀ b ∈ entries, a.key ≠ b.key)
    (hdistinct : entries.Pairwise fun a b ↦ a.key ≠ b.key) {x : InternalEntry} :
    x ∈ (entries.foldl insertEntry table).entries ↔ x ∈ table.entries ∨ x ∈ entries := by
  induction entries generalizing table with
  | nil => simp
  | cons e entries ih =>
    obtain ⟨he, hentries⟩ := List.pairwise_cons.mp hdistinct
    have hmem {y : InternalEntry} :
        y ∈ (table.insertEntry e).entries ↔ y = e ∨ y ∈ table.entries := by
      rw [insertEntry, mem_insert table.run]
      refine or_congr_right ⟨And.left, fun hy ↦ ⟨hy, hfresh y hy e (List.mem_cons_self ..)⟩⟩
    rw [List.foldl_cons, ih (fun a ha b hb ↦ ?_) hentries, hmem, List.mem_cons, or_left_comm,
      or_assoc]
    rcases hmem.mp ha with rfl | ha
    · exact he b hb
    · exact hfresh a ha b (List.mem_cons_of_mem e hb)

/-- A batch is applied at any sequence but the reserved one, and adds, for every key it writes, the
record of the last operation on that key. -/
theorem apply_eq_ok (table : MemTable) {sequence : SequenceNumber} (h : sequence.val < maxU64)
    (batch : WriteBatch) :
    ∃ table', table.apply sequence batch = .ok table' ∧
      ((∀ a ∈ table.entries, a.key.sequence ≠ sequence) → ∀ x, x ∈ table'.entries ↔
        x ∈ table.entries ∨
          ∃ userKey record, batch.recordFor userKey = some record ∧
            x = entryAt sequence h userKey record) := by
  obtain ⟨hinc, hfinal⟩ := finalOperations_spec batch
  refine ⟨((finalOperations batch).map fun f ↦ entryAt sequence h f.1 f.2).foldl insertEntry table,
    ?_, fun hfresh x ↦ ?_⟩
  · rw [apply, mapM_prepareEntry h]
    rfl
  · rw [mem_foldl_insertEntry]
    · refine or_congr_right ?_
      rw [List.mem_map]
      constructor
      · rintro ⟨⟨userKey, record⟩, hmem, rfl⟩
        exact ⟨userKey, record, (hfinal userKey record).mp hmem, rfl⟩
      · rintro ⟨userKey, record, hrecord, rfl⟩
        exact ⟨(userKey, record), (hfinal userKey record).mpr hrecord, rfl⟩
    · intro a ha b hb hkey
      obtain ⟨f, -, rfl⟩ := List.mem_map.mp hb
      exact hfresh a ha (congrArg InternalKey.sequence hkey)
    · rw [List.pairwise_map]
      refine hinc.imp fun {a b} hab hkey ↦ ?_
      exact hab.ne (congrArg InternalKey.userKey hkey)

end MemTable

end MeteorDB
