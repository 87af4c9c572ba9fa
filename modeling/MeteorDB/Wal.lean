import MeteorDB.Batch
import MeteorDB.Checksum
import MeteorDB.Options

/-!
# The write-ahead log

A segment is a block-framed log of encoded batches. `WalWriter.append` checks a batch, encodes it
and returns the bytes it adds to the segment; `replayWal` reads a segment back. Both derive the
limit on an encoded record from `max_batch_bytes`.

The main result is the torn-tail law of a segment: the first `n` bytes of what was appended replay
to exactly the batches whose records lie entirely within them.
-/

namespace MeteorDB

open BlockLog

/-! ## Limits and errors -/

def logicalHeaderBytes : ℕ := 1 + 8 + 4
def maxOperationOverheadBytes : ℕ := 1 + 4 + 4 + 1 + 8

/-- The longest encoded record, derived from the longest payload. -/
def encodedRecordLimit (maxBatchBytes : ℕ) : Result ℕ :=
  if maxBatchBytes = 0 then
    .error (.invalidArgument "max_batch_bytes must be greater than zero")
  else
    match checkedMul maxBatchBytes maxOperationOverheadBytes
        |>.bind (checkedAdd · maxBatchBytes) |>.bind (checkedAdd · logicalHeaderBytes) with
    | some limit => .ok limit
    | none => .error (.invalidArgument
        "max_batch_bytes causes the encoded WAL record limit to overflow")

def walCorruption (detail : String) : Error := .corruption "WAL" detail

/-- The error for each physical fault. -/
def walFault : Fault → Error
  | .trailer => walCorruption "nonzero bytes in physical block trailer"
  | .crosses length =>
    walCorruption ("physical fragment length " ++ toString length ++ " crosses a block boundary")
  | .checksum => walCorruption "physical fragment checksum mismatch"
  | .unexpectedFull =>
    walCorruption "FULL fragment encountered before the previous record ended"
  | .unexpectedFirst =>
    walCorruption "FIRST fragment encountered before the previous record ended"
  | .orphan ty =>
    walCorruption ("fragment type " ++ toString ty.val ++ " has no preceding FIRST fragment")
  | .unknown ty => walCorruption ("unknown physical fragment type " ++ toString ty.val)

/-- The error for a logical record beyond the limit. -/
def walTooLong (maxLogicalRecordBytes : ℕ) : Error :=
  walCorruption ("logical record exceeds the " ++ toString maxLogicalRecordBytes
    ++ "-byte limit derived from max_batch_bytes")

/-! ## Writing -/

/-- The writer of one segment: its file, its limits, and the offset in the current block. -/
structure WalWriter where
  path : FileName
  maxBatchBytes : ℕ
  maxLogicalRecordBytes : ℕ
  blockOffset : ℕ
  deriving DecidableEq

namespace WalWriter

/-- The writer of a fresh segment. -/
def new (path : FileName) (maxBatchBytes : ℕ) : Result WalWriter := do
  let maxLogicalRecordBytes ← encodedRecordLimit maxBatchBytes
  return ⟨path, maxBatchBytes, maxLogicalRecordBytes, 0⟩

/-- The bytes of one logical record, and the writer after them. -/
def writeLogicalRecord [Crc32c] (writer : WalWriter) (logical : Bytes) : Bytes × WalWriter :=
  let (bytes, blockOffset) := emit logFraming writer.blockOffset true logical
  (bytes, { writer with blockOffset })

/-- The checks of `append`: the logical record of a batch, if the writer accepts the batch. -/
def encode (writer : WalWriter) (sequence : U64) (batch : WriteBatch) : Result Bytes :=
  if batch.isEmpty then .error (.invalidArgument "cannot append an empty write batch")
  else if writer.maxBatchBytes < batch.approximateBytes then
    .error (.invalidArgument ("write batch payload " ++ toString batch.approximateBytes
      ++ " exceeds max_batch_bytes " ++ toString writer.maxBatchBytes))
  else do
    let logical ← encodeBatch sequence batch
    if writer.maxLogicalRecordBytes < logical.length then
      throw (.invalidArgument ("encoded write batch " ++ toString logical.length
        ++ " exceeds the checked WAL limit " ++ toString writer.maxLogicalRecordBytes
        ++ " derived from max_batch_bytes " ++ toString writer.maxBatchBytes))
    else return logical

/-- The bytes that append one batch, and the writer after them. -/
def append [Crc32c] (writer : WalWriter) (sequence : U64) (batch : WriteBatch) :
    Result (Bytes × WalWriter) := do
  let logical ← writer.encode sequence batch
  return writer.writeLogicalRecord logical

/-- The bytes that append several batches in order, and the writer after them. -/
def appendAll [Crc32c] (writer : WalWriter) : List (U64 × WriteBatch) → Result (Bytes × WalWriter)
  | [] => .ok ([], writer)
  | (sequence, batch) :: rest => do
    let (bytes, writer) ← writer.append sequence batch
    let (more, writer) ← writer.appendAll rest
    return (bytes ++ more, writer)

end WalWriter

/-! ## Replay -/

/-- A complete atomic write recovered from a segment. -/
structure RecoveredBatch where
  sequence : U64
  batch : WriteBatch
  deriving DecidableEq

/-- Decodes a complete record and hands it on. -/
def decodeRecord {σ : Type} (maxBatchBytes maxLogicalRecordBytes : ℕ)
    (onRecord : σ → RecoveredBatch → Result σ) (out : σ) (encoded : Bytes) : Result σ :=
  if maxLogicalRecordBytes < encoded.length then .error (walTooLong maxLogicalRecordBytes)
  else do
    let (sequence, batch) ← decodeBatch encoded
    if maxBatchBytes < batch.approximateBytes then
      throw (walCorruption ("write batch payload " ++ toString batch.approximateBytes
        ++ " exceeds max_batch_bytes " ++ toString maxBatchBytes))
    else onRecord out ⟨sequence, batch⟩

/-- The consumer of a segment. -/
def walConsumer {σ : Type} (maxBatchBytes maxLogicalRecordBytes : ℕ)
    (onRecord : σ → RecoveredBatch → Result σ) : Consumer Error σ where
  fault := walFault
  limit := maxLogicalRecordBytes
  tooLong := walTooLong maxLogicalRecordBytes
  deliver := decodeRecord maxBatchBytes maxLogicalRecordBytes onRecord

/-- Replays the bytes of a segment through a callback; the summary gives the length of the file. -/
def replayWalStream [Crc32c] {σ : Type} (maxBatchBytes : ℕ) (bytes : Bytes)
    (onRecord : σ → RecoveredBatch → Result σ) (out : σ) : Result (Summary σ) := do
  let maxLogicalRecordBytes ← encodedRecordLimit maxBatchBytes
  replay logFraming (walConsumer maxBatchBytes maxLogicalRecordBytes onRecord) bytes out

/-- Every complete batch in the bytes of a segment. -/
def replayWal [Crc32c] (maxBatchBytes : ℕ) (bytes : Bytes) : Result (List RecoveredBatch) := do
  let summary ← replayWalStream maxBatchBytes bytes (fun out record ↦ .ok (out ++ [record])) []
  return summary.out

/-! ## What a segment holds -/

theorem length_record (sequence sequence' : U64) (batch : WriteBatch) :
    (batch.record sequence).length = (batch.record sequence').length := by
  simp [WriteBatch.record, ByteString.length_u64LeBytes]

/-- A batch the writer accepts: it is not empty, its payload and its record are within the limits,
and its counts and lengths fit their fields. -/
structure Accepted (maxBatchBytes maxLogicalRecordBytes : ℕ) (batch : WriteBatch) : Prop where
  nonempty : batch.operations ≠ []
  payload_le : batch.approximateBytes ≤ maxBatchBytes
  len_lt : batch.len < 2 ^ 32
  encodable : ∀ op ∈ batch.operations, op.Encodable
  record_le : ∀ sequence, (batch.record sequence).length ≤ maxLogicalRecordBytes

theorem Accepted.encodeBatch {maxBatchBytes maxLogicalRecordBytes : ℕ} {batch : WriteBatch}
    (h : Accepted maxBatchBytes maxLogicalRecordBytes batch) (sequence : U64) :
    encodeBatch sequence batch = .ok (batch.record sequence) :=
  encodeBatch_eq_ok.mpr ⟨h.len_lt, h.encodable, rfl⟩

/-- The writer encodes exactly the accepted batches. -/
theorem WalWriter.encode_eq_ok {writer : WalWriter} {sequence : U64} {batch : WriteBatch}
    {bytes : Bytes} :
    writer.encode sequence batch = .ok bytes ↔
      Accepted writer.maxBatchBytes writer.maxLogicalRecordBytes batch ∧
        bytes = batch.record sequence := by
  constructor
  · intro h
    unfold encode at h
    split_ifs at h with hempty hpayload
    cases henc : MeteorDB.encodeBatch sequence batch with
    | error e => rw [henc] at h; cases h
    | ok logical =>
      obtain ⟨hlen, hops, rfl⟩ := encodeBatch_eq_ok.mp henc
      simp only [henc, bind, Except.bind] at h
      split_ifs at h with hlimit
      refine ⟨⟨by simpa [WriteBatch.isEmpty] using hempty, by omega, hlen, hops, fun s ↦ ?_⟩,
        (Except.ok.inj h).symm⟩
      rw [length_record s sequence]
      omega
  · rintro ⟨h, rfl⟩
    have hempty : ¬ batch.isEmpty = true := by simpa [WriteBatch.isEmpty] using h.nonempty
    have hlimit := h.record_le sequence
    rw [encode, if_neg hempty, if_neg (by have := h.payload_le; omega), h.encodeBatch sequence]
    simp only [bind, Except.bind]
    rw [if_neg (by omega)]
    rfl

/-- Appending frames the record of an accepted batch. -/
theorem WalWriter.append_eq_ok [Crc32c] {writer : WalWriter} {sequence : U64} {batch : WriteBatch}
    {result : Bytes × WalWriter} :
    writer.append sequence batch = .ok result ↔
      Accepted writer.maxBatchBytes writer.maxLogicalRecordBytes batch ∧
        result = writer.writeLogicalRecord (batch.record sequence) := by
  rw [append, Decoder.bind_eq_ok]
  constructor
  · rintro ⟨logical, hencode, hreturn⟩
    obtain ⟨haccepted, rfl⟩ := encode_eq_ok.mp hencode
    exact ⟨haccepted, (Except.ok.inj hreturn).symm⟩
  · rintro ⟨haccepted, rfl⟩
    exact ⟨_, encode_eq_ok.mpr ⟨haccepted, rfl⟩, rfl⟩

/-- The logical records of a list of batches. -/
def logicalRecords (records : List (U64 × WriteBatch)) : List Bytes :=
  records.map fun r ↦ r.2.record r.1

/-- Appending a list of batches frames the list of their records. -/
theorem WalWriter.appendAll_eq_ok [Crc32c] {writer : WalWriter} {records : List (U64 × WriteBatch)}
    {result : Bytes × WalWriter} :
    writer.appendAll records = .ok result ↔
      (∀ r ∈ records, Accepted writer.maxBatchBytes writer.maxLogicalRecordBytes r.2) ∧
        result = ((emitAll logFraming writer.blockOffset (logicalRecords records)).1,
          { writer with
            blockOffset := (emitAll logFraming writer.blockOffset
              (logicalRecords records)).2 }) := by
  induction records generalizing writer result with
  | nil =>
    rw [appendAll]
    exact ⟨fun h ↦ ⟨nofun, (Except.ok.inj h).symm⟩, fun h ↦ by rw [h.2]; rfl⟩
  | cons r rest ih =>
    obtain ⟨sequence, batch⟩ := r
    rw [List.forall_mem_cons, appendAll]
    constructor
    · intro h
      cases happend : writer.append sequence batch with
      | error e => rw [happend] at h; cases h
      | ok first =>
        obtain ⟨haccepted, rfl⟩ := append_eq_ok.mp happend
        simp only [happend, bind, Except.bind] at h
        cases hmore : (writer.writeLogicalRecord (batch.record sequence)).2.appendAll rest with
        | error e => rw [hmore] at h; cases h
        | ok more =>
          obtain ⟨hrest, rfl⟩ := ih.mp hmore
          rw [hmore] at h
          exact ⟨⟨haccepted, hrest⟩, (Except.ok.inj h).symm⟩
    · rintro ⟨⟨haccepted, hrest⟩, rfl⟩
      rw [append_eq_ok.mpr ⟨haccepted, rfl⟩]
      simp only [bind, Except.bind]
      rw [(@ih (writer.writeLogicalRecord (batch.record sequence)).2 _).mpr ⟨hrest, rfl⟩]
      rfl

/-- The consumer decodes the record of an accepted batch to that batch. -/
theorem deliver_record {σ : Type} {maxBatchBytes maxLogicalRecordBytes : ℕ}
    {onRecord : σ → RecoveredBatch → Result σ} {batch : WriteBatch}
    (h : Accepted maxBatchBytes maxLogicalRecordBytes batch) (sequence : U64) (out : σ) :
    (walConsumer maxBatchBytes maxLogicalRecordBytes onRecord).deliver out (batch.record sequence)
      = onRecord out ⟨sequence, batch⟩ := by
  have hlimit := h.record_le sequence
  have hpayload := h.payload_le
  show decodeRecord _ _ _ _ _ = _
  rw [decodeRecord, if_neg (by omega),
    decodeBatch_encodeBatch (h.encodeBatch sequence) h.nonempty]
  simp only [bind, Except.bind]
  rw [if_neg (by omega)]

/-- Delivering the records of accepted batches collects them in order. -/
theorem deliver_records {maxBatchBytes maxLogicalRecordBytes : ℕ}
    {records : List (U64 × WriteBatch)}
    (h : ∀ r ∈ records, Accepted maxBatchBytes maxLogicalRecordBytes r.2)
    (out : List RecoveredBatch) :
    (logicalRecords records).foldlM
        (walConsumer maxBatchBytes maxLogicalRecordBytes
          (fun out record ↦ .ok (out ++ [record]))).deliver out
      = .ok (out ++ records.map fun r ↦ ⟨r.1, r.2⟩) := by
  induction records generalizing out with
  | nil => simp [logicalRecords, pure, Except.pure]
  | cons r rest ih =>
    rw [List.forall_mem_cons] at h
    rw [logicalRecords, List.map_cons, List.foldlM_cons, deliver_record h.1]
    simp only [bind, Except.bind]
    rw [← logicalRecords, ih h.2, List.map_cons, List.append_assoc, List.singleton_append]

private theorem record_ne_nil (sequence : U64) (batch : WriteBatch) : batch.record sequence ≠ [] :=
  List.cons_ne_nil _ _

theorem WalWriter.new_eq_ok {path : FileName} {maxBatchBytes : ℕ} {writer : WalWriter}
    (h : WalWriter.new path maxBatchBytes = .ok writer) :
    encodedRecordLimit maxBatchBytes = .ok writer.maxLogicalRecordBytes ∧
      writer.maxBatchBytes = maxBatchBytes ∧ writer.blockOffset = 0 := by
  unfold WalWriter.new at h
  cases hlimit : encodedRecordLimit maxBatchBytes with
  | error e => rw [hlimit] at h; cases h
  | ok limit =>
    rw [hlimit] at h
    cases h
    exact ⟨rfl, rfl, rfl⟩

/-- Replaying the first bytes of a segment, by the framed records. -/
theorem replayWal_take [Crc32c] {maxBatchBytes limit n : ℕ} {records : List (U64 × WriteBatch)}
    (hlimit : encodedRecordLimit maxBatchBytes = .ok limit)
    (haccepted : ∀ r ∈ records, Accepted maxBatchBytes limit r.2)
    (hn : n ≤ (emitAll logFraming 0 (logicalRecords records)).1.length) :
    ∃ m, Complete logFraming 0 (logicalRecords records) n m ∧
      replayWal maxBatchBytes ((emitAll logFraming 0 (logicalRecords records)).1.take n)
        = .ok ((records.take m).map fun r ↦ ⟨r.1, r.2⟩) := by
  have hrecords : ∀ record ∈ logicalRecords records, record ≠ [] ∧ record.length ≤ limit := by
    intro record hrecord
    obtain ⟨r, hr, rfl⟩ := List.mem_map.mp hrecord
    exact ⟨record_ne_nil _ _, (haccepted r hr).record_le _⟩
  obtain ⟨m, filled, out, hcomplete, -, -, hdeliver, hreplay⟩ :=
    replay_take (walConsumer maxBatchBytes limit fun out record ↦ .ok (out ++ [record]))
      hrecords (deliver_records haccepted []) hn
  have htake : (logicalRecords records).take m = logicalRecords (records.take m) :=
    List.map_take.symm
  rw [htake, deliver_records fun r hr ↦ haccepted r (List.mem_of_mem_take hr)] at hdeliver
  refine ⟨m, hcomplete, ?_⟩
  rw [replayWal, replayWalStream, hlimit]
  simp only [bind, Except.bind]
  rw [hreplay, ← Except.ok.inj hdeliver]
  rfl

/-- **Torn tails.** The first `n` bytes of what was appended to a fresh segment replay to exactly
the longest list of batches whose records lie entirely within them. -/
theorem replayWal_take_appendAll [Crc32c] (path : FileName) (maxBatchBytes : ℕ)
    (writer : WalWriter) (records : List (U64 × WriteBatch)) (bytes : Bytes) (writer' : WalWriter)
    (n : ℕ) (hnew : WalWriter.new path maxBatchBytes = .ok writer)
    (happend : writer.appendAll records = .ok (bytes, writer')) (hn : n ≤ bytes.length) :
    ∃ m ≤ records.length,
      (∀ k ≤ records.length, k ≤ m ↔
        ∃ written, writer.appendAll (records.take k) = .ok written ∧ written.1.length ≤ n) ∧
      replayWal maxBatchBytes (bytes.take n)
        = .ok ((records.take m).map fun r ↦ ⟨r.1, r.2⟩) := by
  obtain ⟨hlimit, hmax, hoffset⟩ := WalWriter.new_eq_ok hnew
  obtain ⟨haccepted, hresult⟩ := WalWriter.appendAll_eq_ok.mp happend
  obtain ⟨rfl, -⟩ := Prod.mk.inj hresult
  rw [hoffset] at hn ⊢
  rw [hmax] at haccepted
  obtain ⟨m, hcomplete, hreplay⟩ := replayWal_take hlimit haccepted hn
  have hlen : (logicalRecords records).length = records.length := List.length_map _
  have htake (k : ℕ) : logicalRecords (records.take k) = (logicalRecords records).take k :=
    List.map_take
  refine ⟨m, hlen ▸ hcomplete.le_length, fun k hk ↦ ⟨fun hkm ↦ ?_, ?_⟩, hreplay⟩
  · refine ⟨_, WalWriter.appendAll_eq_ok.mpr ⟨fun r hr ↦ ?_, rfl⟩, ?_⟩
    · rw [hmax]
      exact haccepted r (List.mem_of_mem_take hr)
    · rw [hoffset, htake]
      exact (hcomplete.le_iff_within (hlen ▸ hk)).mp hkm
  · rintro ⟨written, hwritten, hle⟩
    obtain ⟨-, rfl⟩ := WalWriter.appendAll_eq_ok.mp hwritten
    rw [hoffset, htake] at hle
    exact (hcomplete.le_iff_within (hlen ▸ hk)).mpr hle

/-- A segment of two batches cut inside the second. -/
theorem replayWal_take_appendAll_cut :
    letI := castagnoli
    let records : List (U64 × WriteBatch) :=
      [(1, WriteBatch.empty.put [107] [118]), (2, WriteBatch.empty.delete [107])]
    ∃ writer bytes writer', WalWriter.new (.wal 2) 64 = .ok writer ∧
      writer.appendAll records = .ok (bytes, writer') ∧ 40 ≤ bytes.length ∧
      ∃ m ≤ records.length,
        (∀ k ≤ records.length, k ≤ m ↔
          ∃ written, writer.appendAll (records.take k) = .ok written ∧ written.1.length ≤ 40) ∧
        replayWal 64 (bytes.take 40) = .ok ((records.take m).map fun r ↦ ⟨r.1, r.2⟩) := by
  let := castagnoli
  intro records
  have hnew : WalWriter.new (.wal 2) 64 = .ok ⟨.wal 2, 64, 1229, 0⟩ := rfl
  have haccepted : ∀ r ∈ records, Accepted 64 1229 r.2 := by
    simp only [records, List.forall_mem_cons, List.not_mem_nil, false_imp_iff, implies_true,
      and_true]
    exact ⟨⟨nofun, by decide, by decide, by decide, fun s ↦ by rw [length_record s 0]; decide⟩,
      ⟨nofun, by decide, by decide, by decide, fun s ↦ by rw [length_record s 0]; decide⟩⟩
  have happend := (@WalWriter.appendAll_eq_ok _ ⟨.wal 2, 64, 1229, 0⟩ records _).mpr
    ⟨haccepted, rfl⟩
  have hlen : 40 ≤ (emitAll logFraming 0 (logicalRecords records)).1.length := by decide +kernel
  exact ⟨_, _, _, hnew, happend, hlen,
    replayWal_take_appendAll _ _ _ records _ _ 40 hnew happend hlen⟩

end MeteorDB
