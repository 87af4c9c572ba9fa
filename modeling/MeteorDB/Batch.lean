import MeteorDB.Lib.Decoder
import MeteorDB.Error

/-!
# Write batches

An ordered group of writes and its encoding as one logical record of the write-ahead log. Encoding
fails when a count or a length does not fit its four-byte field; decoding accepts exactly one
record and reports what is malformed about anything else. `encodeBatch_decodeBatch` says that the
two are inverse to each other.
-/

namespace MeteorDB

open ByteString Decoder

/-! ## Operations and batches -/

/-- One mutation. -/
inductive WriteOp where
  | put (key value : Bytes) (expiresAtUnixMs : Option U64)
  | delete (key : Bytes)
  deriving DecidableEq, Repr

namespace WriteOp

/-- The key an operation writes. -/
def key : WriteOp → Bytes
  | put key _ _ => key
  | delete key => key

/-- The key and value bytes of an operation. -/
def payloadBytes : WriteOp → ℕ
  | put key value _ => key.length + value.length
  | delete key => key.length

end WriteOp

/-- Mutations in insertion order. -/
structure WriteBatch where
  operations : List WriteOp
  deriving DecidableEq, Repr

namespace WriteBatch

def empty : WriteBatch := ⟨[]⟩

def putWithExpiration (batch : WriteBatch) (key value : Bytes) (expiresAtUnixMs : Option U64) :
    WriteBatch :=
  ⟨batch.operations ++ [.put key value expiresAtUnixMs]⟩

def put (batch : WriteBatch) (key value : Bytes) : WriteBatch :=
  batch.putWithExpiration key value none

def delete (batch : WriteBatch) (key : Bytes) : WriteBatch :=
  ⟨batch.operations ++ [.delete key]⟩

def len (batch : WriteBatch) : ℕ := batch.operations.length

def isEmpty (batch : WriteBatch) : Bool := batch.operations.isEmpty

/-- The combined key and value bytes. The source keeps this sum as a running total and panics when
it leaves the range of `usize`, so a batch for which it could differ from the sum does not exist. -/
def approximateBytes (batch : WriteBatch) : ℕ :=
  (batch.operations.map WriteOp.payloadBytes).sum

end WriteBatch

def batchFormatVersion : Byte := 1
def maxWriteBatchOperations : ℕ := 2 ^ 32 - 1
def putTag : Byte := 1
def deleteTag : Byte := 2

/-! ## Encoding -/

/-- The four-byte length of a key or value. -/
def encodeLength (name : String) (length : ℕ) : Result Bytes :=
  if length < 2 ^ 32 then .ok (leBytes 4 length)
  else .error (.invalidArgument (name ++ " length exceeds the WAL u32 limit"))

/-- An expiration marker and, if there is one, the deadline. -/
def encodeExpiration : Option U64 → Bytes
  | some expiration => 1 :: u64LeBytes expiration
  | none => [0]

/-- The encoding of one operation. -/
def encodeOperation : WriteOp → Result Bytes
  | .put key value expiresAtUnixMs => do
    let keyLength ← encodeLength "key" key.length
    let valueLength ← encodeLength "value" value.length
    return putTag :: (keyLength ++ (valueLength ++ (encodeExpiration expiresAtUnixMs
      ++ (key ++ value))))
  | .delete key => do
    let keyLength ← encodeLength "key" key.length
    return deleteTag :: (keyLength ++ key)

/-- The logical record of a batch. -/
def encodeBatch (sequence : U64) (batch : WriteBatch) : Result Bytes :=
  if 2 ^ 32 ≤ batch.len then
    .error (.invalidArgument "write batch contains more than u32::MAX operations")
  else do
    let operations ← batch.operations.mapM encodeOperation
    return batchFormatVersion ::
      (u64LeBytes sequence ++ (leBytes 4 batch.len ++ operations.flatten))

/-! ## Decoding -/

/-- A malformed batch. -/
def batchCorruption (detail : String) : Error := .corruption "WAL batch" detail

/-- The error for a field that is cut short. -/
def batchShort (field : String) (length remaining : ℕ) : Error :=
  batchCorruption (field ++ " declares " ++ toString length ++ " bytes with only "
    ++ toString remaining ++ " remaining")

def readBytes (field : String) (length : ℕ) : Decoder Error Bytes :=
  takeBytes (batchShort field length) length

def readU8 (field : String) : Decoder Error Byte := takeByte (batchShort field 1)

def readU32 (field : String) : Decoder Error ℕ := takeLe (batchShort field 4) 4

def readU64 (field : String) : Decoder Error U64 := takeU64 (batchShort field 8)

/-- The deadline of a put. -/
def decodeExpiration : Decoder Error (Option U64) := do
  let marker ← readU8 "expiration marker"
  if marker = 0 then return none
  else if marker = 1 then
    let expiration ← readU64 "expiration timestamp"
    return some expiration
  else throw (batchCorruption ("unknown expiration marker " ++ toString marker.val))

/-- One operation. -/
def decodeOperation : Decoder Error WriteOp := do
  let tag ← readU8 "operation tag"
  if tag = putTag then
    let keyLength ← readU32 "put key length"
    let valueLength ← readU32 "put value length"
    let expiration ← decodeExpiration
    let key ← readBytes "put key" keyLength
    let value ← readBytes "put value" valueLength
    return .put key value expiration
  else if tag = deleteTag then
    let keyLength ← readU32 "delete key length"
    let key ← readBytes "delete key" keyLength
    return .delete key
  else throw (batchCorruption ("unknown operation tag " ++ toString tag.val))

/-- The fields of a logical record. -/
def batchFields : Decoder Error (U64 × WriteBatch) := do
  let version ← readU8 "format version"
  if version ≠ batchFormatVersion then throw (.unsupportedFormat "WAL batch" version.val)
  else
    let sequence ← readU64 "sequence"
    let operationCount ← readU32 "operation count"
    if operationCount = 0 then throw (batchCorruption "batch contains no operations")
    else
      let operations ← times decodeOperation operationCount
      return (sequence, ⟨operations⟩)

/-- The batch of a logical record. -/
def decodeBatch (encoded : Bytes) : Result (U64 × WriteBatch) := do
  let (fields, rest) ← batchFields encoded
  if rest ≠ [] then
    throw (batchCorruption (toString rest.length ++ " trailing bytes after write batch"))
  else return fields

/-! ## Round trip -/

/-- The lengths of an operation fit their fields. -/
def WriteOp.Encodable : WriteOp → Prop
  | .put key value _ => key.length < 2 ^ 32 ∧ value.length < 2 ^ 32
  | .delete key => key.length < 2 ^ 32

instance : DecidablePred WriteOp.Encodable := fun op ↦
  match op with
  | .put .. => inferInstanceAs (Decidable (_ ∧ _))
  | .delete .. => inferInstanceAs (Decidable (_ < _))

/-- The bytes of an encodable operation. -/
def WriteOp.bytes : WriteOp → Bytes
  | .put key value expiresAtUnixMs =>
    putTag :: (leBytes 4 key.length ++ (leBytes 4 value.length
      ++ (encodeExpiration expiresAtUnixMs ++ (key ++ value))))
  | .delete key => deleteTag :: (leBytes 4 key.length ++ key)

private theorem encodeLength_eq_ok {name : String} {length : ℕ} {bytes : Bytes} :
    encodeLength name length = .ok bytes ↔ length < 2 ^ 32 ∧ bytes = leBytes 4 length := by
  unfold encodeLength
  split_ifs with h
  · exact ⟨fun heq ↦ ⟨h, (Except.ok.inj heq).symm⟩, fun heq ↦ by rw [heq.2]⟩
  · exact ⟨nofun, fun heq ↦ absurd heq.1 h⟩

/-- An operation is encoded exactly when its lengths fit their fields. -/
theorem encodeOperation_eq_ok (op : WriteOp) (bytes : Bytes) :
    encodeOperation op = .ok bytes ↔ op.Encodable ∧ bytes = op.bytes := by
  cases op with
  | put key value expiresAtUnixMs =>
    by_cases hkey : key.length < 2 ^ 32
    · by_cases hvalue : value.length < 2 ^ 32
      · simp only [encodeOperation, encodeLength_eq_ok.mpr ⟨hkey, rfl⟩,
          encodeLength_eq_ok.mpr ⟨hvalue, rfl⟩]
        exact ⟨fun h ↦ ⟨⟨hkey, hvalue⟩, (Except.ok.inj h).symm⟩, fun h ↦ by rw [h.2]; rfl⟩
      · simp only [encodeOperation, encodeLength, if_pos hkey, if_neg hvalue]
        exact ⟨nofun, fun h ↦ absurd h.1.2 hvalue⟩
    · simp only [encodeOperation, encodeLength, if_neg hkey]
      exact ⟨nofun, fun h ↦ absurd h.1.1 hkey⟩
  | delete key =>
    by_cases hkey : key.length < 2 ^ 32
    · simp only [encodeOperation, encodeLength_eq_ok.mpr ⟨hkey, rfl⟩]
      exact ⟨fun h ↦ ⟨hkey, (Except.ok.inj h).symm⟩, fun h ↦ by rw [h.2]; rfl⟩
    · simp only [encodeOperation, encodeLength, if_neg hkey]
      exact ⟨nofun, fun h ↦ absurd h.1 hkey⟩

/-- The logical record of an encodable batch. -/
def WriteBatch.record (sequence : U64) (batch : WriteBatch) : Bytes :=
  batchFormatVersion ::
    (u64LeBytes sequence ++ (leBytes 4 batch.len ++ batch.operations.flatMap WriteOp.bytes))

/-- A batch is encoded exactly when every count and length fits its field. -/
theorem encodeBatch_eq_ok {sequence : U64} {batch : WriteBatch} {bytes : Bytes} :
    encodeBatch sequence batch = .ok bytes ↔
      batch.len < 2 ^ 32 ∧ (∀ op ∈ batch.operations, op.Encodable) ∧
        bytes = batch.record sequence := by
  by_cases hlen : 2 ^ 32 ≤ batch.len
  · rw [encodeBatch, if_pos hlen]
    exact ⟨nofun, fun h ↦ absurd h.1 (Nat.not_lt.mpr hlen)⟩
  · rw [encodeBatch, if_neg hlen]
    cases hops : batch.operations.mapM encodeOperation with
    | error e =>
      refine ⟨nofun, fun h ↦ ?_⟩
      rw [(mapM_eq_ok_iff encodeOperation_eq_ok).mpr ⟨h.2.1, rfl⟩] at hops
      cases hops
    | ok pieces =>
      obtain ⟨hall, rfl⟩ := (mapM_eq_ok_iff encodeOperation_eq_ok).mp hops
      refine ⟨fun h ↦ ?_, fun h ↦ ?_⟩
      · cases h
        exact ⟨Nat.lt_of_not_le hlen, hall, rfl⟩
      · rw [h.2.2]
        rfl

private theorem decodes_expiration (expiration : Option U64) :
    Decodes decodeExpiration (encodeExpiration expiration) expiration := by
  cases expiration with
  | none => exact (decodes_takeByte 0).bind_nil (.pure none)
  | some deadline => exact (decodes_takeByte 1).bind ((decodes_takeU64 deadline).bind_nil (.pure _))

private theorem decodes_operation {op : WriteOp} (h : op.Encodable) :
    Decodes decodeOperation op.bytes op := by
  cases op with
  | put key value expiresAtUnixMs =>
    refine (decodes_takeByte putTag).bind ?_
    refine (decodes_takeLe h.1).bind ?_
    refine (decodes_takeLe h.2).bind ?_
    refine (decodes_expiration expiresAtUnixMs).bind ?_
    exact (decodes_takeBytes rfl).bind ((decodes_takeBytes rfl).bind_nil (.pure _))
  | delete key =>
    refine (decodes_takeByte deleteTag).bind ?_
    exact (decodes_takeLe h).bind ((decodes_takeBytes rfl).bind_nil (.pure _))

private theorem decodes_batchFields (sequence : U64) {batch : WriteBatch}
    (hlen : batch.len < 2 ^ 32)
    (hops : ∀ op ∈ batch.operations, op.Encodable) (hne : batch.operations ≠ []) :
    Decodes batchFields (batch.record sequence) (sequence, batch) := by
  refine (decodes_takeByte batchFormatVersion).bind ?_
  rw [if_neg (not_not.mpr rfl)]
  refine (decodes_takeU64 sequence).bind ?_
  refine (decodes_takeLe hlen).bind ?_
  have hcount : batch.len ≠ 0 := fun h ↦ hne (List.length_eq_zero_iff.mp h)
  rw [if_neg hcount]
  exact (decodes_times fun op hop ↦ decodes_operation (hops op hop)).bind_nil (.pure _)

/-- Decoding gives back the sequence and the batch that were encoded. -/
theorem decodeBatch_encodeBatch {sequence : U64} {batch : WriteBatch} {bytes : Bytes}
    (h : encodeBatch sequence batch = .ok bytes) (hne : batch.operations ≠ []) :
    decodeBatch bytes = .ok (sequence, batch) := by
  obtain ⟨hlen, hops, rfl⟩ := encodeBatch_eq_ok.mp h
  have hfields := decodes_batchFields sequence hlen hops hne []
  rw [List.append_nil] at hfields
  rw [decodeBatch, hfields]
  rfl

/-! ## What is accepted -/

private theorem exact_expiration : Exact decodeExpiration encodeExpiration fun _ ↦ True := by
  intro input expiration rest h
  obtain ⟨marker, r₁, hmarker, h₁⟩ := run_bind_eq_ok.mp h
  obtain ⟨-, rfl⟩ := exact_takeByte _ hmarker
  refine ⟨trivial, ?_⟩
  split_ifs at h₁ with hzero hone
  · obtain ⟨rfl, rfl⟩ := run_pure_eq_ok.mp h₁
    rw [hzero]
    rfl
  · obtain ⟨deadline, r₂, hdeadline, h₂⟩ := run_bind_eq_ok.mp h₁
    obtain ⟨-, rfl⟩ := exact_takeU64 _ hdeadline
    obtain ⟨rfl, rfl⟩ := run_pure_eq_ok.mp h₂
    rw [hone]
    rfl
  · cases h₁

private theorem exact_operation : Exact decodeOperation WriteOp.bytes WriteOp.Encodable := by
  intro input op rest h
  obtain ⟨tag, r₁, htag, h₁⟩ := run_bind_eq_ok.mp h
  obtain ⟨-, rfl⟩ := exact_takeByte _ htag
  split_ifs at h₁ with hput hdelete
  · obtain ⟨keyLength, r₂, hkeyLength, h₂⟩ := run_bind_eq_ok.mp h₁
    obtain ⟨valueLength, r₃, hvalueLength, h₃⟩ := run_bind_eq_ok.mp h₂
    obtain ⟨expiration, r₄, hexpiration, h₄⟩ := run_bind_eq_ok.mp h₃
    obtain ⟨key, r₅, hkey, h₅⟩ := run_bind_eq_ok.mp h₄
    obtain ⟨value, r₆, hvalue, h₆⟩ := run_bind_eq_ok.mp h₅
    obtain ⟨hkeyLt, rfl⟩ := exact_takeLe _ 4 hkeyLength
    obtain ⟨hvalueLt, rfl⟩ := exact_takeLe _ 4 hvalueLength
    obtain ⟨-, rfl⟩ := exact_expiration hexpiration
    obtain ⟨rfl, rfl⟩ := exact_takeBytes _ _ hkey
    obtain ⟨rfl, rfl⟩ := exact_takeBytes _ _ hvalue
    obtain ⟨rfl, rfl⟩ := run_pure_eq_ok.mp h₆
    refine ⟨⟨hkeyLt, hvalueLt⟩, ?_⟩
    rw [hput]
    simp [WriteOp.bytes]
  · obtain ⟨keyLength, r₂, hkeyLength, h₂⟩ := run_bind_eq_ok.mp h₁
    obtain ⟨key, r₃, hkey, h₃⟩ := run_bind_eq_ok.mp h₂
    obtain ⟨hkeyLt, rfl⟩ := exact_takeLe _ 4 hkeyLength
    obtain ⟨rfl, rfl⟩ := exact_takeBytes _ _ hkey
    obtain ⟨rfl, rfl⟩ := run_pure_eq_ok.mp h₃
    refine ⟨hkeyLt, ?_⟩
    rw [hdelete]
    simp [WriteOp.bytes]
  · cases h₁

private theorem exact_batchFields :
    Exact batchFields (fun fields ↦ fields.2.record fields.1) fun fields ↦
      fields.2.len < 2 ^ 32 ∧ ∀ op ∈ fields.2.operations, op.Encodable := by
  intro input fields rest h
  obtain ⟨version, r₁, hversion, h₁⟩ := run_bind_eq_ok.mp h
  obtain ⟨-, rfl⟩ := exact_takeByte _ hversion
  split_ifs at h₁ with hunsupported
  · cases h₁
  obtain ⟨sequence, r₂, hsequence, h₂⟩ := run_bind_eq_ok.mp h₁
  obtain ⟨count, r₃, hcount, h₃⟩ := run_bind_eq_ok.mp h₂
  obtain ⟨-, rfl⟩ := exact_takeU64 _ hsequence
  obtain ⟨hcountLt, rfl⟩ := exact_takeLe _ 4 hcount
  split_ifs at h₃ with hempty
  · cases h₃
  obtain ⟨operations, r₄, hoperations, h₄⟩ := run_bind_eq_ok.mp h₃
  obtain ⟨⟨rfl, hall⟩, rfl⟩ := exact_times exact_operation count hoperations
  obtain ⟨rfl, rfl⟩ := run_pure_eq_ok.mp h₄
  refine ⟨⟨hcountLt, hall⟩, ?_⟩
  rw [not_not.mp hunsupported]
  simp [WriteBatch.record, WriteBatch.len]

/-- **The codec of batches.** A batch that is not empty and whose count and lengths fit their fields
is encoded and decoded to itself, and whatever is decoded is encoded to the bytes it was decoded
from. -/
theorem encodeBatch_decodeBatch :
    (∀ (sequence : U64) (batch : WriteBatch), batch.operations ≠ [] → batch.len < 2 ^ 32 →
      (∀ op ∈ batch.operations, op.Encodable) →
      ∃ bytes, encodeBatch sequence batch = .ok bytes ∧
        decodeBatch bytes = .ok (sequence, batch)) ∧
    ∀ (bytes : Bytes) (sequence : U64) (batch : WriteBatch),
      decodeBatch bytes = .ok (sequence, batch) → encodeBatch sequence batch = .ok bytes := by
  refine ⟨fun sequence batch hne hlen hops ↦ ?_, fun bytes sequence batch h ↦ ?_⟩
  · have hencode : encodeBatch sequence batch = .ok (batch.record sequence) :=
      encodeBatch_eq_ok.mpr ⟨hlen, hops, rfl⟩
    exact ⟨_, hencode, decodeBatch_encodeBatch hencode hne⟩
  · obtain ⟨⟨fields, rest⟩, hfields, hrest⟩ := bind_eq_ok.mp h
    obtain ⟨⟨hlen, hops⟩, hbytes⟩ := exact_batchFields hfields
    simp only at hrest
    split_ifs at hrest with htrailing
    obtain rfl := Except.ok.inj hrest
    rw [not_not.mp htrailing, List.append_nil] at hbytes
    exact encodeBatch_eq_ok.mpr ⟨hlen, hops, hbytes⟩

end MeteorDB
