import MeteorDB.Checksum
import MeteorDB.Sstable.Block

/-!
# Stored blocks

Every block of a table is stored with a codec byte and a checksum of both, and is found through a
handle: its offset in the file and its stored size.
-/

namespace MeteorDB

open ByteString Decoder

/-! ## Handles -/

/-- Where a block is stored. -/
structure BlockHandle where
  offset : ℕ
  size : ℕ
  deriving DecidableEq

def handleCorruption (detail : String) : Error := .corruption "SSTable block handle" detail

namespace BlockHandle

def encode (handle : BlockHandle) : Bytes := putVarint handle.offset ++ putVarint handle.size

/-- Reads a handle. Returns it with the number of bytes it takes. -/
def decode (encoded : Bytes) : Result (BlockHandle × ℕ) := do
  let (offset, offsetBytes) ← (readVarint encoded 0 "block offset").mapError handleCorruption
  let (size, sizeBytes) ← (readVarint encoded offsetBytes "block size").mapError handleCorruption
  match checkedAdd offsetBytes sizeBytes with
  | none => throw (handleCorruption "encoded length overflows usize")
  | some consumed =>
    match checkedAdd offset size with
    | none => throw (handleCorruption "block offset plus size overflows u64")
    | some _ => return (⟨offset, size⟩, consumed)

theorem length_encode_le {handle : BlockHandle}
    (h : handle.offset + handle.size < 2 ^ 64) : handle.encode.length ≤ 20 := by
  have hoffset := @length_putVarint_le handle.offset (by omega)
  have hsize := @length_putVarint_le handle.size (by omega)
  rw [encode, List.length_append]
  omega

theorem decode_encode {handle : BlockHandle} {rest : Bytes}
    (h : handle.offset + handle.size < 2 ^ 64) :
    decode (handle.encode ++ rest) = .ok (handle, handle.encode.length) := by
  have hle := length_encode_le h
  rw [encode, List.length_append] at hle
  have hrange : (20 : ℕ) < usizeRange := by decide
  have hoffset := @readVarint_putVarint (handle.encode ++ rest) 0 handle.offset "block offset"
    (by rw [encode, List.append_assoc]; exact List.prefix_append _ _) (by omega) (by omega)
  have hsize := @readVarint_putVarint (handle.encode ++ rest) (putVarint handle.offset).length
    handle.size "block size"
    (by rw [encode, List.append_assoc, List.drop_left]; exact List.prefix_append _ _) (by omega)
    (by omega)
  have hconsumed : checkedAdd (putVarint handle.offset).length (putVarint handle.size).length
      = some handle.encode.length := by
    rw [checkedAdd_eq_some, encode, List.length_append]
    exact ⟨rfl, by omega⟩
  have hstop : checkedAdd handle.offset handle.size = some (handle.offset + handle.size) :=
    checkedAdd_eq_some.mpr ⟨rfl, h⟩
  rw [decode, hoffset]
  show ((readVarint (handle.encode ++ rest) (putVarint handle.offset).length "block size").mapError
    handleCorruption >>= _) = _
  rw [hsize]
  show (match checkedAdd (putVarint handle.offset).length (putVarint handle.size).length with
    | none => _ | some _ => _) = _
  rw [hconsumed]
  show (match checkedAdd handle.offset handle.size with | none => _ | some _ => _) = _
  rw [hstop]
  rfl

end BlockHandle

/-! ## Trailers -/

def blockTrailerBytes : ℕ := 5
def noCompression : Byte := 0
def snappyCompression : Byte := 1

def blockCorruption (detail : String) : Error := .corruption "SSTable block" detail

def validateCompression (compression : Byte) : Except String Unit :=
  if compression = noCompression ∨ compression = snappyCompression then .ok ()
  else .error ("unknown compression marker " ++ toString compression.val)

variable [Crc32c]

/-- The checksum of a stored block covers its payload and its codec byte. -/
def blockChecksum (payload : Bytes) (compression : Byte) : BitVec 32 :=
  Crc32c.append (crc32c payload) [compression]

/-- The bytes of a stored block. -/
def storedBlock (payload : Bytes) (compression : Byte) : Bytes :=
  payload ++ compression :: leBytes 4 (maskChecksum (blockChecksum payload compression)).toNat

def encodeStoredBlock (payload : Bytes) (compression : Byte) : Result Bytes := do
  (validateCompression compression).mapError .invalidArgument
  match checkedAdd payload.length blockTrailerBytes with
  | none => throw (.invalidArgument "stored block length overflows usize")
  | some _ => return storedBlock payload compression

def decodeStoredBlock (encoded : Bytes) : Result (Bytes × Byte) :=
  if encoded.length < blockTrailerBytes then
    .error (blockCorruption "stored block is shorter than its trailer")
  else do
    let payloadEnd := encoded.length - blockTrailerBytes
    let payload := encoded.take payloadEnd
    let compression := encoded.getD payloadEnd 0
    (validateCompression compression).mapError blockCorruption
    let stored := BitVec.ofNat 32 (leNat (encoded.drop (payloadEnd + 1)))
    if unmaskChecksum stored ≠ blockChecksum payload compression then
      throw (blockCorruption "checksum mismatch")
    else return (payload, compression)

/-! ## Reading what was written -/

@[simp] theorem length_storedBlock (payload : Bytes) (compression : Byte) :
    (storedBlock payload compression).length = payload.length + blockTrailerBytes := by
  rw [storedBlock, List.length_append, List.length_cons, length_leBytes]
  rfl

omit [Crc32c] in
private theorem validateCompression_eq_ok {compression : Byte} :
    validateCompression compression = .ok () ↔
      compression = noCompression ∨ compression = snappyCompression := by
  unfold validateCompression
  split_ifs with h
  · exact iff_of_true rfl h
  · exact iff_of_false nofun h

theorem encodeStoredBlock_eq_ok {payload : Bytes} {compression : Byte} {encoded : Bytes} :
    encodeStoredBlock payload compression = .ok encoded ↔
      (compression = noCompression ∨ compression = snappyCompression) ∧
        payload.length + blockTrailerBytes < usizeRange ∧
        encoded = storedBlock payload compression := by
  unfold encodeStoredBlock
  rw [← validateCompression_eq_ok]
  cases validateCompression compression with
  | error => exact iff_of_false nofun fun h ↦ nomatch h.1
  | ok =>
    show (match checkedAdd payload.length blockTrailerBytes with
      | none => _ | some _ => _) = _ ↔ _
    unfold checkedAdd
    split_ifs with hlt
    · exact ⟨fun h ↦ ⟨rfl, hlt, (Except.ok.inj h).symm⟩, fun h ↦ congrArg Except.ok h.2.2.symm⟩
    · exact iff_of_false nofun fun h ↦ hlt h.2.1

theorem decodeStoredBlock_storedBlock {payload : Bytes} {compression : Byte}
    (h : compression = noCompression ∨ compression = snappyCompression) :
    decodeStoredBlock (storedBlock payload compression) = .ok (payload, compression) := by
  have hend : (storedBlock payload compression).length - blockTrailerBytes = payload.length := by
    rw [length_storedBlock, Nat.add_sub_cancel]
  have hget : (storedBlock payload compression).getD payload.length 0 = compression := by
    rw [storedBlock, List.getD_eq_getElem?_getD, List.getElem?_append_right (le_refl _),
      Nat.sub_self]
    rfl
  have hdrop : (storedBlock payload compression).drop (payload.length + 1)
      = leBytes 4 (maskChecksum (blockChecksum payload compression)).toNat := by
    rw [storedBlock, ← List.drop_drop, List.drop_left]
    rfl
  have hsum : BitVec.ofNat 32 (leNat (leBytes 4
      (maskChecksum (blockChecksum payload compression)).toNat))
      = maskChecksum (blockChecksum payload compression) := by
    rw [leNat_leBytes_of_lt (BitVec.isLt _), BitVec.ofNat_toNat, BitVec.setWidth_eq]
  have htake : (storedBlock payload compression).take payload.length = payload :=
    List.take_left ..
  rw [decodeStoredBlock, if_neg (by rw [length_storedBlock]; omega)]
  simp only [hend, hget, hdrop, hsum, htake, unmaskChecksum_maskChecksum,
    validateCompression_eq_ok.mpr h, ne_eq, not_true_eq_false, if_false]
  rfl

end MeteorDB
