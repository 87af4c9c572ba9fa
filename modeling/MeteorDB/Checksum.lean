import MeteorDB.Lib.BlockLog
import MeteorDB.Error

/-!
# Masked checksums

Every checksummed structure stores a CRC32C in a rotated and offset form. The CRC itself comes from
a library; all the engine relies on is that it is a function, so it enters as the class `Crc32c`.
-/

namespace MeteorDB

/-- The offset of the stored form. -/
def checksumMaskDelta : BitVec 32 := 0xa282ead8#32

/-- The stored form of a checksum. -/
def maskChecksum (sum : BitVec 32) : BitVec 32 := sum.rotateRight 15 + checksumMaskDelta

/-- The checksum of a stored form. -/
def unmaskChecksum (masked : BitVec 32) : BitVec 32 := (masked - checksumMaskDelta).rotateLeft 15

theorem unmaskChecksum_maskChecksum (sum : BitVec 32) :
    unmaskChecksum (maskChecksum sum) = sum := by
  rw [unmaskChecksum, maskChecksum, BitVec.add_sub_cancel]
  ext i hi
  simp only [BitVec.getElem_rotateLeft, BitVec.getElem_rotateRight]
  split_ifs <;> first | omega | (congr 1; omega)

/-- The CRC32C library: the checksum of `bytes` appended to data whose checksum is known. -/
class Crc32c where
  append : BitVec 32 → Bytes → BitVec 32

/-- One bit of the reflected CRC32C division. -/
def crcBit (sum : BitVec 32) : BitVec 32 :=
  if sum.getLsbD 0 then (sum >>> 1) ^^^ 0x82f63b78#32 else sum >>> 1

/-- One byte of the reflected CRC32C division. -/
def crcByte (sum : BitVec 32) (byte : Byte) : BitVec 32 :=
  crcBit (crcBit (crcBit (crcBit (crcBit (crcBit (crcBit (crcBit
    (sum ^^^ BitVec.ofNat 32 byte.val))))))))

/-- CRC32C by the definition of the Castagnoli code. -/
@[reducible] def castagnoli : Crc32c where
  append sum bytes := ~~~(bytes.foldl crcByte (~~~sum))

variable [Crc32c]

/-- The checksum of a byte string. -/
def crc32c (bytes : Bytes) : BitVec 32 := Crc32c.append 0 bytes

-- the check value of the Castagnoli code: the checksum of the digits one to nine
example : @crc32c castagnoli [49, 50, 51, 52, 53, 54, 55, 56, 57] = 0xe3069283#32 := by
  decide +kernel

/-! ## Physical fragments

The write-ahead log and the manifest share one physical format. -/

/-- The checksum of a fragment covers its type and its payload. -/
def checksum (fragmentType : Byte) (fragment : Bytes) : BitVec 32 :=
  Crc32c.append (crc32c [fragmentType]) fragment

def maskedChecksum (fragmentType : Byte) (fragment : Bytes) : BitVec 32 :=
  maskChecksum (checksum fragmentType fragment)

def logBlockBytes : ℕ := 32 * 1024

/-- The framing of the write-ahead log and of the manifest. -/
def logFraming : BlockLog.Framing where
  blockBytes := logBlockBytes
  stored := maskedChecksum
  verify stored fragmentType fragment :=
    unmaskChecksum stored == checksum fragmentType fragment
  header_lt := by decide
  block_le := by decide
  verify_stored fragmentType fragment := by
    rw [maskedChecksum, unmaskChecksum_maskChecksum, beq_self_eq_true]

end MeteorDB
