import MeteorDB.Lib.Decoder
import MeteorDB.Options

/-!
# Bloom filters

A filter is an array of bits followed by the number of probes. A key sets one bit per probe; looking
a key up asks for the same bits, so a key that was put in is always reported (`mayContain_of_mem`).
Setting a bit never clears another one, which is all that the argument needs.
-/

namespace MeteorDB

def minimumFilterBits : ℕ := 64
def maximumHashFunctions : ℕ := 30

def bloomCorruption (detail : String) : Error := .corruption "Bloom filter" detail

/-! ## Probes -/

/-- The 64-bit FNV-1a hash. -/
def stableHash (bytes : Bytes) : BitVec 64 :=
  bytes.foldl (fun hash byte ↦ (hash ^^^ BitVec.ofNat 64 byte.val) * 0x100000001b3#64)
    0xcbf29ce484222325#64

-- the published value for the one letter `a`
example : stableHash [97] = 0xaf63dc4c8601ec8c#64 := by decide

/-- The bits of a key, by double hashing. -/
def probeBits (key : Bytes) (bitCount probes : ℕ) : List ℕ :=
  let hash := stableHash key
  let first := hash.setWidth 32
  let second := ((hash >>> 32).setWidth 32).rotateRight 17 ||| 1#32
  (List.range probes).map fun probe ↦
    (first + BitVec.ofNat 32 probe * second).toNat % bitCount

private theorem lt_of_mem_probeBits {key : Bytes} {bitCount probes bit : ℕ} (hpos : 0 < bitCount)
    (hbit : bit ∈ probeBits key bitCount probes) : bit < bitCount := by
  obtain ⟨probe, -, rfl⟩ := List.mem_map.mp hbit
  exact Nat.mod_lt _ hpos

/-! ## Bit arrays -/

/-- Sets a bit of an array. -/
def setBit (bits : Bytes) (bit : ℕ) : Bytes :=
  bits.modify (bit / 8) fun byte ↦ Fin.ofNat 256 (byte.val ||| 1 <<< (bit % 8))

def bitIsSet (bits : Bytes) (bit : ℕ) : Bool :=
  (bits.getD (bit / 8) 0).val &&& 1 <<< (bit % 8) ≠ 0

def setKeyBits (bits : Bytes) (bitCount probes : ℕ) (key : Bytes) : Bytes :=
  (probeBits key bitCount probes).foldl setBit bits

def keyBitsAreSet (bits : Bytes) (bitCount probes : ℕ) (key : Bytes) : Bool :=
  (probeBits key bitCount probes).all (bitIsSet bits)

private theorem or_bit_and : ∀ (byte : Byte) (i : Fin 8),
    (Fin.ofNat 256 (byte.val ||| 1 <<< i.val)).val &&& 1 <<< i.val ≠ 0 := by
  decide +kernel

private theorem or_bit_keeps : ∀ (byte : Byte) (i j : Fin 8), byte.val &&& 1 <<< j.val ≠ 0 →
    (Fin.ofNat 256 (byte.val ||| 1 <<< i.val)).val &&& 1 <<< j.val ≠ 0 := by
  decide +kernel

@[simp] theorem length_setBit (bits : Bytes) (bit : ℕ) : (setBit bits bit).length = bits.length :=
  List.length_modify ..

private theorem bitIsSet_setBit_self {bits : Bytes} {bit : ℕ} (h : bit / 8 < bits.length) :
    bitIsSet (setBit bits bit) bit := by
  rw [bitIsSet, setBit, List.getD_eq_getElem?_getD, List.getElem?_modify,
    List.getElem?_eq_getElem h]
  simp only [if_true, Option.map_eq_map, Option.map_some, Option.getD_some]
  exact decide_eq_true (or_bit_and bits[bit / 8] ⟨bit % 8, Nat.mod_lt _ (by decide)⟩)

/-- Setting a bit clears none. -/
theorem bitIsSet_setBit {bits : Bytes} {bit other : ℕ} (h : bitIsSet bits other) :
    bitIsSet (setBit bits bit) other := by
  rw [bitIsSet, List.getD_eq_getElem?_getD] at h
  rw [bitIsSet, setBit, List.getD_eq_getElem?_getD, List.getElem?_modify]
  cases hget : bits[other / 8]? with
  | none =>
    rw [hget] at h
    exact h
  | some byte =>
    rw [hget, Option.getD_some] at h
    simp only [Option.map_eq_map, Option.map_some, Option.getD_some]
    split_ifs
    · exact decide_eq_true (or_bit_keeps byte ⟨bit % 8, Nat.mod_lt _ (by decide)⟩
        ⟨other % 8, Nat.mod_lt _ (by decide)⟩ (of_decide_eq_true h))
    · exact h

private theorem foldl_setBit (bits : Bytes) (set : List ℕ) :
    (set.foldl setBit bits).length = bits.length ∧
      (∀ other, bitIsSet bits other → bitIsSet (set.foldl setBit bits) other) ∧
      ∀ bit ∈ set, bit / 8 < bits.length → bitIsSet (set.foldl setBit bits) bit := by
  induction set generalizing bits with
  | nil => exact ⟨rfl, fun _ h ↦ h, nofun⟩
  | cons first set ih =>
    obtain ⟨hlength, hkeep, hset⟩ := ih (setBit bits first)
    rw [length_setBit] at hlength hset
    refine ⟨hlength, fun other h ↦ hkeep other (bitIsSet_setBit h), fun bit hbit hin ↦ ?_⟩
    rcases List.mem_cons.mp hbit with rfl | hbit
    · exact hkeep bit (bitIsSet_setBit_self hin)
    · exact hset bit hbit hin

/-- After a key is put into an array of whole bytes, all its bits are set. -/
theorem foldl_setKeyBits {bitCount probes : ℕ} (hpos : 0 < bitCount) (bits : Bytes)
    (hcount : bitCount = bits.length * 8) (keys : List Bytes) :
    (keys.foldl (setKeyBits · bitCount probes) bits).length = bits.length ∧
      (∀ other, bitIsSet bits other →
        bitIsSet (keys.foldl (setKeyBits · bitCount probes) bits) other) ∧
      ∀ key ∈ keys,
        keyBitsAreSet (keys.foldl (setKeyBits · bitCount probes) bits) bitCount probes key := by
  induction keys generalizing bits with
  | nil => exact ⟨rfl, fun _ h ↦ h, nofun⟩
  | cons first keys ih =>
    obtain ⟨hlength, hkeep, hset⟩ := foldl_setBit bits (probeBits first bitCount probes)
    obtain ⟨hlength', hkeep', hset'⟩ :=
      ih (setKeyBits bits bitCount probes first) (by rw [setKeyBits, hlength, hcount])
    refine ⟨hlength'.trans hlength, fun other h ↦ hkeep' other (hkeep other h), fun key hkey ↦ ?_⟩
    rcases List.mem_cons.mp hkey with rfl | hkey
    · refine List.all_eq_true.mpr fun bit hbit ↦ hkeep' bit (hset bit hbit ?_)
      have := lt_of_mem_probeBits hpos hbit
      omega
    · exact hset' key hkey

/-! ## Filters -/

/-- A filter: its bytes, and the number of its bits. -/
structure BloomFilter where
  encoded : Bytes
  bitCount : ℕ
  deriving DecidableEq

/-- The number of bits of an array, which must not be empty. -/
def checkedBitCount (byteCount : ℕ) : Result ℕ :=
  if byteCount = 0 then .error (bloomCorruption "bit array is empty")
  else
    match checkedMul byteCount 8 with
    | some bitCount => .ok bitCount
    | none => .error (bloomCorruption "bit array bit count overflows usize")

namespace BloomFilter

/-- The number of probes, near the optimum for the bits per key. -/
def probesFor (bitsPerKey : Byte) : ℕ :=
  max 1 (min (bitsPerKey.val * 69 / 100) maximumHashFunctions)

/-- Builds a filter. -/
def fromKeys (keys : List Bytes) (bitsPerKey : Byte) : Result BloomFilter :=
  if bitsPerKey = 0 then
    .error (.invalidArgument "Bloom filter bits_per_key must be greater than zero")
  else
    match checkedMul keys.length bitsPerKey.val with
    | none => .error (.invalidArgument "Bloom filter bit allocation overflows usize")
    | some requestedBits =>
      match checkedAdd (max requestedBits minimumFilterBits) 7 with
      | none => .error (.invalidArgument "Bloom filter byte allocation overflows usize")
      | some rounded =>
        let byteCount := rounded / 8
        match checkedMul byteCount 8 with
        | none => .error (.invalidArgument "Bloom filter bit allocation overflows usize")
        | some bitCount =>
          let probes := probesFor bitsPerKey
          let bits := keys.foldl (setKeyBits · bitCount probes) (List.replicate byteCount 0)
          .ok ⟨bits ++ [Fin.ofNat 256 probes], bitCount⟩

/-- Checks the bytes of a filter. -/
def decode (encoded : Bytes) : Result BloomFilter :=
  match encoded.getLast? with
  | none => .error (bloomCorruption "missing bit array and probe count")
  | some probes => do
    let bitCount ← checkedBitCount encoded.dropLast.length
    if ¬(1 ≤ probes.val ∧ probes.val ≤ maximumHashFunctions) then
      throw (bloomCorruption ("probe count " ++ toString probes.val ++ " is outside 1..="
        ++ toString maximumHashFunctions))
    else return ⟨encoded, bitCount⟩

/-- Whether a key may have been put in. -/
def mayContain (filter : BloomFilter) (key : Bytes) : Bool :=
  keyBitsAreSet filter.encoded.dropLast filter.bitCount (filter.encoded.getLastD 0).val key

/-! ### What a built filter is -/

private theorem probesFor_bounds (bitsPerKey : Byte) :
    1 ≤ probesFor bitsPerKey ∧ probesFor bitsPerKey ≤ maximumHashFunctions := by
  unfold probesFor maximumHashFunctions
  omega

/-- The parts of a built filter. -/
theorem fromKeys_eq_ok {keys : List Bytes} {bitsPerKey : Byte} {filter : BloomFilter}
    (h : fromKeys keys bitsPerKey = .ok filter) :
    ∃ bits, filter = ⟨bits ++ [Fin.ofNat 256 (probesFor bitsPerKey)], bits.length * 8⟩ ∧
      0 < bits.length ∧ bits.length * 8 < usizeRange ∧
      ∀ key ∈ keys, keyBitsAreSet bits (bits.length * 8) (probesFor bitsPerKey) key := by
  unfold fromKeys at h
  split_ifs at h
  split at h
  · cases h
  next requestedBits _ =>
  split at h
  · cases h
  next rounded hrounded =>
  have hle : 64 ≤ rounded := by
    unfold checkedAdd at hrounded
    split_ifs at hrounded
    have := Option.some.inj hrounded
    have := le_max_right requestedBits minimumFilterBits
    unfold minimumFilterBits at *
    omega
  dsimp only at h
  split at h
  · cases h
  next bitCount hcount =>
  obtain ⟨rfl, hrange⟩ := checkedMul_eq_some.mp hcount
  have hlength : (List.replicate (rounded / 8) (0 : Byte)).length = rounded / 8 :=
    List.length_replicate
  obtain ⟨hsame, -, hset⟩ := @foldl_setKeyBits (rounded / 8 * 8) (probesFor bitsPerKey) (by omega)
    (List.replicate (rounded / 8) 0) (by rw [hlength]) keys
  rw [hlength] at hsame
  refine ⟨_, (Except.ok.inj h).symm.trans (by rw [hsame]), ?_, ?_, ?_⟩
  · omega
  · rwa [hsame]
  · rwa [hsame]

/-- A filter can be built unless its bits cannot be counted. -/
theorem exists_fromKeys_iff {keys : List Bytes} {bitsPerKey : Byte} :
    (∃ filter, fromKeys keys bitsPerKey = .ok filter) ↔
      bitsPerKey ≠ 0 ∧ keys.length * bitsPerKey.val + 7 < usizeRange := by
  have hrange : usizeRange = 2 ^ 64 := rfl
  have hmax := max_choice (keys.length * bitsPerKey.val) minimumFilterBits
  unfold minimumFilterBits at hmax
  unfold fromKeys checkedMul checkedAdd minimumFilterBits
  by_cases hzero : bitsPerKey = 0
  · rw [if_pos hzero]
    exact iff_of_false (fun ⟨_, h⟩ ↦ nomatch h) fun h ↦ h.1 hzero
  rw [if_neg hzero]
  by_cases hbits : keys.length * bitsPerKey.val < usizeRange
  swap
  · rw [if_neg hbits]
    exact iff_of_false (fun ⟨_, h⟩ ↦ nomatch h) fun h ↦ hbits (by omega)
  rw [if_pos hbits]
  dsimp only
  by_cases hrounded : max (keys.length * bitsPerKey.val) 64 + 7 < usizeRange
  swap
  · rw [if_neg hrounded]
    exact iff_of_false (fun ⟨_, h⟩ ↦ nomatch h) fun h ↦ hrounded (by omega)
  rw [if_pos hrounded]
  dsimp only
  rw [if_pos (by omega)]
  exact iff_of_true ⟨_, rfl⟩ ⟨hzero, by omega⟩

/-- The bytes that are accepted: bits, and a number of probes after them. -/
theorem decode_eq_ok {encoded : Bytes} {filter : BloomFilter} :
    decode encoded = .ok filter ↔ ∃ bits probes, encoded = bits ++ [probes] ∧ 0 < bits.length ∧
      bits.length * 8 < usizeRange ∧ (1 ≤ probes.val ∧ probes.val ≤ maximumHashFunctions) ∧
      filter = ⟨bits ++ [probes], bits.length * 8⟩ := by
  rcases List.eq_nil_or_concat encoded with rfl | ⟨bits, probes, rfl⟩
  · refine iff_of_false nofun ?_
    rintro ⟨bits, probes, hnil, -⟩
    exact absurd hnil.symm (List.append_ne_nil_of_right_ne_nil _ (List.cons_ne_nil _ _))
  rw [List.concat_eq_append, decode, List.getLast?_concat, List.dropLast_concat]
  dsimp only
  rw [Decoder.bind_eq_ok]
  have hcount : ∀ bitCount, checkedBitCount bits.length = .ok bitCount ↔
      0 < bits.length ∧ bits.length * 8 < usizeRange ∧ bitCount = bits.length * 8 := by
    intro bitCount
    unfold checkedBitCount checkedMul
    split_ifs with hzero hlt
    · exact iff_of_false nofun fun h ↦ h.1.ne' hzero
    · exact ⟨fun h ↦ ⟨Nat.pos_of_ne_zero hzero, hlt, (Except.ok.inj h).symm⟩,
        fun h ↦ congrArg Except.ok h.2.2.symm⟩
    · exact iff_of_false nofun fun h ↦ hlt h.2.1
  constructor
  · rintro ⟨bitCount, hbits, h⟩
    obtain ⟨hpos, hlt, rfl⟩ := (hcount bitCount).mp hbits
    split_ifs at h with hprobes
    exact ⟨bits, probes, rfl, hpos, hlt, hprobes, (Except.ok.inj h).symm⟩
  · rintro ⟨bits', probes', heq, hpos, hlt, hprobes, rfl⟩
    obtain ⟨rfl, hlast⟩ := List.append_inj' heq rfl
    obtain rfl := (List.cons.inj hlast).1
    refine ⟨_, (hcount _).mpr ⟨hpos, hlt, rfl⟩, ?_⟩
    rw [if_neg (not_not.mpr hprobes)]
    rfl

private theorem decode_fromKeys {keys : List Bytes} {bitsPerKey : Byte} {filter : BloomFilter}
    (h : fromKeys keys bitsPerKey = .ok filter) : decode filter.encoded = .ok filter := by
  obtain ⟨bits, rfl, hpos, hrange, -⟩ := fromKeys_eq_ok h
  have hbounds := probesFor_bounds bitsPerKey
  have hprobes : (Fin.ofNat 256 (probesFor bitsPerKey)).val = probesFor bitsPerKey := by
    rw [Fin.val_ofNat]
    unfold maximumHashFunctions at hbounds
    omega
  exact decode_eq_ok.mpr ⟨bits, _, rfl, hpos, hrange, by rwa [hprobes], rfl⟩

/-- A key that was put in is reported. -/
theorem mayContain_of_mem {keys : List Bytes} {bitsPerKey : Byte} {filter : BloomFilter}
    (h : fromKeys keys bitsPerKey = .ok filter) {key : Bytes} (hkey : key ∈ keys) :
    filter.mayContain key := by
  obtain ⟨bits, rfl, -, -, hset⟩ := fromKeys_eq_ok h
  have hbounds := probesFor_bounds bitsPerKey
  rw [mayContain, List.dropLast_concat, List.getLastD_concat, Fin.val_ofNat,
    Nat.mod_eq_of_lt (by unfold maximumHashFunctions at hbounds; omega)]
  exact hset key hkey

/-- **No false negatives.** A filter is built unless its bits cannot be counted. Its bytes are
accepted again, and the filter that is read reports every key. Whatever bytes are accepted, a lookup
asks for bits of the array only. -/
theorem decode_mayContain (keys : List Bytes) (bitsPerKey : Byte) :
    ((∃ filter, fromKeys keys bitsPerKey = .ok filter) ↔
      bitsPerKey ≠ 0 ∧ keys.length * bitsPerKey.val + 7 < usizeRange) ∧
    (∀ filter, fromKeys keys bitsPerKey = .ok filter →
      ∃ decoded, decode filter.encoded = .ok decoded ∧ ∀ key ∈ keys, decoded.mayContain key) ∧
    ∀ encoded filter, decode encoded = .ok filter →
      ∃ probes ∈ filter.encoded.getLast?, ∀ key, ∀ bit ∈ probeBits key filter.bitCount probes.val,
        bit / 8 < filter.encoded.dropLast.length := by
  refine ⟨exists_fromKeys_iff, fun filter hfilter ↦ ?_, fun encoded filter hdecode ↦ ?_⟩
  · exact ⟨filter, decode_fromKeys hfilter, fun key hkey ↦ mayContain_of_mem hfilter hkey⟩
  · obtain ⟨bits, probes, rfl, hpos, -, -, rfl⟩ := decode_eq_ok.mp hdecode
    refine ⟨probes, List.getLast?_concat, fun key bit hbit ↦ ?_⟩
    have hlt : bit < bits.length * 8 := lt_of_mem_probeBits (by omega) hbit
    rw [List.dropLast_concat]
    omega

-- two keys with ten bits each
example : (fromKeys [[1], [2, 3]] 10).toOption.map (fun filter ↦
    (filter.encoded.length, filter.mayContain [1], filter.mayContain [2, 3], filter.mayContain [4]))
      = some (9, true, true, false) := by
  decide +kernel

end BloomFilter

end MeteorDB
