import MeteorDB.Lib.ByteString

/-!
# Append-only logs framed into fixed-size blocks

A logical record is cut into *fragments*, each preceded by a seven-byte header (checksum, payload
length, fragment type), so that no fragment crosses the end of a physical block. When fewer than
seven bytes remain in a block they are filled with zeros. A reader walks the blocks, verifies every
fragment, reassembles the records, and hands each to a consumer.

The point of the format is that a log cut short by a crash is still readable: bytes that end in the
middle of a header, a payload, a filling or a chain of fragments are a *torn tail*, reported by the
number of valid bytes before it, while anything else that is malformed is an error.

## Positions instead of blocks

The reader is written as the nested loop it is in practice, over blocks and over offsets within a
block. All reasoning happens on `readFrom`, which carries only the absolute position and the bytes
after it; `replay_eq_readFrom` is the one place the two meet. The writer is a function of the
offset inside the current block, and `emit_mod` says that only the offset modulo the block size
matters.

## The law

`replay_take` is the torn-tail law: reading the first `n` bytes of a written log delivers exactly
the records that lie entirely within them, and reports a position from which the writer can resume.
-/

namespace BlockLog

open ByteString

/-! ## Framings -/

/-- The length of a fragment header: four checksum bytes, two length bytes, one type byte. -/
def headerBytes : ℕ := 7

/-- The first and only fragment of a record. -/
def fullType : Byte := 1
/-- The first of several fragments. -/
def firstType : Byte := 2
/-- A fragment that neither begins nor ends its record. -/
def middleType : Byte := 3
/-- The last of several fragments. -/
def lastType : Byte := 4

/-- A block size together with the checksum discipline: the word stored for a fragment and the
test a reader applies to it. Blocks have room for at least one payload byte, and a payload length
fits the two header bytes. -/
structure Framing where
  /-- The physical block size. -/
  blockBytes : ℕ
  /-- The word stored in the header of a fragment of the given type and payload. -/
  stored : Byte → Bytes → BitVec 32
  /-- The reader's test of a stored word against the type and payload it covers. -/
  verify : BitVec 32 → Byte → Bytes → Bool
  header_lt : headerBytes < blockBytes
  block_le : blockBytes ≤ 65536
  verify_stored : ∀ ty fragment, verify (stored ty fragment) ty fragment = true

/-- What can be wrong with a complete physical fragment. -/
inductive Fault where
  | trailer
  | crosses (length : ℕ)
  | checksum
  | unexpectedFull
  | unexpectedFirst
  | orphan (ty : Byte)
  | unknown (ty : Byte)
  deriving DecidableEq, Repr

/-- The consumer's side of a reader: the error reported for each fault, the limit on the length of
a reassembled record with its error, and the action taken on a complete record. -/
structure Consumer (ε σ : Type) where
  /-- The error reported for a malformed fragment. -/
  fault : Fault → ε
  /-- The longest record that may be reassembled. -/
  limit : ℕ
  /-- The error reported for a longer one. -/
  tooLong : ε
  /-- The action on a complete record. -/
  deliver : σ → Bytes → Except ε σ

/-- What a reader carries between fragments: the fragments of the record being assembled with the
position at which it started, and the consumer's state. -/
structure Assembly (σ : Type) where
  /-- The record being assembled, if any, and its first byte's position. -/
  pending : Option (Bytes × ℕ)
  /-- The consumer's state. -/
  out : σ

/-- The outcome of reading a log: the consumer's final state, the length of the valid initial
segment, and the length of the log. -/
structure Summary (σ : Type) where
  /-- The consumer's final state. -/
  out : σ
  /-- The bytes before the torn tail. -/
  validBytes : ℕ
  /-- All bytes. -/
  fileLength : ℕ
  deriving DecidableEq

variable {ε σ : Type} (F : Framing) (C : Consumer ε σ)

/-! ## The writer -/

/-- The header of a fragment. -/
def header (ty : Byte) (fragment : Bytes) : Bytes :=
  leBytes 4 (F.stored ty fragment).toNat ++ leBytes 2 fragment.length ++ [ty]

/-- The type of a fragment, from its place in the record. -/
def fragmentType (first last : Bool) : Byte :=
  match first, last with
  | true, true => fullType
  | true, false => firstType
  | false, true => lastType
  | false, false => middleType

/-- The zeros needed to leave a block that has no room for a header. -/
def padding (offset : ℕ) : ℕ :=
  if F.blockBytes - offset < headerBytes then F.blockBytes - offset else 0

/-- The offset at which the next header is written. -/
def headerOffset (offset : ℕ) : ℕ :=
  if F.blockBytes - offset < headerBytes then 0 else offset

/-- The payload bytes of the next fragment. -/
def fragmentLength (offset : ℕ) (rest : Bytes) : ℕ :=
  min (F.blockBytes - headerOffset F offset - headerBytes) rest.length

-- a fragment takes payload, except in a block that has room for a header only; the next one then
-- has
private theorem emit_decreasing (offset : ℕ) {rest : Bytes} (hrest : rest ≠ []) :
    2 * (rest.drop (fragmentLength F offset rest)).length
        + (if F.blockBytes
              - headerOffset F (headerOffset F offset + headerBytes + fragmentLength F offset rest)
            = headerBytes then 1 else 0)
      < 2 * rest.length
        + (if F.blockBytes - headerOffset F offset = headerBytes then 1 else 0) := by
  have hpos : 0 < rest.length := List.length_pos_iff.mpr hrest
  have hH := F.header_lt
  rw [List.length_drop]
  unfold fragmentLength headerOffset headerBytes at *
  split_ifs <;> omega

/-- The bytes that write what is left of a record at an offset inside the current block, with the
offset they leave behind. -/
def emit (offset : ℕ) (first : Bool) (rest : Bytes) : Bytes × ℕ :=
  if rest = [] then ([], offset)
  else
    let length := fragmentLength F offset rest
    let fragment := rest.take length
    let ty := fragmentType first (length == rest.length)
    let tail := emit (headerOffset F offset + headerBytes + length) false (rest.drop length)
    (List.replicate (padding F offset) 0 ++ header F ty fragment ++ fragment ++ tail.1, tail.2)
termination_by
  2 * rest.length + if F.blockBytes - headerOffset F offset = headerBytes then 1 else 0
decreasing_by exact emit_decreasing F offset ‹_›

/-- The writes that `emit` is made of: the filling of a block that is left, which is marked, and the
header and the payload of each fragment. -/
def emitWrites (offset : ℕ) (first : Bool) (rest : Bytes) : List (Bool × Bytes) × ℕ :=
  if rest = [] then ([], offset)
  else
    let length := fragmentLength F offset rest
    let fragment := rest.take length
    let ty := fragmentType first (length == rest.length)
    let tail := emitWrites (headerOffset F offset + headerBytes + length) false (rest.drop length)
    ((if F.blockBytes - offset < headerBytes then [(true, List.replicate (padding F offset) 0)]
      else []) ++ (false, header F ty fragment) :: (false, fragment) :: tail.1, tail.2)
termination_by
  2 * rest.length + if F.blockBytes - headerOffset F offset = headerBytes then 1 else 0
decreasing_by exact emit_decreasing F offset ‹_›

/-- The bytes that write a list of records, with the offset they leave behind. -/
def emitAll (offset : ℕ) : List Bytes → Bytes × ℕ
  | [] => ([], offset)
  | record :: records =>
    let head := emit F offset true record
    let tail := emitAll head.2 records
    (head.1 ++ tail.1, tail.2)

/-! ## The reader -/

/-- The length reported when the log ends here: a record under assembly is discarded whole. -/
def validUpTo (position : ℕ) (st : Assembly σ) : ℕ :=
  match st.pending with
  | some (_, start) => start
  | none => position

/-- Appends a fragment to the record under assembly, within the limit. -/
def appendFragment (logical fragment : Bytes) : Except ε Bytes :=
  if logical.length + fragment.length ≤ C.limit then .ok (logical ++ fragment)
  else .error C.tooLong

/-- The effect of one verified fragment whose header is at the given position. -/
def consume (position : ℕ) (st : Assembly σ) (ty : Byte) (fragment : Bytes) :
    Except ε (Assembly σ) :=
  match st.pending with
  | none =>
    if ty = fullType then (C.deliver st.out fragment).map fun out ↦ ⟨none, out⟩
    else if ty = firstType then
      (appendFragment C [] fragment).map fun logical ↦ ⟨some (logical, position), st.out⟩
    else if ty = middleType ∨ ty = lastType then .error (C.fault (.orphan ty))
    else .error (C.fault (.unknown ty))
  | some (logical, start) =>
    if ty = middleType then
      (appendFragment C logical fragment).map fun logical ↦ ⟨some (logical, start), st.out⟩
    else if ty = lastType then do
      let logical ← appendFragment C logical fragment
      (C.deliver st.out logical).map fun out ↦ ⟨none, out⟩
    else if ty = fullType then .error (C.fault .unexpectedFull)
    else if ty = firstType then .error (C.fault .unexpectedFirst)
    else .error (C.fault (.unknown ty))

/-- The fields of a fragment header: stored checksum, payload length, type. -/
def parseHeader (bytes : Bytes) : BitVec 32 × ℕ × Byte :=
  (BitVec.ofNat 32 (leNat (bytes.take 4)), leNat ((bytes.drop 4).take 2), bytes.getD 6 0)

/-- One block, from an offset to its end. The result is either the valid length before a torn tail,
which ends the reading, or the state to continue the next block with. -/
def scanBlock (finalBlock : Bool) (blockStart : ℕ) (block : Bytes) (offset : ℕ)
    (st : Assembly σ) : Except ε (Summary σ ⊕ Assembly σ) :=
  if offset < block.length then
    let torn : Summary σ ⊕ Assembly σ :=
      .inl ⟨st.out, validUpTo (blockStart + offset) st, blockStart + block.length⟩
    if block.length - offset < headerBytes then
      if finalBlock then .ok torn
      else if (block.drop offset).any (· ≠ 0) then .error (C.fault .trailer)
      else .ok (.inr st)
    else
      let (sum, length, ty) := parseHeader (block.drop offset)
      let fragmentEnd := offset + headerBytes + length
      if fragmentEnd > block.length then
        if finalBlock then .ok torn else .error (C.fault (.crosses length))
      else
        let fragment := (block.drop (offset + headerBytes)).take length
        if F.verify sum ty fragment then
          match consume C (blockStart + offset) st ty fragment with
          | .error e => .error e
          | .ok st' => scanBlock finalBlock blockStart block fragmentEnd st'
        else .error (C.fault .checksum)
  else .ok (.inr st)
termination_by block.length - offset
decreasing_by
  unfold headerBytes at *
  omega

/-- The blocks from a block boundary to the end of the log. -/
def scanBlocks (fileLength blockStart : ℕ) (rest : Bytes) (st : Assembly σ) :
    Except ε (Summary σ) :=
  if rest = [] then .ok ⟨st.out, validUpTo fileLength st, fileLength⟩
  else
    let block := rest.take F.blockBytes
    let finalBlock := blockStart + block.length == fileLength
    match scanBlock F C finalBlock blockStart block 0 st with
    | .error e => .error e
    | .ok (.inl summary) => .ok summary
    | .ok (.inr st') =>
      if finalBlock then .ok ⟨st'.out, validUpTo fileLength st', fileLength⟩
      else scanBlocks fileLength (blockStart + block.length) (rest.drop F.blockBytes) st'
termination_by rest.length
decreasing_by
  have hH := F.header_lt
  have hpos : 0 < rest.length := List.length_pos_iff.mpr ‹_›
  rw [List.length_drop]
  omega

/-- Reads a log from its beginning. -/
def replay (bytes : Bytes) (out : σ) : Except ε (Summary σ) :=
  scanBlocks F C bytes.length 0 bytes ⟨none, out⟩

/-! ## Reading by position

The reader without its blocks: the absolute position determines how much room is left in the
current block, and the bytes that remain determine whether that block is the last one. -/

/-- The room left in the block that contains a position. -/
def room (position : ℕ) : ℕ := F.blockBytes - position % F.blockBytes

/-- The reader as a function of the position and of the bytes from there on. -/
def readFrom (position : ℕ) (rest : Bytes) (st : Assembly σ) : Except ε (Summary σ) :=
  if rest = [] then .ok ⟨st.out, validUpTo position st, position⟩
  else
    let torn : Summary σ := ⟨st.out, validUpTo position st, position + rest.length⟩
    if min (room F position) rest.length < headerBytes then
      if rest.length ≤ room F position then .ok torn
      else if (rest.take (room F position)).any (· ≠ 0) then .error (C.fault .trailer)
      else readFrom (position + room F position) (rest.drop (room F position)) st
    else
      let (sum, length, ty) := parseHeader rest
      if min (room F position) rest.length < headerBytes + length then
        if rest.length ≤ room F position then .ok torn else .error (C.fault (.crosses length))
      else
        let fragment := (rest.drop headerBytes).take length
        if F.verify sum ty fragment then
          match consume C position st ty fragment with
          | .error e => .error e
          | .ok st' =>
            readFrom (position + headerBytes + length) (rest.drop (headerBytes + length)) st'
        else .error (C.fault .checksum)
termination_by rest.length
decreasing_by
  · have hroom : 0 < room F position :=
      Nat.sub_pos_of_lt (Nat.mod_lt _ (lt_trans (by decide) F.header_lt))
    have := List.length_pos_iff.mpr ‹rest ≠ []›
    rw [List.length_drop]
    omega
  · have := List.length_pos_iff.mpr ‹rest ≠ []›
    rw [List.length_drop]
    unfold headerBytes
    omega

theorem room_pos (position : ℕ) : 0 < room F position :=
  Nat.sub_pos_of_lt (Nat.mod_lt _ (lt_trans (by decide) F.header_lt))

variable {F} in
theorem room_add_of_le {blockStart offset : ℕ} (hstart : blockStart % F.blockBytes = 0)
    (hoff : offset < F.blockBytes) : room F (blockStart + offset) = F.blockBytes - offset := by
  rw [room, Nat.add_mod, hstart, Nat.zero_add, Nat.mod_mod, Nat.mod_eq_of_lt hoff]

/-- The header fields and the payload of a fragment do not depend on what follows it. -/
theorem parseHeader_append {bytes tail : Bytes} (h : headerBytes ≤ bytes.length) :
    parseHeader (bytes ++ tail) = parseHeader bytes := by
  unfold headerBytes at h
  have h4 : (bytes ++ tail).take 4 = bytes.take 4 := List.take_append_of_le_length (by omega)
  have h2 : ((bytes ++ tail).drop 4).take 2 = (bytes.drop 4).take 2 := by
    rw [List.drop_append_of_le_length (by omega)]
    exact List.take_append_of_le_length (by rw [List.length_drop]; omega)
  have h6 : (bytes ++ tail).getD 6 0 = bytes.getD 6 0 := by
    rw [List.getD_eq_getElem?_getD, List.getD_eq_getElem?_getD,
      List.getElem?_append_left (by omega)]
  rw [parseHeader, parseHeader, h4, h2, h6]

/-- What happens once a block has been scanned: a torn tail ends the reading, the last block ends
it as well, and any other block is followed by the next one. -/
private def continueWith (blockEnd : ℕ) (after : Bytes) :
    Except ε (Summary σ ⊕ Assembly σ) → Except ε (Summary σ)
  | .error e => .error e
  | .ok (.inl summary) => .ok summary
  | .ok (.inr st) =>
    if after = [] then .ok ⟨st.out, validUpTo blockEnd st, blockEnd⟩
    else scanBlocks F C (blockEnd + after.length) blockEnd after st

/-- **Blocks and positions.** Scanning the rest of a block and then the blocks after it is reading
from the position. The last block is recognized by nothing following it, and only a full block
can be followed by another. -/
private theorem continueWith_scanBlock {blockStart : ℕ} (block after : Bytes)
    (hstart : blockStart % F.blockBytes = 0) (hlen : block.length ≤ F.blockBytes)
    (hafter : after ≠ [] → block.length = F.blockBytes)
    (hblocks : ∀ st : Assembly σ, after ≠ [] →
      scanBlocks F C (blockStart + block.length + after.length) (blockStart + block.length) after st
        = readFrom F C (blockStart + block.length) after st)
    (offset : ℕ) (hoff : offset ≤ block.length) (st : Assembly σ) :
    continueWith F C (blockStart + block.length) after
        (scanBlock F C (decide (after = [])) blockStart block offset st)
      = readFrom F C (blockStart + offset) (block.drop offset ++ after) st := by
  induction hn : block.length - offset using Nat.strong_induction_on generalizing offset st with
  | h n ih =>
    rw [scanBlock]
    by_cases hlt : offset < block.length
    · have hroom : room F (blockStart + offset) = F.blockBytes - offset :=
        room_add_of_le hstart (by omega)
      have hrest : (block.drop offset ++ after).length = block.length - offset + after.length := by
        rw [List.length_append, List.length_drop]
      have hne : block.drop offset ++ after ≠ [] := by
        rw [← List.length_pos_iff, hrest]
        omega
      -- The bytes visible in the current block, and the test for the last block.
      have hfinal : (block.drop offset ++ after).length ≤ room F (blockStart + offset)
          ↔ after = [] := by
        rw [hrest, hroom]
        constructor
        · intro h
          by_contra hne
          have := hafter hne
          have := List.length_pos_iff.mpr hne
          omega
        · rintro rfl
          rw [List.length_nil]
          omega
      have hmin : min (room F (blockStart + offset)) (block.drop offset ++ after).length
          = block.length - offset := by
        rw [hrest, hroom]
        by_cases ha : after = []
        · rw [ha, List.length_nil]
          omega
        · rw [hafter ha]
          omega
      rw [if_pos hlt, readFrom, if_neg hne, hmin]
      by_cases hshort : block.length - offset < headerBytes
      · simp only [if_pos hshort]
        by_cases ha : after = []
        · rw [if_pos (hfinal.mpr ha), if_pos (decide_eq_true ha), continueWith, hrest, ha,
            List.length_nil]
          congr 2
          omega
        · have hroomEq : room F (blockStart + offset) = block.length - offset := by
            rw [hroom, hafter ha]
          have htake : (block.drop offset ++ after).take (room F (blockStart + offset))
              = block.drop offset := by
            rw [hroomEq, List.take_append_of_le_length (by rw [List.length_drop]),
              List.take_of_length_le (by rw [List.length_drop])]
          have hdrop : (block.drop offset ++ after).drop (room F (blockStart + offset))
              = after := by
            rw [hroomEq, List.drop_append_of_le_length (by rw [List.length_drop]), List.drop_drop,
              List.drop_of_length_le (by omega), List.nil_append]
          have hpos : blockStart + offset + room F (blockStart + offset)
              = blockStart + block.length := by
            rw [hroomEq]
            omega
          rw [if_neg (mt hfinal.mp ha), htake, hdrop, hpos]
          rw [if_neg (by simpa using ha)]
          by_cases hzero : (block.drop offset).any (· ≠ 0)
          · rw [if_pos hzero, if_pos hzero, continueWith]
          · rw [if_neg hzero, if_neg hzero, continueWith, if_neg ha, hblocks st ha]
      · simp only [if_neg hshort]
        have hheader : parseHeader (block.drop offset ++ after) = parseHeader (block.drop offset) :=
          parseHeader_append (by rw [List.length_drop]; omega)
        rw [hheader]
        generalize hp : parseHeader (block.drop offset) = fields
        obtain ⟨sum, length, ty⟩ := fields
        simp only
        by_cases hcross : offset + headerBytes + length > block.length
        · have hcross' : block.length - offset < headerBytes + length := by omega
          rw [if_pos hcross, if_pos hcross']
          by_cases ha : after = []
          · rw [if_pos (hfinal.mpr ha), if_pos (decide_eq_true ha), continueWith, hrest, ha,
              List.length_nil]
            congr 2
            omega
          · rw [if_neg (mt hfinal.mp ha), if_neg (by simpa using ha), continueWith]
        · have hfrag : ((block.drop offset ++ after).drop headerBytes).take length
              = (block.drop (offset + headerBytes)).take length := by
            rw [List.drop_append_of_le_length (by rw [List.length_drop]; omega), List.drop_drop,
              List.take_append_of_le_length (by rw [List.length_drop]; omega)]
          have hnext : (block.drop offset ++ after).drop (headerBytes + length)
              = block.drop (offset + headerBytes + length) ++ after := by
            rw [List.drop_append_of_le_length (by rw [List.length_drop]; omega), List.drop_drop,
              Nat.add_assoc]
          have hcross' : ¬block.length - offset < headerBytes + length := by omega
          rw [if_neg hcross, if_neg hcross', hfrag, hnext]
          split_ifs with hverify
          · cases hc : consume C (blockStart + offset) st ty
                ((block.drop (offset + headerBytes)).take length) with
            | error e => simp only [continueWith]
            | ok st' =>
              simp only
              have hdec : block.length - (offset + headerBytes + length) < n := by
                unfold headerBytes
                omega
              rw [ih _ hdec (offset + headerBytes + length) (by omega) st' rfl,
                Nat.add_assoc blockStart, Nat.add_assoc blockStart, Nat.add_assoc offset]
          · simp only [continueWith]
    · have hend : offset = block.length := by omega
      rw [if_neg hlt, continueWith, hend, List.drop_length, List.nil_append]
      by_cases ha : after = []
      · rw [if_pos ha, readFrom, if_pos ha]
      · rw [if_neg ha, hblocks st ha]

private theorem scanBlocks_eq_readFrom (blockStart : ℕ) (rest : Bytes) (st : Assembly σ)
    (hstart : blockStart % F.blockBytes = 0) :
    scanBlocks F C (blockStart + rest.length) blockStart rest st
      = readFrom F C blockStart rest st := by
  induction hn : rest.length using Nat.strong_induction_on generalizing blockStart rest st with
  | h n ih =>
    rw [scanBlocks]
    by_cases hrest : rest = []
    · rw [if_pos hrest, readFrom, if_pos hrest, ← hn, hrest, List.length_nil, Nat.add_zero]
    · have hH := F.header_lt
      have hpos : 0 < rest.length := List.length_pos_iff.mpr hrest
      have hblock : (rest.take F.blockBytes).length = min F.blockBytes rest.length :=
        List.length_take
      have hdrop : (rest.drop F.blockBytes).length = rest.length - F.blockBytes :=
        List.length_drop
      have hempty : rest.drop F.blockBytes = [] ↔ rest.length ≤ F.blockBytes :=
        List.drop_eq_nil_iff
      have hfinal : (blockStart + (rest.take F.blockBytes).length == blockStart + n)
          = decide (rest.drop F.blockBytes = []) := by
        rw [Bool.eq_iff_iff, beq_iff_eq, decide_eq_true_iff, hempty, hblock]
        omega
      have hsplit := continueWith_scanBlock F C (rest.take F.blockBytes)
        (rest.drop F.blockBytes) hstart (by omega) (by rw [Ne, hempty]; omega)
        (fun st' hne ↦ by
          rw [Ne, hempty] at hne
          have hmod : (blockStart + (rest.take F.blockBytes).length) % F.blockBytes = 0 := by
            rw [hblock, Nat.min_eq_left (by omega), Nat.add_mod_right, hstart]
          exact ih _ (by omega) _ (rest.drop F.blockBytes) st' hmod rfl)
        0 (Nat.zero_le _) st
      rw [List.drop_zero, List.take_append_drop, Nat.add_zero] at hsplit
      rw [if_neg hrest, ← hsplit]
      simp only [hfinal]
      have htotal : blockStart + n
          = blockStart + (rest.take F.blockBytes).length + (rest.drop F.blockBytes).length := by
        omega
      generalize scanBlock F C (decide (rest.drop F.blockBytes = [])) blockStart
        (rest.take F.blockBytes) 0 st = result
      match result with
      | .error e => rfl
      | .ok (.inl summary) => rfl
      | .ok (.inr st') =>
        simp only [continueWith, decide_eq_true_eq, ← htotal]
        by_cases ha : rest.drop F.blockBytes = []
        · rw [if_pos ha, if_pos ha, htotal, ha, List.length_nil, Nat.add_zero]
        · rw [if_neg ha, if_neg ha]

/-- Reading a log is reading it from position zero. -/
theorem replay_eq_readFrom (bytes : Bytes) (out : σ) :
    replay F C bytes out = readFrom F C 0 bytes ⟨none, out⟩ := by
  have h := scanBlocks_eq_readFrom F C 0 bytes ⟨none, out⟩ (Nat.zero_mod _)
  rwa [Nat.zero_add] at h

/-! ## The writer's positions -/

theorem padding_lt (offset : ℕ) : padding F offset < headerBytes := by
  unfold padding headerBytes
  split_ifs <;> omega

theorem headerOffset_add_le (offset : ℕ) : headerOffset F offset + headerBytes ≤ F.blockBytes := by
  have hH := F.header_lt
  unfold headerOffset headerBytes at *
  split_ifs <;> omega

variable {F} in
/-- Leaving a block and going to the next header are the same movement of the position. -/
theorem add_padding_mod {position offset : ℕ} (hoff : offset ≤ F.blockBytes)
    (hpos : position % F.blockBytes = offset % F.blockBytes) :
    (position + padding F offset) % F.blockBytes = headerOffset F offset := by
  have hH := F.header_lt
  rw [Nat.add_mod, hpos, ← Nat.add_mod]
  unfold padding headerOffset headerBytes at *
  split_ifs with h
  · rw [Nat.add_sub_cancel' hoff, Nat.mod_self]
  · rw [Nat.add_zero, Nat.mod_eq_of_lt (by omega)]

variable {F} in
theorem emit_of_ne_nil (offset : ℕ) (first : Bool) {rest : Bytes} (hrest : rest ≠ []) :
    (emit F offset first rest).1
      = List.replicate (padding F offset) 0
        ++ (header F (fragmentType first (fragmentLength F offset rest == rest.length))
              (rest.take (fragmentLength F offset rest))
          ++ (rest.take (fragmentLength F offset rest)
            ++ (emit F (headerOffset F offset + headerBytes + fragmentLength F offset rest) false
                (rest.drop (fragmentLength F offset rest))).1)) := by
  rw [emit, if_neg hrest]
  simp only [List.append_assoc]

theorem emit_nil (offset : ℕ) (first : Bool) : emit F offset first [] = ([], offset) := by
  rw [emit, if_pos rfl]

theorem flatten_emitWrites (offset : ℕ) (first : Bool) (rest : Bytes) :
    ((emitWrites F offset first rest).1.map Prod.snd).flatten = (emit F offset first rest).1 ∧
      (emitWrites F offset first rest).2 = (emit F offset first rest).2 := by
  induction offset, first, rest using emitWrites.induct F with
  | case1 offset first =>
    rw [emitWrites, if_pos rfl, emit_nil]
    exact ⟨rfl, rfl⟩
  | case2 offset first rest hrest length ih =>
    rw [emitWrites, if_neg hrest, emit_of_ne_nil offset first hrest]
    refine ⟨?_, by rw [emit, if_neg hrest]; exact ih.2⟩
    have hfill : ((if F.blockBytes - offset < headerBytes
        then [(true, List.replicate (padding F offset) (0 : Byte))] else []).map Prod.snd).flatten
        = List.replicate (padding F offset) 0 := by
      unfold padding
      split_ifs <;> simp
    simp only [List.map_append, List.map_cons, List.flatten_append, List.flatten_cons, hfill]
    rw [ih.1]


@[simp] theorem length_header (ty : Byte) (fragment : Bytes) :
    (header F ty fragment).length = headerBytes := by
  simp [header, headerBytes]

/-! ## Reading what was written -/

theorem parseHeader_header {ty : Byte} {fragment : Bytes} (hlen : fragment.length < 65536) :
    parseHeader (header F ty fragment) = (F.stored ty fragment, fragment.length, ty) := by
  have hsum : (F.stored ty fragment).toNat < 256 ^ 4 := (F.stored ty fragment).isLt
  have htake : (header F ty fragment).take 4 = leBytes 4 (F.stored ty fragment).toNat := by
    rw [header, List.append_assoc, List.take_left' (length_leBytes _ _)]
  have hdrop : ((header F ty fragment).drop 4).take 2 = leBytes 2 fragment.length := by
    rw [header, List.append_assoc, List.drop_left' (length_leBytes _ _),
      List.take_left' (length_leBytes _ _)]
  have hty : (header F ty fragment).getD 6 0 = ty := by
    rw [header, List.getD_eq_getElem?_getD, List.getElem?_append_right (by simp)]
    simp
  rw [parseHeader, htake, hdrop, hty, leNat_leBytes_of_lt hsum, leNat_leBytes_of_lt hlen,
    BitVec.ofNat_toNat, BitVec.setWidth_eq]

variable {F} in
/-- A filling takes up the rest of its block. -/
theorem room_eq_padding {position offset : ℕ} (hoff : offset ≤ F.blockBytes)
    (hpos : position % F.blockBytes = offset % F.blockBytes) (hpad : padding F offset ≠ 0) :
    room F position = padding F offset := by
  unfold padding at hpad ⊢
  split_ifs at hpad ⊢ with h
  · rw [room, hpos, Nat.mod_eq_of_lt (by omega)]
  · exact absurd rfl hpad

variable {F} in
/-- A filling is skipped when something follows it. -/
theorem readFrom_padding {position offset : ℕ} {rest : Bytes} {st : Assembly σ}
    (hoff : offset ≤ F.blockBytes) (hpos : position % F.blockBytes = offset % F.blockBytes)
    (hrest : rest ≠ []) :
    readFrom F C position (List.replicate (padding F offset) 0 ++ rest) st
      = readFrom F C (position + padding F offset) rest st := by
  by_cases hpad : padding F offset = 0
  · rw [hpad, List.replicate_zero, List.nil_append, Nat.add_zero]
  · have hroom := room_eq_padding hoff hpos hpad
    have hlt := padding_lt F offset
    have hlen := List.length_pos_iff.mpr hrest
    have hne : List.replicate (padding F offset) (0 : Byte) ++ rest ≠ [] := by simp [hrest]
    rw [readFrom, if_neg hne, hroom, List.length_append, List.length_replicate,
      if_pos (by omega), if_neg (by omega), List.take_left' List.length_replicate,
      List.drop_left' List.length_replicate, if_neg (by simp)]

variable {F} in
/-- A complete fragment is consumed, whatever follows it. -/
theorem readFrom_fragment {position : ℕ} {ty : Byte} {fragment rest : Bytes} {st : Assembly σ}
    (hroom : headerBytes + fragment.length ≤ room F position) :
    readFrom F C position (header F ty fragment ++ (fragment ++ rest)) st
      = (consume C position st ty fragment).bind
          (readFrom F C (position + headerBytes + fragment.length) rest) := by
  have hB := F.block_le
  have hle : room F position ≤ F.blockBytes := Nat.sub_le _ _
  have hlen : fragment.length < 65536 := by
    unfold headerBytes at hroom
    omega
  have hne : header F ty fragment ++ (fragment ++ rest) ≠ [] := by
    rw [← List.length_pos_iff, List.length_append, length_header]
    unfold headerBytes
    omega
  have hfields : parseHeader (header F ty fragment ++ (fragment ++ rest))
      = (F.stored ty fragment, fragment.length, ty) := by
    rw [parseHeader_append (length_header F ty fragment).ge, parseHeader_header F hlen]
  have hpayload : ((header F ty fragment ++ (fragment ++ rest)).drop headerBytes).take
      fragment.length = fragment := by
    rw [List.drop_left' (length_header F ty fragment), List.take_left' rfl]
  have hrest : (header F ty fragment ++ (fragment ++ rest)).drop (headerBytes + fragment.length)
      = rest := by
    rw [← List.append_assoc, List.drop_left' (by rw [List.length_append, length_header])]
  have hsize : (header F ty fragment ++ (fragment ++ rest)).length
      = headerBytes + fragment.length + rest.length := by
    rw [List.length_append, List.length_append, length_header, Nat.add_assoc]
  rw [readFrom, if_neg hne, hsize, if_neg (by omega), hfields]
  simp only
  rw [if_neg (by omega), hpayload, if_pos (F.verify_stored ty fragment), hrest]
  cases consume C position st ty fragment <;> rfl

/-- The bytes of the record under assembly. -/
def Assembly.logical (st : Assembly σ) : Bytes := (st.pending.map Prod.fst).getD []

variable {F C} in
/-- The last fragment of a record delivers it. -/
theorem consume_last {position : ℕ} {st : Assembly σ} {fragment : Bytes}
    (hlimit : (st.logical ++ fragment).length ≤ C.limit) :
    consume C position st (fragmentType st.pending.isNone true) fragment
      = (C.deliver st.out (st.logical ++ fragment)).map fun out ↦ ⟨none, out⟩ := by
  obtain ⟨_ | ⟨logical, start⟩, out⟩ := st
  · rfl
  · have hle : logical.length + fragment.length ≤ C.limit := by
      simpa [Assembly.logical] using hlimit
    simp only [consume, fragmentType, Assembly.logical, Option.isNone_some, appendFragment,
      if_pos hle]
    rfl

variable {F C} in
/-- Any other fragment is appended to the record, which keeps the position it started at. -/
theorem consume_more {position : ℕ} {st : Assembly σ} {fragment : Bytes}
    (hlimit : (st.logical ++ fragment).length ≤ C.limit) :
    consume C position st (fragmentType st.pending.isNone false) fragment
      = .ok ⟨some (st.logical ++ fragment, validUpTo position st), st.out⟩ := by
  obtain ⟨_ | ⟨logical, start⟩, out⟩ := st
  · have hle : ([] : Bytes).length + fragment.length ≤ C.limit := by
      simpa [Assembly.logical] using hlimit
    simp only [consume, fragmentType, Option.isNone_none, appendFragment, if_pos hle]
    rfl
  · have hle : logical.length + fragment.length ≤ C.limit := by
      simpa [Assembly.logical] using hlimit
    simp only [consume, fragmentType, Option.isNone_some, appendFragment, if_pos hle]
    rfl

theorem fragmentLength_le (offset : ℕ) (rest : Bytes) :
    fragmentLength F offset rest ≤ rest.length :=
  Nat.min_le_right _ _

variable {F} in
/-- The next fragment ends inside the block its header is in. -/
theorem fragment_fits (offset : ℕ) (rest : Bytes) :
    headerOffset F offset + headerBytes + fragmentLength F offset rest ≤ F.blockBytes := by
  have hhead := headerOffset_add_le F offset
  have hmin : fragmentLength F offset rest ≤ F.blockBytes - headerOffset F offset - headerBytes :=
    Nat.min_le_left _ _
  omega

variable {F} in
theorem room_add_padding {position offset : ℕ} (hoff : offset ≤ F.blockBytes)
    (hpos : position % F.blockBytes = offset % F.blockBytes) :
    room F (position + padding F offset) = F.blockBytes - headerOffset F offset := by
  rw [room, add_padding_mod hoff hpos]

variable {F} in
/-- The position after a fragment is where the writer is after it. -/
theorem fragment_end_mod {position offset : ℕ} (rest : Bytes) (hoff : offset ≤ F.blockBytes)
    (hpos : position % F.blockBytes = offset % F.blockBytes) :
    (position + padding F offset + headerBytes + fragmentLength F offset rest) % F.blockBytes
      = (headerOffset F offset + headerBytes + fragmentLength F offset rest) % F.blockBytes := by
  have hhead := headerOffset_add_le F offset
  have hlt : headerOffset F offset < F.blockBytes := by
    unfold headerBytes at hhead
    omega
  rw [Nat.add_assoc, Nat.add_assoc (headerOffset F offset), Nat.add_mod,
    add_padding_mod hoff hpos, ← Nat.mod_eq_of_lt hlt, ← Nat.add_mod, Nat.mod_eq_of_lt hlt]

variable {F} in
/-- What the writer emits for a record, followed by anything, is read as that record. -/
theorem readFrom_emit (offset : ℕ) (first : Bool) (rest : Bytes) :
    ∀ {position : ℕ} {tail : Bytes} {st : Assembly σ}, rest ≠ [] → offset ≤ F.blockBytes →
      position % F.blockBytes = offset % F.blockBytes → first = st.pending.isNone →
      (st.logical ++ rest).length ≤ C.limit →
      readFrom F C position ((emit F offset first rest).1 ++ tail) st
        = (C.deliver st.out (st.logical ++ rest)).bind fun out ↦
            readFrom F C (position + (emit F offset first rest).1.length) tail ⟨none, out⟩ := by
  induction offset, first, rest using emit.induct F with
  | case1 offset first => exact fun h ↦ absurd rfl h
  | case2 =>
    rename_i offset first rest hrest length ih
    intro position tail st _ hoff hpos hfirst hlimit
    have hlength : length = fragmentLength F offset rest := rfl
    have hle : length ≤ rest.length := fragmentLength_le F offset rest
    have hfits := fragment_fits (F := F) offset rest
    have hlen : (rest.take length).length = length := List.length_take_of_le hle
    have hroom : headerBytes + (rest.take length).length
        ≤ room F (position + padding F offset) := by
      rw [hlen, room_add_padding hoff hpos]
      omega
    rw [emit_of_ne_nil offset first hrest, ← hlength]
    simp only [List.append_assoc]
    rw [readFrom_padding C hoff hpos (by simp [header]), readFrom_fragment C hroom, hlen, hfirst]
    by_cases hlast : length = rest.length
    · -- the fragment holds all that is left of the record
      have hall : rest.take length = rest := by rw [hlast, List.take_length]
      have hnil : rest.drop length = [] := by rw [hlast, List.drop_length]
      rw [hall, hnil, hlast, beq_self_eq_true, consume_last hlimit, emit_nil]
      simp only [List.nil_append, List.length_append, List.length_replicate, length_header,
        List.length_nil]
      cases C.deliver st.out (st.logical ++ rest) with
      | error e => rfl
      | ok out =>
        simp only [Except.map, Except.bind]
        congr 1
        omega
    · have hmore : rest.drop length ≠ [] := by
        rw [Ne, List.drop_eq_nil_iff]
        omega
      have hshort : (st.logical ++ rest.take length).length ≤ C.limit := by
        rw [List.length_append] at hlimit
        rw [List.length_append, hlen]
        omega
      have hjoin : st.logical ++ rest.take length ++ rest.drop length = st.logical ++ rest := by
        rw [List.append_assoc, List.take_append_drop]
      have hmod : (position + padding F offset + headerBytes + length) % F.blockBytes
          = (headerOffset F offset + headerBytes + length) % F.blockBytes :=
        fragment_end_mod rest hoff hpos
      rw [beq_eq_false_iff_ne.mpr hlast, consume_more hshort]
      simp only [Except.bind]
      rw [ih hmore hfits hmod rfl (by simpa [Assembly.logical, hjoin] using hlimit)]
      simp only [Assembly.logical, Option.map_some, Option.getD_some]
      rw [show (st.pending.map Prod.fst).getD [] = st.logical from rfl, hjoin]
      simp only [List.length_append, List.length_replicate, length_header, hlen, Except.bind,
        Nat.add_assoc]

/-! ## Reading what was cut short -/

variable {F C} in
/-- Too few bytes for a header are a torn tail. -/
theorem readFrom_take_short {position m : ℕ} {rest : Bytes} {st : Assembly σ}
    (hshort : m < headerBytes) (hle : m ≤ rest.length) (hroom : m ≤ room F position) :
    readFrom F C position (rest.take m) st
      = .ok ⟨st.out, validUpTo position st, position + m⟩ := by
  have hlen : (rest.take m).length = m := List.length_take_of_le hle
  by_cases hrest : rest.take m = []
  · rw [readFrom, if_pos hrest, ← hlen, hrest, List.length_nil, Nat.add_zero]
  · rw [readFrom, if_neg hrest, hlen, if_pos (by omega), if_pos hroom]

variable {F C} in
/-- A header whose payload is cut short is a torn tail. -/
theorem readFrom_cut {position k : ℕ} {ty : Byte} {fragment : Bytes} {st : Assembly σ}
    (hroom : headerBytes + fragment.length ≤ room F position) (hk : k < fragment.length) :
    readFrom F C position (header F ty fragment ++ fragment.take k) st
      = .ok ⟨st.out, validUpTo position st, position + (headerBytes + k)⟩ := by
  have hB := F.block_le
  have hle : room F position ≤ F.blockBytes := Nat.sub_le _ _
  have hlen : fragment.length < 65536 := by
    unfold headerBytes at hroom
    omega
  have hsize : (header F ty fragment ++ fragment.take k).length = headerBytes + k := by
    rw [List.length_append, length_header, List.length_take_of_le hk.le]
  have hne : header F ty fragment ++ fragment.take k ≠ [] := by
    rw [← List.length_pos_iff, hsize]
    unfold headerBytes
    omega
  have hfields : parseHeader (header F ty fragment ++ fragment.take k)
      = (F.stored ty fragment, fragment.length, ty) := by
    rw [parseHeader_append (length_header F ty fragment).ge, parseHeader_header F hlen]
  rw [readFrom, if_neg hne, hsize, if_neg (by omega), hfields]
  simp only
  rw [if_pos (by omega), if_pos (by omega)]

variable {F} in
theorem length_emit_of_ne_nil (offset : ℕ) (first : Bool) {rest : Bytes} (hrest : rest ≠ []) :
    (emit F offset first rest).1.length
      = padding F offset + headerBytes + fragmentLength F offset rest
        + (emit F (headerOffset F offset + headerBytes + fragmentLength F offset rest) false
            (rest.drop (fragmentLength F offset rest))).1.length := by
  rw [emit_of_ne_nil offset first hrest]
  simp only [List.length_append, List.length_replicate, length_header,
    List.length_take_of_le (fragmentLength_le F offset rest), Nat.add_assoc]

variable {F} in
/-- The first bytes of what the writer emits for a record, if they are not all of it, are read as
nothing: the valid length ends before the record, possibly after the filling that precedes it. -/
theorem readFrom_take_emit (offset : ℕ) (first : Bool) (rest : Bytes) :
    ∀ (position n : ℕ) (st : Assembly σ), offset ≤ F.blockBytes →
      position % F.blockBytes = offset % F.blockBytes → first = st.pending.isNone →
      (st.logical ++ rest).length ≤ C.limit → n < (emit F offset first rest).1.length →
      ∃ filled, (filled = 0 ∨ filled = padding F offset) ∧ filled ≤ n ∧
        readFrom F C position ((emit F offset first rest).1.take n) st
          = .ok ⟨st.out, validUpTo (position + filled) st, position + n⟩ := by
  induction offset, first, rest using emit.induct F with
  | case1 offset first =>
    intro position n st _ _ _ _ hn
    rw [emit_nil] at hn
    exact absurd hn (Nat.not_lt_zero _)
  | case2 =>
    rename_i offset first rest hrest length ih
    intro position n st hoff hpos hfirst hlimit hn
    have hlength : length = fragmentLength F offset rest := rfl
    have hle : length ≤ rest.length := fragmentLength_le F offset rest
    have hfits := fragment_fits (F := F) offset rest
    have hlen : (rest.take length).length = length := List.length_take_of_le hle
    have hroom := room_add_padding hoff hpos
    have hfit : headerBytes + (rest.take length).length
        ≤ room F (position + padding F offset) := by
      rw [hlen, hroom]
      omega
    rw [length_emit_of_ne_nil offset first hrest, ← hlength] at hn
    rw [emit_of_ne_nil offset first hrest, ← hlength]
    by_cases hpad : n ≤ padding F offset
    · -- the cut is inside the filling
      have hlt := padding_lt F offset
      have hinside : n ≤ room F position := by
        by_cases hzero : padding F offset = 0
        · omega
        · rwa [room_eq_padding hoff hpos hzero]
      refine ⟨0, .inl rfl, Nat.zero_le _, ?_⟩
      rw [readFrom_take_short (by omega) (by simp; omega) hinside, Nat.add_zero]
    · refine ⟨padding F offset, .inr rfl, by omega, ?_⟩
      obtain ⟨m, rfl⟩ : ∃ m, n = padding F offset + m := ⟨n - padding F offset, by omega⟩
      rw [List.take_append, List.length_replicate, Nat.add_sub_cancel_left,
        List.take_of_length_le (by rw [List.length_replicate]; omega),
        readFrom_padding C hoff hpos (by
          rw [Ne, List.take_eq_nil_iff]
          simp [header]
          omega), ← Nat.add_assoc]
      by_cases hhead : m < headerBytes
      · -- inside the header
        rw [readFrom_take_short hhead (by rw [List.length_append, length_header]; omega)
          (by omega)]
      · obtain ⟨k, rfl⟩ : ∃ k, m = headerBytes + k := ⟨m - headerBytes, by omega⟩
        rw [List.take_append, length_header, Nat.add_sub_cancel_left,
          List.take_of_length_le (by rw [length_header]; omega)]
        by_cases hbody : k < length
        · -- inside the payload
          rw [List.take_append_of_le_length (by omega), readFrom_cut hfit (by omega)]
        · -- after the fragment, so the record has more of them
          have hmore : length ≠ rest.length := by
            intro hlast
            rw [hlast, List.drop_length, emit_nil, List.length_nil] at hn
            omega
          have hshort : (st.logical ++ rest.take length).length ≤ C.limit := by
            rw [List.length_append] at hlimit
            rw [List.length_append, hlen]
            omega
          have hmod : (position + padding F offset + headerBytes + length) % F.blockBytes
              = (headerOffset F offset + headerBytes + length) % F.blockBytes :=
            fragment_end_mod rest hoff hpos
          obtain ⟨j, rfl⟩ : ∃ j, k = length + j := ⟨k - length, by omega⟩
          rw [List.take_append, hlen, Nat.add_sub_cancel_left, List.take_take,
            Nat.min_eq_right (by omega), readFrom_fragment C hfit, hlen, hfirst,
            beq_eq_false_iff_ne.mpr hmore, consume_more hshort]
          obtain ⟨filled, -, -, hread⟩ := ih _ j ⟨some (st.logical ++ rest.take length,
            validUpTo (position + padding F offset) st), st.out⟩ hfits hmod rfl
            (by simpa [Assembly.logical, List.append_assoc] using hlimit) (by omega)
          simp only [Except.bind]
          rw [hread]
          simp only [validUpTo, Nat.add_assoc]

/-! ## Where the writer stops and resumes -/

variable {F} in
theorem emit_snd_of_ne_nil (offset : ℕ) (first : Bool) {rest : Bytes} (hrest : rest ≠ []) :
    (emit F offset first rest).2
      = (emit F (headerOffset F offset + headerBytes + fragmentLength F offset rest) false
          (rest.drop (fragmentLength F offset rest))).2 := by
  rw [emit, if_neg hrest]

variable {F} in
/-- The writer's offset stays inside a block and follows its position. -/
theorem emit_offset (offset : ℕ) (first : Bool) (rest : Bytes) :
    ∀ {position : ℕ}, offset ≤ F.blockBytes → position % F.blockBytes = offset % F.blockBytes →
      (emit F offset first rest).2 ≤ F.blockBytes ∧
        (position + (emit F offset first rest).1.length) % F.blockBytes
          = (emit F offset first rest).2 % F.blockBytes := by
  induction offset, first, rest using emit.induct F with
  | case1 offset first =>
    intro position hoff hpos
    rw [emit_nil]
    exact ⟨hoff, hpos⟩
  | case2 =>
    rename_i offset first rest hrest length ih
    intro position hoff hpos
    obtain ⟨hle, hmod⟩ := ih (fragment_fits offset rest) (fragment_end_mod rest hoff hpos)
    rw [emit_snd_of_ne_nil offset first hrest, length_emit_of_ne_nil offset first hrest]
    refine ⟨hle, ?_⟩
    rw [← hmod]
    simp only [Nat.add_assoc]
    rfl

theorem headerOffset_headerOffset (offset : ℕ) :
    headerOffset F (headerOffset F offset) = headerOffset F offset := by
  have hhead := headerOffset_add_le F offset
  rw [headerOffset, if_neg (by omega)]

theorem padding_headerOffset (offset : ℕ) : padding F (headerOffset F offset) = 0 := by
  have hhead := headerOffset_add_le F offset
  rw [padding, if_neg (by omega)]

variable {F} in
/-- Writing a record is filling the block and writing it at the next header. -/
theorem emit_eq_padding_append (offset : ℕ) (first : Bool) {rest : Bytes} (hrest : rest ≠ []) :
    emit F offset first rest
      = (List.replicate (padding F offset) 0 ++ (emit F (headerOffset F offset) first rest).1,
        (emit F (headerOffset F offset) first rest).2) := by
  have hlen : fragmentLength F (headerOffset F offset) rest = fragmentLength F offset rest := by
    rw [fragmentLength, headerOffset_headerOffset, fragmentLength]
  refine Prod.ext ?_ ?_
  · rw [emit_of_ne_nil offset first hrest, emit_of_ne_nil (headerOffset F offset) first hrest,
      padding_headerOffset, headerOffset_headerOffset, hlen, List.replicate_zero, List.nil_append]
  · rw [emit_snd_of_ne_nil offset first hrest, emit_snd_of_ne_nil (headerOffset F offset) first
      hrest, headerOffset_headerOffset, hlen]

variable {F} in
/-- A writer that resumes at the end of a record, or after the filling that follows it, writes
what the first writer would have written. -/
theorem emit_resume {position offset filled : ℕ} {rest : Bytes} (hoff : offset ≤ F.blockBytes)
    (hpos : position % F.blockBytes = offset % F.blockBytes)
    (hfilled : filled = 0 ∨ filled = padding F offset) (hrest : rest ≠ []) :
    emit F offset true rest
      = (List.replicate filled 0 ++ (emit F ((position + filled) % F.blockBytes) true rest).1,
        (emit F ((position + filled) % F.blockBytes) true rest).2) := by
  have hH := F.header_lt
  rcases hfilled with rfl | rfl
  · have hpad : padding F (offset % F.blockBytes) = padding F offset := by
      rcases hoff.lt_or_eq with hlt | rfl
      · rw [Nat.mod_eq_of_lt hlt]
      · simp only [Nat.mod_self, padding, Nat.sub_self, Nat.sub_zero]
        rw [if_neg (by omega), if_pos (by decide)]
    have hhead : headerOffset F (offset % F.blockBytes) = headerOffset F offset := by
      rcases hoff.lt_or_eq with hlt | rfl
      · rw [Nat.mod_eq_of_lt hlt]
      · simp only [Nat.mod_self, headerOffset, Nat.sub_self, Nat.sub_zero]
        rw [if_neg (by omega), if_pos (by decide)]
    rw [emit_eq_padding_append offset true hrest, Nat.add_zero, hpos,
      emit_eq_padding_append (offset % F.blockBytes) true hrest, hpad, hhead]
    simp
  · rw [add_padding_mod hoff hpos, emit_eq_padding_append offset true hrest]

/-! ## Lists of records -/

theorem emitAll_append (offset : ℕ) (records more : List Bytes) :
    emitAll F offset (records ++ more)
      = ((emitAll F offset records).1 ++ (emitAll F (emitAll F offset records).2 more).1,
        (emitAll F (emitAll F offset records).2 more).2) := by
  induction records generalizing offset with
  | nil => rfl
  | cons record records ih => simp only [List.cons_append, emitAll, ih, List.append_assoc]

variable {F} in
theorem emitAll_offset {offset : ℕ} {records : List Bytes} :
    ∀ {position : ℕ}, offset ≤ F.blockBytes → position % F.blockBytes = offset % F.blockBytes →
      (emitAll F offset records).2 ≤ F.blockBytes ∧
        (position + (emitAll F offset records).1.length) % F.blockBytes
          = (emitAll F offset records).2 % F.blockBytes := by
  induction records generalizing offset with
  | nil => exact fun hoff hpos ↦ ⟨hoff, hpos⟩
  | cons record records ih =>
    intro position hoff hpos
    obtain ⟨hle, hmod⟩ := emit_offset offset true record hoff hpos
    obtain ⟨hle', hmod'⟩ := ih hle hmod
    simp only [emitAll]
    exact ⟨hle', by rw [List.length_append, ← Nat.add_assoc, hmod']⟩

/-- The bytes of a prefix of the records are a prefix of the bytes. -/
theorem emitAll_take_isPrefix (offset m : ℕ) (records : List Bytes) :
    (emitAll F offset (records.take m)).1 <+: (emitAll F offset records).1 := by
  conv_rhs => rw [← List.take_append_drop m records, emitAll_append]
  exact List.prefix_append _ _

/-- The records of a log that lie entirely within its first `n` bytes: the first `m` of them, and
no more. -/
structure Complete (offset : ℕ) (records : List Bytes) (n m : ℕ) : Prop where
  le_length : m ≤ records.length
  within : (emitAll F offset (records.take m)).1.length ≤ n
  next : m < records.length → n < (emitAll F offset (records.take (m + 1))).1.length

variable {F} in
/-- The number of complete records is the greatest number that fits. -/
theorem Complete.le_iff_within {offset n m k : ℕ} {records : List Bytes}
    (h : Complete F offset records n m) (hk : k ≤ records.length) :
    k ≤ m ↔ (emitAll F offset (records.take k)).1.length ≤ n := by
  have hmono {i j : ℕ} (hij : i ≤ j) :
      (emitAll F offset (records.take i)).1.length
        ≤ (emitAll F offset (records.take j)).1.length := by
    have hsub : records.take i = (records.take j).take i := by
      rw [List.take_take, Nat.min_eq_left hij]
    rw [hsub]
    exact (emitAll_take_isPrefix F offset i (records.take j)).length_le
  refine ⟨fun hkm ↦ (hmono hkm).trans h.within, fun hwithin ↦ ?_⟩
  by_contra hlt
  have hnext := h.next (by omega)
  have := hmono (show m + 1 ≤ k by omega)
  omega

variable {F} in
/-- The torn-tail law by position. -/
theorem readFrom_take_emitAll {records : List Bytes} :
    ∀ (offset position : ℕ) {n : ℕ} {out final : σ}, offset ≤ F.blockBytes →
      position % F.blockBytes = offset % F.blockBytes →
      (∀ record ∈ records, record ≠ [] ∧ record.length ≤ C.limit) →
      records.foldlM C.deliver out = .ok final → n ≤ (emitAll F offset records).1.length →
      ∃ m filled out', Complete F offset records n m ∧
        (filled = 0 ∨ filled = padding F (emitAll F offset (records.take m)).2) ∧
        (emitAll F offset (records.take m)).1.length + filled ≤ n ∧
        (records.take m).foldlM C.deliver out = .ok out' ∧
        readFrom F C position ((emitAll F offset records).1.take n) ⟨none, out⟩
          = .ok ⟨out', position + ((emitAll F offset (records.take m)).1.length + filled),
              position + n⟩ := by
  induction records with
  | nil =>
    intro offset position n out final hoff hpos hrecords hfold hn
    have hzero : n = 0 := by simpa [emitAll] using hn
    refine ⟨0, 0, out, ⟨le_rfl, Nat.zero_le _, fun h ↦ absurd h (Nat.lt_irrefl 0)⟩, .inl rfl,
      Nat.zero_le _, rfl, ?_⟩
    rw [hzero, List.take_zero, readFrom, if_pos rfl]
    rfl
  | cons record records ih =>
    intro offset position n out final hoff hpos hrecords hfold hn
    obtain ⟨hne, hlimit⟩ := hrecords record (List.mem_cons_self ..)
    have hlogical : Assembly.logical (⟨none, out⟩ : Assembly σ) = [] := rfl
    by_cases hcut : n < (emit F offset true record).1.length
    · -- the first record is cut
      obtain ⟨filled, hfilled, hle, hread⟩ :=
        readFrom_take_emit C offset true record position n ⟨none, out⟩ hoff hpos rfl
          (by rwa [hlogical]) hcut
      refine ⟨0, filled, out, ⟨Nat.zero_le _, Nat.zero_le _, fun _ ↦ ?_⟩, hfilled, ?_, rfl, ?_⟩
      · simpa [emitAll] using hcut
      · simpa [emitAll] using hle
      · simp only [emitAll, List.take_zero, List.length_nil, Nat.zero_add]
        rw [List.take_append_of_le_length hcut.le, hread]
        rfl
    · -- the first record is complete: it is delivered, and the rest is read from its end
      obtain ⟨out₁, hdeliver, hrest⟩ : ∃ out₁, C.deliver out record = .ok out₁ ∧
          records.foldlM C.deliver out₁ = .ok final := by
        rw [List.foldlM_cons] at hfold
        cases hd : C.deliver out record with
        | error e => rw [hd] at hfold; cases hfold
        | ok out₁ => exact ⟨out₁, rfl, by rw [hd] at hfold; exact hfold⟩
      obtain ⟨hoff', hpos'⟩ := emit_offset offset true record hoff hpos
      obtain ⟨k, rfl⟩ : ∃ k, n = (emit F offset true record).1.length + k :=
        ⟨n - (emit F offset true record).1.length, by omega⟩
      have hk : k ≤ (emitAll F (emit F offset true record).2 records).1.length := by
        simp only [emitAll, List.length_append] at hn
        omega
      obtain ⟨m, filled, out', hcomplete, hfilled, hle, hdelivers, hread⟩ :=
        ih _ _ hoff' hpos' (fun r hr ↦ hrecords r (List.mem_cons_of_mem _ hr)) hrest hk
      refine ⟨m + 1, filled, out', ⟨?_, ?_, ?_⟩, ?_, ?_, ?_, ?_⟩
      · simpa using hcomplete.le_length
      · simpa [emitAll] using hcomplete.within
      · simpa [emitAll] using hcomplete.next
      · simpa [emitAll] using hfilled
      · simp only [emitAll, List.take_succ_cons, List.length_append]
        omega
      · rw [List.take_succ_cons, List.foldlM_cons, hdeliver]
        exact hdelivers
      · simp only [emitAll, List.take_succ_cons, List.length_append]
        rw [List.take_append, List.take_of_length_le (Nat.le_add_right _ _),
          Nat.add_sub_cancel_left,
          readFrom_emit C offset true record hne hoff hpos rfl (by rwa [hlogical]), hlogical,
          List.nil_append, hdeliver]
        simp only [Except.bind]
        rw [hread]
        simp only [Nat.add_assoc]

variable {F} in
/-- **The torn-tail law.** Reading the first `n` bytes of a log delivers exactly the records that
lie entirely within them; the valid length ends with the last of them, or with the filling of the
block it ends in. -/
theorem replay_take {records : List Bytes} {n : ℕ} {out final : σ}
    (hrecords : ∀ record ∈ records, record ≠ [] ∧ record.length ≤ C.limit)
    (hfold : records.foldlM C.deliver out = .ok final) (hn : n ≤ (emitAll F 0 records).1.length) :
    ∃ m filled out', Complete F 0 records n m ∧
      (filled = 0 ∨ filled = padding F (emitAll F 0 (records.take m)).2) ∧
      (emitAll F 0 (records.take m)).1.length + filled ≤ n ∧
      (records.take m).foldlM C.deliver out = .ok out' ∧
      replay F C ((emitAll F 0 records).1.take n) out
        = .ok ⟨out', (emitAll F 0 (records.take m)).1.length + filled, n⟩ := by
  obtain ⟨m, filled, out', hcomplete, hfilled, hle, hdelivers, hread⟩ :=
    readFrom_take_emitAll C 0 0 (Nat.zero_le _) rfl hrecords hfold hn
  refine ⟨m, filled, out', hcomplete, hfilled, hle, hdelivers, ?_⟩
  rw [replay_eq_readFrom, hread, Nat.zero_add, Nat.zero_add]

/-! ## Reached positions

How far a reader gets in bytes that need not come from a writer. -/

/-- The positions a reader reaches in a log, with what it carries there: it starts at the first
byte, passes a fragment once that is verified and consumed, and leaves the filling of a block that
is followed by another. -/
inductive Reached (bytes : Bytes) (out : σ) : ℕ → Assembly σ → Prop
  | start : Reached bytes out 0 ⟨none, out⟩
  | fragment {position length : ℕ} {sum : BitVec 32} {ty : Byte} {st st' : Assembly σ} :
      Reached bytes out position st →
      parseHeader (bytes.drop position) = (sum, length, ty) →
      headerBytes + length ≤ min (room F position) (bytes.length - position) →
      F.verify sum ty (((bytes.drop position).drop headerBytes).take length) = true →
      consume C position st ty (((bytes.drop position).drop headerBytes).take length) = .ok st' →
      Reached bytes out (position + headerBytes + length) st'
  | filling {position : ℕ} {st : Assembly σ} :
      Reached bytes out position st →
      room F position < headerBytes →
      room F position < bytes.length - position →
      ((bytes.drop position).take (room F position)).any (· ≠ 0) = false →
      Reached bytes out (position + room F position) st

/-- A complete header whose declared payload ends beyond the physical block the header is in. -/
structure CrossesBlock (bytes : Bytes) (position : ℕ) : Prop where
  header_le_room : headerBytes ≤ room F position
  header_le_length : position + headerBytes ≤ bytes.length
  room_lt : room F position < headerBytes + (parseHeader (bytes.drop position)).2.1

variable {F C}

/-- Reading a log is reading on from any position the reader reaches. -/
theorem Reached.replay_eq {bytes : Bytes} {out : σ} {position : ℕ} {st : Assembly σ}
    (h : Reached F C bytes out position st) :
    replay F C bytes out = readFrom F C position (bytes.drop position) st := by
  induction h with
  | start => rw [replay_eq_readFrom, List.drop_zero]
  | @fragment position length sum ty st st' _ hheader hfits hverify hconsume ih =>
    have hlength : (bytes.drop position).length = bytes.length - position := List.length_drop
    have hne : bytes.drop position ≠ [] := by
      rw [← List.length_pos_iff, hlength]
      unfold headerBytes at hfits
      omega
    rw [ih, readFrom, if_neg hne, hlength, if_neg (by omega)]
    simp only [hheader]
    rw [if_neg (by omega), if_pos hverify, hconsume]
    simp only [List.drop_drop, Nat.add_assoc]
  | @filling position st _ hroom hmore hzero ih =>
    have hlength : (bytes.drop position).length = bytes.length - position := List.length_drop
    have hne : bytes.drop position ≠ [] := by
      rw [← List.length_pos_iff, hlength]
      omega
    rw [ih, readFrom, if_neg hne, hlength, if_pos (by omega), if_neg (by omega), hzero,
      if_neg (by decide), List.drop_drop]

/-- The end of the block that contains a position. -/
theorem add_room (position : ℕ) :
    position + room F position = (position / F.blockBytes + 1) * F.blockBytes := by
  have hpos : 0 < F.blockBytes := lt_trans (by decide) F.header_lt
  have hmod := Nat.mod_lt position hpos
  have hdiv := Nat.div_add_mod position F.blockBytes
  rw [room, Nat.add_mul, Nat.one_mul, Nat.mul_comm (position / F.blockBytes)]
  omega

/-- **A payload that leaves its block** is an error exactly if another block follows; in the last
block the reader takes it for a torn tail. -/
theorem Reached.replay_crossesBlock {bytes : Bytes} {out : σ} {position : ℕ} {st : Assembly σ}
    (h : Reached F C bytes out position st) (hcross : CrossesBlock F bytes position) :
    replay F C bytes out =
      if (position / F.blockBytes + 1) * F.blockBytes < bytes.length then
        .error (C.fault (.crosses (parseHeader (bytes.drop position)).2.1))
      else .ok ⟨st.out, validUpTo position st, bytes.length⟩ := by
  obtain ⟨hroom, hheader, hlt⟩ := hcross
  have hlength : (bytes.drop position).length = bytes.length - position := List.length_drop
  have hne : bytes.drop position ≠ [] := by
    rw [← List.length_pos_iff, hlength]
    unfold headerBytes at hheader
    omega
  rw [h.replay_eq, readFrom, if_neg hne, hlength, if_neg (by omega), ← add_room]
  generalize parseHeader (bytes.drop position) = fields at hlt ⊢
  obtain ⟨sum, length, ty⟩ := fields
  simp only at hlt ⊢
  rw [if_pos (by omega)]
  by_cases hlast : bytes.length - position ≤ room F position
  · rw [if_pos hlast, if_neg (by omega), Nat.add_sub_of_le (by omega)]
  · rw [if_neg hlast, if_pos (by omega)]

end BlockLog
