import MeteorDB.Lib.PartitionPoint
import MeteorDB.Lib.Decoder
import MeteorDB.Sstable.Format

/-!
# Data blocks

A block is a run of entries with strictly increasing keys. An entry stores how much of the key
before it shares, the rest of its key, and its value; at restart points it shares nothing, so that a
search can begin there. The offsets of the restart points follow the entries.

The functions work with cursors into the entry bytes, as the source does. What they do is said with
`Scanned`, which has one constructor for each way the checking loop of the decoder goes on: the
iterator and the search walk over the same entries (`Scanned.drain`, `Scanned.seekFrom`), and at a
restart point the walk does not depend on the key before (`Scanned.restart`).
-/

namespace MeteorDB

open ByteString Varint

/-! ## Entries -/

def dataCorruption (detail : String) : Error := .corruption "SSTable data block" detail

/-- Moves a cursor. -/
def checkedCursor (left right : ℕ) (field : String) : Result ℕ :=
  match checkedAdd left right with
  | some cursor => .ok cursor
  | none => .error (dataCorruption (field ++ " overflows usize"))

/-- The bytes of a range. -/
def getRange (bytes : Bytes) (start stop : ℕ) : Option Bytes :=
  if start ≤ stop ∧ stop ≤ bytes.length then some ((bytes.drop start).take (stop - start)) else none

structure DecodedEntry where
  shared : ℕ
  key : Bytes
  value : Bytes
  next : ℕ

/-- The key and the value of an entry. -/
def DecodedEntry.item (decoded : DecodedEntry) : Bytes × Bytes := (decoded.key, decoded.value)

/-- Reads a length at a cursor. -/
def readLength (entries : Bytes) (start : ℕ) (field : String) : Result (ℕ × ℕ) :=
  match readVarint entries start field with
  | .ok read => .ok read
  | .error detail => .error (dataCorruption detail)

/-- Reads the entry at a cursor. A `u64` length always is a `usize`. -/
def Block.decodeEntry (entries : Bytes) (start : ℕ) (previousKey : Bytes) :
    Result DecodedEntry := do
  let (shared, sharedBytes) ← readLength entries start "shared key length"
  let unsharedStart ← checkedCursor start sharedBytes "unshared key length cursor"
  let (unshared, unsharedBytes) ← readLength entries unsharedStart "unshared key length"
  let valueStart ← checkedCursor unsharedStart unsharedBytes "value length cursor"
  let (valueLen, valueBytes) ← readLength entries valueStart "value length"
  let suffixStart ← checkedCursor valueStart valueBytes "key suffix cursor"
  if previousKey.length < shared then
    throw (dataCorruption ("shared key length " ++ toString shared
      ++ " exceeds previous key length " ++ toString previousKey.length))
  else do
    let suffixEnd ← checkedCursor suffixStart unshared "key suffix end"
    let valueEnd ← checkedCursor suffixEnd valueLen "value end"
    match getRange entries suffixStart suffixEnd with
    | none => throw (dataCorruption "key suffix extends beyond entry bytes")
    | some suffix =>
      match getRange entries suffixEnd valueEnd with
      | none => throw (dataCorruption "value extends beyond entry bytes")
      | some value =>
        match checkedAdd shared unshared with
        | none => throw (dataCorruption "reconstructed key length overflows usize")
        | some _ => return ⟨shared, previousKey.take shared ++ suffix, value, valueEnd⟩

/-- The bytes of an entry: the three lengths, the rest of the key, and the value. -/
def entryBytes (shared : ℕ) (suffix value : Bytes) : Bytes :=
  putVarint shared ++ (putVarint suffix.length ++ (putVarint value.length ++ (suffix ++ value)))

/-! ### What is read at a cursor -/

private theorem append_prefix_drop {bytes front back : Bytes} {start : ℕ} :
    front ++ back <+: bytes.drop start ↔
      front <+: bytes.drop start ∧ back <+: bytes.drop (start + front.length) := by
  rw [← List.drop_drop]
  constructor
  · rintro ⟨rest, hrest⟩
    rw [← hrest, List.append_assoc, List.drop_left]
    exact ⟨List.prefix_append _ _, List.prefix_append _ _⟩
  · rintro ⟨⟨rest, hrest⟩, hback⟩
    rw [← hrest, List.drop_left] at hback
    rw [← hrest]
    exact (List.prefix_append_right_inj front).mpr hback

private theorem checkedCursor_eq_ok {left right cursor : ℕ} {field : String} :
    checkedCursor left right field = .ok cursor ↔
      cursor = left + right ∧ left + right < usizeRange := by
  unfold checkedCursor checkedAdd
  split_ifs with hlt
  · exact ⟨fun h ↦ ⟨(Except.ok.inj h).symm, hlt⟩, fun h ↦ congrArg Except.ok h.1.symm⟩
  · exact ⟨nofun, fun h ↦ absurd h.2 hlt⟩

private theorem getRange_eq_some {bytes part : Bytes} {start length : ℕ}
    (hstart : start ≤ bytes.length) : getRange bytes start (start + length) = some part ↔
      part <+: bytes.drop start ∧ part.length = length := by
  unfold getRange
  rw [Nat.add_sub_cancel_left]
  split_ifs with hrange
  · have hlength : ((bytes.drop start).take length).length = length := by
      rw [List.length_take, List.length_drop]
      omega
    rw [Option.some.injEq]
    constructor
    · rintro rfl
      exact ⟨List.take_prefix _ _, hlength⟩
    · rintro ⟨hpre, rfl⟩
      exact (List.prefix_iff_eq_take.mp hpre).symm
  · refine iff_of_false nofun ?_
    rintro ⟨hpre, rfl⟩
    have hle := hpre.length_le
    rw [List.length_drop] at hle
    omega

private theorem readLength_eq_ok {entries : Bytes} {start n count : ℕ} {field : String} :
    readLength entries start field = .ok (n, count) ↔ putVarint n <+: entries.drop start ∧
      count = (putVarint n).length ∧ n < 2 ^ 64 ∧ start + count ≤ usizeRange := by
  have hread := @readVarint_eq_ok entries start field n count
  unfold Reads at hread
  rw [← putVarint_eq_encode, and_assoc] at hread
  rw [← hread]
  unfold readLength
  cases readVarint entries start field with
  | error detail => exact ⟨nofun, nofun⟩
  | ok read => simp only [Except.ok.injEq]

/-- What the cursors of an entry are, and what is found there. -/
theorem entryBytes_prefix {entries suffix value : Bytes} {start shared : ℕ} :
    entryBytes shared suffix value <+: entries.drop start ↔
      putVarint shared <+: entries.drop start ∧
      putVarint suffix.length <+: entries.drop (start + (putVarint shared).length) ∧
      putVarint value.length <+:
        entries.drop (start + (putVarint shared).length + (putVarint suffix.length).length) ∧
      suffix <+: entries.drop (start + (putVarint shared).length
        + (putVarint suffix.length).length + (putVarint value.length).length) ∧
      value <+: entries.drop (start + (putVarint shared).length
        + (putVarint suffix.length).length + (putVarint value.length).length + suffix.length) := by
  unfold entryBytes
  rw [append_prefix_drop, append_prefix_drop, append_prefix_drop, append_prefix_drop]

theorem length_entryBytes (shared : ℕ) (suffix value : Bytes) :
    (entryBytes shared suffix value).length = (putVarint shared).length
      + (putVarint suffix.length).length + (putVarint value.length).length + suffix.length
      + value.length := by
  unfold entryBytes
  simp only [List.length_append]
  omega

theorem length_putVarint_pos (n : ℕ) : 0 < (putVarint n).length := by
  rw [putVarint_eq_encode]
  exact length_encode_pos n

theorem length_entryBytes_pos (shared : ℕ) (suffix value : Bytes) :
    0 < (entryBytes shared suffix value).length := by
  have := length_putVarint_pos shared
  rw [length_entryBytes]
  omega

/-- A part that is found at a cursor ends inside the bytes. -/
theorem end_le_of_prefix {bytes part : Bytes} {start : ℕ} (h : part <+: bytes.drop start)
    (hpos : 0 < part.length) : start + part.length ≤ bytes.length := by
  have hle := h.length_le
  rw [List.length_drop] at hle
  omega

/-- **An entry is read exactly where its bytes are.** -/
theorem decodeEntry_eq_ok {entries previousKey : Bytes} {start : ℕ} {decoded : DecodedEntry} :
    Block.decodeEntry entries start previousKey = .ok decoded ↔
      ∃ suffix, decoded.shared ≤ previousKey.length ∧
        decoded.key = previousKey.take decoded.shared ++ suffix ∧
        entryBytes decoded.shared suffix decoded.value <+: entries.drop start ∧
        decoded.next = start + (entryBytes decoded.shared suffix decoded.value).length ∧
        decoded.next < usizeRange ∧ decoded.shared + suffix.length < usizeRange := by
  unfold Block.decodeEntry
  constructor
  · intro h
    obtain ⟨⟨shared, sharedBytes⟩, hread₁, h₁⟩ := Decoder.bind_eq_ok.mp h
    obtain ⟨unsharedStart, hcursor₁, h₂⟩ := Decoder.bind_eq_ok.mp h₁
    obtain ⟨⟨unshared, unsharedBytes⟩, hread₂, h₃⟩ := Decoder.bind_eq_ok.mp h₂
    obtain ⟨valueStart, hcursor₂, h₄⟩ := Decoder.bind_eq_ok.mp h₃
    obtain ⟨⟨valueLen, valueBytes⟩, hread₃, h₅⟩ := Decoder.bind_eq_ok.mp h₄
    obtain ⟨suffixStart, hcursor₃, h₆⟩ := Decoder.bind_eq_ok.mp h₅
    split_ifs at h₆ with hlong
    obtain ⟨suffixEnd, hcursor₄, h₇⟩ := Decoder.bind_eq_ok.mp h₆
    obtain ⟨valueEnd, hcursor₅, h₈⟩ := Decoder.bind_eq_ok.mp h₇
    obtain ⟨hshared, rfl, -, -⟩ := readLength_eq_ok.mp hread₁
    obtain ⟨rfl, -⟩ := checkedCursor_eq_ok.mp hcursor₁
    obtain ⟨hunshared, rfl, -, -⟩ := readLength_eq_ok.mp hread₂
    obtain ⟨rfl, -⟩ := checkedCursor_eq_ok.mp hcursor₂
    obtain ⟨hvalueLen, rfl, -, -⟩ := readLength_eq_ok.mp hread₃
    obtain ⟨rfl, -⟩ := checkedCursor_eq_ok.mp hcursor₃
    obtain ⟨rfl, -⟩ := checkedCursor_eq_ok.mp hcursor₄
    obtain ⟨rfl, hend⟩ := checkedCursor_eq_ok.mp hcursor₅
    have hstart := end_le_of_prefix hvalueLen (length_putVarint_pos _)
    cases hrange₁ : getRange entries (start + (putVarint shared).length
        + (putVarint unshared).length + (putVarint valueLen).length) (start
        + (putVarint shared).length + (putVarint unshared).length + (putVarint valueLen).length
        + unshared) with
    | none =>
      rw [hrange₁] at h₈
      cases h₈
    | some suffix =>
    rw [hrange₁] at h₈
    obtain ⟨hsuffix, rfl⟩ := (getRange_eq_some hstart).mp hrange₁
    have hstart' := hsuffix.length_le
    rw [List.length_drop] at hstart'
    dsimp only at h₈
    cases hrange₂ : getRange entries (start + (putVarint shared).length
        + (putVarint suffix.length).length + (putVarint valueLen).length + suffix.length) (start
        + (putVarint shared).length + (putVarint suffix.length).length
        + (putVarint valueLen).length + suffix.length + valueLen) with
    | none =>
      rw [hrange₂] at h₈
      cases h₈
    | some value =>
    rw [hrange₂] at h₈
    obtain ⟨hvalue, rfl⟩ := (getRange_eq_some (by omega)).mp hrange₂
    unfold checkedAdd at h₈
    by_cases hcapacity : shared + suffix.length < usizeRange
    · rw [if_pos hcapacity] at h₈
      obtain rfl := Except.ok.inj h₈
      refine ⟨suffix, not_lt.mp hlong, rfl,
        entryBytes_prefix.mpr ⟨hshared, hunshared, hvalueLen, hsuffix, hvalue⟩, ?_, hend, hcapacity⟩
      rw [length_entryBytes]
      dsimp only
      omega
    · rw [if_neg hcapacity] at h₈
      cases h₈
  · obtain ⟨shared, key, value, next⟩ := decoded
    dsimp only
    rintro ⟨suffix, hlong, rfl, hpre, rfl, hend, hcapacity⟩
    obtain ⟨hshared, hunshared, hvalueLen, hsuffix, hvalue⟩ := entryBytes_prefix.mp hpre
    have hlimit : usizeRange = 2 ^ 64 := rfl
    rw [length_entryBytes] at hend ⊢
    have hstart := end_le_of_prefix hvalueLen (length_putVarint_pos _)
    have hstart' := hsuffix.length_le
    rw [List.length_drop] at hstart'
    refine Decoder.bind_eq_ok.mpr ⟨_, readLength_eq_ok.mpr ⟨hshared, rfl, by omega, by omega⟩, ?_⟩
    refine Decoder.bind_eq_ok.mpr ⟨_, checkedCursor_eq_ok.mpr ⟨rfl, by omega⟩, ?_⟩
    refine Decoder.bind_eq_ok.mpr ⟨_, readLength_eq_ok.mpr ⟨hunshared, rfl, by omega, by omega⟩, ?_⟩
    refine Decoder.bind_eq_ok.mpr ⟨_, checkedCursor_eq_ok.mpr ⟨rfl, by omega⟩, ?_⟩
    refine Decoder.bind_eq_ok.mpr ⟨_, readLength_eq_ok.mpr ⟨hvalueLen, rfl, by omega, by omega⟩, ?_⟩
    refine Decoder.bind_eq_ok.mpr ⟨_, checkedCursor_eq_ok.mpr ⟨rfl, by omega⟩, ?_⟩
    dsimp only
    rw [if_neg (not_lt.mpr hlong)]
    refine Decoder.bind_eq_ok.mpr ⟨_, checkedCursor_eq_ok.mpr ⟨rfl, by omega⟩, ?_⟩
    refine Decoder.bind_eq_ok.mpr ⟨_, checkedCursor_eq_ok.mpr ⟨rfl, by omega⟩, ?_⟩
    rw [(getRange_eq_some hstart).mpr ⟨hsuffix, rfl⟩]
    dsimp only
    rw [(getRange_eq_some (by omega)).mpr ⟨hvalue, rfl⟩]
    unfold checkedAdd
    rw [if_pos hcapacity]
    refine congrArg Except.ok ?_
    congr 1
    omega

private theorem lt_next_of_decodeEntry {entries previousKey : Bytes} {start : ℕ}
    {decoded : DecodedEntry} (h : Block.decodeEntry entries start previousKey = .ok decoded) :
    start < decoded.next ∧ decoded.next ≤ entries.length := by
  obtain ⟨suffix, -, -, hpre, hnext, -, -⟩ := decodeEntry_eq_ok.mp h
  have hpos := length_entryBytes_pos decoded.shared suffix decoded.value
  have hend := end_le_of_prefix hpre hpos
  omega

/-- An entry that shares nothing does not depend on the key before it. -/
theorem decodeEntry_of_shared {entries previousKey : Bytes} {start : ℕ} {decoded : DecodedEntry}
    (h : Block.decodeEntry entries start previousKey = .ok decoded) (hshared : decoded.shared = 0)
    (otherKey : Bytes) : Block.decodeEntry entries start otherKey = .ok decoded := by
  obtain ⟨suffix, -, hkey, hrest⟩ := decodeEntry_eq_ok.mp h
  refine decodeEntry_eq_ok.mpr ⟨suffix, by omega, ?_, hrest⟩
  rw [hkey, hshared, List.take_zero, List.take_zero]

/-! ## Decoding a block -/

/-- A block whose bytes have been checked. -/
structure Block where
  entries : Bytes
  restarts : List ℕ
  entryCount : ℕ
  deriving DecidableEq

namespace Block

def fixedRestartBytes : ℕ := 4

/-- The restart offset at an index of the restart array. -/
def restartAt (encoded : Bytes) (entriesEnd index : ℕ) : ℕ :=
  leNat ((encoded.drop (entriesEnd + index * fixedRestartBytes)).take 4)

/-- Reads and checks one restart offset. -/
def readRestart (encoded : Bytes) (entriesEnd restartCount : ℕ) (restarts : List ℕ) (index : ℕ) :
    Result (List ℕ) :=
  match (checkedMul index fixedRestartBytes).bind (checkedAdd entriesEnd) with
  | none => .error (dataCorruption "restart-array cursor overflows usize")
  | some start =>
    let offset := leNat ((encoded.drop start).take 4)
    if index = 0 ∧ offset ≠ 0 then .error (dataCorruption "first restart offset is not zero")
    else if 0 < index ∧ offset ≤ restarts.getD (index - 1) 0 then
      .error (dataCorruption "restart offsets are not strictly increasing")
    else if entriesEnd = 0 ∧ (restartCount ≠ 1 ∨ offset ≠ 0) then
      .error (dataCorruption "empty block has invalid restart offsets")
    else if entriesEnd ≠ 0 ∧ entriesEnd ≤ offset then
      .error (dataCorruption ("restart offset " ++ toString offset ++ " is outside "
        ++ toString entriesEnd ++ " entry bytes"))
    else .ok (restarts ++ [offset])

/-- Where the check of the entries stands. -/
structure Scan where
  cursor : ℕ
  previousKey : Bytes
  entryCount : ℕ
  observedRestarts : ℕ

/-- Checks the entries from a cursor on. -/
def scanEntries (entries : Bytes) (restarts : List ℕ) (scan : Scan) : Result Scan :=
  if scan.cursor < entries.length then
    match _h : decodeEntry entries scan.cursor scan.previousKey with
    | .error error => .error error
    | .ok decoded =>
      if scan.cursor ∈ restarts ∧ decoded.shared ≠ 0 then
        .error (dataCorruption ("restart at offset " ++ toString scan.cursor
          ++ " has shared prefix " ++ toString decoded.shared))
      else if scan.entryCount ≠ 0 ∧ decoded.key ≤ scan.previousKey then
        .error (dataCorruption "decoded keys are not strictly increasing")
      else scanEntries entries restarts
        { cursor := decoded.next
          previousKey := decoded.key
          entryCount := scan.entryCount + 1
          observedRestarts :=
            if scan.cursor ∈ restarts then scan.observedRestarts + 1 else scan.observedRestarts }
  else .ok scan
termination_by entries.length - scan.cursor
decreasing_by
  have := lt_next_of_decodeEntry _h
  omega

/-- Checks and copies an encoded block. -/
def decode (encoded : Bytes) : Result Block :=
  if encoded.length < fixedRestartBytes * 2 then
    .error (dataCorruption "block is too short for restart metadata")
  else
    let countStart := encoded.length - fixedRestartBytes
    let restartCount := leNat (encoded.drop countStart)
    if restartCount = 0 then .error (dataCorruption "restart count is zero")
    else
      match checkedMul restartCount fixedRestartBytes with
      | none => .error (dataCorruption "restart array length overflows usize")
      | some restartBytes =>
        if countStart < restartBytes then
          .error (dataCorruption "restart array extends before the block")
        else do
          let entriesEnd := countStart - restartBytes
          let restarts ←
            (List.range restartCount).foldlM (readRestart encoded entriesEnd restartCount) []
          let entries := encoded.take entriesEnd
          let scan ← scanEntries entries restarts ⟨0, [], 0, 0⟩
          if scan.cursor ≠ entries.length then
            throw (dataCorruption "entry cursor does not end at restart array")
          else if (if entries.isEmpty then 1 else scan.observedRestarts) ≠ restarts.length then
            throw (dataCorruption "a restart offset does not point to an entry boundary")
          else return ⟨entries, restarts, scan.entryCount⟩

def isEmpty (block : Block) : Bool := block.entryCount = 0

def len (block : Block) : ℕ := block.entryCount

/-! ### Iterating -/

/-- An iterator over a block. -/
structure Iter where
  block : Block
  cursor : ℕ
  previousKey : Bytes

def iter (block : Block) : Iter := ⟨block, 0, []⟩

/-- The next item, and the iterator after it. -/
def Iter.next (it : Iter) : Option (Result (Bytes × Bytes)) × Iter :=
  if it.block.entries.length ≤ it.cursor then (none, it)
  else
    match decodeEntry it.block.entries it.cursor it.previousKey with
    | .ok decoded => (some (.ok (decoded.key, decoded.value)),
        { it with cursor := decoded.next, previousKey := decoded.key })
    | .error error => (some (.error error), { it with cursor := it.block.entries.length })

private theorem Iter.next_lt {it it' : Iter} {item : Result (Bytes × Bytes)}
    (h : it.next = (some item, it')) :
    it'.block.entries.length - it'.cursor < it.block.entries.length - it.cursor := by
  unfold Iter.next at h
  split_ifs at h with hend
  · cases h
  cases hdecode : decodeEntry it.block.entries it.cursor it.previousKey with
  | error error =>
    rw [hdecode] at h
    rw [← (Prod.mk.inj h).2]
    dsimp only
    omega
  | ok decoded =>
    have hnext := lt_next_of_decodeEntry hdecode
    rw [hdecode] at h
    rw [← (Prod.mk.inj h).2]
    dsimp only
    omega

/-- The items of an iterator up to its end. -/
def Iter.drain (it : Iter) : List (Result (Bytes × Bytes)) :=
  match _h : it.next with
  | (none, _) => []
  | (some item, it') => item :: it'.drain
termination_by it.block.entries.length - it.cursor
decreasing_by exact Iter.next_lt _h

/-! ### Seeking -/

/-- The first entry from a cursor on whose key is at least the target. -/
def seekFrom (entries target : Bytes) (cursor : ℕ) (previousKey : Bytes) :
    Result (Option (Bytes × Bytes)) :=
  if cursor < entries.length then
    match _h : decodeEntry entries cursor previousKey with
    | .error error => .error error
    | .ok decoded =>
      if target ≤ decoded.key then .ok (some (decoded.key, decoded.value))
      else seekFrom entries target decoded.next decoded.key
  else .ok none
termination_by entries.length - cursor
decreasing_by
  have := lt_next_of_decodeEntry _h
  omega

def keyAtRestart (block : Block) (offset : ℕ) : Result Bytes :=
  (decodeEntry block.entries offset []).map (·.key)

/-- Whether the key at a restart point is at most the target. -/
def isBelow (block : Block) (target : Bytes) (offset : ℕ) : Bool :=
  match block.keyAtRestart offset with
  | .ok key => key ≤ target
  | .error _ => false

/-- Finds the first entry whose key is at least the target. -/
def seek (block : Block) (target : Bytes) : Result (Option (Bytes × Bytes)) :=
  if block.isEmpty then .ok none
  else
    let firstGreater := partitionPoint (block.isBelow target) block.restarts
    seekFrom block.entries target (block.restarts.getD (firstGreater - 1) 0) []

/-! ## What the checks establish -/

/-- The entries that the checking loop finds from a cursor on, with the key before them and their
number so far. -/
inductive Scanned (entries : Bytes) (restarts : List ℕ) :
    ℕ → Bytes → ℕ → List DecodedEntry → Prop
  | nil {cursor : ℕ} {previousKey : Bytes} {count : ℕ} (hcursor : cursor = entries.length) :
      Scanned entries restarts cursor previousKey count []
  | cons {cursor : ℕ} {previousKey : Bytes} {count : ℕ} {decoded : DecodedEntry}
      {rest : List DecodedEntry} (hcursor : cursor < entries.length)
      (hdecode : decodeEntry entries cursor previousKey = .ok decoded)
      (hshared : cursor ∈ restarts → decoded.shared = 0)
      (hkey : count ≠ 0 → previousKey < decoded.key)
      (hrest : Scanned entries restarts decoded.next decoded.key (count + 1) rest) :
      Scanned entries restarts cursor previousKey count (decoded :: rest)

/-- The cursors of consecutive entries. -/
def startsFrom : ℕ → List DecodedEntry → List ℕ
  | _, [] => []
  | cursor, decoded :: rest => cursor :: startsFrom decoded.next rest

variable {entries : Bytes} {restarts : List ℕ} {cursor count : ℕ} {previousKey : Bytes}
  {found : List DecodedEntry}

/-- One round of the loop. -/
theorem scanEntries_eq_ok {scan final : Scan} (hcursor : scan.cursor < entries.length) :
    scanEntries entries restarts scan = .ok final ↔
      ∃ decoded, decodeEntry entries scan.cursor scan.previousKey = .ok decoded ∧
        (scan.cursor ∈ restarts → decoded.shared = 0) ∧
        (scan.entryCount ≠ 0 → scan.previousKey < decoded.key) ∧
        scanEntries entries restarts ⟨decoded.next, decoded.key, scan.entryCount + 1,
          if scan.cursor ∈ restarts then scan.observedRestarts + 1 else scan.observedRestarts⟩
            = .ok final := by
  rw [scanEntries, if_pos hcursor]
  split
  next error herror =>
    refine iff_of_false nofun ?_
    rintro ⟨decoded, hdecode, -⟩
    rw [hdecode] at herror
    cases herror
  next decoded hdecode =>
    constructor
    · intro h
      by_cases hshared : scan.cursor ∈ restarts ∧ decoded.shared ≠ 0
      · rw [if_pos hshared] at h
        cases h
      by_cases hkey : scan.entryCount ≠ 0 ∧ decoded.key ≤ scan.previousKey
      · rw [if_neg hshared, if_pos hkey] at h
        cases h
      rw [if_neg hshared, if_neg hkey] at h
      exact ⟨decoded, hdecode, fun hmem ↦ not_not.mp fun hne ↦ hshared ⟨hmem, hne⟩,
        fun hne ↦ not_le.mp fun hle ↦ hkey ⟨hne, hle⟩, h⟩
    · rintro ⟨decoded', hdecode', hshared, hkey, hrest⟩
      obtain rfl := Except.ok.inj (hdecode.symm.trans hdecode')
      rw [if_neg fun h ↦ h.2 (hshared h.1), if_neg fun h ↦ absurd (hkey h.1) (not_lt.mpr h.2)]
      exact hrest

private theorem scanEntries_end {scan : Scan} (hcursor : scan.cursor = entries.length) :
    scanEntries entries restarts scan = .ok scan := by
  rw [scanEntries, if_neg (by omega)]

/-- **What the loop accepts.** -/
theorem scanEntries_eq_ok_iff {scan final : Scan} (hcursor : scan.cursor ≤ entries.length) :
    scanEntries entries restarts scan = .ok final ↔
      ∃ found, Scanned entries restarts scan.cursor scan.previousKey scan.entryCount found ∧
        final = ⟨entries.length, (found.map (·.key)).getLastD scan.previousKey,
          scan.entryCount + found.length,
          scan.observedRestarts + (startsFrom scan.cursor found).countP (· ∈ restarts)⟩ := by
  -- Every round moves the cursor forward.
  induction hsize : entries.length - scan.cursor using Nat.strong_induction_on
    generalizing scan with
  | _ size ih =>
  obtain ⟨cursor, previousKey, count, observed⟩ := scan
  dsimp only at hcursor hsize ⊢
  rcases hcursor.lt_or_eq with hlt | hend
  · have hcount : ∀ (decoded : DecodedEntry) (rest : List DecodedEntry),
        (if cursor ∈ restarts then observed + 1 else observed)
            + (startsFrom decoded.next rest).countP (· ∈ restarts)
          = observed + (startsFrom cursor (decoded :: rest)).countP (· ∈ restarts) := by
      intro decoded rest
      rw [startsFrom, List.countP_cons]
      simp only [decide_eq_true_eq]
      split_ifs <;> omega
    rw [scanEntries_eq_ok hlt]
    dsimp only
    constructor
    · rintro ⟨decoded, hdecode, hshared, hkey, h⟩
      obtain ⟨hnext, hle⟩ := lt_next_of_decodeEntry hdecode
      obtain ⟨found, hfound, rfl⟩ := (ih _ (by dsimp only; omega) hle rfl).mp h
      refine ⟨decoded :: found, .cons hlt hdecode hshared hkey hfound, ?_⟩
      rw [← hcount, List.length_cons, List.map_cons, List.getLastD_cons, Nat.add_comm found.length,
        ← Nat.add_assoc]
    · rintro ⟨found, hfound, rfl⟩
      cases hfound with
      | nil hend => exact absurd hend hlt.ne
      | @cons _ _ _ decoded rest _ hdecode hshared hkey hrest =>
        obtain ⟨hnext, hle⟩ := lt_next_of_decodeEntry hdecode
        refine ⟨decoded, hdecode, hshared, hkey,
          (ih _ (by dsimp only; omega) hle rfl).mpr ⟨rest, hrest, ?_⟩⟩
        rw [← hcount, List.length_cons, List.map_cons, List.getLastD_cons, Nat.add_comm rest.length,
          ← Nat.add_assoc]
  · rw [scanEntries_end hend, Except.ok.injEq]
    constructor
    · rintro rfl
      exact ⟨[], .nil hend, by rw [hend]; rfl⟩
    · rintro ⟨found, hfound, rfl⟩
      cases hfound with
      | nil => rw [hend]; rfl
      | cons hlt => exact absurd hend hlt.ne

/-! ### Walking over the entries -/

private theorem Iter.drain_end {it : Iter} (h : it.block.entries.length ≤ it.cursor) :
    it.drain = [] := by
  rw [Iter.drain]
  split
  next => rfl
  next item it' hnext =>
    rw [Iter.next, if_pos h] at hnext
    cases hnext

private theorem Iter.drain_cons {it : Iter} {decoded : DecodedEntry}
    (hcursor : it.cursor < it.block.entries.length)
    (h : decodeEntry it.block.entries it.cursor it.previousKey = .ok decoded) :
    it.drain = .ok (decoded.key, decoded.value) ::
      (⟨it.block, decoded.next, decoded.key⟩ : Iter).drain := by
  have hstep : it.next = (some (.ok (decoded.key, decoded.value)),
      ⟨it.block, decoded.next, decoded.key⟩) := by
    rw [Iter.next, if_neg (not_le.mpr hcursor), h]
  rw [Iter.drain]
  split
  next it' hnext =>
    rw [hstep] at hnext
    cases hnext
  next item it' hnext =>
    rw [hstep] at hnext
    obtain ⟨rfl, rfl⟩ := Prod.mk.inj hnext |>.imp_left Option.some.inj
    rfl

/-- Iterating gives the scanned entries. -/
theorem Scanned.drain {block : Block}
    (h : Scanned block.entries restarts cursor previousKey count found) :
    (⟨block, cursor, previousKey⟩ : Iter).drain = found.map fun decoded ↦ .ok decoded.item := by
  induction h with
  | nil hend => exact Iter.drain_end hend.ge
  | cons hcursor hdecode _ _ _ ih =>
    rw [Iter.drain_cons hcursor hdecode, ih]
    rfl

/-- Searching gives the first of the scanned entries that is large enough. -/
theorem Scanned.seekFrom (h : Scanned entries restarts cursor previousKey count found)
    (target : Bytes) : Block.seekFrom entries target cursor previousKey
      = .ok ((found.map DecodedEntry.item).find? fun item ↦ target ≤ item.1) := by
  induction h with
  | nil hend => rw [Block.seekFrom, if_neg hend.ge.not_gt]; rfl
  | @cons cursor previousKey count decoded rest hcursor hdecode _ _ _ ih =>
    rw [Block.seekFrom, if_pos hcursor]
    split
    next error herror =>
      rw [hdecode] at herror
      cases herror
    next decoded' hdecode' =>
      obtain rfl := Except.ok.inj (hdecode.symm.trans hdecode')
      rw [List.map_cons]
      split_ifs with hle
      · have hpos : decide (target ≤ decoded.item.1) = true := decide_eq_true hle
        rw [List.find?_cons, hpos]
        rfl
      · have hneg : decide (target ≤ decoded.item.1) = false := decide_eq_false hle
        rw [List.find?_cons, hneg, ih]

private theorem Scanned.lt_keys (h : Scanned entries restarts cursor previousKey count found) :
    (found.map (·.key)).Pairwise (· < ·) ∧
      (count ≠ 0 → ∀ decoded ∈ found, previousKey < decoded.key) := by
  induction h with
  | nil => exact ⟨.nil, nofun⟩
  | @cons cursor previousKey count decoded rest _ _ _ hkey _ ih =>
    obtain ⟨hrest, hlt⟩ := ih
    have hlt := hlt (Nat.succ_ne_zero count)
    refine ⟨List.pairwise_cons.mpr ⟨fun key hmem ↦ ?_, hrest⟩, fun hne other hother ↦ ?_⟩
    · obtain ⟨other, hother, rfl⟩ := List.mem_map.mp hmem
      exact hlt other hother
    · rcases List.mem_cons.mp hother with rfl | hother
      · exact hkey hne
      · exact (hkey hne).trans (hlt other hother)

theorem Scanned.lt_starts (h : Scanned entries restarts cursor previousKey count found) :
    (startsFrom cursor found).Pairwise (· < ·) ∧
      ∀ start ∈ startsFrom cursor found, cursor ≤ start := by
  induction h with
  | nil => exact ⟨.nil, nofun⟩
  | @cons cursor previousKey count decoded rest _ hdecode _ _ _ ih =>
    obtain ⟨hrest, hle⟩ := ih
    have hnext := (lt_next_of_decodeEntry hdecode).1
    refine ⟨List.pairwise_cons.mpr ⟨fun start hstart ↦ hnext.trans_le (hle start hstart), hrest⟩,
      fun start hstart ↦ ?_⟩
    rcases List.mem_cons.mp hstart with rfl | hstart
    · exact le_refl _
    · exact hnext.le.trans (hle start hstart)

/-- From the start of an entry on, the remaining entries are scanned, and the later starts are
theirs. -/
theorem Scanned.from (h : Scanned entries restarts cursor previousKey count found) {start : ℕ}
    (hstart : start ∈ startsFrom cursor found) :
    ∃ before decoded after key number, found = before ++ decoded :: after ∧
      Scanned entries restarts start key number (decoded :: after) ∧
      ∀ later ∈ startsFrom cursor found, start < later → later ∈ startsFrom decoded.next after := by
  induction h with
  | nil => exact absurd hstart List.not_mem_nil
  | @cons cursor previousKey count decoded rest hcursor hdecode hshared hkey hrest ih =>
    rcases List.mem_cons.mp hstart with rfl | hstart
    · refine ⟨[], decoded, rest, previousKey, count, rfl, .cons hcursor hdecode hshared hkey hrest,
        fun later hlater hlt ↦ ?_⟩
      exact (List.mem_cons.mp hlater).resolve_left hlt.ne'
    · obtain ⟨before, other, after, key, number, rfl, hscanned, hlater⟩ := ih hstart
      refine ⟨decoded :: before, other, after, key, number, rfl, hscanned, fun later hmem hlt ↦ ?_⟩
      have hnext := (lt_next_of_decodeEntry hdecode).1
      have hle := hrest.lt_starts.2 start hstart
      exact hlater later ((List.mem_cons.mp hmem).resolve_left (by omega)) hlt

/-- At a restart point the walk does not need the key before. -/
theorem Scanned.restart {decoded : DecodedEntry} {after : List DecodedEntry}
    (h : Scanned entries restarts cursor previousKey count (decoded :: after))
    (hrestart : cursor ∈ restarts) :
    decodeEntry entries cursor [] = .ok decoded ∧
      ∃ number, Scanned entries restarts cursor [] number (decoded :: after) := by
  cases h with
  | cons hcursor hdecode hshared hkey hrest =>
    have hdecode' := decodeEntry_of_shared hdecode (hshared hrestart) []
    refine ⟨hdecode', count, .cons hcursor hdecode' hshared (fun hne ↦ ?_) hrest⟩
    exact (le_append [] previousKey).trans_lt (hkey hne)

/-! ### Restart points -/

/-- What is checked of a restart offset. -/
structure RestartOk (encoded : Bytes) (entriesEnd restartCount index : ℕ) : Prop where
  cursor_lt : entriesEnd + index * fixedRestartBytes < usizeRange
  first : index = 0 → restartAt encoded entriesEnd index = 0
  increasing : 0 < index →
    restartAt encoded entriesEnd (index - 1) < restartAt encoded entriesEnd index
  empty : entriesEnd = 0 → restartCount = 1 ∧ restartAt encoded entriesEnd index = 0
  inside : entriesEnd ≠ 0 → restartAt encoded entriesEnd index < entriesEnd

private theorem readRestart_eq_ok {encoded : Bytes} {entriesEnd restartCount index : ℕ}
    {restarts' : List ℕ}
    (hrestarts : restarts = (List.range index).map (restartAt encoded entriesEnd)) :
    readRestart encoded entriesEnd restartCount restarts index = .ok restarts' ↔
      RestartOk encoded entriesEnd restartCount index ∧
        restarts' = (List.range (index + 1)).map (restartAt encoded entriesEnd) := by
  have hprevious : 0 < index →
      restarts.getD (index - 1) 0 = restartAt encoded entriesEnd (index - 1) := by
    intro hpos
    rw [hrestarts, List.getD_eq_getElem?_getD, List.getElem?_map,
      List.getElem?_range (by omega)]
    rfl
  have happend : restarts ++ [restartAt encoded entriesEnd index]
      = (List.range (index + 1)).map (restartAt encoded entriesEnd) := by
    rw [hrestarts, List.range_succ, List.map_append]
    rfl
  have hstart : (checkedMul index fixedRestartBytes).bind (checkedAdd entriesEnd)
      = if entriesEnd + index * fixedRestartBytes < usizeRange then
          some (entriesEnd + index * fixedRestartBytes) else none := by
    unfold checkedMul checkedAdd
    split_ifs with hmul hadd hadd
    · exact if_pos hadd
    · exact if_neg hadd
    · omega
    · rfl
  unfold readRestart
  rw [hstart]
  by_cases hcursor : entriesEnd + index * fixedRestartBytes < usizeRange
  swap
  · rw [if_neg hcursor]
    exact iff_of_false nofun fun h ↦ hcursor h.1.cursor_lt
  rw [if_pos hcursor]
  have hat : leNat ((encoded.drop (entriesEnd + index * fixedRestartBytes)).take 4)
      = restartAt encoded entriesEnd index := rfl
  simp only [hat]
  by_cases hfirst : index = 0 ∧ restartAt encoded entriesEnd index ≠ 0
  · rw [if_pos hfirst]
    exact iff_of_false nofun fun h ↦ hfirst.2 (h.1.first hfirst.1)
  rw [if_neg hfirst]
  by_cases hincreasing :
      0 < index ∧ restartAt encoded entriesEnd index ≤ restarts.getD (index - 1) 0
  · rw [if_pos hincreasing]
    refine iff_of_false nofun fun h ↦ absurd (h.1.increasing hincreasing.1) (not_lt.mpr ?_)
    rw [← hprevious hincreasing.1]
    exact hincreasing.2
  rw [if_neg hincreasing]
  by_cases hempty : entriesEnd = 0 ∧ (restartCount ≠ 1 ∨ restartAt encoded entriesEnd index ≠ 0)
  · rw [if_pos hempty]
    refine iff_of_false nofun fun h ↦ ?_
    obtain ⟨hone, hzero⟩ := h.1.empty hempty.1
    exact hempty.2.elim (absurd hone) (absurd hzero)
  rw [if_neg hempty]
  by_cases hinside : entriesEnd ≠ 0 ∧ entriesEnd ≤ restartAt encoded entriesEnd index
  · rw [if_pos hinside]
    exact iff_of_false nofun fun h ↦ absurd (h.1.inside hinside.1) (not_lt.mpr hinside.2)
  rw [if_neg hinside, Except.ok.injEq, happend]
  constructor
  · rintro rfl
    refine ⟨⟨hcursor, fun hzero ↦ ?_, fun hpos ↦ ?_, fun hzero ↦ ?_, fun hne ↦ ?_⟩, rfl⟩
    · exact not_not.mp fun hne ↦ hfirst ⟨hzero, hne⟩
    · rw [← hprevious hpos]
      exact not_le.mp fun hle ↦ hincreasing ⟨hpos, hle⟩
    · by_contra hnot
      exact hempty ⟨hzero, by tauto⟩
    · exact not_le.mp fun hle ↦ hinside ⟨hne, hle⟩
  · exact fun h ↦ h.2.symm

private theorem readRestarts_eq_ok {encoded : Bytes} {entriesEnd restartCount : ℕ} (number : ℕ) :
    (List.range number).foldlM (readRestart encoded entriesEnd restartCount) [] = .ok restarts ↔
      (∀ index < number, RestartOk encoded entriesEnd restartCount index) ∧
        restarts = (List.range number).map (restartAt encoded entriesEnd) := by
  induction number generalizing restarts with
  | zero =>
    constructor
    · intro h
      exact ⟨nofun, (Except.ok.inj h).symm⟩
    · rintro ⟨-, rfl⟩
      rfl
  | succ number ih =>
    rw [List.range_succ, List.foldlM_append, Decoder.bind_eq_ok]
    constructor
    · rintro ⟨front, hfront, hlast⟩
      obtain ⟨hok, hfront⟩ := ih.mp hfront
      rw [List.foldlM_cons] at hlast
      obtain ⟨all, hread, hall⟩ := Decoder.bind_eq_ok.mp hlast
      obtain rfl := Except.ok.inj hall
      obtain ⟨hnumber, hall⟩ := (readRestart_eq_ok hfront).mp hread
      refine ⟨fun index hindex ↦ ?_, by rw [hall, List.range_succ]⟩
      rcases Nat.lt_succ_iff_lt_or_eq.mp hindex with hindex | rfl
      · exact hok index hindex
      · exact hnumber
    · rintro ⟨hok, rfl⟩
      refine ⟨_, ih.mpr ⟨fun index hindex ↦ hok index (hindex.trans (Nat.lt_succ_self _)), rfl⟩, ?_⟩
      rw [List.foldlM_cons]
      refine Decoder.bind_eq_ok.mpr ⟨_, (readRestart_eq_ok rfl).mpr
        ⟨hok number (Nat.lt_succ_self _), rfl⟩, ?_⟩
      rw [List.range_succ]
      rfl

/-! ### Accepted blocks -/

/-- The number of restart points that the end of a block gives. -/
def restartCountOf (encoded : Bytes) : ℕ :=
  leNat (encoded.drop (encoded.length - fixedRestartBytes))

/-- Where the entries of a block end. -/
def entriesEndOf (encoded : Bytes) : ℕ :=
  encoded.length - fixedRestartBytes - restartCountOf encoded * fixedRestartBytes

/-- The checks of a block, and what they find. -/
structure Accepted (encoded : Bytes) (block : Block) (found : List DecodedEntry) : Prop where
  length_ge : fixedRestartBytes * 2 ≤ encoded.length
  count_ne : restartCountOf encoded ≠ 0
  count_lt : restartCountOf encoded * fixedRestartBytes < usizeRange
  count_le : restartCountOf encoded * fixedRestartBytes ≤ encoded.length - fixedRestartBytes
  restarts_ok : ∀ index < restartCountOf encoded,
    RestartOk encoded (entriesEndOf encoded) (restartCountOf encoded) index
  restarts : block.restarts
    = (List.range (restartCountOf encoded)).map (restartAt encoded (entriesEndOf encoded))
  entries : block.entries = encoded.take (entriesEndOf encoded)
  scanned : Scanned block.entries block.restarts 0 [] 0 found
  entryCount : block.entryCount = found.length
  observed : (if block.entries.isEmpty then 1
    else (startsFrom 0 found).countP (· ∈ block.restarts)) = block.restarts.length

private theorem guard_eq_ok {α : Type} {c : Prop} [Decidable c] {error : Error} {a b : α} :
    (if c then throw error else pure a : Result α) = .ok b ↔ ¬ c ∧ a = b := by
  split_ifs with h
  · exact iff_of_false nofun fun hnot ↦ hnot.1 h
  · exact ⟨fun heq ↦ ⟨h, Except.ok.inj heq⟩, fun heq ↦ congrArg Except.ok heq.2⟩

/-- **What the decoder accepts.** -/
theorem decode_eq_ok {encoded : Bytes} {block : Block} :
    decode encoded = .ok block ↔ ∃ found, Accepted encoded block found := by
  have hcount : leNat (encoded.drop (encoded.length - fixedRestartBytes))
      = restartCountOf encoded := rfl
  unfold decode checkedMul
  by_cases hshort : encoded.length < fixedRestartBytes * 2
  · rw [if_pos hshort]
    exact iff_of_false nofun fun ⟨_, h⟩ ↦ absurd h.length_ge (not_le.mpr hshort)
  simp only [if_neg hshort, hcount]
  by_cases hzero : restartCountOf encoded = 0
  · rw [if_pos hzero]
    exact iff_of_false nofun fun ⟨_, h⟩ ↦ h.count_ne hzero
  by_cases hfits : restartCountOf encoded * fixedRestartBytes < usizeRange
  swap
  · rw [if_neg hzero, if_neg hfits]
    exact iff_of_false nofun fun ⟨_, h⟩ ↦ hfits h.count_lt
  rw [if_neg hzero, if_pos hfits]
  dsimp only
  by_cases hinside : encoded.length - fixedRestartBytes
      < restartCountOf encoded * fixedRestartBytes
  · rw [if_pos hinside]
    exact iff_of_false nofun fun ⟨_, h⟩ ↦ absurd h.count_le (not_le.mpr hinside)
  have hend : encoded.length - fixedRestartBytes - restartCountOf encoded * fixedRestartBytes
      = entriesEndOf encoded := rfl
  rw [if_neg hinside, hend, Decoder.bind_eq_ok]
  constructor
  · rintro ⟨restarts, hrestarts, h⟩
    obtain ⟨scan, hscan, h⟩ := Decoder.bind_eq_ok.mp h
    obtain ⟨hok, rfl⟩ := (readRestarts_eq_ok _).mp hrestarts
    obtain ⟨found, hscanned, rfl⟩ := (scanEntries_eq_ok_iff (Nat.zero_le _)).mp hscan
    dsimp only at h
    rw [if_neg (not_not.mpr rfl), Nat.zero_add, Nat.zero_add] at h
    obtain ⟨hobserved, rfl⟩ := guard_eq_ok.mp h
    exact ⟨found, not_lt.mp hshort, hzero, hfits, not_lt.mp hinside, hok, rfl, rfl, hscanned, rfl,
      not_not.mp hobserved⟩
  · rintro ⟨found, h⟩
    refine ⟨_, (readRestarts_eq_ok _).mpr ⟨h.restarts_ok, h.restarts⟩, ?_⟩
    refine Decoder.bind_eq_ok.mpr ⟨_, (scanEntries_eq_ok_iff (Nat.zero_le _)).mpr
      ⟨found, h.entries ▸ h.scanned, rfl⟩, ?_⟩
    dsimp only
    have hobserved := h.observed
    rw [h.entries] at hobserved
    rw [if_neg (not_not.mpr rfl), Nat.zero_add, Nat.zero_add, if_neg (not_not.mpr hobserved),
      ← h.entries, ← h.entryCount]
    rfl

theorem RestartOk.lt {encoded : Bytes} {entriesEnd restartCount number : ℕ}
    (h : ∀ index < number, RestartOk encoded entriesEnd restartCount index) {i j : ℕ} (hij : i < j)
    (hj : j < number) : restartAt encoded entriesEnd i < restartAt encoded entriesEnd j := by
  induction j with
  | zero => exact absurd hij (Nat.not_lt_zero _)
  | succ j ih =>
    have hstep := (h (j + 1) hj).increasing (Nat.succ_pos j)
    rcases Nat.lt_succ_iff_lt_or_eq.mp hij with hlt | rfl
    · exact (ih hlt (by omega)).trans hstep
    · exact hstep

/-- Restart points are as many as the entries that begin at one, so all are starts of entries. -/
theorem mem_starts_of_countP {starts : List ℕ} (hstarts : starts.Pairwise (· < ·))
    (hcount : starts.countP (· ∈ restarts) = restarts.length) :
    ∀ start ∈ restarts, start ∈ starts := by
  have hnodup : (starts.filter (· ∈ restarts)).Nodup := (hstarts.imp fun h ↦ h.ne).filter _
  have hsub : starts.filter (· ∈ restarts) ⊆ restarts :=
    fun start hstart ↦ by simpa using (List.mem_filter.mp hstart).2
  have hlength : restarts.length ≤ (starts.filter (· ∈ restarts)).length := by
    rw [← List.countP_eq_length_filter, hcount]
  have hperm := (hnodup.subperm hsub).perm_of_length_le hlength
  exact fun start hstart ↦ (List.mem_filter.mp (hperm.mem_iff.mpr hstart)).1

namespace Accepted

variable {encoded : Bytes} {block : Block}

theorem increasing (h : Accepted encoded block found) : block.restarts.Pairwise (· < ·) := by
  rw [h.restarts, List.pairwise_map]
  refine List.pairwise_lt_range.imp_of_mem fun _ hj hij ↦ ?_
  exact RestartOk.lt h.restarts_ok hij (List.mem_range.mp hj)

theorem first (h : Accepted encoded block found) : ∃ rest, block.restarts = 0 :: rest := by
  obtain ⟨count, hcount⟩ := Nat.exists_eq_succ_of_ne_zero h.count_ne
  have hfirst := (h.restarts_ok 0 (Nat.pos_of_ne_zero h.count_ne)).first rfl
  rw [h.restarts, hcount, List.range_succ_eq_map, List.map_cons, hfirst]
  exact ⟨_, rfl⟩

private theorem mem_starts (h : Accepted encoded block found) (hne : block.entries ≠ []) :
    ∀ start ∈ block.restarts, start ∈ startsFrom 0 found := by
  have hobserved := h.observed
  rw [if_neg (mt List.isEmpty_iff.mp hne)] at hobserved
  exact mem_starts_of_countP h.scanned.lt_starts.1 hobserved

/-- The entries from a restart point on, and those before it. -/
theorem restart (h : Accepted encoded block found) (hne : block.entries ≠ []) {start : ℕ}
    (hstart : start ∈ block.restarts) :
    ∃ before decoded after number, found = before ++ decoded :: after ∧
      block.keyAtRestart start = .ok decoded.key ∧
      Scanned block.entries block.restarts start [] number (decoded :: after) ∧
      ∀ later ∈ block.restarts, start < later → later ∈ startsFrom decoded.next after := by
  obtain ⟨before, decoded, after, key, number, hfound, hscanned, hlater⟩ :=
    h.scanned.from (h.mem_starts hne start hstart)
  obtain ⟨hdecode, number', hscanned'⟩ := hscanned.restart hstart
  refine ⟨before, decoded, after, number', hfound, ?_, hscanned', fun later hmem hlt ↦ ?_⟩
  · rw [keyAtRestart, hdecode]
    rfl
  · exact hlater later (h.mem_starts hne later hmem) hlt

/-- Keys at restart points increase with their offsets. -/
theorem keyAtRestart_lt (h : Accepted encoded block found) (hne : block.entries ≠ [])
    {start later : ℕ} (hstart : start ∈ block.restarts) (hlater : later ∈ block.restarts)
    (hlt : start < later) : ∃ key key', block.keyAtRestart start = .ok key ∧
      block.keyAtRestart later = .ok key' ∧ key < key' := by
  obtain ⟨-, decoded, after, number, -, hkey, hscanned, hmem⟩ := h.restart hne hstart
  have hafter := hmem later hlater hlt
  have hkeys := hscanned.lt_keys.1
  cases hscanned with
  | cons _ _ _ _ hrest =>
    obtain ⟨before, other, rest, key, number, rfl, hother, -⟩ := hrest.from hafter
    obtain ⟨hdecode, -⟩ := hother.restart hlater
    refine ⟨decoded.key, other.key, hkey, by rw [keyAtRestart, hdecode]; rfl, ?_⟩
    refine (List.pairwise_cons.mp hkeys).1 other.key (List.mem_map.mpr ⟨other, ?_, rfl⟩)
    exact List.mem_append_right _ (List.mem_cons_self ..)

private theorem isBelow_mono (h : Accepted encoded block found) (hne : block.entries ≠ [])
    {start later : ℕ} (hstart : start ∈ block.restarts) (hlater : later ∈ block.restarts)
    (hlt : start < later) {target : Bytes} (hbelow : block.isBelow target later = true) :
    block.isBelow target start = true := by
  obtain ⟨key, key', hkey, hkey', hkeys⟩ := h.keyAtRestart_lt hne hstart hlater hlt
  unfold isBelow at hbelow ⊢
  rw [hkey'] at hbelow
  rw [hkey]
  exact decide_eq_true (hkeys.le.trans (of_decide_eq_true hbelow))

/-- The restart points below a target come first. -/
theorem not_isBelow (h : Accepted encoded block found) (hne : block.entries ≠ []) (target : Bytes) :
    ∀ start ∈ block.restarts.dropWhile (block.isBelow target),
      block.isBelow target start = false := by
  have hsuffix := List.dropWhile_suffix (l := block.restarts) (block.isBelow target)
  have hincreasing := h.increasing.sublist hsuffix.sublist
  intro start hstart
  have hfirst := List.head_dropWhile_not (block.isBelow target) (List.ne_nil_of_mem hstart)
  cases hdrop : block.restarts.dropWhile (block.isBelow target) with
  | nil =>
    rw [hdrop] at hstart
    exact absurd hstart List.not_mem_nil
  | cons first rest =>
    have hsub := hsuffix.subset
    simp only [hdrop, List.head_cons] at hfirst
    rw [hdrop] at hstart hincreasing hsub
    rcases List.mem_cons.mp hstart with rfl | hrest
    · exact hfirst
    · refine Bool.eq_false_iff.mpr fun hbelow ↦ ?_
      have hlt := (List.pairwise_cons.mp hincreasing).1 start hrest
      rw [h.isBelow_mono hne (hsub (List.mem_cons_self ..)) (hsub hstart) hlt hbelow] at hfirst
      cases hfirst

/-- **Seeking.** -/
theorem seek (h : Accepted encoded block found) (target : Bytes) :
    block.seek target
      = .ok ((found.map DecodedEntry.item).find? fun item ↦ target ≤ item.1) := by
  unfold Block.seek isEmpty
  by_cases hempty : block.entryCount = 0
  · have hfound : found = [] := List.length_eq_zero_iff.mp (h.entryCount.symm.trans hempty)
    rw [if_pos (decide_eq_true hempty), hfound]
    rfl
  rw [if_neg (by rwa [decide_eq_true_iff])]
  have hne : block.entries ≠ [] := by
    intro hnil
    have hscanned := h.scanned
    cases hscanned with
    | nil => exact hempty h.entryCount
    | cons hcursor =>
      rw [hnil] at hcursor
      exact absurd hcursor (Nat.not_lt_zero _)
  have hsplit : block.restarts = block.restarts.takeWhile (block.isBelow target)
      ++ block.restarts.dropWhile (block.isBelow target) := List.takeWhile_append_dropWhile.symm
  have hpoint : partitionPoint (block.isBelow target) block.restarts
      = (block.restarts.takeWhile (block.isBelow target)).length := by
    conv_lhs => rw [hsplit]
    exact partitionPoint_append (fun start hstart ↦ List.mem_takeWhile_imp hstart)
      (h.not_isBelow hne target)
  dsimp only
  rw [hpoint]
  rcases List.eq_nil_or_concat' (block.restarts.takeWhile (block.isBelow target)) with
    hnone | ⟨front, last, hlast⟩
  · -- All restart points are above the target; the search begins at the first entry.
    obtain ⟨rest, hrest⟩ := h.first
    rw [hnone, hrest]
    exact h.scanned.seekFrom target
  · have hmem : last ∈ block.restarts.takeWhile (block.isBelow target) := by
      rw [hlast]
      exact List.mem_append_right _ (List.mem_singleton.mpr rfl)
    have hbelow := List.mem_takeWhile_imp hmem
    obtain ⟨before, decoded, after, number, rfl, hkey, hscanned, -⟩ :=
      h.restart hne ((List.takeWhile_prefix _).subset hmem)
    have hget : block.restarts.getD
        ((block.restarts.takeWhile (block.isBelow target)).length - 1) 0 = last := by
      rw [hlast] at hsplit ⊢
      rw [hsplit]
      simp
    rw [hget, hscanned.seekFrom target, List.map_append, List.find?_append]
    have hkeys := h.scanned.lt_keys.1
    rw [List.map_append, List.pairwise_append] at hkeys
    have hbefore : (before.map DecodedEntry.item).find? (fun item ↦ target ≤ item.1) = none := by
      refine List.find?_eq_none.mpr fun item hitem ↦ ?_
      obtain ⟨other, hother, rfl⟩ := List.mem_map.mp hitem
      rw [isBelow, hkey] at hbelow
      have hlt := hkeys.2.2 other.key (List.mem_map.mpr ⟨other, hother, rfl⟩) decoded.key
        (List.mem_map.mpr ⟨decoded, List.mem_cons_self .., rfl⟩)
      rw [decide_eq_true_iff]
      exact not_le.mpr (hlt.trans_le (of_decide_eq_true hbelow))
    rw [hbefore]
    rfl

end Accepted

/-- **Accepted blocks are safe to search.** Whatever bytes the decoder accepts, iterating gives as
many entries as it has counted, with increasing keys, and seeking finds the first of them that is at
least the target. -/
theorem decode_search {encoded : Bytes} {block : Block} (h : decode encoded = .ok block) :
    ∃ items : List (Bytes × Bytes), block.iter.drain = items.map .ok ∧
      items.length = block.len ∧ items.Pairwise (fun a b ↦ a.1 < b.1) ∧
      ∀ target, block.seek target = .ok (items.find? fun item ↦ target ≤ item.1) := by
  obtain ⟨found, haccepted⟩ := decode_eq_ok.mp h
  refine ⟨found.map DecodedEntry.item, ?_, ?_, ?_, haccepted.seek⟩
  · rw [List.map_map]
    exact haccepted.scanned.drain
  · rw [List.length_map, len, haccepted.entryCount]
  · have hkeys := haccepted.scanned.lt_keys.1
    rw [List.pairwise_map] at hkeys ⊢
    exact hkeys

/-- Two entries whose keys share their first byte, and a restart point at each of them. -/
private def twoRestarts : Bytes :=
  [0, 2, 1, 7, 1, 9] ++ [0, 2, 0, 7, 5] ++ ([0, 0, 0, 0] ++ [6, 0, 0, 0] ++ [2, 0, 0, 0])

theorem decode_search_twoRestarts : ∃ items : List (Bytes × Bytes),
    (⟨[0, 2, 1, 7, 1, 9, 0, 2, 0, 7, 5], [0, 6], 2⟩ : Block).iter.drain = items.map .ok ∧
      items.length = 2 ∧ items.Pairwise (fun a b ↦ a.1 < b.1) ∧
      ∀ target, (⟨[0, 2, 1, 7, 1, 9, 0, 2, 0, 7, 5], [0, 6], 2⟩ : Block).seek target
        = .ok (items.find? fun item ↦ target ≤ item.1) := by
  have hdecode : decode twoRestarts = .ok ⟨[0, 2, 1, 7, 1, 9, 0, 2, 0, 7, 5], [0, 6], 2⟩ := by
    decide +kernel
  exact decode_search hdecode

end Block

end MeteorDB
