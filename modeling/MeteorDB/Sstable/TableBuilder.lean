import MeteorDB.Bloom
import MeteorDB.Entry
import MeteorDB.Sstable.BlockBuilder
import MeteorDB.Sstable.Stored

/-!
# Building tables

A table is a sequence of stored data blocks, followed by a Bloom filter over the user keys, an index
with one separator per data block, the properties, and a footer of fixed size. The builder appends
entries to the block it holds and writes that block out before an entry that would take it above the
target size.

`Cut` says where the blocks end, as a function of the entries alone, and `TableBuilder.holding` is
a builder to the entries it was given: the blocks it has written are those of the cut, one after the
other, and its other fields are functions of the entries.
-/

namespace MeteorDB

open ByteString Decoder

/-! ## The builder -/

/-- The Snappy library. -/
class Snappy where
  compress : Bytes → Except String Bytes
  decompressLen : Bytes → Except String ℕ
  decompress : Bytes → Except String Bytes

/-- What is stored in every table about itself. -/
structure TableProperties where
  fileNumber : U64
  entries : ℕ
  dataBlocks : ℕ
  compression : Compression
  smallest : InternalKey
  largest : InternalKey
  maxDataBlockBytes : ℕ
  engineValueEncoding : Bool
  deriving DecidableEq

structure TableBuildResult where
  fileNumber : U64
  fileSize : ℕ
  smallest : InternalKey
  largest : InternalKey
  entries : ℕ
  deriving DecidableEq

/-- The boundaries of a written block. -/
structure DataBlockMeta where
  first : Bytes
  last : Bytes
  handle : BlockHandle
  deriving DecidableEq

/-- A table under construction, with the bytes that are in its file. -/
structure TableBuilder where
  file : Bytes
  fileNumber : U64
  offset : ℕ
  blockBytes : ℕ
  restartInterval : ℕ
  bloomBitsPerKey : Byte
  compression : Compression
  block : BlockBuilder
  pendingBytes : ℕ
  pendingFirst : Option Bytes
  pendingLast : Option Bytes
  previousKey : Option Bytes
  filterKeys : List Bytes
  dataBlocks : List DataBlockMeta
  entries : ℕ
  smallest : Option InternalKey
  largest : Option InternalKey
  maxDataBlockBytes : ℕ
  engineValueEncoding : Bool

def tableCorruption (detail : String) : Error := .corruption "SSTable" detail

def Compression.marker : Compression → Byte
  | .none => noCompression
  | .snappy => snappyCompression

def footerHandleBytes : ℕ := 20
def sstableFooterBytes : ℕ := 72
def sstableFormatVersion : ℕ := 2
def sstableMagic : Bytes := [77, 69, 84, 69, 79, 82, 48, 49]

/-- A handle in its slot of the footer. -/
def handleSlot (handle : BlockHandle) : Bytes :=
  handle.encode ++ List.replicate (footerHandleBytes - handle.encode.length) 0

def encodeFooter (index filter properties : BlockHandle) : Bytes :=
  handleSlot index ++ (handleSlot filter ++ (handleSlot properties
    ++ (leBytes 4 sstableFormatVersion ++ sstableMagic)))

def encodeProperties (properties : TableProperties) : Bytes :=
  putVarint properties.fileNumber.val ++ (putVarint properties.entries
    ++ (putVarint properties.dataBlocks ++ (properties.compression.marker
      :: (putVarint properties.maxDataBlockBytes
        ++ ((putVarint properties.smallest.asBytes.length ++ properties.smallest.asBytes)
          ++ ((putVarint properties.largest.asBytes.length ++ properties.largest.asBytes)
            ++ if properties.engineValueEncoding then [0xe1, 1] else []))))))

/-- A short key that is at least `start` and, where a byte leaves room, below `limit`. -/
def shortestSeparator (start limit : Bytes) : Bytes :=
  let shared := sharedPrefix start limit
  match start[shared]?, limit[shared]? with
  | some startByte, some limitByte =>
    if startByte.val < 0xff ∧ startByte.val + 1 < limitByte.val then
      start.take shared ++ [Fin.ofNat 256 (startByte.val + 1)]
    else start
  | _, _ => start

/-- The entries of the index: a separator and a handle for every block. -/
def indexEntries : List DataBlockMeta → List (Bytes × Bytes)
  | [] => []
  | [block] => [(block.last, block.handle.encode)]
  | block :: next :: rest =>
    (shortestSeparator block.last next.first, block.handle.encode) :: indexEntries (next :: rest)

namespace TableBuilder

/-- A builder over a fresh file. -/
def create (fileNumber : U64) (blockBytes restartInterval : ℕ) (bloomBitsPerKey : Byte)
    (compression : Compression) : Result TableBuilder :=
  if blockBytes = 0 then .error (.invalidArgument "block_bytes must be greater than zero")
  else if bloomBitsPerKey = 0 then
    .error (.invalidArgument "bloom_bits_per_key must be greater than zero")
  else do
    let block ← BlockBuilder.tryNew restartInterval
    return {
      file := []
      fileNumber, blockBytes, restartInterval, bloomBitsPerKey, compression, block
      offset := 0
      pendingBytes := 0
      pendingFirst := none
      pendingLast := none
      previousKey := none
      filterKeys := []
      dataBlocks := []
      entries := 0
      smallest := none
      largest := none
      maxDataBlockBytes := 0
      engineValueEncoding := false }

def useEngineValueEncoding (builder : TableBuilder) : TableBuilder :=
  { builder with engineValueEncoding := true }

def writeRaw (builder : TableBuilder) (bytes : Bytes) : Result TableBuilder :=
  match checkedAdd builder.offset bytes.length with
  | none => .error (.invalidArgument "SSTable file offset overflows u64")
  | some next => .ok { builder with file := builder.file ++ bytes, offset := next }

variable [Crc32c] [Snappy]

/-- The stored form of a payload. -/
def storePayload (payload : Bytes) : Compression → Result Bytes
  | .none => encodeStoredBlock payload noCompression
  | .snappy => do
    let stored ← (Snappy.compress payload).mapError fun error ↦
      tableCorruption ("Snappy compression failed: " ++ error)
    encodeStoredBlock stored snappyCompression

def writePayload (builder : TableBuilder) (payload : Bytes) (compression : Compression) :
    Result (TableBuilder × BlockHandle) := do
  let encoded ← storePayload payload compression
  let written ← builder.writeRaw encoded
  return (written, ⟨builder.offset, encoded.length⟩)

/-- Writes the block out, if it has entries. -/
def flushDataBlock (builder : TableBuilder) : Result TableBuilder :=
  if builder.pendingBytes = 0 then .ok builder
  else do
    let block := builder.block.finish
    let (written, handle) ← builder.writePayload block builder.compression
    match builder.pendingFirst, builder.pendingLast with
    | some first, some last => do
      let fresh ← BlockBuilder.tryNew builder.restartInterval
      return { written with
        maxDataBlockBytes := max builder.maxDataBlockBytes block.length
        dataBlocks := builder.dataBlocks ++ [⟨first, last, handle⟩]
        pendingFirst := none
        pendingLast := none
        block := fresh
        pendingBytes := 0 }
    -- The source panics here: a block with entries has a first and a last key.
    | _, _ => throw (.background "nonempty block has first key")

/-- Puts an entry into the block the builder holds. -/
def append (builder : TableBuilder) (key : InternalKey) (value : Bytes) (entryBytes nextBytes : ℕ) :
    Result TableBuilder := do
  let block ← builder.block.add key.asBytes value
  match checkedAdd builder.entries 1 with
  | none => throw (.invalidArgument "SSTable entry count overflows u64")
  | some entries =>
    return { builder with
      block, entries
      pendingBytes := if builder.pendingBytes = 0 then entryBytes else nextBytes
      pendingFirst := some (builder.pendingFirst.getD key.asBytes)
      pendingLast := some key.asBytes
      previousKey := some key.asBytes
      filterKeys := builder.filterKeys ++ [key.userKey]
      smallest := some (builder.smallest.getD key)
      largest := some key }

/-- Adds one entry, and writes the block out before it if the block would grow too large. -/
def add (builder : TableBuilder) (key : InternalKey) (value : Bytes) : Result TableBuilder :=
  if builder.previousKey.any (key.asBytes ≤ ·) then
    .error (.invalidArgument "SSTable keys must be strictly increasing")
  else
    match checkedAdd key.asBytes.length value.length with
    | none => .error (.invalidArgument "SSTable entry length overflows usize")
    | some entryBytes =>
      match checkedAdd builder.pendingBytes entryBytes with
      | none => .error (.invalidArgument "SSTable block size overflows usize")
      | some nextBytes =>
        if builder.pendingBytes ≠ 0 ∧ builder.blockBytes < nextBytes then do
          let flushed ← builder.flushDataBlock
          flushed.append key value entryBytes nextBytes
        else builder.append key value entryBytes nextBytes

/-- Adds entries one after the other. -/
def addAll (builder : TableBuilder) (items : List (InternalKey × Bytes)) : Result TableBuilder :=
  items.foldlM (fun builder item ↦ builder.add item.1 item.2) builder

/-- Writes what is left and the metadata. Returns the file with the summary of the table. -/
def finish (builder : TableBuilder) : Result (TableBuildResult × Bytes) :=
  if builder.entries = 0 then .error (.invalidArgument "cannot finish an empty SSTable")
  else do
    let builder ← builder.flushDataBlock
    let filter ← BloomFilter.fromKeys builder.filterKeys builder.bloomBitsPerKey
    let (builder, filterHandle) ← builder.writePayload filter.encoded .none
    let index ← BlockBuilder.tryNew builder.restartInterval
    let index ← index.addAll (indexEntries builder.dataBlocks)
    let (builder, indexHandle) ← builder.writePayload index.finish .none
    match builder.smallest, builder.largest with
    | some smallest, some largest => do
      let properties : TableProperties := {
        smallest, largest
        fileNumber := builder.fileNumber
        entries := builder.entries
        dataBlocks := builder.dataBlocks.length
        compression := builder.compression
        maxDataBlockBytes := builder.maxDataBlockBytes
        engineValueEncoding := builder.engineValueEncoding }
      let (builder, propertiesHandle) ← builder.writePayload (encodeProperties properties) .none
      let builder ← builder.writeRaw (encodeFooter indexHandle filterHandle propertiesHandle)
      return (⟨builder.fileNumber, builder.offset, smallest, largest, builder.entries⟩,
        builder.file)
    -- The source panics here: a table with entries has a first and a last key.
    | _, _ => throw (.background "nonempty table has a first key")

end TableBuilder

/-! ## Where blocks end -/

/-- The bytes that entries count for. -/
def rawBytes (items : List (InternalKey × Bytes)) : ℕ :=
  (items.map fun item ↦ item.1.asBytes.length + item.2.length).sum

private theorem rawBytes_append_singleton (items : List (InternalKey × Bytes)) (key : InternalKey)
    (value : Bytes) : rawBytes (items ++ [(key, value)])
      = rawBytes items + (key.asBytes.length + value.length) := by
  rw [rawBytes, List.map_append, List.sum_append]
  rfl

private theorem InternalKey.length_asBytes_pos (key : InternalKey) : 0 < key.asBytes.length := by
  rw [asBytes, List.length_append, length_trailer]
  omega

private theorem rawBytes_eq_zero {items : List (InternalKey × Bytes)} :
    rawBytes items = 0 ↔ items = [] := by
  cases items with
  | nil => exact iff_of_true rfl rfl
  | cons item rest =>
    refine iff_of_false ?_ (List.cons_ne_nil _ _)
    have := item.1.length_asBytes_pos
    rw [rawBytes, List.map_cons, List.sum_cons]
    omega

/-- Entries divided into blocks: those that are written, and the one being filled. -/
structure Cut where
  done : List (List (InternalKey × Bytes))
  pending : List (InternalKey × Bytes)

namespace Cut

/-- All entries. -/
def items (cut : Cut) : List (InternalKey × Bytes) := cut.done.flatten ++ cut.pending

/-- The block being filled is written. -/
def close (cut : Cut) : Cut := ⟨cut.done ++ [cut.pending], []⟩

/-- An entry is put into the block being filled. -/
def push (cut : Cut) (item : InternalKey × Bytes) : Cut := ⟨cut.done, cut.pending ++ [item]⟩

/-- An entry is added, in a new block if the target size would be exceeded. -/
def add (blockBytes : ℕ) (cut : Cut) (item : InternalKey × Bytes) : Cut :=
  if cut.pending ≠ [] ∧ blockBytes < rawBytes (cut.pending ++ [item]) then cut.close.push item
  else cut.push item

/-- The division of entries that are added one after the other. -/
def ofItems (blockBytes : ℕ) (items : List (InternalKey × Bytes)) : Cut :=
  items.foldl (add blockBytes) ⟨[], []⟩

/-- The blocks after the last one is written. -/
def blocks (cut : Cut) : List (List (InternalKey × Bytes)) :=
  if cut.pending = [] then cut.done else cut.done ++ [cut.pending]

@[simp] theorem items_close (cut : Cut) : cut.close.items = cut.items := by
  simp [items, close]

@[simp] theorem items_push (cut : Cut) (item : InternalKey × Bytes) :
    (cut.push item).items = cut.items ++ [item] := by
  simp [items, push]

private theorem items_add (blockBytes : ℕ) (cut : Cut) (item : InternalKey × Bytes) :
    (add blockBytes cut item).items = cut.items ++ [item] := by
  unfold add
  split_ifs <;> simp

/-- Blocks are not empty, and only a block of a single entry exceeds the target size. -/
structure Fits (blockBytes : ℕ) (cut : Cut) : Prop where
  done_ne : ∀ block ∈ cut.done, block ≠ []
  done_le : ∀ block ∈ cut.done, 2 ≤ block.length → rawBytes block ≤ blockBytes
  pending_le : 2 ≤ cut.pending.length → rawBytes cut.pending ≤ blockBytes

theorem Fits.close {blockBytes : ℕ} {cut : Cut} (h : Fits blockBytes cut)
    (hpending : cut.pending ≠ []) : Fits blockBytes cut.close where
  done_ne := List.forall_mem_append.mpr ⟨h.done_ne, List.forall_mem_singleton.mpr hpending⟩
  done_le := List.forall_mem_append.mpr ⟨h.done_le, List.forall_mem_singleton.mpr h.pending_le⟩
  pending_le hlength := absurd hlength (Nat.not_succ_le_zero _)

theorem Fits.add {blockBytes : ℕ} {cut : Cut} (h : Fits blockBytes cut)
    (item : InternalKey × Bytes) : Fits blockBytes (Cut.add blockBytes cut item) := by
  unfold Cut.add
  split_ifs with hcut
  · have hclose := h.close hcut.1
    exact ⟨hclose.done_ne, hclose.done_le, fun hlength ↦ absurd hlength (Nat.lt_irrefl 1)⟩
  · refine ⟨h.done_ne, h.done_le, fun hlength ↦ ?_⟩
    refine le_of_not_gt fun hlarge ↦ hcut ⟨fun hnil ↦ ?_, hlarge⟩
    rw [push, hnil] at hlength
    exact absurd hlength (Nat.lt_irrefl 1)

private theorem ofItems_append_singleton (blockBytes : ℕ) (items : List (InternalKey × Bytes))
    (item : InternalKey × Bytes) :
    ofItems blockBytes (items ++ [item]) = add blockBytes (ofItems blockBytes items) item := by
  rw [ofItems, List.foldl_append]
  rfl

theorem fits_ofItems (blockBytes : ℕ) (items : List (InternalKey × Bytes)) :
    Fits blockBytes (ofItems blockBytes items) := by
  induction items using List.reverseRecOn with
  | nil => exact ⟨nofun, nofun, fun hlength ↦ absurd hlength (Nat.not_succ_le_zero _)⟩
  | append_singleton items item ih =>
    rw [ofItems_append_singleton]
    exact ih.add item

@[simp] theorem items_ofItems (blockBytes : ℕ) (items : List (InternalKey × Bytes)) :
    (ofItems blockBytes items).items = items := by
  induction items using List.reverseRecOn with
  | nil => rfl
  | append_singleton items item ih => rw [ofItems_append_singleton, items_add, ih]

theorem Fits.blocks {blockBytes : ℕ} {cut : Cut} (h : Fits blockBytes cut) :
    ∀ block ∈ cut.blocks, block ≠ [] ∧ (2 ≤ block.length → rawBytes block ≤ blockBytes) := by
  intro block hblock
  unfold Cut.blocks at hblock
  split_ifs at hblock with hpending
  · exact ⟨h.done_ne block hblock, h.done_le block hblock⟩
  · exact ⟨(h.close hpending).done_ne block hblock, (h.close hpending).done_le block hblock⟩

theorem flatten_blocks (cut : Cut) : cut.blocks.flatten = cut.items := by
  unfold blocks items
  split_ifs with hpending
  · rw [hpending, List.append_nil]
  · simp

end Cut

/-! ## What a builder holds -/

/-- The entries of a block as the block builder gets them. -/
def blockItems (block : List (InternalKey × Bytes)) : List (Bytes × Bytes) :=
  block.map fun item ↦ (item.1.asBytes, item.2)

/-- The bytes of a data block. -/
def blockPayload (restartInterval : ℕ) (block : List (InternalKey × Bytes)) : Bytes :=
  sealBlock (layout restartInterval 0 [] (blockItems block))
    (0 :: layoutRestarts restartInterval 0 [] 0 (blockItems block))

def firstKey (block : List (InternalKey × Bytes)) : Option Bytes :=
  block.head?.map fun item ↦ item.1.asBytes

def lastKey (block : List (InternalKey × Bytes)) : Option Bytes :=
  block.getLast?.map fun item ↦ item.1.asBytes

/-- The boundaries of blocks that are stored one after the other. -/
def blockMetas : ℕ → List (List (InternalKey × Bytes)) → List Bytes → List DataBlockMeta
  | offset, block :: blocks, bytes :: stored =>
    ⟨(firstKey block).getD [], (lastKey block).getD [], ⟨offset, bytes.length⟩⟩
      :: blockMetas (offset + bytes.length) blocks stored
  | _, _, _ => []

private theorem blockMetas_append_singleton {offset : ℕ}
    {blocks : List (List (InternalKey × Bytes))}
    {stored : List Bytes} (hlength : blocks.length = stored.length)
    (block : List (InternalKey × Bytes)) (bytes : Bytes) :
    blockMetas offset (blocks ++ [block]) (stored ++ [bytes]) = blockMetas offset blocks stored
      ++ [⟨(firstKey block).getD [], (lastKey block).getD [],
        ⟨offset + stored.flatten.length, bytes.length⟩⟩] := by
  induction blocks generalizing offset stored with
  | nil =>
    rw [List.length_eq_zero_iff.mp hlength.symm]
    rfl
  | cons first blocks ih =>
    cases stored with
    | nil => exact absurd hlength (Nat.succ_ne_zero _)
    | cons front stored =>
      rw [List.cons_append, List.cons_append, blockMetas, ih (Nat.succ.inj hlength), blockMetas,
        List.flatten_cons, List.length_append, Nat.add_assoc]
      rfl

namespace TableBuilder

/-- The largest payload among blocks. -/
def largestPayload (restartInterval : ℕ) (blocks : List (List (InternalKey × Bytes))) : ℕ :=
  (blocks.map fun block ↦ (blockPayload restartInterval block).length).foldl max 0

theorem largestPayload_le {restartInterval limit : ℕ} {blocks : List (List (InternalKey × Bytes))} :
    largestPayload restartInterval blocks ≤ limit ↔
      ∀ block ∈ blocks, (blockPayload restartInterval block).length ≤ limit := by
  induction blocks using List.reverseRecOn with
  | nil => exact iff_of_true (Nat.zero_le _) nofun
  | append_singleton blocks block ih =>
    rw [largestPayload, List.map_append, List.foldl_append]
    show max (largestPayload restartInterval blocks) _ ≤ limit ↔ _
    rw [max_le_iff, ih, List.forall_mem_append, List.forall_mem_singleton]

/-- A builder that was begun as `start`, with its entries divided as in `cut` and the written blocks
stored as in `stored`. -/
def holding (start : TableBuilder) (cut : Cut) (stored : List Bytes) : TableBuilder :=
  { start with
    file := stored.flatten
    offset := stored.flatten.length
    block := (BlockBuilder.fresh start.restartInterval).afterAll (blockItems cut.pending)
    pendingBytes := rawBytes cut.pending
    pendingFirst := firstKey cut.pending
    pendingLast := lastKey cut.pending
    previousKey := lastKey cut.items
    filterKeys := cut.items.map fun item ↦ item.1.userKey
    dataBlocks := blockMetas 0 cut.done stored
    entries := cut.items.length
    smallest := cut.items.head?.map Prod.fst
    largest := cut.items.getLast?.map Prod.fst
    maxDataBlockBytes := largestPayload start.restartInterval cut.done }

/-- A builder as it is begun. -/
def begun (fileNumber : U64) (blockBytes restartInterval : ℕ) (bloomBitsPerKey : Byte)
    (compression : Compression) (engineValueEncoding : Bool) : TableBuilder where
  file := []
  fileNumber := fileNumber
  blockBytes := blockBytes
  restartInterval := restartInterval
  bloomBitsPerKey := bloomBitsPerKey
  compression := compression
  block := BlockBuilder.fresh restartInterval
  offset := 0
  pendingBytes := 0
  pendingFirst := none
  pendingLast := none
  previousKey := none
  filterKeys := []
  dataBlocks := []
  entries := 0
  smallest := none
  largest := none
  maxDataBlockBytes := 0
  engineValueEncoding := engineValueEncoding

theorem create_eq_ok {fileNumber : U64} {blockBytes restartInterval : ℕ} {bloomBitsPerKey : Byte}
    {compression : Compression} {builder : TableBuilder} :
    create fileNumber blockBytes restartInterval bloomBitsPerKey compression = .ok builder ↔
      0 < blockBytes ∧ bloomBitsPerKey ≠ 0 ∧ 0 < restartInterval ∧
      builder = begun fileNumber blockBytes restartInterval bloomBitsPerKey compression false := by
  unfold create
  split_ifs with hblock hbloom
  · exact iff_of_false nofun fun h ↦ absurd hblock h.1.ne'
  · exact iff_of_false nofun fun h ↦ h.2.1 hbloom
  · rw [bind_eq_ok]
    constructor
    · rintro ⟨block, hnew, hbuilder⟩
      obtain ⟨hpos, rfl⟩ := BlockBuilder.tryNew_eq_ok.mp hnew
      exact ⟨Nat.pos_of_ne_zero hblock, hbloom, hpos, (Except.ok.inj hbuilder).symm⟩
    · rintro ⟨-, -, hpos, rfl⟩
      exact ⟨_, BlockBuilder.tryNew_eq_ok.mpr ⟨hpos, rfl⟩, rfl⟩

theorem holding_begun (fileNumber : U64) (blockBytes restartInterval : ℕ) (bloomBitsPerKey : Byte)
    (compression : Compression) (engineValueEncoding : Bool) :
    holding (begun fileNumber blockBytes restartInterval bloomBitsPerKey compression
      engineValueEncoding) ⟨[], []⟩ []
      = begun fileNumber blockBytes restartInterval bloomBitsPerKey compression
        engineValueEncoding := rfl

variable [Crc32c] [Snappy] {start builder : TableBuilder} {cut : Cut} {stored : List Bytes}

omit [Crc32c] [Snappy] in
private theorem writeRaw_eq_ok {bytes : Bytes} {written : TableBuilder} :
    builder.writeRaw bytes = .ok written ↔ builder.offset + bytes.length < usizeRange ∧
      written = { builder with
        file := builder.file ++ bytes
        offset := builder.offset + bytes.length } := by
  unfold writeRaw checkedAdd
  split_ifs with hlt
  · exact ⟨fun h ↦ ⟨hlt, (Except.ok.inj h).symm⟩, fun h ↦ congrArg Except.ok h.2.symm⟩
  · exact iff_of_false nofun fun h ↦ hlt h.1

private theorem writePayload_eq_ok {payload : Bytes} {compression : Compression}
    {written : TableBuilder × BlockHandle} :
    builder.writePayload payload compression = .ok written ↔
      ∃ bytes, storePayload payload compression = .ok bytes ∧
        builder.offset + bytes.length < usizeRange ∧
        written = ({ builder with
          file := builder.file ++ bytes
          offset := builder.offset + bytes.length }, ⟨builder.offset, bytes.length⟩) := by
  unfold writePayload
  simp only [bind_eq_ok]
  constructor
  · rintro ⟨bytes, hstore, written', hwrite, hreturn⟩
    obtain ⟨hlt, rfl⟩ := writeRaw_eq_ok.mp hwrite
    exact ⟨bytes, hstore, hlt, (Except.ok.inj hreturn).symm⟩
  · rintro ⟨bytes, hstore, hlt, rfl⟩
    exact ⟨bytes, hstore, _, writeRaw_eq_ok.mpr ⟨hlt, rfl⟩, rfl⟩

omit [Crc32c] [Snappy] in
private theorem firstKey_eq_some {block : List (InternalKey × Bytes)} (h : block ≠ []) :
    firstKey block = some ((firstKey block).getD []) := by
  cases block with
  | nil => exact absurd rfl h
  | cons => rfl

omit [Crc32c] [Snappy] in
private theorem lastKey_eq_some {block : List (InternalKey × Bytes)} (h : block ≠ []) :
    lastKey block = some ((lastKey block).getD []) := by
  rw [lastKey, List.getLast?_eq_some_getLast h]
  rfl

/-- A builder after its block is written. -/
def flushed (builder : TableBuilder) (first last bytes : Bytes) : TableBuilder :=
  { builder with
    file := builder.file ++ bytes
    offset := builder.offset + bytes.length
    maxDataBlockBytes := max builder.maxDataBlockBytes builder.block.finish.length
    dataBlocks := builder.dataBlocks ++ [⟨first, last, ⟨builder.offset, bytes.length⟩⟩]
    pendingFirst := none
    pendingLast := none
    block := BlockBuilder.fresh builder.restartInterval
    pendingBytes := 0 }

private theorem flushDataBlock_eq_ok {builder' : TableBuilder} {first last : Bytes}
    (hinterval : 0 < builder.restartInterval) (hpending : builder.pendingBytes ≠ 0)
    (hfirst : builder.pendingFirst = some first) (hlast : builder.pendingLast = some last) :
    builder.flushDataBlock = .ok builder' ↔
      ∃ bytes, storePayload builder.block.finish builder.compression = .ok bytes ∧
        builder.offset + bytes.length < usizeRange ∧
        builder' = builder.flushed first last bytes := by
  have hfresh := BlockBuilder.tryNew_eq_ok.mpr
    ⟨hinterval, (rfl : BlockBuilder.fresh builder.restartInterval = _)⟩
  unfold flushDataBlock
  rw [if_neg hpending, hfirst, hlast]
  simp only [bind_eq_ok, writePayload_eq_ok]
  constructor
  · rintro ⟨written, ⟨bytes, hstore, hlt, rfl⟩, fresh, hnew, hreturn⟩
    obtain rfl := Except.ok.inj (hfresh.symm.trans hnew)
    exact ⟨bytes, hstore, hlt, (Except.ok.inj hreturn).symm⟩
  · rintro ⟨bytes, hstore, hlt, rfl⟩
    exact ⟨_, ⟨bytes, hstore, hlt, rfl⟩, _, hfresh, rfl⟩

omit [Crc32c] [Snappy] in
private theorem flushed_holding (hlength : cut.done.length = stored.length) (bytes : Bytes) :
    (holding start cut stored).flushed ((firstKey cut.pending).getD [])
      ((lastKey cut.pending).getD []) bytes = holding start cut.close (stored ++ [bytes]) := by
  have hblocks := @blockMetas_append_singleton 0 _ _ hlength cut.pending bytes
  rw [Nat.zero_add] at hblocks
  have hlargest : largestPayload start.restartInterval (cut.done ++ [cut.pending])
      = max (largestPayload start.restartInterval cut.done)
        (blockPayload start.restartInterval cut.pending).length := by
    rw [largestPayload, List.map_append, List.foldl_append]
    rfl
  have hpayload : (holding start cut stored).block.finish
      = blockPayload start.restartInterval cut.pending := BlockBuilder.finish_afterAll ..
  unfold flushed
  rw [hpayload]
  unfold holding
  simp only [Cut.items_close]
  simp only [Cut.close, hblocks, hlargest, List.flatten_append, List.flatten_singleton,
    List.length_append]
  rfl

/-- Writing the block of a builder closes the block of the cut. -/
theorem flushDataBlock_holding (hinterval : 0 < start.restartInterval)
    (hlength : cut.done.length = stored.length) (hpending : cut.pending ≠ []) :
    (holding start cut stored).flushDataBlock = .ok builder ↔
      ∃ bytes, storePayload (blockPayload start.restartInterval cut.pending) start.compression
          = .ok bytes ∧
        stored.flatten.length + bytes.length < usizeRange ∧
        builder = holding start cut.close (stored ++ [bytes]) := by
  have hpayload : (holding start cut stored).block.finish
      = blockPayload start.restartInterval cut.pending := BlockBuilder.finish_afterAll ..
  rw [@flushDataBlock_eq_ok _ _ (holding start cut stored) builder _ _ hinterval
    (mt rawBytes_eq_zero.mp hpending) (firstKey_eq_some hpending) (lastKey_eq_some hpending),
    hpayload]
  simp only [flushed_holding hlength]
  rfl

theorem flushDataBlock_of_pending_eq_nil (hpending : cut.pending = []) :
    (holding start cut stored).flushDataBlock = .ok (holding start cut stored) :=
  if_pos (rawBytes_eq_zero.mpr hpending)

/-- The block builder takes an entry after those of a block. -/
def BlockTakes (restartInterval : ℕ) (block : List (InternalKey × Bytes))
    (item : InternalKey × Bytes) : Prop :=
  let builder := (BlockBuilder.fresh restartInterval).afterAll (blockItems block)
  (builder.entryCount ≠ 0 → builder.previousKey < item.1.asBytes) ∧
    (builder.entriesSinceRestart = builder.restartInterval → builder.entries.length < 2 ^ 32)

/-- A builder after an entry is put into its block. -/
def appended (builder : TableBuilder) (key : InternalKey) (value : Bytes)
    (entryBytes nextBytes : ℕ) : TableBuilder :=
  { builder with
    block := builder.block.after (key.asBytes, value)
    entries := builder.entries + 1
    pendingBytes := if builder.pendingBytes = 0 then entryBytes else nextBytes
    pendingFirst := some (builder.pendingFirst.getD key.asBytes)
    pendingLast := some key.asBytes
    previousKey := some key.asBytes
    filterKeys := builder.filterKeys ++ [key.userKey]
    smallest := some (builder.smallest.getD key)
    largest := some key }

omit [Crc32c] [Snappy] in
theorem append_eq_ok {builder' : TableBuilder} {key : InternalKey} {value : Bytes}
    {entryBytes nextBytes : ℕ} :
    builder.append key value entryBytes nextBytes = .ok builder' ↔
      ((builder.block.entryCount ≠ 0 → builder.block.previousKey < key.asBytes) ∧
        (builder.block.entriesSinceRestart = builder.block.restartInterval →
          builder.block.entries.length < 2 ^ 32)) ∧
      builder.entries + 1 < usizeRange ∧
      builder' = builder.appended key value entryBytes nextBytes := by
  have hadd := fun block' ↦ @BlockBuilder.add_eq_ok builder.block block' (key.asBytes, value)
  unfold append checkedAdd
  rw [bind_eq_ok]
  dsimp only at hadd
  by_cases hlt : builder.entries + 1 < usizeRange
  · simp only [hadd, if_pos hlt]
    constructor
    · rintro ⟨_, ⟨hkey, hsize, rfl⟩, hreturn⟩
      exact ⟨⟨hkey, hsize⟩, hlt, (Except.ok.inj hreturn).symm⟩
    · rintro ⟨⟨hkey, hsize⟩, -, rfl⟩
      exact ⟨_, ⟨hkey, hsize, rfl⟩, rfl⟩
  · simp only [if_neg hlt]
    refine iff_of_false ?_ fun h ↦ hlt h.2.1
    rintro ⟨_, -, hreturn⟩
    cases hreturn

omit [Crc32c] [Snappy] in
private theorem lastKey_append_singleton (block : List (InternalKey × Bytes)) (key : InternalKey)
    (value : Bytes) : lastKey (block ++ [(key, value)]) = some key.asBytes := by
  rw [lastKey, List.getLast?_concat]
  rfl

omit [Crc32c] [Snappy] in
private theorem appended_holding (key : InternalKey) (value : Bytes) {nextBytes : ℕ}
    (hnext : cut.pending ≠ [] →
      nextBytes = rawBytes cut.pending + (key.asBytes.length + value.length)) :
    (holding start cut stored).appended key value (key.asBytes.length + value.length) nextBytes
      = holding start (cut.push (key, value)) stored := by
  have hblock : (BlockBuilder.fresh start.restartInterval).afterAll
      (blockItems (cut.pending ++ [(key, value)]))
      = ((BlockBuilder.fresh start.restartInterval).afterAll (blockItems cut.pending)).after
        (key.asBytes, value) := by
    rw [blockItems, List.map_append, BlockBuilder.afterAll, List.foldl_append]
    rfl
  have hbytes : rawBytes (cut.pending ++ [(key, value)])
      = if rawBytes cut.pending = 0 then key.asBytes.length + value.length else nextBytes := by
    rw [rawBytes_append_singleton]
    split_ifs with hzero
    · rw [hzero, Nat.zero_add]
    · exact (hnext (mt rawBytes_eq_zero.mpr hzero)).symm
  have hfirst : firstKey (cut.pending ++ [(key, value)])
      = some ((firstKey cut.pending).getD key.asBytes) := by
    cases cut.pending <;> rfl
  have hsmallest : (cut.items ++ [(key, value)]).head?.map Prod.fst
      = some ((cut.items.head?.map Prod.fst).getD key) := by
    cases cut.items <;> rfl
  unfold appended holding
  simp only [Cut.items_push, lastKey_append_singleton, List.map_append, List.length_append,
    List.getLast?_concat]
  simp only [Cut.push, hblock, hbytes, hfirst, hsmallest, lastKey_append_singleton]
  rfl

omit [Crc32c] [Snappy] in
/-- Putting an entry into the block of a builder puts it into the block of the cut. -/
theorem append_holding {key : InternalKey} {value : Bytes} {nextBytes : ℕ}
    (hnext : cut.pending ≠ [] →
      nextBytes = rawBytes cut.pending + (key.asBytes.length + value.length)) :
    (holding start cut stored).append key value (key.asBytes.length + value.length) nextBytes
        = .ok builder ↔
      BlockTakes start.restartInterval cut.pending (key, value) ∧
        cut.items.length + 1 < usizeRange ∧
        builder = holding start (cut.push (key, value)) stored := by
  rw [append_eq_ok, appended_holding key value hnext]
  rfl

/-- What `add` asks of an entry, apart from storing the block before it. -/
structure Takes (start : TableBuilder) (cut : Cut) (item : InternalKey × Bytes) : Prop where
  increasing : ∀ last ∈ lastKey cut.items, last < item.1.asBytes
  bytes_lt : rawBytes (cut.pending ++ [item]) < usizeRange
  block : BlockTakes start.restartInterval (Cut.add start.blockBytes cut item).pending.dropLast item
  count_lt : cut.items.length + 1 < usizeRange

/-- The stored forms of blocks. -/
def Stores (start : TableBuilder) (blocks : List (List (InternalKey × Bytes)))
    (stored : List Bytes) : Prop :=
  List.Forall₂ (fun block bytes ↦ storePayload (blockPayload start.restartInterval block)
    start.compression = .ok bytes) blocks stored

theorem add_eq_ok {builder' : TableBuilder} {key : InternalKey} {value : Bytes} :
    builder.add key value = .ok builder' ↔
      (∀ last ∈ builder.previousKey, last < key.asBytes) ∧
      builder.pendingBytes + (key.asBytes.length + value.length) < usizeRange ∧
      (if builder.pendingBytes ≠ 0 ∧
          builder.blockBytes < builder.pendingBytes + (key.asBytes.length + value.length) then
        builder.flushDataBlock >>= fun flushed ↦ flushed.append key value
          (key.asBytes.length + value.length)
          (builder.pendingBytes + (key.asBytes.length + value.length))
      else builder.append key value (key.asBytes.length + value.length)
        (builder.pendingBytes + (key.asBytes.length + value.length))) = .ok builder' := by
  have hkey : builder.previousKey.any (key.asBytes ≤ ·) = true ↔
      ¬ ∀ last ∈ builder.previousKey, last < key.asBytes := by
    rw [Option.any_eq_true]
    push Not
    exact exists_congr fun last ↦ and_congr_right fun _ ↦ decide_eq_true_iff
  unfold add checkedAdd
  by_cases hprevious : builder.previousKey.any (key.asBytes ≤ ·) = true
  · rw [if_pos hprevious]
    exact iff_of_false nofun fun h ↦ hkey.mp hprevious h.1
  rw [if_neg hprevious]
  by_cases hentry : key.asBytes.length + value.length < usizeRange
  swap
  · rw [if_neg hentry]
    exact iff_of_false nofun fun h ↦ hentry (by omega)
  rw [if_pos hentry]
  dsimp only
  by_cases hnext : builder.pendingBytes + (key.asBytes.length + value.length) < usizeRange
  swap
  · rw [if_neg hnext]
    exact iff_of_false nofun fun h ↦ hnext h.2.1
  rw [if_pos hnext]
  exact ⟨fun h ↦ ⟨not_not.mp (mt hkey.mpr hprevious), hnext, h⟩, fun h ↦ h.2.2⟩

/-- **Adding an entry adds it to the cut.** -/
theorem add_holding (hinterval : 0 < start.restartInterval)
    (hlength : cut.done.length = stored.length) (hoffset : stored.flatten.length < usizeRange)
    {item : InternalKey × Bytes} :
    (holding start cut stored).add item.1 item.2 = .ok builder ↔
      Takes start cut item ∧ ∃ more,
        Stores start ((Cut.add start.blockBytes cut item).done.drop cut.done.length) more ∧
        (stored ++ more).flatten.length < usizeRange ∧
        builder = holding start (Cut.add start.blockBytes cut item) (stored ++ more) := by
  obtain ⟨key, value⟩ := item
  have hsum := rawBytes_append_singleton cut.pending key value
  rw [add_eq_ok, show (holding start cut stored).pendingBytes = rawBytes cut.pending from rfl,
    show (holding start cut stored).blockBytes = start.blockBytes from rfl, ← hsum]
  have hiff : rawBytes cut.pending ≠ 0 ∧
      start.blockBytes < rawBytes (cut.pending ++ [(key, value)]) ↔
      cut.pending ≠ [] ∧ start.blockBytes < rawBytes (cut.pending ++ [(key, value)]) :=
    and_congr_left fun _ ↦ not_congr rawBytes_eq_zero
  by_cases hcut : cut.pending ≠ [] ∧ start.blockBytes < rawBytes (cut.pending ++ [(key, value)])
  · rw [if_pos (hiff.mpr hcut), bind_eq_ok]
    simp only [flushDataBlock_holding hinterval hlength hcut.1]
    have hadd : Cut.add start.blockBytes cut (key, value) = cut.close.push (key, value) :=
      if_pos hcut
    have hdrop : (cut.close.push (key, value)).done.drop cut.done.length = [cut.pending] :=
      List.drop_left
    have happend := fun bytes : Bytes ↦ @append_holding start builder cut.close
      (stored ++ [bytes]) key value (rawBytes (cut.pending ++ [(key, value)]))
      fun hne ↦ absurd rfl hne
    rw [Cut.items_close] at happend
    have hflatten : ∀ bytes : Bytes, (stored ++ [bytes]).flatten.length
        = stored.flatten.length + bytes.length := fun bytes ↦ by
      rw [List.flatten_append, List.flatten_singleton, List.length_append]
    rw [hadd, hdrop]
    constructor
    · rintro ⟨hkey, hbytes, flushed, ⟨bytes, hstore, hlt, rfl⟩, hreturn⟩
      obtain ⟨hblock, hcount, rfl⟩ := (happend bytes).mp hreturn
      refine ⟨⟨hkey, hbytes, ?_, hcount⟩, [bytes], .cons hstore .nil, ?_, rfl⟩
      · rw [hadd]
        exact hblock
      · rwa [hflatten]
    · rintro ⟨⟨hkey, hbytes, hblock, hcount⟩, more, hmore, hlt, rfl⟩
      rw [hadd] at hblock
      cases hmore with
      | cons hstore hrest =>
      cases hrest
      rw [hflatten] at hlt
      exact ⟨hkey, hbytes, _, ⟨_, hstore, hlt, rfl⟩, (happend _).mpr ⟨hblock, hcount, rfl⟩⟩
  · rw [if_neg (mt hiff.mp hcut), append_holding fun _ ↦ hsum]
    have hadd : Cut.add start.blockBytes cut (key, value) = cut.push (key, value) := if_neg hcut
    have hdropLast : (cut.push (key, value)).pending.dropLast = cut.pending := List.dropLast_concat
    have hdrop : (cut.push (key, value)).done.drop cut.done.length = [] := List.drop_length
    rw [hadd, hdrop]
    constructor
    · rintro ⟨hkey, hbytes, hblock, hcount, rfl⟩
      refine ⟨⟨hkey, hbytes, ?_, hcount⟩, [], .nil, ?_, ?_⟩
      · rwa [hadd, hdropLast]
      · rwa [List.append_nil]
      · rw [List.append_nil]
    · rintro ⟨⟨hkey, hbytes, hblock, hcount⟩, more, hmore, -, rfl⟩
      cases hmore
      rw [hadd, hdropLast] at hblock
      rw [List.append_nil]
      exact ⟨hkey, hbytes, hblock, hcount, rfl⟩

/-- Every entry is taken after those before it. -/
def TakesAll (start : TableBuilder) (items : List (InternalKey × Bytes)) : Prop :=
  ∀ front item rest, items = front ++ item :: rest →
    Takes start (Cut.ofItems start.blockBytes front) item

omit [Crc32c] [Snappy] in
private theorem takesAll_append_singleton {items : List (InternalKey × Bytes)}
    {item : InternalKey × Bytes} : TakesAll start (items ++ [item]) ↔
      TakesAll start items ∧ Takes start (Cut.ofItems start.blockBytes items) item := by
  constructor
  · intro h
    refine ⟨fun front first rest heq ↦ h front first (rest ++ [item]) ?_, h items item [] rfl⟩
    rw [heq, List.append_assoc, List.cons_append]
  · rintro ⟨hitems, hitem⟩ front first rest heq
    rcases List.eq_nil_or_concat rest with rfl | ⟨rest, last, rfl⟩
    · obtain ⟨rfl, hfirst⟩ := List.append_inj' heq rfl
      rwa [← (List.cons.inj hfirst).1]
    · rw [List.concat_eq_append, ← List.cons_append, ← List.append_assoc] at heq
      exact hitems front first rest (List.append_inj' heq rfl).1

private theorem addAll_append_singleton (items : List (InternalKey × Bytes))
    (item : InternalKey × Bytes) : builder.addAll (items ++ [item])
      = builder.addAll items >>= fun builder ↦ builder.add item.1 item.2 := by
  rw [addAll, List.foldlM_append]
  simp only [List.foldlM_cons, List.foldlM_nil, bind_pure]
  rfl

theorem Stores.length_eq {blocks : List (List (InternalKey × Bytes))}
    (h : Stores start blocks stored) : blocks.length = stored.length := List.Forall₂.length_eq h

theorem Stores.exists_of_mem {blocks : List (List (InternalKey × Bytes))}
    (h : Stores start blocks stored) {block : List (InternalKey × Bytes)}
    (hblock : block ∈ blocks) :
    ∃ bytes, storePayload (blockPayload start.restartInterval block) start.compression
      = .ok bytes := by
  induction h with
  | nil => exact absurd hblock List.not_mem_nil
  | @cons _ bytes _ _ hstore _ ih =>
    rcases List.mem_cons.mp hblock with rfl | hblock
    · exact ⟨bytes, hstore⟩
    · exact ih hblock

/-- **A builder holds the entries it was given**, divided as the cut says, if all of them are taken
and the closed blocks can be stored. -/
theorem addAll_holding (hinterval : 0 < start.restartInterval)
    (hstart : holding start ⟨[], []⟩ [] = start) {items : List (InternalKey × Bytes)} :
    start.addAll items = .ok builder ↔ TakesAll start items ∧
      ∃ stored, Stores start (Cut.ofItems start.blockBytes items).done stored ∧
        stored.flatten.length < usizeRange ∧
        builder = holding start (Cut.ofItems start.blockBytes items) stored := by
  induction items using List.reverseRecOn generalizing builder with
  | nil =>
    constructor
    · intro h
      obtain rfl := Except.ok.inj h
      refine ⟨fun front item rest heq ↦ ?_, [], .nil, by decide, hstart.symm⟩
      exact absurd (congrArg List.length heq) (by simp)
    · rintro ⟨-, stored, hstores, -, rfl⟩
      cases hstores
      exact congrArg Except.ok hstart.symm
  | append_singleton items item ih =>
    rw [addAll_append_singleton, takesAll_append_singleton, Cut.ofItems_append_singleton,
      bind_eq_ok]
    set cut := Cut.ofItems start.blockBytes items with hcut
    have hpre : cut.done <+: (Cut.add start.blockBytes cut item).done := by
      unfold Cut.add
      split_ifs
      · exact List.prefix_append _ _
      · exact List.prefix_rfl
    obtain ⟨more, hmore⟩ := hpre
    constructor
    · rintro ⟨before, hbefore, hadd⟩
      obtain ⟨htakes, stored, hstores, hlt, rfl⟩ := ih.mp hbefore
      obtain ⟨htake, bytes, hbytes, hlt', rfl⟩ :=
        (add_holding hinterval hstores.length_eq hlt).mp hadd
      rw [← hmore, List.drop_left] at hbytes
      refine ⟨⟨htakes, htake⟩, stored ++ bytes, ?_, hlt', rfl⟩
      rw [← hmore]
      exact List.rel_append hstores hbytes
    · rintro ⟨⟨htakes, htake⟩, stored, hstores, hlt, rfl⟩
      rw [← hmore] at hstores
      have hfront : Stores start cut.done (stored.take cut.done.length) := by
        have htaken := List.forall₂_take cut.done.length hstores
        rwa [List.take_left] at htaken
      have hback : Stores start more (stored.drop cut.done.length) := by
        have hdropped := List.forall₂_drop cut.done.length hstores
        rwa [List.drop_left] at hdropped
      have hsplit := List.take_append_drop cut.done.length stored
      have hle : (stored.take cut.done.length).flatten.length < usizeRange := by
        rw [← hsplit, List.flatten_append, List.length_append] at hlt
        omega
      refine ⟨_, ih.mpr ⟨htakes, _, hfront, hle, rfl⟩, ?_⟩
      refine (add_holding hinterval hfront.length_eq hle).mpr
        ⟨htake, stored.drop cut.done.length, ?_, ?_, ?_⟩
      · rwa [← hmore, List.drop_left]
      · rwa [hsplit]
      · rw [hsplit]

/-! ## Finished tables -/

/-- The properties that are stored in a table. -/
def properties (builder : TableBuilder) (smallest largest : InternalKey) : TableProperties where
  smallest := smallest
  largest := largest
  fileNumber := builder.fileNumber
  entries := builder.entries
  dataBlocks := builder.dataBlocks.length
  compression := builder.compression
  maxDataBlockBytes := builder.maxDataBlockBytes
  engineValueEncoding := builder.engineValueEncoding

/-- What follows the data blocks: the filter, the index, the properties, and a footer that says
where they are. -/
def metadata (offset : ℕ) (filter index properties : Bytes) : Bytes :=
  let filter := storedBlock filter noCompression
  let index := storedBlock index noCompression
  let properties := storedBlock properties noCompression
  filter ++ (index ++ (properties ++ encodeFooter ⟨offset + filter.length, index.length⟩
    ⟨offset, filter.length⟩ ⟨offset + filter.length + index.length, properties.length⟩))

/-- The file of a finished table. -/
theorem finish_eq_ok {result : TableBuildResult × Bytes} (h : builder.finish = .ok result) :
    ∃ flushed filter index smallest largest, builder.flushDataBlock = .ok flushed ∧
      flushed.smallest = some smallest ∧ flushed.largest = some largest ∧
      BloomFilter.fromKeys flushed.filterKeys flushed.bloomBitsPerKey = .ok filter ∧
      (BlockBuilder.tryNew flushed.restartInterval >>= fun fresh ↦
        fresh.addAll (indexEntries flushed.dataBlocks)) = .ok index ∧
      result.2 = flushed.file ++ metadata flushed.offset filter.encoded index.finish
        (encodeProperties (flushed.properties smallest largest)) := by
  unfold finish at h
  split_ifs at h
  simp only [bind_eq_ok, writePayload_eq_ok, storePayload, encodeStoredBlock_eq_ok] at h
  obtain ⟨flushed, hflush, filter, hfilter, _, ⟨_, ⟨-, -, rfl⟩, -, rfl⟩, fresh, hfresh, index,
    hindex, _, ⟨_, ⟨-, -, rfl⟩, -, rfl⟩, h⟩ := h
  dsimp only at h hfresh hindex
  cases hsmallest : flushed.smallest with
  | none =>
    rw [hsmallest] at h
    cases h
  | some smallest =>
  cases hlargest : flushed.largest with
  | none =>
    rw [hsmallest, hlargest] at h
    cases h
  | some largest =>
  rw [hsmallest, hlargest] at h
  simp only [bind_eq_ok, writePayload_eq_ok, storePayload, encodeStoredBlock_eq_ok,
    writeRaw_eq_ok] at h
  obtain ⟨_, ⟨_, ⟨-, -, rfl⟩, -, rfl⟩, _, ⟨-, rfl⟩, hreturn⟩ := h
  obtain rfl := Except.ok.inj hreturn
  refine ⟨flushed, filter, index, smallest, largest, hflush, hsmallest, hlargest, hfilter,
    bind_eq_ok.mpr ⟨fresh, hfresh, hindex⟩, ?_⟩
  simp only [metadata, List.append_assoc]
  rfl

end TableBuilder

end MeteorDB
