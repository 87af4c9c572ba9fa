import MeteorDB.Memtable
import MeteorDB.Sstable.TableBuilder

/-!
# The read limit of the engine

The engine reads tables with a limit on the size of a data block that it computes from its options.
Blocks are cut by the bytes of their keys and values, while the limit is compared with the encoded
size: three varints per entry, the restart points, and what prefix sharing saves.

Both sides of the limit are needed. A block of several entries has at most `blockBytes` bytes of
keys and values, and an entry costs at least seventeen of them, so its encoding is at most twice as
long (`length_blockPayload_le_double`). A block of one entry may be larger than `blockBytes`, but
not larger than the largest entry with its overhead (`length_blockPayload_singleton_le`).
-/

namespace MeteorDB

open ByteString MemTable

/-! ## The limit -/

/-- Multiplication that stops at the largest `usize`. -/
def saturatingMul (a b : ℕ) : ℕ := min (a * b) (usizeRange - 1)

/-- The limit on data blocks that the engine opens its tables with. -/
def readerBlockLimit (options : Options) : ℕ :=
  let targetWithEncoding := saturatingMul options.blockBytes 2
  let largestEntry := saturatingAdd (saturatingAdd (saturatingMul options.maxKeyBytes 2)
    options.maxValueBytes) 128
  max targetWithEncoding largestEntry

/-- The builder for a flushed memtable and for an output of a compaction. -/
def startTable (options : Options) (fileNumber : U64) : Result TableBuilder := do
  let builder ← TableBuilder.create fileNumber options.blockBytes options.restartInterval
    options.bloomBitsPerKey .none
  return builder.useEngineValueEncoding

/-- Entries as they are given to a builder. -/
def tableItems (entries : List InternalEntry) : List (InternalKey × Bytes) :=
  entries.map fun entry ↦ (entry.key, entry.record.encodeEngineValue)

/-- The limits on keys and values that a write is checked against. -/
def InternalEntry.Within (options : Options) (entry : InternalEntry) : Prop :=
  entry.key.userKey.length ≤ options.maxKeyBytes ∧
    ∀ value expiresAtUnixMs, entry.record = .value value expiresAtUnixMs →
      value.length ≤ options.maxValueBytes

/-! ## The size of entries -/

private theorem length_encodeUserKey_le (userKey : Bytes) :
    (encodeUserKey userKey).length ≤ 2 * userKey.length + 2 := by
  induction userKey with
  | nil => exact le_refl 2
  | cons byte rest ih =>
    rw [encodeUserKey]
    split_ifs <;> simp only [List.length_cons] <;> omega

private theorem length_encodeUserKey_ge (userKey : Bytes) : 2 ≤ (encodeUserKey userKey).length := by
  induction userKey with
  | nil => exact le_refl 2
  | cons byte rest ih =>
    rw [encodeUserKey]
    split_ifs <;> simp only [List.length_cons] <;> omega

private theorem InternalKey.length_asBytes_bounds (key : InternalKey) :
    11 ≤ key.asBytes.length ∧ key.asBytes.length ≤ 2 * key.userKey.length + 11 := by
  have hge := length_encodeUserKey_ge key.userKey
  have hle := length_encodeUserKey_le key.userKey
  rw [asBytes, List.length_append, length_trailer]
  omega

private theorem ValueRecord.length_encodeEngineValue_ge (record : ValueRecord) :
    6 ≤ record.encodeEngineValue.length := by
  cases record with
  | value value expiresAtUnixMs =>
    cases expiresAtUnixMs <;> simp [encodeEngineValue, engineValueMagic]
  | tombstone => exact le_refl 6

private theorem ValueRecord.length_encodeEngineValue_le {limit : ℕ} {record : ValueRecord}
    (h : ∀ value expiresAtUnixMs, record = .value value expiresAtUnixMs → value.length ≤ limit) :
    record.encodeEngineValue.length ≤ limit + 14 := by
  cases record with
  | value value expiresAtUnixMs =>
    have hvalue := h value expiresAtUnixMs rfl
    cases expiresAtUnixMs <;> simp [encodeEngineValue, engineValueMagic, u64LeBytes] <;> omega
  | tombstone => exact (by decide : 6 ≤ 14).trans (Nat.le_add_left _ _)

/-- An entry costs its bytes, three varints, and no more. -/
theorem length_layoutEntry_le (interval since : ℕ) (previousKey : Bytes) (item : Bytes × Bytes) :
    (layoutEntry interval since previousKey item).length
      ≤ (item.1.length + item.2.length) + (item.1.length + item.2.length) / 128 + 3 := by
  have hshared := sharedAt_le interval since previousKey item.1
  have hkey := congrArg List.length (take_sharedAt_append interval since previousKey item.1)
  rw [List.length_append, List.length_take, List.length_drop] at hkey
  unfold layoutEntry
  set shared := sharedAt interval since previousKey item.1
  have hfirst := Varint.length_encode_le_div shared
  have hsecond := Varint.length_encode_le_div (item.1.drop shared).length
  have hthird := Varint.length_encode_le_div item.2.length
  rw [length_entryBytes, putVarint_eq_encode, putVarint_eq_encode, putVarint_eq_encode]
  rw [List.length_drop] at hsecond ⊢
  omega

/-- At most one restart point per entry, after the first. -/
theorem length_layoutRestarts_le (interval since : ℕ) (previousKey : Bytes) (offset : ℕ)
    (items : List (Bytes × Bytes)) :
    (layoutRestarts interval since previousKey offset items).length ≤ items.length := by
  induction items generalizing since previousKey offset with
  | nil => exact le_refl 0
  | cons item rest ih =>
    have hrest := ih (sinceNext interval since) item.1
      (offset + (layoutEntry interval since previousKey item).length)
    rw [layoutRestarts, List.length_append, List.length_cons]
    split_ifs
    · rw [List.length_singleton]
      omega
    · rw [List.length_nil]
      omega

private theorem length_layoutRestarts_lt {interval : ℕ} (hpos : 0 < interval)
    {items : List (Bytes × Bytes)} (hne : items ≠ []) :
    (layoutRestarts interval 0 [] 0 items).length < items.length := by
  cases items with
  | nil => exact absurd rfl hne
  | cons item rest =>
    rw [layoutRestarts, if_neg hpos.ne, List.nil_append, List.length_cons]
    exact Nat.lt_succ_of_le (length_layoutRestarts_le ..)

/-! ## The size of blocks -/

private theorem length_blockPayload (restartInterval : ℕ) (block : List (InternalKey × Bytes)) :
    (blockPayload restartInterval block).length
      = (layout restartInterval 0 [] (blockItems block)).length
        + ((layoutRestarts restartInterval 0 [] 0 (blockItems block)).length + 1) * 4 + 4 := by
  rw [blockPayload, length_sealBlock, List.length_cons]

/-- An entry of seventeen bytes or more leaves eight of twice its bytes for its restart point and
the number of restart points. -/
theorem length_layout_le (interval since : ℕ) (previousKey : Bytes)
    {block : List (InternalKey × Bytes)} (hlarge : ∀ item ∈ block, 6 ≤ item.2.length) :
    (layout interval since previousKey (blockItems block)).length + 8 * block.length
      ≤ 2 * rawBytes block := by
  induction block generalizing since previousKey with
  | nil => exact le_refl 0
  | cons item rest ih =>
    have hrest := ih (sinceNext interval since) item.1.asBytes
      fun other hother ↦ hlarge other (List.mem_cons_of_mem _ hother)
    have hentry := length_layoutEntry_le interval since previousKey (item.1.asBytes, item.2)
    have hvalue := hlarge item (List.mem_cons_self ..)
    have hkey := item.1.length_asBytes_bounds.1
    have hraw : rawBytes (item :: rest)
        = (item.1.asBytes.length + item.2.length) + rawBytes rest := rfl
    rw [show blockItems (item :: rest) = (item.1.asBytes, item.2) :: blockItems rest from rfl,
      layout, List.length_append, List.length_cons, hraw]
    dsimp only at hentry ⊢
    omega

private theorem length_blockPayload_le_double {restartInterval : ℕ} (hpos : 0 < restartInterval)
    {block : List (InternalKey × Bytes)} (hne : block ≠ [])
    (hlarge : ∀ item ∈ block, 6 ≤ item.2.length) :
    (blockPayload restartInterval block).length ≤ 2 * rawBytes block := by
  have hlayout := length_layout_le restartInterval 0 [] hlarge
  have hrestarts := length_layoutRestarts_lt hpos (mt List.map_eq_nil_iff.mp hne :
    blockItems block ≠ [])
  have hitems : (blockItems block).length = block.length := List.length_map ..
  have hcount := List.length_pos_iff.mpr hne
  rw [length_blockPayload]
  omega

private theorem length_blockPayload_singleton_le {restartInterval : ℕ} (hpos : 0 < restartInterval)
    {item : InternalKey × Bytes}
    (hsize : (blockPayload restartInterval [item]).length < usizeRange) :
    (blockPayload restartInterval [item]).length
      ≤ item.1.asBytes.length + item.2.length + 29 := by
  have hshared : sharedAt restartInterval 0 [] item.1.asBytes = 0 :=
    Nat.le_zero.mp (sharedAt_le restartInterval 0 [] item.1.asBytes)
  have hlength : (blockPayload restartInterval [item]).length
      = (entryBytes 0 item.1.asBytes item.2).length + 8 := by
    rw [length_blockPayload, show blockItems [item] = [(item.1.asBytes, item.2)] from rfl, layout,
      layout, layoutRestarts, layoutRestarts, if_neg hpos.ne, layoutEntry]
    dsimp only
    rw [hshared, List.drop_zero, List.append_nil]
    rfl
  rw [length_entryBytes] at hlength
  have hzero : (putVarint 0).length = 1 := by
    rw [putVarint_eq_encode, Varint.encode_of_lt (by decide)]
    rfl
  have hrange : usizeRange = 2 ^ 64 := rfl
  have hkey := @length_putVarint_le item.1.asBytes.length (by omega)
  have hvalue := @length_putVarint_le item.2.length (by omega)
  omega

/-- What is below the exact limit and is a `usize` is below the saturating one. -/
theorem le_readerBlockLimit {options : Options} {size : ℕ} (hsize : size < usizeRange)
    (h : size ≤ 2 * options.blockBytes ∨
      size ≤ 2 * options.maxKeyBytes + options.maxValueBytes + 128) :
    size ≤ readerBlockLimit options := by
  unfold readerBlockLimit saturatingMul saturatingAdd
  dsimp only
  omega

/-- Items that come from entries within the limits. -/
def ItemsWithin (options : Options) (items : List (InternalKey × Bytes)) : Prop :=
  ∀ item ∈ items, ∃ entry : InternalEntry, entry.Within options ∧
    item = (entry.key, entry.record.encodeEngineValue)

private theorem length_blockPayload_le {options : Options} {block : List (InternalKey × Bytes)}
    (hpos : 0 < options.restartInterval) (hne : block ≠ [])
    (hcut : 2 ≤ block.length → rawBytes block ≤ options.blockBytes)
    (hwithin : ItemsWithin options block)
    (hsize : (blockPayload options.restartInterval block).length < usizeRange) :
    (blockPayload options.restartInterval block).length ≤ readerBlockLimit options := by
  refine le_readerBlockLimit hsize ?_
  by_cases hsingle : 2 ≤ block.length
  · have hlarge : ∀ item ∈ block, 6 ≤ item.2.length := by
      intro item hitem
      obtain ⟨entry, -, rfl⟩ := hwithin item hitem
      exact entry.record.length_encodeEngineValue_ge
    have hdouble := length_blockPayload_le_double hpos hne hlarge
    have hraw := hcut hsingle
    omega
  · obtain ⟨item, rfl⟩ : ∃ item, block = [item] := by
      refine List.length_eq_one_iff.mp ?_
      have := List.length_pos_iff.mpr hne
      omega
    obtain ⟨entry, ⟨hkey, hvalue⟩, rfl⟩ := hwithin item (List.mem_singleton_self _)
    have hle := length_blockPayload_singleton_le hpos hsize
    have hkeyBytes := entry.key.length_asBytes_bounds.2
    have hvalueBytes := ValueRecord.length_encodeEngineValue_le hvalue
    dsimp only at hle
    omega

/-! ## The blocks of a builder -/

section Builders

variable [Crc32c] [Snappy]

namespace TableBuilder

/-- Every data block in the file is within a limit, and so is the maximum that is recorded. -/
def BlocksWithin (builder : TableBuilder) (limit : ℕ) : Prop :=
  builder.maxDataBlockBytes ≤ limit ∧
    ∀ block ∈ builder.dataBlocks, ∃ payload : Bytes, payload.length ≤ limit ∧
      (builder.file.drop block.handle.offset).take block.handle.size
        = storedBlock payload noCompression

/-- A stored block is found through its handle, whatever follows the blocks. -/
theorem exists_of_mem_blockMetas {start : TableBuilder} {front : Bytes} (rest : Bytes)
    {blocks : List (List (InternalKey × Bytes))} {stored : List Bytes}
    (hstores : Stores start blocks stored) {found : DataBlockMeta}
    (hfound : found ∈ blockMetas front.length blocks stored) :
    ∃ block ∈ blocks, ∃ bytes,
      storePayload (blockPayload start.restartInterval block) start.compression = .ok bytes ∧
      ((front ++ (stored.flatten ++ rest)).drop found.handle.offset).take found.handle.size
        = bytes := by
  induction hstores generalizing front with
  | nil => exact absurd hfound List.not_mem_nil
  | @cons block bytes blocks stored hstore _ ih =>
    rcases List.mem_cons.mp hfound with rfl | hfound
    · refine ⟨block, List.mem_cons_self .., bytes, hstore, ?_⟩
      rw [List.drop_left, List.flatten_cons, List.append_assoc, List.take_left]
    · rw [← List.length_append] at hfound
      obtain ⟨other, hother, bytes', hstore', hbytes'⟩ := ih hfound
      refine ⟨other, List.mem_cons_of_mem _ hother, bytes', hstore', ?_⟩
      rwa [List.flatten_cons, List.append_assoc, ← List.append_assoc]

private theorem blocksWithin_holding {start : TableBuilder} {cut : Cut} {stored : List Bytes}
    {limit : ℕ} (hnone : start.compression = .none) (hstores : Stores start cut.done stored)
    (hlimit : ∀ block ∈ cut.done, (blockPayload start.restartInterval block).length < usizeRange →
      (blockPayload start.restartInterval block).length ≤ limit) (rest : Bytes) :
    ({ holding start cut stored with file := stored.flatten ++ rest } : TableBuilder).BlocksWithin
      limit := by
  -- What was stored is a `usize`, with the trailer.
  have hall : ∀ block ∈ cut.done, ∀ bytes,
      storePayload (blockPayload start.restartInterval block) start.compression = .ok bytes →
      (blockPayload start.restartInterval block).length ≤ limit ∧
        bytes = storedBlock (blockPayload start.restartInterval block) noCompression := by
    intro block hblock bytes hstore
    rw [hnone] at hstore
    obtain ⟨-, hlt, hbytes⟩ := encodeStoredBlock_eq_ok.mp hstore
    exact ⟨hlimit block hblock (by omega), hbytes⟩
  refine ⟨largestPayload_le.mpr fun block hblock ↦ ?_, fun found hfound ↦ ?_⟩
  · obtain ⟨bytes, hstore⟩ := hstores.exists_of_mem hblock
    exact (hall block hblock bytes hstore).1
  · obtain ⟨block, hblock, bytes, hstore, hbytes⟩ :=
      @exists_of_mem_blockMetas _ _ start [] rest _ _ hstores found hfound
    exact ⟨_, (hall block hblock bytes hstore).1, hbytes.trans (hall block hblock bytes hstore).2⟩

end TableBuilder

open TableBuilder Decoder

omit [Crc32c] [Snappy] in
private theorem startTable_eq_ok {options : Options} {fileNumber : U64} {builder : TableBuilder} :
    startTable options fileNumber = .ok builder ↔ 0 < options.blockBytes ∧
      options.bloomBitsPerKey ≠ 0 ∧ 0 < options.restartInterval ∧
      builder = begun fileNumber options.blockBytes options.restartInterval options.bloomBitsPerKey
        .none true := by
  unfold startTable
  simp only [bind_eq_ok, create_eq_ok]
  constructor
  · rintro ⟨created, ⟨hblock, hbloom, hinterval, rfl⟩, hreturn⟩
    exact ⟨hblock, hbloom, hinterval, (Except.ok.inj hreturn).symm⟩
  · rintro ⟨hblock, hbloom, hinterval, rfl⟩
    exact ⟨_, ⟨hblock, hbloom, hinterval, rfl⟩, rfl⟩

omit [Crc32c] [Snappy] in
/-- The blocks of a cut of entries within the limits are within the read limit. -/
theorem length_blockPayload_ofItems_le {options : Options} {entries : List InternalEntry}
    (hpos : 0 < options.restartInterval) (hwithin : ∀ entry ∈ entries, entry.Within options) :
    ∀ block ∈ (Cut.ofItems options.blockBytes (tableItems entries)).blocks,
      (blockPayload options.restartInterval block).length < usizeRange →
      (blockPayload options.restartInterval block).length ≤ readerBlockLimit options := by
  intro block hblock hsize
  obtain ⟨hne, hcut⟩ :=
    (Cut.fits_ofItems options.blockBytes (tableItems entries)).blocks block hblock
  refine length_blockPayload_le hpos hne hcut (fun item hitem ↦ ?_) hsize
  have hmem : item ∈ tableItems entries := by
    rw [← Cut.items_ofItems options.blockBytes (tableItems entries), ← Cut.flatten_blocks]
    exact List.mem_flatten_of_mem hblock hitem
  obtain ⟨entry, hentry, rfl⟩ := List.mem_map.mp hmem
  exact ⟨entry, hwithin entry hentry, rfl⟩

/-- What a builder has written stays within the read limit, also when its last block is written and
whatever is written behind that. -/
private theorem blocksWithin_append {options : Options} {fileNumber : U64}
    {entries : List InternalEntry} (hwithin : ∀ entry ∈ entries, entry.Within options)
    {builder : TableBuilder}
    (hbuild : (startTable options fileNumber >>= fun builder ↦ builder.addAll (tableItems entries))
      = .ok builder) (rest : Bytes) :
    ({ builder with file := builder.file ++ rest } : TableBuilder).BlocksWithin
        (readerBlockLimit options) ∧
      ∀ flushed, builder.flushDataBlock = .ok flushed →
        ({ flushed with file := flushed.file ++ rest } : TableBuilder).BlocksWithin
          (readerBlockLimit options) := by
  obtain ⟨start, hstart, hadded⟩ := bind_eq_ok.mp hbuild
  obtain ⟨-, -, hpos, rfl⟩ := startTable_eq_ok.mp hstart
  obtain ⟨-, stored, hstores, -, rfl⟩ := (addAll_holding hpos (holding_begun ..)).mp hadded
  have hlimit := length_blockPayload_ofItems_le hpos hwithin
  set cut := Cut.ofItems options.blockBytes (tableItems entries)
  have hdone : ∀ block ∈ cut.done, block ∈ cut.blocks := by
    intro block hblock
    unfold Cut.blocks
    split_ifs
    · exact hblock
    · exact List.mem_append_left _ hblock
  have hwritten := blocksWithin_holding rfl hstores
    (fun block hblock ↦ hlimit block (hdone block hblock)) rest
  refine ⟨hwritten, fun flushed hflush ↦ ?_⟩
  by_cases hpending : cut.pending = []
  · -- There is nothing left to write.
    obtain rfl := Except.ok.inj ((flushDataBlock_of_pending_eq_nil hpending).symm.trans hflush)
    exact hwritten
  · obtain ⟨bytes, hstore, -, rfl⟩ :=
      (flushDataBlock_holding hpos hstores.length_eq hpending).mp hflush
    have hblocks : cut.close.done = cut.blocks := (if_neg hpending).symm
    have hclosed : Stores _ cut.close.done (stored ++ [bytes]) :=
      List.rel_append hstores (.cons hstore .nil)
    exact blocksWithin_holding rfl hclosed (fun block hblock ↦ hlimit block (hblocks ▸ hblock)) rest

/-- **The read limit covers every block.** Whatever entries within the limits a builder of the
engine was given, the data blocks in its file are within the read limit, and so is the recorded
maximum; this stays so when the last block is written. -/
theorem blocksWithin_readerBlockLimit (options : Options) (fileNumber : U64)
    (entries : List InternalEntry) (hwithin : ∀ entry ∈ entries, entry.Within options)
    (builder : TableBuilder)
    (hbuild : (startTable options fileNumber >>= fun builder ↦ builder.addAll (tableItems entries))
      = .ok builder) :
    builder.BlocksWithin (readerBlockLimit options) ∧
      ∀ flushed, builder.flushDataBlock = .ok flushed →
        flushed.BlocksWithin (readerBlockLimit options) := by
  have happend := blocksWithin_append hwithin hbuild []
  simp only [List.append_nil] at happend
  exact happend

/-- The same holds of the file of a finished table. -/
theorem blocksWithin_finish {options : Options} {fileNumber : U64} {entries : List InternalEntry}
    (hwithin : ∀ entry ∈ entries, entry.Within options) {builder : TableBuilder}
    (hbuild : (startTable options fileNumber >>= fun builder ↦ builder.addAll (tableItems entries))
      = .ok builder) {result : TableBuildResult × Bytes} (hfinish : builder.finish = .ok result) :
    ∃ flushed, builder.flushDataBlock = .ok flushed ∧
      ({ flushed with file := result.2 } : TableBuilder).BlocksWithin
      (readerBlockLimit options) := by
  obtain ⟨flushed, filter, index, smallest, largest, hflush, -, -, -, -, hfile⟩ :=
    finish_eq_ok hfinish
  rw [hfile]
  exact ⟨flushed, hflush, (blocksWithin_append hwithin hbuild _).2 flushed hflush⟩

end Builders

/-- A value and a tombstone. -/
def twoEntries : List InternalEntry :=
  [⟨⟨[1], 7, .value, by decide⟩, .value [5] none, rfl⟩,
    ⟨⟨[2], 8, .deletion, by decide⟩, .tombstone, rfl⟩]

/-- Two entries in blocks of their own. -/
theorem blocksWithin_readerBlockLimit_twoBlocks :
    letI : Crc32c := castagnoli
    letI : Snappy := ⟨.ok, fun bytes ↦ .ok bytes.length, .ok⟩
    ∃ builder flushed,
      (startTable { Options.new with blockBytes := 1 } 1 >>= fun builder ↦
        builder.addAll (tableItems twoEntries)) = .ok builder ∧
      builder.flushDataBlock = .ok flushed ∧ flushed.dataBlocks.length = 2 ∧
      flushed.BlocksWithin (readerBlockLimit { Options.new with blockBytes := 1 }) := by
  let _ : Crc32c := castagnoli
  let _ : Snappy := ⟨.ok, fun bytes ↦ .ok bytes.length, .ok⟩
  have hrun : (startTable { Options.new with blockBytes := 1 } 1 >>= fun builder ↦
      builder.addAll (tableItems twoEntries) >>= fun builder ↦
      builder.flushDataBlock).toOption.map (·.dataBlocks.length) = some 2 := by
    decide +kernel
  rw [← bind_assoc] at hrun
  cases hall : (startTable { Options.new with blockBytes := 1 } 1 >>= fun builder ↦
      builder.addAll (tableItems twoEntries)) >>= fun builder ↦ builder.flushDataBlock with
  | error error =>
    rw [hall] at hrun
    cases hrun
  | ok flushed =>
  rw [hall] at hrun
  have hcount : flushed.dataBlocks.length = 2 := Option.some.inj hrun
  obtain ⟨builder, hbuild, hflush⟩ := Decoder.bind_eq_ok.mp hall
  refine ⟨builder, flushed, hbuild, hflush, hcount, ?_⟩
  refine (blocksWithin_readerBlockLimit { Options.new with blockBytes := 1 } 1 twoEntries ?_ builder
    hbuild).2 flushed hflush
  intro entry hentry
  simp only [twoEntries, List.mem_cons, List.not_mem_nil, or_false] at hentry
  rcases hentry with rfl | rfl
  · refine ⟨by decide, fun value expiresAtUnixMs hvalue ↦ ?_⟩
    cases hvalue
    decide
  · refine ⟨by decide, fun value expiresAtUnixMs hvalue ↦ ?_⟩
    cases hvalue

end MeteorDB
