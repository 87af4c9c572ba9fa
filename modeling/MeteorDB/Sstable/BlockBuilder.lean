import MeteorDB.Sstable.Block

/-!
# Building data blocks

Entries are appended one at a time, each with the part of its key that the key before does not have,
and a restart point is set after every `restartInterval` entries. `layout` says what this comes to:
the entry bytes as a function of the entries, the key before them, and the number of entries since
the last restart point. The decoder walks over a layout entry by entry (`scanned_layout`), so that a
finished block is accepted and iterates over the entries it was built from.
-/

namespace MeteorDB

open ByteString Block

/-! ## The builder -/

/-- A block under construction. -/
structure BlockBuilder where
  restartInterval : ℕ
  entriesSinceRestart : ℕ
  entries : Bytes
  restarts : List ℕ
  previousKey : Bytes
  entryCount : ℕ

/-- The length of the common front of two keys. -/
def sharedPrefix (left right : Bytes) : ℕ :=
  ((left.zip right).takeWhile fun pair ↦ pair.1 = pair.2).length

namespace BlockBuilder

def tryNew (restartInterval : ℕ) : Result BlockBuilder :=
  if restartInterval = 0 then
    .error (.invalidArgument "restart_interval must be greater than zero")
  else .ok ⟨restartInterval, 0, [], [0], [], 0⟩

/-- Appends the bytes of an entry. -/
def push (builder : BlockBuilder) (shared : ℕ) (key value : Bytes) : BlockBuilder :=
  { builder with
    entries := builder.entries ++ entryBytes shared (key.drop shared) value
    previousKey := key
    entriesSinceRestart := builder.entriesSinceRestart + 1
    entryCount := builder.entryCount + 1 }

/-- Adds an entry whose key is above the key before. A `usize` length always is a `u64`. -/
def add (builder : BlockBuilder) (key value : Bytes) : Result BlockBuilder :=
  if builder.entryCount ≠ 0 ∧ key ≤ builder.previousKey then
    .error (.invalidArgument "SSTable block keys must be strictly increasing")
  else if builder.entriesSinceRestart = builder.restartInterval then
    if builder.entries.length < 2 ^ 32 then
      .ok ({ builder with
        restarts := builder.restarts ++ [builder.entries.length]
        entriesSinceRestart := 0 }.push 0 key value)
    else .error (.invalidArgument "SSTable data block exceeds u32 restart offsets")
  else .ok (builder.push (sharedPrefix builder.previousKey key) key value)

/-- Adds entries one after the other. -/
def addAll (builder : BlockBuilder) (items : List (Bytes × Bytes)) : Result BlockBuilder :=
  items.foldlM (fun builder item ↦ builder.add item.1 item.2) builder

/-- Appends the restart offsets and their number. -/
def finish (builder : BlockBuilder) : Bytes :=
  builder.entries ++ (builder.restarts.flatMap (leBytes 4) ++ leBytes 4 builder.restarts.length)

end BlockBuilder

/-! ## Layouts -/

/-- How much of the key before an entry shares. -/
def sharedAt (interval since : ℕ) (previousKey key : Bytes) : ℕ :=
  if since = interval then 0 else sharedPrefix previousKey key

/-- The number of entries since the last restart point, after one more entry. -/
def sinceNext (interval since : ℕ) : ℕ := if since = interval then 1 else since + 1

/-- The bytes of one entry of a layout. -/
def layoutEntry (interval since : ℕ) (previousKey : Bytes) (item : Bytes × Bytes) : Bytes :=
  let shared := sharedAt interval since previousKey item.1
  entryBytes shared (item.1.drop shared) item.2

/-- The entry bytes of a block. -/
def layout (interval : ℕ) : ℕ → Bytes → List (Bytes × Bytes) → Bytes
  | _, _, [] => []
  | since, previousKey, item :: rest =>
    layoutEntry interval since previousKey item
      ++ layout interval (sinceNext interval since) item.1 rest

/-- The restart points of a layout that begins at an offset. -/
def layoutRestarts (interval : ℕ) : ℕ → Bytes → ℕ → List (Bytes × Bytes) → List ℕ
  | _, _, _, [] => []
  | since, previousKey, offset, item :: rest =>
    (if since = interval then [offset] else [])
      ++ layoutRestarts interval (sinceNext interval since) item.1
        (offset + (layoutEntry interval since previousKey item).length) rest

/-- The keys are above the key before them, if there is one, and increase. -/
def KeysFrom (count : ℕ) (previousKey : Bytes) (items : List (Bytes × Bytes)) : Prop :=
  (count ≠ 0 → ∀ item ∈ items, previousKey < item.1) ∧ items.Pairwise fun a b ↦ a.1 < b.1

private theorem keysFrom_cons {count : ℕ} {previousKey : Bytes} {item : Bytes × Bytes}
    {rest : List (Bytes × Bytes)} : KeysFrom count previousKey (item :: rest) ↔
      (count ≠ 0 → previousKey < item.1) ∧ KeysFrom (count + 1) item.1 rest := by
  constructor
  · rintro ⟨hprevious, hkeys⟩
    obtain ⟨hfirst, hrest⟩ := List.pairwise_cons.mp hkeys
    exact ⟨fun hne ↦ hprevious hne item (List.mem_cons_self ..), fun _ ↦ hfirst, hrest⟩
  · rintro ⟨hprevious, hfirst, hrest⟩
    have hfirst' := hfirst (Nat.succ_ne_zero _)
    refine ⟨fun hne other hother ↦ ?_, List.pairwise_cons.mpr ⟨hfirst', hrest⟩⟩
    rcases List.mem_cons.mp hother with rfl | hother
    · exact hprevious hne
    · exact (hprevious hne).trans (hfirst' other hother)

/-- A builder after one more entry. -/
def BlockBuilder.after (builder : BlockBuilder) (item : Bytes × Bytes) : BlockBuilder where
  restartInterval := builder.restartInterval
  entriesSinceRestart := sinceNext builder.restartInterval builder.entriesSinceRestart
  entries := builder.entries ++ layoutEntry builder.restartInterval builder.entriesSinceRestart
    builder.previousKey item
  restarts := builder.restarts ++
    if builder.entriesSinceRestart = builder.restartInterval then [builder.entries.length] else []
  previousKey := item.1
  entryCount := builder.entryCount + 1

theorem BlockBuilder.add_eq_ok {builder builder' : BlockBuilder} {item : Bytes × Bytes} :
    builder.add item.1 item.2 = .ok builder' ↔
      (builder.entryCount ≠ 0 → builder.previousKey < item.1) ∧
      (builder.entriesSinceRestart = builder.restartInterval → builder.entries.length < 2 ^ 32) ∧
      builder' = builder.after item := by
  unfold add
  by_cases hkey : builder.entryCount ≠ 0 ∧ item.1 ≤ builder.previousKey
  · rw [if_pos hkey]
    exact iff_of_false nofun fun h ↦ absurd (h.1 hkey.1) (not_lt.mpr hkey.2)
  rw [if_neg hkey]
  have hkey' : builder.entryCount ≠ 0 → builder.previousKey < item.1 :=
    fun hne ↦ lt_of_not_ge fun hle ↦ hkey ⟨hne, hle⟩
  by_cases hrestart : builder.entriesSinceRestart = builder.restartInterval
  · rw [if_pos hrestart]
    have hafter : ({ builder with
        restarts := builder.restarts ++ [builder.entries.length]
        entriesSinceRestart := 0 } : BlockBuilder).push 0 item.1 item.2 = builder.after item := by
      unfold after layoutEntry sharedAt sinceNext push
      simp only [if_pos hrestart]
    by_cases hsize : builder.entries.length < 2 ^ 32
    · rw [if_pos hsize, hafter]
      exact ⟨fun h ↦ ⟨hkey', fun _ ↦ hsize, (Except.ok.inj h).symm⟩,
        fun h ↦ congrArg Except.ok h.2.2.symm⟩
    · rw [if_neg hsize]
      exact iff_of_false nofun fun h ↦ hsize (h.2.1 hrestart)
  · rw [if_neg hrestart]
    have hafter : builder.push (sharedPrefix builder.previousKey item.1) item.1 item.2
        = builder.after item := by
      unfold after layoutEntry sharedAt sinceNext push
      simp only [if_neg hrestart, List.append_nil]
    rw [hafter]
    exact ⟨fun h ↦ ⟨hkey', fun h' ↦ absurd h' hrestart, (Except.ok.inj h).symm⟩,
      fun h ↦ congrArg Except.ok h.2.2.symm⟩

/-- A builder after more entries. -/
def BlockBuilder.afterAll (builder : BlockBuilder) (items : List (Bytes × Bytes)) : BlockBuilder :=
  items.foldl after builder

/-- **The builder writes the layout.** -/
theorem BlockBuilder.entries_afterAll (builder : BlockBuilder) (items : List (Bytes × Bytes)) :
    (builder.afterAll items).entries = builder.entries ++ layout builder.restartInterval
      builder.entriesSinceRestart builder.previousKey items := by
  induction items generalizing builder with
  | nil => exact (List.append_nil _).symm
  | cons item rest ih =>
    rw [layout, ← List.append_assoc]
    exact ih (builder.after item)

private theorem BlockBuilder.restarts_afterAll (builder : BlockBuilder)
    (items : List (Bytes × Bytes)) :
    (builder.afterAll items).restarts = builder.restarts ++ layoutRestarts builder.restartInterval
      builder.entriesSinceRestart builder.previousKey builder.entries.length items := by
  induction items generalizing builder with
  | nil => exact (List.append_nil _).symm
  | cons item rest ih =>
    rw [layoutRestarts, ← List.append_assoc, ← List.length_append]
    exact ih (builder.after item)

/-- Entries are taken if their keys increase and the restart points they need are `u32` offsets. -/
theorem BlockBuilder.addAll_eq_ok {builder builder' : BlockBuilder}
    {items : List (Bytes × Bytes)} : builder.addAll items = .ok builder' ↔
      KeysFrom builder.entryCount builder.previousKey items ∧
      (∀ start ∈ layoutRestarts builder.restartInterval builder.entriesSinceRestart
        builder.previousKey builder.entries.length items, start < 2 ^ 32) ∧
      builder' = builder.afterAll items := by
  induction items generalizing builder with
  | nil =>
    exact ⟨fun h ↦ ⟨⟨fun _ ↦ nofun, .nil⟩, nofun, (Except.ok.inj h).symm⟩,
      fun h ↦ congrArg Except.ok h.2.2.symm⟩
  | cons item rest ih =>
    have hrestarts : (∀ start ∈ layoutRestarts builder.restartInterval
        builder.entriesSinceRestart builder.previousKey builder.entries.length (item :: rest),
          start < 2 ^ 32) ↔
        (builder.entriesSinceRestart = builder.restartInterval →
          builder.entries.length < 2 ^ 32) ∧
        ∀ start ∈ layoutRestarts (builder.after item).restartInterval
          (builder.after item).entriesSinceRestart (builder.after item).previousKey
          (builder.after item).entries.length rest, start < 2 ^ 32 := by
      rw [layoutRestarts, List.forall_mem_append, after, List.length_append]
      refine and_congr_left fun _ ↦ ?_
      split_ifs with hrestart
      · rw [List.forall_mem_singleton]
        exact ⟨fun h _ ↦ h, fun h ↦ h hrestart⟩
      · exact iff_of_true nofun fun h ↦ absurd h hrestart
    rw [addAll, List.foldlM_cons, Decoder.bind_eq_ok, keysFrom_cons, hrestarts]
    constructor
    · rintro ⟨next, hadd, hall⟩
      obtain ⟨hfirst, hsize, rfl⟩ := add_eq_ok.mp hadd
      obtain ⟨hkeys, hvalues, rfl⟩ := ih.mp hall
      exact ⟨⟨hfirst, hkeys⟩, ⟨hsize, hvalues⟩, rfl⟩
    · rintro ⟨⟨hfirst, hkeys⟩, ⟨hsize, hvalues⟩, rfl⟩
      exact ⟨_, add_eq_ok.mpr ⟨hfirst, hsize, rfl⟩, ih.mpr ⟨hkeys, hvalues, rfl⟩⟩

/-! ## Reading a layout -/

private theorem sharedPrefix_le (left right : Bytes) : sharedPrefix left right ≤ left.length := by
  unfold sharedPrefix
  calc ((left.zip right).takeWhile _).length ≤ (left.zip right).length :=
        (List.takeWhile_prefix _).length_le
    _ ≤ left.length := by rw [List.length_zip]; exact min_le_left _ _

/-- The shared part is the front of both keys. -/
theorem take_sharedPrefix (left right : Bytes) :
    left.take (sharedPrefix left right) = right.take (sharedPrefix left right) := by
  induction left generalizing right with
  | nil =>
    rw [Nat.le_zero.mp (sharedPrefix_le [] right)]
    rfl
  | cons a left ih =>
    cases right with
    | nil => rfl
    | cons b right =>
      unfold sharedPrefix at ih ⊢
      rw [List.zip_cons_cons]
      by_cases hab : a = b
      · rw [List.takeWhile_cons_of_pos (by simpa using hab), List.length_cons, List.take_succ_cons,
          List.take_succ_cons, ih, hab]
      · rw [List.takeWhile_cons_of_neg (by simpa using hab)]
        rfl

theorem sharedAt_le (interval since : ℕ) (previousKey key : Bytes) :
    sharedAt interval since previousKey key ≤ previousKey.length := by
  unfold sharedAt
  split_ifs
  · exact Nat.zero_le _
  · exact sharedPrefix_le _ _

/-- The key is put together again from the shared part and the rest. -/
theorem take_sharedAt_append (interval since : ℕ) (previousKey key : Bytes) :
    previousKey.take (sharedAt interval since previousKey key)
      ++ key.drop (sharedAt interval since previousKey key) = key := by
  unfold sharedAt
  split_ifs
  · rfl
  · rw [take_sharedPrefix, List.take_append_drop]

/-- An entry of a layout, as it is read at an offset. -/
def readAt (interval since : ℕ) (previousKey : Bytes) (offset : ℕ) (item : Bytes × Bytes) :
    DecodedEntry where
  shared := sharedAt interval since previousKey item.1
  key := item.1
  value := item.2
  next := offset + (layoutEntry interval since previousKey item).length

private theorem length_key_le (interval since : ℕ) (previousKey : Bytes) (item : Bytes × Bytes) :
    item.1.length ≤ previousKey.length + (layoutEntry interval since previousKey item).length := by
  have hshared := sharedAt_le interval since previousKey item.1
  have hkey := congrArg List.length (take_sharedAt_append interval since previousKey item.1)
  rw [List.length_append, List.length_take] at hkey
  unfold layoutEntry
  rw [length_entryBytes]
  omega

private theorem decodeEntry_layout {interval since offset : ℕ} {entries previousKey : Bytes}
    {item : Bytes × Bytes}
    (hpre : layoutEntry interval since previousKey item <+: entries.drop offset)
    (hlength : previousKey.length ≤ offset) (hsize : entries.length < usizeRange) :
    decodeEntry entries offset previousKey
      = .ok (readAt interval since previousKey offset item) := by
  have hend := end_le_of_prefix hpre (length_entryBytes_pos _ _ _)
  have hkey := length_key_le interval since previousKey item
  have hshared := sharedAt_le interval since previousKey item.1
  refine decodeEntry_eq_ok.mpr ⟨item.1.drop (sharedAt interval since previousKey item.1), hshared,
    (take_sharedAt_append interval since previousKey item.1).symm, hpre, rfl, ?_, ?_⟩
  · show offset + _ < usizeRange
    omega
  · show sharedAt interval since previousKey item.1 + _ < usizeRange
    rw [List.length_drop]
    omega

private theorem length_layoutEntry_pos (interval since : ℕ) (previousKey : Bytes)
    (item : Bytes × Bytes) :
    0 < (layoutEntry interval since previousKey item).length := length_entryBytes_pos _ _ _

/-- Restart points increase, and lie inside the layout. -/
theorem layoutRestarts_spec (interval since : ℕ) (previousKey : Bytes) (offset : ℕ)
    (items : List (Bytes × Bytes)) :
    (layoutRestarts interval since previousKey offset items).Pairwise (· < ·) ∧
      ∀ start ∈ layoutRestarts interval since previousKey offset items,
        offset ≤ start ∧ start < offset + (layout interval since previousKey items).length := by
  induction items generalizing since previousKey offset with
  | nil => exact ⟨.nil, nofun⟩
  | cons item rest ih =>
    have hpos := length_layoutEntry_pos interval since previousKey item
    obtain ⟨hincreasing, hbounds⟩ := ih (sinceNext interval since) item.1
      (offset + (layoutEntry interval since previousKey item).length)
    rw [layoutRestarts, layout, List.length_append]
    split_ifs
    · rw [List.singleton_append]
      refine ⟨List.pairwise_cons.mpr ⟨fun start hstart ↦ ?_, hincreasing⟩, fun start hstart ↦ ?_⟩
      · have := hbounds start hstart
        omega
      · rcases List.mem_cons.mp hstart with rfl | hstart
        · omega
        · have := hbounds start hstart
          omega
    · rw [List.nil_append]
      refine ⟨hincreasing, fun start hstart ↦ ?_⟩
      have := hbounds start hstart
      omega

/-- **A layout is scanned into its entries.** Of the restart points only those matter that lie
ahead. -/
theorem scanned_layout {interval : ℕ} {entries : Bytes} {restarts : List ℕ}
    (hsize : entries.length < usizeRange) {items : List (Bytes × Bytes)} {since offset count : ℕ}
    {previousKey : Bytes} (hdrop : entries.drop offset = layout interval since previousKey items)
    (hoffset : offset ≤ entries.length) (hlength : previousKey.length ≤ offset)
    (hkeys : KeysFrom count previousKey items)
    (hrestarts : ∀ start ∈ restarts, offset ≤ start →
      start ∈ layoutRestarts interval since previousKey offset items ∨
        start = offset ∧ previousKey = []) :
    ∃ found, Scanned entries restarts offset previousKey count found ∧
      found.map DecodedEntry.item = items ∧
      layoutRestarts interval since previousKey offset items ⊆ startsFrom offset found := by
  induction items generalizing since offset count previousKey with
  | nil =>
    have hend : offset = entries.length :=
      le_antisymm hoffset (List.drop_eq_nil_iff.mp hdrop)
    exact ⟨[], .nil hend, rfl, List.nil_subset _⟩
  | cons item rest ih =>
    obtain ⟨hfirst, hrest⟩ := keysFrom_cons.mp hkeys
    have hpos := length_layoutEntry_pos interval since previousKey item
    rw [layout] at hdrop
    have hpre : layoutEntry interval since previousKey item <+: entries.drop offset := by
      rw [hdrop]
      exact List.prefix_append _ _
    have hend := end_le_of_prefix hpre hpos
    have hdecode := decodeEntry_layout hpre hlength hsize
    set next := offset + (layoutEntry interval since previousKey item).length with hnext
    have hahead := layoutRestarts_spec interval (sinceNext interval since) item.1 next rest
    have hdrop' : entries.drop next = layout interval (sinceNext interval since) item.1 rest := by
      rw [hnext, ← List.drop_drop, hdrop, List.drop_left]
    have hlater : ∀ start ∈ restarts, next ≤ start →
        start ∈ layoutRestarts interval (sinceNext interval since) item.1 next rest := by
      intro start hstart hle
      rcases hrestarts start hstart (by omega) with hmem | ⟨heq, -⟩
      · rw [layoutRestarts] at hmem
        rcases List.mem_append.mp hmem with hmem | hmem
        · split_ifs at hmem
          · rw [List.mem_singleton.mp hmem] at hle
            omega
          · exact absurd hmem List.not_mem_nil
        · exact hmem
      · omega
    obtain ⟨found, hscanned, hitems, hstarts⟩ := ih hdrop' hend
      ((length_key_le interval since previousKey item).trans (by omega)) hrest
      fun start hstart hle ↦ .inl (hlater start hstart hle)
    refine ⟨readAt interval since previousKey offset item :: found,
      .cons (by omega) hdecode (fun hmem ↦ ?_) hfirst hscanned, ?_, ?_⟩
    · -- A restart point here shares nothing: it is one of the layout, or the first of all.
      show sharedAt interval since previousKey item.1 = 0
      rcases hrestarts offset hmem (le_refl _) with hmem | ⟨-, hnil⟩
      · rw [layoutRestarts] at hmem
        rcases List.mem_append.mp hmem with hmem | hmem
        · split_ifs at hmem with hsince
          · exact if_pos hsince
          · exact absurd hmem List.not_mem_nil
        · have := (hahead.2 offset hmem).1
          omega
      · have hle := sharedAt_le interval since previousKey item.1
        rw [hnil] at hle ⊢
        exact Nat.le_zero.mp hle
    · rw [List.map_cons, hitems]
      rfl
    · rw [layoutRestarts, startsFrom]
      intro start hstart
      rcases List.mem_append.mp hstart with hstart | hstart
      · split_ifs at hstart
        · rw [List.mem_singleton.mp hstart]
          exact List.mem_cons_self ..
        · exact absurd hstart List.not_mem_nil
      · exact List.mem_cons_of_mem _ (hstarts hstart)

/-! ## The round trip -/

/-! ### Sealed blocks -/

/-- The fixed-width numbers of an array are found at their places. -/
theorem take_drop_flatMap_leBytes {numbers : List ℕ} {index : ℕ} (h : index < numbers.length)
    (rest : Bytes) :
    ((numbers.flatMap (leBytes 4) ++ rest).drop (index * 4)).take 4 = leBytes 4 numbers[index] := by
  induction numbers generalizing index with
  | nil => exact absurd h (Nat.not_lt_zero _)
  | cons number numbers ih =>
    rw [List.flatMap_cons, List.append_assoc]
    cases index with
    | zero => exact List.take_left' (length_leBytes 4 number)
    | succ index =>
      have hlength := length_leBytes 4 number
      rw [show (index + 1) * 4 = (leBytes 4 number).length + index * 4 by omega, ← List.drop_drop,
        List.drop_left]
      exact ih (Nat.lt_of_succ_lt_succ h)

/-- Entries and restart points as a finished block has them. -/
def sealBlock (entries : Bytes) (restarts : List ℕ) : Bytes :=
  entries ++ (restarts.flatMap (leBytes 4) ++ leBytes 4 restarts.length)

private theorem length_flatMap_leBytes (numbers : List ℕ) :
    (numbers.flatMap (leBytes 4)).length = numbers.length * 4 := by
  induction numbers with
  | nil => rfl
  | cons number numbers ih =>
    rw [List.flatMap_cons, List.length_append, ih, length_leBytes, List.length_cons]
    omega

section Sealed

variable {entries : Bytes} {restarts : List ℕ}

theorem length_sealBlock (entries : Bytes) (restarts : List ℕ) :
    (sealBlock entries restarts).length = entries.length + restarts.length * 4 + 4 := by
  rw [sealBlock, List.length_append, List.length_append, length_flatMap_leBytes, length_leBytes]
  omega

private theorem restartCountOf_sealBlock (h : restarts.length < 2 ^ 32) :
    restartCountOf (sealBlock entries restarts) = restarts.length := by
  have hdrop : (sealBlock entries restarts).drop ((sealBlock entries restarts).length - 4)
      = leBytes 4 restarts.length := by
    rw [length_sealBlock, Nat.add_sub_cancel, ← length_flatMap_leBytes, ← List.length_append,
      sealBlock, ← List.append_assoc, List.drop_left]
  unfold restartCountOf fixedRestartBytes
  rw [hdrop]
  exact leNat_leBytes_of_lt h

private theorem entriesEndOf_sealBlock (h : restarts.length < 2 ^ 32) :
    entriesEndOf (sealBlock entries restarts) = entries.length := by
  unfold entriesEndOf
  rw [restartCountOf_sealBlock h, length_sealBlock]
  unfold fixedRestartBytes
  omega

private theorem restartAt_sealBlock {index : ℕ} (h : index < restarts.length)
    (hlt : restarts[index] < 2 ^ 32) :
    restartAt (sealBlock entries restarts) entries.length index = restarts[index] := by
  unfold restartAt sealBlock fixedRestartBytes
  rw [← List.drop_drop, List.drop_left, take_drop_flatMap_leBytes h]
  exact leNat_leBytes_of_lt hlt

/-- **A sealed block is accepted** if its entries are scanned and its restart points are increasing
starts of entries. -/
theorem decode_sealBlock {found : List DecodedEntry}
    (hsize : (sealBlock entries restarts).length < usizeRange) (hcount : restarts.length < 2 ^ 32)
    (hvalues : ∀ start ∈ restarts, start < 2 ^ 32)
    (hfirst : restarts.head? = some 0) (hincreasing : restarts.Pairwise (· < ·))
    (hempty : entries = [] → restarts = [0])
    (hinside : entries ≠ [] → ∀ start ∈ restarts, start < entries.length)
    (hscanned : Scanned entries restarts 0 [] 0 found)
    (hstarts : entries ≠ [] → restarts ⊆ startsFrom 0 found) :
    decode (sealBlock entries restarts) = .ok ⟨entries, restarts, found.length⟩ := by
  have hnodup : restarts.Nodup := hincreasing.imp fun h ↦ h.ne
  rw [length_sealBlock] at hsize
  have hat : ∀ index (h : index < restarts.length),
      restartAt (sealBlock entries restarts) entries.length index = restarts[index] :=
    fun index h ↦ restartAt_sealBlock h (hvalues _ (List.getElem_mem h))
  have hpos : 0 < restarts.length := by
    rw [List.length_pos_iff]
    rintro rfl
    cases hfirst
  refine decode_eq_ok.mpr ⟨found, ?_, ?_, ?_, ?_, fun index hindex ↦ ?_, ?_, ?_, hscanned, rfl, ?_⟩
  · rw [length_sealBlock]
    unfold fixedRestartBytes
    omega
  · rw [restartCountOf_sealBlock hcount]
    exact hpos.ne'
  · rw [restartCountOf_sealBlock hcount]
    unfold fixedRestartBytes
    omega
  · rw [restartCountOf_sealBlock hcount, length_sealBlock]
    unfold fixedRestartBytes
    omega
  · rw [restartCountOf_sealBlock hcount] at hindex ⊢
    rw [entriesEndOf_sealBlock hcount]
    refine ⟨?_, fun hzero ↦ ?_, fun hpositive ↦ ?_, fun hzero ↦ ?_, fun hne ↦ ?_⟩
    · unfold fixedRestartBytes
      omega
    · subst hzero
      rw [hat 0 hindex]
      rw [List.head?_eq_getElem?, List.getElem?_eq_getElem hindex] at hfirst
      exact Option.some.inj hfirst
    · rw [hat _ (by omega), hat index hindex]
      exact List.pairwise_iff_getElem.mp hincreasing _ _ _ _ (by omega)
    · have hone := hempty (List.length_eq_zero_iff.mp hzero)
      rw [hat index hindex]
      refine ⟨by rw [hone]; rfl, ?_⟩
      exact List.mem_singleton.mp (hone ▸ List.getElem_mem hindex)
    · rw [hat index hindex]
      exact hinside (mt List.length_eq_zero_iff.mpr hne) _ (List.getElem_mem hindex)
  · rw [restartCountOf_sealBlock hcount, entriesEndOf_sealBlock hcount]
    refine List.ext_getElem ?_ fun index hindex hindex' ↦ ?_
    · rw [List.length_map, List.length_range]
    · rw [List.getElem_map, List.getElem_range, hat index hindex]
  · rw [entriesEndOf_sealBlock hcount]
    exact (List.take_left ..).symm
  · dsimp only
    split_ifs with hnil
    · rw [hempty (List.isEmpty_iff.mp hnil)]
      rfl
    · have hne : entries ≠ [] := mt List.isEmpty_iff.mpr hnil
      have hperm : ((startsFrom 0 found).filter (· ∈ restarts)).Perm restarts := by
        refine (List.perm_ext_iff_of_nodup ?_ hnodup).mpr fun start ↦ ?_
        · exact (hscanned.lt_starts.1.imp fun h ↦ h.ne).filter _
        · rw [List.mem_filter, decide_eq_true_iff]
          exact ⟨And.right, fun hstart ↦ ⟨hstarts hne hstart, hstart⟩⟩
      rw [List.countP_eq_length_filter, hperm.length_eq]

end Sealed

/-! ### Blocks of a layout -/

private theorem length_layoutEntry_ge (interval since : ℕ) (previousKey : Bytes)
    (item : Bytes × Bytes) : 3 ≤ (layoutEntry interval since previousKey item).length := by
  unfold layoutEntry
  rw [length_entryBytes]
  have hshared := length_putVarint_pos (sharedAt interval since previousKey item.1)
  have hunshared := length_putVarint_pos
    (item.1.drop (sharedAt interval since previousKey item.1)).length
  have hvalue := length_putVarint_pos item.2.length
  omega

/-- All restart points of a layout but the first lie behind the first entry. -/
theorem layoutRestarts_ge {interval start : ℕ} (hpos : 0 < interval)
    {items : List (Bytes × Bytes)} (hstart : start ∈ layoutRestarts interval 0 [] 0 items) :
    3 ≤ start := by
  cases items with
  | nil => exact absurd hstart List.not_mem_nil
  | cons item rest =>
    rw [layoutRestarts, if_neg hpos.ne, List.nil_append] at hstart
    have hle := ((layoutRestarts_spec interval (sinceNext interval 0) item.1 _ rest).2 _ hstart).1
    have hentry := length_layoutEntry_ge interval 0 [] item
    omega

/-- There are fewer restart points than `u32` offsets: no entry starts at the second byte. -/
theorem length_restarts_lt {interval : ℕ} (hpos : 0 < interval) {items : List (Bytes × Bytes)}
    (hvalues : ∀ start ∈ layoutRestarts interval 0 [] 0 items, start < 2 ^ 32) :
    (0 :: layoutRestarts interval 0 [] 0 items).length < 2 ^ 32 := by
  have hincreasing := (layoutRestarts_spec interval 0 [] 0 items).1
  have hnodup : (0 :: 1 :: layoutRestarts interval 0 [] 0 items).Nodup := by
    refine List.nodup_cons.mpr ⟨fun hmem ↦ ?_, List.nodup_cons.mpr ⟨fun hmem ↦ ?_,
      hincreasing.imp fun h ↦ h.ne⟩⟩
    · rcases List.mem_cons.mp hmem with hone | hmem
      · cases hone
      · exact absurd (layoutRestarts_ge hpos hmem) (by decide)
    · exact absurd (layoutRestarts_ge hpos hmem) (by decide)
  have hsub : 0 :: 1 :: layoutRestarts interval 0 [] 0 items ⊆ List.range (2 ^ 32) := by
    intro start hstart
    refine List.mem_range.mpr ?_
    rcases List.mem_cons.mp hstart with rfl | hstart
    · norm_num
    · rcases List.mem_cons.mp hstart with rfl | hstart
      · norm_num
      · exact hvalues start hstart
  have hle := (hnodup.subperm hsub).length_le
  rw [List.length_range, List.length_cons, List.length_cons] at hle
  rw [List.length_cons]
  omega

/-- A layout with its restart points is accepted, and read back. -/
theorem decode_sealBlock_layout {interval : ℕ} (hpos : 0 < interval)
    {items : List (Bytes × Bytes)} (hkeys : items.Pairwise fun a b ↦ a.1 < b.1)
    (hvalues : ∀ start ∈ layoutRestarts interval 0 [] 0 items, start < 2 ^ 32)
    (hsize : (sealBlock (layout interval 0 [] items)
      (0 :: layoutRestarts interval 0 [] 0 items)).length < usizeRange) :
    ∃ found, decode (sealBlock (layout interval 0 [] items)
        (0 :: layoutRestarts interval 0 [] 0 items))
      = .ok ⟨layout interval 0 [] items, 0 :: layoutRestarts interval 0 [] 0 items, found.length⟩ ∧
      Scanned (layout interval 0 [] items)
        (0 :: layoutRestarts interval 0 [] 0 items) 0 [] 0 found ∧
      found.map DecodedEntry.item = items := by
  have hentries : (layout interval 0 [] items).length < usizeRange := by
    rw [length_sealBlock] at hsize
    omega
  obtain ⟨hincreasing, hbounds⟩ := layoutRestarts_spec interval 0 [] 0 items
  have hrestarts : ∀ start ∈ 0 :: layoutRestarts interval 0 [] 0 items, 0 ≤ start →
      start ∈ layoutRestarts interval 0 [] 0 items ∨ start = 0 ∧ ([] : Bytes) = [] := by
    intro start hstart _
    rcases List.mem_cons.mp hstart with rfl | hstart
    · exact .inr ⟨rfl, rfl⟩
    · exact .inl hstart
  obtain ⟨found, hscanned, hitems, hstarts⟩ := @scanned_layout interval _
    (0 :: layoutRestarts interval 0 [] 0 items) hentries items 0 0 0 [] rfl (Nat.zero_le _)
    (Nat.zero_le _) ⟨fun hne ↦ absurd rfl hne, hkeys⟩ hrestarts
  refine ⟨found, decode_sealBlock hsize (length_restarts_lt hpos hvalues) ?_ rfl ?_ (fun hnil ↦ ?_)
    (fun hne start hstart ↦ ?_) hscanned fun hne start hstart ↦ ?_, hscanned, hitems⟩
  · exact List.forall_mem_cons.mpr ⟨by norm_num, hvalues⟩
  · refine List.pairwise_cons.mpr ⟨fun start hstart ↦ ?_, hincreasing⟩
    exact lt_of_lt_of_le (by decide) (layoutRestarts_ge hpos hstart)
  · -- Without entry bytes a restart point has nowhere to lie.
    rw [List.cons.injEq]
    refine ⟨rfl, List.eq_nil_iff_forall_not_mem.mpr fun start hstart ↦ ?_⟩
    have := hbounds start hstart
    rw [hnil, List.length_nil] at this
    omega
  · rcases List.mem_cons.mp hstart with rfl | hstart
    · exact List.length_pos_iff.mpr hne
    · have := (hbounds start hstart).2
      omega
  · rcases List.mem_cons.mp hstart with rfl | hstart
    · cases hscanned with
      | nil hend => exact absurd (List.length_eq_zero_iff.mp hend.symm) hne
      | cons => exact List.mem_cons_self ..
    · exact hstarts hstart

namespace BlockBuilder

/-- A builder without entries. -/
def fresh (restartInterval : ℕ) : BlockBuilder := ⟨restartInterval, 0, [], [0], [], 0⟩

theorem tryNew_eq_ok {restartInterval : ℕ} {builder : BlockBuilder} :
    tryNew restartInterval = .ok builder ↔
      0 < restartInterval ∧ builder = fresh restartInterval := by
  unfold tryNew
  split_ifs with hzero
  · exact iff_of_false nofun fun h ↦ absurd hzero h.1.ne'
  · exact ⟨fun h ↦ ⟨Nat.pos_of_ne_zero hzero, (Except.ok.inj h).symm⟩,
      fun h ↦ congrArg Except.ok h.2.symm⟩

/-- The bytes of a finished block. -/
theorem finish_afterAll (restartInterval : ℕ) (items : List (Bytes × Bytes)) :
    ((fresh restartInterval).afterAll items).finish
      = sealBlock (layout restartInterval 0 [] items)
        (0 :: layoutRestarts restartInterval 0 [] 0 items) := by
  rw [finish, entries_afterAll, restarts_afterAll]
  rfl

/-- **Round trip.** Entries with increasing keys are accepted by the builder if their bytes stay
below `2 ^ 32`; the finished block is accepted by the decoder, and iterates over the same
entries. -/
theorem decode_finish {restartInterval : ℕ} (hpos : 0 < restartInterval)
    {items : List (Bytes × Bytes)} (hkeys : items.Pairwise fun a b ↦ a.1 < b.1)
    (hsize : (layout restartInterval 0 [] items).length < 2 ^ 32) :
    ∃ builder block,
      (tryNew restartInterval >>= fun builder ↦ builder.addAll items) = .ok builder ∧
      builder.entries = layout restartInterval 0 [] items ∧
      decode builder.finish = .ok block ∧ block.iter.drain = items.map .ok := by
  have hvalues : ∀ start ∈ layoutRestarts restartInterval 0 [] 0 items, start < 2 ^ 32 := by
    intro start hstart
    have := (layoutRestarts_spec restartInterval 0 [] 0 items).2 start hstart
    omega
  have hadded := addAll_eq_ok.mpr
    ⟨⟨fun hne ↦ absurd rfl hne, hkeys⟩, hvalues, (rfl : (fresh restartInterval).afterAll items = _)⟩
  have hrange : 2 ^ 32 * 8 < usizeRange := by decide
  have hcount := length_restarts_lt hpos hvalues
  obtain ⟨found, hdecode, hscanned, hitems⟩ := decode_sealBlock_layout hpos hkeys hvalues
    (by rw [length_sealBlock]; omega)
  refine ⟨(fresh restartInterval).afterAll items, ⟨layout restartInterval 0 [] items,
    0 :: layoutRestarts restartInterval 0 [] 0 items, found.length⟩, ?_, ?_, ?_, ?_⟩
  · rw [tryNew_eq_ok.mpr ⟨hpos, rfl⟩]
    exact hadded
  · rw [entries_afterAll]
    rfl
  · rw [finish_afterAll, hdecode]
  · refine (Scanned.drain hscanned).trans ?_
    conv_rhs => rw [← hitems, List.map_map]
    rfl

/-- A restart point at every entry, after an empty first key. -/
theorem decode_finish_everyEntry :
    ∃ builder block, (tryNew 1 >>= fun builder ↦ builder.addAll
        [([], [7]), ([1], []), ([1, 2], [3, 4])]) = .ok builder ∧
      builder.entries = layout 1 0 [] [([], [7]), ([1], []), ([1, 2], [3, 4])] ∧
      decode builder.finish = .ok block ∧
      block.iter.drain = [([], [7]), ([1], []), ([1, 2], [3, 4])].map .ok :=
  decode_finish (by decide) (by decide) (by decide +kernel)

end BlockBuilder

end MeteorDB
