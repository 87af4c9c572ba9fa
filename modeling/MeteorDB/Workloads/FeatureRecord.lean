import MeteorDB.Lib.Attempt
import MeteorDB.Lib.Wire
import MeteorDB.Workloads.FeatureStore

/-!
# Building feature rows

A row is built by `insert`, which admits a value if the row that results can be stored. The check is
a bound on the size of the encoded row, summed over the row as it will be: with the new value in
place of the old one where the name is there already, and after the others where it is not. Encoding
sums the same bound over the row as it is, in the order of the names, and then checks the real size;
decoding checks all of it again.

The sums agree because they add the same sizes (`featureSize`) in another order, and the bound is
one because it is taken piece by piece over the wire format of the serialization library
(`length_recordWire_le`). So a row never leaves the set of rows that can be stored.
-/

namespace MeteorDB

open ByteString OrderedList Decoder Attempt FeatureStore

namespace FeatureRecord

/-! ## Inserting -/

def contains (record : FeatureRecord) (name : Bytes) : Bool :=
  record.features.any (·.1 = name)

/-- The bound on the size of the row with a value inserted. -/
def projectedRecordEncodedUpperBound (record : FeatureRecord) (insertedName : Bytes)
    (insertedValue : FeatureValue) : Result ℕ := do
  let replacing := contains record insertedName
  match checkedAdd record.features.length (if replacing then 0 else 1) with
  | none => throw (.invalidArgument "feature count overflow")
  | some featureCount =>
    let size ← record.features.foldlM (fun size feature ↦ checkedFeatureSizeAdd size feature.1
      (if feature.1 = insertedName then insertedValue else feature.2))
      (postcardVarintLen featureCount)
    if replacing then return size else checkedFeatureSizeAdd size insertedName insertedValue

/-- Adds or replaces a named value. -/
def insert (name : Bytes) (value : FeatureValue) : Attempt FeatureRecord Error Unit := do
  validateFeature name value
  let record ← get
  if ¬ contains record name ∧ maxFeatureCount ≤ record.features.length then
    throw (.invalidArgument ("feature count exceeds the " ++ toString maxFeatureCount ++ " limit"))
  else
    let projectedSize ← projectedRecordEncodedUpperBound record name value
    if maxFeatureValueBytes < projectedSize then
      throw (.invalidArgument ("encoded feature row may require " ++ toString projectedSize
        ++ " bytes, exceeding the " ++ toString maxFeatureValueBytes ++ " limit"))
    else
      modify fun record ↦
        ⟨OrderedList.insert Prod.fst (name, value) record.features, record.increasing.insert⟩

/-- The row after a sequence of insertions, rejected ones included. -/
def insertAll (values : List (Bytes × FeatureValue)) : FeatureRecord :=
  values.foldl (fun record value ↦ ((insert value.1 value.2).exec record).2) new

/-! ## The wire format of a row -/

/-- The index of a variant. -/
def variantIndex : FeatureValue → Byte
  | .null => 0
  | .bool _ => 1
  | .i64 _ => 2
  | .f64 _ => 3
  | .bytes _ => 4
  | .string _ => 5

/-- What a variant holds. -/
def variantWire : FeatureValue → Bytes
  | .null => []
  | .bool value => [if value then 1 else 0]
  | .i64 value => Varint.encode (Wire.zigzag value.toInt)
  | .f64 bits => leBytes 8 bits.toNat
  | .bytes value => Wire.bytes value
  | .string value => Wire.bytes (utf8 value)

/-- A value: the index of its variant in one byte, then what the variant holds. -/
def valueWire (value : FeatureValue) : Bytes := variantIndex value :: variantWire value

def featureWire (feature : Bytes × FeatureValue) : Bytes :=
  Wire.bytes feature.1 ++ valueWire feature.2

def recordWire (record : FeatureRecord) : Bytes := Wire.seq featureWire record.features

/-! ## Sizes -/

/-- The bound on what a value takes after its variant index. -/
def valueSize : FeatureValue → ℕ
  | .null => 0
  | .bool _ => 1
  | .i64 _ => 10
  | .f64 _ => 8
  | .bytes value => postcardVarintLen value.length + value.length
  | .string value => postcardVarintLen value.utf8ByteSize + value.utf8ByteSize

/-- The bound on what a named value takes. -/
def featureSize (feature : Bytes × FeatureValue) : ℕ :=
  postcardVarintLen feature.1.length + feature.1.length + 1 + valueSize feature.2

/-- The bound on what a list of named values takes. -/
def featuresSize (features : List (Bytes × FeatureValue)) : ℕ := (features.map featureSize).sum

private theorem length_varint_eq_postcardVarintLen (n : ℕ) :
    (Varint.encode n).length = postcardVarintLen n := by
  induction n using Nat.strong_induction_on with
  | _ n ih =>
    rw [postcardVarintLen]
    split_ifs with h
    · rw [Varint.encode_of_lt h]
      rfl
    · rw [Varint.encode_of_le (by omega), List.length_cons, ih (n / 128) (by omega)]

private theorem featureValueEncodedUpperBound_eq_ok {value : FeatureValue} {size : ℕ} :
    featureValueEncodedUpperBound value = .ok size ↔
      size = valueSize value ∧ size < usizeRange := by
  have hlength (length : ℕ) : featureValueEncodedUpperBound.lengthUpperBound length = .ok size ↔
      size = postcardVarintLen length + length ∧ size < usizeRange := by
    unfold featureValueEncodedUpperBound.lengthUpperBound checkedAdd
    split_ifs with h
    · simp only [Except.ok.injEq]
      omega
    · simp only [false_iff]
      omega
  have hfixed (fixed : ℕ) (h : fixed < usizeRange) :
      (.ok fixed : Result ℕ) = .ok size ↔ size = fixed ∧ size < usizeRange := by
    rw [Except.ok.injEq]
    omega
  cases value with
  | null => exact hfixed 0 (by decide)
  | bool => exact hfixed 1 (by decide)
  | i64 => exact hfixed 10 (by decide)
  | f64 => exact hfixed 8 (by decide)
  | bytes value => exact hlength _
  | string value => exact hlength _

/-- The chain of checked additions overflows exactly if the whole sum does. -/
theorem checkedFeatureSizeAdd_eq_ok {current size : ℕ} {name : Bytes} {value : FeatureValue} :
    checkedFeatureSizeAdd current name value = .ok size ↔
      size = current + featureSize (name, value) ∧ size < usizeRange := by
  rw [checkedFeatureSizeAdd, bind_eq_ok]
  simp only [featureValueEncodedUpperBound_eq_ok, featureSize]
  constructor
  · rintro ⟨valueSize, ⟨rfl, hvalue⟩, h⟩
    split at h
    case h_1 total htotal =>
      obtain rfl := Except.ok.inj h
      simp only [Option.bind_eq_bind, Option.bind_eq_some_iff, checkedAdd_eq_some] at htotal
      omega
    case h_2 => cases h
  · rintro ⟨rfl, h⟩
    refine ⟨_, ⟨rfl, by omega⟩, ?_⟩
    have htotal : (checkedAdd current (postcardVarintLen name.length)
        >>= (checkedAdd · name.length) >>= (checkedAdd · 1) >>= (checkedAdd · (valueSize value)))
          = some (current
            + (postcardVarintLen name.length + name.length + 1 + valueSize value)) := by
      simp only [Option.bind_eq_bind, Option.bind_eq_some_iff, checkedAdd_eq_some]
      exact ⟨_, ⟨_, ⟨_, ⟨rfl, by omega⟩, rfl, by omega⟩, rfl, by omega⟩, by omega, by omega⟩
    rw [htotal]
    rfl

private theorem featuresSize_cons (feature : Bytes × FeatureValue)
    (features : List (Bytes × FeatureValue)) :
    featuresSize (feature :: features) = featureSize feature + featuresSize features := by
  rw [featuresSize, List.map_cons, List.sum_cons]
  rfl

private theorem foldlM_checkedFeatureSizeAdd {features : List (Bytes × FeatureValue)}
    {current size : ℕ}
    (h : features.foldlM (fun size feature ↦ checkedFeatureSizeAdd size feature.1 feature.2) current
      = .ok size) : size = current + featuresSize features := by
  induction features generalizing current with
  | nil => exact (Except.ok.inj h).symm
  | cons feature features ih =>
    rw [List.foldlM_cons] at h
    obtain ⟨next, hnext, h⟩ := bind_eq_ok.mp h
    obtain ⟨rfl, -⟩ := checkedFeatureSizeAdd_eq_ok.mp hnext
    rw [ih h, featuresSize_cons, Nat.add_assoc]

private theorem foldlM_checkedFeatureSizeAdd_of_lt {features : List (Bytes × FeatureValue)}
    {current : ℕ} (h : current + featuresSize features < usizeRange) :
    features.foldlM (fun size feature ↦ checkedFeatureSizeAdd size feature.1 feature.2) current
      = .ok (current + featuresSize features) := by
  induction features generalizing current with
  | nil => rfl
  | cons feature features ih =>
    rw [featuresSize_cons, ← Nat.add_assoc] at h ⊢
    have hnext : checkedFeatureSizeAdd current feature.1 feature.2
        = .ok (current + featureSize feature) := checkedFeatureSizeAdd_eq_ok.mpr ⟨rfl, by omega⟩
    rw [List.foldlM_cons, hnext]
    exact ih h

/-! ## What an insertion does -/

private theorem contains_iff {record : FeatureRecord} {name : Bytes} :
    contains record name = true ↔ name ∈ record.features.map Prod.fst := by
  simp [contains]

/-- The values of a row with the one of a name exchanged. -/
def replaced (record : FeatureRecord) (name : Bytes) (value : FeatureValue) :
    List (Bytes × FeatureValue) :=
  record.features.map fun feature ↦ (feature.1, if feature.1 = name then value else feature.2)

private theorem replaced_of_notMem {record : FeatureRecord} {name : Bytes} {value : FeatureValue}
    (h : contains record name = false) : replaced record name value = record.features := by
  refine (List.map_congr_left fun feature hfeature ↦ ?_).trans (List.map_id' _)
  have hname : feature.1 ≠ name := fun hname ↦
    Bool.eq_false_iff.mp h (contains_iff.mpr (List.mem_map.mpr ⟨feature, hfeature, hname⟩))
  rw [if_neg hname]

/-- Inserting exchanges one value or adds one. -/
theorem insert_perm_replaced (record : FeatureRecord) (name : Bytes) (value : FeatureValue) :
    (OrderedList.insert Prod.fst (name, value) record.features).Perm
      (replaced record name value ++ if contains record name then [] else [(name, value)]) := by
  split_ifs with hmem
  · rw [record.increasing.insert_of_mem (contains_iff.mp hmem), List.append_nil]
    refine .of_eq (List.map_congr_left fun feature _ ↦ ?_)
    by_cases hname : feature.1 = name
    · rw [if_pos hname, if_pos hname, hname]
    · rw [if_neg hname, if_neg hname]
  · rw [replaced_of_notMem (Bool.eq_false_iff.mpr hmem)]
    exact (insert_perm fun h ↦ hmem (contains_iff.mpr h)).trans
      (List.perm_append_singleton _ _).symm

/-- The projected bound is that of the row after the insertion. -/
theorem projectedRecordEncodedUpperBound_eq_ok {record : FeatureRecord} {name : Bytes}
    {value : FeatureValue} {size : ℕ}
    (h : projectedRecordEncodedUpperBound record name value = .ok size) :
    let features := OrderedList.insert Prod.fst (name, value) record.features
    size = postcardVarintLen features.length + featuresSize features := by
  intro features
  have hperm : features.Perm _ := insert_perm_replaced record name value
  rw [hperm.length_eq, show featuresSize features = _ from (hperm.map featureSize).sum_eq,
    List.map_append, List.sum_append, List.length_append]
  unfold projectedRecordEncodedUpperBound at h
  cases hcount : checkedAdd record.features.length
      (if contains record name = true then 0 else 1) with
  | none =>
    simp only [hcount] at h
    cases h
  | some count =>
    simp only [hcount] at h
    obtain ⟨rfl, -⟩ := checkedAdd_eq_some.mp hcount
    obtain ⟨total, htotal, h⟩ := bind_eq_ok.mp h
    have hfold : (replaced record name value).foldlM
        (fun size feature ↦ checkedFeatureSizeAdd size feature.1 feature.2)
        (postcardVarintLen
          (record.features.length + if contains record name = true then 0 else 1))
          = .ok total := by
      rw [replaced, List.foldlM_map]
      exact htotal
    have hlength : (replaced record name value).length = record.features.length := List.length_map _
    have hsum := foldlM_checkedFeatureSizeAdd hfold
    split_ifs at h hsum ⊢ with hmem
    · obtain rfl := Except.ok.inj h
      rw [hsum, hlength]
      rfl
    · obtain ⟨rfl, -⟩ := checkedFeatureSizeAdd_eq_ok.mp h
      rw [hsum, hlength, List.map_singleton, List.sum_singleton, ← Nat.add_assoc]
      rfl

/-- What makes a row one that can be stored. -/
structure Storable (features : List (Bytes × FeatureValue)) : Prop where
  count_le : features.length ≤ maxFeatureCount
  valid : ∀ feature ∈ features, validateFeature feature.1 feature.2 = .ok ()
  size_le : postcardVarintLen features.length + featuresSize features ≤ maxFeatureValueBytes

private theorem validateRecord_eq_ok {record : FeatureRecord} (h : Storable record.features) :
    validateRecord record = .ok () := by
  have hsize := h.size_le
  have hmax : maxFeatureValueBytes < usizeRange := by decide
  rw [validateRecord, if_neg h.count_le.not_gt, forM_eq_ok.mpr h.valid, recordEncodedUpperBound,
    foldlM_checkedFeatureSizeAdd_of_lt (by omega)]
  exact if_neg hsize.not_gt

/-- An insertion is rejected and leaves the row alone, or leads to a row that can be stored. -/
theorem insert_exec (record : FeatureRecord) (name : Bytes) (value : FeatureValue) :
    wp (insert name value) (fun result after ↦
      match result with
      | .error _ => after = record
      | .ok _ => Storable record.features → Storable after.features) record := by
  rw [insert, wp_bind, wp_lift]
  cases hvalid : validateFeature name value with
  | error error => rfl
  | ok _ =>
    simp only
    rw [wp_bind, wp_get]
    simp only
    rw [wp_ite]
    refine ⟨fun _ ↦ rfl, fun hcount ↦ ?_⟩
    rw [wp_bind, wp_lift]
    cases hsize : projectedRecordEncodedUpperBound record name value with
    | error error => rfl
    | ok size =>
      simp only
      rw [wp_ite]
      refine ⟨fun _ ↦ rfl, fun hle ↦ ?_⟩
      rw [wp_modify]
      intro hrecord
      have hperm := insert_perm_replaced record name value
      refine ⟨?_, fun feature hfeature ↦ ?_, ?_⟩
      · rw [hperm.length_eq, List.length_append, replaced, List.length_map]
        have hbefore := hrecord.count_le
        split_ifs with hmem
        · exact hbefore
        · exact Nat.succ_le_of_lt (not_le.mp fun hle ↦ hcount ⟨hmem, hle⟩)
      · rcases (mem_insert record.increasing).mp hfeature with rfl | ⟨hmem, -⟩
        · exact hvalid
        · exact hrecord.valid feature hmem
      · rw [← projectedRecordEncodedUpperBound_eq_ok hsize]
        exact not_lt.mp hle

private theorem storable_insertAll (values : List (Bytes × FeatureValue)) :
    Storable (insertAll values).features := by
  have hrun (record : FeatureRecord) (h : Storable record.features) :
      Storable (values.foldl
        (fun record value ↦ ((insert value.1 value.2).exec record).2) record).features := by
    induction values generalizing record with
    | nil => exact h
    | cons value values ih =>
      rw [List.foldl_cons]
      refine ih _ ?_
      have hstep := insert_exec record value.1 value.2
      rw [wp] at hstep
      cases hresult : ((insert value.1 value.2).exec record).1 with
      | error error =>
        simp only [hresult] at hstep
        rwa [hstep]
      | ok _ =>
        simp only [hresult] at hstep
        exact hstep h
  exact hrun _ ⟨by decide, fun _ h ↦ absurd h List.not_mem_nil, by decide +kernel⟩

/-! ## The bound is one -/

private theorem length_utf8 (text : String) : (utf8 text).length = text.utf8ByteSize := by
  rw [utf8, List.length_map, Array.length_toList]
  rfl

private theorem length_variantWire_le (value : FeatureValue) :
    (variantWire value).length ≤ valueSize value := by
  cases value with
  | null => exact le_rfl
  | bool value => exact le_rfl
  | i64 value =>
    have hlt := Wire.zigzag_lt (w := 63) value.le_toInt value.toInt_lt
    exact Varint.length_encode_le (hlt.trans (by decide))
  | f64 bits => rw [variantWire, length_leBytes, valueSize]
  | bytes value =>
    rw [variantWire, Wire.length_bytes, length_varint_eq_postcardVarintLen, valueSize]
  | string value =>
    rw [variantWire, Wire.length_bytes, length_varint_eq_postcardVarintLen, length_utf8, valueSize]

private theorem length_featureWire_le (feature : Bytes × FeatureValue) :
    (featureWire feature).length ≤ featureSize feature := by
  have hvalue := length_variantWire_le feature.2
  rw [featureWire, List.length_append, Wire.length_bytes, length_varint_eq_postcardVarintLen,
    valueWire, List.length_cons, featureSize]
  omega

private theorem length_recordWire_le (record : FeatureRecord) :
    (recordWire record).length
      ≤ postcardVarintLen record.features.length + featuresSize record.features := by
  rw [recordWire, Wire.length_seq, length_varint_eq_postcardVarintLen]
  exact Nat.add_le_add_left (List.sum_le_sum fun feature _ ↦ length_featureWire_le feature) _

/-! ## The format can be read back -/

private theorem utf8_injective : Function.Injective utf8 := by
  intro a b h
  have hbytes := List.map_injective_iff.mpr (fun x y ↦ UInt8.toFin_inj.mp) h
  exact String.toByteArray_inj.mp (ByteArray.ext (Array.toList_inj.mp hbytes))

private theorem selfDelimiting_valueWire : SelfDelimiting Set.univ valueWire := by
  intro a ha b hb x y h
  obtain ⟨hindex, hrest⟩ := List.cons.inj h
  clear h ha hb
  -- Values of different variants already differ in the first byte.
  cases a <;> cases b <;> try (simp [variantIndex] at hindex; done)
  case null.null => exact ⟨rfl, hrest⟩
  case bool.bool a b =>
    obtain ⟨hbit, htail⟩ := List.cons.inj hrest
    refine ⟨?_, htail⟩
    cases a <;> cases b <;> first | rfl | exact absurd hbit (by decide)
  case i64.i64 a b =>
    obtain ⟨hzigzag, htail⟩ := Wire.selfDelimiting_varint trivial trivial hrest
    rw [Int64.toInt_inj.mp (Wire.zigzag_injective hzigzag)]
    exact ⟨rfl, htail⟩
  case f64.f64 a b =>
    obtain ⟨hbits, htail⟩ := List.append_inj hrest
      ((length_leBytes _ _).trans (length_leBytes _ _).symm)
    have hnat : leNat (leBytes 8 a.toNat) = leNat (leBytes 8 b.toNat) := congrArg leNat hbits
    rw [leNat_leBytes_of_lt a.isLt, leNat_leBytes_of_lt b.isLt] at hnat
    rw [BitVec.eq_of_toNat_eq hnat]
    exact ⟨rfl, htail⟩
  case bytes.bytes a b =>
    obtain ⟨rfl, htail⟩ := Wire.selfDelimiting_bytes trivial trivial hrest
    exact ⟨rfl, htail⟩
  case string.string a b =>
    obtain ⟨htext, htail⟩ := Wire.selfDelimiting_bytes trivial trivial hrest
    rw [utf8_injective htext]
    exact ⟨rfl, htail⟩

private theorem recordWire_injective : Function.Injective recordWire := by
  have hfeature : SelfDelimiting Set.univ featureWire := fun _ _ _ _ ↦
    (Wire.selfDelimiting_bytes.prod selfDelimiting_valueWire) ⟨trivial, trivial⟩ ⟨trivial, trivial⟩
  rintro ⟨features, _⟩ ⟨features', _⟩ h
  obtain ⟨rfl, -⟩ := Wire.selfDelimiting_seq hfeature trivial trivial (congrArg (· ++ []) h)
  rfl

/-- There is a library that writes rows in the wire format. -/
@[reducible] noncomputable def rowLibrary : PostcardWire FeatureRecord recordWire :=
  .ofInjective recordWire_injective

/-! ## Rows can be stored -/

section Storing

variable [PostcardWire FeatureRecord recordWire]

private theorem encodeRecord_of_storable {record : FeatureRecord} (h : Storable record.features) :
    FeatureStore.encodeRecord record = .ok (recordSchemaVersion :: recordWire record) := by
  have hlength := (length_recordWire_le record).trans h.size_le
  rw [FeatureStore.encodeRecord, validateRecord_eq_ok h, PostcardWire.toAllocvec_eq]
  exact if_neg hlength.not_gt

/-- **Rows built by insertions can be stored.** However a row came about, a rejected insertion
leaves it as it was, and it is encoded and decoded again without a change. -/
theorem insertAll_storable (values : List (Bytes × FeatureValue)) :
    (∀ name value error after,
      (insert name value).exec (insertAll values) = (.error error, after) →
        after = insertAll values) ∧
    ∃ bytes, FeatureStore.encodeRecord (insertAll values) = .ok bytes ∧
      FeatureStore.decodeRecord bytes = .ok (insertAll values) := by
  refine ⟨fun name value error after h ↦ ?_, ?_⟩
  · exact wp_of_exec (insert_exec (insertAll values) name value) h
  · have hencode := encodeRecord_of_storable (storable_insertAll values)
    exact ⟨_, hencode, decodeRecord_of_encodeRecord hencode⟩

end Storing

/-- A value that is replaced, and one that is rejected. -/
theorem insertAll_storable_replaced :
    let := rowLibrary
    let row := insertAll [([97], .i64 5), ([], .null), ([98], .bool true), ([97], .bytes [1, 2])]
    row.features = [([97], .bytes [1, 2]), ([98], .bool true)] ∧
      (∃ error, (insert [] .null).exec row = (.error error, row)) ∧
      ∃ bytes, FeatureStore.encodeRecord row = .ok bytes ∧
        FeatureStore.decodeRecord bytes = .ok row := by
  intro _ row
  obtain ⟨hrejected, hstored⟩ := insertAll_storable
    [([97], .i64 5), ([], .null), ([98], .bool true), ([97], .bytes [1, 2])]
  obtain ⟨error, herror⟩ : ∃ error, ((insert [] .null).exec row).1 = .error error := ⟨_, rfl⟩
  have hexec : (insert [] .null).exec row = (.error error, ((insert [] .null).exec row).2) :=
    Prod.ext herror rfl
  refine ⟨by decide +kernel, ⟨error, ?_⟩, hstored⟩
  exact hexec.trans (congrArg _ (hrejected _ _ _ _ hexec))

end FeatureRecord

/-! ## Rows of two groups -/

private def tenantStore : FeatureStore := ⟨[1], by decide⟩

/-- A row with one value, written in the wire format. -/
private noncomputable def flagRow (key : FeatureKey) (flag : Bool)
    (hkey : tenantStore.encodeKey key = .ok (featureGroupBytes [1] key.entityType key.entityId
      key.featureGroup ++ encodeTime key.eventTime)) :
    @StoredRow FeatureRecord.rowLibrary.toPostcard :=
  let := FeatureRecord.rowLibrary
  { store := tenantStore
    key
    record := FeatureRecord.insertAll [([97], .bool flag)]
    keyBytes := _
    recordBytes := _
    encodeKey_eq := hkey
    encodeRecord_eq := FeatureRecord.encodeRecord_of_storable (FeatureRecord.storable_insertAll _) }

private noncomputable def oldRow := flagRow ⟨[2], [0], [4], Int64.minValue⟩ true rfl

private noncomputable def newRow := flagRow ⟨[2], [0], [4], -1⟩ false rfl

/-- A later row of another group. -/
private noncomputable def otherRow := flagRow ⟨[2], [0], [5], 7⟩ true rfl

/-- Two rows of one group, at the smallest and at a negative time, and a later row of another
group. -/
theorem featureStore_queries_exact_twoGroups :
    let := FeatureRecord.rowLibrary
    ∃ live, StoresRows live [oldRow, newRow, otherRow] ∧
      tenantStore.history live [2] [0] [4] Int64.minValue Int64.maxValue 5
        = .ok [(oldRow.key, oldRow.record), (newRow.key, newRow.record)] ∧
      tenantStore.asOf live [2] [0] [4] (-2) = .ok (some (oldRow.key, oldRow.record)) ∧
      tenantStore.latest live [2] [0] [4] = .ok (some (newRow.key, newRow.record)) := by
  intro _
  let live : LivePairs := ⟨[oldRow, newRow, otherRow].map StoredRow.pair, by decide +kernel⟩
  have hrows : StoresRows live [oldRow, newRow, otherRow] :=
    ⟨fun pair ↦ List.mem_map, by decide +kernel, by decide⟩
  have hgroup : tenantStore.encodeGroupPrefix [2] [0] [4]
      = .ok (featureGroupBytes [1] [2] [0] [4]) := rfl
  have hin (row : StoredRow) : row ∈ [oldRow, newRow, otherRow] ∧
      row.InGroup tenantStore.nameSpace [2] [0] [4] ↔
        row = oldRow ∨ row = newRow := by
    constructor
    · rintro ⟨hrow, hgroup⟩
      rcases List.mem_cons.mp hrow with rfl | hrow
      · exact .inl rfl
      rcases List.mem_cons.mp hrow with rfl | hrow
      · exact .inr rfl
      · rw [List.mem_singleton.mp hrow] at hgroup
        exact absurd hgroup.2.2.2 (by decide)
    · rintro (rfl | rfl)
      · exact ⟨List.mem_cons_self .., rfl, rfl, rfl, rfl⟩
      · exact ⟨List.mem_cons_of_mem _ (List.mem_cons_self ..), rfl, rfl, rfl, rfl⟩
  obtain ⟨hhistory, hasOf, hlatest⟩ := featureStore_queries_exact hrows hgroup
  refine ⟨live, hrows, ?_, ?_, ?_⟩
  · obtain ⟨matching, hmem, hsorted, heq⟩ := hhistory Int64.minValue Int64.maxValue 5
    have hincreasing : Increasing (fun row : StoredRow ↦ row.key.eventTime.toInt) matching :=
      hsorted.imp fun hlt ↦ Int64.lt_iff_toInt_lt.mp hlt
    have hboth : Increasing (fun row : StoredRow ↦ row.key.eventTime.toInt) [oldRow, newRow] :=
      List.pairwise_pair.mpr (by decide +kernel)
    have hmatching : matching = [oldRow, newRow] := hincreasing.ext hboth fun row ↦ by
      rw [hmem, ← and_assoc, hin, List.mem_pair]
      exact and_iff_left ⟨Int64.minValue_le _, Int64.le_maxValue _⟩
    rw [heq, hmatching]
    rfl
  · obtain ⟨found, heq, hfound, hnone⟩ := hasOf (-2)
    cases found with
    | none =>
      obtain ⟨hmem, hgroup⟩ := (hin oldRow).mpr (.inl rfl)
      exact absurd (by decide +kernel) (hnone rfl oldRow hmem hgroup)
    | some row =>
      obtain ⟨hmem, hgroup, hle, -⟩ := hfound row rfl
      rcases (hin row).mp ⟨hmem, hgroup⟩ with rfl | rfl
      · exact heq
      · exact absurd hle (by decide +kernel)
  · obtain ⟨found, heq, hfound, hnone⟩ := hlatest
    obtain ⟨hmem, hgroup⟩ := (hin newRow).mpr (.inr rfl)
    cases found with
    | none => exact absurd hgroup (hnone rfl newRow hmem)
    | some row =>
      obtain ⟨hmem', hgroup', hnewest⟩ := hfound row rfl
      rcases (hin row).mp ⟨hmem', hgroup'⟩ with rfl | rfl
      · exact absurd (hnewest newRow hmem hgroup) (by decide +kernel)
      · exact heq

end MeteorDB
