import MeteorDB.Iter
import MeteorDB.Workloads.Fields

/-!
# The feature store

Feature rows are engine pairs. The key of a row is the escaped namespace, entity and group, followed
by the event time with its sign bit flipped in big-endian order, so that the rows of one group lie
together and in the order of their signed times. Time queries are scans between two such keys.

The engine enters as what its scans show: the live pairs in key order. Rows are stored through any
number of stores that share the engine; each carries the proof that its store accepted it. The
serialization of a record is a library's, and all that is used of it is that it reads back what it
wrote.
-/

namespace MeteorDB

open ByteString OrderedList Decoder

/-- A serialization library, for the values of one type. -/
class Postcard (α : Type) where
  toAllocvec : α → Except String Bytes
  takeFromBytes : Bytes → Except String (α × Bytes)
  takeFromBytes_toAllocvec : ∀ a bytes, toAllocvec a = .ok bytes → takeFromBytes bytes = .ok (a, [])

/-- A serialization library that writes the values of a type in a given format. -/
class PostcardWire (α : Type) (wire : outParam (α → Bytes)) extends Postcard α where
  toAllocvec_eq : ∀ a, toAllocvec a = .ok (wire a)

/-- A format in which different values differ has a library that writes it. -/
@[reducible] noncomputable def PostcardWire.ofInjective {α : Type} {wire : α → Bytes}
    (h : Function.Injective wire) : PostcardWire α wire where
  toAllocvec a := .ok (wire a)
  takeFromBytes bytes :=
    open Classical in
    if hex : ∃ a, wire a = bytes then .ok (hex.choose, []) else .error "no encoding"
  takeFromBytes_toAllocvec a bytes hbytes := by
    obtain rfl := Except.ok.inj hbytes
    have hex : ∃ b, wire b = wire a := ⟨a, rfl⟩
    rw [dif_pos hex, h hex.choose_spec]
  toAllocvec_eq _ := rfl

/-! ## Event times -/

/-- The sign bit of a 64-bit integer. -/
def signBit : UInt64 := (1 : UInt64) <<< 63

/-- An event time with its sign bit flipped, in big-endian order. -/
def encodeTime (time : Int64) : Bytes := beBytes 8 (time.toUInt64 ^^^ signBit).toNat

def decodeTime (bytes : Bytes) : Int64 := (UInt64.ofNat (beNat bytes) ^^^ signBit).toInt64

@[simp] theorem length_encodeTime (time : Int64) : (encodeTime time).length = 8 :=
  length_beBytes 8 _

private theorem xor_two_pow {n : ℕ} (h : n < 2 ^ 64) :
    n ^^^ 2 ^ 63 = if n < 2 ^ 63 then n + 2 ^ 63 else n - 2 ^ 63 := by
  have hdiv : (n ^^^ 2 ^ 63) / 2 ^ 63 = n / 2 ^ 63 ^^^ 1 := by
    rw [Nat.xor_div_two_pow, Nat.div_self (by decide)]
  have hmod : (n ^^^ 2 ^ 63) % 2 ^ 63 = n % 2 ^ 63 := by
    rw [Nat.xor_mod_two_pow, Nat.mod_self, Nat.xor_zero]
  have hsplit := Nat.div_add_mod (n ^^^ 2 ^ 63) (2 ^ 63)
  rw [hdiv, hmod] at hsplit
  split_ifs with hn
  · rw [Nat.div_eq_of_lt hn, Nat.zero_xor, Nat.mod_eq_of_lt hn] at hsplit
    omega
  · have hone : n / 2 ^ 63 = 1 := by omega
    rw [hone, Nat.xor_self] at hsplit
    omega

/-- Flipping the sign bit adds the same offset to every time. -/
theorem toNat_xor_signBit (time : Int64) :
    ((time.toUInt64 ^^^ signBit).toNat : ℤ) = time.toInt + 2 ^ 63 := by
  have hlt := time.toUInt64.toNat_lt
  have hint : time.toInt = if time.toUInt64.toNat < 2 ^ 63 then (time.toUInt64.toNat : ℤ)
      else time.toUInt64.toNat - 2 ^ 64 := by
    rw [← Int64.toInt_toBitVec, BitVec.toInt_eq_toNat_cond]
    show (if 2 * time.toUInt64.toNat < 2 ^ 64 then (time.toUInt64.toNat : ℤ)
      else time.toUInt64.toNat - (2 ^ 64 : ℕ)) = _
    split_ifs <;> omega
  rw [UInt64.toNat_xor, show signBit.toNat = 2 ^ 63 by decide, xor_two_pow hlt, hint]
  split_ifs <;> omega

private theorem encodeTime_lt {a b : Int64} : encodeTime a < encodeTime b ↔ a < b := by
  have ha := (a.toUInt64 ^^^ signBit).toNat_lt
  have hb := (b.toUInt64 ^^^ signBit).toNat_lt
  rw [encodeTime, encodeTime, beBytes_lt_beBytes (by omega) (by omega), Int64.lt_iff_toInt_lt]
  have hoffset := toNat_xor_signBit a
  have hoffset' := toNat_xor_signBit b
  omega

private theorem encodeTime_le {a b : Int64} : encodeTime a ≤ encodeTime b ↔ a ≤ b := by
  rw [← not_lt, encodeTime_lt, Int64.lt_iff_toInt_lt, Int64.le_iff_toInt_le, not_lt]

private theorem decodeTime_encodeTime (time : Int64) : decodeTime (encodeTime time) = time := by
  have hlt := (time.toUInt64 ^^^ signBit).toNat_lt
  rw [decodeTime, encodeTime, beNat_beBytes_of_lt (by omega), UInt64.ofNat_toNat]
  simp

/-! ## Rows -/

/-- The entity, group and event time of a row. -/
@[ext] structure FeatureKey where
  entityType : Bytes
  entityId : Bytes
  featureGroup : Bytes
  eventTime : Int64
  deriving DecidableEq

/-- A feature value. A float is given by its bits. -/
inductive FeatureValue where
  | null
  | bool (value : Bool)
  | i64 (value : Int64)
  | f64 (bits : BitVec 64)
  | bytes (value : Bytes)
  | string (value : String)
  deriving DecidableEq

/-- A row: named values in the order of their names. -/
structure FeatureRecord where
  features : List (Bytes × FeatureValue)
  increasing : Increasing Prod.fst features
  deriving DecidableEq

/-- An empty row. -/
def FeatureRecord.new : FeatureRecord := ⟨[], .nil⟩

namespace FeatureStore

def maxFeatureCount : ℕ := 1024

def maxFeatureNameBytes : ℕ := 16 * 1024

def maxFeatureValueBytes : ℕ := 16 * 1024 * 1024

/-- Whether the bits of a float are those of a finite number. -/
def isFinite (bits : BitVec 64) : Bool := (bits >>> 52) &&& 0x7ff#64 != 0x7ff#64

def validateFeature (name : Bytes) (value : FeatureValue) : Result Unit :=
  if name.isEmpty then .error (.invalidArgument "feature name must not be empty")
  else if maxFeatureNameBytes < name.length then
    .error (.invalidArgument ("feature name is " ++ toString name.length
      ++ " bytes, exceeding the " ++ toString maxFeatureNameBytes ++ " limit"))
  else
    match value with
    | .f64 bits =>
      if isFinite bits then .ok () else .error (.invalidArgument "feature floats must be finite")
    | .bytes value =>
      if maxFeatureValueBytes < value.length then
        .error (.invalidArgument "feature bytes exceed size limit")
      else .ok ()
    | .string value =>
      if maxFeatureValueBytes < value.utf8ByteSize then
        .error (.invalidArgument "feature string exceeds size limit")
      else .ok ()
    | _ => .ok ()

/-- The bytes of a number in groups of seven bits. -/
def postcardVarintLen (value : ℕ) : ℕ :=
  if value < 128 then 1 else postcardVarintLen (value / 128) + 1

def sizeOverflow : Error := .invalidArgument "encoded feature row size overflow"

def featureValueEncodedUpperBound : FeatureValue → Result ℕ
  | .null => .ok 0
  | .bool _ => .ok 1
  | .i64 _ => .ok 10
  | .f64 _ => .ok 8
  | .bytes value => lengthUpperBound value.length
  | .string value => lengthUpperBound value.utf8ByteSize
where
  lengthUpperBound (length : ℕ) : Result ℕ :=
    match checkedAdd (postcardVarintLen length) length with
    | some size => .ok size
    | none => .error sizeOverflow

def checkedFeatureSizeAdd (current : ℕ) (name : Bytes) (value : FeatureValue) : Result ℕ := do
  let valueSize ← featureValueEncodedUpperBound value
  let size := checkedAdd current (postcardVarintLen name.length)
    >>= (checkedAdd · name.length) >>= (checkedAdd · 1) >>= (checkedAdd · valueSize)
  match size with
  | some size => return size
  | none => throw sizeOverflow

def recordEncodedUpperBound (record : FeatureRecord) : Result ℕ :=
  record.features.foldlM (fun size feature ↦ checkedFeatureSizeAdd size feature.1 feature.2)
    (postcardVarintLen record.features.length)

def validateRecord (record : FeatureRecord) : Result Unit :=
  if maxFeatureCount < record.features.length then
    .error (.invalidArgument ("feature count exceeds the " ++ toString maxFeatureCount ++ " limit"))
  else do
    record.features.forM fun feature ↦ validateFeature feature.1 feature.2
    let encodedUpperBound ← recordEncodedUpperBound record
    if maxFeatureValueBytes < encodedUpperBound then
      throw (.invalidArgument ("encoded feature row may require " ++ toString encodedUpperBound
        ++ " bytes, exceeding the " ++ toString maxFeatureValueBytes ++ " limit"))
    else return ()

def recordCorruption (detail : String) : Error := .corruption "feature-store record" detail

def recordSchemaVersion : Byte := 1

section Records

variable [Postcard FeatureRecord]

def encodeRecord (record : FeatureRecord) : Result Bytes := do
  validateRecord record
  let body ← (Postcard.toAllocvec record).mapError fun error ↦
    Error.invalidArgument ("could not encode feature row: " ++ error)
  if maxFeatureValueBytes < body.length then
    throw (.invalidArgument ("encoded feature row is " ++ toString body.length
      ++ " bytes, exceeding the " ++ toString maxFeatureValueBytes ++ " limit"))
  else return recordSchemaVersion :: body

def decodeRecord : Bytes → Result FeatureRecord
  | [] => .error (recordCorruption "missing schema version")
  | version :: body =>
    if version ≠ recordSchemaVersion then
      .error (.unsupportedFormat "feature-store record" version.val)
    else if maxFeatureValueBytes < body.length then
      .error (recordCorruption "serialized feature row exceeds size limit")
    else do
      let (record, trailing) ← (Postcard.takeFromBytes (α := FeatureRecord) body).mapError
        fun error ↦ recordCorruption ("invalid postcard body: " ++ error)
      if trailing ≠ [] then throw (recordCorruption "trailing bytes after postcard body")
      else do
        (validateRecord record).mapError fun error ↦ recordCorruption error.display
        let canonical ← (Postcard.toAllocvec record).mapError fun error ↦
          recordCorruption ("could not re-encode feature row: " ++ error)
        if canonical ≠ body then throw (recordCorruption "non-canonical postcard body")
        else return record

theorem decodeRecord_of_encodeRecord {record : FeatureRecord} {bytes : Bytes}
    (h : encodeRecord record = .ok bytes) : decodeRecord bytes = .ok record := by
  unfold encodeRecord at h
  obtain ⟨⟨⟩, hvalid, hencode⟩ := bind_eq_ok.mp h
  obtain ⟨body, hbody, hsize⟩ := bind_eq_ok.mp hencode
  have hwritten : Postcard.toAllocvec record = .ok body := by
    cases hresult : Postcard.toAllocvec record with
    | error error => rw [hresult] at hbody; cases hbody
    | ok body' => rw [hresult] at hbody; cases hbody; rfl
  have hread := Postcard.takeFromBytes_toAllocvec record body hwritten
  split_ifs at hsize with hlarge
  obtain rfl := Except.ok.inj hsize
  rw [decodeRecord, if_neg (not_not.mpr rfl), if_neg hlarge, hread]
  simp only [Except.mapError, bind, Except.bind]
  rw [if_neg (not_not.mpr rfl), hvalid, hwritten]
  exact if_neg (not_not.mpr rfl)

end Records

end FeatureStore

/-! ## Keys -/

def featureKeyPrefix : Bytes := 0 :: utf8 "meteordb:feature-store" ++ [0]

def featureKeySchemaVersion : Byte := 1

/-- What the keys of the rows of one group start with. -/
def featureGroupBytes (nameSpace entityType entityId featureGroup : Bytes) : Bytes :=
  featureKeyPrefix ++ featureKeySchemaVersion :: (pushEscaped nameSpace ++ (pushEscaped entityType
    ++ (pushEscaped entityId ++ pushEscaped featureGroup)))

private theorem featureGroupBytes_append_inj {nameSpace entityType entityId featureGroup : Bytes}
    {nameSpace' entityType' entityId' featureGroup' x y : Bytes}
    (h : featureGroupBytes nameSpace entityType entityId featureGroup ++ x
      = featureGroupBytes nameSpace' entityType' entityId' featureGroup' ++ y) :
    (nameSpace = nameSpace' ∧ entityType = entityType' ∧ entityId = entityId' ∧
      featureGroup = featureGroup') ∧ x = y := by
  simp only [featureGroupBytes, List.append_assoc, List.cons_append] at h
  have hfields := (List.cons.inj (List.append_cancel_left h)).2
  obtain ⟨hnameSpace, htypes⟩ := selfDelimiting_pushEscaped trivial trivial hfields
  obtain ⟨htype, hids⟩ := selfDelimiting_pushEscaped trivial trivial htypes
  obtain ⟨hid, hgroups⟩ := selfDelimiting_pushEscaped trivial trivial hids
  obtain ⟨hgroup, hrest⟩ := selfDelimiting_pushEscaped trivial trivial hgroups
  exact ⟨⟨hnameSpace, htype, hid, hgroup⟩, hrest⟩

/-- A store over an engine, with a namespace that has been checked. -/
structure FeatureStore where
  nameSpace : Bytes
  valid : validateComponent "namespace" nameSpace = .ok ()

namespace FeatureStore

def new (nameSpace : Bytes) : Result FeatureStore :=
  match h : validateComponent "namespace" nameSpace with
  | .ok () => .ok ⟨nameSpace, h⟩
  | .error error => .error error

def encodeGroupPrefix (store : FeatureStore) (entityType entityId featureGroup : Bytes) :
    Result Bytes := do
  validateComponent "entity_type" entityType
  validateComponent "entity_id" entityId
  validateComponent "feature_group" featureGroup
  return featureGroupBytes store.nameSpace entityType entityId featureGroup

def encodeKey (store : FeatureStore) (key : FeatureKey) : Result Bytes := do
  let encoded ← store.encodeGroupPrefix key.entityType key.entityId key.featureGroup
  return encoded ++ encodeTime key.eventTime

private theorem encodeGroupPrefix_eq_ok {store : FeatureStore}
    {entityType entityId featureGroup : Bytes}
    {encoded : Bytes} (h : store.encodeGroupPrefix entityType entityId featureGroup = .ok encoded) :
    encoded = featureGroupBytes store.nameSpace entityType entityId featureGroup := by
  unfold encodeGroupPrefix at h
  obtain ⟨-, -, hid⟩ := bind_eq_ok.mp h
  obtain ⟨-, -, hgroup⟩ := bind_eq_ok.mp hid
  obtain ⟨-, -, hbytes⟩ := bind_eq_ok.mp hgroup
  exact (Except.ok.inj hbytes).symm

theorem encodeKey_eq_ok {store : FeatureStore} {key : FeatureKey} {encoded : Bytes}
    (h : store.encodeKey key = .ok encoded) :
    encoded = featureGroupBytes store.nameSpace key.entityType key.entityId key.featureGroup
      ++ encodeTime key.eventTime := by
  obtain ⟨group, hgroup, hbytes⟩ := bind_eq_ok.mp h
  rw [encodeGroupPrefix_eq_ok hgroup] at hbytes
  exact (Except.ok.inj hbytes).symm

/-- Keys of rows are equal only if the namespaces and the rows' keys are. -/
theorem encodeKey_inj {store store' : FeatureStore} {key key' : FeatureKey} {encoded : Bytes}
    (h : store.encodeKey key = .ok encoded) (h' : store'.encodeKey key' = .ok encoded) :
    store.nameSpace = store'.nameSpace ∧ key = key' := by
  have hboth := (encodeKey_eq_ok h).symm.trans (encodeKey_eq_ok h')
  obtain ⟨⟨hnameSpace, htype, hid, hgroup⟩, htimes⟩ := featureGroupBytes_append_inj hboth
  have htime := congrArg decodeTime htimes
  rw [decodeTime_encodeTime, decodeTime_encodeTime] at htime
  refine ⟨hnameSpace, ?_⟩
  exact FeatureKey.ext htype hid hgroup htime

end FeatureStore

/-! ## What the engine shows -/

/-- The live pairs of an engine, in key order. -/
structure LivePairs where
  pairs : List (Bytes × Bytes)
  increasing : Increasing Prod.fst pairs

/-- A scan shows the first live pairs within its bounds. -/
def LivePairs.scan (live : LivePairs) (bounds : ScanBounds) (limit : ℕ) : List (Bytes × Bytes) :=
  (live.pairs.filter fun pair ↦ userKeyInBounds bounds pair.1).take limit

section Queries

variable [Postcard FeatureRecord]

namespace FeatureStore

def scanRange (store : FeatureStore) (live : LivePairs) (entityType entityId featureGroup : Bytes)
    (first last : Int64) (limit : ℕ) : Result (List (Bytes × Bytes)) := do
  let encoded ← store.encodeGroupPrefix entityType entityId featureGroup
  return live.scan ⟨.included (encoded ++ encodeTime first), .included (encoded ++ encodeTime last)⟩
    limit

/-- The row of a pair that a scan of one group has shown. -/
def decodeHistoryEntry (store : FeatureStore) (entityType entityId featureGroup : Bytes)
    (entry : Bytes × Bytes) : Result (FeatureKey × FeatureRecord) :=
  let expectedKeyLen := featureKeyPrefix.length + 1 + escapedLen store.nameSpace
    + escapedLen entityType + escapedLen entityId + escapedLen featureGroup + 8
  if entry.1.length ≠ expectedKeyLen then
    .error (.corruption "feature-store key" ("expected " ++ toString expectedKeyLen
      ++ " bytes, got " ++ toString entry.1.length))
  else do
    let record ← decodeRecord entry.2
    return (⟨entityType, entityId, featureGroup, decodeTime (entry.1.drop (entry.1.length - 8))⟩,
      record)

/-- The first rows of a group in an inclusive range of event times. -/
def history (store : FeatureStore) (live : LivePairs) (entityType entityId featureGroup : Bytes)
    (first last : Int64) (limit : ℕ) : Result (List (FeatureKey × FeatureRecord)) :=
  if last < first ∨ limit = 0 then .ok []
  else do
    let entries ← store.scanRange live entityType entityId featureGroup first last limit
    entries.mapM (store.decodeHistoryEntry entityType entityId featureGroup)

def newestInRange (store : FeatureStore) (live : LivePairs)
    (entityType entityId featureGroup : Bytes) (first last : Int64) :
    Result (Option (FeatureKey × FeatureRecord)) := do
  let entries ← store.scanRange live entityType entityId featureGroup first last (usizeRange - 1)
  match entries.getLast? with
  | none => return none
  | some entry => do
    let row ← store.decodeHistoryEntry entityType entityId featureGroup entry
    return some row

/-- The row of a group with the greatest event time. -/
def latest (store : FeatureStore) (live : LivePairs) (entityType entityId featureGroup : Bytes) :
    Result (Option (FeatureKey × FeatureRecord)) :=
  store.newestInRange live entityType entityId featureGroup Int64.minValue Int64.maxValue

/-- The row of a group with the greatest event time up to a given one. -/
def asOf (store : FeatureStore) (live : LivePairs) (entityType entityId featureGroup : Bytes)
    (eventTime : Int64) : Result (Option (FeatureKey × FeatureRecord)) :=
  store.newestInRange live entityType entityId featureGroup Int64.minValue eventTime

end FeatureStore

/-! ## Rows and live pairs -/

/-- A row that a store has accepted. -/
structure StoredRow where
  store : FeatureStore
  key : FeatureKey
  record : FeatureRecord
  keyBytes : Bytes
  recordBytes : Bytes
  encodeKey_eq : store.encodeKey key = .ok keyBytes
  encodeRecord_eq : FeatureStore.encodeRecord record = .ok recordBytes

/-- The engine pair of a row. -/
def StoredRow.pair (row : StoredRow) : Bytes × Bytes := (row.keyBytes, row.recordBytes)

/-- The live pairs are those of the rows. A row is written under a sequence number of its own, so
there are fewer of them than the largest `usize`. -/
structure StoresRows (live : LivePairs) (rows : List StoredRow) : Prop where
  mem : ∀ pair, pair ∈ live.pairs ↔ ∃ row ∈ rows, row.pair = pair
  distinct : rows.Pairwise fun a b ↦ (a.store.nameSpace, a.key) ≠ (b.store.nameSpace, b.key)
  few : rows.length < usizeRange - 1

/-- A row is in a group of a namespace. -/
def StoredRow.InGroup (row : StoredRow) (nameSpace entityType entityId featureGroup : Bytes) :
    Prop :=
  row.store.nameSpace = nameSpace ∧ row.key.entityType = entityType ∧
    row.key.entityId = entityId ∧ row.key.featureGroup = featureGroup

instance (row : StoredRow) (nameSpace entityType entityId featureGroup : Bytes) :
    Decidable (row.InGroup nameSpace entityType entityId featureGroup) :=
  inferInstanceAs (Decidable (_ ∧ _ ∧ _ ∧ _))

/-- The order of event times. -/
def timeOrder (a b : StoredRow) : Prop := a.key.eventTime ≤ b.key.eventTime

instance : DecidableRel timeOrder := fun a b ↦
  inferInstanceAs (Decidable (a.key.eventTime ≤ b.key.eventTime))

instance : Std.Total timeOrder := ⟨fun a b ↦ Int64.le_total a.key.eventTime b.key.eventTime⟩

instance : IsTrans StoredRow timeOrder := ⟨fun _ _ _ ↦ Int64.le_trans⟩

/-- The rows of a group in a range of event times, in the order of their times. -/
def rowsBetween (rows : List StoredRow) (nameSpace entityType entityId featureGroup : Bytes)
    (first last : Int64) : List StoredRow :=
  (rows.filter fun row ↦ row.InGroup nameSpace entityType entityId featureGroup ∧
    first ≤ row.key.eventTime ∧ row.key.eventTime ≤ last).insertionSort timeOrder

variable {live : LivePairs} {rows : List StoredRow} {store : FeatureStore}
  {nameSpace entityType entityId featureGroup encoded : Bytes} {first last : Int64}

private theorem mem_rowsBetween {row : StoredRow} :
    row ∈ rowsBetween rows nameSpace entityType entityId featureGroup first last ↔
      row ∈ rows ∧ row.InGroup nameSpace entityType entityId featureGroup ∧
        first ≤ row.key.eventTime ∧ row.key.eventTime ≤ last := by
  rw [rowsBetween, List.mem_insertionSort, List.mem_filter, decide_eq_true_eq]

private theorem StoredRow.keyBytes_eq (row : StoredRow) : row.keyBytes =
    featureGroupBytes row.store.nameSpace row.key.entityType row.key.entityId row.key.featureGroup
      ++ encodeTime row.key.eventTime :=
  FeatureStore.encodeKey_eq_ok row.encodeKey_eq

theorem StoredRow.InGroup.keyBytes {row : StoredRow}
    (h : row.InGroup nameSpace entityType entityId featureGroup) :
    row.keyBytes = featureGroupBytes nameSpace entityType entityId featureGroup
      ++ encodeTime row.key.eventTime := by
  obtain ⟨rfl, rfl, rfl, rfl⟩ := h
  exact row.keyBytes_eq

/-- The rows of a group have different times. -/
theorem rowsBetween_pairwise (h : StoresRows live rows) :
    (rowsBetween rows nameSpace entityType entityId featureGroup first last).Pairwise
      fun a b ↦ a.key.eventTime < b.key.eventTime := by
  have hsorted : (rowsBetween rows nameSpace entityType entityId featureGroup first last).Pairwise
      timeOrder := List.pairwise_insertionSort timeOrder _
  have hdistinct :
      (rowsBetween rows nameSpace entityType entityId featureGroup first last).Pairwise
        fun a b ↦ (a.store.nameSpace, a.key) ≠ (b.store.nameSpace, b.key) :=
    ((List.perm_insertionSort timeOrder _).pairwise_iff fun hne ↦ hne.symm).mpr
      (h.distinct.sublist List.filter_sublist)
  refine (hsorted.and hdistinct).imp_of_mem fun {a b} ha hb hab ↦ ?_
  obtain ⟨-, ⟨hnameSpace, htype, hid, hgroup⟩, -⟩ := mem_rowsBetween.mp ha
  obtain ⟨-, ⟨hnameSpace', htype', hid', hgroup'⟩, -⟩ := mem_rowsBetween.mp hb
  refine Int64.lt_of_le_of_ne hab.1 fun htime ↦
    hab.2 (Prod.ext (hnameSpace.trans hnameSpace'.symm) ?_)
  exact FeatureKey.ext (htype.trans htype'.symm) (hid.trans hid'.symm)
    (hgroup.trans hgroup'.symm) htime

/-- A row's key lies between two keys of a group only if the row is in the group, and its time
between the two times. -/
theorem StoredRow.inBounds_iff {row : StoredRow} :
    userKeyInBounds
        ⟨.included
            (featureGroupBytes nameSpace entityType entityId featureGroup ++ encodeTime first),
          .included
            (featureGroupBytes nameSpace entityType entityId featureGroup ++ encodeTime last)⟩
        row.keyBytes = true ↔
      row.InGroup nameSpace entityType entityId featureGroup ∧
        first ≤ row.key.eventTime ∧ row.key.eventTime ≤ last := by
  simp only [userKeyInBounds, lowerAllows, upperAllows, Bool.and_eq_true, decide_eq_true_eq]
  constructor
  · rintro ⟨hlower, hupper⟩
    obtain ⟨time, hkey, hfirst, hlast⟩ := between_append hlower hupper
    obtain ⟨hgroup, rfl⟩ := featureGroupBytes_append_inj (row.keyBytes_eq.symm.trans hkey)
    exact ⟨hgroup, encodeTime_le.mp hfirst, encodeTime_le.mp hlast⟩
  · rintro ⟨hgroup, hfirst, hlast⟩
    rw [hgroup.keyBytes]
    exact ⟨append_le_append_left.mpr (encodeTime_le.mpr hfirst),
      append_le_append_left.mpr (encodeTime_le.mpr hlast)⟩

/-- **A range of keys holds the rows of a range of times.** -/
theorem filter_inBounds (h : StoresRows live rows) :
    live.pairs.filter (fun pair ↦ userKeyInBounds
      ⟨.included (featureGroupBytes nameSpace entityType entityId featureGroup ++ encodeTime first),
        .included (featureGroupBytes nameSpace entityType entityId featureGroup ++ encodeTime last)⟩
      pair.1) =
      (rowsBetween rows nameSpace entityType entityId featureGroup first last).map
        StoredRow.pair := by
  have hshown := live.increasing.sublist (List.filter_sublist (p := fun pair ↦ userKeyInBounds
    ⟨.included (featureGroupBytes nameSpace entityType entityId featureGroup ++ encodeTime first),
      .included (featureGroupBytes nameSpace entityType entityId featureGroup ++ encodeTime last)⟩
      pair.1))
  refine hshown.ext ?_ fun pair ↦ ?_
  · refine List.pairwise_map.mpr ((rowsBetween_pairwise h).imp_of_mem fun {a b} ha hb hab ↦ ?_)
    show a.keyBytes < b.keyBytes
    rw [(mem_rowsBetween.mp ha).2.1.keyBytes, (mem_rowsBetween.mp hb).2.1.keyBytes,
      append_lt_append_left]
    exact encodeTime_lt.mpr hab
  · rw [List.mem_filter, h.mem, List.mem_map]
    constructor
    · rintro ⟨⟨row, hrow, rfl⟩, hbounds⟩
      exact ⟨row, mem_rowsBetween.mpr ⟨hrow, StoredRow.inBounds_iff.mp hbounds⟩, rfl⟩
    · rintro ⟨row, hrow, rfl⟩
      obtain ⟨hmem, hgroup⟩ := mem_rowsBetween.mp hrow
      exact ⟨⟨row, hmem, rfl⟩, StoredRow.inBounds_iff.mpr hgroup⟩

/-- The pair of a row of the group is decoded to the row. -/
theorem StoredRow.InGroup.decodeHistoryEntry {row : StoredRow}
    (h : row.InGroup store.nameSpace entityType entityId featureGroup) :
    store.decodeHistoryEntry entityType entityId featureGroup row.pair
      = .ok (row.key, row.record) := by
  have hlength : row.keyBytes.length = featureKeyPrefix.length + 1 + escapedLen store.nameSpace
      + escapedLen entityType + escapedLen entityId + escapedLen featureGroup + 8 := by
    rw [h.keyBytes]
    simp only [featureGroupBytes, List.length_append, List.length_cons, length_pushEscaped,
      length_encodeTime]
    omega
  have htime : row.keyBytes.drop (row.keyBytes.length - 8) = encodeTime row.key.eventTime := by
    rw [h.keyBytes]
    exact List.drop_left' (by simp)
  unfold FeatureStore.decodeHistoryEntry StoredRow.pair
  simp only
  rw [if_neg (not_not.mpr hlength),
    FeatureStore.decodeRecord_of_encodeRecord row.encodeRecord_eq, htime, decodeTime_encodeTime]
  obtain ⟨-, rfl, rfl, rfl⟩ := h
  rfl

/-! ## The queries -/

private theorem scanRange_eq (h : StoresRows live rows)
    (hgroup : store.encodeGroupPrefix entityType entityId featureGroup = .ok encoded) (limit : ℕ) :
    store.scanRange live entityType entityId featureGroup first last limit =
      .ok (((rowsBetween rows store.nameSpace entityType entityId featureGroup first last).take
        limit).map StoredRow.pair) := by
  have hencoded := FeatureStore.encodeGroupPrefix_eq_ok hgroup
  unfold FeatureStore.scanRange
  rw [hgroup, hencoded]
  show Except.ok (live.scan _ limit) = _
  rw [LivePairs.scan, filter_inBounds h, List.map_take]

private theorem history_eq (h : StoresRows live rows)
    (hgroup : store.encodeGroupPrefix entityType entityId featureGroup = .ok encoded) (limit : ℕ) :
    store.history live entityType entityId featureGroup first last limit =
      .ok (((rowsBetween rows store.nameSpace entityType entityId featureGroup first last).take
        limit).map fun row ↦ (row.key, row.record)) := by
  unfold FeatureStore.history
  split_ifs with hempty
  · rcases hempty with hlt | rfl
    · have hnone : rowsBetween rows store.nameSpace entityType entityId featureGroup first last
          = [] := by
        refine List.eq_nil_iff_forall_not_mem.mpr fun row hrow ↦ ?_
        obtain ⟨-, -, hfirst, hlast⟩ := mem_rowsBetween.mp hrow
        rw [Int64.lt_iff_toInt_lt] at hlt
        rw [Int64.le_iff_toInt_le] at hfirst hlast
        omega
      rw [hnone, List.take_nil]
      rfl
    · rfl
  · rw [scanRange_eq h hgroup]
    show List.mapM _ (List.map _ _) = _
    rw [List.mapM_map]
    refine mapM_eq_ok_of_forall fun row hrow ↦ ?_
    exact (mem_rowsBetween.mp (List.mem_of_mem_take hrow)).2.1.decodeHistoryEntry

private theorem newestInRange_eq (h : StoresRows live rows)
    (hgroup : store.encodeGroupPrefix entityType entityId featureGroup = .ok encoded) :
    store.newestInRange live entityType entityId featureGroup first last =
      .ok ((rowsBetween rows store.nameSpace entityType entityId featureGroup first
        last).getLast?.map fun row ↦ (row.key, row.record)) := by
  have hlength : (rowsBetween rows store.nameSpace entityType entityId featureGroup first
      last).length ≤ usizeRange - 1 := by
    rw [rowsBetween, List.length_insertionSort]
    exact (List.length_filter_le _ _).trans h.few.le
  unfold FeatureStore.newestInRange
  rw [scanRange_eq h hgroup, List.take_of_length_le hlength]
  show (match (List.map StoredRow.pair _).getLast? with
    | none => Except.ok none
    | some entry => (do
        let row ← store.decodeHistoryEntry entityType entityId featureGroup entry
        return some row : Result _)) = _
  rw [List.getLast?_map]
  cases hlast : (rowsBetween rows store.nameSpace entityType entityId featureGroup first
      last).getLast? with
  | none => rfl
  | some row =>
    have hrow := (mem_rowsBetween.mp (List.mem_of_getLast? hlast)).2.1
    show (do
      let row ← store.decodeHistoryEntry entityType entityId featureGroup row.pair
      return some row : Result _) = _
    rw [hrow.decodeHistoryEntry]
    rfl

/-- The last of the rows in a range of times is the newest of them. -/
theorem getLast?_rowsBetween (h : StoresRows live rows) {row : StoredRow}
    (hlast : (rowsBetween rows nameSpace entityType entityId featureGroup first last).getLast?
      = some row) :
    row ∈ rows ∧ row.InGroup nameSpace entityType entityId featureGroup ∧
      first ≤ row.key.eventTime ∧ row.key.eventTime ≤ last ∧
      ∀ other ∈ rows, other.InGroup nameSpace entityType entityId featureGroup →
        first ≤ other.key.eventTime → other.key.eventTime ≤ last →
        other.key.eventTime ≤ row.key.eventTime := by
  obtain ⟨hrow, hgroup, hfirst, hle⟩ := mem_rowsBetween.mp (List.mem_of_getLast? hlast)
  refine ⟨hrow, hgroup, hfirst, hle, fun other hother hgroup' hfirst' hle' ↦ ?_⟩
  obtain ⟨before, hsplit⟩ := List.getLast?_eq_some_iff.mp hlast
  have hmem := mem_rowsBetween.mpr ⟨hother, hgroup', hfirst', hle'⟩
  have hsorted : (rowsBetween rows nameSpace entityType entityId featureGroup first last).Pairwise
      fun a b ↦ a.key.eventTime < b.key.eventTime := rowsBetween_pairwise h
  rw [hsplit] at hmem hsorted
  rcases List.mem_append.mp hmem with hbefore | hrow'
  · have hlt := (List.pairwise_append.mp hsorted).2.2 other hbefore row (List.mem_singleton.mpr rfl)
    exact Int64.le_of_lt hlt
  · rw [List.mem_singleton.mp hrow']
    exact Int64.le_refl _

/-- **Time queries are exact.** `history` returns the first rows of the group whose times are in the
range, in the order of their times; `asOf` and `latest` return the newest row of the group, up to
the given time, or nothing if there is none. -/
theorem featureStore_queries_exact (h : StoresRows live rows)
    (hgroup : store.encodeGroupPrefix entityType entityId featureGroup = .ok encoded) :
    (∀ first last limit, ∃ matching : List StoredRow,
      (∀ row, row ∈ matching ↔ row ∈ rows ∧
        row.InGroup store.nameSpace entityType entityId featureGroup ∧
        first ≤ row.key.eventTime ∧ row.key.eventTime ≤ last) ∧
      matching.Pairwise (fun a b ↦ a.key.eventTime < b.key.eventTime) ∧
      store.history live entityType entityId featureGroup first last limit =
        .ok ((matching.take limit).map fun row ↦ (row.key, row.record))) ∧
    (∀ time, ∃ found : Option StoredRow,
      store.asOf live entityType entityId featureGroup time =
        .ok (found.map fun row ↦ (row.key, row.record)) ∧
      (∀ row ∈ found, row ∈ rows ∧
        row.InGroup store.nameSpace entityType entityId featureGroup ∧
        row.key.eventTime ≤ time ∧
        ∀ other ∈ rows, other.InGroup store.nameSpace entityType entityId featureGroup →
          other.key.eventTime ≤ time → other.key.eventTime ≤ row.key.eventTime) ∧
      (found = none → ∀ other ∈ rows,
        other.InGroup store.nameSpace entityType entityId featureGroup →
        ¬ other.key.eventTime ≤ time)) ∧
    ∃ found : Option StoredRow,
      store.latest live entityType entityId featureGroup =
        .ok (found.map fun row ↦ (row.key, row.record)) ∧
      (∀ row ∈ found, row ∈ rows ∧
        row.InGroup store.nameSpace entityType entityId featureGroup ∧
        ∀ other ∈ rows, other.InGroup store.nameSpace entityType entityId featureGroup →
          other.key.eventTime ≤ row.key.eventTime) ∧
      (found = none → ∀ other ∈ rows,
        ¬ other.InGroup store.nameSpace entityType entityId featureGroup) := by
  refine ⟨fun first last limit ↦ ⟨_, fun row ↦ mem_rowsBetween, rowsBetween_pairwise h,
    history_eq h hgroup limit⟩, fun time ↦ ⟨_, newestInRange_eq h hgroup, ?_, ?_⟩,
    ⟨_, newestInRange_eq h hgroup, ?_, ?_⟩⟩
  · intro row hrow
    obtain ⟨hmem, hin, -, hle, hnewest⟩ := getLast?_rowsBetween h hrow
    exact ⟨hmem, hin, hle, fun other hother hin' hle' ↦
      hnewest other hother hin' (Int64.minValue_le _) hle'⟩
  · intro hnone other hother hin hle
    have hempty := List.getLast?_eq_none_iff.mp hnone
    have hmem := mem_rowsBetween.mpr ⟨hother, hin, Int64.minValue_le _, hle⟩
    rw [hempty] at hmem
    exact List.not_mem_nil hmem
  · intro row hrow
    obtain ⟨hmem, hin, -, -, hnewest⟩ := getLast?_rowsBetween h hrow
    exact ⟨hmem, hin, fun other hother hin' ↦
      hnewest other hother hin' (Int64.minValue_le _) (Int64.le_maxValue _)⟩
  · intro hnone other hother hin
    have hempty := List.getLast?_eq_none_iff.mp hnone
    have hmem := mem_rowsBetween.mpr ⟨hother, hin, Int64.minValue_le _, Int64.le_maxValue _⟩
    rw [hempty] at hmem
    exact List.not_mem_nil hmem

end Queries

end MeteorDB
