import MeteorDB.Workloads.AdapterKeys
import MeteorDB.Workloads.FeatureRecord

/-!
# Embeddings

An embedding is a vector with an optional model and metadata. The encoder checks the parts one by
one: the vector, the model and its version, the number of metadata entries, each name and value, and
the total of the metadata. Only the decoder checks the size of the whole, and it would refuse what
the encoder wrote if the framing of the parts did not fit in the slack of 64 KiB that the limit
leaves above the vector and the metadata (`length_embeddingWire_le`).

The constructors and `insertMetadata` keep everything that is checked but the model, which
`setModel` sets without looking at it (`Sound`). So of the embeddings that can be built exactly
those with an acceptable model are stored, and all of these are read back.
-/

namespace MeteorDB

open ByteString OrderedList Decoder Attempt

def maxVectorBytes : ℕ := 64 * 1024 * 1024

def maxMetadataEntries : ℕ := 1024

def maxMetadataComponentBytes : ℕ := 1024 * 1024

def maxMetadataTotalBytes : ℕ := 16 * 1024 * 1024

def maxValueBodyBytes : ℕ := maxVectorBytes + maxMetadataTotalBytes + 64 * 1024

/-! ## Vectors -/

/-- The representation of the elements of a vector. -/
inductive ScalarType where
  | f32
  | f16
  deriving DecidableEq

def ScalarType.width : ScalarType → ℕ
  | .f32 => 4
  | .f16 => 2

def ScalarType.display : ScalarType → String
  | .f32 => "F32"
  | .f16 => "F16"

def f16IsFinite (bits : BitVec 16) : Bool := bits &&& 0x7c00#16 != 0x7c00#16

/-- Whether the bits of a float of 32 bits are those of a finite number. -/
def f32IsFinite (bits : BitVec 32) : Bool := (bits >>> 23) &&& 0xff#32 != 0xff#32

/-- The whole chunks of a byte string. -/
def chunksExact (width : ℕ) (bytes : Bytes) : List Bytes :=
  (List.range (bytes.length / width)).map fun i ↦ (bytes.drop (i * width)).take width

/-- Whether all elements of a vector are finite. -/
def ScalarType.allFinite (scalarType : ScalarType) (bytes : Bytes) : Bool :=
  match scalarType with
  | .f32 => (chunksExact 4 bytes).all fun chunk ↦ f32IsFinite (BitVec.ofNat 32 (leNat chunk))
  | .f16 => (chunksExact 2 bytes).all fun chunk ↦ f16IsFinite (BitVec.ofNat 16 (leNat chunk))

/-! ## Embeddings and their checks -/

/-- A vector in portable bytes with its model and its metadata in the order of the names. -/
structure Embedding where
  dimension : Fin (2 ^ 32)
  scalarType : ScalarType
  vectorBytes : Bytes
  model : Option Bytes
  modelVersion : Option Bytes
  metadata : List (Bytes × Bytes)
  increasing : Increasing Prod.fst metadata
  deriving DecidableEq

namespace Embedding

def validateMetadataComponent (name : String) (bytes : Bytes) : Result Unit :=
  if bytes.isEmpty then .error (.invalidArgument (name ++ " must not be empty"))
  else if maxMetadataComponentBytes < bytes.length then
    .error (.invalidArgument (name ++ " exceeds the " ++ toString maxMetadataComponentBytes
      ++ " byte limit"))
  else .ok ()

/-- The check of one entry of the metadata. -/
def validateEntry (entry : Bytes × Bytes) : Result Unit := do
  validateMetadataComponent "metadata name" entry.1
  validateMetadataComponent "metadata value" entry.2

def metadataOverflow : Error := .invalidArgument "embedding metadata size overflow"

def metadataBytes (metadata : List (Bytes × Bytes)) : Result ℕ :=
  metadata.foldlM (fun size entry ↦
    match checkedAdd size entry.1.length >>= (checkedAdd · entry.2.length) with
    | some size => .ok size
    | none => .error metadataOverflow) 0

/-- The size of the metadata without the entry of a name. -/
def withoutReplaced (metadata : List (Bytes × Bytes)) (name : Bytes) (current : ℕ) : Result ℕ :=
  match metadata.find? (·.1 = name) with
  | some previous =>
    match checkedSub current name.length >>= (checkedSub · previous.2.length) with
    | some size => .ok size
    | none => .error metadataOverflow
  | none => .ok current

def projectedMetadataBytes (metadata : List (Bytes × Bytes)) (name value : Bytes) : Result ℕ := do
  let current ← metadataBytes metadata
  let withoutReplaced ← withoutReplaced metadata name current
  match checkedAdd withoutReplaced name.length >>= (checkedAdd · value.length) with
  | some size => return size
  | none => throw metadataOverflow

def metadataTooLarge (size : ℕ) : Error :=
  .invalidArgument ("embedding metadata is " ++ toString size ++ " bytes, exceeding the "
    ++ toString maxMetadataTotalBytes ++ " limit")

def validateEmbedding (embedding : Embedding) : Result Unit :=
  if embedding.dimension.val = 0 then
    .error (.invalidArgument "embedding dimension must be greater than zero")
  else
    match checkedMul embedding.dimension.val embedding.scalarType.width with
    | none => .error (.invalidArgument "embedding byte length overflow")
    | some expected =>
      if embedding.vectorBytes.length ≠ expected then
        .error (.invalidArgument (toString embedding.dimension.val ++ "-dimensional "
          ++ embedding.scalarType.display ++ " embedding requires " ++ toString expected
          ++ " vector bytes, got " ++ toString embedding.vectorBytes.length))
      else if maxVectorBytes < embedding.vectorBytes.length then
        .error (.invalidArgument ("embedding vector exceeds the " ++ toString maxVectorBytes
          ++ " byte limit"))
      else if ¬ embedding.scalarType.allFinite embedding.vectorBytes then
        .error (.invalidArgument "embedding floats must be finite")
      else do
        validateOptionalIdentity embedding.model embedding.modelVersion
        if maxMetadataEntries < embedding.metadata.length then
          throw (.invalidArgument "embedding metadata has too many entries")
        else
          embedding.metadata.forM validateEntry
          let size ← metadataBytes embedding.metadata
          if maxMetadataTotalBytes < size then throw (metadataTooLarge size) else return ()

/-! ## Building embeddings -/

/-- An embedding from portable vector bytes. -/
def fromBytes (dimension : ℕ) (scalarType : ScalarType) (vectorBytes : Bytes) : Result Embedding :=
  if h : dimension < 2 ^ 32 then do
    let embedding : Embedding := ⟨⟨dimension, h⟩, scalarType, vectorBytes, none, none, [], .nil⟩
    validateEmbedding embedding
    return embedding
  else .error (.invalidArgument "embedding dimension exceeds u32::MAX")

/-- An embedding from floats of 32 bits, given by their bits. -/
def fromF32 (values : List (BitVec 32)) : Result Embedding :=
  if values.any (¬ f32IsFinite ·) then
    .error (.invalidArgument "embedding floats must be finite")
  else fromBytes values.length .f32 (values.flatMap fun value ↦ leBytes 4 value.toNat)

/-- An embedding from the bits of floats of 16 bits. -/
def fromF16Bits (values : List (BitVec 16)) : Result Embedding :=
  if values.any (¬ f16IsFinite ·) then
    .error (.invalidArgument "embedding floats must be finite")
  else fromBytes values.length .f16 (values.flatMap fun value ↦ leBytes 2 value.toNat)

def setModel (embedding : Embedding) (model modelVersion : Bytes) : Embedding :=
  { embedding with model := some model, modelVersion := some modelVersion }

/-- Adds or replaces an entry of the metadata. -/
def insertMetadata (name value : Bytes) : Attempt Embedding Error Unit := do
  validateMetadataComponent "metadata name" name
  validateMetadataComponent "metadata value" value
  let embedding ← get
  if embedding.metadata.find? (·.1 = name) = none
      ∧ maxMetadataEntries ≤ embedding.metadata.length then
    throw (.invalidArgument ("metadata entry count exceeds the " ++ toString maxMetadataEntries
      ++ " limit"))
  else
    let projectedSize ← projectedMetadataBytes embedding.metadata name value
    if maxMetadataTotalBytes < projectedSize then throw (metadataTooLarge projectedSize)
    else
      modify fun embedding ↦
        { embedding with
          metadata := OrderedList.insert Prod.fst (name, value) embedding.metadata
          increasing := embedding.increasing.insert }

/-- The embeddings that can be built. -/
inductive Reachable : Embedding → Prop
  | fromF32 {values : List (BitVec 32)} {embedding : Embedding}
      (h : fromF32 values = .ok embedding) : Reachable embedding
  | fromF16Bits {values : List (BitVec 16)} {embedding : Embedding}
      (h : fromF16Bits values = .ok embedding) : Reachable embedding
  | fromBytes {dimension : ℕ} {scalarType : ScalarType} {vectorBytes : Bytes}
      {embedding : Embedding} (h : fromBytes dimension scalarType vectorBytes = .ok embedding) :
      Reachable embedding
  | setModel {embedding : Embedding} (h : Reachable embedding) (model modelVersion : Bytes) :
      Reachable (embedding.setModel model modelVersion)
  | insertMetadata {embedding : Embedding} (h : Reachable embedding) (name value : Bytes) :
      Reachable ((insertMetadata name value).exec embedding).2

/-! ## Encoding -/

def valueSchemaVersion : Byte := 1

def valueCorruption (detail : String) : Error := .corruption "embedding-store value" detail

section Coding

variable [Postcard Embedding]

def encodeEmbedding (embedding : Embedding) : Result Bytes := do
  validateEmbedding embedding
  let body ← (Postcard.toAllocvec embedding).mapError fun error ↦
    Error.invalidArgument ("could not encode embedding: " ++ error)
  return valueSchemaVersion :: body

def decodeEmbedding : Bytes → Result Embedding
  | [] => .error (valueCorruption "missing schema version")
  | version :: body =>
    if version ≠ valueSchemaVersion then
      .error (.unsupportedFormat "embedding-store value" version.val)
    else if maxValueBodyBytes < body.length then
      .error (valueCorruption "serialized embedding exceeds size limit")
    else do
      let (embedding, trailing) ← (Postcard.takeFromBytes (α := Embedding) body).mapError
        fun error ↦ valueCorruption ("invalid postcard body: " ++ error)
      if trailing ≠ [] then throw (valueCorruption "trailing bytes after postcard body")
      else do
        (validateEmbedding embedding).mapError fun error ↦ valueCorruption error.display
        let canonical ← (Postcard.toAllocvec embedding).mapError fun error ↦
          valueCorruption ("could not re-encode embedding: " ++ error)
        if canonical ≠ body then throw (valueCorruption "non-canonical postcard body")
        else return embedding

end Coding

/-- The index of a scalar type. -/
def scalarIndex : ScalarType → Byte
  | .f32 => 0
  | .f16 => 1

def entryWire (entry : Bytes × Bytes) : Bytes := Wire.bytes entry.1 ++ Wire.bytes entry.2

/-- An embedding in the wire format: its fields one after the other. -/
def embeddingWire (embedding : Embedding) : Bytes :=
  Varint.encode embedding.dimension ++ (scalarIndex embedding.scalarType ::
    (Wire.bytes embedding.vectorBytes ++ (Wire.option Wire.bytes embedding.model
      ++ (Wire.option Wire.bytes embedding.modelVersion
        ++ Wire.seq entryWire embedding.metadata))))

/-! ## What the checks say -/

/-- The bytes of the names and values of the metadata. -/
def metadataSize (metadata : List (Bytes × Bytes)) : ℕ :=
  (metadata.map fun entry ↦ entry.1.length + entry.2.length).sum

private theorem metadataSize_cons (entry : Bytes × Bytes) (metadata : List (Bytes × Bytes)) :
    metadataSize (entry :: metadata)
      = entry.1.length + entry.2.length + metadataSize metadata := by
  rw [metadataSize, List.map_cons, List.sum_cons]
  rfl

private theorem metadataSize_perm {metadata metadata' : List (Bytes × Bytes)}
    (h : metadata.Perm metadata') : metadataSize metadata = metadataSize metadata' :=
  (h.map _).sum_eq

private theorem metadataBytes_eq_ok {metadata : List (Bytes × Bytes)} {size : ℕ} :
    metadataBytes metadata = .ok size ↔ size = metadataSize metadata ∧ size < usizeRange := by
  have hrun (start : ℕ) (hstart : start < usizeRange) : metadata.foldlM (fun size entry ↦
      match checkedAdd size entry.1.length >>= (checkedAdd · entry.2.length) with
      | some size => (.ok size : Result ℕ)
      | none => .error metadataOverflow) start = .ok size ↔
        size = start + metadataSize metadata ∧ size < usizeRange := by
    induction metadata generalizing start with
    | nil =>
      rw [List.foldlM_nil]
      refine ⟨fun h ↦ ?_, fun h ↦ congrArg _ h.1.symm⟩
      obtain rfl := Except.ok.inj h
      exact ⟨rfl, hstart⟩
    | cons entry metadata ih =>
      rw [List.foldlM_cons, metadataSize_cons]
      by_cases hlt : start + entry.1.length + entry.2.length < usizeRange
      · have hstep : (checkedAdd start entry.1.length >>= (checkedAdd · entry.2.length))
            = some (start + entry.1.length + entry.2.length) := by
          simp only [Option.bind_eq_bind, Option.bind_eq_some_iff, checkedAdd_eq_some]
          exact ⟨_, ⟨rfl, by omega⟩, rfl, hlt⟩
        rw [hstep]
        refine (ih _ hlt).trans ?_
        omega
      · have hstep : (checkedAdd start entry.1.length >>= (checkedAdd · entry.2.length))
            = none := by
          rw [Option.eq_none_iff_forall_ne_some]
          intro total htotal
          simp only [Option.bind_eq_bind, Option.bind_eq_some_iff, checkedAdd_eq_some] at htotal
          omega
        rw [hstep]
        exact ⟨nofun, fun h ↦ by omega⟩
  rw [metadataBytes, hrun 0 (by decide), Nat.zero_add]

/-- What is checked of an embedding, its model apart. -/
structure Sound (embedding : Embedding) : Prop where
  dimension_ne : embedding.dimension.val ≠ 0
  length_eq : embedding.vectorBytes.length
    = embedding.dimension.val * embedding.scalarType.width
  length_le : embedding.vectorBytes.length ≤ maxVectorBytes
  finite : embedding.scalarType.allFinite embedding.vectorBytes = true
  count_le : embedding.metadata.length ≤ maxMetadataEntries
  entries : ∀ entry ∈ embedding.metadata, validateEntry entry = .ok ()
  size_le : metadataSize embedding.metadata ≤ maxMetadataTotalBytes

private theorem validateEmbedding_eq_ok {embedding : Embedding} :
    validateEmbedding embedding = .ok () ↔ Sound embedding ∧
      validateOptionalIdentity embedding.model embedding.modelVersion = .ok () := by
  have hwidth : embedding.dimension.val * embedding.scalarType.width < usizeRange := by
    have hdimension := embedding.dimension.isLt
    have hle : embedding.scalarType.width ≤ 4 := by cases embedding.scalarType <;> decide
    calc embedding.dimension.val * embedding.scalarType.width
        ≤ 2 ^ 32 * 4 := Nat.mul_le_mul hdimension.le hle
      _ < usizeRange := by decide
  rw [validateEmbedding, checkedMul_eq_some.mpr ⟨rfl, hwidth⟩]
  simp only
  constructor
  · intro h
    split_ifs at h with hzero hlength hlarge hfinite hcount
    · obtain ⟨⟨⟩, -, h⟩ := bind_eq_ok.mp h
      cases h
    obtain ⟨⟨⟩, hidentity, h⟩ := bind_eq_ok.mp h
    obtain ⟨⟨⟩, hentries, h⟩ := bind_eq_ok.mp h
    obtain ⟨size, hsize, h⟩ := bind_eq_ok.mp h
    obtain ⟨rfl, -⟩ := metadataBytes_eq_ok.mp hsize
    split_ifs at h with htotal
    exact ⟨⟨hzero, not_not.mp hlength, not_lt.mp hlarge, hfinite, not_lt.mp hcount,
      forM_eq_ok.mp hentries, not_lt.mp htotal⟩, hidentity⟩
  · rintro ⟨h, hidentity⟩
    have hsize : metadataBytes embedding.metadata = .ok (metadataSize embedding.metadata) :=
      metadataBytes_eq_ok.mpr ⟨rfl, h.size_le.trans_lt (by decide)⟩
    rw [if_neg h.dimension_ne, if_neg (not_not.mpr h.length_eq), if_neg h.length_le.not_gt,
      if_neg (not_not.mpr h.finite), hidentity]
    refine bind_eq_ok.mpr ⟨(), rfl, ?_⟩
    rw [if_neg h.count_le.not_gt, forM_eq_ok.mpr h.entries, hsize]
    exact if_neg h.size_le.not_gt

private theorem validateMetadataComponent_eq_ok {name : String} {bytes : Bytes}
    (h : validateMetadataComponent name bytes = .ok ()) :
    bytes.length ≤ maxMetadataComponentBytes := by
  unfold validateMetadataComponent at h
  split_ifs at h with hempty hlarge
  exact not_lt.mp hlarge

private theorem validateEntry_eq_ok {entry : Bytes × Bytes} (h : validateEntry entry = .ok ()) :
    entry.1.length ≤ maxMetadataComponentBytes ∧ entry.2.length ≤ maxMetadataComponentBytes := by
  obtain ⟨⟨⟩, hname, hvalue⟩ := bind_eq_ok.mp h
  exact ⟨validateMetadataComponent_eq_ok hname, validateMetadataComponent_eq_ok hvalue⟩

/-- An insertion adds an entry, or puts it in the place of the one found. -/
theorem insert_perm_cases {metadata : List (Bytes × Bytes)}
    (h : Increasing Prod.fst metadata) (name value : Bytes) :
    let inserted := OrderedList.insert Prod.fst (name, value) metadata
    (metadata.find? (·.1 = name) = none ∧ inserted.Perm ((name, value) :: metadata)) ∨
      ∃ previous rest, metadata.find? (·.1 = name) = some previous ∧ previous.1 = name ∧
        metadata.Perm (previous :: rest) ∧ inserted.Perm ((name, value) :: rest) := by
  intro inserted
  cases hfind : metadata.find? (·.1 = name) with
  | none =>
    refine .inl ⟨rfl, insert_perm fun hmem ↦ ?_⟩
    obtain ⟨entry, hentry, hname⟩ := List.mem_map.mp hmem
    exact List.find?_eq_none.mp hfind entry hentry (decide_eq_true hname)
  | some previous =>
    have hname : previous.1 = name := by simpa using List.find?_some hfind
    obtain ⟨rest, hold, hnew⟩ := h.exists_perm_insert (a := (name, value))
      (List.mem_of_find?_eq_some hfind) hname
    exact .inr ⟨previous, rest, rfl, hname, hold, hnew⟩

private theorem projectedMetadataBytes_eq_ok {metadata : List (Bytes × Bytes)} {name value : Bytes}
    {size : ℕ} (hincreasing : Increasing Prod.fst metadata)
    (h : projectedMetadataBytes metadata name value = .ok size) :
    size = metadataSize (OrderedList.insert Prod.fst (name, value) metadata) := by
  obtain ⟨current, hcurrent, h⟩ := bind_eq_ok.mp h
  obtain ⟨rfl, -⟩ := metadataBytes_eq_ok.mp hcurrent
  obtain ⟨without, hwithout, h⟩ := bind_eq_ok.mp h
  have hsize : size = without + name.length + value.length := by
    split at h
    case h_1 total htotal =>
      obtain rfl := Except.ok.inj h
      simp only [Option.bind_eq_bind, Option.bind_eq_some_iff, checkedAdd_eq_some] at htotal
      omega
    case h_2 => cases h
  unfold withoutReplaced at hwithout
  obtain ⟨hfind, hnew⟩ | ⟨previous, rest, hfind, hname, hold, hnew⟩ :=
    insert_perm_cases hincreasing name value
  · rw [hfind] at hwithout
    obtain rfl := Except.ok.inj hwithout
    rw [hsize, metadataSize_perm hnew, metadataSize_cons]
    simp only
    omega
  · rw [hfind, metadataSize_perm hold, metadataSize_cons, hname] at hwithout
    rw [hsize, metadataSize_perm hnew, metadataSize_cons]
    simp only at hwithout ⊢
    split at hwithout
    case h_1 total htotal =>
      obtain rfl := Except.ok.inj hwithout
      simp only [Option.bind_eq_bind, Option.bind_eq_some_iff, checkedSub_eq_some] at htotal
      obtain ⟨first, ⟨rfl, hfirst⟩, rfl, hsecond⟩ := htotal
      omega
    case h_2 => cases hwithout

/-! ## What can be built -/

private theorem sound_of_fromBytes {dimension : ℕ} {scalarType : ScalarType} {vectorBytes : Bytes}
    {embedding : Embedding} (h : fromBytes dimension scalarType vectorBytes = .ok embedding) :
    Sound embedding := by
  unfold fromBytes at h
  split_ifs at h with hdimension
  obtain ⟨⟨⟩, hvalid, h⟩ := bind_eq_ok.mp h
  obtain rfl := Except.ok.inj h
  exact (validateEmbedding_eq_ok.mp hvalid).1

/-- An insertion is rejected and leaves the embedding alone, or keeps what is checked. -/
theorem insertMetadata_exec (embedding : Embedding) (name value : Bytes) :
    wp (insertMetadata name value) (fun result after ↦
      match result with
      | .error _ => after = embedding
      | .ok _ => Sound embedding → Sound after) embedding := by
  rw [insertMetadata, wp_bind, wp_lift]
  cases hname : validateMetadataComponent "metadata name" name with
  | error error => rfl
  | ok _ =>
    simp only
    rw [wp_bind, wp_lift]
    cases hvalue : validateMetadataComponent "metadata value" value with
    | error error => rfl
    | ok _ =>
      simp only
      rw [wp_bind, wp_get]
      simp only
      rw [wp_ite]
      refine ⟨fun _ ↦ rfl, fun hcount ↦ ?_⟩
      rw [wp_bind, wp_lift]
      cases hsize : projectedMetadataBytes embedding.metadata name value with
      | error error => rfl
      | ok size =>
        simp only
        rw [wp_ite]
        refine ⟨fun _ ↦ rfl, fun hle ↦ ?_⟩
        rw [wp_modify]
        intro h
        refine ⟨h.dimension_ne, h.length_eq, h.length_le, h.finite, ?_, fun entry hentry ↦ ?_, ?_⟩
        · have hbefore := h.count_le
          obtain ⟨hfind, hnew⟩ | ⟨previous, rest, -, -, hold, hnew⟩ :=
            insert_perm_cases embedding.increasing name value
          · rw [hnew.length_eq]
            exact Nat.succ_le_of_lt (not_le.mp fun hle ↦ hcount ⟨hfind, hle⟩)
          · rw [hold.length_eq] at hbefore
            rw [hnew.length_eq]
            exact hbefore
        · rcases (mem_insert embedding.increasing).mp hentry with rfl | ⟨hmem, -⟩
          · exact bind_eq_ok.mpr ⟨(), hname, hvalue⟩
          · exact h.entries entry hmem
        · rw [← projectedMetadataBytes_eq_ok embedding.increasing hsize]
          exact not_lt.mp hle

theorem Reachable.sound {embedding : Embedding} (h : Reachable embedding) : Sound embedding := by
  induction h with
  | fromF32 h =>
    unfold Embedding.fromF32 at h
    split_ifs at h
    exact sound_of_fromBytes h
  | fromF16Bits h =>
    unfold Embedding.fromF16Bits at h
    split_ifs at h
    exact sound_of_fromBytes h
  | fromBytes h => exact sound_of_fromBytes h
  | setModel _ model modelVersion ih =>
    exact ⟨ih.dimension_ne, ih.length_eq, ih.length_le, ih.finite, ih.count_le, ih.entries,
      ih.size_le⟩
  | @insertMetadata embedding _ name value ih =>
    have hstep := insertMetadata_exec embedding name value
    rw [wp] at hstep
    cases hresult : ((Embedding.insertMetadata name value).exec embedding).1 with
    | error error =>
      simp only [hresult] at hstep
      rwa [hstep]
    | ok _ =>
      simp only [hresult] at hstep
      exact hstep ih

/-! ## The size of the body -/

private theorem length_option_le {component : Option Bytes}
    (h : ∀ bytes ∈ component, bytes.length ≤ maxComponentBytes) :
    (Wire.option Wire.bytes component).length ≤ 4 + maxComponentBytes := by
  cases component with
  | none => exact Nat.le_add_left_of_le (by decide)
  | some bytes =>
    have hle := h bytes rfl
    have hlength : (Wire.bytes bytes).length ≤ 3 + bytes.length :=
      Wire.length_bytes_le (hle.trans_lt (by decide))
    rw [Wire.option, Option.elim_some, List.length_cons]
    omega

private theorem length_entryWire_le {entry : Bytes × Bytes} (h : validateEntry entry = .ok ()) :
    (entryWire entry).length ≤ entry.1.length + entry.2.length + 6 := by
  obtain ⟨hname, hvalue⟩ := validateEntry_eq_ok h
  have hname' : (Wire.bytes entry.1).length ≤ 3 + entry.1.length :=
    Wire.length_bytes_le (hname.trans_lt (by decide))
  have hvalue' : (Wire.bytes entry.2).length ≤ 3 + entry.2.length :=
    Wire.length_bytes_le (hvalue.trans_lt (by decide))
  rw [entryWire, List.length_append]
  omega

private theorem sum_entryWire_le {metadata : List (Bytes × Bytes)}
    (h : ∀ entry ∈ metadata, validateEntry entry = .ok ()) :
    (metadata.map fun entry ↦ (entryWire entry).length).sum
      ≤ metadataSize metadata + 6 * metadata.length := by
  induction metadata with
  | nil => exact le_rfl
  | cons entry metadata ih =>
    rw [List.forall_mem_cons] at h
    have hentry := length_entryWire_le h.1
    have hrest := ih h.2
    rw [List.map_cons, List.sum_cons, metadataSize_cons, List.length_cons]
    omega

private theorem validateOptionalIdentity_eq_ok {model modelVersion : Option Bytes}
    (h : validateOptionalIdentity model modelVersion = .ok ()) :
    (∀ bytes ∈ model, bytes.length ≤ maxComponentBytes) ∧
      ∀ bytes ∈ modelVersion, bytes.length ≤ maxComponentBytes := by
  have hcomponent {name : String} {bytes : Bytes} (h : validateComponent name bytes = .ok ()) :
      bytes.length ≤ maxComponentBytes := by
    unfold validateComponent at h
    split_ifs at h with hempty hlarge
    exact not_lt.mp hlarge
  match model, modelVersion with
  | none, none => exact ⟨nofun, nofun⟩
  | some model, some version =>
    obtain ⟨⟨⟩, hmodel, hversion⟩ := bind_eq_ok.mp h
    refine ⟨?_, ?_⟩
    · rintro bytes ⟨⟩
      exact hcomponent hmodel
    · rintro bytes ⟨⟩
      exact hcomponent hversion
  | none, some _ => cases h
  | some _, none => cases h

/-- The framing of the parts fits in the slack. -/
theorem length_embeddingWire_le {embedding : Embedding}
    (h : validateEmbedding embedding = .ok ()) :
    (embeddingWire embedding).length ≤ maxValueBodyBytes := by
  obtain ⟨hsound, hidentity⟩ := validateEmbedding_eq_ok.mp h
  obtain ⟨hmodel, hversion⟩ := validateOptionalIdentity_eq_ok hidentity
  have hdimension : (Varint.encode embedding.dimension).length ≤ 5 :=
    Varint.length_encode_le (embedding.dimension.isLt.trans (by decide))
  have hvector : (Wire.bytes embedding.vectorBytes).length ≤ 4 + embedding.vectorBytes.length :=
    Wire.length_bytes_le (hsound.length_le.trans_lt (by decide))
  have hcount : (Varint.encode embedding.metadata.length).length ≤ 2 :=
    Varint.length_encode_le (hsound.count_le.trans_lt (by decide))
  have hmodel' := length_option_le hmodel
  have hversion' := length_option_le hversion
  have hentries := sum_entryWire_le hsound.entries
  have hlength := hsound.length_le
  have hsize := hsound.size_le
  have hentryCount := hsound.count_le
  simp only [embeddingWire, List.length_append, List.length_cons, Wire.length_seq]
  unfold maxValueBodyBytes maxMetadataEntries maxComponentBytes at *
  omega

/-! ## The format can be read back -/

private theorem embeddingWire_injective : Function.Injective embeddingWire := by
  have hentry : SelfDelimiting Set.univ entryWire := fun _ _ _ _ ↦
    (Wire.selfDelimiting_bytes.prod Wire.selfDelimiting_bytes) ⟨trivial, trivial⟩ ⟨trivial, trivial⟩
  have hcomponent := Wire.selfDelimiting_option Wire.selfDelimiting_bytes
  rintro ⟨dimension, scalar, vector, model, version, metadata, _⟩
    ⟨dimension', scalar', vector', model', version', metadata', _⟩ h
  obtain ⟨hdimension, h⟩ := Wire.selfDelimiting_varint trivial trivial h
  obtain ⟨hscalar, h⟩ : scalarIndex scalar = scalarIndex scalar' ∧ _ := List.cons.inj h
  obtain ⟨rfl, h⟩ := Wire.selfDelimiting_bytes trivial trivial h
  obtain ⟨rfl, h⟩ := hcomponent trivial trivial h
  obtain ⟨rfl, h⟩ := hcomponent trivial trivial h
  obtain ⟨rfl, -⟩ := Wire.selfDelimiting_seq hentry trivial trivial (congrArg (· ++ []) h)
  obtain rfl := Fin.ext hdimension
  obtain rfl : scalar = scalar' := by
    cases scalar <;> cases scalar' <;> first | rfl | exact absurd hscalar (by decide)
  rfl

/-- There is a library that writes embeddings in the wire format. -/
@[reducible] noncomputable def library : PostcardWire Embedding embeddingWire :=
  .ofInjective embeddingWire_injective

/-! ## Stored embeddings can be read -/

section Storing

variable [PostcardWire Embedding embeddingWire] {embedding : Embedding}

private theorem encodeEmbedding_eq_ok {bytes : Bytes} :
    encodeEmbedding embedding = .ok bytes ↔ validateEmbedding embedding = .ok () ∧
      bytes = valueSchemaVersion :: embeddingWire embedding := by
  rw [encodeEmbedding, PostcardWire.toAllocvec_eq, bind_eq_ok]
  constructor
  · rintro ⟨⟨⟩, hvalid, h⟩
    exact ⟨hvalid, (Except.ok.inj h).symm⟩
  · rintro ⟨hvalid, rfl⟩
    exact ⟨(), hvalid, rfl⟩

private theorem decodeEmbedding_wire (h : validateEmbedding embedding = .ok ()) :
    decodeEmbedding (valueSchemaVersion :: embeddingWire embedding) = .ok embedding := by
  have hwritten : Postcard.toAllocvec embedding = .ok (embeddingWire embedding) :=
    PostcardWire.toAllocvec_eq embedding
  have hread := Postcard.takeFromBytes_toAllocvec embedding _ hwritten
  rw [decodeEmbedding, if_neg (not_not.mpr rfl), if_neg (length_embeddingWire_le h).not_gt, hread]
  simp only [Except.mapError, bind, Except.bind]
  rw [if_neg (not_not.mpr rfl), h, hwritten]
  exact if_neg (not_not.mpr rfl)

/-- **Stored embeddings can be read.** An embedding that was built through the interface is accepted
by the encoder exactly if its model is, and what the encoder writes is within the limit of the
decoder and decoded to the same embedding. -/
theorem encodeEmbedding_readable (h : Reachable embedding) :
    ((∃ bytes, encodeEmbedding embedding = .ok bytes) ↔
      validateOptionalIdentity embedding.model embedding.modelVersion = .ok ()) ∧
    ∀ bytes, encodeEmbedding embedding = .ok bytes →
      bytes.tail.length ≤ maxValueBodyBytes ∧ decodeEmbedding bytes = .ok embedding := by
  refine ⟨⟨?_, fun hidentity ↦ ?_⟩, fun bytes hbytes ↦ ?_⟩
  · rintro ⟨bytes, hbytes⟩
    exact (validateEmbedding_eq_ok.mp (encodeEmbedding_eq_ok.mp hbytes).1).2
  · exact ⟨_, encodeEmbedding_eq_ok.mpr ⟨validateEmbedding_eq_ok.mpr ⟨h.sound, hidentity⟩, rfl⟩⟩
  · obtain ⟨hvalid, rfl⟩ := encodeEmbedding_eq_ok.mp hbytes
    exact ⟨length_embeddingWire_le hvalid, decodeEmbedding_wire hvalid⟩

end Storing

/-- A vector of one element with a model and an entry of metadata. -/
theorem encodeEmbedding_readable_one :
    letI := library
    ∃ embedding, Reachable embedding ∧ embedding.metadata = [([1], [2])] ∧
      ∃ bytes, encodeEmbedding embedding = .ok bytes ∧ decodeEmbedding bytes = .ok embedding := by
  let := library
  let start : Embedding := ⟨1, .f16, [0, 0], none, none, [], .nil⟩
  have hstart : fromBytes 1 .f16 [0, 0] = .ok start := by decide +kernel
  have hreachable := ((Reachable.fromBytes hstart).setModel [3] [4]).insertMetadata [1] [2]
  obtain ⟨haccepts, hreads⟩ := encodeEmbedding_readable hreachable
  obtain ⟨bytes, hbytes⟩ := haccepts.mpr (by decide +kernel)
  exact ⟨_, hreachable, by decide +kernel, bytes, hbytes, (hreads bytes hbytes).2⟩

end Embedding

end MeteorDB
