import MeteorDB.Workloads.FeatureStore

/-!
# The keys of the three adapters

The feature store, the embedding store and the inference cache write into one engine. Each starts
its keys with a text of its own, followed by the namespace and the components of the logical key.
Embedding keys use escaped fields with tags for the optional ones; inference keys use fields that
are preceded by their lengths, a counted list of parameters, and the length and digest of the input.

`AdapterKey.encode_inj` says that no two logical keys share an engine key.
-/

namespace MeteorDB

open ByteString OrderedList Decoder

/-! ## Embedding keys -/

/-- The entity and the optional model of an embedding. -/
@[ext] structure EmbeddingKey where
  entityId : Bytes
  model : Option Bytes
  modelVersion : Option Bytes
  deriving DecidableEq

/-- A model and its version are both there or both absent. -/
def validateOptionalIdentity (model modelVersion : Option Bytes) : Result Unit :=
  match model, modelVersion with
  | none, none => .ok ()
  | some model, some version => do
    validateComponent "model" model
    validateComponent "model_version" version
  | _, _ =>
    .error (.invalidArgument "model and model_version must both be present or absent")

def embeddingKeyPrefix : Bytes := 0 :: utf8 "meteordb:embedding-store" ++ [0]

def embeddingKeySchemaVersion : Byte := 1

/-- A store over an engine, with a namespace that has been checked. -/
structure EmbeddingStore where
  nameSpace : Bytes
  valid : validateComponent "namespace" nameSpace = .ok ()

def EmbeddingStore.encodeKey (store : EmbeddingStore) (key : EmbeddingKey) : Result Bytes := do
  validateComponent "entity_id" key.entityId
  validateOptionalIdentity key.model key.modelVersion
  return embeddingKeyPrefix ++ embeddingKeySchemaVersion :: (pushEscaped store.nameSpace
    ++ (pushOptional key.model ++ (pushOptional key.modelVersion ++ pushEscaped key.entityId)))

theorem EmbeddingStore.encodeKey_eq_ok {store : EmbeddingStore} {key : EmbeddingKey}
    {encoded : Bytes} (h : store.encodeKey key = .ok encoded) :
    encoded = embeddingKeyPrefix ++ embeddingKeySchemaVersion :: (pushEscaped store.nameSpace
      ++ (pushOptional key.model
        ++ (pushOptional key.modelVersion ++ pushEscaped key.entityId))) := by
  obtain ⟨-, -, hidentity⟩ := bind_eq_ok.mp h
  obtain ⟨-, -, hbytes⟩ := bind_eq_ok.mp hidentity
  exact (Except.ok.inj hbytes).symm

theorem EmbeddingStore.encodeKey_inj {store store' : EmbeddingStore} {key key' : EmbeddingKey}
    {encoded : Bytes} (h : store.encodeKey key = .ok encoded)
    (h' : store'.encodeKey key' = .ok encoded) :
    store.nameSpace = store'.nameSpace ∧ key = key' := by
  have hboth := List.append_cancel_left ((encodeKey_eq_ok h).symm.trans (encodeKey_eq_ok h'))
  obtain ⟨hnameSpace, hmodels⟩ :=
    selfDelimiting_pushEscaped trivial trivial (List.cons.inj hboth).2
  obtain ⟨hmodel, hversions⟩ := selfDelimiting_pushOptional trivial trivial hmodels
  obtain ⟨hversion, hids⟩ := selfDelimiting_pushOptional trivial trivial hversions
  exact ⟨hnameSpace, EmbeddingKey.ext (encodeUserKey_injective hids) hmodel hversion⟩

/-! ## Inference keys -/

/-- The request fields of an inference: the input enters by its length and digest, the parameters
are a map in the order of their names. -/
@[ext] structure InferenceKey where
  model : Bytes
  modelVersion : Bytes
  inputLen : ℕ
  inputDigest : List.Vector Byte 32
  parameters : List (Bytes × Bytes)
  increasing : Increasing Prod.fst parameters

def maxNamespaceBytes : ℕ := 16 * 1024

def maxModelBytes : ℕ := 16 * 1024

def maxModelVersionBytes : ℕ := 16 * 1024

def maxInputBytes : ℕ := 16 * 1024 * 1024

def maxParameterCount : ℕ := 256

def maxParameterComponentBytes : ℕ := 16 * 1024

def maxKeyMaterialBytes : ℕ := 512 * 1024

def inferenceKeyPrefix : Bytes := 0 :: utf8 "meteordb:inference-cache" ++ [0]

def inferenceKeySchemaVersion : Byte := 1

/-- A sum of sizes, with an error if it overflows. -/
def addMaterial (size : ℕ) (sizes : List ℕ) : Result ℕ :=
  match sizes.foldlM checkedAdd size with
  | some total => .ok total
  | none => .error (.invalidArgument "cache key size overflow")

/-- Checks a parameter and adds its size. -/
def addParameter (materialBytes : ℕ) (parameter : Bytes × Bytes) : Result ℕ := do
  validateRequired "parameter name" parameter.1
  validateMax "parameter name" parameter.1.length maxParameterComponentBytes
  validateMax "parameter value" parameter.2.length maxParameterComponentBytes
  addMaterial materialBytes [parameter.1.length, parameter.2.length]

/-- A cache over an engine, with a namespace that has been checked. -/
structure InferenceCache where
  nameSpace : Bytes
  required : validateRequired "namespace" nameSpace = .ok ()
  bounded : validateMax "namespace" nameSpace.length maxNamespaceBytes = .ok ()

namespace InferenceCache

/-- The bytes of a key that has passed the checks. -/
def keyBytes (cache : InferenceCache) (key : InferenceKey) : Bytes :=
  inferenceKeyPrefix ++ inferenceKeySchemaVersion :: (pushBytes cache.nameSpace
    ++ (pushBytes key.model ++ (pushBytes key.modelVersion ++ (pushU32 key.parameters.length
      ++ (key.parameters.flatMap (fun parameter ↦ pushBytes parameter.1 ++ pushBytes parameter.2)
        ++ (beBytes 8 key.inputLen ++ key.inputDigest.toList))))))

def encodeKey (cache : InferenceCache) (key : InferenceKey) : Result Bytes := do
  validateRequired "model" key.model
  validateMax "model" key.model.length maxModelBytes
  validateRequired "model_version" key.modelVersion
  validateMax "model_version" key.modelVersion.length maxModelVersionBytes
  validateMax "input" key.inputLen maxInputBytes
  validateMax "parameter count" key.parameters.length maxParameterCount
  let materialBytes ←
    addMaterial cache.nameSpace.length [key.model.length, key.modelVersion.length]
  let materialBytes ← key.parameters.foldlM addParameter materialBytes
  validateMax "canonical key material" materialBytes maxKeyMaterialBytes
  return cache.keyBytes key

/-- Every length of a checked key fits its field. -/
structure Fits (key : InferenceKey) : Prop where
  model : key.model.length < 2 ^ 32
  modelVersion : key.modelVersion.length < 2 ^ 32
  inputLen : key.inputLen < 2 ^ 64
  count : key.parameters.length < 2 ^ 32
  parameters : ∀ parameter ∈ key.parameters,
    parameter.1.length < 2 ^ 32 ∧ parameter.2.length < 2 ^ 32

private theorem addParameter_eq_ok {materialBytes total : ℕ} {parameter : Bytes × Bytes}
    (h : addParameter materialBytes parameter = .ok total) :
    parameter.1.length < 2 ^ 32 ∧ parameter.2.length < 2 ^ 32 := by
  obtain ⟨⟨⟩, -, hname⟩ := bind_eq_ok.mp h
  obtain ⟨⟨⟩, hnameMax, hvalue⟩ := bind_eq_ok.mp hname
  obtain ⟨⟨⟩, hvalueMax, -⟩ := bind_eq_ok.mp hvalue
  rw [validateMax_eq_ok] at hnameMax hvalueMax
  unfold maxParameterComponentBytes at hnameMax hvalueMax
  omega

private theorem foldlM_addParameter_eq_ok {parameters : List (Bytes × Bytes)}
    {materialBytes total : ℕ} (h : parameters.foldlM addParameter materialBytes = .ok total) :
    ∀ parameter ∈ parameters, parameter.1.length < 2 ^ 32 ∧ parameter.2.length < 2 ^ 32 := by
  induction parameters generalizing materialBytes with
  | nil => exact nofun
  | cons parameter parameters ih =>
    rw [List.foldlM_cons] at h
    obtain ⟨size, hfirst, hrest⟩ := bind_eq_ok.mp h
    exact List.forall_mem_cons.mpr ⟨addParameter_eq_ok hfirst, ih hrest⟩

theorem encodeKey_eq_ok {cache : InferenceCache} {key : InferenceKey} {encoded : Bytes}
    (h : cache.encodeKey key = .ok encoded) : encoded = cache.keyBytes key ∧ Fits key := by
  unfold encodeKey at h
  obtain ⟨⟨⟩, -, h₁⟩ := bind_eq_ok.mp h
  obtain ⟨⟨⟩, hmodel, h₂⟩ := bind_eq_ok.mp h₁
  obtain ⟨⟨⟩, -, h₃⟩ := bind_eq_ok.mp h₂
  obtain ⟨⟨⟩, hversion, h₄⟩ := bind_eq_ok.mp h₃
  obtain ⟨⟨⟩, hinput, h₅⟩ := bind_eq_ok.mp h₄
  obtain ⟨⟨⟩, hcount, h₆⟩ := bind_eq_ok.mp h₅
  obtain ⟨start, -, h₇⟩ := bind_eq_ok.mp h₆
  obtain ⟨total, hparameters, h₈⟩ := bind_eq_ok.mp h₇
  obtain ⟨⟨⟩, -, hbytes⟩ := bind_eq_ok.mp h₈
  rw [validateMax_eq_ok] at hmodel hversion hinput hcount
  unfold maxModelBytes at hmodel
  unfold maxModelVersionBytes at hversion
  unfold maxInputBytes at hinput
  unfold maxParameterCount at hcount
  exact ⟨(Except.ok.inj hbytes).symm, by omega, by omega, by omega, by omega,
    foldlM_addParameter_eq_ok hparameters⟩

private theorem nameSpace_lt (cache : InferenceCache) : cache.nameSpace.length < 2 ^ 32 := by
  have hbounded := validateMax_eq_ok.mp cache.bounded
  unfold maxNamespaceBytes at hbounded
  omega

theorem encodeKey_inj {cache cache' : InferenceCache} {key key' : InferenceKey} {encoded : Bytes}
    (h : cache.encodeKey key = .ok encoded) (h' : cache'.encodeKey key' = .ok encoded) :
    cache.nameSpace = cache'.nameSpace ∧ key = key' := by
  obtain ⟨rfl, hfits⟩ := encodeKey_eq_ok h
  obtain ⟨hsame, hfits'⟩ := encodeKey_eq_ok h'
  -- The fields are taken off one by one, each by its own length.
  have hfields := (List.cons.inj (List.append_cancel_left hsame)).2
  obtain ⟨hnameSpace, h₁⟩ :=
    selfDelimiting_pushBytes cache.nameSpace_lt cache'.nameSpace_lt hfields
  obtain ⟨hmodel, h₂⟩ := selfDelimiting_pushBytes hfits.model hfits'.model h₁
  obtain ⟨hversion, h₃⟩ := selfDelimiting_pushBytes hfits.modelVersion hfits'.modelVersion h₂
  obtain ⟨hcount, h₄⟩ := selfDelimiting_pushU32 hfits.count hfits'.count h₃
  obtain ⟨hparameters, h₅⟩ := (selfDelimiting_pushBytes.prod selfDelimiting_pushBytes).flatMap
    hfits.parameters hfits'.parameters hcount h₄
  obtain ⟨hinput, hdigest⟩ := List.append_inj h₅ (by simp)
  have hlength := congrArg beNat hinput
  have hlt : key.inputLen < 256 ^ 8 := hfits.inputLen.trans_le (by norm_num)
  have hlt' : key'.inputLen < 256 ^ 8 := hfits'.inputLen.trans_le (by norm_num)
  rw [beNat_beBytes_of_lt hlt, beNat_beBytes_of_lt hlt'] at hlength
  exact ⟨hnameSpace, InferenceKey.ext hmodel hversion hlength
    (List.Vector.toList_injective hdigest) hparameters⟩

end InferenceCache

/-! ## All adapters -/

/-- A logical key of one of the adapters, with the namespace it is used in. -/
inductive AdapterKey where
  | feature (store : FeatureStore) (key : FeatureKey)
  | embedding (store : EmbeddingStore) (key : EmbeddingKey)
  | inference (cache : InferenceCache) (key : InferenceKey)

namespace AdapterKey

/-- The engine key. -/
def encode : AdapterKey → Result Bytes
  | feature store key => store.encodeKey key
  | embedding store key => store.encodeKey key
  | inference cache key => cache.encodeKey key

/-- The text that the adapter's keys start with. -/
def adapterText : AdapterKey → Bytes
  | feature .. => featureKeyPrefix
  | embedding .. => embeddingKeyPrefix
  | inference .. => inferenceKeyPrefix

/-- The byte of a key that tells the adapters apart. -/
theorem getElem?_of_encode {adapterKey : AdapterKey} {encoded : Bytes}
    (h : adapterKey.encode = .ok encoded) : encoded[10]? = adapterKey.adapterText[10]? := by
  cases adapterKey with
  | feature store key =>
    rw [FeatureStore.encodeKey_eq_ok h, featureGroupBytes, List.append_assoc]
    exact List.getElem?_append_left (by decide +kernel)
  | embedding store key =>
    rw [EmbeddingStore.encodeKey_eq_ok h]
    exact List.getElem?_append_left (by decide +kernel)
  | inference cache key =>
    rw [(InferenceCache.encodeKey_eq_ok h).1, InferenceCache.keyBytes]
    exact List.getElem?_append_left (by decide +kernel)

private theorem distinct_texts :
    featureKeyPrefix[10]? ≠ embeddingKeyPrefix[10]? ∧
      featureKeyPrefix[10]? ≠ inferenceKeyPrefix[10]? ∧
      embeddingKeyPrefix[10]? ≠ inferenceKeyPrefix[10]? := by
  decide +kernel

/-- **Adapter keys never collide.** Two logical keys have one engine key only if they are of the
same adapter, in the same namespace, and equal. -/
theorem encode_inj {a b : AdapterKey} {encoded : Bytes} (ha : a.encode = .ok encoded)
    (hb : b.encode = .ok encoded) :
    (∃ store store' key, a = feature store key ∧ b = feature store' key ∧
      store.nameSpace = store'.nameSpace) ∨
    (∃ store store' key, a = embedding store key ∧ b = embedding store' key ∧
      store.nameSpace = store'.nameSpace) ∨
    ∃ cache cache' key, a = inference cache key ∧ b = inference cache' key ∧
      cache.nameSpace = cache'.nameSpace := by
  -- Keys of different adapters differ in the first letter of the adapter's name.
  have htext := (getElem?_of_encode ha).symm.trans (getElem?_of_encode hb)
  match a, b with
  | feature store key, feature store' key' =>
    obtain ⟨hnameSpace, rfl⟩ := FeatureStore.encodeKey_inj ha hb
    exact .inl ⟨store, store', key, rfl, rfl, hnameSpace⟩
  | embedding store key, embedding store' key' =>
    obtain ⟨hnameSpace, rfl⟩ := EmbeddingStore.encodeKey_inj ha hb
    exact .inr (.inl ⟨store, store', key, rfl, rfl, hnameSpace⟩)
  | inference cache key, inference cache' key' =>
    obtain ⟨hnameSpace, rfl⟩ := InferenceCache.encodeKey_inj ha hb
    exact .inr (.inr ⟨cache, cache', key, rfl, rfl, hnameSpace⟩)
  | feature .., embedding .. => exact absurd htext distinct_texts.1
  | feature .., inference .. => exact absurd htext distinct_texts.2.1
  | embedding .., feature .. => exact absurd htext.symm distinct_texts.1
  | embedding .., inference .. => exact absurd htext distinct_texts.2.2
  | inference .., feature .. => exact absurd htext.symm distinct_texts.2.1
  | inference .., embedding .. => exact absurd htext.symm distinct_texts.2.2

/-- A model-dependent embedding of an entity whose name has a zero byte. -/
private def zeroEmbedding : AdapterKey :=
  embedding ⟨[0, 255], by decide⟩ ⟨[7, 0], some [1], some [0]⟩

/-- The only embedding with the engine key of `zeroEmbedding` is that one. -/
theorem encode_inj_zeroEmbedding : ∃ encoded, zeroEmbedding.encode = .ok encoded ∧
    ∃ store store' key, zeroEmbedding = embedding store key ∧
      zeroEmbedding = embedding store' key ∧ store.nameSpace = store'.nameSpace := by
  obtain ⟨encoded, hencoded⟩ : ∃ encoded, zeroEmbedding.encode = .ok encoded := ⟨_, rfl⟩
  refine ⟨encoded, hencoded, ?_⟩
  rcases encode_inj hencoded hencoded with h | h | h
  · obtain ⟨_, _, _, hfeature, -⟩ := h
    exact absurd hfeature nofun
  · exact h
  · obtain ⟨_, _, _, hinference, -⟩ := h
    exact absurd hinference nofun

end AdapterKey

end MeteorDB
