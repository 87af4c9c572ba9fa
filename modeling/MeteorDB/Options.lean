import MeteorDB.Error

/-!
# Options

The configuration an engine is opened with, its defaults, and the check that every size and count
limit is nonzero. Sizes are `usize` values, here natural numbers below `2 ^ 64`.
-/

namespace MeteorDB

/-- The number of values of a `usize`. -/
def usizeRange : ℕ := 2 ^ 64

/-- Addition that reports overflow. -/
def checkedAdd (a b : ℕ) : Option ℕ := if a + b < usizeRange then some (a + b) else none

/-- Multiplication that reports overflow. -/
def checkedMul (a b : ℕ) : Option ℕ := if a * b < usizeRange then some (a * b) else none

/-- Subtraction that reports a result below zero. -/
def checkedSub (a b : ℕ) : Option ℕ := if b ≤ a then some (a - b) else none

theorem checkedAdd_eq_some {a b c : ℕ} :
    checkedAdd a b = some c ↔ c = a + b ∧ a + b < usizeRange := by
  unfold checkedAdd
  split_ifs with h
  · exact ⟨fun hc ↦ ⟨(Option.some.inj hc).symm, h⟩, fun hc ↦ congrArg some hc.1.symm⟩
  · exact ⟨nofun, fun hc ↦ absurd hc.2 h⟩

theorem checkedMul_eq_some {a b c : ℕ} :
    checkedMul a b = some c ↔ c = a * b ∧ a * b < usizeRange := by
  unfold checkedMul
  split_ifs with h
  · exact ⟨fun hc ↦ ⟨(Option.some.inj hc).symm, h⟩, fun hc ↦ congrArg some hc.1.symm⟩
  · exact ⟨nofun, fun hc ↦ absurd hc.2 h⟩

theorem checkedSub_eq_some {a b c : ℕ} : checkedSub a b = some c ↔ c = a - b ∧ b ≤ a := by
  unfold checkedSub
  split_ifs with h
  · exact ⟨fun hc ↦ ⟨(Option.some.inj hc).symm, h⟩, fun hc ↦ congrArg some hc.1.symm⟩
  · exact ⟨nofun, fun hc ↦ absurd hc.2 h⟩

/-- When a successful write is durable. -/
inductive Durability where
  | sync
  | buffered
  deriving DecidableEq, Repr

/-- How table blocks are compressed on disk. -/
inductive Compression where
  | none
  | snappy
  deriving DecidableEq, Repr

/-- The configuration of a database, apart from its path. -/
structure Options where
  durability : Durability
  memtableBytes : ℕ
  targetSstableBytes : ℕ
  blockBytes : ℕ
  restartInterval : ℕ
  bloomBitsPerKey : Byte
  blockCacheBytes : ℕ
  maxImmutableMemtables : ℕ
  maxKeyBytes : ℕ
  maxValueBytes : ℕ
  maxBatchBytes : ℕ

/-- The defaults. -/
def Options.new : Options where
  durability := .sync
  memtableBytes := 64 * 1024 * 1024
  targetSstableBytes := 64 * 1024 * 1024
  blockBytes := 4 * 1024
  restartInterval := 16
  bloomBitsPerKey := 10
  blockCacheBytes := 64 * 1024 * 1024
  maxImmutableMemtables := 4
  maxKeyBytes := 1024 * 1024
  maxValueBytes := 64 * 1024 * 1024
  maxBatchBytes := 64 * 1024 * 1024

/-- The check of one limit. -/
def validateNonzero (field : String) (value : ℕ) : Result Unit :=
  if value = 0 then .error (.invalidArgument (field ++ " must be greater than zero")) else .ok ()

/-- The check of every limit; the first one that is zero is named in the error. -/
def Options.validate (options : Options) : Result Unit := do
  validateNonzero "memtable_bytes" options.memtableBytes
  validateNonzero "target_sstable_bytes" options.targetSstableBytes
  validateNonzero "block_bytes" options.blockBytes
  validateNonzero "restart_interval" options.restartInterval
  validateNonzero "bloom_bits_per_key" options.bloomBitsPerKey
  validateNonzero "block_cache_bytes" options.blockCacheBytes
  validateNonzero "max_immutable_memtables" options.maxImmutableMemtables
  validateNonzero "max_key_bytes" options.maxKeyBytes
  validateNonzero "max_value_bytes" options.maxValueBytes
  validateNonzero "max_batch_bytes" options.maxBatchBytes

@[simp] theorem validateNonzero_eq_ok {field : String} {value : ℕ} :
    validateNonzero field value = .ok () ↔ value ≠ 0 := by
  unfold validateNonzero
  split_ifs with h <;> simp [h]

/-- The defaults pass their own check. -/
theorem Options.validate_new : Options.new.validate = .ok () := by
  simp [Options.validate, Options.new, validateNonzero, bind, Except.bind]

end MeteorDB
