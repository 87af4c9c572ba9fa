import MeteorDB.Lib.SelfDelimiting
import MeteorDB.Lib.Varint

/-!
# A compact wire format

Values are written one after the other without names or padding: numbers in groups of seven bits,
signed numbers folded onto the natural ones first, strings and sequences after their length, and a
tag before an optional value. The format is self-delimiting piece by piece, so a composite value is
determined by its bytes, and the length of a composite value is a sum over its pieces.
-/

namespace Wire

variable {α : Type}

/-! ## Pieces -/

/-- A string of bytes after its length. -/
def bytes (value : Bytes) : Bytes := Varint.encode value.length ++ value

/-- The elements of a sequence after their number. -/
def seq (encode : α → Bytes) (values : List α) : Bytes :=
  Varint.encode values.length ++ values.flatMap encode

/-- An optional value after a tag. -/
def option (encode : α → Bytes) (value : Option α) : Bytes :=
  value.elim [0] fun a ↦ 1 :: encode a

/-- Folds the integers onto the natural numbers: 0, -1, 1, -2 and so on. -/
def zigzag (n : ℤ) : ℕ := if 0 ≤ n then (2 * n).toNat else (-2 * n - 1).toNat

/-! ## Lengths -/

theorem length_bytes (value : Bytes) :
    (bytes value).length = (Varint.encode value.length).length + value.length :=
  List.length_append

theorem length_seq (encode : α → Bytes) (values : List α) :
    (seq encode values).length
      = (Varint.encode values.length).length + (values.map fun a ↦ (encode a).length).sum := by
  rw [seq, List.length_append, List.length_flatMap]

theorem zigzag_lt {n : ℤ} {w : ℕ} (hlower : -2 ^ w ≤ n) (hupper : n < 2 ^ w) :
    zigzag n < 2 ^ (w + 1) := by
  rw [zigzag, pow_succ]
  zify
  split_ifs with h
  · rw [Int.toNat_of_nonneg (by omega)]
    omega
  · rw [Int.toNat_of_nonneg (by omega)]
    omega

theorem length_bytes_le {k : ℕ} {value : Bytes} (h : value.length < 128 ^ (k + 1)) :
    (bytes value).length ≤ k + 1 + value.length := by
  rw [length_bytes]
  exact Nat.add_le_add_right (Varint.length_encode_le h) _

/-! ## Reading back -/

theorem zigzag_injective : Function.Injective zigzag := by
  intro m n h
  unfold zigzag at h
  split_ifs at h <;> omega

theorem selfDelimiting_varint : SelfDelimiting Set.univ Varint.encode := by
  intro m _ n _ x y h
  have hm : Varint.Reads (Varint.encode m ++ x) m _ := ⟨List.prefix_append _ _, rfl⟩
  have hn : Varint.Reads (Varint.encode m ++ x) n _ := ⟨h ▸ List.prefix_append _ _, rfl⟩
  obtain ⟨rfl, -⟩ := hm.unique hn
  exact ⟨rfl, List.append_cancel_left h⟩

theorem selfDelimiting_bytes : SelfDelimiting Set.univ bytes :=
  fun _ _ _ _ ↦ selfDelimiting_varint.counted trivial trivial

theorem selfDelimiting_option {encode : α → Bytes} (h : SelfDelimiting Set.univ encode) :
    SelfDelimiting Set.univ (option encode) :=
  fun _ _ _ _ ↦ h.option (by decide) (fun _ _ ↦ trivial) (fun _ _ ↦ trivial)

theorem selfDelimiting_seq {encode : α → Bytes} (h : SelfDelimiting Set.univ encode) :
    SelfDelimiting Set.univ (seq encode) := by
  intro l _ l' _ x y hxy
  simp only [seq, List.append_assoc] at hxy
  obtain ⟨hlength, hrest⟩ := selfDelimiting_varint trivial trivial hxy
  exact h.flatMap (fun _ _ ↦ trivial) (fun _ _ ↦ trivial) hlength hrest

end Wire
