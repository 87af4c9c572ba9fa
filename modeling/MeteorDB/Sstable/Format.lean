import MeteorDB.Lib.Varint
import MeteorDB.Options

/-!
# Integers in tables

Lengths and offsets in a table are varints. The reader takes at most ten bytes, and only the
shortest form of a number that fits into 64 bits (`readVarint_eq_ok`).
-/

namespace MeteorDB

open Varint

/-- The bytes of a varint. -/
def putVarint (value : ℕ) : Bytes :=
  if 0x80 ≤ value then Fin.ofNat 256 (value % 256 ||| 0x80) :: putVarint (value >>> 7)
  else [Fin.ofNat 256 value]
termination_by value
decreasing_by
  rw [Nat.shiftRight_eq_div_pow]
  omega

private theorem or_mark : ∀ byte : Byte, byte.val ||| 0x80 = byte.val % 128 + 128 := by
  decide +kernel

theorem putVarint_eq_encode (value : ℕ) : putVarint value = encode value := by
  induction value using Nat.strong_induction_on with
  | _ value ih =>
    rw [putVarint]
    split_ifs with hle
    · have hmark := or_mark (Fin.ofNat 256 value)
      rw [Fin.val_ofNat] at hmark
      have hshift : value >>> 7 = value / 128 := Nat.shiftRight_eq_div_pow value 7
      rw [encode_of_le hle, hshift, ih _ (by omega), hmark]
      congr 2
      omega
    · rw [encode_of_lt (by omega)]

/-- The loop of `readVarint` with a number of bytes left to read. -/
def readVarintFrom (encoded : Bytes) (start : ℕ) (field : String) :
    ℕ → ℕ → Except String (ℕ × ℕ)
  | 0, _ => .error (field ++ " varint exceeds ten bytes")
  | remaining + 1, value =>
    let index := 9 - remaining
    match checkedAdd start index with
    | none => .error (field ++ " cursor overflows usize")
    | some position =>
      match encoded[position]? with
      | none => .error ("truncated " ++ field ++ " varint")
      | some byte =>
        if index = 9 ∧ 1 < byte.val then .error (field ++ " varint overflows u64")
        else
          let value := value ||| ((byte.val &&& 0x7f) <<< (index * 7))
          if byte.val &&& 0x80 = 0 then
            if 0 < index ∧ byte.val = 0 then
              .error (field ++ " varint is not canonically encoded")
            else .ok (value, index + 1)
          else readVarintFrom encoded start field remaining value

/-- Reads a varint at a position. Returns it with the number of bytes it takes. -/
def readVarint (encoded : Bytes) (start : ℕ) (field : String) : Except String (ℕ × ℕ) :=
  readVarintFrom encoded start field 10 0

/-! ## What the reader accepts -/

private theorem and_digit : ∀ byte : Byte, byte.val &&& 0x7f = byte.val % 128 := by
  decide +kernel

private theorem and_mark : ∀ byte : Byte, byte.val &&& 0x80 = 0 ↔ isLast byte := by
  decide +kernel

/-- A further digit is put above the digits that were read. -/
theorem or_shift {value index : ℕ} (h : value < 128 ^ index) (digit : ℕ) :
    value ||| (digit <<< (index * 7)) = value + digit * 128 ^ index := by
  have hpow : 128 ^ index = 2 ^ (index * 7) := by
    rw [mul_comm, pow_mul]
    rfl
  rw [hpow] at h ⊢
  rw [Nat.shiftLeft_eq, Nat.or_comm, mul_comm digit, ← Nat.two_pow_add_eq_or_of_lt h, Nat.add_comm]

/-- The tenth byte has room for one bit. -/
theorem lt_of_digit {value index digit : ℕ} (hvalue : value < 128 ^ index) (hindex : index ≤ 9)
    (hdigit : digit < 128) (hlast : index = 9 → digit ≤ 1) :
    value + digit * 128 ^ index < 2 ^ 64 := by
  rcases hindex.lt_or_eq with hlt | rfl
  · have hsucc : value + digit * 128 ^ index < 128 ^ (index + 1) := by
      rw [pow_succ]
      nlinarith
    have hle : 128 ^ (index + 1) ≤ 128 ^ 9 := Nat.pow_le_pow_right (by norm_num) hlt
    norm_num at hle
    omega
  · have hle := hlast rfl
    norm_num at hvalue ⊢
    omega

/-- What is left to read after some digits. -/
def VarintRest (encoded : Bytes) (start index value n count : ℕ) : Prop :=
  ∃ m k, Reads (encoded.drop (start + index)) m k ∧ (0 < index → m ≠ 0) ∧
    n = value + m * 128 ^ index ∧ n < 2 ^ 64 ∧ count = index + k ∧ start + count ≤ usizeRange

private theorem rest_last {encoded : Bytes} {start index value n count : ℕ} {byte : Byte}
    {bytes : Bytes} (hdrop : encoded.drop (start + index) = byte :: bytes) (hlast : isLast byte) :
    VarintRest encoded start index value n count ↔ (0 < index → byte.val ≠ 0) ∧
      n = value + byte.val * 128 ^ index ∧ n < 2 ^ 64 ∧ count = index + 1 ∧
        start + count ≤ usizeRange := by
  unfold VarintRest
  rw [hdrop]
  simp only [reads_last hlast]
  constructor
  · rintro ⟨m, k, ⟨rfl, rfl⟩, hrest⟩
    exact hrest
  · exact fun hrest ↦ ⟨_, _, ⟨rfl, rfl⟩, hrest⟩

private theorem rest_more {encoded : Bytes} {start index value n count : ℕ} {byte : Byte}
    {bytes : Bytes} (hdrop : encoded.drop (start + index) = byte :: bytes) (hmore : ¬ isLast byte) :
    VarintRest encoded start index value n count ↔
      VarintRest encoded start (index + 1) (value + byte.val % 128 * 128 ^ index) n count := by
  have hnext : encoded.drop (start + (index + 1)) = bytes := by
    rw [← Nat.add_assoc, ← List.drop_drop, hdrop]
    rfl
  have hvalue : ∀ m, value + (byte.val % 128 + 128 * m) * 128 ^ index
      = value + byte.val % 128 * 128 ^ index + m * 128 ^ (index + 1) := by
    intro m
    rw [pow_succ]
    ring
  unfold VarintRest
  rw [hdrop, hnext]
  simp only [reads_more hmore]
  constructor
  · rintro ⟨_, _, ⟨m, k, hreads, hm, rfl, rfl⟩, -, hn, hlt, hcount, hend⟩
    exact ⟨m, k, hreads, fun _ ↦ hm, hn.trans (hvalue m), hlt, by omega, hend⟩
  · rintro ⟨m, k, hreads, hm, hn, hlt, hcount, hend⟩
    have hm := hm (Nat.succ_pos index)
    exact ⟨_, _, ⟨m, k, hreads, hm, rfl, rfl⟩, fun _ ↦ by omega, hn.trans (hvalue m).symm, hlt,
      by omega, hend⟩

private theorem rest_lt {encoded : Bytes} {start index value n count : ℕ}
    (h : VarintRest encoded start index value n count) : start + index < usizeRange := by
  obtain ⟨m, k, ⟨-, rfl⟩, -, -, -, rfl, hend⟩ := h
  have := length_encode_pos m
  omega

private theorem readVarintFrom_eq_ok {encoded : Bytes} {start : ℕ} {field : String} (remaining : ℕ)
    {index value n count : ℕ} (hindex : index + remaining = 10) (hvalue : value < 128 ^ index) :
    readVarintFrom encoded start field remaining value = .ok (n, count) ↔
      VarintRest encoded start index value n count := by
  induction remaining generalizing index value with
  | zero =>
    -- An eleventh byte would be above the range.
    refine iff_of_false nofun ?_
    rintro ⟨m, k, -, hm, rfl, hlt, -⟩
    have hpos : 0 < m := Nat.pos_of_ne_zero (hm (by omega))
    have hlarge : 128 ^ index ≤ m * 128 ^ index := Nat.le_mul_of_pos_left _ hpos
    rw [show index = 10 by omega] at hlarge hlt
    norm_num at hlarge hlt
    omega
  | succ remaining ih =>
    obtain rfl : index = 9 - remaining := by omega
    rw [readVarintFrom]
    unfold checkedAdd
    by_cases hposition : start + (9 - remaining) < usizeRange
    swap
    · rw [if_neg hposition]
      exact iff_of_false nofun fun hrest ↦ hposition (rest_lt hrest)
    rw [if_pos hposition]
    dsimp only
    cases hbyte : encoded[start + (9 - remaining)]? with
    | none =>
      refine iff_of_false nofun ?_
      rintro ⟨m, k, hreads, -⟩
      rw [List.drop_eq_nil_of_le (List.getElem?_eq_none_iff.mp hbyte)] at hreads
      exact reads_nil hreads
    | some byte =>
    have hdrop : encoded.drop (start + (9 - remaining))
        = byte :: encoded.drop (start + (9 - remaining) + 1) := by
      obtain ⟨hlt, hget⟩ := List.getElem?_eq_some_iff.mp hbyte
      rw [List.drop_eq_getElem_cons hlt, hget]
    dsimp only
    rw [and_digit, or_shift hvalue]
    have hsmall := byte.isLt
    by_cases hlast : isLast byte
    · have hdigit : byte.val % 128 = byte.val := Nat.mod_eq_of_lt hlast
      rw [rest_last hdrop hlast, hdigit, if_pos ((and_mark byte).mpr hlast)]
      split_ifs with hbig hzero
      · refine iff_of_false nofun ?_
        rintro ⟨-, rfl, hlt, -⟩
        rw [hbig.1] at hlt
        norm_num at hlt
        omega
      · exact iff_of_false nofun fun hrest ↦ hrest.1 hzero.1 hzero.2
      · have hlt := lt_of_digit hvalue (by omega) hlast fun hnine ↦ by omega
        simp only [Except.ok.injEq, Prod.mk.injEq]
        constructor
        · rintro ⟨rfl, rfl⟩
          exact ⟨fun hpos hzero' ↦ hzero ⟨hpos, hzero'⟩, rfl, hlt, rfl, hposition⟩
        · rintro ⟨-, rfl, -, rfl, -⟩
          exact ⟨rfl, rfl⟩
    · rw [rest_more hdrop hlast, if_neg (mt (and_mark byte).mp hlast)]
      unfold isLast at hlast
      split_ifs with hbig
      · refine iff_of_false nofun ?_
        rintro ⟨m, k, -, hm, rfl, hlt, -⟩
        have hpos : 0 < m := Nat.pos_of_ne_zero (hm (Nat.succ_pos _))
        have hlarge := Nat.le_mul_of_pos_left (128 ^ (9 - remaining + 1)) hpos
        rw [hbig.1] at hlt hlarge
        norm_num at hlt hlarge
        omega
      · refine ih (by omega) ?_
        have hdigit : byte.val % 128 < 128 := Nat.mod_lt _ (by norm_num)
        rw [pow_succ]
        nlinarith

/-- **The reader accepts exactly the shortest forms.** -/
theorem readVarint_eq_ok {encoded : Bytes} {start : ℕ} {field : String} {n count : ℕ} :
    readVarint encoded start field = .ok (n, count) ↔
      Reads (encoded.drop start) n count ∧ n < 2 ^ 64 ∧ start + count ≤ usizeRange := by
  rw [readVarint, readVarintFrom_eq_ok 10 rfl (by norm_num)]
  unfold VarintRest
  rw [Nat.add_zero]
  constructor
  · rintro ⟨m, k, hreads, -, rfl, hlt, rfl, hend⟩
    rw [pow_zero, mul_one, Nat.zero_add] at hlt ⊢
    rw [Nat.zero_add] at hend ⊢
    exact ⟨hreads, hlt, hend⟩
  · rintro ⟨hreads, hlt, hend⟩
    exact ⟨n, count, hreads, fun hpos ↦ absurd hpos (lt_irrefl 0), by omega, hlt, by omega, hend⟩

theorem readVarint_putVarint {encoded : Bytes} {start n : ℕ} {field : String}
    (hpre : putVarint n <+: encoded.drop start) (hn : n < 2 ^ 64)
    (hend : start + (putVarint n).length ≤ usizeRange) :
    readVarint encoded start field = .ok (n, (putVarint n).length) := by
  refine readVarint_eq_ok.mpr ⟨?_, hn, hend⟩
  rw [putVarint_eq_encode] at hpre ⊢
  exact ⟨hpre, rfl⟩

theorem length_putVarint_le {n : ℕ} (h : n < 2 ^ 64) : (putVarint n).length ≤ 10 := by
  rw [putVarint_eq_encode]
  exact Varint.length_encode_le (h.trans (by norm_num))

/-- **Varints are read exactly as they are written.** A number is read back from where it was
written, whatever is around it in a slice of bytes. Whatever is read elsewhere is a `u64`, and the
bytes read are those that would have been written for it. -/
theorem readVarint_exact (field : String) :
    (∀ (n : U64) (front back : Bytes), (front ++ (putVarint n.val ++ back)).length < usizeRange →
      readVarint (front ++ (putVarint n.val ++ back)) front.length field
        = .ok (n.val, (putVarint n.val).length)) ∧
    ∀ (encoded : Bytes) (start n count : ℕ), readVarint encoded start field = .ok (n, count) →
      n < 2 ^ 64 ∧ count = (putVarint n).length ∧
        (encoded.drop start).take count = putVarint n := by
  refine ⟨fun n front back hslice ↦ ?_, fun encoded start n count hread ↦ ?_⟩
  · rw [List.length_append, List.length_append] at hslice
    refine readVarint_putVarint ?_ n.isLt (by omega)
    rw [List.drop_left]
    exact List.prefix_append _ _
  · obtain ⟨⟨hpre, hcount⟩, hlt, -⟩ := readVarint_eq_ok.mp hread
    rw [← putVarint_eq_encode] at hpre hcount
    refine ⟨hlt, hcount, ?_⟩
    rw [hcount]
    exact (List.prefix_iff_eq_take.mp hpre).symm

-- the two bytes of 300, a longer form of 1, and the largest number plus one
example : readVarint [0xac, 0x02] 0 "length" = .ok (300, 2) ∧
    readVarint [0x81, 0x00] 0 "length" = .error "length varint is not canonically encoded" ∧
    readVarint (List.replicate 9 0x80 ++ [2]) 0 "length"
      = .error "length varint overflows u64" := by
  decide +kernel

end MeteorDB
