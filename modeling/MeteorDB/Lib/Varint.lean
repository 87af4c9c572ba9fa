import MeteorDB.Lib.ByteString

/-!
# Variable-length integers

A natural number is written in base 128, least significant digit first, one digit a byte; the high
bit of a byte says that more digits follow. The encoding of a number has no leading zeros, so no
byte string begins with two of them (`Reads.unique`).

Readers differ in how they bound what they accept, so there is none here. `Reads` says what a reader
has to find, and `reads_last` and `reads_more` how one byte after the other decides it.
-/

namespace Varint

/-! ## Encoding -/

/-- The base-128 digits of a number; all bytes but the last are marked. -/
def encode (n : ℕ) : Bytes :=
  if n < 128 then [Fin.ofNat 256 n] else Fin.ofNat 256 (n % 128 + 128) :: encode (n / 128)
termination_by n
decreasing_by omega

theorem encode_of_lt {n : ℕ} (h : n < 128) : encode n = [Fin.ofNat 256 n] := by
  rw [encode, if_pos h]

theorem encode_of_le {n : ℕ} (h : 128 ≤ n) :
    encode n = Fin.ofNat 256 (n % 128 + 128) :: encode (n / 128) := by
  rw [encode, if_neg (by omega)]

theorem length_encode_pos (n : ℕ) : 0 < (encode n).length := by
  rw [encode]
  split_ifs
  · exact Nat.one_pos
  · exact Nat.succ_pos _

/-- A number of `7 * k` bits has at most `k` digits. -/
theorem length_encode_le {k n : ℕ} (h : n < 128 ^ (k + 1)) : (encode n).length ≤ k + 1 := by
  induction k generalizing n with
  | zero =>
    rw [encode_of_lt (by omega)]
    exact le_refl _
  | succ k ih =>
    rcases lt_or_ge n 128 with hlt | hge
    · rw [encode_of_lt hlt]
      exact Nat.succ_le_succ (Nat.zero_le _)
    · rw [encode_of_le hge, List.length_cons]
      refine Nat.succ_le_succ (ih ?_)
      rw [pow_succ] at h
      exact Nat.div_lt_of_lt_mul (by omega)

/-- A number has few digits in comparison with its size. -/
theorem length_encode_le_div (n : ℕ) : (encode n).length ≤ n / 128 + 1 := by
  induction n using Nat.strong_induction_on with
  | _ n ih =>
    rcases lt_or_ge n 128 with hlt | hge
    · rw [encode_of_lt hlt]
      exact Nat.succ_le_succ (Nat.zero_le _)
    · have hdigits := ih (n / 128) (by omega)
      rw [encode_of_le hge, List.length_cons]
      omega

/-! ## Decoding -/

/-- Whether a byte is the last one of a number. -/
def isLast (byte : Byte) : Prop := byte.val < 128

instance (byte : Byte) : Decidable (isLast byte) := inferInstanceAs (Decidable (byte.val < 128))

/-- `Reads bytes n l`: the bytes begin with the digits of `n`, which are `l` many. -/
def Reads (bytes : Bytes) (n l : ℕ) : Prop := encode n <+: bytes ∧ l = (encode n).length

theorem reads_nil {n l : ℕ} : ¬ Reads [] n l := by
  rintro ⟨hpre, -⟩
  have hlength := length_encode_pos n
  rw [List.prefix_nil.mp hpre] at hlength
  exact absurd hlength (lt_irrefl 0)

/-- A last byte is a number by itself. -/
theorem reads_last {byte : Byte} {bytes : Bytes} {n l : ℕ} (h : isLast byte) :
    Reads (byte :: bytes) n l ↔ n = byte.val ∧ l = 1 := by
  constructor
  · rintro ⟨hpre, rfl⟩
    rcases lt_or_ge n 128 with hlt | hge
    · rw [encode_of_lt hlt, List.cons_prefix_cons] at hpre
      rw [encode_of_lt hlt, ← hpre.1, Fin.val_ofNat, Nat.mod_eq_of_lt (by omega)]
      exact ⟨rfl, rfl⟩
    · rw [encode_of_le hge, List.cons_prefix_cons] at hpre
      have hbyte := congrArg Fin.val hpre.1
      rw [Fin.val_ofNat] at hbyte
      unfold isLast at h
      omega
  · rintro ⟨rfl, rfl⟩
    rw [Reads, encode_of_lt h, List.cons_prefix_cons]
    exact ⟨⟨Fin.ext (Nat.mod_eq_of_lt byte.isLt), List.nil_prefix⟩, rfl⟩

/-- After a byte that is not the last come the higher digits, and they are not zero. -/
theorem reads_more {byte : Byte} {bytes : Bytes} {n l : ℕ} (h : ¬ isLast byte) :
    Reads (byte :: bytes) n l ↔
      ∃ m k, Reads bytes m k ∧ m ≠ 0 ∧ n = byte.val % 128 + 128 * m ∧ l = k + 1 := by
  have hbyte := byte.isLt
  unfold isLast at h
  constructor
  · rintro ⟨hpre, rfl⟩
    rcases lt_or_ge n 128 with hlt | hge
    · rw [encode_of_lt hlt, List.cons_prefix_cons] at hpre
      have hvalue := congrArg Fin.val hpre.1
      rw [Fin.val_ofNat] at hvalue
      omega
    · rw [encode_of_le hge, List.cons_prefix_cons] at hpre
      have hvalue := congrArg Fin.val hpre.1
      rw [Fin.val_ofNat] at hvalue
      refine ⟨n / 128, _, ⟨hpre.2, rfl⟩, by omega, by omega, ?_⟩
      rw [encode_of_le hge, List.length_cons]
  · rintro ⟨m, k, ⟨hpre, rfl⟩, hm, rfl, rfl⟩
    have hge : 128 ≤ byte.val % 128 + 128 * m := by omega
    have hdiv : (byte.val % 128 + 128 * m) / 128 = m := by omega
    rw [Reads, encode_of_le hge, hdiv, List.cons_prefix_cons]
    exact ⟨⟨Fin.ext (by rw [Fin.val_ofNat]; omega), hpre⟩, rfl⟩

/-- The number that a byte string begins with is determined by it. -/
theorem Reads.unique {bytes : Bytes} {m n k l : ℕ} (h : Reads bytes m k) (h' : Reads bytes n l) :
    m = n ∧ k = l := by
  induction bytes generalizing m n k l with
  | nil => exact absurd h reads_nil
  | cons byte bytes ih =>
    by_cases hlast : isLast byte
    · obtain ⟨rfl, rfl⟩ := (reads_last hlast).mp h
      obtain ⟨rfl, rfl⟩ := (reads_last hlast).mp h'
      exact ⟨rfl, rfl⟩
    · obtain ⟨m, k, hm, -, rfl, rfl⟩ := (reads_more hlast).mp h
      obtain ⟨n, l, hn, -, rfl, rfl⟩ := (reads_more hlast).mp h'
      obtain ⟨rfl, rfl⟩ := ih hm hn
      exact ⟨rfl, rfl⟩

end Varint
