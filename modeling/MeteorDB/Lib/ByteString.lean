import Mathlib

/-!
# Byte strings and fixed-width integers

A byte string is a list of bytes, compared lexicographically by the linear order `List` inherits
from `Fin 256`. Machine integers are `Fin (2 ^ w)`; they meet byte strings through the little-endian
codec `leBytes`/`leNat`, and through its reversal when the byte order has to agree with the numeric
one.

The order lemmas are stated for concatenations, since every composite key this library is used
for is compared component by component: equal heads cancel, heads of equal length decide unless
they coincide, and a fixed-width big-endian field compares as the number it holds.
-/

/-- One octet. -/
abbrev Byte := Fin 256

/-- A finite byte string, ordered lexicographically. -/
abbrev Bytes := List Byte

/-- A 64-bit unsigned integer. -/
abbrev U64 := Fin (2 ^ 64)

instance Byte.neZero : NeZero 256 := ⟨by decide⟩

instance U64.neZero : NeZero (2 ^ 64) := ⟨by decide⟩

instance U64.lawfulBEq : LawfulBEq U64 := inferInstance

namespace ByteString

/-! ## The little-endian codec -/

/-- The `w` low-order base-256 digits of `n`, least significant first. -/
def leBytes : ℕ → ℕ → Bytes
  | 0, _ => []
  | w + 1, n => Fin.ofNat 256 n :: leBytes w (n / 256)

/-- The number whose base-256 digits are the given bytes, least significant first. -/
def leNat : Bytes → ℕ
  | [] => 0
  | b :: bs => b.val + 256 * leNat bs

@[simp] theorem length_leBytes (w n : ℕ) : (leBytes w n).length = w := by
  induction w generalizing n with
  | zero => rfl
  | succ w ih => rw [leBytes, List.length_cons, ih]

theorem leNat_lt (bs : Bytes) : leNat bs < 256 ^ bs.length := by
  induction bs with
  | nil => simp [leNat]
  | cons b bs ih =>
    have hb := b.isLt
    rw [leNat, List.length_cons, pow_succ]
    omega

theorem leNat_leBytes (w n : ℕ) : leNat (leBytes w n) = n % 256 ^ w := by
  induction w generalizing n with
  | zero => simp [leBytes, leNat, Nat.mod_one]
  | succ w ih =>
    rw [leBytes, leNat, ih, pow_succ', Nat.mod_mul]
    rfl

theorem leNat_leBytes_of_lt {w n : ℕ} (h : n < 256 ^ w) : leNat (leBytes w n) = n := by
  rw [leNat_leBytes, Nat.mod_eq_of_lt h]

theorem leBytes_leNat (bs : Bytes) : leBytes bs.length (leNat bs) = bs := by
  induction bs with
  | nil => rfl
  | cons b bs ih =>
    have hb := b.isLt
    have hdiv : (b.val + 256 * leNat bs) / 256 = leNat bs := by omega
    have hdigit : Fin.ofNat 256 (b.val + 256 * leNat bs) = b := by
      apply Fin.ext
      rw [Fin.val_ofNat]
      omega
    rw [leNat, List.length_cons, leBytes, hdiv, ih, hdigit]

/-- The eight little-endian bytes of a 64-bit integer. -/
def u64LeBytes (x : U64) : Bytes := leBytes 8 x.val

/-- The 64-bit integer held by eight little-endian bytes. -/
def u64OfLeBytes (bs : Bytes) : U64 := Fin.ofNat (2 ^ 64) (leNat bs)

@[simp] theorem length_u64LeBytes (x : U64) : (u64LeBytes x).length = 8 := length_leBytes 8 _

@[simp] theorem u64OfLeBytes_u64LeBytes (x : U64) : u64OfLeBytes (u64LeBytes x) = x := by
  apply Fin.ext
  have hx : x.val < 256 ^ 8 := x.isLt
  rw [u64OfLeBytes, u64LeBytes, leNat_leBytes_of_lt hx, Fin.val_ofNat, Nat.mod_eq_of_lt x.isLt]

/-! ## Comparing concatenations -/

@[simp] theorem append_lt_append_left {p a b : Bytes} : p ++ a < p ++ b ↔ a < b := by
  induction p with
  | nil => rfl
  | cons x p ih => rw [List.cons_append, List.cons_append, List.cons_lt_cons_self, ih]

@[simp] theorem append_le_append_left {p a b : Bytes} : p ++ a ≤ p ++ b ↔ a ≤ b := by
  rw [← not_lt, ← not_lt, append_lt_append_left]

/-- Heads of equal length decide the comparison unless they coincide. -/
theorem append_lt_append_iff {a b x y : Bytes} (h : a.length = b.length) :
    a ++ x < b ++ y ↔ a < b ∨ a = b ∧ x < y := by
  induction a generalizing b with
  | nil =>
    obtain rfl : b = [] := List.length_eq_zero_iff.mp h.symm
    simp
  | cons u a ih =>
    cases b with
    | nil => simp at h
    | cons v b =>
      rw [List.length_cons, List.length_cons, Nat.add_right_cancel_iff] at h
      rw [List.cons_append, List.cons_append, List.cons_lt_cons_iff, ih h,
        List.cons_lt_cons_iff, List.cons_eq_cons]
      tauto

theorem lt_append_of_ne_nil (a : Bytes) {x : Bytes} (hx : x ≠ []) : a < a ++ x := by
  have hnil : ([] : Bytes) < x := by
    cases x with
    | nil => exact absurd rfl hx
    | cons v x => exact List.nil_lt_cons v x
  simpa using (append_lt_append_left (p := a)).mpr hnil

theorem le_append (a x : Bytes) : a ≤ a ++ x := by
  by_cases hx : x = []
  · rw [hx, List.append_nil]
  · exact (lt_append_of_ne_nil a hx).le

/-! ## Big-endian fields -/

/-- The `w` low-order base-256 digits of `n`, most significant first. -/
def beBytes (w n : ℕ) : Bytes := (leBytes w n).reverse

/-- The number whose base-256 digits are the given bytes, most significant first. -/
def beNat (bs : Bytes) : ℕ := leNat bs.reverse

@[simp] theorem length_beBytes (w n : ℕ) : (beBytes w n).length = w := by
  rw [beBytes, List.length_reverse, length_leBytes]

theorem beNat_beBytes_of_lt {w n : ℕ} (h : n < 256 ^ w) : beNat (beBytes w n) = n := by
  rw [beNat, beBytes, List.reverse_reverse, leNat_leBytes_of_lt h]

theorem beBytes_beNat {w : ℕ} {bs : Bytes} (h : bs.length = w) : beBytes w (beNat bs) = bs := by
  subst h
  have hlen : bs.length = bs.reverse.length := (List.length_reverse).symm
  rw [beBytes, beNat, hlen, leBytes_leNat, List.reverse_reverse]

theorem beBytes_succ (w n : ℕ) :
    beBytes (w + 1) n = beBytes w (n / 256) ++ [Fin.ofNat 256 n] := by
  rw [beBytes, beBytes, leBytes, List.reverse_cons]

theorem beBytes_lt_beBytes {w m n : ℕ} (hm : m < 256 ^ w) (hn : n < 256 ^ w) :
    beBytes w m < beBytes w n ↔ m < n := by
  induction w generalizing m n with
  | zero =>
    rw [pow_zero] at hm hn
    have hmn : m = n := by omega
    simp [hmn]
  | succ w ih =>
    rw [pow_succ] at hm hn
    have hm' : m / 256 < 256 ^ w := by omega
    have hn' : n / 256 < 256 ^ w := by omega
    have hdigit : ([Fin.ofNat 256 m] : Bytes) < [Fin.ofNat 256 n] ↔ m % 256 < n % 256 := by
      rw [List.cons_lt_cons_iff, Fin.lt_def, Fin.val_ofNat, Fin.val_ofNat]
      simp
    have heq : beBytes w (m / 256) = beBytes w (n / 256) ↔ m / 256 = n / 256 := by
      refine ⟨fun h ↦ ?_, fun h ↦ by rw [h]⟩
      rw [← beNat_beBytes_of_lt hm', h, beNat_beBytes_of_lt hn']
    rw [beBytes_succ, beBytes_succ, append_lt_append_iff (by simp), ih hm' hn', hdigit, heq]
    omega

/-- What lies between two strings that start alike starts as they do. -/
theorem between_append {p x y k : Bytes} (hlower : p ++ x ≤ k) (hupper : k ≤ p ++ y) :
    ∃ z, k = p ++ z ∧ x ≤ z ∧ z ≤ y := by
  induction p generalizing k with
  | nil => exact ⟨k, rfl, hlower, hupper⟩
  | cons b p ih =>
    cases k with
    | nil => exact absurd hlower (not_le.mpr (List.nil_lt_cons b (p ++ x)))
    | cons c k =>
      rw [List.cons_append, ← not_lt, List.cons_lt_cons_iff, not_or, not_and] at hlower hupper
      obtain rfl : b = c := le_antisymm (not_lt.mp hlower.1) (not_lt.mp hupper.1)
      obtain ⟨z, rfl, hx, hy⟩ := ih (not_lt.mp (hlower.2 rfl)) (not_lt.mp (hupper.2 rfl))
      exact ⟨z, rfl, hx, hy⟩

end ByteString
