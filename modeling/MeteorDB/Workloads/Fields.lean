import MeteorDB.Lib.SelfDelimiting
import MeteorDB.InternalKey

/-!
# Key fields of the workload adapters

The adapters build engine keys from fields of arbitrary bytes. A field is either escaped and
terminated, as user keys are inside internal keys, or preceded by its length. Both forms are
self-delimiting.
-/

namespace MeteorDB

open ByteString

/-! ## Checks of fields -/

/-- The largest namespace or key component. -/
def maxComponentBytes : ℕ := 16 * 1024

/-- The check that the feature store and the embedding store make of a component. -/
def validateComponent (name : String) (bytes : Bytes) : Result Unit :=
  if bytes.isEmpty then .error (.invalidArgument (name ++ " must not be empty"))
  else if maxComponentBytes < bytes.length then
    .error (.invalidArgument (name ++ " is " ++ toString bytes.length ++ " bytes, exceeding the "
      ++ toString maxComponentBytes ++ " limit"))
  else .ok ()

def validateRequired (name : String) (bytes : Bytes) : Result Unit :=
  if bytes.isEmpty then .error (.invalidArgument (name ++ " must not be empty")) else .ok ()

def validateMax (name : String) (actual maximum : ℕ) : Result Unit :=
  if maximum < actual then
    .error (.invalidArgument (name ++ " is " ++ toString actual ++ " bytes/items, exceeding the "
      ++ toString maximum ++ " limit"))
  else .ok ()

theorem validateMax_eq_ok {name : String} {actual maximum : ℕ} :
    validateMax name actual maximum = .ok () ↔ actual ≤ maximum := by
  unfold validateMax
  split_ifs with h
  · simpa using h
  · simpa using h

/-! ## Escaped fields -/

/-- A field with its zero bytes escaped and a terminator. -/
def pushEscaped (bytes : Bytes) : Bytes := encodeUserKey bytes

/-- The length of an escaped field. -/
def escapedLen (bytes : Bytes) : ℕ := bytes.length + (bytes.filter (· = 0)).length + 2

/-- An optional field after a tag. -/
def pushOptional : Option Bytes → Bytes
  | some bytes => 1 :: pushEscaped bytes
  | none => [0]

theorem length_pushEscaped (bytes : Bytes) : (pushEscaped bytes).length = escapedLen bytes := by
  unfold pushEscaped escapedLen
  induction bytes with
  | nil => rfl
  | cons byte bytes ih =>
    by_cases hbyte : byte = 0
    · simp only [encodeUserKey, hbyte, if_true, List.length_cons, ih, List.filter_cons_of_pos,
        decide_true]
      omega
    · simp only [encodeUserKey, hbyte, if_false, List.length_cons, ih, decide_false,
        Bool.false_eq_true, not_false_eq_true, List.filter_cons_of_neg]
      omega

theorem selfDelimiting_pushEscaped : SelfDelimiting Set.univ pushEscaped := by
  intro a _ b _ x y h
  have ha := decodeUserKey_encodeUserKey a x
  have hb := decodeUserKey_encodeUserKey b y
  rw [show encodeUserKey a ++ x = encodeUserKey b ++ y from h] at ha
  exact Prod.mk.inj (Except.ok.inj (ha.symm.trans hb))

theorem selfDelimiting_pushOptional : SelfDelimiting Set.univ pushOptional := by
  have h := selfDelimiting_pushEscaped.option (show (0 : Byte) ≠ 1 by decide)
  intro a _ b _ x y hab
  refine h (fun _ _ ↦ Set.mem_univ _) (fun _ _ ↦ Set.mem_univ _) ?_
  cases a <;> cases b <;> exact hab

/-! ## Fields with a length -/

/-- A length in four big-endian bytes. The source panics on a length that does not fit; the lengths
it is used with have been checked. -/
def pushU32 (value : ℕ) : Bytes := beBytes 4 value

/-- A field after its length. -/
def pushBytes (bytes : Bytes) : Bytes := pushU32 bytes.length ++ bytes

theorem selfDelimiting_pushU32 : SelfDelimiting { n | n < 2 ^ 32 } pushU32 := by
  refine SelfDelimiting.of_length (fun n _ ↦ length_beBytes 4 n) fun a ha b hb hab ↦ ?_
  have hnat := congrArg beNat hab
  rwa [pushU32, pushU32, beNat_beBytes_of_lt (by simpa using ha),
    beNat_beBytes_of_lt (by simpa using hb)] at hnat

theorem selfDelimiting_pushBytes :
    SelfDelimiting { bytes : Bytes | bytes.length < 2 ^ 32 } pushBytes :=
  selfDelimiting_pushU32.counted

end MeteorDB
