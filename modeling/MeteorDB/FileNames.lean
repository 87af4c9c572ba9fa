import MeteorDB.Options
import MeteorDB.VersionSet

/-!
# File names

Everywhere else a directory entry is a `FileName`. Here is the text of the names, and the three
functions that read numbers from it: the engine's, which decides what is a log and which tables are
deleted when a database is opened, the inspector's own, and the one for the name in `CURRENT`.

All three accept a name only if printing the number gives the name back. The engine and the manifest
check the digits before they read the number; the inspector leaves that to the number parser, which
also accepts a plus sign. It makes no difference, because no printed number begins with one.
-/

namespace MeteorDB

open Decoder

/-! ## Parsing -/

/-- `str::strip_suffix`. -/
def stripSuffix (name suffix : String) : Option String :=
  if suffix.toList <:+ name.toList then
    some (String.ofList (name.toList.take (name.toList.length - suffix.toList.length)))
  else none

/-- One more digit of a number, unless the number becomes too large. -/
def pushDigit (value : ℕ) (digit : Char) : Option ℕ :=
  if digit.isDigit then (checkedMul value 10).bind (checkedAdd · (digit.toNat - '0'.toNat))
  else none

/-- `u64::from_str`: digits, at least one, perhaps after a plus sign. -/
def parseU64 (text : String) : Option U64 :=
  let digits := if text.toList.head? = some '+' then text.toList.tail else text.toList
  if digits = [] then none else (digits.foldlM pushDigit 0).map (Fin.ofNat (2 ^ 64))

/-- The engine's parser. -/
def parseNumberedName (name suffix : String) : Option U64 := do
  let digits ← stripSuffix name suffix
  if digits.utf8ByteSize < 6 ∨ ¬ digits.toList.all Char.isDigit then none
  else do
    let number ← parseU64 digits
    if number ≠ 0 ∧ digits = sixDigits number.val then some number else none

/-- The inspector's parser. -/
def Cli.parseNumberedName (name suffix : String) : Option U64 := do
  let digits ← stripSuffix name suffix
  let number ← parseU64 digits
  if number ≠ 0 ∧ digits = sixDigits number.val then some number else none

/-! ## Printed numbers -/

private theorem toList_sixDigits (number : ℕ) : (sixDigits number).toList
    = List.replicate (6 - (Nat.toDigits 10 number).length) '0' ++ Nat.toDigits 10 number := by
  have hdigits : (toString number).toList = Nat.toDigits 10 number := by
    rw [Nat.toString_eq_ofList_toDigits, String.toList_ofList]
  unfold sixDigits
  rw [String.toList_append, String.toList_ofList, ← String.length_toList, hdigits]

private theorem isDigit_of_mem_sixDigits {number : ℕ} {char : Char}
    (h : char ∈ (sixDigits number).toList) : char.isDigit := by
  rw [toList_sixDigits, List.mem_append] at h
  rcases h with hzero | hdigit
  · rw [List.eq_of_mem_replicate hzero]
    rfl
  · exact Nat.isDigit_of_mem_toDigits (by decide) (by decide) hdigit

private theorem length_sixDigits (number : ℕ) : 6 ≤ (sixDigits number).toList.length := by
  rw [toList_sixDigits, List.length_append, List.length_replicate]
  omega

private theorem ofDigitChars_sixDigits (number : ℕ) :
    Nat.ofDigitChars 10 (sixDigits number).toList 0 = number := by
  rw [toList_sixDigits, Nat.ofDigitChars_append, Nat.ofDigitChars_replicate_zero,
    Nat.mul_zero, Nat.ofDigitChars_ten_toDigits]

private theorem le_ofDigitChars (value : ℕ) (digits : List Char) :
    value ≤ Nat.ofDigitChars 10 digits value := by
  induction digits generalizing value with
  | nil => exact le_refl _
  | cons digit digits ih =>
    rw [Nat.ofDigitChars_cons]
    exact le_trans (by omega) (ih _)

/-- Digits are read as their number, if it is a `u64`. -/
theorem foldlM_pushDigit {digits : List Char} (hdigits : ∀ digit ∈ digits, digit.isDigit)
    {value : ℕ} (hlt : Nat.ofDigitChars 10 digits value < usizeRange) :
    digits.foldlM pushDigit value = some (Nat.ofDigitChars 10 digits value) := by
  induction digits generalizing value with
  | nil => rfl
  | cons digit digits ih =>
    obtain ⟨hdigit, hrest⟩ := List.forall_mem_cons.mp hdigits
    rw [Nat.ofDigitChars_cons] at hlt ⊢
    have hle := le_ofDigitChars (10 * value + (digit.toNat - '0'.toNat)) digits
    have hpush : pushDigit value digit = some (10 * value + (digit.toNat - '0'.toNat)) := by
      rw [pushDigit, if_pos hdigit, checkedMul_eq_some.mpr ⟨Nat.mul_comm _ _, by omega⟩]
      exact checkedAdd_eq_some.mpr ⟨rfl, by omega⟩
    rw [List.foldlM_cons, hpush]
    exact ih hrest hlt

private theorem parseU64_sixDigits (number : U64) :
    parseU64 (sixDigits number.val) = some number := by
  have hlength := length_sixDigits number.val
  have hhead : (sixDigits number.val).toList.head? ≠ some '+' := by
    intro hplus
    have hdigit := isDigit_of_mem_sixDigits (List.mem_of_mem_head? hplus)
    exact absurd hdigit (by decide)
  have hne : (sixDigits number.val).toList ≠ [] := by
    intro hnil
    rw [hnil] at hlength
    exact absurd hlength (by decide)
  have hvalue := ofDigitChars_sixDigits number.val
  unfold parseU64
  rw [if_neg hhead, if_neg hne, foldlM_pushDigit (fun _ ↦ isDigit_of_mem_sixDigits)
    (by rw [hvalue]; exact number.isLt), hvalue]
  exact congrArg some (Fin.ext (Nat.mod_eq_of_lt number.isLt))

private theorem stripSuffix_eq_some {name suffix rest : String} :
    stripSuffix name suffix = some rest ↔ name = rest ++ suffix := by
  unfold stripSuffix
  constructor
  · intro h
    split_ifs at h with hsuffix
    rw [← Option.some.inj h, ← String.toList_inj, String.toList_append, String.toList_ofList]
    exact List.suffix_iff_eq_append.mp hsuffix |>.symm
  · rintro rfl
    rw [String.toList_append, if_pos (List.suffix_append _ _), List.length_append,
      Nat.add_sub_cancel, List.take_left, String.ofList_toList]

private theorem length_le_utf8ByteSize (text : String) :
    text.toList.length ≤ text.utf8ByteSize := by
  have hchars : ∀ chars : List Char, chars.length ≤ String.utf8Len chars := by
    intro chars
    induction chars with
    | nil => exact le_refl 0
    | cons char chars ih =>
      rw [String.utf8Len_cons, List.length_cons]
      exact Nat.add_le_add ih char.utf8Size_pos
  have hsize := hchars text.toList
  rwa [← String.utf8ByteSize_ofList, String.ofList_toList] at hsize

/-! ## What is accepted -/

private theorem cli_parseNumberedName_eq_some {name suffix : String} {number : U64} :
    Cli.parseNumberedName name suffix = some number ↔
      number ≠ 0 ∧ name = sixDigits number.val ++ suffix := by
  unfold Cli.parseNumberedName
  simp only [Option.bind_eq_bind, Option.bind_eq_some_iff]
  constructor
  · rintro ⟨digits, hstrip, parsed, -, h⟩
    split_ifs at h with hcanonical
    obtain rfl := Option.some.inj h
    rw [stripSuffix_eq_some.mp hstrip, hcanonical.2]
    exact ⟨hcanonical.1, rfl⟩
  · rintro ⟨hzero, hname⟩
    exact ⟨_, stripSuffix_eq_some.mpr hname, _, parseU64_sixDigits number, if_pos ⟨hzero, rfl⟩⟩

/-- The checks of the digits reject no printed number. -/
theorem parseNumberedName_eq_some {name suffix : String} {number : U64} :
    parseNumberedName name suffix = some number ↔
      number ≠ 0 ∧ name = sixDigits number.val ++ suffix := by
  unfold parseNumberedName
  simp only [Option.bind_eq_bind, Option.bind_eq_some_iff]
  constructor
  · rintro ⟨digits, hstrip, h⟩
    split_ifs at h
    obtain ⟨parsed, -, h⟩ := Option.bind_eq_some_iff.mp h
    split_ifs at h with hcanonical
    obtain rfl := Option.some.inj h
    rw [stripSuffix_eq_some.mp hstrip, hcanonical.2]
    exact ⟨hcanonical.1, rfl⟩
  · rintro ⟨hzero, hname⟩
    have hsize := (length_sixDigits number.val).trans (length_le_utf8ByteSize _)
    have hdigits : (sixDigits number.val).toList.all Char.isDigit :=
      List.all_eq_true.mpr fun _ ↦ isDigit_of_mem_sixDigits
    refine ⟨_, stripSuffix_eq_some.mpr hname, ?_⟩
    rw [if_neg (not_or.mpr ⟨not_lt.mpr hsize, not_not.mpr hdigits⟩), parseU64_sixDigits]
    exact if_pos ⟨hzero, rfl⟩

private theorem parseManifestNumber_eq_ok {name : String} {number : U64} :
    parseManifestNumber name = .ok number ↔
      number ≠ 0 ∧ name = "MANIFEST-" ++ sixDigits number.val := by
  unfold parseManifestNumber
  constructor
  · intro h
    split at h
    · cases h
    split_ifs at h with hdigits
    dsimp only at h
    split_ifs at h with hlt hcanonical
    obtain rfl := Except.ok.inj h
    obtain ⟨hzero, hname⟩ := not_or.mp hcanonical
    refine ⟨fun hnumber ↦ hzero (Fin.ext_iff.mp hnumber), not_not.mp hname⟩
  · rintro ⟨hzero, rfl⟩
    have hstrip : "MANIFEST-".toList.isPrefixOf? ("MANIFEST-" ++ sixDigits number.val).toList
        = some (sixDigits number.val).toList := by
      rw [String.toList_append]
      rfl
    have hdigits : (sixDigits number.val).toList.all Char.isDigit :=
      List.all_eq_true.mpr fun _ ↦ isDigit_of_mem_sixDigits
    have hvalue : (sixDigits number.val).toList.foldl
        (fun n digit ↦ 10 * n + (digit.toNat - '0'.toNat)) 0 = number.val := by
      rw [← Nat.ofDigitChars_eq_foldl, ofDigitChars_sixDigits]
    rw [hstrip]
    dsimp only
    rw [if_neg (not_or.mpr ⟨not_lt.mpr (length_sixDigits _), not_not.mpr hdigits⟩)]
    simp only [hvalue]
    rw [dif_pos number.isLt, if_neg]
    rintro (hnumber | hname)
    · exact hzero (Fin.ext hnumber)
    · exact hname rfl

/-- **File names are canonical.** A number is read from a name exactly if the name is the printed
number with the suffix, in the engine and in the inspector, and a manifest name exactly if it is the
printed number after `MANIFEST-`. -/
theorem parse_canonical (name suffix : String) :
    (∀ number : U64, parseNumberedName name suffix = some number ↔
      1 ≤ number.val ∧ name = sixDigits number.val ++ suffix) ∧
    Cli.parseNumberedName name suffix = parseNumberedName name suffix ∧
    ∀ number : U64, parseManifestNumber name = .ok number ↔
      1 ≤ number.val ∧ name = "MANIFEST-" ++ sixDigits number.val := by
  have hpos : ∀ number : U64, number ≠ 0 ↔ 1 ≤ number.val := fun number ↦
    (not_congr Fin.ext_iff).trans Nat.one_le_iff_ne_zero.symm
  refine ⟨fun number ↦ ?_, ?_, fun number ↦ ?_⟩
  · rw [← hpos]
    exact parseNumberedName_eq_some
  · refine Option.ext fun number ↦ ?_
    exact cli_parseNumberedName_eq_some.trans parseNumberedName_eq_some.symm
  · rw [← hpos]
    exact parseManifestNumber_eq_ok

-- seven digits are not filled up, a sign and a short number are refused
example : parseNumberedName "1000000.wal" ".wal" = some 1000000 ∧
    Cli.parseNumberedName "+000007.wal" ".wal" = none ∧
      parseNumberedName "7.wal" ".wal" = none := by
  decide +kernel

/-! ## The entries of a directory -/

private theorem sixDigits_injective : Function.Injective sixDigits := by
  intro a b h
  rw [← ofDigitChars_sixDigits a, h, ofDigitChars_sixDigits]

/-- The kind of a name that begins with a digit is told by its last letter. -/
theorem sixDigits_append_inj {a b : ℕ} {suffix suffix' : String}
    (hlast : suffix = suffix' ∨ suffix.toList.getLast? ≠ suffix'.toList.getLast?)
    (hne : suffix.toList ≠ []) (hne' : suffix'.toList ≠ []) :
    sixDigits a ++ suffix = sixDigits b ++ suffix' ↔ a = b ∧ suffix = suffix' := by
  refine ⟨fun h ↦ ?_, fun h ↦ by rw [h.1, h.2]⟩
  have hlists := String.toList_inj.mpr h
  rw [String.toList_append, String.toList_append] at hlists
  rcases hlast with rfl | hlast
  · exact ⟨sixDigits_injective (String.toList_inj.mp (List.append_cancel_right hlists)), rfl⟩
  · have hends := congrArg List.getLast? hlists
    rw [List.getLast?_append_of_ne_nil _ hne, List.getLast?_append_of_ne_nil _ hne'] at hends
    exact absurd hends hlast

/-- A name that does not begin with a digit has no number. -/
theorem ne_sixDigits_append {name suffix : String} {number : ℕ}
    (h : ¬ name.toList.head?.any Char.isDigit) : name ≠ sixDigits number ++ suffix := by
  rintro rfl
  have hlength := length_sixDigits number
  rw [String.toList_append] at h
  cases hdigits : (sixDigits number).toList with
  | nil =>
    rw [hdigits] at hlength
    exact absurd hlength (by decide)
  | cons digit digits =>
    rw [hdigits] at h
    exact h (isDigit_of_mem_sixDigits (hdigits ▸ List.mem_cons_self ..))

/-- Listing the names with a suffix lists the files of a kind. -/
theorem FileName.parseNumberedName_display (file : FileName) (number : U64) :
    (parseNumberedName file.display ".wal" = some number ↔ number ≠ 0 ∧ file = .wal number) ∧
    (parseNumberedName file.display ".sst" = some number ↔ number ≠ 0 ∧ file = .sst number) ∧
    (parseNumberedName file.display ".sst.tmp" = some number ↔
      number ≠ 0 ∧ file = .sstTmp number) := by
  simp only [parseNumberedName_eq_some]
  refine ⟨and_congr_right fun _ ↦ ?_, and_congr_right fun _ ↦ ?_, and_congr_right fun _ ↦ ?_⟩
  all_goals
    cases file with
    | directory => exact iff_of_false (ne_sixDigits_append (by decide)) nofun
    | current => exact iff_of_false (ne_sixDigits_append (by decide)) nofun
    | currentTmp => exact iff_of_false (ne_sixDigits_append (by decide)) nofun
    | manifest other => exact iff_of_false (ne_sixDigits_append (by simp [display])) nofun
    | manifestTmp other => exact iff_of_false (ne_sixDigits_append (by simp [display])) nofun
    | wal other =>
      refine (sixDigits_append_inj (by decide) (by decide) (by decide)).trans ?_
      simp [Fin.ext_iff]
    | sst other =>
      refine (sixDigits_append_inj (by decide) (by decide) (by decide)).trans ?_
      simp [Fin.ext_iff]
    | sstTmp other =>
      refine (sixDigits_append_inj (by decide) (by decide) (by decide)).trans ?_
      simp [Fin.ext_iff]

end MeteorDB
