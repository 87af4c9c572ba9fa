import MeteorDB.Lib.ByteString
import MeteorDB.Error

/-!
# Internal keys

A storage-engine key is a user key, a sequence number and a kind. Its encoding escapes zero bytes of
the user key, terminates it with two zero bytes, and appends the complemented sequence in big-endian
order and the kind. Keys are compared by their encodings; `InternalKey.lt_iff` says what that
comparison means: user keys ascend, sequences descend, and a deletion precedes a value.

The source keeps the encoding beside the decoded user key. Here a key is its three components,
with the proof that the sequence is not the reserved one, and the encoding is a function of them:
`InternalKey.decode_asBytes` and `InternalKey.asBytes_of_decode` say that nothing is lost.
-/

namespace MeteorDB

open ByteString

/-- The commit-order number of a stored version. -/
abbrev SequenceNumber := U64

/-- The reserved sequence number. -/
def maxU64 : ℕ := 2 ^ 64 - 1

/-- Whether a record stores a value or a deletion marker. -/
inductive ValueKind where
  | deletion
  | value
  deriving DecidableEq, Repr

namespace ValueKind

def byte : ValueKind → Byte
  | deletion => 0
  | value => 1

def fromByte (byte : Byte) : Result ValueKind :=
  if byte = 0 then .ok deletion
  else if byte = 1 then .ok value
  else .error (.corruption "internal key" ("unknown value kind byte " ++ toString byte.val))

private theorem fromByte_byte (kind : ValueKind) : fromByte kind.byte = .ok kind := by
  cases kind <;> rfl

private theorem byte_of_fromByte {b : Byte} {kind : ValueKind} (h : fromByte b = .ok kind) :
    kind.byte = b := by
  unfold fromByte at h
  split_ifs at h with h0 h1
  · cases h; exact h0.symm
  · cases h; exact h1.symm

theorem byte_lt_byte {a b : ValueKind} : a.byte < b.byte ↔ a = deletion ∧ b = value := by
  cases a <;> cases b <;> decide

private theorem byte_injective : Function.Injective byte := by
  intro a b h
  cases a <;> cases b <;> first | rfl | exact absurd h (by decide)

end ValueKind

/-! ## User keys -/

/-- The escaped, terminated form of a user key. -/
def encodeUserKey : Bytes → Bytes
  | [] => [0, 0]
  | byte :: rest => if byte = 0 then 0 :: 255 :: encodeUserKey rest else byte :: encodeUserKey rest

/-- Lowercase hexadecimal of a byte. -/
def hexByte (byte : Byte) : String :=
  "0x" ++ String.ofList [Nat.digitChar (byte.val / 16), Nat.digitChar (byte.val % 16)]

def internalKeyCorruption (detail : String) : Error := .corruption "internal key" detail

/-- The user key at the start of an encoding, and the bytes after its terminator. -/
def decodeUserKey : Bytes → Result (Bytes × Bytes)
  | [] => .error (internalKeyCorruption "missing user-key terminator")
  | byte :: rest =>
    if byte ≠ 0 then do
      let (userKey, trailer) ← decodeUserKey rest
      return (byte :: userKey, trailer)
    else
      match rest with
      | [] => .error (internalKeyCorruption "zero byte at end of encoding has no escape follower")
      | follower :: rest =>
        if follower = 0 then .ok ([], rest)
        else if follower = 255 then do
          let (userKey, trailer) ← decodeUserKey rest
          return (0 :: userKey, trailer)
        else .error (internalKeyCorruption
          ("invalid zero-byte escape follower " ++ hexByte follower))

private theorem decodeUserKey_cons {byte : Byte} (h : byte ≠ 0) (rest : Bytes) :
    decodeUserKey (byte :: rest) = (decodeUserKey rest).map fun r ↦ (byte :: r.1, r.2) := by
  rw [decodeUserKey.eq_def]
  simp only [if_pos h]
  cases decodeUserKey rest <;> rfl

theorem decodeUserKey_encodeUserKey (userKey trailer : Bytes) :
    decodeUserKey (encodeUserKey userKey ++ trailer) = .ok (userKey, trailer) := by
  induction userKey with
  | nil => simp [encodeUserKey, decodeUserKey]
  | cons byte rest ih =>
    by_cases hbyte : byte = 0
    · subst hbyte
      simp [encodeUserKey, decodeUserKey, ih, bind, Except.bind, pure, Except.pure]
    · rw [encodeUserKey, if_neg hbyte, List.cons_append, decodeUserKey_cons hbyte, ih]
      rfl

private theorem encodeUserKey_of_decodeUserKey {encoded userKey trailer : Bytes}
    (h : decodeUserKey encoded = .ok (userKey, trailer)) :
    encoded = encodeUserKey userKey ++ trailer := by
  induction encoded using decodeUserKey.induct generalizing userKey trailer with
  | case1 => cases h
  | case2 byte rest hbyte ih =>
    rw [decodeUserKey_cons hbyte] at h
    cases hrest : decodeUserKey rest with
    | error e => rw [hrest] at h; cases h
    | ok found =>
      rw [hrest] at h
      cases h
      rw [ih hrest, encodeUserKey, if_neg hbyte, List.cons_append]
  | case3 byte hbyte => simp [decodeUserKey, hbyte] at h
  | case4 byte hbyte rest =>
    simp only [ne_eq, not_not] at hbyte
    simp only [decodeUserKey, hbyte, ne_eq, not_true, if_false, if_true] at h
    cases h
    rw [hbyte]
    rfl
  | case5 byte hbyte rest hne ih =>
    simp only [ne_eq, not_not] at hbyte
    simp only [decodeUserKey, hbyte, ne_eq, not_true, if_false, if_true, if_neg hne] at h
    cases hrest : decodeUserKey rest with
    | error e => rw [hrest] at h; cases h
    | ok found =>
      rw [hrest] at h
      cases h
      rw [hbyte, ih hrest]
      rfl
  | case6 byte hbyte follower rest hzero hmax =>
    simp only [ne_eq, not_not] at hbyte
    simp [decodeUserKey, hbyte, hzero, hmax] at h

/-- Escaping keeps the order of user keys, whatever follows the terminators. -/
theorem encodeUserKey_append_lt {a b : Bytes} (h : a < b) (x y : Bytes) :
    encodeUserKey a ++ x < encodeUserKey b ++ y := by
  induction a generalizing b with
  | nil =>
    cases b with
    | nil => exact absurd h (lt_irrefl _)
    | cons v b =>
      by_cases hv : v = 0
      · subst hv
        simp [encodeUserKey, List.cons_lt_cons_iff]
      · simp [encodeUserKey, hv, List.cons_lt_cons_iff, Fin.pos_iff_ne_zero]
  | cons u a ih =>
    cases b with
    | nil => exact absurd h (List.not_lt_nil _)
    | cons v b =>
      rcases List.cons_lt_cons_iff.mp h with huv | ⟨rfl, hab⟩
      · have hv : v ≠ 0 := fun hv ↦ absurd (hv ▸ huv) (Fin.not_lt_zero u)
        by_cases hu : u = 0
        · subst hu
          simp [encodeUserKey, hv, List.cons_lt_cons_iff, huv]
        · simp [encodeUserKey, hu, hv, List.cons_lt_cons_iff, huv]
      · by_cases hu : u = 0
        · subst hu
          simpa [encodeUserKey] using ih hab
        · simpa [encodeUserKey, hu] using ih hab

theorem encodeUserKey_injective : Function.Injective encodeUserKey := by
  intro a b h
  have ha := decodeUserKey_encodeUserKey a []
  rw [h, decodeUserKey_encodeUserKey b []] at ha
  exact (Prod.mk.inj (Except.ok.inj ha)).1.symm

/-! ## Keys -/

/-- A user key, a sequence number below the reserved one, and a kind. -/
@[ext] structure InternalKey where
  userKey : Bytes
  sequence : SequenceNumber
  kind : ValueKind
  sequence_lt : sequence.val < maxU64
  deriving DecidableEq

namespace InternalKey

/-- The complemented sequence and the kind. -/
def trailer (sequence : SequenceNumber) (kind : ValueKind) : Bytes :=
  beBytes 8 (maxU64 - sequence.val) ++ [kind.byte]

/-- The encoded key. -/
def asBytes (key : InternalKey) : Bytes :=
  encodeUserKey key.userKey ++ trailer key.sequence key.kind

/-- A key for a sequence that may be the reserved one. -/
def tryNew (userKey : Bytes) (sequence : SequenceNumber) (kind : ValueKind) : Result InternalKey :=
  if h : sequence.val < maxU64 then .ok ⟨userKey, sequence, kind, h⟩
  else .error (.invalidArgument "sequence number must be less than u64::MAX")

/-- The sequence encoded by eight trailer bytes. -/
def decodeSequence (encoded : Bytes) : SequenceNumber := Fin.ofNat (2 ^ 64) (maxU64 - beNat encoded)

/-- The key of an encoding. -/
def decode (encoded : Bytes) : Result InternalKey := do
  let (userKey, trailer) ← decodeUserKey encoded
  if trailer.length < 9 then
    throw (internalKeyCorruption
      ("truncated trailer: expected 9 bytes, found " ++ toString trailer.length))
  else if 9 < trailer.length then
    throw (internalKeyCorruption
      ("trailing bytes after trailer: expected 9 bytes, found " ++ toString trailer.length))
  else
    let kind ← ValueKind.fromByte (trailer.getD 8 0)
    let sequence := decodeSequence (trailer.take 8)
    if h : sequence.val < maxU64 then return ⟨userKey, sequence, kind, h⟩
    else throw (internalKeyCorruption "sequence number must be less than u64::MAX")

/-! ## The order of the encodings -/

@[simp] theorem length_trailer (sequence : SequenceNumber) (kind : ValueKind) :
    (trailer sequence kind).length = 9 := by
  simp [trailer]

private theorem trailer_lt_iff {s s' : SequenceNumber} {kind kind' : ValueKind} :
    trailer s kind < trailer s' kind' ↔ s' < s ∨ s = s' ∧ kind.byte < kind'.byte := by
  have hs := s.isLt
  have hs' := s'.isLt
  have hm : maxU64 - s.val < 256 ^ 8 := by unfold maxU64; omega
  have hm' : maxU64 - s'.val < 256 ^ 8 := by unfold maxU64; omega
  have heq : beBytes 8 (maxU64 - s.val) = beBytes 8 (maxU64 - s'.val) ↔ s = s' := by
    refine ⟨fun h ↦ ?_, fun h ↦ by rw [h]⟩
    have hnat := congrArg beNat h
    rw [beNat_beBytes_of_lt hm, beNat_beBytes_of_lt hm'] at hnat
    apply Fin.ext
    unfold maxU64 at hnat
    omega
  have hlt : maxU64 - s.val < maxU64 - s'.val ↔ s' < s := by
    rw [Fin.lt_def]
    unfold maxU64
    omega
  rw [trailer, trailer, append_lt_append_iff (by simp), beBytes_lt_beBytes hm hm', heq, hlt]
  simp [List.cons_lt_cons_iff]

/-- User keys ascend, sequences descend, and a deletion precedes a value. -/
theorem asBytes_lt_asBytes {a b : InternalKey} :
    a.asBytes < b.asBytes ↔ a.userKey < b.userKey ∨
      a.userKey = b.userKey ∧
        (b.sequence < a.sequence ∨ a.sequence = b.sequence ∧ a.kind.byte < b.kind.byte) := by
  rcases lt_trichotomy a.userKey b.userKey with hlt | heq | hgt
  · exact iff_of_true (encodeUserKey_append_lt hlt _ _) (.inl hlt)
  · rw [asBytes, asBytes, heq, append_lt_append_left, trailer_lt_iff]
    simp
  · refine iff_of_false (encodeUserKey_append_lt hgt _ _).not_gt ?_
    rintro (h | ⟨h, -⟩)
    · exact lt_asymm h hgt
    · exact hgt.ne' h

theorem asBytes_injective : Function.Injective asBytes := by
  intro a b h
  have hab : ¬ a.asBytes < b.asBytes := h.not_lt
  have hba : ¬ b.asBytes < a.asBytes := h.not_gt
  rw [asBytes_lt_asBytes] at hab hba
  have huser : a.userKey = b.userKey := by
    rcases lt_trichotomy a.userKey b.userKey with hlt | heq | hgt
    · exact absurd (.inl hlt) hab
    · exact heq
    · exact absurd (.inl hgt) hba
  have hseq : a.sequence = b.sequence := by
    rcases lt_trichotomy a.sequence b.sequence with hlt | heq | hgt
    · exact absurd (.inr ⟨huser.symm, .inl hlt⟩) hba
    · exact heq
    · exact absurd (.inr ⟨huser, .inl hgt⟩) hab
  have hkind : a.kind = b.kind := by
    apply ValueKind.byte_injective
    rcases lt_trichotomy a.kind.byte b.kind.byte with hlt | heq | hgt
    · exact absurd (.inr ⟨huser, .inr ⟨hseq, hlt⟩⟩) hab
    · exact heq
    · exact absurd (.inr ⟨huser.symm, .inr ⟨hseq.symm, hgt⟩⟩) hba
  exact InternalKey.ext huser hseq hkind

/-- Keys are ordered as their encodings. -/
instance : LinearOrder InternalKey := LinearOrder.lift' asBytes asBytes_injective

theorem lt_iff_asBytes_lt {a b : InternalKey} : a < b ↔ a.asBytes < b.asBytes := Iff.rfl

theorem le_iff_asBytes_le {a b : InternalKey} : a ≤ b ↔ a.asBytes ≤ b.asBytes := Iff.rfl

theorem lt_iff {a b : InternalKey} :
    a < b ↔ a.userKey < b.userKey ∨
      a.userKey = b.userKey ∧
        (b.sequence < a.sequence ∨ a.sequence = b.sequence ∧ a.kind.byte < b.kind.byte) :=
  asBytes_lt_asBytes

theorem userKey_le_of_le {a b : InternalKey} (h : a ≤ b) : a.userKey ≤ b.userKey := by
  rcases h.lt_or_eq with hlt | rfl
  · rcases lt_iff.mp hlt with h | ⟨h, -⟩
    · exact h.le
    · exact h.le
  · exact le_rfl

/-! ## Round trips -/

private theorem decodeSequence_beBytes (sequence : SequenceNumber) :
    decodeSequence (beBytes 8 (maxU64 - sequence.val)) = sequence := by
  have hs := sequence.isLt
  have hm : maxU64 - sequence.val < 256 ^ 8 := by unfold maxU64; omega
  apply Fin.ext
  rw [decodeSequence, beNat_beBytes_of_lt hm, Fin.val_ofNat]
  unfold maxU64
  omega

theorem decode_asBytes (key : InternalKey) : decode key.asBytes = .ok key := by
  have hlen := length_trailer key.sequence key.kind
  have hkind : (trailer key.sequence key.kind).getD 8 0 = key.kind.byte := by
    rw [trailer, List.getD_eq_getElem?_getD, List.getElem?_append_right (by simp)]
    simp
  have hseq : (trailer key.sequence key.kind).take 8 = beBytes 8 (maxU64 - key.sequence.val) :=
    List.take_left' (length_beBytes _ _)
  rw [decode, asBytes, decodeUserKey_encodeUserKey]
  simp only [bind, Except.bind]
  rw [if_neg (by omega), if_neg (by omega), hkind, ValueKind.fromByte_byte]
  simp only
  rw [hseq, decodeSequence_beBytes, dif_pos key.sequence_lt]
  rfl

/-- A decoded key has the encoding it was decoded from. -/
theorem asBytes_of_decode {encoded : Bytes} {key : InternalKey} (h : decode encoded = .ok key) :
    key.asBytes = encoded := by
  unfold decode at h
  cases huser : decodeUserKey encoded with
  | error e => rw [huser] at h; cases h
  | ok found =>
    obtain ⟨userKey, trailerBytes⟩ := found
    cases hkind : ValueKind.fromByte (trailerBytes.getD 8 0) with
    | error e =>
      simp only [huser, hkind, bind, Except.bind] at h
      split_ifs at h
    | ok kind =>
      simp only [huser, hkind, bind, Except.bind] at h
      split_ifs at h with hshort hlong hseq
      have hlen : trailerBytes.length = 9 := by omega
      cases h
      have hbe : beNat (trailerBytes.take 8) < 256 ^ 8 := by
        have hnat := leNat_lt (trailerBytes.take 8).reverse
        rwa [List.length_reverse, List.length_take_of_le (by omega)] at hnat
      have hval : maxU64 - (decodeSequence (trailerBytes.take 8)).val
          = beNat (trailerBytes.take 8) := by
        rw [decodeSequence, Fin.val_ofNat]
        unfold maxU64
        omega
      have htrailer : trailer (decodeSequence (trailerBytes.take 8)) kind = trailerBytes := by
        rw [trailer, hval, beBytes_beNat (List.length_take_of_le (by omega)),
          ValueKind.byte_of_fromByte hkind, List.getD_eq_getElem _ _ (by omega),
          ← List.take_succ_eq_append_getElem (by omega), List.take_of_length_le (by omega)]
      rw [asBytes, htrailer, ← encodeUserKey_of_decodeUserKey huser]

theorem tryNew_eq_ok {userKey : Bytes} {sequence : SequenceNumber} {kind : ValueKind}
    {key : InternalKey} : tryNew userKey sequence kind = .ok key ↔
      key.userKey = userKey ∧ key.sequence = sequence ∧ key.kind = kind := by
  constructor
  · intro h
    unfold tryNew at h
    split_ifs at h with hlt
    obtain rfl := Except.ok.inj h
    exact ⟨rfl, rfl, rfl⟩
  · rintro ⟨rfl, rfl, rfl⟩
    exact dif_pos key.sequence_lt

/-- **Decoding is exact.** Decoding accepts the encodings of keys and nothing else, and it returns
the key that the bytes encode; so a key has one encoding. -/
theorem decode_exact (encoded : Bytes) :
    ((∃ key, decode encoded = .ok key) ↔
      ∃ userKey sequence kind key, tryNew userKey sequence kind = .ok key ∧ key.asBytes = encoded) ∧
    ∀ userKey sequence kind key, tryNew userKey sequence kind = .ok key →
      (key.asBytes = encoded ↔ decode encoded = .ok key) ∧
      ∀ decoded, decode encoded = .ok decoded → key.asBytes = encoded →
        decoded.userKey = userKey ∧ decoded.sequence = sequence ∧ decoded.kind = kind := by
  have hiff (key : InternalKey) : key.asBytes = encoded ↔ decode encoded = .ok key :=
    ⟨fun h ↦ h ▸ decode_asBytes key, asBytes_of_decode⟩
  refine ⟨⟨?_, ?_⟩, fun userKey sequence kind key hkey ↦ ⟨hiff key, ?_⟩⟩
  · rintro ⟨key, hdecode⟩
    exact ⟨_, _, _, key, tryNew_eq_ok.mpr ⟨rfl, rfl, rfl⟩, (hiff key).mpr hdecode⟩
  · rintro ⟨userKey, sequence, kind, key, -, hbytes⟩
    exact ⟨key, (hiff key).mp hbytes⟩
  · intro decoded hdecode hbytes
    have hsame := hdecode.symm.trans ((hiff key).mp hbytes)
    rw [Except.ok.inj hsame]
    exact tryNew_eq_ok.mp hkey

end InternalKey

end MeteorDB
