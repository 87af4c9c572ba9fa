import MeteorDB.Lib.OrderedList
import MeteorDB.Lib.Decoder
import MeteorDB.InternalKey

/-!
# Records, entries and sorted runs

An entry is an internal key with its record; the kind in the key says which kind of record it is,
and an entry carries the proof. A *run* is a list of entries in strictly increasing key order: a
memtable is one, and so is the contents of a table file.

`newest` is what a point lookup in one run is for: the entry of a user key with the greatest
sequence not above a bound. Since keys order sequences downward, it is the first such entry, and
`find?_seek_eq_newest` says that a search by internal key finds it.
-/

namespace MeteorDB

open ByteString OrderedList

/-! ## Records -/

/-- The payload of an internal key. -/
inductive ValueRecord where
  | value (value : Bytes) (expiresAtUnixMs : Option U64)
  | tombstone
  deriving DecidableEq, Repr

namespace ValueRecord

/-- The kind of key a record is stored under. -/
def kind : ValueRecord → ValueKind
  | value _ _ => .value
  | tombstone => .deletion

/-- The value a reader sees at a given time: nothing for a tombstone or past the deadline. -/
def intoValue (readTimeUnixMs : U64) : ValueRecord → Option Bytes
  | value bytes expiresAtUnixMs =>
    if expiresAtUnixMs.all (readTimeUnixMs < ·) then some bytes else none
  | tombstone => none

/-! ### The encoding of values in tables -/

def engineValueMagic : Bytes := [77, 69, 86]
def engineValueVersion : Byte := 1
def valueTag : Byte := 0
def tombstoneTag : Byte := 1
def engineValueHeaderBytes : ℕ := 6

def encodeEngineValue : ValueRecord → Bytes
  | value bytes none => engineValueMagic ++ [engineValueVersion, valueTag, 0] ++ bytes
  | value bytes (some expiration) =>
    engineValueMagic ++ [engineValueVersion, valueTag, 1] ++ (u64LeBytes expiration ++ bytes)
  | tombstone => engineValueMagic ++ [engineValueVersion, tombstoneTag, 0]

def engineValueCorruption (detail : String) : Error := .corruption "SSTable engine value" detail

/-- The record stored in a table under a key of the given kind. -/
def decodeSstable (internalKind : ValueKind) (encoded : Bytes) (engineEncoded : Bool) :
    Result ValueRecord :=
  if ¬ engineEncoded then
    .ok (if internalKind = .deletion then tombstone else value encoded none)
  else if encoded.length < engineValueHeaderBytes then
    .error (engineValueCorruption "header is truncated")
  else if encoded.take 3 ≠ engineValueMagic then
    .error (engineValueCorruption "magic is not MEV")
  else if encoded.getD 3 0 ≠ engineValueVersion then
    .error (engineValueCorruption
      ("unsupported encoding version " ++ toString (encoded.getD 3 0).val))
  else
    let tag := encoded.getD 4 0
    let flags := encoded.getD 5 0
    if 2 ≤ flags.val then
      .error (engineValueCorruption ("unknown flags " ++ hexByte flags))
    else if tag = valueTag then
      if internalKind ≠ .value then
        .error (engineValueCorruption "value payload has a deletion internal key")
      else if flags = 0 then .ok (value (encoded.drop engineValueHeaderBytes) none)
      else if encoded.length < engineValueHeaderBytes + 8 then
        .error (engineValueCorruption "expiration is truncated")
      else .ok (value (encoded.drop (engineValueHeaderBytes + 8))
        (some (u64OfLeBytes ((encoded.drop engineValueHeaderBytes).take 8))))
    else if tag = tombstoneTag then
      if internalKind ≠ .deletion then
        .error (engineValueCorruption "tombstone payload has a value internal key")
      else if flags ≠ 0 ∨ encoded.length ≠ engineValueHeaderBytes then
        .error (engineValueCorruption "tombstone carries flags or trailing bytes")
      else .ok tombstone
    else .error (engineValueCorruption ("unknown record tag " ++ toString tag.val))

/-- A decoded record has the kind of the key it was stored under. -/
theorem kind_of_decodeSstable {internalKind : ValueKind} {encoded : Bytes} {engineEncoded : Bool}
    {record : ValueRecord} (h : decodeSstable internalKind encoded engineEncoded = .ok record) :
    internalKind = record.kind := by
  simp only [decodeSstable] at h
  split_ifs at h <;> obtain rfl := Except.ok.inj h
  all_goals first
    | exact not_not.mp ‹¬internalKind ≠ .value›
    | exact not_not.mp ‹¬internalKind ≠ .deletion›
    | cases internalKind <;> first | rfl | contradiction

/-- Decoding gives back the record that was encoded. -/
theorem decodeSstable_encodeEngineValue (record : ValueRecord) :
    decodeSstable record.kind record.encodeEngineValue true = .ok record := by
  cases record with
  | value bytes expiresAtUnixMs =>
    cases expiresAtUnixMs with
    | none =>
      simp [decodeSstable, encodeEngineValue, kind, engineValueMagic, engineValueVersion, valueTag,
        engineValueHeaderBytes]
    | some expiration =>
      have htake : (u64LeBytes expiration ++ bytes).take 8 = u64LeBytes expiration :=
        List.take_left' (length_u64LeBytes _)
      have hdrop : (u64LeBytes expiration ++ bytes).drop 8 = bytes :=
        List.drop_left' (length_u64LeBytes _)
      simp [decodeSstable, encodeEngineValue, kind, engineValueMagic, engineValueVersion, valueTag,
        engineValueHeaderBytes, htake, hdrop]
      rw [if_neg (by omega), if_neg (by omega)]
  | tombstone => rfl

end ValueRecord

/-! ## Entries -/

/-- An internal key with the record stored under it. -/
@[ext] structure InternalEntry where
  key : InternalKey
  record : ValueRecord
  kind_eq : key.kind = record.kind
  deriving DecidableEq

/-- The entry of a key and a stored value. -/
def diskEntry (key : InternalKey) (value : Bytes) (engineEncoded : Bool) : Result InternalEntry :=
  match h : ValueRecord.decodeSstable key.kind value engineEncoded with
  | .ok record => .ok ⟨key, record, ValueRecord.kind_of_decodeSstable h⟩
  | .error e => .error e

theorem diskEntry_encodeEngineValue (entry : InternalEntry) :
    diskEntry entry.key entry.record.encodeEngineValue true = .ok entry := by
  unfold diskEntry
  have hdecode := ValueRecord.decodeSstable_encodeEngineValue entry.record
  rw [← entry.kind_eq] at hdecode
  split
  next record h =>
    rw [hdecode] at h
    cases h
    rfl
  next e h =>
    rw [hdecode] at h
    cases h

/-! ## Runs -/

/-- A list of entries whose keys strictly increase. -/
abbrev Run (entries : List InternalEntry) : Prop := Increasing InternalEntry.key entries

/-- The entries of one user key. -/
def versionsOf (userKey : Bytes) (entries : List InternalEntry) : List InternalEntry :=
  entries.filter fun entry ↦ entry.key.userKey = userKey

/-- The first entry of a user key whose sequence is not above a bound. -/
def newest (userKey : Bytes) (sequence : SequenceNumber) (entries : List InternalEntry) :
    Option InternalEntry :=
  entries.find? fun entry ↦ entry.key.userKey = userKey ∧ entry.key.sequence ≤ sequence

theorem newest_append (userKey : Bytes) (sequence : SequenceNumber)
    (entries more : List InternalEntry) :
    newest userKey sequence (entries ++ more)
      = (newest userKey sequence entries).or (newest userKey sequence more) :=
  List.find?_append

/-- The keys from the search key of a user key and a sequence on. -/
theorem seekKey_le_iff {userKey : Bytes} {sequence : SequenceNumber} {seek key : InternalKey}
    (hseek : InternalKey.tryNew userKey sequence .deletion = .ok seek) :
    seek ≤ key ↔ userKey < key.userKey ∨ key.userKey = userKey ∧ key.sequence ≤ sequence := by
  unfold InternalKey.tryNew at hseek
  split_ifs at hseek with hlt
  cases hseek
  rw [← not_lt, InternalKey.lt_iff]
  have hkind : ¬ key.kind.byte < ValueKind.deletion.byte := Fin.not_lt_zero _
  constructor
  · intro h
    rcases lt_trichotomy userKey key.userKey with huser | huser | huser
    · exact .inl huser
    · refine .inr ⟨huser.symm, not_lt.mp fun hseq ↦ h (.inr ⟨huser.symm, .inl hseq⟩)⟩
    · exact absurd (.inl huser) h
  · rintro (huser | ⟨huser, hseq⟩) (h | ⟨h, hseq' | ⟨-, hkind'⟩⟩)
    · exact lt_asymm huser h
    · exact huser.ne' h
    · exact huser.ne' h
    · exact h.ne huser
    · exact absurd hseq' (not_lt.mpr hseq)
    · exact hkind hkind'

/-- The first key at or after the search key, kept only if it is visible, is the first visible
key. -/
theorem find?_seek_filter {α : Type} {key : α → InternalKey} {l : List α}
    (h : l.Pairwise fun a b ↦ key a < key b) {userKey : Bytes} {sequence : SequenceNumber}
    {seek : InternalKey} (hseek : InternalKey.tryNew userKey sequence .deletion = .ok seek) :
    (l.find? fun a ↦ seek ≤ key a).filter
        (fun a ↦ (key a).userKey = userKey ∧ (key a).sequence ≤ sequence)
      = l.find? fun a ↦ (key a).userKey = userKey ∧ (key a).sequence ≤ sequence := by
  refine find?_filter_eq_find? (h.imp fun {a b} hab ↦ ?_) fun a _ ha ↦ ?_
  · intro ha hna
    simp only [decide_eq_true_eq, decide_eq_false_iff_not] at ha hna ⊢
    rintro ⟨huser, -⟩
    rcases (seekKey_le_iff hseek).mp ha with hlt | hvis
    · exact absurd (InternalKey.userKey_le_of_le hab.le) (not_le.mpr (huser ▸ hlt))
    · exact hna hvis
  · simp only [decide_eq_true_eq] at ha ⊢
    exact (seekKey_le_iff hseek).mpr (.inr ha)

/-- The first entry at or after the search key, kept only for the right user key, is the newest
visible entry. -/
theorem find?_seek_eq_newest {entries : List InternalEntry} (hrun : Run entries) {userKey : Bytes}
    {sequence : SequenceNumber} {seek : InternalKey}
    (hseek : InternalKey.tryNew userKey sequence .deletion = .ok seek) :
    (entries.find? fun entry ↦ seek ≤ entry.key).filter (fun entry ↦ entry.key.userKey = userKey)
      = newest userKey sequence entries := by
  have hfirst : ∀ o : Option InternalEntry, (∀ e ∈ o, seek ≤ e.key) →
      o.filter (fun entry ↦ entry.key.userKey = userKey)
        = o.filter fun entry ↦ entry.key.userKey = userKey ∧ entry.key.sequence ≤ sequence := by
    rintro (_ | e) he
    · rfl
    · have hle := (seekKey_le_iff hseek).mp (he e rfl)
      by_cases huser : e.key.userKey = userKey
      · have hseq : e.key.sequence ≤ sequence := by
          rcases hle with h | ⟨-, h⟩
          · exact absurd huser h.ne'
          · exact h
        simp [Option.filter, huser, hseq]
      · simp [Option.filter, huser]
  rw [hfirst _ fun e he ↦ by simpa using List.find?_some he]
  exact find?_seek_filter hrun hseek

/-- Along the versions of one user key in a run, sequences do not increase. -/
theorem Run.sequence_le {entries : List InternalEntry} (hrun : Run entries) :
    entries.Pairwise fun a b ↦ a.key.userKey = b.key.userKey → b.key.sequence ≤ a.key.sequence := by
  refine hrun.imp fun {a b} hab huser ↦ ?_
  rcases InternalKey.lt_iff.mp hab with h | ⟨-, h | ⟨h, -⟩⟩
  · exact absurd huser h.ne
  · exact h.le
  · exact h.ge

end MeteorDB
