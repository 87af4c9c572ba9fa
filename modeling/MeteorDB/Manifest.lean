import MeteorDB.Lib.Decoder
import MeteorDB.Lib.RecordLog
import MeteorDB.Checksum
import MeteorDB.Version

/-!
# The manifest

The manifest is a block-framed log of version edits. This module has the encoding of an edit and
the state that a sequence of edits leads to: the version, the file numbers that were ever used, and
the counters. The same checks are made when an edit is applied and when it is replayed; only the
kind of the error differs.

`encodeEdit_decodeEdit` says that the encoding of edits is exact, and `manifestFormat` is the record
format through which the laws of block-framed logs apply to manifests.
-/

namespace MeteorDB

open ByteString Decoder BlockLog

/-! ## Encoding -/

def editFormatVersion : Byte := 2
def maxEditBytes : ℕ := 64 * 1024 * 1024

def manifestCorruption (detail : String) : Error := .corruption "manifest" detail

def putOptionalU64 : Option U64 → Bytes
  | some value => 1 :: u64LeBytes value
  | none => [0]

def putCount (count : ℕ) (name : String) : Result Bytes :=
  if count < 2 ^ 32 then .ok (leBytes 4 count)
  else .error (.invalidArgument (name ++ " exceeds u32::MAX"))

def putLevel (level : ℕ) : Result Bytes :=
  if level < numLevels then .ok (leBytes 4 level) else .error (levelRange level)

def putBytes (bytes : Bytes) : Result Bytes :=
  if bytes.length < 2 ^ 32 then .ok (leBytes 4 bytes.length ++ bytes)
  else .error (.invalidArgument "manifest key length exceeds u32::MAX")

def encodeDeleted (deleted : ℕ × U64) : Result Bytes := do
  let level ← putLevel deleted.1
  return level ++ u64LeBytes deleted.2

def encodeAdded (added : ℕ × FileMeta) : Result Bytes := do
  let level ← putLevel added.1
  let smallest ← putBytes added.2.smallest.asBytes
  let largest ← putBytes added.2.largest.asBytes
  return level ++ (u64LeBytes added.2.number ++ (u64LeBytes added.2.fileSize
    ++ (smallest ++ largest)))

/-- The logical record of an edit. -/
def encodeEdit (edit : VersionEdit) : Result Bytes := do
  let deletedCount ← putCount edit.deletedFiles.length "deleted file count"
  let deleted ← edit.deletedFiles.mapM encodeDeleted
  let addedCount ← putCount edit.addedFiles.length "added file count"
  let added ← edit.addedFiles.mapM encodeAdded
  let encoded := editFormatVersion :: (putOptionalU64 edit.nextFileNumber
    ++ (putOptionalU64 edit.lastSequence ++ (putOptionalU64 edit.logNumber
    ++ (putOptionalU64 edit.activeLogNumber ++ (putOptionalU64 edit.walSequence
    ++ (deletedCount ++ (deleted.flatten ++ (addedCount ++ added.flatten))))))))
  if maxEditBytes < encoded.length then
    throw (.invalidArgument ("encoded manifest edit exceeds " ++ toString maxEditBytes ++ " bytes"))
  else return encoded

/-! ## Decoding -/

/-- The error for a field that is cut short. -/
def truncatedField (name : String) (_ : ℕ) : Error := manifestCorruption ("truncated " ++ name)

def cursorU8 (name : String) : Decoder Error Byte := takeByte (truncatedField name)

def cursorU64 (name : String) : Decoder Error U64 := takeU64 (truncatedField name)

def cursorOptionalU64 (name : String) : Decoder Error (Option U64) := do
  let marker ← cursorU8 (name ++ " marker")
  if marker = 0 then return none
  else if marker = 1 then
    let value ← cursorU64 name
    return some value
  else throw (manifestCorruption ("unknown " ++ name ++ " marker " ++ toString marker.val))

def cursorCount (name : String) : Decoder Error ℕ := takeLe (truncatedField name) 4

def cursorLevel : Decoder Error ℕ := do
  let level ← cursorCount "level"
  if numLevels ≤ level then
    throw (manifestCorruption ("level " ++ toString level ++ " is outside the supported range 0.."
      ++ toString numLevels))
  else return level

def cursorBytes (name : String) : Decoder Error Bytes := do
  let length ← cursorCount (name ++ " length")
  takeBytes (truncatedField name) length

/-- Errors of checks that a writer would report as invalid arguments. -/
def recoveryEditError : Error → Error
  | .invalidArgument detail => manifestCorruption detail
  | other => other

def nestedKeyError (which : String) (error : Error) : Error :=
  manifestCorruption ("invalid " ++ which ++ " internal key: " ++ error.display)

def decodeDeleted : Decoder Error (ℕ × U64) := do
  let level ← cursorLevel
  let number ← cursorU64 "deleted file number"
  return (level, number)

def decodeAdded : Decoder Error (ℕ × FileMeta) := do
  let level ← cursorLevel
  let number ← cursorU64 "added file number"
  let fileSize ← cursorU64 "added file size"
  let smallest ← cursorBytes "smallest key"
  let smallest ← (InternalKey.decode smallest).mapError (nestedKeyError "smallest")
  let largest ← cursorBytes "largest key"
  let largest ← (InternalKey.decode largest).mapError (nestedKeyError "largest")
  let file ← (FileMeta.new number fileSize smallest largest).mapError recoveryEditError
  return (level, file)

/-- The log numbers and the WAL sequence, which the first version of the format does not have. -/
def decodeLogFields (version : Byte) : Decoder Error (Option U64 × Option U64 × Option U64) :=
  if 2 ≤ version.val then do
    let logNumber ← cursorOptionalU64 "oldest log number"
    let activeLogNumber ← cursorOptionalU64 "active log number"
    let walSequence ← cursorOptionalU64 "WAL sequence"
    return (logNumber, activeLogNumber, walSequence)
  else return (none, none, none)

/-- The fields of a logical record. -/
def editFields : Decoder Error VersionEdit := do
  let version ← cursorU8 "format version"
  if version ≠ 1 ∧ version ≠ editFormatVersion then
    throw (.unsupportedFormat "manifest" version.val)
  else
    let nextFileNumber ← cursorOptionalU64 "next file number"
    let lastSequence ← cursorOptionalU64 "last sequence"
    let (logNumber, activeLogNumber, walSequence) ← decodeLogFields version
    let deletedCount ← cursorCount "deleted file count"
    let deletedFiles ← times decodeDeleted deletedCount
    let addedCount ← cursorCount "added file count"
    let addedFiles ← times decodeAdded addedCount
    return { addedFiles, deletedFiles, nextFileNumber, lastSequence, logNumber, activeLogNumber,
             walSequence }

/-- The edit of a logical record. -/
def decodeEdit (encoded : Bytes) : Result VersionEdit :=
  if maxEditBytes < encoded.length then
    .error (manifestCorruption "logical edit exceeds the checked size limit")
  else do
    let (edit, rest) ← editFields encoded
    if rest ≠ [] then throw (manifestCorruption "trailing bytes after version edit")
    else return edit

/-! ## Round trip -/

/-- The bytes of an added table. -/
def addedBytes (added : ℕ × FileMeta) : Bytes :=
  leBytes 4 added.1 ++ (u64LeBytes added.2.number ++ (u64LeBytes added.2.fileSize
    ++ ((leBytes 4 added.2.smallest.asBytes.length ++ added.2.smallest.asBytes)
      ++ (leBytes 4 added.2.largest.asBytes.length ++ added.2.largest.asBytes))))

/-- The level and the key lengths of an added table fit their fields. -/
def AddedEncodable (added : ℕ × FileMeta) : Prop :=
  added.1 < numLevels ∧ added.2.smallest.asBytes.length < 2 ^ 32 ∧
    added.2.largest.asBytes.length < 2 ^ 32

/-- The bytes of an encodable edit. -/
def VersionEdit.bytes (edit : VersionEdit) : Bytes :=
  editFormatVersion :: (putOptionalU64 edit.nextFileNumber
    ++ (putOptionalU64 edit.lastSequence ++ (putOptionalU64 edit.logNumber
    ++ (putOptionalU64 edit.activeLogNumber ++ (putOptionalU64 edit.walSequence
    ++ (leBytes 4 edit.deletedFiles.length
      ++ (edit.deletedFiles.flatMap (fun deleted ↦ leBytes 4 deleted.1 ++ u64LeBytes deleted.2)
        ++ (leBytes 4 edit.addedFiles.length ++ edit.addedFiles.flatMap addedBytes))))))))

/-- An edit whose counts, levels and lengths fit their fields and whose record is within the
limit. -/
structure VersionEdit.Encodable (edit : VersionEdit) : Prop where
  deleted_length : edit.deletedFiles.length < 2 ^ 32
  deleted_level : ∀ deleted ∈ edit.deletedFiles, deleted.1 < numLevels
  added_length : edit.addedFiles.length < 2 ^ 32
  added : ∀ added ∈ edit.addedFiles, AddedEncodable added
  bytes_length : edit.bytes.length ≤ maxEditBytes

private theorem encodeDeleted_eq_ok (deleted : ℕ × U64) (bytes : Bytes) :
    encodeDeleted deleted = .ok bytes ↔
      deleted.1 < numLevels ∧ bytes = leBytes 4 deleted.1 ++ u64LeBytes deleted.2 := by
  unfold encodeDeleted putLevel
  split_ifs with h
  · exact ⟨fun heq ↦ ⟨h, (Except.ok.inj heq).symm⟩, fun heq ↦ by rw [heq.2]; rfl⟩
  · exact ⟨nofun, fun heq ↦ absurd heq.1 h⟩

private theorem encodeAdded_eq_ok (added : ℕ × FileMeta) (bytes : Bytes) :
    encodeAdded added = .ok bytes ↔ AddedEncodable added ∧ bytes = addedBytes added := by
  unfold encodeAdded putLevel putBytes
  by_cases hlevel : added.1 < numLevels
  · by_cases hsmallest : added.2.smallest.asBytes.length < 2 ^ 32
    · by_cases hlargest : added.2.largest.asBytes.length < 2 ^ 32
      · rw [if_pos hlevel, if_pos hsmallest, if_pos hlargest]
        exact ⟨fun h ↦ ⟨⟨hlevel, hsmallest, hlargest⟩, (Except.ok.inj h).symm⟩,
          fun h ↦ by rw [h.2]; rfl⟩
      · rw [if_pos hlevel, if_pos hsmallest, if_neg hlargest]
        exact ⟨nofun, fun h ↦ absurd h.1.2.2 hlargest⟩
    · rw [if_pos hlevel, if_neg hsmallest]
      exact ⟨nofun, fun h ↦ absurd h.1.2.1 hsmallest⟩
  · rw [if_neg hlevel]
    exact ⟨nofun, fun h ↦ absurd h.1.1 hlevel⟩

private theorem putCount_eq_ok {count : ℕ} {name : String} {bytes : Bytes} :
    putCount count name = .ok bytes ↔ count < 2 ^ 32 ∧ bytes = leBytes 4 count := by
  unfold putCount
  split_ifs with h
  · exact ⟨fun heq ↦ ⟨h, (Except.ok.inj heq).symm⟩, fun heq ↦ by rw [heq.2]⟩
  · exact ⟨nofun, fun heq ↦ absurd heq.1 h⟩

/-- An edit is encoded exactly when it is encodable. -/
theorem encodeEdit_eq_ok {edit : VersionEdit} {bytes : Bytes} :
    encodeEdit edit = .ok bytes ↔ edit.Encodable ∧ bytes = edit.bytes := by
  constructor
  · intro h
    unfold encodeEdit at h
    cases hdc : putCount edit.deletedFiles.length "deleted file count" with
    | error e => rw [hdc] at h; cases h
    | ok deletedCount =>
    cases hd : edit.deletedFiles.mapM encodeDeleted with
    | error e => rw [hdc, hd] at h; cases h
    | ok deleted =>
    cases hac : putCount edit.addedFiles.length "added file count" with
    | error e => rw [hdc, hd, hac] at h; cases h
    | ok addedCount =>
    cases ha : edit.addedFiles.mapM encodeAdded with
    | error e => rw [hdc, hd, hac, ha] at h; cases h
    | ok added =>
    simp only [hdc, hd, hac, ha, bind, Except.bind] at h
    split_ifs at h with hlength
    obtain ⟨hdc', rfl⟩ := putCount_eq_ok.mp hdc
    obtain ⟨hd', rfl⟩ := (mapM_eq_ok_iff encodeDeleted_eq_ok).mp hd
    obtain ⟨hac', rfl⟩ := putCount_eq_ok.mp hac
    obtain ⟨ha', rfl⟩ := (mapM_eq_ok_iff encodeAdded_eq_ok).mp ha
    exact ⟨⟨hdc', hd', hac', ha', Nat.le_of_not_lt hlength⟩, (Except.ok.inj h).symm⟩
  · rintro ⟨h, rfl⟩
    have hlength := h.bytes_length
    rw [encodeEdit, putCount_eq_ok.mpr ⟨h.deleted_length, rfl⟩,
      (mapM_eq_ok_iff encodeDeleted_eq_ok).mpr ⟨h.deleted_level, rfl⟩,
      putCount_eq_ok.mpr ⟨h.added_length, rfl⟩,
      (mapM_eq_ok_iff encodeAdded_eq_ok).mpr ⟨h.added, rfl⟩]
    simp only [bind, Except.bind]
    exact if_neg (Nat.not_lt.mpr hlength)

private theorem decodes_optionalU64 (name : String) (value : Option U64) :
    Decodes (cursorOptionalU64 name) (putOptionalU64 value) value := by
  cases value with
  | none => exact (decodes_takeByte 0).bind_nil (.pure none)
  | some value => exact (decodes_takeByte 1).bind ((decodes_takeU64 value).bind_nil (.pure _))

private theorem decodes_level {level : ℕ} (h : level < numLevels) :
    Decodes cursorLevel (leBytes 4 level) level := by
  refine (decodes_takeLe (h.trans (by decide))).bind_nil ?_
  rw [if_neg (Nat.not_le.mpr h)]
  exact .pure level

private theorem decodes_bytes (name : String) {bytes : Bytes} (h : bytes.length < 2 ^ 32) :
    Decodes (cursorBytes name) (leBytes 4 bytes.length ++ bytes) bytes :=
  (decodes_takeLe h).bind (decodes_takeBytes rfl)

/-- A checked value that needs no bytes. -/
theorem decodes_lift {α : Type} {result : Result α} {a : α} (h : result = .ok a) :
    Decodes (liftM result : Decoder Error α) [] a := by
  intro rest
  rw [h]
  rfl

private theorem decodes_added {added : ℕ × FileMeta} (h : AddedEncodable added) :
    Decodes decodeAdded (addedBytes added) added := by
  refine (decodes_level h.1).bind ?_
  refine (decodes_takeU64 added.2.number).bind ?_
  refine (decodes_takeU64 added.2.fileSize).bind ?_
  refine (decodes_bytes _ h.2.1).bind ?_
  refine (decodes_lift (by rw [InternalKey.decode_asBytes]; rfl)).nil_bind ?_
  refine (decodes_bytes _ h.2.2).bind_nil ?_
  refine (decodes_lift (by rw [InternalKey.decode_asBytes]; rfl)).nil_bind ?_
  refine (decodes_lift (by rw [FileMeta.new_eq_ok]; rfl)).nil_bind ?_
  exact .pure added

private theorem decodes_logFields (logNumber activeLogNumber walSequence : Option U64) :
    Decodes (decodeLogFields editFormatVersion)
      (putOptionalU64 logNumber ++ (putOptionalU64 activeLogNumber ++ putOptionalU64 walSequence))
      (logNumber, activeLogNumber, walSequence) := by
  refine (decodes_optionalU64 _ logNumber).bind ?_
  exact (decodes_optionalU64 _ activeLogNumber).bind
    ((decodes_optionalU64 _ walSequence).bind_nil (.pure _))

private theorem decodes_deleted {deleted : ℕ × U64} (h : deleted.1 < numLevels) :
    Decodes decodeDeleted (leBytes 4 deleted.1 ++ u64LeBytes deleted.2) deleted :=
  (decodes_level h).bind ((decodes_takeU64 deleted.2).bind_nil (.pure _))

private theorem decodes_editFields {edit : VersionEdit} (h : edit.Encodable) :
    Decodes editFields edit.bytes edit := by
  refine (decodes_takeByte editFormatVersion).bind ?_
  rw [if_neg (by decide)]
  refine (decodes_optionalU64 _ _).bind ?_
  refine (decodes_optionalU64 _ _).bind ?_
  -- the three log fields are read by one reader
  rw [← List.append_assoc (putOptionalU64 edit.activeLogNumber), ← List.append_assoc]
  refine (decodes_logFields _ _ _).bind ?_
  refine (decodes_takeLe h.deleted_length).bind ?_
  refine (decodes_times fun deleted hdeleted ↦
    decodes_deleted (h.deleted_level deleted hdeleted)).bind ?_
  refine (decodes_takeLe h.added_length).bind ?_
  exact (decodes_times fun added hadded ↦ decodes_added (h.added added hadded)).bind_nil (.pure _)

/-- Decoding gives back the edit that was encoded. -/
theorem decodeEdit_encodeEdit {edit : VersionEdit} {bytes : Bytes}
    (h : encodeEdit edit = .ok bytes) : decodeEdit bytes = .ok edit := by
  obtain ⟨hencodable, rfl⟩ := encodeEdit_eq_ok.mp h
  have hfields := decodes_editFields hencodable []
  rw [List.append_nil] at hfields
  rw [decodeEdit, if_neg (Nat.not_lt.mpr hencodable.bytes_length), hfields]
  rfl

/-! ## What is accepted -/

private theorem exact_optionalU64 (name : String) :
    Exact (cursorOptionalU64 name) putOptionalU64 fun _ ↦ True := by
  intro input value rest h
  obtain ⟨marker, r₁, hmarker, h₁⟩ := run_bind_eq_ok.mp h
  obtain ⟨-, rfl⟩ := exact_takeByte _ hmarker
  refine ⟨trivial, ?_⟩
  split_ifs at h₁ with hzero hone
  · obtain ⟨rfl, rfl⟩ := run_pure_eq_ok.mp h₁
    rw [hzero]
    rfl
  · obtain ⟨number, r₂, hnumber, h₂⟩ := run_bind_eq_ok.mp h₁
    obtain ⟨-, rfl⟩ := exact_takeU64 _ hnumber
    obtain ⟨rfl, rfl⟩ := run_pure_eq_ok.mp h₂
    rw [hone]
    rfl
  · cases h₁

private theorem exact_level : Exact cursorLevel (leBytes 4) fun level ↦ level < numLevels := by
  intro input level rest h
  obtain ⟨count, r₁, hcount, h₁⟩ := run_bind_eq_ok.mp h
  obtain ⟨-, rfl⟩ := exact_takeLe _ 4 hcount
  split_ifs at h₁ with hlevel
  · cases h₁
  · obtain ⟨rfl, rfl⟩ := run_pure_eq_ok.mp h₁
    exact ⟨Nat.lt_of_not_le hlevel, rfl⟩

private theorem exact_bytes (name : String) :
    Exact (cursorBytes name) (fun bytes ↦ leBytes 4 bytes.length ++ bytes) fun bytes ↦
      bytes.length < 2 ^ 32 := by
  intro input bytes rest h
  obtain ⟨length, r₁, hlength, h₁⟩ := run_bind_eq_ok.mp h
  obtain ⟨hlt, rfl⟩ := exact_takeLe _ 4 hlength
  obtain ⟨rfl, rfl⟩ := exact_takeBytes _ _ h₁
  exact ⟨hlt, by rw [List.append_assoc]; rfl⟩

private theorem exact_deleted :
    Exact decodeDeleted (fun deleted ↦ leBytes 4 deleted.1 ++ u64LeBytes deleted.2) fun deleted ↦
      deleted.1 < numLevels := by
  intro input deleted rest h
  obtain ⟨level, r₁, hlevel, h₁⟩ := run_bind_eq_ok.mp h
  obtain ⟨number, r₂, hnumber, h₂⟩ := run_bind_eq_ok.mp h₁
  obtain ⟨hlt, rfl⟩ := exact_level hlevel
  obtain ⟨-, rfl⟩ := exact_takeU64 _ hnumber
  obtain ⟨rfl, rfl⟩ := run_pure_eq_ok.mp h₂
  exact ⟨hlt, by rw [List.append_assoc]⟩

private theorem mapError_eq_ok {α : Type} {result : Result α} {f : Error → Error} {a : α} :
    result.mapError f = .ok a ↔ result = .ok a := by
  cases result with
  | error e => exact ⟨nofun, nofun⟩
  | ok a' => exact Iff.rfl

private theorem exact_added : Exact decodeAdded addedBytes AddedEncodable := by
  intro input added rest h
  obtain ⟨level, r₁, hlevel, h₁⟩ := run_bind_eq_ok.mp h
  obtain ⟨number, r₂, hnumber, h₂⟩ := run_bind_eq_ok.mp h₁
  obtain ⟨fileSize, r₃, hfileSize, h₃⟩ := run_bind_eq_ok.mp h₂
  obtain ⟨smallestBytes, r₄, hsmallestBytes, h₄⟩ := run_bind_eq_ok.mp h₃
  obtain ⟨smallest, r₅, hsmallest, h₅⟩ := run_bind_eq_ok.mp h₄
  obtain ⟨largestBytes, r₆, hlargestBytes, h₆⟩ := run_bind_eq_ok.mp h₅
  obtain ⟨largest, r₇, hlargest, h₇⟩ := run_bind_eq_ok.mp h₆
  obtain ⟨file, r₈, hfile, h₈⟩ := run_bind_eq_ok.mp h₇
  -- the checks of the keys and of the metadata read nothing
  obtain ⟨hsmallestOk, rfl⟩ := run_lift_eq_ok.mp hsmallest
  obtain ⟨hlargestOk, rfl⟩ := run_lift_eq_ok.mp hlargest
  obtain ⟨hfileOk, rfl⟩ := run_lift_eq_ok.mp hfile
  obtain ⟨hlt, rfl⟩ := exact_level hlevel
  obtain ⟨-, rfl⟩ := exact_takeU64 _ hnumber
  obtain ⟨-, rfl⟩ := exact_takeU64 _ hfileSize
  obtain ⟨hsmallestLt, rfl⟩ := exact_bytes _ hsmallestBytes
  obtain ⟨hlargestLt, rfl⟩ := exact_bytes _ hlargestBytes
  obtain rfl := InternalKey.asBytes_of_decode (mapError_eq_ok.mp hsmallestOk)
  obtain rfl := InternalKey.asBytes_of_decode (mapError_eq_ok.mp hlargestOk)
  obtain ⟨rfl, rfl, rfl, rfl⟩ := FileMeta.eq_of_new (mapError_eq_ok.mp hfileOk)
  obtain ⟨rfl, rfl⟩ := run_pure_eq_ok.mp h₈
  exact ⟨⟨hlt, hsmallestLt, hlargestLt⟩, by simp [addedBytes]⟩

/-- The log fields of a record of the given version. -/
def logFieldBytes (version : Byte) (fields : Option U64 × Option U64 × Option U64) : Bytes :=
  if 2 ≤ version.val then
    putOptionalU64 fields.1 ++ (putOptionalU64 fields.2.1 ++ putOptionalU64 fields.2.2)
  else []

private theorem exact_logFields (version : Byte) :
    Exact (decodeLogFields version) (logFieldBytes version) fun _ ↦ True := by
  intro input fields rest h
  refine ⟨trivial, ?_⟩
  unfold decodeLogFields at h
  unfold logFieldBytes
  split_ifs at h ⊢ with hversion
  · obtain ⟨logNumber, r₁, hlogNumber, h₁⟩ := run_bind_eq_ok.mp h
    obtain ⟨activeLogNumber, r₂, hactiveLogNumber, h₂⟩ := run_bind_eq_ok.mp h₁
    obtain ⟨walSequence, r₃, hwalSequence, h₃⟩ := run_bind_eq_ok.mp h₂
    obtain ⟨-, rfl⟩ := exact_optionalU64 _ hlogNumber
    obtain ⟨-, rfl⟩ := exact_optionalU64 _ hactiveLogNumber
    obtain ⟨-, rfl⟩ := exact_optionalU64 _ hwalSequence
    obtain ⟨rfl, rfl⟩ := run_pure_eq_ok.mp h₃
    simp only [List.append_assoc]
  · exact (run_pure_eq_ok.mp h).2.symm

/-- The record of an edit in the given version of the format. -/
def VersionEdit.bytesOf (version : Byte) (edit : VersionEdit) : Bytes :=
  version :: (putOptionalU64 edit.nextFileNumber ++ (putOptionalU64 edit.lastSequence
    ++ (logFieldBytes version (edit.logNumber, edit.activeLogNumber, edit.walSequence)
    ++ (leBytes 4 edit.deletedFiles.length
      ++ (edit.deletedFiles.flatMap (fun deleted ↦ leBytes 4 deleted.1 ++ u64LeBytes deleted.2)
        ++ (leBytes 4 edit.addedFiles.length ++ edit.addedFiles.flatMap addedBytes))))))

private theorem VersionEdit.bytesOf_editFormatVersion (edit : VersionEdit) :
    edit.bytesOf editFormatVersion = edit.bytes := by
  have hlog :
      logFieldBytes editFormatVersion (edit.logNumber, edit.activeLogNumber, edit.walSequence)
      = putOptionalU64 edit.logNumber
        ++ (putOptionalU64 edit.activeLogNumber ++ putOptionalU64 edit.walSequence) :=
    if_pos (by decide)
  rw [VersionEdit.bytesOf, hlog, VersionEdit.bytes]
  simp only [List.append_assoc]

private theorem editFields_eq_ok {input rest : Bytes} {edit : VersionEdit}
    (h : editFields input = .ok (edit, rest)) :
    ∃ version, input = edit.bytesOf version ++ rest ∧ edit.deletedFiles.length < 2 ^ 32 ∧
      (∀ deleted ∈ edit.deletedFiles, deleted.1 < numLevels) ∧ edit.addedFiles.length < 2 ^ 32 ∧
      ∀ added ∈ edit.addedFiles, AddedEncodable added := by
  obtain ⟨version, r₁, hversion, h₁⟩ := run_bind_eq_ok.mp h
  obtain ⟨-, rfl⟩ := exact_takeByte _ hversion
  split_ifs at h₁ with hunsupported
  · cases h₁
  obtain ⟨nextFileNumber, r₂, hnextFileNumber, h₂⟩ := run_bind_eq_ok.mp h₁
  obtain ⟨lastSequence, r₃, hlastSequence, h₃⟩ := run_bind_eq_ok.mp h₂
  obtain ⟨⟨logNumber, activeLogNumber, walSequence⟩, r₄, hlog, h₄⟩ := run_bind_eq_ok.mp h₃
  obtain ⟨deletedCount, r₅, hdeletedCount, h₅⟩ := run_bind_eq_ok.mp h₄
  obtain ⟨deletedFiles, r₆, hdeletedFiles, h₆⟩ := run_bind_eq_ok.mp h₅
  obtain ⟨addedCount, r₇, haddedCount, h₇⟩ := run_bind_eq_ok.mp h₆
  obtain ⟨addedFiles, r₈, haddedFiles, h₈⟩ := run_bind_eq_ok.mp h₇
  obtain ⟨-, rfl⟩ := exact_optionalU64 _ hnextFileNumber
  obtain ⟨-, rfl⟩ := exact_optionalU64 _ hlastSequence
  obtain ⟨-, rfl⟩ := exact_logFields _ hlog
  obtain ⟨hdeletedLt, rfl⟩ := exact_takeLe _ 4 hdeletedCount
  obtain ⟨⟨rfl, hdeleted⟩, rfl⟩ := exact_times exact_deleted _ hdeletedFiles
  obtain ⟨haddedLt, rfl⟩ := exact_takeLe _ 4 haddedCount
  obtain ⟨⟨rfl, hadded⟩, rfl⟩ := exact_times exact_added _ haddedFiles
  obtain ⟨rfl, rfl⟩ := run_pure_eq_ok.mp h₈
  refine ⟨version, ?_, hdeletedLt, hdeleted, haddedLt, hadded⟩
  simp only [VersionEdit.bytesOf, List.cons_append, List.nil_append, List.append_assoc]

/-- An accepted record is the record of its edit in the version its first byte names. -/
theorem decodeEdit_eq_ok {bytes : Bytes} {edit : VersionEdit} (h : decodeEdit bytes = .ok edit) :
    ∃ version, bytes = edit.bytesOf version ∧
      (version = editFormatVersion → encodeEdit edit = .ok bytes) := by
  unfold decodeEdit at h
  split_ifs at h with hlength
  obtain ⟨⟨decoded, rest⟩, hfields, hrest⟩ := bind_eq_ok.mp h
  simp only at hrest
  split_ifs at hrest with htrailing
  obtain rfl := Except.ok.inj hrest
  obtain ⟨version, hbytes, hdeletedLt, hdeleted, haddedLt, hadded⟩ := editFields_eq_ok hfields
  rw [not_not.mp htrailing, List.append_nil] at hbytes
  refine ⟨version, hbytes, fun hversion ↦ ?_⟩
  rw [hversion, VersionEdit.bytesOf_editFormatVersion] at hbytes
  rw [hbytes] at hlength
  exact encodeEdit_eq_ok.mpr
    ⟨⟨hdeletedLt, hdeleted, haddedLt, hadded, Nat.le_of_not_lt hlength⟩, hbytes⟩

/-- **The codec of edits.** An encoded edit is decoded to itself, a record of the current version is
what the edit it is decoded to is encoded to, and a record of the first version is determined by its
edit. -/
theorem encodeEdit_decodeEdit :
    (∀ (edit : VersionEdit) (bytes : Bytes), encodeEdit edit = .ok bytes →
      decodeEdit bytes = .ok edit) ∧
    (∀ (edit : VersionEdit) (bytes : Bytes), decodeEdit bytes = .ok edit →
      bytes.head? = some editFormatVersion → encodeEdit edit = .ok bytes) ∧
    ∀ (edit : VersionEdit) (bytes bytes' : Bytes), decodeEdit bytes = .ok edit →
      decodeEdit bytes' = .ok edit → bytes.head? = some 1 → bytes'.head? = some 1 →
      bytes = bytes' := by
  refine ⟨fun edit bytes ↦ decodeEdit_encodeEdit, fun edit bytes h hversion ↦ ?_,
    fun edit bytes bytes' h h' hversion hversion' ↦ ?_⟩
  · obtain ⟨version, hbytes, hencode⟩ := decodeEdit_eq_ok h
    rw [hbytes] at hversion
    exact hencode (Option.some.inj hversion)
  · obtain ⟨version, rfl, -⟩ := decodeEdit_eq_ok h
    obtain ⟨version', rfl, -⟩ := decodeEdit_eq_ok h'
    obtain rfl : version = 1 := Option.some.inj hversion
    obtain rfl : version' = 1 := Option.some.inj hversion'
    rfl

/-! ## Sizes -/

/-- The bytes an added table takes in a record. -/
def FileMeta.editBytes (file : FileMeta) : ℕ :=
  28 + file.smallest.asBytes.length + file.largest.asBytes.length

@[simp] theorem length_putOptionalU64_some (value : U64) :
    (putOptionalU64 (some value)).length = 9 := by
  simp [putOptionalU64]

@[simp] theorem length_putOptionalU64_none : (putOptionalU64 none).length = 1 := rfl

private theorem length_addedBytes (added : ℕ × FileMeta) :
    (addedBytes added).length = added.2.editBytes := by
  simp only [addedBytes, FileMeta.editBytes, List.length_append, length_leBytes, length_u64LeBytes]
  omega

theorem VersionEdit.length_bytes (edit : VersionEdit) :
    edit.bytes.length = 9 + (putOptionalU64 edit.nextFileNumber).length
      + (putOptionalU64 edit.lastSequence).length + (putOptionalU64 edit.logNumber).length
      + (putOptionalU64 edit.activeLogNumber).length + (putOptionalU64 edit.walSequence).length
      + 12 * edit.deletedFiles.length
      + (edit.addedFiles.map fun added ↦ added.2.editBytes).sum := by
  have hdeleted : (edit.deletedFiles.flatMap fun deleted ↦
      leBytes 4 deleted.1 ++ u64LeBytes deleted.2).length = 12 * edit.deletedFiles.length := by
    rw [List.length_flatMap]
    simp [mul_comm]
  have hadded : (edit.addedFiles.flatMap addedBytes).length
      = (edit.addedFiles.map fun added ↦ added.2.editBytes).sum := by
    simp only [List.length_flatMap, length_addedBytes]
  rw [VersionEdit.bytes]
  simp only [List.length_cons, List.length_append, length_leBytes, hdeleted, hadded]
  omega

/-- A record within the limit has counts and key lengths that fit their fields. -/
theorem VersionEdit.encodable_iff {edit : VersionEdit}
    (hdeleted : ∀ deleted ∈ edit.deletedFiles, deleted.1 < numLevels)
    (hadded : ∀ added ∈ edit.addedFiles, added.1 < numLevels) :
    edit.Encodable ↔ edit.bytes.length ≤ maxEditBytes := by
  refine ⟨fun h ↦ h.bytes_length, fun h ↦ ?_⟩
  have hlength := edit.length_bytes
  set sizes := edit.addedFiles.map fun added ↦ added.2.editBytes with hsizes
  have hcount : edit.addedFiles.length ≤ sizes.sum := by
    have hpos : ∀ size ∈ sizes, 1 ≤ size := by
      intro size hsize
      obtain ⟨added, -, rfl⟩ := List.mem_map.mp hsize
      unfold FileMeta.editBytes
      omega
    have hle := List.length_le_sum_of_one_le sizes hpos
    rwa [hsizes, List.length_map] at hle
  have hmax : maxEditBytes < 2 ^ 32 := by decide
  refine ⟨by omega, hdeleted, by omega, fun added hmem ↦ ?_, h⟩
  have hle : added.2.editBytes ≤ sizes.sum :=
    List.single_le_sum (by simp) _ (List.mem_map_of_mem hmem)
  unfold FileMeta.editBytes at hle
  exact ⟨hadded added hmem, by omega, by omega⟩

/-! ## The log of edits -/

/-- The error for each physical fault. -/
def manifestFault : Fault → Error
  | .trailer => manifestCorruption "nonzero bytes in physical block trailer"
  | .crosses _ => manifestCorruption "physical fragment crosses a block boundary"
  | .checksum => manifestCorruption "physical fragment checksum mismatch"
  | .unexpectedFull => manifestCorruption "new record starts before the previous record ended"
  | .unexpectedFirst => manifestCorruption "new record starts before the previous record ended"
  | .orphan _ => manifestCorruption "continuation fragment has no preceding FIRST"
  | .unknown _ => manifestCorruption "unknown physical fragment type"

/-- The consumer of a manifest: it decodes each edit and hands it to a callback. -/
def editConsumer {σ : Type} (onEdit : σ → VersionEdit → Result σ) : Consumer Error σ where
  fault := manifestFault
  limit := maxEditBytes
  tooLong := manifestCorruption "logical edit exceeds the checked size limit"
  deliver out encoded := do
    let edit ← decodeEdit encoded
    onEdit out edit

/-- The callback that collects the edits. -/
def pushEdit (edits : List VersionEdit) (edit : VersionEdit) : Result (List VersionEdit) :=
  .ok (edits ++ [edit])

/-- Edits as the records of a log. -/
def manifestFormat : RecordFormat Error VersionEdit where
  encode := VersionEdit.bytes
  Good := VersionEdit.Encodable
  consumer := editConsumer pushEdit
  encode_ne_nil _ := List.cons_ne_nil _ _
  length_encode_le h := h.bytes_length
  deliver_encode out h := by
    show (decodeEdit _ >>= pushEdit out) = _
    rw [decodeEdit_encodeEdit (encodeEdit_eq_ok.mpr ⟨h, rfl⟩)]
    rfl

/-- Replays the bytes of a manifest through a callback. -/
def replayManifestStream [Crc32c] {σ : Type} (bytes : Bytes)
    (onEdit : σ → VersionEdit → Result σ) (out : σ) : Result (Summary σ) :=
  replay logFraming (editConsumer onEdit) bytes out

/-- The edits in the bytes of a manifest, the length of their log, and that of the file. -/
def replayManifest [Crc32c] (bytes : Bytes) : Result (Summary (List VersionEdit)) :=
  replayManifestStream bytes pushEdit []

/-! ## Counters and file numbers -/

/-- The recovery counters. -/
@[ext] structure Counters where
  nextFileNumber : U64
  lastSequence : SequenceNumber
  logNumber : U64
  activeLogNumber : U64
  walSequence : SequenceNumber
  deriving DecidableEq

/-- The error of a check that is made both for new edits and during recovery. -/
def counterError (recovery : Bool) (detail : String) : Error :=
  if recovery then manifestCorruption detail else .invalidArgument detail

/-- A counter that an edit may set but not move backward. -/
def advanceCounter (recovery : Bool) (name : String) (current : U64) (next : Option U64) :
    Result U64 :=
  match next with
  | none => .ok current
  | some value =>
    if value < current then
      .error (counterError recovery (name ++ " moved backward from " ++ toString current.val
        ++ " to " ++ toString value.val))
    else .ok value

/-- The relations between the counters that every edit must leave. -/
def checkCounters (recovery : Bool) (counters : Counters) : Result Unit :=
  if ¬ (counters.logNumber = 0 ↔ counters.activeLogNumber = 0) then
    .error (counterError recovery
      "oldest and active log numbers must either both be zero or both be nonzero")
  else if counters.activeLogNumber < counters.logNumber then
    .error (counterError recovery ("oldest log number " ++ toString counters.logNumber.val
      ++ " exceeds active log number " ++ toString counters.activeLogNumber.val))
  else if counters.nextFileNumber ≤ counters.activeLogNumber ∧ counters.activeLogNumber ≠ 0 then
    .error (counterError recovery ("active log number " ++ toString counters.activeLogNumber.val
      ++ " is not below next file number " ++ toString counters.nextFileNumber.val))
  else .ok ()

/-- The counters after an edit. -/
def updateCounters (recovery : Bool) (edit : VersionEdit) (counters : Counters) :
    Result Counters := do
  let nextFileNumber ←
    advanceCounter recovery "next file number" counters.nextFileNumber edit.nextFileNumber
  if edit.nextFileNumber = some 0 then
    throw (counterError recovery "next file number must be greater than zero")
  else
    let lastSequence ←
      advanceCounter recovery "last sequence" counters.lastSequence edit.lastSequence
    let logNumber ← advanceCounter recovery "log number" counters.logNumber edit.logNumber
    let activeLogNumber ←
      advanceCounter recovery "active log number" counters.activeLogNumber edit.activeLogNumber
    let walSequence ←
      advanceCounter recovery "WAL sequence" counters.walSequence edit.walSequence
    let updated := ⟨nextFileNumber, lastSequence, logNumber, activeLogNumber, walSequence⟩
    checkCounters recovery updated
    return updated

/-- The check of one added file number, given those added before it. -/
def validateAdded (recovery : Bool) (edit : VersionEdit) (nextFileNumber : U64)
    (used : Finset U64) (added : List U64) (file : ℕ × FileMeta) : Result (List U64) :=
  let number := file.2.number
  let text := "SSTable file number " ++ toString number.val
  if nextFileNumber ≤ number then
    .error (counterError recovery (text ++ " is not below next file number "
      ++ toString nextFileNumber.val))
  else if number ∈ added then .error (counterError recovery (text ++ " is added more than once"))
  else if number ∈ edit.deletedFiles.map Prod.snd then
    .error (counterError recovery (text ++ " is deleted and re-added in the same edit"))
  else if number ∈ used then .error (counterError recovery (text ++ " has already been used"))
  else .ok (number :: added)

/-- The check of the file numbers of an edit. -/
def validateFileNumbers (recovery : Bool) (edit : VersionEdit) (nextFileNumber : U64)
    (used : Finset U64) : Result Unit :=
  if (used.filter (nextFileNumber ≤ ·)).Nonempty then
    .error (counterError recovery ("next file number " ++ toString nextFileNumber.val
      ++ " does not exceed every previously used file number"))
  else do
    let _ ← edit.addedFiles.foldlM (validateAdded recovery edit nextFileNumber used) []
    return ()

/-! ## The state a manifest leads to -/

/-- The version, the file numbers ever used, and the counters. -/
@[ext] structure VersionState where
  version : Version
  usedFileNumbers : Finset U64
  counters : Counters
  deriving DecidableEq

namespace VersionState

/-- The state before the first edit of a manifest. -/
def initial (manifestNumber : U64) : VersionState := ⟨.empty, {manifestNumber}, ⟨0, 0, 0, 0, 0⟩⟩

/-- The version of an edit, with errors as in recovery or not. -/
def applyVersion (recovery : Bool) (version : Version) (edit : VersionEdit) : Result Version :=
  if recovery then (version.apply edit).mapError recoveryEditError else version.apply edit

/-- The state after an edit. -/
def apply (recovery : Bool) (state : VersionState) (edit : VersionEdit) : Result VersionState := do
  let counters ← updateCounters recovery edit state.counters
  validateFileNumbers recovery edit counters.nextFileNumber state.usedFileNumbers
  let version ← applyVersion recovery state.version edit
  return ⟨version, state.usedFileNumbers ∪ (edit.addedFiles.map (·.2.number)).toFinset, counters⟩

/-- The state after the edits of a manifest. -/
def replay (manifestNumber : U64) (edits : List VersionEdit) : Result VersionState :=
  edits.foldlM (apply true) (initial manifestNumber)

end VersionState

/-! ### When an edit is accepted -/

/-- The counters an edit asks for. -/
def Counters.merge (counters : Counters) (edit : VersionEdit) : Counters where
  nextFileNumber := edit.nextFileNumber.getD counters.nextFileNumber
  lastSequence := edit.lastSequence.getD counters.lastSequence
  logNumber := edit.logNumber.getD counters.logNumber
  activeLogNumber := edit.activeLogNumber.getD counters.activeLogNumber
  walSequence := edit.walSequence.getD counters.walSequence

/-- No counter moves backward. -/
structure Counters.Le (counters counters' : Counters) : Prop where
  nextFileNumber : counters.nextFileNumber ≤ counters'.nextFileNumber
  lastSequence : counters.lastSequence ≤ counters'.lastSequence
  logNumber : counters.logNumber ≤ counters'.logNumber
  activeLogNumber : counters.activeLogNumber ≤ counters'.activeLogNumber
  walSequence : counters.walSequence ≤ counters'.walSequence

/-- Both log numbers are set or none is; they are in order, and below the next file number. -/
structure Counters.Valid (counters : Counters) : Prop where
  log_iff : counters.logNumber = 0 ↔ counters.activeLogNumber = 0
  log_le : counters.logNumber ≤ counters.activeLogNumber
  active_lt : counters.activeLogNumber ≠ 0 → counters.activeLogNumber < counters.nextFileNumber

/-- The file numbers an edit adds are new, distinct and below the next file number. -/
structure FreshNumbers (edit : VersionEdit) (nextFileNumber : U64) (used : Finset U64) : Prop where
  used_lt : ∀ number ∈ used, number < nextFileNumber
  nodup : (edit.addedFiles.map (·.2.number)).Nodup
  added_lt : ∀ file ∈ edit.addedFiles, file.2.number < nextFileNumber
  not_deleted : ∀ file ∈ edit.addedFiles, file.2.number ∉ edit.deletedFiles.map Prod.snd
  not_used : ∀ file ∈ edit.addedFiles, file.2.number ∉ used

private theorem advanceCounter_eq_ok {recovery : Bool} {name : String} {current value : U64}
    {next : Option U64} :
    advanceCounter recovery name current next = .ok value ↔
      current ≤ next.getD current ∧ value = next.getD current := by
  unfold advanceCounter
  cases next with
  | none =>
    simp only [Option.getD_none, le_refl, true_and]
    exact ⟨fun h ↦ (Except.ok.inj h).symm, fun h ↦ by rw [h]⟩
  | some next =>
    simp only [Option.getD_some]
    split_ifs with hlt
    · exact ⟨nofun, fun h ↦ absurd h.1 (not_le.mpr hlt)⟩
    · exact ⟨fun h ↦ ⟨not_lt.mp hlt, (Except.ok.inj h).symm⟩, fun h ↦ by rw [h.2]⟩

private theorem checkCounters_eq_ok {recovery : Bool} {counters : Counters} :
    checkCounters recovery counters = .ok () ↔ counters.Valid := by
  unfold checkCounters
  by_cases hiff : counters.logNumber = 0 ↔ counters.activeLogNumber = 0
  case neg =>
    rw [if_pos hiff]
    exact ⟨nofun, fun h ↦ absurd h.log_iff hiff⟩
  rw [if_neg (not_not.mpr hiff)]
  split_ifs with hlt hnext
  · exact ⟨nofun, fun h ↦ absurd h.log_le (not_le.mpr hlt)⟩
  · exact ⟨nofun, fun h ↦ absurd (h.active_lt hnext.2) (not_lt.mpr hnext.1)⟩
  · refine ⟨fun _ ↦ ⟨hiff, not_lt.mp hlt, fun hne ↦ ?_⟩, fun _ ↦ rfl⟩
    exact not_le.mp fun h ↦ hnext ⟨h, hne⟩

private theorem updateCounters_eq_ok {recovery : Bool} {edit : VersionEdit}
    {counters updated : Counters} : updateCounters recovery edit counters = .ok updated ↔
      counters.Le (counters.merge edit) ∧ edit.nextFileNumber ≠ some 0 ∧
        (counters.merge edit).Valid ∧ updated = counters.merge edit := by
  unfold updateCounters
  rw [bind_eq_ok]
  constructor
  · rintro ⟨next, hnext, h⟩
    split_ifs at h with hzero
    obtain ⟨last, hlast, h⟩ := bind_eq_ok.mp h
    obtain ⟨log, hlog, h⟩ := bind_eq_ok.mp h
    obtain ⟨active, hactive, h⟩ := bind_eq_ok.mp h
    obtain ⟨wal, hwal, h⟩ := bind_eq_ok.mp h
    obtain ⟨⟨⟩, hcheck, h⟩ := bind_eq_ok.mp h
    obtain ⟨hnext_le, rfl⟩ := advanceCounter_eq_ok.mp hnext
    obtain ⟨hlast_le, rfl⟩ := advanceCounter_eq_ok.mp hlast
    obtain ⟨hlog_le, rfl⟩ := advanceCounter_eq_ok.mp hlog
    obtain ⟨hactive_le, rfl⟩ := advanceCounter_eq_ok.mp hactive
    obtain ⟨hwal_le, rfl⟩ := advanceCounter_eq_ok.mp hwal
    exact ⟨⟨hnext_le, hlast_le, hlog_le, hactive_le, hwal_le⟩, hzero, checkCounters_eq_ok.mp hcheck,
      (Except.ok.inj h).symm⟩
  · rintro ⟨hle, hzero, hvalid, rfl⟩
    refine ⟨_, advanceCounter_eq_ok.mpr ⟨hle.nextFileNumber, rfl⟩, ?_⟩
    rw [if_neg hzero]
    refine bind_eq_ok.mpr ⟨_, advanceCounter_eq_ok.mpr ⟨hle.lastSequence, rfl⟩, ?_⟩
    refine bind_eq_ok.mpr ⟨_, advanceCounter_eq_ok.mpr ⟨hle.logNumber, rfl⟩, ?_⟩
    refine bind_eq_ok.mpr ⟨_, advanceCounter_eq_ok.mpr ⟨hle.activeLogNumber, rfl⟩, ?_⟩
    refine bind_eq_ok.mpr ⟨_, advanceCounter_eq_ok.mpr ⟨hle.walSequence, rfl⟩, ?_⟩
    exact bind_eq_ok.mpr ⟨(), checkCounters_eq_ok.mpr hvalid, rfl⟩

/-- The checks of the added numbers, after some others have been added. -/
theorem foldlM_validateAdded_eq_ok {recovery : Bool} {edit : VersionEdit} {nextFileNumber : U64}
    {used : Finset U64} {files : List (ℕ × FileMeta)} {before : List U64} :
    (∃ after, files.foldlM (validateAdded recovery edit nextFileNumber used) before = .ok after) ↔
      (files.map (·.2.number)).Nodup ∧ ∀ file ∈ files, file.2.number < nextFileNumber ∧
        file.2.number ∉ before ∧ file.2.number ∉ edit.deletedFiles.map Prod.snd ∧
        file.2.number ∉ used := by
  induction files generalizing before with
  | nil => exact ⟨fun _ ↦ ⟨.nil, nofun⟩, fun _ ↦ ⟨before, rfl⟩⟩
  | cons file files ih =>
    have hstep : ∀ after, validateAdded recovery edit nextFileNumber used before file = .ok after ↔
        (file.2.number < nextFileNumber ∧ file.2.number ∉ before ∧
          file.2.number ∉ edit.deletedFiles.map Prod.snd ∧ file.2.number ∉ used) ∧
          after = file.2.number :: before := by
      intro after
      simp only [validateAdded]
      split_ifs with hnext hbefore hdeleted hused
      · exact ⟨nofun, fun h ↦ absurd h.1.1 (not_lt.mpr hnext)⟩
      · exact ⟨nofun, fun h ↦ absurd hbefore h.1.2.1⟩
      · exact ⟨nofun, fun h ↦ absurd hdeleted h.1.2.2.1⟩
      · exact ⟨nofun, fun h ↦ absurd hused h.1.2.2.2⟩
      · exact ⟨fun h ↦ ⟨⟨not_le.mp hnext, hbefore, hdeleted, hused⟩, (Except.ok.inj h).symm⟩,
          fun h ↦ by rw [h.2]⟩
    rw [List.map_cons, List.nodup_cons, List.forall_mem_cons]
    constructor
    · rintro ⟨after, h⟩
      rw [List.foldlM_cons] at h
      obtain ⟨_, hfirst, h⟩ := bind_eq_ok.mp h
      obtain ⟨hfile, rfl⟩ := (hstep _).mp hfirst
      obtain ⟨hnodup, hall⟩ := ih.mp ⟨after, h⟩
      refine ⟨⟨fun hmem ↦ ?_, hnodup⟩, hfile, fun other hother ↦ ?_⟩
      · obtain ⟨other, hother, heq⟩ := List.mem_map.mp hmem
        exact (hall other hother).2.1 (heq ▸ List.mem_cons_self ..)
      · obtain ⟨hlt, hnew, hrest⟩ := hall other hother
        exact ⟨hlt, fun hmem ↦ hnew (List.mem_cons_of_mem _ hmem), hrest⟩
    · rintro ⟨⟨hnew, hnodup⟩, hfile, hall⟩
      have hrest : ∀ other ∈ files, other.2.number ≠ file.2.number := fun other hother heq ↦
        hnew (List.mem_map.mpr ⟨other, hother, heq⟩)
      obtain ⟨after, h⟩ := (@ih (file.2.number :: before)).mpr ⟨hnodup, fun other hother ↦
        ⟨(hall other hother).1, fun hmem ↦ (List.mem_cons.mp hmem).elim (hrest other hother)
          (hall other hother).2.1, (hall other hother).2.2⟩⟩
      exact ⟨after, by rw [List.foldlM_cons, (hstep _).mpr ⟨hfile, rfl⟩]; exact h⟩

private theorem validateFileNumbers_eq_ok {recovery : Bool} {edit : VersionEdit}
    {nextFileNumber : U64} {used : Finset U64} :
    validateFileNumbers recovery edit nextFileNumber used = .ok () ↔
      FreshNumbers edit nextFileNumber used := by
  unfold validateFileNumbers
  by_cases hused : (used.filter (nextFileNumber ≤ ·)).Nonempty
  · rw [if_pos hused]
    obtain ⟨number, hnumber⟩ := hused
    obtain ⟨hmem, hle⟩ := Finset.mem_filter.mp hnumber
    exact ⟨nofun, fun h ↦ absurd (h.used_lt number hmem) (not_lt.mpr hle)⟩
  rw [if_neg hused, bind_eq_ok]
  have hlt : ∀ number ∈ used, number < nextFileNumber := fun number hmem ↦
    not_le.mp fun hle ↦ hused ⟨number, Finset.mem_filter.mpr ⟨hmem, hle⟩⟩
  constructor
  · rintro ⟨after, h, -⟩
    obtain ⟨hnodup, hall⟩ := foldlM_validateAdded_eq_ok.mp ⟨after, h⟩
    exact ⟨hlt, hnodup, fun f hf ↦ (hall f hf).1, fun f hf ↦ (hall f hf).2.2.1,
      fun f hf ↦ (hall f hf).2.2.2⟩
  · intro h
    obtain ⟨after, hfold⟩ := foldlM_validateAdded_eq_ok.mpr ⟨h.nodup, fun f hf ↦
      ⟨h.added_lt f hf, List.not_mem_nil, h.not_deleted f hf, h.not_used f hf⟩⟩
    exact ⟨after, hfold, rfl⟩

/-- What an edit must satisfy to be accepted in a state. -/
structure VersionState.Accepts (state : VersionState) (edit : VersionEdit) : Prop where
  le : state.counters.Le (state.counters.merge edit)
  next_ne : edit.nextFileNumber ≠ some 0
  valid : (state.counters.merge edit).Valid
  fresh : FreshNumbers edit (state.counters.merge edit).nextFileNumber state.usedFileNumbers

private theorem VersionState.applyVersion_eq_ok {recovery : Bool} {version version' : Version}
    {edit : VersionEdit} :
    applyVersion recovery version edit = .ok version' ↔ version.apply edit = .ok version' := by
  unfold applyVersion
  split_ifs
  · cases version.apply edit with
    | error e => exact ⟨nofun, nofun⟩
    | ok v => rfl
  · rfl

/-- An edit is accepted under the same conditions when it is applied and when it is replayed. -/
theorem VersionState.apply_eq_ok {recovery : Bool} {state state' : VersionState}
    {edit : VersionEdit} :
    state.apply recovery edit = .ok state' ↔
      state.Accepts edit ∧ state.version.apply edit = .ok state'.version ∧
        state'.usedFileNumbers
          = state.usedFileNumbers ∪ (edit.addedFiles.map (·.2.number)).toFinset ∧
        state'.counters = state.counters.merge edit := by
  unfold VersionState.apply
  constructor
  · intro h
    obtain ⟨counters, hcounters, h⟩ := bind_eq_ok.mp h
    obtain ⟨⟨⟩, hnumbers, h⟩ := bind_eq_ok.mp h
    obtain ⟨version, hversion, h⟩ := bind_eq_ok.mp h
    obtain ⟨hle, hne, hvalid, rfl⟩ := updateCounters_eq_ok.mp hcounters
    obtain rfl := Except.ok.inj h
    exact ⟨⟨hle, hne, hvalid, validateFileNumbers_eq_ok.mp hnumbers⟩,
      applyVersion_eq_ok.mp hversion, rfl, rfl⟩
  · rintro ⟨haccepts, hversion, hused, hcounters⟩
    refine bind_eq_ok.mpr ⟨_, updateCounters_eq_ok.mpr
      ⟨haccepts.le, haccepts.next_ne, haccepts.valid, rfl⟩, ?_⟩
    refine bind_eq_ok.mpr ⟨(), validateFileNumbers_eq_ok.mpr haccepts.fresh, ?_⟩
    refine bind_eq_ok.mpr ⟨_, applyVersion_eq_ok.mpr hversion, ?_⟩
    exact congrArg Except.ok (VersionState.ext rfl hused.symm hcounters.symm)

/-- No edit moves a counter backward. -/
theorem VersionState.le_of_apply {recovery : Bool} {state state' : VersionState}
    {edit : VersionEdit} (h : state.apply recovery edit = .ok state') :
    state.counters.Le state'.counters := by
  obtain ⟨haccepts, -, -, hcounters⟩ := VersionState.apply_eq_ok.mp h
  rw [hcounters]
  exact haccepts.le

end MeteorDB
