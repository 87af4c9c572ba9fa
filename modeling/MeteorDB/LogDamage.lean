import MeteorDB.Wal
import MeteorDB.Manifest

/-!
# Damage and torn tails

A writer never lets a fragment cross the end of its physical block, and cutting a log cannot make
one do so: a header that declares a longer payload is damage. The readers of the write-ahead log and
of the manifest notice it in every block but the last. There they compare the declared length with
the bytes that were read before they compare it with the block, so the header counts as a torn tail
and everything from it on is dropped.

`replay_crossing_header_iff` says so for both readers and for any bytes, whatever the callback does
with the records before the header.
-/

namespace MeteorDB

open BlockLog

/-- The reader's answer to bytes it finds damaged. -/
def ReportsCorruption {α : Type} (result : Result α) : Prop :=
  ∃ context detail, result = .error (.corruption context detail)

private theorem reportsCorruption_ite {α : Type} {p : Prop} [Decidable p] {error : Error} {a : α}
    (herror : ∃ context detail, error = .corruption context detail) :
    ReportsCorruption (if p then .error error else .ok a) ↔ p := by
  obtain ⟨context, detail, rfl⟩ := herror
  by_cases hp : p
  · rw [if_pos hp]
    exact ⟨fun _ ↦ hp, fun _ ↦ ⟨context, detail, rfl⟩⟩
  · rw [if_neg hp]
    exact ⟨nofun, fun h ↦ absurd h hp⟩

private theorem replayWalStream_eq [Crc32c] {σ : Type} {maxBatchBytes limit : ℕ}
    (hlimit : encodedRecordLimit maxBatchBytes = .ok limit) (bytes : Bytes)
    (onRecord : σ → RecoveredBatch → Result σ) (out : σ) :
    replayWalStream maxBatchBytes bytes onRecord out
      = replay logFraming (walConsumer maxBatchBytes limit onRecord) bytes out := by
  rw [replayWalStream, hlimit]
  rfl

/-- **Damage or torn tail.** A reader that reaches a header whose payload would leave its physical
block reports corruption exactly if that block is not the last one of the file. -/
theorem replay_crossing_header_iff [Crc32c] :
    (∀ (σ : Type) (maxBatchBytes limit : ℕ) (bytes : Bytes)
        (onRecord : σ → RecoveredBatch → Result σ) (out : σ) (position : ℕ) (st : Assembly σ),
      encodedRecordLimit maxBatchBytes = .ok limit →
      Reached logFraming (walConsumer maxBatchBytes limit onRecord) bytes out position st →
      CrossesBlock logFraming bytes position →
      (ReportsCorruption (replayWalStream maxBatchBytes bytes onRecord out) ↔
        (position / logBlockBytes + 1) * logBlockBytes < bytes.length)) ∧
    (∀ (σ : Type) (bytes : Bytes) (onEdit : σ → VersionEdit → Result σ) (out : σ)
        (position : ℕ) (st : Assembly σ),
      Reached logFraming (editConsumer onEdit) bytes out position st →
      CrossesBlock logFraming bytes position →
      (ReportsCorruption (replayManifestStream bytes onEdit out) ↔
        (position / logBlockBytes + 1) * logBlockBytes < bytes.length)) := by
  constructor
  · intro σ maxBatchBytes limit bytes onRecord out position st hlimit hreached hcross
    rw [replayWalStream_eq hlimit, hreached.replay_crossesBlock hcross]
    exact reportsCorruption_ite ⟨_, _, rfl⟩
  · intro σ bytes onEdit out position st hreached hcross
    rw [replayManifestStream, hreached.replay_crossesBlock hcross]
    exact reportsCorruption_ite ⟨_, _, rfl⟩

private theorem crossesBlock_zero {header tail : Bytes} (hlength : header.length = headerBytes)
    (hdeclared : logBlockBytes < headerBytes + (parseHeader header).2.1) [Crc32c] :
    CrossesBlock logFraming (header ++ tail) 0 where
  header_le_room := show 7 ≤ 32768 - 0 % 32768 by decide
  header_le_length := by rw [List.length_append]; omega
  room_lt := by
    rw [List.drop_zero, parseHeader_append (by omega)]
    exact hdeclared

/-- A damaged first header in a file of two blocks is reported by both readers. -/
theorem replay_crossing_header_two_blocks :
    letI := castagnoli
    let bytes : Bytes := [0, 0, 0, 0, 255, 255, 1] ++ List.replicate logBlockBytes 0
    CrossesBlock logFraming bytes 0 ∧
      ReportsCorruption (replayWalStream 64 bytes (fun out record ↦ .ok (out ++ [record])) []) ∧
      ReportsCorruption
        (replayManifestStream bytes (fun out edit ↦ .ok (out ++ [edit])) []) := by
  let := castagnoli
  intro bytes
  have hcross : CrossesBlock logFraming bytes 0 :=
    @crossesBlock_zero [0, 0, 0, 0, 255, 255, 1] _ rfl (by decide) _
  have hmore : (0 / logBlockBytes + 1) * logBlockBytes < bytes.length := by
    simp only [bytes, List.length_append, List.length_replicate, List.length_cons, logBlockBytes]
    decide
  obtain ⟨hwal, hmanifest⟩ := replay_crossing_header_iff
  exact ⟨hcross, (hwal _ 64 1229 bytes _ [] 0 _ rfl .start hcross).mpr hmore,
    (hmanifest _ bytes _ [] 0 _ .start hcross).mpr hmore⟩

/-- Two batches and two edits, each written in full. When the length in their first header is
damaged, both readers drop everything that was written and report no corruption. -/
theorem replay_damaged_header_drops_records :
    letI := castagnoli
    let records : List (U64 × WriteBatch) :=
      [(1, WriteBatch.empty.put [107] [118]), (2, WriteBatch.empty.delete [107])]
    let segment := (emitAll logFraming 0 (logicalRecords records)).1.set 5 128
    let edits : List VersionEdit :=
      [{ nextFileNumber := some 2 }, { nextFileNumber := some 3 }]
    let manifest := (logBytes logFraming manifestFormat edits).set 5 128
    (CrossesBlock logFraming segment 0 ∧ replayWal 64 segment = .ok [] ∧
      ¬ReportsCorruption
        (replayWalStream 64 segment (fun out record ↦ .ok (out ++ [record])) [])) ∧
    (CrossesBlock logFraming manifest 0 ∧
      replayManifest manifest = .ok ⟨[], 0, manifest.length⟩ ∧
      ¬ReportsCorruption
        (replayManifestStream manifest (fun out edit ↦ .ok (out ++ [edit])) [])) := by
  let := castagnoli
  intro records segment edits manifest
  have hsegment : segment.take 7 ++ segment.drop 7 = segment := List.take_append_drop _ _
  have hmanifest : manifest.take 7 ++ manifest.drop 7 = manifest := List.take_append_drop _ _
  have hcross : CrossesBlock logFraming segment 0 :=
    hsegment ▸ crossesBlock_zero (by decide +kernel) (by decide +kernel)
  have hcross' : CrossesBlock logFraming manifest 0 :=
    hmanifest ▸ crossesBlock_zero (by decide +kernel) (by decide +kernel)
  have hshort : ¬(0 / logBlockBytes + 1) * logBlockBytes < segment.length := by decide +kernel
  have hshort' : ¬(0 / logBlockBytes + 1) * logBlockBytes < manifest.length := by decide +kernel
  have hreached : Reached logFraming (walConsumer 64 1229 fun out record ↦ .ok (out ++ [record]))
      segment [] 0 ⟨none, []⟩ := .start
  have hreached' : Reached logFraming (editConsumer fun out edit ↦ .ok (out ++ [edit]))
      manifest [] 0 ⟨none, []⟩ := .start
  have hreplay := hreached.replay_crossesBlock hcross
  have hreplay' := hreached'.replay_crossesBlock hcross'
  rw [show logFraming.blockBytes = logBlockBytes from rfl, if_neg hshort] at hreplay
  rw [show logFraming.blockBytes = logBlockBytes from rfl, if_neg hshort'] at hreplay'
  have hwal : replayWalStream 64 segment (fun out record ↦ .ok (out ++ [record])) []
      = .ok ⟨[], 0, segment.length⟩ := (replayWalStream_eq rfl ..).trans hreplay
  refine ⟨⟨hcross, ?_, ?_⟩, hcross', hreplay', ?_⟩
  · rw [replayWal, hwal]
    rfl
  · rintro ⟨context, detail, h⟩
    rw [hwal] at h
    cases h
  · rintro ⟨context, detail, h⟩
    rw [replayManifestStream, hreplay'] at h
    cases h

end MeteorDB
