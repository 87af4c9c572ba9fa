import MeteorDB.Machine

/-!
# How a write ends

When no filesystem step fails, a write is refused, logged and applied, or stopped by the WAL. A
refused write leaves the engine as it was. The checks of a batch bound its payload, but the WAL
bounds the encoded record: a batch of many small operations passes the first and fails the second,
and that failure is kept as the terminal failure of the engine. A full memtable is rotated after the
batch has been applied, which needs a file number.

`Engine.Inv.write_outcome` tells the three cases apart by the state before the write.
-/

namespace MeteorDB

open Attempt Decoder

/-! ## The size of a memtable -/

/-- The bytes a table is charged for once a batch is in it. -/
def MemTable.bytesAfter (table : MemTable) (batch : WriteBatch) : ℕ :=
  (finalOperations batch).foldl (fun bytes final ↦
    saturatingAdd (saturatingAdd bytes ((encodeUserKey final.1).length + 9))
      (recordBytes final.2)) table.approximateBytes

theorem InternalKey.length_asBytes (key : InternalKey) :
    key.asBytes.length = (encodeUserKey key.userKey).length + 9 := by
  rw [asBytes, List.length_append, length_trailer]

private theorem MemTable.approximateBytes_foldl (entries : List InternalEntry) (table : MemTable) :
    (entries.foldl insertEntry table).approximateBytes
      = entries.foldl chargedBytes table.approximateBytes := by
  induction entries generalizing table with
  | nil => rfl
  | cons entry entries ih => exact ih (table.insertEntry entry)

private theorem MemTable.approximateBytes_apply {table table' : MemTable}
    {sequence : SequenceNumber} {batch : WriteBatch} (hlt : sequence.val < maxU64)
    (h : table.apply sequence batch = .ok table') :
    table'.approximateBytes = table.bytesAfter batch := by
  rw [apply, mapM_prepareEntry hlt] at h
  obtain rfl := Except.ok.inj h
  rw [approximateBytes_foldl, List.foldl_map, bytesAfter]
  simp only [chargedBytes, InternalKey.length_asBytes]
  rfl

namespace Engine

variable {e : Engine} {options : Options} {batch : WriteBatch} {limit : ℕ}

/-! ## The cases of a write -/

/-- A write is refused before anything is changed. -/
def RefusesWrite (options : Options) (engine : Engine) (batch : WriteBatch) : Prop :=
  engine.ensureWritable ≠ .ok () ∨ validateBatch options batch ≠ .ok () ∨
    options.maxImmutableMemtables ≤ engine.immutables.length ∨ engine.nextSequence.val = maxU64

/-- The WAL takes a batch: its lengths fit their fields, and its record is within the limit. -/
def FitsWal (limit : ℕ) (batch : WriteBatch) : Prop :=
  (∀ op ∈ batch.operations, op.Encodable) ∧ (batch.record 0).length ≤ limit

/-- The batch does not fill the memtable, or there is a file number for the next WAL. -/
def CanRotate (options : Options) (engine : Engine) (batch : WriteBatch) : Prop :=
  engine.mutable.table.bytesAfter batch < options.memtableBytes ∨
    engine.nextFileNumber.val + 1 < 2 ^ 64

private theorem bounds_of_validateBatch {options : Options} {batch : WriteBatch}
    (h : validateBatch options batch = .ok ()) : batch.operations ≠ [] ∧
      batch.approximateBytes ≤ options.maxBatchBytes ∧ batch.len < 2 ^ 32 := by
  unfold validateBatch at h
  split_ifs at h with hempty hlen hbytes
  refine ⟨?_, not_lt.mp hbytes, ?_⟩
  · simpa [WriteBatch.isEmpty] using hempty
  · unfold maxWriteBatchOperations at hlen
    omega

/-- Of the batches that pass the checks, the WAL takes those whose record fits. -/
theorem wp_appendWal (hlimit : encodedRecordLimit options.maxBatchBytes = .ok limit)
    (hvalid : validateBatch options batch = .ok ()) {sequence : SequenceNumber} :
    wp (appendWal options noFaults sequence batch) (fun r e' ↦
      (r = .ok () ↔ FitsWal limit batch) ∧ ∃ wals,
        e' = { e with directory := { e.directory with wals } }) e := by
  obtain ⟨hne, hpayload, hlen⟩ := bounds_of_validateBatch hvalid
  unfold appendWal
  rw [wp_get_bind, wp_bind, wp_lift, WalWriter.new, hlimit]
  show wp (liftM (WalWriter.encode ⟨_, options.maxBatchBytes, limit, 0⟩ sequence batch) >>= _) _ e
  rw [wp_bind, wp_lift]
  cases hencode : WalWriter.encode ⟨.wal e.mutable.walNumber, options.maxBatchBytes, limit, 0⟩
      sequence batch with
  | error error =>
    refine ⟨iff_of_false nofun fun hfits ↦ ?_, e.directory.wals, rfl⟩
    have haccepted : Accepted options.maxBatchBytes limit batch :=
      ⟨hne, hpayload, hlen, hfits.1, fun s ↦ length_record s 0 batch ▸ hfits.2⟩
    exact absurd (hencode.symm.trans (WalWriter.encode_eq_ok.mpr ⟨haccepted, rfl⟩)) nofun
  | ok bytes =>
    obtain ⟨haccepted, -⟩ := WalWriter.encode_eq_ok.mp hencode
    dsimp only
    rw [wp_perform]
    exact ⟨iff_of_true rfl ⟨haccepted.encodable, haccepted.record_le 0⟩, _, rfl⟩

/-- What a write can end with. -/
inductive WriteOutcome (options : Options) (limit : ℕ) (e : Engine) (batch : WriteBatch) :
    Result Bool → Engine → Prop
  | refused (error : Error) (hrefused : RefusesWrite options e batch) :
      WriteOutcome options limit e batch (.error error) e
  | stopped (error : Error) (e' : Engine) (haccepted : ¬ RefusesWrite options e batch)
      (hfits : ¬ FitsWal limit batch) (hfailed : e'.terminalFailure ≠ none) :
      WriteOutcome options limit e batch (.error error) e'
  | written (woken : Bool) (e' : Engine) (haccepted : ¬ RefusesWrite options e batch)
      (hfits : FitsWal limit batch)
      (hwoken : woken = true ↔ options.memtableBytes ≤ e.mutable.table.bytesAfter batch ∧
        e.nextFileNumber.val + 1 < 2 ^ 64)
      (hrotated : woken = true → e'.mutable.table.entries = [])
      (hnext : e'.nextFileNumber.val ≤ e.nextFileNumber.val + 1)
      (hopen : e'.closed = false)
      (hfailure : e'.terminalFailure = none ↔ CanRotate options e batch) :
      WriteOutcome options limit e batch (.ok woken) e'

theorem Inv.write_outcome (h : Inv e)
    (hlimit : encodedRecordLimit options.maxBatchBytes = .ok limit) :
    wp (Engine.writeSerialized options noFaults (.ok batch))
      (WriteOutcome options limit e batch) e := by
  unfold Engine.writeSerialized
  rw [wp_get_bind]
  refine wp_lift_bind (fun error hwritable ↦ .refused error (.inl (hwritable ▸ nofun)))
    fun _ hwritable ↦ ?_
  rw [wp_bind, wp_lift]
  dsimp only
  refine wp_lift_bind (fun error hvalid ↦ .refused error (.inr (.inl (hvalid ▸ nofun))))
    fun _ hvalid ↦ ?_
  rw [wp_get_bind, wp_ite]
  refine ⟨fun hstall ↦ .refused _ (.inr (.inr (.inl hstall))), fun hroom ↦ ?_⟩
  rw [wp_ite]
  refine ⟨fun hlast ↦ .refused _ (.inr (.inr (.inr hlast))), fun hlast ↦ ?_⟩
  have haccepted : ¬ RefusesWrite options e batch := by
    rintro (hnot | hnot | hstall | hmax)
    · exact hnot hwritable
    · exact hnot hvalid
    · exact hroom hstall
    · exact hlast hmax
  have hlt : e.nextSequence.val < maxU64 := by
    have := e.nextSequence.isLt
    unfold maxU64 at hlast ⊢
    omega
  obtain ⟨hnone, hopen⟩ := ensureWritable_eq_ok.mp hwritable
  rw [wp_bind]
  refine wp_orTerminal (wp_mono (wp_and h.appendWal (wp_appendWal hlimit hvalid)) fun r e₁ h₁ ↦ ?_)
  obtain ⟨⟨hinv, -⟩, hfits, wals, rfl⟩ := h₁
  cases r with
  | error error =>
    exact fun failure _ ↦ .stopped _ _ haccepted (fun hok ↦ absurd (hfits.mpr hok) nofun) nofun
  | ok u =>
  dsimp only
  rw [wp_bind]
  refine wp_mono (hinv.commit (validateBatch_eq_ok hvalid) hlt) fun r e₂ h₂ ↦ ?_
  obtain ⟨rfl, hinv₂, hwrote, hne, happly, hnumber, hclosed, hfailure⟩ := h₂
  have hwrote : Wrote e batch e₂ := { hwrote with }
  have hbytes := MemTable.approximateBytes_apply hlt happly
  dsimp only at hbytes hnumber hclosed hfailure
  have hfits := hfits.mp rfl
  dsimp only
  rw [wp_get_bind, wp_ite, hbytes]
  refine ⟨fun hfull ↦ ?_, fun hsmall ↦ ?_⟩
  · have hlargest : e.nextSequence.val + 1 = e₂.nextSequence.val := by
      rw [hwrote.nextSequence, Fin.val_add_one_of_lt' (by unfold maxU64 at hlt; omega)]
    rw [wp_tryCatch, wp_bind]
    refine wp_mono (hinv₂.rotateMemtable hne hlargest) fun r e₃ h₃ ↦ ?_
    obtain ⟨-, -, hrotated, hresult, hnext₃, hclosed₃, hfailure₃⟩ := h₃
    rw [hnumber] at hresult hnext₃
    cases r with
    | ok u =>
      have hnext := hresult.mp rfl
      refine .written true e₃ haccepted hfits (iff_of_true rfl ⟨hfull, hnext⟩)
        (fun _ ↦ (hrotated rfl).1) hnext₃ (by rw [hclosed₃, hclosed, hopen])
        (iff_of_true ?_ (.inr hnext))
      rw [hfailure₃, hfailure, hnone]
    | error error =>
      -- The batch has been written; only the rotation failed.
      have hnext : ¬ e.nextFileNumber.val + 1 < 2 ^ 64 := fun hlt ↦ absurd (hresult.mpr hlt) nofun
      dsimp only
      rw [wp_bind]
      refine wp_recordTerminalFailure fun failure _ ↦ ?_
      refine .written false _ haccepted hfits (iff_of_false nofun fun hboth ↦ hnext hboth.2) nofun
        hnext₃ (by show e₃.closed = false; rw [hclosed₃, hclosed, hopen]) (iff_of_false nofun ?_)
      exact fun hcan ↦ hcan.elim hfull.not_gt hnext
  · refine .written false e₂ haccepted hfits (iff_of_false nofun fun hboth ↦ hsmall hboth.1) nofun
      (by rw [hnumber]; exact Nat.le_succ _) (by rw [hclosed, hopen])
      (iff_of_true ?_ (.inl (not_le.mp hsmall)))
    rw [hfailure, hnone]

end Engine

/-! ## Writes in a run -/

namespace Machine

open Engine

variable {options : Options} {m : Machine}

/-- **Writes that disable the engine.** In every state of a run, and for every batch, a write that
meets no filesystem failure succeeds without a terminal failure or changes nothing at all, exactly
when it is refused, or its record is within the limit of the WAL and a rotation that is due has a
file number. The limit on records exists whenever the engine could be opened. -/
theorem Reachable.write_harmless_iff (h : Reachable options m) (hup : m.up = true) {limit : ℕ}
    (hlimit : encodedRecordLimit options.maxBatchBytes = .ok limit) (batch : WriteBatch)
    {r : Result Bool} {e : Engine}
    (hexec : (writeSerialized options noFaults (.ok batch)).exec m.engine = (r, e)) :
    ((∃ woken, r = .ok woken) ∧ e.terminalFailure = none ∨
        (∃ error, r = .error error) ∧ e = m.engine) ↔
      RefusesWrite options m.engine batch ∨
        FitsWal limit batch ∧ CanRotate options m.engine batch := by
  cases wp_of_exec ((h.inv.up hup).inv.write_outcome hlimit) hexec with
  | refused error hrefused => exact iff_of_true (.inr ⟨⟨error, rfl⟩, rfl⟩) (.inl hrefused)
  | stopped error e haccepted hfits hfailed =>
    refine iff_of_false ?_ fun hcase ↦ hcase.elim haccepted fun hfit ↦ hfits hfit.1
    rintro (⟨⟨woken, hok⟩, -⟩ | ⟨-, rfl⟩)
    · cases hok
    · -- A write that is not refused starts without a failure.
      refine haccepted (.inl fun hwritable ↦ hfailed ?_)
      exact (ensureWritable_eq_ok.mp hwritable).1
  | written woken e haccepted hfits hwoken hrotated hnext hopen hfailure =>
    constructor
    · rintro (⟨-, hnone⟩ | ⟨⟨error, herror⟩, -⟩)
      · exact .inr ⟨hfits, hfailure.mp hnone⟩
      · cases herror
    · rintro (hrefused | ⟨-, hcan⟩)
      · exact absurd hrefused haccepted
      · exact .inl ⟨⟨woken, rfl⟩, hfailure.mpr hcan⟩

theorem write_harmless_opened :
    ∃ r e, (writeSerialized .new noFaults (.ok ⟨[.put [7] [1] none]⟩)).exec opened = (r, e) ∧
      FitsWal 1275068429 ⟨[.put [7] [1] none]⟩ ∧ CanRotate .new opened ⟨[.put [7] [1] none]⟩ ∧
      ((∃ woken, r = .ok woken) ∧ e.terminalFailure = none ∨
        (∃ error, r = .error error) ∧ e = opened) := by
  have hfits : FitsWal 1275068429 ⟨[.put [7] [1] none]⟩ := ⟨by decide, by decide +kernel⟩
  have hcan : CanRotate .new opened ⟨[.put [7] [1] none]⟩ := .inl (by decide +kernel)
  refine ⟨_, _, rfl, hfits, hcan, ?_⟩
  exact ((reachable_opened .new).write_harmless_iff rfl (by decide +kernel) _ rfl).mpr
    (.inr ⟨hfits, hcan⟩)

/-- Four deletions of the empty key have no payload at all, but their record is longer than the
limit for batches of one byte. -/
theorem write_disables_engine :
    ∃ options : Options, options.validate = .ok () ∧
      encodedRecordLimit options.maxBatchBytes = .ok 32 ∧ ∃ m : Machine, Reachable options m ∧
      m.up = true ∧ m.engine.terminalFailure = none ∧ ∃ batch : WriteBatch,
      validateBatch options batch = .ok () ∧
      ∃ error e, (writeSerialized options noFaults (.ok batch)).exec m.engine = (.error error, e) ∧
        e.terminalFailure ≠ none := by
  refine ⟨{ Options.new with maxBatchBytes := 1 }, by decide, by decide, _, reachable_opened _, rfl,
    by decide +kernel, ⟨List.replicate 4 (.delete [])⟩, by decide, ?_⟩
  rcases hexec : (writeSerialized { Options.new with maxBatchBytes := 1 } noFaults
    (.ok ⟨List.replicate 4 (.delete [])⟩)).exec opened with ⟨r, e⟩
  have hinv := ((reachable_opened { Options.new with maxBatchBytes := 1 }).inv.up rfl).inv
  have hlimit : encodedRecordLimit 1 = .ok 32 := by decide
  cases wp_of_exec (hinv.write_outcome hlimit) hexec with
  | refused error hrefused =>
    rcases hrefused with hnot | hnot | hstall | hmax
    · exact absurd (by decide +kernel) hnot
    · exact absurd (by decide) hnot
    · exact absurd hstall (by decide +kernel)
    · exact absurd hmax (by decide +kernel)
  | stopped error e haccepted hfits hfailed => exact ⟨error, e, rfl, hfailed⟩
  | written woken e haccepted hfits => exact absurd hfits.2 (by decide +kernel)

end Machine

end MeteorDB
