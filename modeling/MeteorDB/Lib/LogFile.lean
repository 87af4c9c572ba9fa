import MeteorDB.Lib.Prog
import MeteorDB.Lib.RecordLog

/-!
# Block-framed logs in files

Appending a record to a block-framed log takes several writes. At every moment in between, and
after a failure, the file has the bytes it had and a first part of those of the record.
-/

namespace CrashFs

open ByteString BlockLog

variable {N ε : Type} [DecidableEq N]

/-- Appends a record to the log in a file, at an offset in the current block, and returns the next
offset. The error of a write depends on whether it fills a block. -/
def writeRecord (F : Framing) (err : Bool → IoErrorKind → ε) (n : N) (offset : ℕ)
    (logical : Bytes) : Io N ε ℕ := do
  let (writes, next) := emitWrites F offset true logical
  writes.forM fun write ↦ Io.call (.append n write.2) (err write.1)
  return next

variable {faults : Bool} {allowed : Op N → Prop} {inv : Disk N → Prop} {d : Disk N}

theorem wp_writeRecord {F : Framing} {err : Bool → IoErrorKind → ε} {n : N} {offset : ℕ}
    {logical : Bytes} {file : File} {q : Except ε ℕ → Disk N → Prop}
    (hfile : d.file n = some file) (hallowed : ∀ bytes, allowed (.append n bytes))
    (hinv : ∀ written d', written <+: (emit F offset true logical).1 →
      d.Updated n ((d.slot n).write ⟨file.bytes ++ written, file.synced⟩) d' → inv d')
    (hok : ∀ d', d.Updated n ((d.slot n).write
        ⟨file.bytes ++ (emit F offset true logical).1, file.synced⟩) d' →
      q (.ok (emit F offset true logical).2) d')
    (herr : faults = true → ∀ e written d', written <+: (emit F offset true logical).1 →
      d.Updated n ((d.slot n).write ⟨file.bytes ++ written, file.synced⟩) d' → q (.error e) d') :
    wp faults allowed inv q (writeRecord F err n offset logical).run d := by
  obtain ⟨hwrites, hnext⟩ := flatten_emitWrites F offset true logical
  rw [← hwrites] at hinv hok herr
  rw [← hnext] at hok
  have hself : d.Updated n ((d.slot n).write ⟨file.bytes ++ [], file.synced⟩) d :=
    Disk.updated_self (by rw [List.append_nil]; exact Slot.ext hfile rfl)
  refine wp_bind_io (wp_forM (fun before d' ↦ d.Updated n ((d.slot n).write
    ⟨file.bytes ++ (before.map Prod.snd).flatten, file.synced⟩) d')
    (hinv [] d List.nil_prefix hself) hself ?_ ?_)
  · intro before write after d₁ hsplit hd₁
    -- the part of this write that is done comes after all of the writes before it
    have hpart {written : Bytes} (hwritten : written <+: write.2) :
        (before.map Prod.snd).flatten ++ written
          <+: ((emitWrites F offset true logical).1.map Prod.snd).flatten := by
      rw [hsplit, List.map_append, List.flatten_append, List.map_cons, List.flatten_cons]
      exact (List.prefix_append_right_inj _).mpr (hwritten.trans (List.prefix_append _ _))
    have hstep {written : Bytes} {d' : Disk N}
        (hd' : d₁.Updated n ((d₁.slot n).write ⟨(file.bytes ++ (before.map Prod.snd).flatten)
          ++ written, file.synced⟩) d') :
        d.Updated n ((d.slot n).write ⟨file.bytes ++ ((before.map Prod.snd).flatten ++ written),
          file.synced⟩) d' := by
      rw [hd₁.slot_self, List.append_assoc] at hd'
      exact hd₁.trans hd'
    have hfile₁ : d₁.file n
        = some ⟨file.bytes ++ (before.map Prod.snd).flatten, file.synced⟩ :=
      hd₁.file_self
    refine wp_append hfile₁ (hallowed _) (fun written d' hwritten hd' ↦ ?_) (fun d' hd' ↦ ?_)
      (fun hfaults written d' hwritten hd' ↦ ?_)
    · exact hinv _ d' (hpart hwritten) (hstep hd')
    · rw [List.map_append, List.flatten_append, List.map_singleton, List.flatten_singleton]
      exact hstep hd'
    · exact herr hfaults _ _ d' (hpart hwritten) (hstep hd')
  · intro d' hd'
    exact wp_pure (hinv _ d' List.prefix_rfl hd') (hok d' hd')

end CrashFs
