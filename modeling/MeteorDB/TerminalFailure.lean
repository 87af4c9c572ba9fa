import MeteorDB.Threads

/-!
# After a terminal failure

Every section of a call begins by looking for a terminal failure, so a call that gets the state lock
after one has been recorded returns it, whatever it has waited for. Only the worker may still change
the engine: a flush that is under way writes its table and may publish it, which moves entries and
changes no answer. `Sealed` says what stays as it is, from any state with a failure to any later
one.
-/

namespace MeteorDB

open Attempt Engine

variable {options : Options} {env : Surroundings} {e e' : Engine} {task : Task} {call : Call}
  {woken : Bool}

/-- What stays as it is after a terminal failure. -/
structure Sealed (engine engine' : Engine) : Prop where
  failure : engine'.terminalFailure = engine.terminalFailure
  nextSequence : engine'.nextSequence = engine.nextSequence
  entries : engine'.entries = engine.entries
  closed : engine'.closed = false → engine.closed = false
  backgroundFailure : engine'.backgroundFailure = false → engine.backgroundFailure = false
  used : engine.versions.usedFileNumbers ⊆ engine'.versions.usedFileNumbers
  tables : engine.KeepsTables engine'.directory.tables

theorem Sealed.refl (e : Engine) : Sealed e e :=
  ⟨rfl, rfl, rfl, id, id, Finset.Subset.refl _, fun _ _ ↦ rfl⟩

theorem Sealed.trans {e'' : Engine} (h : Sealed e e') (h' : Sealed e' e'') : Sealed e e'' where
  failure := h'.failure.trans h.failure
  nextSequence := h'.nextSequence.trans h.nextSequence
  entries := h'.entries.trans h.entries
  closed hopen := h.closed (h'.closed hopen)
  backgroundFailure hnone := h.backgroundFailure (h'.backgroundFailure hnone)
  used := h.used.trans h'.used
  tables number hnumber := (h'.tables number (h.used hnumber)).trans (h.tables number hnumber)

/-- A read that is still allowed was allowed before. -/
theorem Sealed.ensureReadable (h : Sealed e e') (hreadable : e'.ensureReadable = .ok ()) :
    e.ensureReadable = .ok () := by
  obtain ⟨hbackground, hopen⟩ := ensureReadable_eq_ok.mp hreadable
  refine ensureReadable_eq_ok.mpr ⟨fun hfailed ↦ ?_, h.closed hopen⟩
  rw [← h.failure]
  refine hbackground (Bool.eq_true_of_not_eq_false fun hnone ↦ ?_)
  exact absurd (h.backgroundFailure hnone) (by simp [hfailed])

namespace Threads

variable {t t' : Threads} {i : ℕ}

/-- A call returns once. -/
theorem Step.returned {result : Result Unit} (h : Step options t t')
    (hcall : t.calls i = .returned result) : t'.calls i = .returned result := by
  have hupdate : ∀ {j : ℕ} {call : Call}, j ≠ i →
      Function.update t.calls j call i = .returned result :=
    fun hne ↦ (Function.update_of_ne hne.symm _ _).trans hcall
  cases h with
  | call j task hidle =>
    refine hupdate ?_
    rintro rfl
    exact absurd (hidle.symm.trans hcall) nofun
  | acquire j hacquires =>
    obtain ⟨env, -, hlocking, -⟩ := hacquires
    refine hupdate ?_
    rintro rfl
    exact absurd (hlocking.symm.trans hcall) nofun
  | spuriousCall j _ =>
    by_cases heq : j = i
    · subst heq
      exact (Function.update_self ..).trans (by rw [hcall]; rfl)
    · exact hupdate heq
  | notifyCalls waker _ =>
    dsimp only
    split_ifs
    · exact hcall
    · rw [hcall]
      rfl
  | _ => exact hcall

theorem Run.returned {result : Result Unit} (h : Run options t t')
    (hcall : t.calls i = .returned result) : t'.calls i = .returned result := by
  induction h with
  | refl => exact hcall
  | tail _ hstep ih => exact hstep.returned ih

end Threads

end MeteorDB
