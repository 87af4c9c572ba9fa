import Mathlib

/-!
# Fair runs

Infinite runs of a system of actors, where a step is taken by an actor or by the environment. A run
is fair if no actor stays ready forever without taking a step. `FairRun.eventually` is the rule that
proves progress: while the goal has not been reached, some actor is ready whose step brings it
closer, and nobody else moves it away or makes that actor wait for another one.
-/

variable {σ ι : Type*}

/-- A run in which an actor that stays ready takes a step. The actor of a step of the environment is
`none`. -/
structure FairRun (Step : Option ι → σ → σ → Prop) (Ready : ι → σ → Prop) where
  state : ℕ → σ
  actor : ℕ → Option ι
  step : ∀ n, Step (actor n) (state n) (state (n + 1))
  fair : ∀ i n, (∀ m ≥ n, Ready i (state m)) → ∃ m ≥ n, actor m = some i

namespace FairRun

variable {Step : Option ι → σ → σ → Prop} {Ready : ι → σ → Prop}

/-- What holds at the start and is kept by every step holds throughout. -/
theorem invariant (run : FairRun Step Ready) {P : σ → Prop}
    (hstep : ∀ a s s', P s → Step a s s' → P s') (h : P (run.state 0)) (n : ℕ) :
    P (run.state n) := by
  induction n with
  | zero => exact h
  | succ n ih => exact hstep _ _ _ ih (run.step n)

/-- A step towards the goal: it is reached, or it comes closer, or another actor than the helper has
moved and left everything as it was. -/
def Progress (P Q : σ → Prop) (rank : σ → ℕ) (helper : σ → ι) (a : Option ι) (s s' : σ) : Prop :=
  Q s' ∨ P s' ∧ (rank s' < rank s ∨
    rank s' = rank s ∧ helper s' = helper s ∧ a ≠ some (helper s))

theorem eventually (run : FairRun Step Ready) {P Q : σ → Prop} (rank : σ → ℕ) (helper : σ → ι)
    (hready : ∀ s, P s → Ready (helper s) s)
    (hstep : ∀ a s s', P s → Step a s s' → Progress P Q rank helper a s s')
    {n : ℕ} (hn : P (run.state n)) : ∃ m ≥ n, Q (run.state m) := by
  induction hrank : rank (run.state n) using Nat.strong_induction_on generalizing n with
  | _ r ih =>
    by_contra hnever
    push Not at hnever
    -- Without a first decrease the same helper stays ready, so it takes a step, which is one.
    have hstays : ∀ m ≥ n, P (run.state m) ∧ rank (run.state m) = r ∧
        helper (run.state m) = helper (run.state n) := by
      intro m hm
      induction m, hm using Nat.le_induction with
      | base => exact ⟨hn, hrank, rfl⟩
      | succ m hm ihm =>
        obtain ⟨hP, hr, hhelper⟩ := ihm
        rcases hstep _ _ _ hP (run.step m) with hQ | ⟨hP', hless | ⟨hsame, hkept, -⟩⟩
        · exact absurd hQ (hnever _ (by omega))
        · obtain ⟨m', hm', hQ⟩ := ih _ (hr ▸ hless) hP' rfl
          exact absurd hQ (hnever m' (by omega))
        · exact ⟨hP', hsame.trans hr, hkept.trans hhelper⟩
    obtain ⟨m, hm, hactor⟩ := run.fair (helper (run.state n)) n fun m hm ↦
      (hstays m hm).2.2 ▸ hready _ (hstays m hm).1
    obtain ⟨hP, hr, hhelper⟩ := hstays m hm
    rcases hstep _ _ _ hP (run.step m) with hQ | ⟨-, hless | ⟨-, -, hother⟩⟩
    · exact hnever _ (by omega) hQ
    · have hr' := (hstays (m + 1) (by omega)).2.1
      omega
    · exact hother (hactor.trans (congrArg some hhelper.symm))

/-! ## Runs from steps -/

/-- A run that stays where nobody is ready. -/
def rest (s : σ) (hstep : Step none s s) (h : ∀ i, ¬Ready i s) : FairRun Step Ready where
  state _ := s
  actor _ := none
  step _ := hstep
  fair i n hready := absurd (hready n le_rfl) (h i)

/-- A run with a step before it. -/
def cons (run : FairRun Step Ready) {a : Option ι} {s : σ} (h : Step a s (run.state 0)) :
    FairRun Step Ready where
  state n := n.casesOn s run.state
  actor n := n.casesOn a run.actor
  step n := by
    cases n with
    | zero => exact h
    | succ n => exact run.step n
  fair i n hready := by
    obtain ⟨m, hm, hactor⟩ := run.fair i n fun m hm ↦ hready (m + 1) (by omega)
    exact ⟨m + 1, by omega, hactor⟩

/-- Steps that lead to the start of a run can be put before it. -/
theorem exists_prepend (run : FairRun Step Ready) {s : σ}
    (h : Relation.ReflTransGen (fun s s' ↦ ∃ a, Step a s s') s (run.state 0)) :
    ∃ run' : FairRun Step Ready, run'.state 0 = s ∧ ∃ n, ∀ m, run'.state (n + m) = run.state m := by
  induction h using Relation.ReflTransGen.head_induction_on with
  | refl => exact ⟨run, rfl, 0, fun m ↦ by rw [Nat.zero_add]⟩
  | head hstep _ ih =>
    obtain ⟨a, hstep⟩ := hstep
    obtain ⟨run', rfl, n, hstate⟩ := ih
    refine ⟨run'.cons hstep, rfl, n + 1, fun m ↦ ?_⟩
    rw [Nat.add_right_comm]
    exact hstate m

end FairRun
