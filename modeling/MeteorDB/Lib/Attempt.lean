import Mathlib

/-!
# Computations that keep their state when they fail

An attempt works on a state and may fail; what it has done to the state by then stays done, as it
does for a procedure that changes a structure in place and returns an error. Attempts are reasoned
about with `wp`, the condition on the initial state under which the result and the final state
satisfy a postcondition. There is one rule for each way to build an attempt, and the rules are
equivalences, so that they can be used to rewrite.
-/

/-- A computation over a state that may fail. -/
abbrev Attempt (σ ε α : Type) := ExceptT ε (StateM σ) α

namespace Attempt

variable {σ ε α β : Type}

/-- The result and the final state. -/
def exec (x : Attempt σ ε α) (s : σ) : Except ε α × σ := StateT.run (ExceptT.run x) s

/-- A result that is already there. -/
def ofExcept (r : Except ε α) : Attempt σ ε α := ExceptT.mk (pure r)

instance : MonadLift (Except ε) (ExceptT ε (StateM σ)) := ⟨ofExcept⟩

/-- What must hold of the state for the result and the final state to satisfy `q`. -/
def wp (x : Attempt σ ε α) (q : Except ε α → σ → Prop) (s : σ) : Prop :=
  q (x.exec s).1 (x.exec s).2

theorem wp_mono {x : Attempt σ ε α} {p q : Except ε α → σ → Prop} {s : σ} (h : wp x p s)
    (himp : ∀ r s, p r s → q r s) : wp x q s := himp _ _ h

theorem wp_and {x : Attempt σ ε α} {p q : Except ε α → σ → Prop} {s : σ} (hp : wp x p s)
    (hq : wp x q s) : wp x (fun r s ↦ p r s ∧ q r s) s := ⟨hp, hq⟩

theorem wp_of_exec {x : Attempt σ ε α} {q : Except ε α → σ → Prop} {s s' : σ} {r : Except ε α}
    (h : wp x q s) (hexec : x.exec s = (r, s')) : q r s' := by
  rw [wp, hexec] at h
  exact h

@[simp] theorem wp_pure {a : α} {q : Except ε α → σ → Prop} {s : σ} :
    wp (pure a) q s ↔ q (.ok a) s := Iff.rfl

@[simp] theorem wp_throw {e : ε} {q : Except ε α → σ → Prop} {s : σ} :
    wp (throw e) q s ↔ q (.error e) s := Iff.rfl

@[simp] theorem wp_get {q : Except ε σ → σ → Prop} {s : σ} :
    wp (get : Attempt σ ε σ) q s ↔ q (.ok s) s := Iff.rfl

@[simp] theorem wp_modify {f : σ → σ} {q : Except ε PUnit → σ → Prop} {s : σ} :
    wp (modify f : Attempt σ ε PUnit) q s ↔ q (.ok ⟨⟩) (f s) := Iff.rfl

@[simp] theorem wp_lift {r : Except ε α} {q : Except ε α → σ → Prop} {s : σ} :
    wp (liftM r : Attempt σ ε α) q s ↔ q r s := Iff.rfl

theorem exec_bind {x : Attempt σ ε α} {f : α → Attempt σ ε β} {s : σ} :
    exec (x >>= f) s = match x.exec s with
      | (.ok a, s) => (f a).exec s
      | (.error e, s) => (.error e, s) := by
  show StateT.run (x.run >>= ExceptT.bindCont f) s = _
  rw [StateT.run_bind]
  show ((StateT.run (ExceptT.bindCont f (x.exec s).1) (x.exec s).2 : Id _)) = _
  rcases x.exec s with ⟨r, s'⟩
  cases r <;> rfl

theorem exec_tryCatch {x : Attempt σ ε α} {handle : ε → Attempt σ ε α} {s : σ} :
    exec (tryCatch x handle) s = match x.exec s with
      | (.ok a, s) => (.ok a, s)
      | (.error e, s) => (handle e).exec s := by
  show StateT.run (x.run >>= fun r ↦ match r with
    | .ok a => pure (.ok a)
    | .error e => (handle e).run) s = _
  rw [StateT.run_bind]
  show ((StateT.run (match (x.exec s).1 with
    | .ok a => pure (.ok a)
    | .error e => (handle e).run) (x.exec s).2 : Id _)) = _
  rcases x.exec s with ⟨r, s'⟩
  cases r <;> rfl

theorem wp_bind {x : Attempt σ ε α} {f : α → Attempt σ ε β} {q : Except ε β → σ → Prop} {s : σ} :
    wp (x >>= f) q s ↔ wp x (fun r s ↦
      match r with
      | .ok a => wp (f a) q s
      | .error e => q (.error e) s) s := by
  unfold wp
  rw [exec_bind]
  rcases x.exec s with ⟨r, s'⟩
  cases r <;> exact Iff.rfl

theorem wp_get_bind {f : σ → Attempt σ ε α} {q : Except ε α → σ → Prop} {s : σ} :
    wp (get >>= f) q s ↔ wp (f s) q s := Iff.rfl

theorem wp_modify_bind {g : σ → σ} {f : PUnit → Attempt σ ε α} {q : Except ε α → σ → Prop}
    {s : σ} :
    wp (modify g >>= f) q s ↔ wp (f ⟨⟩) q (g s) := Iff.rfl

/-- A result that is given ends the computation or goes on with its value. -/
theorem wp_lift_bind {r : Except ε α} {f : α → Attempt σ ε β} {q : Except ε β → σ → Prop} {s : σ}
    (herror : ∀ e, r = .error e → q (.error e) s) (hok : ∀ a, r = .ok a → wp (f a) q s) :
    wp (liftM r >>= f) q s := by
  rw [wp_bind, wp_lift]
  cases r with
  | ok a => exact hok a rfl
  | error e => exact herror e rfl

theorem wp_tryCatch {x : Attempt σ ε α} {handle : ε → Attempt σ ε α}
    {q : Except ε α → σ → Prop} {s : σ} :
    wp (tryCatch x handle) q s ↔ wp x (fun r s ↦
      match r with
      | .ok a => q (.ok a) s
      | .error e => wp (handle e) q s) s := by
  unfold wp
  rw [exec_tryCatch]
  rcases x.exec s with ⟨r, s'⟩
  cases r <;> exact Iff.rfl

theorem wp_ite {c : Prop} [Decidable c] {x y : Attempt σ ε α} {q : Except ε α → σ → Prop} {s : σ} :
    wp (if c then x else y) q s ↔ (c → wp x q s) ∧ (¬ c → wp y q s) := by
  split_ifs with h
  · simp [h]
  · simp [h]

/-- A loop: `p` holds between rounds, and a round that fails ends it. -/
theorem wp_forM {l : List α} {f : α → Attempt σ ε PUnit} {p : σ → Prop}
    {q : Except ε PUnit → σ → Prop} {s : σ} (hs : p s) (hdone : ∀ s, p s → q (.ok ⟨⟩) s)
    (hf : ∀ a ∈ l, ∀ s, p s → wp (f a) (fun r s ↦
      match r with
      | .ok _ => p s
      | .error e => q (.error e) s) s) : wp (l.forM f) q s := by
  induction l generalizing s with
  | nil => exact hdone s hs
  | cons a l ih =>
    show wp (f a >>= fun _ ↦ l.forM f) _ s
    rw [wp_bind]
    refine wp_mono (hf a (List.mem_cons_self ..) s hs) fun r s' hs' ↦ ?_
    cases r with
    | error e => exact hs'
    | ok u => exact ih hs' fun b hb ↦ hf b (List.mem_cons_of_mem a hb)

end Attempt
