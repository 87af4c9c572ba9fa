import MeteorDB.Lib.CrashFs

/-!
# Programs over a directory, and what they keep

A program is a tree: it returns, or it calls an operation and goes on with the answer. Programs are
reasoned about with `wp`, which asks three things of every run: that each operation is one the
program is allowed to call, that an invariant holds between any two operations (so also wherever a
crash may come), and that the result and the final disk satisfy a postcondition.

`Frame` says which names a program leaves alone. Synchronizing the directory, which concerns all
names, is allowed.
-/

namespace CrashFs

variable {N : Type} [DecidableEq N] {α β ε : Type}

/-- A program over a directory with names in `N`. -/
inductive Prog (N α : Type) where
  | ret (a : α)
  | call (op : Op N) (next : Except IoErrorKind op.Response → Prog N α)

namespace Prog

/-- Goes on with the result of a program. -/
def bind (p : Prog N α) (f : α → Prog N β) : Prog N β :=
  match p with
  | ret a => f a
  | call op next => call op fun answer ↦ (next answer).bind f

instance : Monad (Prog N) where
  pure := ret
  bind := bind

/-- One operation. -/
def op (operation : Op N) : Prog N (Except IoErrorKind operation.Response) := call operation ret

/-- Runs a program without failures, with entries listed as the disk holds them. -/
def exec : Prog N α → Disk N → α × Disk N
  | ret a, d => (a, d)
  | call operation next, d =>
    (next (operation.perform d).1).exec (operation.perform d).2

end Prog

/-! ## Weakest preconditions -/

variable {faults : Bool} {allowed allowed' : Op N → Prop} {inv inv' : Disk N → Prop}

/-- From this disk the program calls only allowed operations, keeps the invariant between them, and
ends with the postcondition. -/
def wp (faults : Bool) (allowed : Op N → Prop) (inv : Disk N → Prop) (post : α → Disk N → Prop) :
    Prog N α → Disk N → Prop
  | .ret a, d => inv d ∧ post a d
  | .call operation next, d => inv d ∧ allowed operation ∧
      ∀ answer d', operation.Outcome faults d answer d' →
        wp faults allowed inv post (next answer) d'

section Wp

variable {post post' : α → Disk N → Prop} {p p' : Prog N α} {d d' : Disk N}

theorem wp_mono (h : wp faults allowed inv post p d) (hallowed : ∀ o, allowed o → allowed' o)
    (hinv : ∀ d, inv d → inv' d) (hpost : ∀ a d, inv d → post a d → post' a d) :
    wp faults allowed' inv' post' p d := by
  induction p generalizing d with
  | ret a => exact ⟨hinv d h.1, hpost a d h.1 h.2⟩
  | call operation next ih =>
    exact ⟨hinv d h.1, hallowed _ h.2.1, fun answer d' ho ↦ ih answer (h.2.2 answer d' ho)⟩

theorem wp_post (h : wp faults allowed inv post p d)
    (hpost : ∀ a d, inv d → post a d → post' a d) : wp faults allowed inv post' p d :=
  wp_mono h (fun _ ↦ id) (fun _ ↦ id) hpost

theorem wp_bind {q : β → Disk N → Prop} {f : α → Prog N β}
    (h : wp faults allowed inv (fun a d ↦ wp faults allowed inv q (f a) d) p d) :
    wp faults allowed inv q (p >>= f) d := by
  induction p generalizing d with
  | ret a => exact h.2
  | call operation next ih =>
    exact ⟨h.1, h.2.1, fun answer d' ho ↦ ih answer (h.2.2 answer d' ho)⟩

/-- The rule for one operation. -/
theorem wp_op {operation : Op N} {q : Except IoErrorKind operation.Response → Disk N → Prop}
    (hinv : inv d) (hallowed : allowed operation)
    (h : ∀ answer d', operation.Outcome faults d answer d' → inv d' ∧ q answer d') :
    wp faults allowed inv q (Prog.op operation) d :=
  ⟨hinv, hallowed, h⟩

theorem wp_exec (h : wp faults allowed inv post p d) :
    inv (p.exec d).2 ∧ post (p.exec d).1 (p.exec d).2 := by
  induction p generalizing d with
  | ret a => exact h
  | call operation next ih => exact ih _ (h.2.2 _ _ (.done operation))

end Wp

/-! ### Programs that return errors -/

/-- A program that returns a value or an error. -/
abbrev Io (N ε α : Type) := ExceptT ε (Prog N) α

theorem wp_bind_io {q : Except ε β → Disk N → Prop} {x : Io N ε α} {f : α → Io N ε β} {d : Disk N}
    (h : wp faults allowed inv (fun r d ↦ match r with
      | .ok a => wp faults allowed inv q (f a).run d
      | .error e => q (.error e) d) x.run d) :
    wp faults allowed inv q (x >>= f).run d := by
  refine wp_bind (wp_post h fun r d' hinv hr ↦ ?_)
  cases r with
  | ok a => exact hr
  | error e => exact ⟨hinv, hr⟩

theorem wp_pure {q : Except ε α → Disk N → Prop} {a : α} {d : Disk N} (hinv : inv d)
    (h : q (.ok a) d) : wp faults allowed inv q (pure a : Io N ε α).run d :=
  ⟨hinv, h⟩

theorem wp_ofExcept {q : Except ε α → Disk N → Prop} {r : Except ε α} {d : Disk N} (hinv : inv d)
    (h : q r d) : wp faults allowed inv q (liftM r : Io N ε α).run d :=
  ⟨hinv, h⟩

theorem wp_ite {q : Except ε α → Disk N → Prop} {c : Prop} [Decidable c] {x y : Io N ε α}
    {d : Disk N} (hpos : c → wp faults allowed inv q x.run d)
    (hneg : ¬ c → wp faults allowed inv q y.run d) :
    wp faults allowed inv q (if c then x else y).run d := by
  split_ifs with h
  · exact hpos h
  · exact hneg h

theorem wp_adapt {ε' : Type} {q : Except ε' α → Disk N → Prop} {f : ε → ε'} {x : Io N ε α}
    {d : Disk N} (h : wp faults allowed inv (fun r d ↦ q (r.mapError f) d) x.run d) :
    wp faults allowed inv q (x.adapt f).run d :=
  wp_bind (wp_post h fun _ _ hinv hr ↦ ⟨hinv, hr⟩)

/-- The rule for a loop: an invariant of what has been done so far. -/
theorem wp_forM {q : Except ε Unit → Disk N → Prop} {l : List α} {f : α → Io N ε Unit}
    {d : Disk N} (J : List α → Disk N → Prop) (hinv : inv d) (hstart : J [] d)
    (hstep : ∀ before a after d, l = before ++ a :: after → J before d →
      wp faults allowed inv (fun r d' ↦ match r with
        | .ok () => J (before ++ [a]) d'
        | .error e => q (.error e) d') (f a).run d)
    (hdone : ∀ d, J l d → q (.ok ()) d) : wp faults allowed inv q (l.forM f).run d := by
  suffices h : ∀ after before d, l = before ++ after → inv d → J before d →
      wp faults allowed inv q (after.forM f).run d from h l [] d rfl hinv hstart
  intro after
  induction after with
  | nil =>
    intro before d hl hinv hJ
    rw [List.append_nil] at hl
    exact wp_pure hinv (hdone d (hl ▸ hJ))
  | cons a after ih =>
    intro before d hl hinv hJ
    refine wp_bind_io (wp_post (hstep before a after d hl hJ) fun r d' hinv' hr ↦ ?_)
    cases r with
    | error e => exact hr
    | ok _ => exact ih (before ++ [a]) d' (by rw [hl, List.append_assoc]; rfl) hinv' hr

/-- One operation, with its failure reported as an error. -/
def Io.call (operation : Op N) (err : IoErrorKind → ε) : Io N ε operation.Response :=
  ExceptT.mk do return (← Prog.op operation).mapError err

section Call

variable {err : IoErrorKind → ε} {d : Disk N} {n : N} {file : File}

theorem wp_call {operation : Op N} {q : Except ε operation.Response → Disk N → Prop}
    (hinv : inv d) (hallowed : allowed operation)
    (h : ∀ answer d', operation.Outcome faults d answer d' → inv d' ∧ q (answer.mapError err) d') :
    wp faults allowed inv q (Io.call operation err).run d :=
  wp_bind (wp_op hinv hallowed fun answer d' ho ↦
    ⟨(h answer d' ho).1, (h answer d' ho).1, (h answer d' ho).2⟩)

variable {q : Except ε Unit → Disk N → Prop}

theorem wp_entryExists {q : Except ε Bool → Disk N → Prop} (hinv : inv d)
    (hallowed : allowed (.entryExists n)) (hok : q (.ok (d.file n).isSome) d)
    (herr : faults = true → q (.error (err .other)) d) :
    wp faults allowed inv q (Io.call (.entryExists n) err).run d := by
  refine wp_call hinv hallowed fun answer d' ho ↦ ?_
  obtain ⟨rfl, rfl | ⟨hfaults, rfl⟩⟩ := ho.entryExists_cases
  · exact ⟨hinv, hok⟩
  · exact ⟨hinv, herr hfaults⟩

theorem wp_read {q : Except ε Bytes → Disk N → Prop} (hinv : inv d) (hallowed : allowed (.read n))
    (hok : ∀ file, d.file n = some file → q (.ok file.bytes) d)
    (hnone : d.file n = none → q (.error (err .notFound)) d)
    (herr : faults = true → q (.error (err .other)) d) :
    wp faults allowed inv q (Io.call (.read n) err).run d := by
  refine wp_call hinv hallowed fun answer d' ho ↦ ?_
  obtain ⟨rfl, rfl | ⟨hfaults, rfl⟩⟩ := ho.read_cases
  · cases hfile : d'.file n with
    | none => exact ⟨hinv, hnone hfile⟩
    | some file => exact ⟨hinv, hok file hfile⟩
  · exact ⟨hinv, herr hfaults⟩

theorem wp_create (hfile : d.file n = none) (hinv : inv d) (hallowed : allowed (.create n))
    (hinv' : ∀ d', d.Updated n ((d.slot n).change (some ⟨[], []⟩)) d' → inv d')
    (hok : ∀ d', d.Updated n ((d.slot n).change (some ⟨[], []⟩)) d' → q (.ok ()) d')
    (herr : faults = true → ∀ d', (d' = d ∨ d.Updated n ((d.slot n).change (some ⟨[], []⟩)) d') →
      q (.error (err .other)) d') :
    wp faults allowed inv q (Io.call (.create n) err).run d := by
  refine wp_call hinv hallowed fun answer d' ho ↦ ?_
  obtain ⟨rfl, hd⟩ | ⟨hfaults, rfl, hd⟩ := ho.create_cases hfile
  · exact ⟨hinv' d' hd, hok d' hd⟩
  · exact ⟨hd.elim (fun h ↦ h ▸ hinv) (hinv' d'), herr hfaults d' hd⟩

theorem wp_append {bytes : Bytes} (hfile : d.file n = some file)
    (hallowed : allowed (.append n bytes))
    (hinv : ∀ written d', written <+: bytes →
      d.Updated n ((d.slot n).write ⟨file.bytes ++ written, file.synced⟩) d' → inv d')
    (hok : ∀ d', d.Updated n ((d.slot n).write ⟨file.bytes ++ bytes, file.synced⟩) d' →
      q (.ok ()) d')
    (herr : faults = true → ∀ written d', written <+: bytes →
      d.Updated n ((d.slot n).write ⟨file.bytes ++ written, file.synced⟩) d' →
        q (.error (err .other)) d') :
    wp faults allowed inv q (Io.call (.append n bytes) err).run d := by
  have hinv₀ : inv d := hinv [] d List.nil_prefix (Disk.updated_self (by
    rw [List.append_nil]
    exact Slot.ext hfile rfl))
  refine wp_call hinv₀ hallowed fun answer d' ho ↦ ?_
  obtain ⟨rfl, hd⟩ | ⟨hfaults, rfl, written, hwritten, hd⟩ := ho.append_cases hfile
  · exact ⟨hinv bytes d' List.prefix_rfl hd, hok d' hd⟩
  · exact ⟨hinv written d' hwritten hd, herr hfaults written d' hwritten hd⟩

theorem wp_sync (hfile : d.file n = some file) (hinv : inv d) (hallowed : allowed (.sync n))
    (hinv' : ∀ d', d.Updated n ((d.slot n).write (.durable file.bytes)) d' → inv d')
    (hok : ∀ d', d.Updated n ((d.slot n).write (.durable file.bytes)) d' → q (.ok ()) d')
    (herr : faults = true → ∀ d',
      (d' = d ∨ d.Updated n ((d.slot n).write (.durable file.bytes)) d') →
        q (.error (err .other)) d') :
    wp faults allowed inv q (Io.call (.sync n) err).run d := by
  refine wp_call hinv hallowed fun answer d' ho ↦ ?_
  obtain ⟨rfl, hd⟩ | ⟨hfaults, rfl, hd⟩ := ho.sync_cases hfile
  · exact ⟨hinv' d' hd, hok d' hd⟩
  · exact ⟨hd.elim (fun h ↦ h ▸ hinv) (hinv' d'), herr hfaults d' hd⟩

theorem wp_sync_of_none (hfile : d.file n = none) (hinv : inv d) (hallowed : allowed (.sync n))
    (herr : ∀ e, q (.error e) d) : wp faults allowed inv q (Io.call (.sync n) err).run d := by
  refine wp_call hinv hallowed fun answer d' ho ↦ ?_
  obtain ⟨rfl, e, rfl⟩ := ho.sync_cases_of_none hfile
  exact ⟨hinv, herr _⟩

theorem wp_truncate {length : ℕ} (hfile : d.file n = some file) (hinv : inv d)
    (hallowed : allowed (.truncate n length))
    (hinv' : ∀ d', d.Updated n ((d.slot n).write ⟨file.bytes.take length, file.synced⟩) d' →
      inv d')
    (hok : ∀ d', d.Updated n ((d.slot n).write ⟨file.bytes.take length, file.synced⟩) d' →
      q (.ok ()) d')
    (herr : faults = true → ∀ d',
      (d' = d ∨ d.Updated n ((d.slot n).write ⟨file.bytes.take length, file.synced⟩) d') →
        q (.error (err .other)) d') :
    wp faults allowed inv q (Io.call (.truncate n length) err).run d := by
  refine wp_call hinv hallowed fun answer d' ho ↦ ?_
  obtain ⟨rfl, hd⟩ | ⟨hfaults, rfl, hd⟩ := ho.truncate_cases hfile
  · exact ⟨hinv' d' hd, hok d' hd⟩
  · exact ⟨hd.elim (fun h ↦ h ▸ hinv) (hinv' d'), herr hfaults d' hd⟩

theorem wp_link {m : N} (hfile : d.file n = some file) (hnone : d.file m = none) (hinv : inv d)
    (hallowed : allowed (.link n m))
    (hinv' : ∀ d', d.Updated m ((d.slot m).change (some file)) d' → inv d')
    (hok : ∀ d', d.Updated m ((d.slot m).change (some file)) d' → q (.ok ()) d')
    (herr : faults = true → ∀ d', (d' = d ∨ d.Updated m ((d.slot m).change (some file)) d') →
      q (.error (err .other)) d') :
    wp faults allowed inv q (Io.call (.link n m) err).run d := by
  refine wp_call hinv hallowed fun answer d' ho ↦ ?_
  obtain ⟨rfl, hd⟩ | ⟨hfaults, rfl, hd⟩ := ho.link_cases hfile hnone
  · exact ⟨hinv' d' hd, hok d' hd⟩
  · exact ⟨hd.elim (fun h ↦ h ▸ hinv) (hinv' d'), herr hfaults d' hd⟩

theorem wp_remove (hfile : d.file n = some file) (hinv : inv d) (hallowed : allowed (.remove n))
    (hinv' : ∀ d', d.Updated n ((d.slot n).change none) d' → inv d')
    (hok : ∀ d', d.Updated n ((d.slot n).change none) d' → q (.ok ()) d')
    (herr : faults = true → ∀ d', (d' = d ∨ d.Updated n ((d.slot n).change none) d') →
      q (.error (err .other)) d') :
    wp faults allowed inv q (Io.call (.remove n) err).run d := by
  refine wp_call hinv hallowed fun answer d' ho ↦ ?_
  obtain ⟨rfl, hd⟩ | ⟨hfaults, rfl, hd⟩ := ho.remove_cases hfile
  · exact ⟨hinv' d' hd, hok d' hd⟩
  · exact ⟨hd.elim (fun h ↦ h ▸ hinv) (hinv' d'), herr hfaults d' hd⟩

theorem wp_syncDirectory (hinv : inv d) (hallowed : allowed .syncDirectory)
    (hinv' : inv d.syncDirectory) (hok : q (.ok ()) d.syncDirectory)
    (herr : faults = true → ∀ d', (d' = d ∨ d' = d.syncDirectory) → q (.error (err .other)) d') :
    wp faults allowed inv q (Io.call .syncDirectory err).run d := by
  refine wp_call hinv hallowed fun answer d' ho ↦ ?_
  obtain ⟨rfl, rfl⟩ | ⟨hfaults, rfl, hd⟩ := ho.syncDirectory_cases
  · exact ⟨hinv', hok⟩
  · exact ⟨hd.elim (fun h ↦ h ▸ hinv) (fun h ↦ h ▸ hinv'), herr hfaults d' hd⟩

end Call

/-! ### Runs without failures -/

section Exec

variable {d d' : Disk N}

theorem exec_bind (p : Prog N α) (f : α → Prog N β) (d : Disk N) :
    (p >>= f).exec d = (f (p.exec d).1).exec (p.exec d).2 := by
  induction p generalizing d with
  | ret a => rfl
  | call operation next ih => exact ih _ _

/-- A run succeeds if each of its parts does. -/
theorem exec_bind_eq_ok {x : Io N ε α} {f : α → Io N ε β} {b : β} :
    (x >>= f).run.exec d = (.ok b, d') ↔
      ∃ a d₁, x.run.exec d = (.ok a, d₁) ∧ (f a).run.exec d₁ = (.ok b, d') := by
  have hbind : (x >>= f).run.exec d = _ := exec_bind x.run _ d
  rw [hbind]
  generalize x.run.exec d = result
  obtain ⟨a | a, d₁⟩ := result
  · exact ⟨nofun, nofun⟩
  · exact ⟨fun h ↦ ⟨a, d₁, rfl, h⟩, fun ⟨_, _, h, h'⟩ ↦ by cases h; exact h'⟩

theorem exists_exec_bind {x : Io N ε α} {f : α → Io N ε β} {a : α} {d₁ : Disk N}
    (hx : x.run.exec d = (.ok a, d₁)) (h : ∃ b d', (f a).run.exec d₁ = (.ok b, d')) :
    ∃ b d', (x >>= f).run.exec d = (.ok b, d') := by
  obtain ⟨b, d', hf⟩ := h
  exact ⟨b, d', exec_bind_eq_ok.mpr ⟨a, d₁, hx, hf⟩⟩

theorem exec_pure_eq_ok {a b : α} :
    (pure a : Io N ε α).run.exec d = (.ok b, d') ↔ a = b ∧ d = d' := by
  show ((.ok a, d) : Except ε α × Disk N) = _ ↔ _
  rw [Prod.mk.injEq, Except.ok.injEq]

theorem exec_throw_ne_ok {e : ε} {a : α} : (throw e : Io N ε α).run.exec d ≠ (.ok a, d') := nofun

theorem exec_ofExcept_eq_ok {r : Except ε α} {a : α} :
    (liftM r : Io N ε α).run.exec d = (.ok a, d') ↔ r = .ok a ∧ d = d' := by
  show ((r, d) : Except ε α × Disk N) = _ ↔ _
  rw [Prod.mk.injEq]

theorem exec_ite_throw_eq_ok {c : Prop} [Decidable c] {e : ε} {x : Io N ε α} {a : α} :
    (if c then throw e else x : Io N ε α).run.exec d = (.ok a, d') ↔
      ¬c ∧ x.run.exec d = (.ok a, d') := by
  split_ifs with hc
  · exact ⟨nofun, fun h ↦ absurd hc h.1⟩
  · exact ⟨fun h ↦ ⟨hc, h⟩, And.right⟩

theorem exec_call (operation : Op N) (err : IoErrorKind → ε) (d : Disk N) :
    (Io.call operation err).run.exec d
      = ((operation.perform d).1.mapError err, (operation.perform d).2) :=
  rfl

theorem exec_read_eq_ok {n : N} {err : IoErrorKind → ε} {bytes : Bytes} :
    (Io.call (.read n) err).run.exec d = (.ok bytes, d') ↔
      (∃ file, d.file n = some file ∧ file.bytes = bytes) ∧ d = d' := by
  rw [exec_call, Op.perform]
  cases d.file n with
  | none =>
    constructor
    · rintro ⟨⟩
    · rintro ⟨⟨_, ⟨⟩, -⟩, -⟩
  | some file =>
    simp only [Except.mapError, Prod.mk.injEq, Except.ok.injEq, Option.some.injEq, exists_eq_left']

theorem exec_truncate {n : N} {file : File} (err : IoErrorKind → ε) (length : ℕ)
    (hfile : d.file n = some file) :
    ∃ d', (Io.call (.truncate n length) err).run.exec d = (.ok (), d') ∧
      d'.file n = some ⟨file.bytes.take length, file.synced⟩ := by
  rw [exec_call, Op.perform, Op.onFile, hfile]
  exact ⟨_, rfl, (Disk.updated_set ..).file_self⟩

theorem exec_sync {n : N} {file : File} (err : IoErrorKind → ε) (hfile : d.file n = some file) :
    ∃ d', (Io.call (.sync n) err).run.exec d = (.ok (), d') ∧
      d'.file n = some (.durable file.bytes) := by
  rw [exec_call, Op.perform, Op.onFile, hfile]
  exact ⟨_, rfl, (Disk.updated_set ..).file_self⟩

/-- A loop of checks that change nothing succeeds if every check does. -/
theorem exec_forM_eq_ok {l : List α} {f : α → Io N ε Unit} {Passes : α → Prop}
    (h : ∀ a d', (f a).run.exec d = (.ok (), d') ↔ Passes a ∧ d = d') :
    (l.forM f).run.exec d = (.ok (), d') ↔ (∀ a ∈ l, Passes a) ∧ d = d' := by
  induction l with
  | nil =>
    refine exec_pure_eq_ok.trans ?_
    simp
  | cons a l ih =>
    rw [List.forall_mem_cons]
    refine exec_bind_eq_ok.trans ⟨?_, ?_⟩
    · rintro ⟨⟨⟩, d₁, ha, hl⟩
      obtain ⟨hpasses, rfl⟩ := (h a d₁).mp ha
      obtain ⟨hall, rfl⟩ := ih.mp hl
      exact ⟨⟨hpasses, hall⟩, rfl⟩
    · rintro ⟨⟨hpasses, hall⟩, rfl⟩
      exact ⟨(), d, (h a d).mpr ⟨hpasses, rfl⟩, ih.mpr ⟨hall, rfl⟩⟩

end Exec

/-! ### Programs with a state -/

/-- A program that also keeps a state, which outlives an error. -/
abbrev StIo (N σ ε α : Type) := ExceptT ε (StateT σ (Prog N)) α

section State

variable {σ ε' : Type}

/-- Runs a program beside the state. -/
def StIo.lift (x : Io N ε α) : StIo N σ ε α :=
  ExceptT.mk fun s ↦ do return (← x.run, s)

instance : MonadLift (Io N ε) (StIo N σ ε) := ⟨StIo.lift⟩

theorem wp_bind_st {q : Except ε β × σ → Disk N → Prop} {x : StIo N σ ε α} {f : α → StIo N σ ε β}
    {s : σ} {d : Disk N}
    (h : wp faults allowed inv (fun r d ↦ match r.1 with
      | .ok a => wp faults allowed inv q ((f a).run.run r.2) d
      | .error e => q (.error e, r.2) d) (x.run.run s) d) :
    wp faults allowed inv q ((x >>= f).run.run s) d := by
  refine wp_bind (wp_post h fun r d' hinv hr ↦ ?_)
  obtain ⟨r, s'⟩ := r
  cases r with
  | ok a => exact hr
  | error e => exact ⟨hinv, hr⟩

theorem wp_lift {q : Except ε α × σ → Disk N → Prop} {x : Io N ε α} {s : σ} {d : Disk N}
    (h : wp faults allowed inv (fun r d ↦ q (r, s) d) x.run d) :
    wp faults allowed inv q ((StIo.lift x : StIo N σ ε α).run.run s) d :=
  wp_bind (wp_post h fun _ _ hinv hr ↦ ⟨hinv, hr⟩)

theorem wp_adapt_st {q : Except ε' α × σ → Disk N → Prop} {f : ε → ε'} {x : StIo N σ ε α} {s : σ}
    {d : Disk N} (h : wp faults allowed inv (fun r d ↦ q (r.1.mapError f, r.2) d) (x.run.run s) d) :
    wp faults allowed inv q (((x.adapt f : StIo N σ ε' α)).run.run s) d :=
  wp_bind (wp_post h fun _ _ hinv hr ↦ ⟨hinv, hr⟩)

/-- Reading the state. -/
theorem wp_get {q : Except ε α × σ → Disk N → Prop} {f : σ → StIo N σ ε α} {s : σ} {d : Disk N}
    (h : wp faults allowed inv q ((f s).run.run s) d) :
    wp faults allowed inv q ((get >>= f : StIo N σ ε α).run.run s) d :=
  h

end State

/-! ## Names that are left alone -/

/-- The names in `own` have the same files as before, and at most fewer past entries. -/
def Frame (own : Set N) (d d' : Disk N) : Prop :=
  ∀ n ∈ own, (d'.slot n).entry = (d.slot n).entry ∧ (d'.slot n).past ⊆ (d.slot n).past

namespace Frame

variable {own : Set N} {d d₁ d₂ : Disk N}

omit [DecidableEq N]

theorem refl (d : Disk N) : Frame own d d := fun _ _ ↦ ⟨rfl, List.Subset.refl _⟩

theorem trans (h : Frame own d d₁) (h' : Frame own d₁ d₂) : Frame own d d₂ := fun n hn ↦
  ⟨(h' n hn).1.trans (h n hn).1, fun _ hx ↦ (h n hn).2 ((h' n hn).2 hx)⟩

theorem syncDirectory (d : Disk N) : Frame own d d.syncDirectory := fun _ _ ↦
  ⟨rfl, List.nil_subset _⟩

end Frame

end CrashFs
