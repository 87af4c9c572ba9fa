import MeteorDB.InternalKey
import MeteorDB.Lib.OrderedList

/-!
# Snapshots

The registry of snapshots counts, for each sequence, the guards that are held at it. It is an
ordered map, so its first key is the oldest sequence that a reader may still ask for. `Represents`
says that a registry counts a given list of guards; taking and dropping guards keeps that, and the
first key is then the least of them.
-/

namespace MeteorDB

open OrderedList

/-- The sequences that are protected, each with the number of its guards. -/
structure SnapshotRegistry where
  active : List (SequenceNumber × ℕ)
  ordered : Increasing Prod.fst active
  positive : ∀ entry ∈ active, 0 < entry.2

namespace SnapshotRegistry

def empty : SnapshotRegistry := ⟨[], .nil, nofun⟩

/-- The number of guards at a sequence. -/
def count (registry : SnapshotRegistry) (sequence : SequenceNumber) : ℕ :=
  ((registry.active.find? (·.1 = sequence)).map Prod.snd).getD 0

/-- Sets the number of guards at a sequence. -/
def set (registry : SnapshotRegistry) (sequence : SequenceNumber) (n : ℕ) (hn : 0 < n) :
    SnapshotRegistry where
  active := insert Prod.fst (sequence, n) registry.active
  ordered := registry.ordered.insert
  positive entry hentry := by
    rcases (mem_insert registry.ordered).mp hentry with rfl | ⟨hentry, -⟩
    · exact hn
    · exact registry.positive entry hentry

/-- Removes a sequence. -/
def remove (registry : SnapshotRegistry) (sequence : SequenceNumber) : SnapshotRegistry where
  active := registry.active.filter (·.1 ≠ sequence)
  ordered := registry.ordered.sublist List.filter_sublist
  positive entry hentry := registry.positive entry (List.mem_of_mem_filter hentry)

/-- Takes a guard. -/
def acquire (registry : SnapshotRegistry) (sequence : SequenceNumber) : SnapshotRegistry :=
  registry.set sequence (registry.count sequence + 1) (Nat.succ_pos _)

/-- Drops a guard. -/
def release (registry : SnapshotRegistry) (sequence : SequenceNumber) : SnapshotRegistry :=
  if h : 1 < registry.count sequence then
    registry.set sequence (registry.count sequence - 1) (Nat.sub_pos_of_lt h)
  else registry.remove sequence

/-- The oldest sequence that is protected. -/
def oldestActive (registry : SnapshotRegistry) : Option SequenceNumber :=
  registry.active.head?.map Prod.fst

variable {registry : SnapshotRegistry} {sequence other : SequenceNumber} {n : ℕ}

/-! ## Counting -/

private theorem count_of_mem (h : (sequence, n) ∈ registry.active) :
    registry.count sequence = n := by
  have hfind : registry.active.find? (·.1 = sequence) = some (sequence, n) := by
    obtain ⟨found, hfound⟩ := Option.isSome_iff_exists.mp
      (List.find?_isSome (p := fun entry ↦ decide (entry.1 = sequence)) |>.mpr
        ⟨_, h, decide_eq_true rfl⟩)
    have hkey : found.1 = sequence := by simpa using List.find?_some hfound
    rw [hfound, registry.ordered.eq_of_key_eq (List.mem_of_find?_eq_some hfound) h hkey]
  rw [count, hfind]
  rfl

private theorem count_of_forall_ne (h : ∀ entry ∈ registry.active, entry.1 ≠ sequence) :
    registry.count sequence = 0 := by
  have hfind : registry.active.find? (·.1 = sequence) = none :=
    List.find?_eq_none.mpr fun entry hentry ↦ by simpa using h entry hentry
  rw [count, hfind]
  rfl

private theorem mem_active_iff :
    (sequence, n) ∈ registry.active ↔ registry.count sequence = n ∧ 0 < n := by
  constructor
  · exact fun h ↦ ⟨count_of_mem h, registry.positive _ h⟩
  · rintro ⟨rfl, hpos⟩
    by_contra hnot
    refine hpos.ne' (count_of_forall_ne fun entry hentry hkey ↦ hnot ?_)
    subst hkey
    have hmem : (entry.1, entry.2) ∈ registry.active := hentry
    rwa [count_of_mem hmem]

/-- Registries count alike at a sequence if they have the same entries there. -/
theorem count_congr {registry' : SnapshotRegistry}
    (h : ∀ n, (sequence, n) ∈ registry'.active ↔ (sequence, n) ∈ registry.active) :
    registry'.count sequence = registry.count sequence := by
  rcases Nat.eq_zero_or_pos (registry.count sequence) with hzero | hpos
  · rw [hzero]
    by_contra hne
    have hmem := (h _).mp (mem_active_iff.mpr ⟨rfl, Nat.pos_of_ne_zero hne⟩)
    exact hne ((count_of_mem hmem).symm.trans hzero)
  · exact count_of_mem ((h _).mpr (mem_active_iff.mpr ⟨rfl, hpos⟩))

private theorem count_set (hn : 0 < n) :
    (registry.set sequence n hn).count other
      = if other = sequence then n else registry.count other := by
  have hmem : ∀ entry, entry ∈ (registry.set sequence n hn).active ↔
      entry = (sequence, n) ∨ entry ∈ registry.active ∧ entry.1 ≠ sequence :=
    fun _ ↦ mem_insert registry.ordered
  split_ifs with heq
  · subst heq
    exact count_of_mem ((hmem _).mpr (.inl rfl))
  · refine count_congr fun m ↦ (hmem _).trans ?_
    simp [heq]

private theorem count_remove :
    (registry.remove sequence).count other
      = if other = sequence then 0 else registry.count other := by
  have hmem : ∀ entry, entry ∈ (registry.remove sequence).active ↔
      entry ∈ registry.active ∧ entry.1 ≠ sequence := fun _ ↦ by
    rw [remove, List.mem_filter, decide_eq_true_eq]
  split_ifs with heq
  · subst heq
    exact count_of_forall_ne fun entry hentry ↦ ((hmem entry).mp hentry).2
  · refine count_congr fun m ↦ (hmem _).trans ?_
    simp [heq]

private theorem count_acquire : (registry.acquire sequence).count other
    = registry.count other + if other = sequence then 1 else 0 := by
  rw [acquire, count_set]
  split_ifs with heq
  · rw [heq]
  · rfl

private theorem count_release : (registry.release sequence).count other
    = registry.count other - if other = sequence then 1 else 0 := by
  unfold release
  split_ifs with hmany heq heq
  · rw [count_set, if_pos heq, heq]
  · rw [count_set, if_neg heq]
    rfl
  · rw [count_remove, if_pos heq, heq]
    omega
  · rw [count_remove, if_neg heq]
    rfl

/-! ## Guards -/

/-- A registry counts the guards of a list. -/
def Represents (registry : SnapshotRegistry) (guards : List SequenceNumber) : Prop :=
  ∀ sequence, registry.count sequence = guards.count sequence

variable {guards : List SequenceNumber}

theorem represents_empty : Represents empty [] := fun _ ↦ rfl

theorem Represents.acquire (h : Represents registry guards) (sequence : SequenceNumber) :
    Represents (registry.acquire sequence) (guards ++ [sequence]) := by
  intro other
  rw [count_acquire, h other, List.count_append, List.count_singleton]
  by_cases heq : other = sequence
  · rw [if_pos heq, if_pos (beq_iff_eq.mpr heq.symm)]
  · rw [if_neg heq, if_neg fun hbeq ↦ heq (beq_iff_eq.mp hbeq).symm]

theorem Represents.release (h : Represents registry guards) (sequence : SequenceNumber) :
    Represents (registry.release sequence) (guards.erase sequence) := by
  intro other
  rw [count_release, h other, List.count_erase]
  by_cases heq : other = sequence
  · rw [if_pos heq, if_pos (beq_iff_eq.mpr heq.symm)]
  · rw [if_neg heq, if_neg fun hbeq ↦ heq (beq_iff_eq.mp hbeq).symm]

theorem Represents.mem_iff (h : Represents registry guards) :
    sequence ∈ guards ↔ ∃ n, (sequence, n) ∈ registry.active := by
  rw [← List.count_pos_iff, ← h sequence]
  constructor
  · exact fun hpos ↦ ⟨_, mem_active_iff.mpr ⟨rfl, hpos⟩⟩
  · rintro ⟨n, hmem⟩
    obtain ⟨hcount, hpos⟩ := mem_active_iff.mp hmem
    exact hcount ▸ hpos

theorem Represents.oldestActive_eq_none (h : Represents registry guards) :
    registry.oldestActive = none ↔ guards = [] := by
  rw [oldestActive, Option.map_eq_none_iff, List.head?_eq_none_iff, List.eq_nil_iff_forall_not_mem,
    List.eq_nil_iff_forall_not_mem]
  constructor
  · intro hnone sequence hmem
    obtain ⟨n, hn⟩ := h.mem_iff.mp hmem
    exact hnone _ hn
  · exact fun hnone entry hentry ↦ hnone entry.1 (h.mem_iff.mpr ⟨entry.2, hentry⟩)

/-- The oldest protected sequence is the least of the guards. -/
theorem Represents.oldestActive_eq_some (h : Represents registry guards)
    (holdest : registry.oldestActive = some sequence) :
    sequence ∈ guards ∧ ∀ guard ∈ guards, sequence ≤ guard := by
  obtain ⟨first, hfirst, rfl⟩ := Option.map_eq_some_iff.mp holdest
  obtain ⟨rest, hactive⟩ := List.head?_eq_some_iff.mp hfirst
  have hmem : first ∈ registry.active := hactive ▸ List.mem_cons_self ..
  refine ⟨h.mem_iff.mpr ⟨first.2, hmem⟩, fun guard hguard ↦ ?_⟩
  obtain ⟨n, hn⟩ := h.mem_iff.mp hguard
  have hordered := registry.ordered
  rw [hactive] at hn hordered
  rcases List.mem_cons.mp hn with heq | hn
  · exact (congrArg Prod.fst heq).ge
  · exact ((increasing_cons.mp hordered).1 _ hn).le

end SnapshotRegistry

end MeteorDB
