import MeteorDB.Lib.Lru
import MeteorDB.Options

/-!
# The block cache

Blocks are cached in two partitions with a budget each. How recently an entry was used is told by
its stamp. The stamps come from one counter for both partitions, which never wraps: when it has
reached its maximum, all entries are ranked by their stamps and their ranks become their stamps.

Each partition is an ideal least-recently-used cache over its own calls (`run_refines`): at every
moment its entries, in the order of their stamps, are the list of the ideal cache.

A call can end without a result in two ways. The source panics where it expects something that is
not there, and a map that would need more memory than can be addressed cannot be allocated. Only the
second happens, and only when the ideal cache holds `2 ^ 64` entries as well.
-/

namespace MeteorDB

open Lru

/-! ## Keys -/

inductive CachePartition where
  | metadata
  | data
  deriving DecidableEq, Repr

inductive BlockKind where
  | filter
  | index
  | data
  deriving DecidableEq, Repr

/-- The place of a partition in its order. -/
def CachePartition.rank : CachePartition → ℕ
  | metadata => 0
  | data => 1

/-- The place of a kind in its order. -/
def BlockKind.rank : BlockKind → ℕ
  | filter => 0
  | index => 1
  | data => 2

def BlockKind.partition : BlockKind → CachePartition
  | filter | index => .metadata
  | data => .data

private theorem CachePartition.rank_injective : Function.Injective rank := by
  intro a b h
  cases a <;> cases b <;> first | rfl | cases h

private theorem BlockKind.rank_injective : Function.Injective rank := by
  intro a b h
  cases a <;> cases b <;> first | rfl | cases h

structure CacheKey where
  fileNumber : U64
  blockOffset : U64
  kind : BlockKind
  deriving DecidableEq, Repr

/-- Keys are ordered field by field. -/
def CacheKey.fields (key : CacheKey) : U64 ×ₗ U64 ×ₗ ℕ :=
  toLex (key.fileNumber, toLex (key.blockOffset, key.kind.rank))

private theorem CacheKey.fields_injective : Function.Injective fields := by
  rintro ⟨number, offset, kind⟩ ⟨number', offset', kind'⟩ h
  obtain ⟨rfl, h⟩ := Prod.mk.inj h
  obtain ⟨rfl, h⟩ := Prod.mk.inj h
  exact congrArg (CacheKey.mk number offset) (BlockKind.rank_injective h)

instance : LinearOrder CachePartition := LinearOrder.lift' CachePartition.rank
  CachePartition.rank_injective

instance : LinearOrder CacheKey := LinearOrder.lift' CacheKey.fields CacheKey.fields_injective

/-! ## The cache -/

structure CacheEntry where
  value : Bytes
  stamp : ℕ
  deriving DecidableEq

/-- One partition. The map is a list of entries with distinct keys. -/
structure PartitionState where
  capacityBytes : ℕ
  usageBytes : ℕ
  entries : List (CacheKey × CacheEntry)
  hits : ℕ
  misses : ℕ
  admissions : ℕ
  evictions : ℕ

structure CacheState where
  metadata : PartitionState
  data : PartitionState
  nextStamp : ℕ

/-- How a call ends without a result. -/
inductive Abort where
  | panic (message : String)
  | outOfMemory
  deriving DecidableEq, Repr

/-- The largest `u64`. -/
def maxStamp : ℕ := 2 ^ 64 - 1

/-- Addition that stops at the largest `u64`. -/
def saturatingSucc (count : ℕ) : ℕ := min (count + 1) maxStamp

/-- `Option::expect`. -/
def expect {α : Type} (value : Option α) (message : String) : Except Abort α :=
  match value with
  | some value => .ok value
  | none => .error (.panic message)

def fitsInBudget (usageBytes entryBytes capacityBytes : ℕ) : Bool :=
  entryBytes ≤ capacityBytes - usageBytes

namespace PartitionState

def new (capacityBytes : ℕ) : PartitionState := ⟨capacityBytes, 0, [], 0, 0, 0, 0⟩

def find (partition : PartitionState) (key : CacheKey) : Option CacheEntry :=
  (partition.entries.find? fun entry ↦ entry.1 = key).map Prod.snd

def erase (partition : PartitionState) (key : CacheKey) : List (CacheKey × CacheEntry) :=
  partition.entries.filter fun entry ↦ entry.1 ≠ key

/-- Gives the entry of a key another stamp. -/
def setStamp (partition : PartitionState) (key : CacheKey) (stamp : ℕ) : PartitionState :=
  { partition with
    entries := partition.entries.map fun entry ↦
      if entry.1 = key then (key, { entry.2 with stamp }) else entry }

/-- The key of the least recently used entry. -/
def oldest (partition : PartitionState) : Option CacheKey :=
  (partition.entries.argmin fun entry ↦ toLex (entry.2.stamp, entry.1)).map Prod.fst

def evictOldest (partition : PartitionState) : Except Abort PartitionState := do
  let oldest ← expect partition.oldest "a partition needing room contains an entry"
  let removed ← expect (partition.find oldest) "selected cache entry still exists"
  let usageBytes ← expect (checkedSub partition.usageBytes removed.value.length)
    "cache usage includes every retained entry"
  return { partition with usageBytes, entries := partition.erase oldest }

private theorem length_erase_lt {partition : PartitionState} {key : CacheKey} {entry : CacheEntry}
    (h : partition.find key = some entry) :
    (partition.erase key).length < partition.entries.length := by
  obtain ⟨found, hfound, -⟩ := Option.map_eq_some_iff.mp h
  have hmem := List.mem_of_find?_eq_some hfound
  have hkey := List.find?_some hfound
  refine List.length_filter_lt_length_iff_exists.mpr ⟨found, hmem, ?_⟩
  simpa using hkey

private theorem length_evictOldest_lt {partition partition' : PartitionState}
    (h : partition.evictOldest = .ok partition') :
    partition'.entries.length < partition.entries.length := by
  unfold evictOldest expect at h
  cases holdest : partition.oldest with
  | none => simp [holdest, bind, Except.bind] at h
  | some key =>
    cases hfind : partition.find key with
    | none => simp [holdest, hfind, bind, Except.bind] at h
    | some removed =>
      cases hsub : checkedSub partition.usageBytes removed.value.length with
      | none => simp [holdest, hfind, hsub, bind, Except.bind] at h
      | some usageBytes =>
        simp only [holdest, hfind, hsub, bind, Except.bind, pure, Except.pure,
          Except.ok.injEq] at h
        rw [← h]
        exact length_erase_lt hfind

/-- The eviction loop of an insertion. -/
def evictUntilFits (entryBytes : ℕ) (partition : PartitionState) : Except Abort PartitionState :=
  if fitsInBudget partition.usageBytes entryBytes partition.capacityBytes then .ok partition
  else
    match _h : partition.evictOldest with
    | .error abort => .error abort
    | .ok evicted =>
      evictUntilFits entryBytes { evicted with evictions := saturatingSucc evicted.evictions }
termination_by partition.entries.length
decreasing_by exact length_evictOldest_lt _h

end PartitionState

namespace CacheState

/-- A fifth of the bytes is for metadata. -/
def new (totalBytes : ℕ) : Result CacheState :=
  if totalBytes = 0 then
    .error (.invalidArgument "block cache bytes must be greater than zero")
  else
    let metadataBytes := totalBytes / 5
    .ok ⟨.new metadataBytes, .new (totalBytes - metadataBytes), 0⟩

def partition (state : CacheState) : CachePartition → PartitionState
  | .metadata => state.metadata
  | .data => state.data

def setPartition (state : CacheState) (which : CachePartition) (partition : PartitionState) :
    CacheState :=
  match which with
  | .metadata => { state with metadata := partition }
  | .data => { state with data := partition }

/-- The number of entries in both partitions. -/
def count (state : CacheState) : ℕ := state.metadata.entries.length + state.data.entries.length

/-- The stamps, partitions and keys of all entries, in order. -/
def ranked (state : CacheState) : List (ℕ ×ₗ CachePartition ×ₗ CacheKey) :=
  ((state.metadata.entries.map fun entry ↦
      toLex (entry.2.stamp, toLex (CachePartition.metadata, entry.1)))
    ++ state.data.entries.map fun entry ↦
      toLex (entry.2.stamp, toLex (CachePartition.data, entry.1))).insertionSort (· ≤ ·)

def setStamp (state : CacheState) (which : CachePartition) (key : CacheKey) (stamp : ℕ) :
    Except Abort CacheState := do
  let _ ← expect ((state.partition which).find key) "ranked cache entry still exists"
  return state.setPartition which ((state.partition which).setStamp key stamp)

/-- Ranks become stamps. -/
def renormalizeStamps (state : CacheState) : Except Abort CacheState := do
  let restamped ← state.ranked.zipIdx.foldlM (fun state item ↦
    state.setStamp (ofLex (ofLex item.1).2).1 (ofLex (ofLex item.1).2).2 (min item.2 maxStamp))
      state
  return { restamped with nextStamp := min restamped.count maxStamp }

/-- The next stamp. -/
def bumpStamp (state : CacheState) : Except Abort (ℕ × CacheState) := do
  let state ← if state.nextStamp = maxStamp then state.renormalizeStamps else .ok state
  return (state.nextStamp, { state with nextStamp := saturatingSucc state.nextStamp })

/-- Returns an entry, and makes it the most recent one. -/
def get (state : CacheState) (key : CacheKey) : Except Abort (Option Bytes × CacheState) := do
  let (stamp, state) ← state.bumpStamp
  let partition := state.partition key.kind.partition
  match partition.find key with
  | some entry =>
    let partition := partition.setStamp key stamp
    return (some entry.value, state.setPartition key.kind.partition
      { partition with hits := saturatingSucc partition.hits })
  | none =>
    return (none, state.setPartition key.kind.partition
      { partition with misses := saturatingSucc partition.misses })

/-- Takes the entry of a key out. -/
def removeReplaced (partition : PartitionState) (key : CacheKey) : Except Abort PartitionState :=
  match partition.find key with
  | none => .ok partition
  | some replaced => do
    let usageBytes ← expect (checkedSub partition.usageBytes replaced.value.length)
      "cache usage includes every retained entry"
    return { partition with usageBytes, entries := partition.erase key }

/-- Admits a block, if it can fit. -/
def insert (state : CacheState) (key : CacheKey) (value : Bytes) :
    Except Abort (Bool × CacheState) :=
  if (state.partition key.kind.partition).capacityBytes < value.length then .ok (false, state)
  else do
    let (stamp, state) ← state.bumpStamp
    let partition ← removeReplaced (state.partition key.kind.partition) key
    let partition ← partition.evictUntilFits value.length
    let usageBytes ← expect (checkedAdd partition.usageBytes value.length)
      "cache admission was checked against partition capacity"
    let admitted := state.setPartition key.kind.partition { partition with
      usageBytes
      entries := (key, ⟨value, stamp⟩) :: partition.entries
      admissions := saturatingSucc partition.admissions }
    -- Both maps are in one address space.
    if admitted.count < usizeRange then return (true, admitted) else throw .outOfMemory

end CacheState

/-! ## Calls -/

inductive CacheCall where
  | get (key : CacheKey)
  | insert (key : CacheKey) (value : Bytes)

inductive CacheResponse where
  | got (value : Option Bytes)
  | admitted (fit : Bool)
  deriving DecidableEq

namespace CacheCall

/-- The partition a call is about. -/
def partition : CacheCall → CachePartition
  | get key => key.kind.partition
  | insert key _ => key.kind.partition

/-- What the ideal cache does. -/
def ideal (capacity : ℕ) : CacheCall → List (CacheKey × Bytes) →
    CacheResponse × List (CacheKey × Bytes)
  | get key, entries => (.got (Lru.get key entries).1, (Lru.get key entries).2)
  | insert key value, entries =>
    (.admitted (Lru.insert List.length capacity key value entries).1,
      (Lru.insert List.length capacity key value entries).2)

end CacheCall

namespace CacheState

def step (state : CacheState) : CacheCall → Except Abort (CacheResponse × CacheState)
  | .get key => do
    let (value, state) ← state.get key
    return (.got value, state)
  | .insert key value => do
    let (fit, state) ← state.insert key value
    return (.admitted fit, state)

/-- One call after the other. -/
def run (state : CacheState) : List CacheCall → Except Abort (List CacheResponse × CacheState)
  | [] => .ok ([], state)
  | call :: calls => do
    let (response, state) ← state.step call
    let (responses, state) ← state.run calls
    return (response :: responses, state)

end CacheState

/-! ## One partition -/

/-- The stamp of an entry. -/
def stampOf (entry : CacheKey × CacheEntry) : ℕ := entry.2.stamp

/-- An entry without its stamp. -/
def unstamped (entry : CacheKey × CacheEntry) : CacheKey × Bytes := (entry.1, entry.2.value)

private theorem map_fst_unstamped (entries : List (CacheKey × CacheEntry)) :
    (entries.map unstamped).map Prod.fst = entries.map Prod.fst := by
  rw [List.map_map]
  rfl

private theorem remove_map_unstamped (key : CacheKey) (entries : List (CacheKey × CacheEntry)) :
    remove key (entries.map unstamped) = (remove key entries).map unstamped :=
  List.filter_map ..

/-- A partition holds an ideal list: its entries in the order of their stamps. -/
structure PartitionState.Holds (partition : PartitionState) (capacity : ℕ)
    (ideal : List (CacheKey × Bytes)) : Prop where
  capacity_eq : partition.capacityBytes = capacity
  ordered : ∃ ordered, Ordered stampOf partition.entries ordered ∧ ordered.map unstamped = ideal
  nodup : (ideal.map Prod.fst).Nodup
  usage : partition.usageBytes = held List.length ideal
  fits : held List.length ideal ≤ capacity

namespace PartitionState.Holds

variable {partition : PartitionState} {capacity stamp : ℕ} {ideal : List (CacheKey × Bytes)}
  {key : CacheKey} {value : Bytes}

theorem perm (h : partition.Holds capacity ideal) :
    (partition.entries.map unstamped).Perm ideal := by
  obtain ⟨ordered, hordered, rfl⟩ := h.ordered
  exact (hordered.perm.map unstamped).symm

private theorem nodup_entries (h : partition.Holds capacity ideal) :
    (partition.entries.map Prod.fst).Nodup := by
  rw [← map_fst_unstamped]
  exact ((h.perm.map Prod.fst).nodup_iff).mpr h.nodup

theorem lookup_eq (h : partition.Holds capacity ideal) :
    (partition.find key).map CacheEntry.value = lookup key ideal := by
  have hfind : partition.find key = lookup key partition.entries := rfl
  rw [hfind]
  cases hlookup : lookup key partition.entries with
  | none =>
    refine (lookup_eq_none.mpr fun hmem ↦ lookup_eq_none.mp hlookup ?_).symm
    rw [← map_fst_unstamped]
    exact (h.perm.map Prod.fst).symm.subset hmem
  | some entry =>
    have hmem := (lookup_eq_some h.nodup_entries).mp hlookup
    refine ((lookup_eq_some h.nodup).mpr (h.perm.subset ?_)).symm
    exact List.mem_map_of_mem (f := unstamped) hmem

/-- The statistics of a partition do not matter. -/
theorem congr {other : PartitionState} (h : partition.Holds capacity ideal)
    (hcapacity : other.capacityBytes = partition.capacityBytes)
    (husage : other.usageBytes = partition.usageBytes)
    (hentries : other.entries = partition.entries) : other.Holds capacity ideal :=
  ⟨hcapacity.trans h.capacity_eq, hentries ▸ h.ordered, h.nodup, husage.trans h.usage, h.fits⟩

theorem erase (h : partition.Holds capacity ideal) {entry : CacheEntry}
    (hfind : partition.find key = some entry) :
    ∃ usageBytes, checkedSub partition.usageBytes entry.value.length = some usageBytes ∧
      ({ partition with usageBytes, entries := partition.erase key } : PartitionState).Holds
        capacity (remove key ideal) := by
  have hlookup : lookup key ideal = some entry.value := by rw [← h.lookup_eq, hfind]; rfl
  have hperm := remove_perm h.nodup ((lookup_eq_some h.nodup).mp hlookup)
  have hheld := held_perm List.length hperm
  rw [held_append, show held List.length [(key, entry.value)] = entry.value.length from
    Nat.add_zero _] at hheld
  have hfits := h.fits
  have husage := h.usage
  refine ⟨_, if_pos (by omega), h.capacity_eq, ?_, ?_, ?_, ?_⟩
  · obtain ⟨ordered, hordered, rfl⟩ := h.ordered
    exact ⟨_, hordered.filter _, (remove_map_unstamped key ordered).symm⟩
  · exact h.nodup.sublist (List.filter_sublist.map _)
  · show partition.usageBytes - entry.value.length = _
    omega
  · omega

/-- A hit gives its entry the largest stamp. -/
theorem touch (h : partition.Holds capacity ideal)
    (hfresh : ∀ entry ∈ partition.entries, stampOf entry < stamp) {entry : CacheEntry}
    (hfind : partition.find key = some entry) :
    (partition.setStamp key stamp).Holds capacity (remove key ideal ++ [(key, entry.value)]) := by
  have hlookup : lookup key ideal = some entry.value := by rw [← h.lookup_eq, hfind]; rfl
  have hperm := remove_perm h.nodup ((lookup_eq_some h.nodup).mp hlookup)
  refine ⟨h.capacity_eq, ?_, ((hperm.map Prod.fst).nodup_iff).mpr h.nodup, ?_, ?_⟩
  · obtain ⟨ordered, hordered, rfl⟩ := h.ordered
    have hpush := (hordered.filter fun entry ↦ decide (entry.1 ≠ key)).push
      (a := (key, ⟨entry.value, stamp⟩))
      fun other hother ↦ hfresh other (List.mem_filter.mp hother).1
    refine ⟨_, hpush.of_perm ?_, ?_⟩
    · have hmem := (lookup_eq_some h.nodup_entries).mp hfind
      have hkept := (remove_perm h.nodup_entries hmem).map fun other : CacheKey × CacheEntry ↦
        if other.1 = key then (key, { other.2 with stamp }) else other
      rw [List.map_append, List.map_singleton, if_pos rfl, List.map_congr_left (g := id),
        List.map_id] at hkept
      · exact (List.perm_append_singleton _ _).symm.trans hkept
      · intro other hother
        exact if_neg (of_decide_eq_true (List.mem_filter.mp hother).2)
    · rw [List.map_append, List.map_singleton, remove_map_unstamped]
      rfl
  · rw [held_perm List.length hperm]
    exact h.usage
  · rw [held_perm List.length hperm]
    exact h.fits

/-- The oldest entry is the first one of the ideal list. -/
theorem oldest_eq {rest : List (CacheKey × Bytes)}
    (h : partition.Holds capacity ((key, value) :: rest)) : partition.oldest = some key := by
  obtain ⟨ordered, hordered, hideal⟩ := h.ordered
  obtain ⟨first, rest', rfl, hfirst, -⟩ := List.map_eq_cons_iff.mp hideal
  have hmem : first ∈ partition.entries := hordered.perm.subset (List.mem_cons_self ..)
  unfold PartitionState.oldest
  cases hmin : partition.entries.argmin fun entry ↦ toLex (entry.2.stamp, entry.1) with
  | none =>
    rw [List.argmin_eq_none.mp hmin] at hmem
    exact absurd hmem List.not_mem_nil
  | some least =>
    have hle := List.le_of_mem_argmin hmem hmin
    have hstamp : stampOf least ≤ stampOf first := by
      rcases Prod.Lex.toLex_le_toLex.mp hle with hlt | ⟨heq, -⟩
      · exact le_of_lt hlt
      · exact heq.le
    rw [hordered.eq_of_le (List.argmin_mem hmin) hstamp]
    exact congrArg some (congrArg Prod.fst hfirst)

private theorem evictOldest {rest : List (CacheKey × Bytes)}
    (h : partition.Holds capacity ((key, value) :: rest)) :
    ∃ evicted, partition.evictOldest = .ok evicted ∧ evicted.Holds capacity rest ∧
      evicted.entries ⊆ partition.entries := by
  have hlookup : (partition.find key).map CacheEntry.value = _ := h.lookup_eq
  rw [(lookup_eq_some h.nodup).mpr (List.mem_cons_self ..)] at hlookup
  obtain ⟨entry, hfind, -⟩ := Option.map_eq_some_iff.mp hlookup
  obtain ⟨usageBytes, husage, hholds⟩ := h.erase hfind
  have hnot : key ∉ rest.map Prod.fst := (List.nodup_cons.mp h.nodup).1
  have hrest : remove key ((key, value) :: rest) = rest := by
    rw [remove, List.filter_cons_of_neg (by simp)]
    exact remove_of_not_mem hnot
  rw [hrest] at hholds
  refine ⟨_, ?_, hholds, List.filter_sublist.subset⟩
  unfold PartitionState.evictOldest
  rw [h.oldest_eq]
  show (expect (partition.find key) _ >>= _) = _
  rw [hfind]
  show (expect (checkedSub partition.usageBytes entry.value.length) _ >>= _) = _
  rw [husage]
  rfl

/-- The eviction loop ends, with what the ideal cache keeps. -/
theorem evictUntilFits {need : ℕ} (hneed : need ≤ capacity) (h : partition.Holds capacity ideal) :
    ∃ evicted, partition.evictUntilFits need = .ok evicted ∧
      evicted.Holds capacity (evict List.length capacity need ideal) ∧
      evicted.entries ⊆ partition.entries := by
  induction ideal generalizing partition with
  | nil =>
    have hfits : fitsInBudget partition.usageBytes need partition.capacityBytes = true := by
      rw [h.usage, h.capacity_eq]
      exact decide_eq_true hneed
    rw [PartitionState.evictUntilFits, if_pos hfits]
    exact ⟨_, rfl, h, List.Subset.refl _⟩
  | cons first rest ih =>
    have hfits := h.fits
    have hiff : fitsInBudget partition.usageBytes need partition.capacityBytes = true ↔
        held List.length (first :: rest) + need ≤ capacity := by
      rw [h.usage, h.capacity_eq]
      unfold fitsInBudget
      rw [decide_eq_true_iff]
      omega
    rw [PartitionState.evictUntilFits, evict]
    by_cases hroom : held List.length (first :: rest) + need ≤ capacity
    · rw [if_pos (hiff.mpr hroom), if_pos hroom]
      exact ⟨_, rfl, h, List.Subset.refl _⟩
    · rw [if_neg (mt hiff.mp hroom), if_neg hroom]
      obtain ⟨evicted, hevict, hholds, hsub⟩ := h.evictOldest
      have hcounted : ({ evicted with
          evictions := saturatingSucc evicted.evictions } : PartitionState).Holds capacity rest :=
        hholds.congr rfl rfl rfl
      obtain ⟨final, hfinal, hideal, hsub'⟩ := ih hcounted
      refine ⟨final, ?_, hideal, List.Subset.trans hsub' hsub⟩
      split
      next abort herror =>
        rw [hevict] at herror
        cases herror
      next evicted' hok =>
        obtain rfl := Except.ok.inj (hevict.symm.trans hok)
        exact hfinal

/-- A new entry with the largest stamp. -/
theorem push (h : partition.Holds capacity ideal)
    (hfresh : ∀ entry ∈ partition.entries, stampOf entry < stamp)
    (hkey : key ∉ ideal.map Prod.fst) (hroom : held List.length ideal + value.length ≤ capacity)
    (admissions : ℕ) :
    ({ partition with
      usageBytes := partition.usageBytes + value.length
      entries := (key, ⟨value, stamp⟩) :: partition.entries
      admissions } : PartitionState).Holds capacity (ideal ++ [(key, value)]) := by
  have hheld : held List.length (ideal ++ [(key, value)])
      = held List.length ideal + value.length := by
    rw [held_append]
    rfl
  refine ⟨h.capacity_eq, ?_, ?_, ?_, hheld ▸ hroom⟩
  · obtain ⟨ordered, hordered, rfl⟩ := h.ordered
    refine ⟨_, hordered.push hfresh, ?_⟩
    rw [List.map_append]
    rfl
  · rw [List.map_append, List.map_singleton]
    exact List.nodup_append.mpr ⟨h.nodup, List.nodup_singleton _, fun a ha b hb ↦ by
      rw [List.mem_singleton.mp hb]
      rintro rfl
      exact hkey ha⟩
  · rw [hheld, ← h.usage]

end PartitionState.Holds

/-! ## Ranks become stamps -/

/-- Other stamps for the entries of a partition. -/
def PartitionState.restamp (partition : PartitionState) (rank : CacheKey → ℕ → ℕ) :
    PartitionState :=
  { partition with
    entries := partition.entries.map fun entry ↦
      (entry.1, { entry.2 with stamp := rank entry.1 entry.2.stamp }) }

/-- A partition with other stamps holds the same list if the order of the stamps is kept. -/
theorem PartitionState.Holds.restamp {partition : PartitionState} {capacity : ℕ}
    {ideal : List (CacheKey × Bytes)} (h : partition.Holds capacity ideal)
    {rank : CacheKey → ℕ → ℕ} (hmono : ∀ a ∈ partition.entries, ∀ b ∈ partition.entries,
      stampOf a < stampOf b → rank a.1 a.2.stamp < rank b.1 b.2.stamp) :
    (partition.restamp rank).Holds capacity ideal := by
  refine ⟨h.capacity_eq, ?_, h.nodup, h.usage, h.fits⟩
  obtain ⟨ordered, hordered, rfl⟩ := h.ordered
  exact ⟨_, hordered.map hmono, by rw [List.map_map]; rfl⟩

namespace CacheState

variable {state : CacheState}

/-- An entry to be ranked, as it is sorted. -/
abbrev RankItem := ℕ ×ₗ CachePartition ×ₗ CacheKey

/-- The partition and the key of an entry to be ranked. -/
def RankItem.place (item : RankItem) : CachePartition × CacheKey := ofLex (ofLex item).2

/-- Other stamps for all entries. -/
def restamp (state : CacheState) (rank : CachePartition → CacheKey → ℕ → ℕ) : CacheState where
  metadata := state.metadata.restamp (rank .metadata)
  data := state.data.restamp (rank .data)
  nextStamp := state.nextStamp

private theorem partition_restamp (rank : CachePartition → CacheKey → ℕ → ℕ)
    (which : CachePartition) :
    (state.restamp rank).partition which = (state.partition which).restamp (rank which) := by
  cases which <;> rfl

private theorem restamp_restamp (rank rank' : CachePartition → CacheKey → ℕ → ℕ) :
    (state.restamp rank).restamp rank'
      = state.restamp fun which key stamp ↦ rank' which key (rank which key stamp) := by
  simp only [restamp, PartitionState.restamp, List.map_map]
  rfl

/-- The keys of a partition. -/
def keys (state : CacheState) (which : CachePartition) : List CacheKey :=
  (state.partition which).entries.map Prod.fst

private theorem keys_restamp (rank : CachePartition → CacheKey → ℕ → ℕ) (which : CachePartition) :
    (state.restamp rank).keys which = state.keys which := by
  rw [keys, partition_restamp, PartitionState.restamp, List.map_map]
  rfl

/-- The stamp that a list of ranked entries assigns. -/
def assign (items : List (RankItem × ℕ)) (which : CachePartition) (key : CacheKey) (old : ℕ) : ℕ :=
  match items.find? fun item ↦ item.1.place = (which, key) with
  | some item => min item.2 maxStamp
  | none => old

private theorem setStamp_eq_ok {which : CachePartition} {key : CacheKey}
    (h : key ∈ state.keys which)
    (stamp : ℕ) : state.setStamp which key stamp = .ok (state.restamp fun which' key' old ↦
      if which' = which ∧ key' = key then stamp else old) := by
  have hfind : ∃ entry, (state.partition which).find key = some entry := by
    refine Option.ne_none_iff_exists'.mp fun hnone ↦ ?_
    exact lookup_eq_none.mp (show lookup key (state.partition which).entries = none from hnone) h
  obtain ⟨entry, hfind⟩ := hfind
  have hsame : ∀ partition : PartitionState, partition.restamp (fun _ old ↦ old) = partition := by
    intro partition
    unfold PartitionState.restamp
    simp
  have hset : ∀ partition : PartitionState, partition.setStamp key stamp
      = partition.restamp fun key' old ↦ if key' = key then stamp else old := by
    intro partition
    unfold PartitionState.setStamp PartitionState.restamp
    congr 1
    refine List.map_congr_left fun entry _ ↦ ?_
    by_cases hkey : entry.1 = key
    · simp only [hkey, if_true]
    · simp only [hkey, if_false]
  unfold setStamp
  rw [hfind]
  show Except.ok _ = Except.ok _
  congr 1
  rw [hset]
  cases which
  · simp only [restamp, setPartition, partition, true_and, reduceCtorEq, false_and, if_false, hsame]
  · simp only [restamp, setPartition, partition, true_and, reduceCtorEq, false_and, if_false, hsame]

/-- Assigning ranks one after the other. -/
theorem foldlM_setStamp {items : List (RankItem × ℕ)}
    (hnodup : (items.map fun item ↦ item.1.place).Nodup)
    (hkeys : ∀ item ∈ items, item.1.place.2 ∈ state.keys item.1.place.1) :
    items.foldlM (fun state item ↦
      state.setStamp item.1.place.1 item.1.place.2 (min item.2 maxStamp)) state
      = .ok (state.restamp (assign items)) := by
  induction items generalizing state with
  | nil =>
    show Except.ok state = Except.ok (state.restamp fun _ _ old ↦ old)
    unfold restamp PartitionState.restamp
    simp
  | cons item rest ih =>
    obtain ⟨hnot, hrest⟩ := List.nodup_cons.mp hnodup
    rw [List.foldlM_cons, setStamp_eq_ok (hkeys item (List.mem_cons_self ..))]
    refine (ih hrest fun other hother ↦ ?_).trans ?_
    · rw [keys_restamp]
      exact hkeys other (List.mem_cons_of_mem _ hother)
    · rw [restamp_restamp]
      congr 2
      funext which key old
      unfold assign
      rw [List.find?_cons]
      by_cases hplace : item.1.place = (which, key)
      · -- The rest assigns nothing to this entry.
        have hnone : rest.find? (fun item ↦ item.1.place = (which, key)) = none := by
          refine List.find?_eq_none.mpr fun other hother heq ↦ hnot ?_
          show item.1.place ∈ _
          rw [hplace, ← of_decide_eq_true heq]
          exact List.mem_map_of_mem (f := fun item : RankItem × ℕ ↦ item.1.place) hother
        rw [hnone, decide_eq_true hplace, hplace]
        simp only [and_self, if_true]
      · rw [decide_eq_false hplace, if_neg]
        rintro ⟨rfl, rfl⟩
        exact hplace rfl

/-! ### The order of the ranks -/

private theorem mem_ranked {item : RankItem} : item ∈ state.ranked ↔
    ∃ which, ∃ entry ∈ (state.partition which).entries,
      item = toLex (stampOf entry, toLex (which, entry.1)) := by
  rw [ranked, List.mem_insertionSort, List.mem_append, List.mem_map, List.mem_map]
  constructor
  · rintro (⟨entry, hentry, rfl⟩ | ⟨entry, hentry, rfl⟩)
    · exact ⟨.metadata, entry, hentry, rfl⟩
    · exact ⟨.data, entry, hentry, rfl⟩
  · rintro ⟨_ | _, entry, hentry, rfl⟩
    · exact .inl ⟨entry, hentry, rfl⟩
    · exact .inr ⟨entry, hentry, rfl⟩

private theorem length_ranked : state.ranked.length = state.count := by
  rw [ranked, List.length_insertionSort, List.length_append, List.length_map, List.length_map]
  rfl

private theorem nodup_place (hnodup : ∀ which, (state.keys which).Nodup) :
    (state.ranked.map RankItem.place).Nodup := by
  have hperm := (List.perm_insertionSort (· ≤ ·) ((state.metadata.entries.map fun entry ↦
      toLex (entry.2.stamp, toLex (CachePartition.metadata, entry.1)))
    ++ state.data.entries.map fun entry ↦
      toLex (entry.2.stamp, toLex (CachePartition.data, entry.1)))).map RankItem.place
  refine hperm.nodup_iff.mpr ?_
  rw [List.map_append, List.map_map, List.map_map]
  have hpair : ∀ which, (state.keys which).map (Prod.mk which)
      = (state.partition which).entries.map fun entry ↦ (which, entry.1) := by
    intro which
    rw [keys, List.map_map]
    rfl
  refine List.nodup_append.mpr ⟨?_, ?_, ?_⟩
  · have := (hnodup .metadata).map (Prod.mk_right_injective CachePartition.metadata)
    rwa [hpair] at this
  · have := (hnodup .data).map (Prod.mk_right_injective CachePartition.data)
    rwa [hpair] at this
  · intro a ha b hb
    obtain ⟨_, -, rfl⟩ := List.mem_map.mp ha
    obtain ⟨_, -, rfl⟩ := List.mem_map.mp hb
    intro heq
    cases congrArg Prod.fst heq

private theorem nodup_place_zipIdx (hnodup : ∀ which, (state.keys which).Nodup) :
    (state.ranked.zipIdx.map fun item ↦ RankItem.place item.1).Nodup := by
  have hplaces := nodup_place hnodup
  rw [← List.zipIdx_map_fst 0 state.ranked, List.map_map] at hplaces
  exact hplaces

/-- The stamp an entry gets is its place in the ranking. -/
theorem assign_ranked (hnodup : ∀ which, (state.keys which).Nodup)
    (hcount : state.count < usizeRange) {which : CachePartition} {entry : CacheKey × CacheEntry}
    (hentry : entry ∈ (state.partition which).entries) (old : ℕ) :
    ∃ rank, state.ranked[rank]? = some (toLex (stampOf entry, toLex (which, entry.1))) ∧
      rank < state.count ∧ assign state.ranked.zipIdx which entry.1 old = rank := by
  obtain ⟨rank, hrank⟩ := List.mem_iff_getElem?.mp (mem_ranked.mpr ⟨which, entry, hentry, rfl⟩)
  have hlt : rank < state.count := by
    rw [← length_ranked]
    exact (List.getElem?_eq_some_iff.mp hrank).1
  refine ⟨rank, hrank, hlt, ?_⟩
  have hmem := List.mk_mem_zipIdx_iff_getElem?.mpr hrank
  obtain ⟨found, hfind⟩ : ∃ found, (state.ranked.zipIdx.find? fun item ↦
      RankItem.place item.1 = (which, entry.1)) = some found :=
    Option.isSome_iff_exists.mp (List.find?_isSome.mpr ⟨_, hmem, decide_eq_true rfl⟩)
  -- No other entry has this partition and this key.
  have hplace : RankItem.place found.1 = (which, entry.1) :=
    of_decide_eq_true (List.find?_some hfind :)
  obtain rfl := List.inj_on_of_nodup_map (nodup_place_zipIdx hnodup)
    (List.mem_of_find?_eq_some hfind) hmem hplace
  unfold assign
  rw [hfind]
  have hmax : maxStamp + 1 = usizeRange := rfl
  exact min_eq_left (by omega)

/-- An entry with a smaller stamp gets a smaller stamp. -/
theorem assign_lt_assign (hnodup : ∀ which, (state.keys which).Nodup)
    (hcount : state.count < usizeRange) {which : CachePartition} {a b : CacheKey × CacheEntry}
    (ha : a ∈ (state.partition which).entries) (hb : b ∈ (state.partition which).entries)
    (hlt : stampOf a < stampOf b) :
    assign state.ranked.zipIdx which a.1 a.2.stamp
      < assign state.ranked.zipIdx which b.1 b.2.stamp := by
  obtain ⟨rank, hrank, -, hassign⟩ := assign_ranked hnodup hcount ha a.2.stamp
  obtain ⟨rank', hrank', -, hassign'⟩ := assign_ranked hnodup hcount hb b.2.stamp
  rw [hassign, hassign']
  by_contra hle
  obtain ⟨hbound, hget⟩ := List.getElem?_eq_some_iff.mp hrank
  obtain ⟨hbound', hget'⟩ := List.getElem?_eq_some_iff.mp hrank'
  have hitems : toLex (stampOf a, toLex (which, a.1)) < toLex (stampOf b, toLex (which, b.1)) :=
    Prod.Lex.toLex_lt_toLex.mpr (.inl hlt)
  rw [← hget, ← hget'] at hitems
  have hsorted : state.ranked.Pairwise (· ≤ ·) := List.pairwise_insertionSort _ _
  rcases Nat.lt_or_ge rank' rank with hbefore | hsame
  · exact absurd hitems (not_lt.mpr (List.pairwise_iff_getElem.mp hsorted _ _ hbound' hbound
      hbefore))
  · obtain rfl : rank = rank' := by omega
    exact lt_irrefl _ hitems

/-- The capacity of a partition. -/
def capacityOf (totalBytes : ℕ) : CachePartition → ℕ
  | .metadata => totalBytes / 5
  | .data => totalBytes - totalBytes / 5

/-- Both partitions hold ideal lists. -/
def Holds (state : CacheState) (totalBytes : ℕ)
    (ideal : CachePartition → List (CacheKey × Bytes)) : Prop :=
  ∀ which, (state.partition which).Holds (capacityOf totalBytes which) (ideal which)

private theorem renormalizeStamps_eq_ok {totalBytes : ℕ}
    {ideal : CachePartition → List (CacheKey × Bytes)}
    (h : state.Holds totalBytes ideal) (hcount : state.count < usizeRange) :
    ∃ state', state.renormalizeStamps = .ok state' ∧ state'.Holds totalBytes ideal ∧
      state'.count = state.count ∧ state'.nextStamp = state.count ∧
      ∀ which, ∀ entry ∈ (state'.partition which).entries, stampOf entry < state.count := by
  have hnodup : ∀ which, (state.keys which).Nodup := fun which ↦ (h which).nodup_entries
  have hkeys : ∀ item ∈ state.ranked.zipIdx,
      (RankItem.place item.1).2 ∈ state.keys (RankItem.place item.1).1 := by
    intro item hitem
    have hmem := List.mem_of_getElem? (List.mem_zipIdx_iff_getElem?.mp hitem)
    obtain ⟨which, entry, hentry, heq⟩ := mem_ranked.mp hmem
    rw [heq]
    exact List.mem_map_of_mem hentry
  have hfold := foldlM_setStamp (nodup_place_zipIdx hnodup) hkeys
  have hsame : (state.restamp (assign state.ranked.zipIdx)).count = state.count := by
    unfold count restamp PartitionState.restamp
    rw [List.length_map, List.length_map]
  have hmax : maxStamp + 1 = usizeRange := rfl
  refine ⟨{ state.restamp (assign state.ranked.zipIdx) with nextStamp := state.count }, ?_,
    fun which ↦ ?_, hsame, rfl, fun which entry hentry ↦ ?_⟩
  · unfold renormalizeStamps
    refine (congrArg (· >>= _) hfold).trans ?_
    show Except.ok _ = Except.ok _
    rw [hsame, min_eq_left (by omega)]
  · have hholds := (h which).restamp fun a ha b hb hlt ↦ assign_lt_assign hnodup hcount ha hb hlt
    cases which <;> exact hholds
  · have hentry' : entry ∈ ((state.partition which).restamp
        (assign state.ranked.zipIdx which)).entries := by
      cases which <;> exact hentry
    obtain ⟨old, hold, rfl⟩ := List.mem_map.mp hentry'
    obtain ⟨rank, -, hlt, hassign⟩ := assign_ranked hnodup hcount hold old.2.stamp
    exact hassign ▸ hlt

/-! ## Calls refine the ideal cache -/

/-- The state between calls. A stamp reaches the counter only when the counter has stopped, and then
the stamps are replaced before the next one is given. -/
structure Inv (state : CacheState) (totalBytes : ℕ)
    (ideal : CachePartition → List (CacheKey × Bytes)) : Prop where
  holds : state.Holds totalBytes ideal
  next_le : state.nextStamp ≤ maxStamp
  stamps : ∀ which, ∀ entry ∈ (state.partition which).entries,
    stampOf entry < state.nextStamp ∨ state.nextStamp = maxStamp
  count_lt : state.count < usizeRange

variable {totalBytes : ℕ} {ideal : CachePartition → List (CacheKey × Bytes)}

private theorem partition_withNext (next : ℕ) (which : CachePartition) :
    ({ state with nextStamp := next } : CacheState).partition which = state.partition which := by
  cases which <;> rfl

/-- A stamp above all others is always found. -/
theorem Inv.bumpStamp (h : state.Inv totalBytes ideal) :
    ∃ stamp state', state.bumpStamp = .ok (stamp, state') ∧ state'.Holds totalBytes ideal ∧
      state'.count = state.count ∧ stamp ≤ maxStamp ∧ state'.nextStamp = saturatingSucc stamp ∧
      ∀ which, ∀ entry ∈ (state'.partition which).entries, stampOf entry < stamp := by
  have hmax : maxStamp + 1 = usizeRange := rfl
  unfold CacheState.bumpStamp
  by_cases hfull : state.nextStamp = maxStamp
  · obtain ⟨state', hrenormalize, hholds, hcount, hnext, hstamps⟩ :=
      renormalizeStamps_eq_ok h.holds h.count_lt
    rw [if_pos hfull, hrenormalize]
    have hlt := h.count_lt
    refine ⟨_, _, rfl, fun which ↦ ?_, hcount, ?_, rfl, fun which entry hentry ↦ ?_⟩
    · rw [partition_withNext]
      exact hholds which
    · rw [hnext]
      omega
    · rw [partition_withNext] at hentry
      rw [hnext]
      exact hstamps which entry hentry
  · rw [if_neg hfull]
    refine ⟨_, _, rfl, fun which ↦ ?_, rfl, h.next_le, rfl, fun which entry hentry ↦ ?_⟩
    · rw [partition_withNext]
      exact h.holds which
    · rw [partition_withNext] at hentry
      exact (h.stamps which entry hentry).resolve_right hfull

private theorem partition_setPartition_self (which : CachePartition) (partition : PartitionState) :
    (state.setPartition which partition).partition which = partition := by
  cases which <;> rfl

private theorem partition_setPartition_of_ne {which other : CachePartition} (h : other ≠ which)
    (partition : PartitionState) :
    (state.setPartition which partition).partition other = state.partition other := by
  cases which <;> cases other <;> first | rfl | exact absurd rfl h

private theorem nextStamp_setPartition (which : CachePartition) (partition : PartitionState) :
    (state.setPartition which partition).nextStamp = state.nextStamp := by
  cases which <;> rfl

/-- A call that changes one partition, and leaves the other alone. -/
theorem Holds.setPartition (h : state.Holds totalBytes ideal) {which : CachePartition}
    {partition : PartitionState} {entries : List (CacheKey × Bytes)}
    (hpartition : partition.Holds (capacityOf totalBytes which) entries) :
    (state.setPartition which partition).Holds totalBytes
    (Function.update ideal which entries) := by
  intro other
  by_cases hother : other = which
  · subst hother
    rwa [partition_setPartition_self, Function.update_self]
  · rw [partition_setPartition_of_ne hother, Function.update_of_ne hother]
    exact h other

/-- The invariant holds again after a call that gave the new stamp at most. -/
theorem Inv.of_setPartition {stamp : ℕ} (hholds : state.Holds totalBytes ideal)
    (hstamp : stamp ≤ maxStamp) (hnext : state.nextStamp = saturatingSucc stamp)
    (hstamps : ∀ which, ∀ entry ∈ (state.partition which).entries, stampOf entry < stamp)
    {which : CachePartition} {partition : PartitionState} {entries : List (CacheKey × Bytes)}
    (hpartition : partition.Holds (capacityOf totalBytes which) entries)
    (hentries : ∀ entry ∈ partition.entries, stampOf entry ≤ stamp)
    (hcount : (state.setPartition which partition).count < usizeRange) :
    (state.setPartition which partition).Inv totalBytes (Function.update ideal which entries) := by
  refine ⟨hholds.setPartition hpartition, ?_, fun other entry hentry ↦ ?_, hcount⟩
  · rw [nextStamp_setPartition, hnext]
    exact min_le_right _ _
  · have hle : stampOf entry ≤ stamp := by
      by_cases hother : other = which
      · subst hother
        rw [partition_setPartition_self] at hentry
        exact hentries entry hentry
      · rw [partition_setPartition_of_ne hother] at hentry
        exact (hstamps other entry hentry).le
    rw [nextStamp_setPartition, hnext]
    unfold saturatingSucc
    omega

private theorem count_setPartition (which : CachePartition) {partition : PartitionState}
    (h : partition.entries.length = (state.partition which).entries.length) :
    (state.setPartition which partition).count = state.count := by
  cases which
  · exact congrArg (· + state.data.entries.length) h
  · exact congrArg (state.metadata.entries.length + ·) h

section Get

variable {stamp : ℕ} {bumped : CacheState} {key : CacheKey}

private theorem get_of_miss (hbump : state.bumpStamp = .ok (stamp, bumped))
    (hfind : (bumped.partition key.kind.partition).find key = none) :
    state.get key = .ok (none, bumped.setPartition key.kind.partition
      { bumped.partition key.kind.partition with
        misses := saturatingSucc (bumped.partition key.kind.partition).misses }) := by
  unfold CacheState.get
  rw [hbump]
  simp only [bind, Except.bind, hfind]
  rfl

private theorem get_of_hit {entry : CacheEntry} (hbump : state.bumpStamp = .ok (stamp, bumped))
    (hfind : (bumped.partition key.kind.partition).find key = some entry) :
    state.get key = .ok (some entry.value, bumped.setPartition key.kind.partition
      { (bumped.partition key.kind.partition).setStamp key stamp with
        hits := saturatingSucc
          ((bumped.partition key.kind.partition).setStamp key stamp).hits }) := by
  unfold CacheState.get
  rw [hbump]
  simp only [bind, Except.bind, hfind]
  rfl

end Get

theorem Inv.get (h : state.Inv totalBytes ideal) (key : CacheKey) :
    ∃ state', state.get key = .ok ((Lru.get key (ideal key.kind.partition)).1, state') ∧
      state'.Inv totalBytes (Function.update ideal key.kind.partition
        (Lru.get key (ideal key.kind.partition)).2) := by
  obtain ⟨stamp, bumped, hbump, hholds, hcount, hstamp, hnext, hstamps⟩ := h.bumpStamp
  have hlookup : ((bumped.partition key.kind.partition).find key).map CacheEntry.value = _ :=
    (hholds key.kind.partition).lookup_eq
  have hlt := h.count_lt
  unfold Lru.get
  cases hfind : (bumped.partition key.kind.partition).find key with
  | none =>
    rw [hfind] at hlookup
    rw [← hlookup]
    refine ⟨_, get_of_miss hbump hfind, Inv.of_setPartition hholds hstamp hnext hstamps
      ((hholds key.kind.partition).congr rfl rfl rfl)
      (fun entry hentry ↦ (hstamps _ entry hentry).le) ?_⟩
    exact lt_of_eq_of_lt (count_setPartition _ rfl) (hcount ▸ hlt)
  | some entry =>
    rw [hfind] at hlookup
    rw [← hlookup]
    refine ⟨_, get_of_hit hbump hfind, Inv.of_setPartition hholds hstamp hnext hstamps
      (((hholds key.kind.partition).touch (hstamps _) hfind).congr rfl rfl rfl)
      (fun entry hentry ↦ ?_) ?_⟩
    · obtain ⟨old, hold, rfl⟩ := List.mem_map.mp hentry
      split_ifs
      · exact le_refl stamp
      · exact (hstamps _ old hold).le
    · exact lt_of_eq_of_lt (count_setPartition _ (List.length_map ..)) (hcount ▸ hlt)

private theorem Holds.count_eq (h : state.Holds totalBytes ideal) :
    state.count = (ideal .metadata).length + (ideal .data).length := by
  have hmetadata := (h .metadata).perm.length_eq
  have hdata := (h .data).perm.length_eq
  rw [List.length_map] at hmetadata hdata
  exact congrArg₂ (· + ·) hmetadata hdata

private theorem removeReplaced_eq_ok {partition : PartitionState} {capacity : ℕ}
    {entries : List (CacheKey × Bytes)} (h : partition.Holds capacity entries) (key : CacheKey) :
    ∃ removed, removeReplaced partition key = .ok removed ∧
      removed.Holds capacity (remove key entries) ∧ removed.entries ⊆ partition.entries := by
  unfold removeReplaced
  have hlookup : (partition.find key).map CacheEntry.value = _ := h.lookup_eq
  cases hfind : partition.find key with
  | none =>
    rw [hfind] at hlookup
    refine ⟨partition, rfl, ?_, List.Subset.refl _⟩
    rwa [remove_of_not_mem (lookup_eq_none.mp hlookup.symm)]
  | some replaced =>
    obtain ⟨usageBytes, husage, hholds⟩ := h.erase hfind
    refine ⟨_, ?_, hholds, List.filter_sublist.subset⟩
    show (expect (checkedSub partition.usageBytes replaced.value.length) _ >>= _) = _
    rw [husage]
    rfl

private theorem insert_of_fits {stamp : ℕ} {bumped : CacheState} {removed evicted : PartitionState}
    {key : CacheKey} {value : Bytes}
    (hcapacity : ¬(state.partition key.kind.partition).capacityBytes < value.length)
    (hbump : state.bumpStamp = .ok (stamp, bumped))
    (hremove : removeReplaced (bumped.partition key.kind.partition) key = .ok removed)
    (hevict : removed.evictUntilFits value.length = .ok evicted)
    (hadd : checkedAdd evicted.usageBytes value.length
      = some (evicted.usageBytes + value.length)) :
    state.insert key value =
      let admitted := bumped.setPartition key.kind.partition { evicted with
        usageBytes := evicted.usageBytes + value.length
        entries := (key, ⟨value, stamp⟩) :: evicted.entries
        admissions := saturatingSucc evicted.admissions }
      if admitted.count < usizeRange then .ok (true, admitted) else .error .outOfMemory := by
  unfold CacheState.insert
  rw [if_neg hcapacity, hbump]
  simp only [bind, Except.bind, hremove, hevict, hadd]
  rfl

/-- The list of the ideal cache after an insertion. -/
def inserted (totalBytes : ℕ) (ideal : CachePartition → List (CacheKey × Bytes)) (key : CacheKey)
    (value : Bytes) : CachePartition → List (CacheKey × Bytes) :=
  Function.update ideal key.kind.partition (Lru.insert List.length
    (capacityOf totalBytes key.kind.partition) key value (ideal key.kind.partition)).2

private theorem capacityOf_le (totalBytes : ℕ) (which : CachePartition) :
    capacityOf totalBytes which ≤ totalBytes := by
  cases which
  · exact Nat.div_le_self _ _
  · exact Nat.sub_le _ _

/-- An insertion does what the ideal cache does, unless the entries would not fit into memory. -/
theorem Inv.insert (htotal : totalBytes < usizeRange) (h : state.Inv totalBytes ideal)
    (key : CacheKey) (value : Bytes) :
    (∃ state', state.insert key value
        = .ok ((Lru.insert List.length (capacityOf totalBytes key.kind.partition) key value
          (ideal key.kind.partition)).1, state') ∧
      state'.Inv totalBytes (inserted totalBytes ideal key value)) ∨
    state.insert key value = .error .outOfMemory ∧
      usizeRange ≤ (inserted totalBytes ideal key value .metadata).length
        + (inserted totalBytes ideal key value .data).length := by
  have hcapacity := (h.holds key.kind.partition).capacity_eq
  unfold inserted Lru.insert
  by_cases hlarge : capacityOf totalBytes key.kind.partition < value.length
  · rw [if_pos hlarge]
    refine .inl ⟨state, if_pos (hcapacity ▸ hlarge), ?_⟩
    rwa [Function.update_eq_self]
  rw [if_neg hlarge]
  obtain ⟨stamp, bumped, hbump, hholds, -, hstamp, hnext, hstamps⟩ := h.bumpStamp
  obtain ⟨removed, hremove, hremoved, hsub⟩ :=
    removeReplaced_eq_ok (hholds key.kind.partition) key
  obtain ⟨evicted, hevict, hevicted, hsub'⟩ := hremoved.evictUntilFits (not_lt.mp hlarge)
  have hroom := held_evict_le List.length (not_lt.mp hlarge)
    (remove key (ideal key.kind.partition))
  have hadd : checkedAdd evicted.usageBytes value.length
      = some (evicted.usageBytes + value.length) := by
    refine checkedAdd_eq_some.mpr ⟨rfl, ?_⟩
    have := capacityOf_le totalBytes key.kind.partition
    rw [hevicted.usage]
    omega
  have hfresh : ∀ entry ∈ evicted.entries, stampOf entry < stamp :=
    fun entry hentry ↦ hstamps _ entry (hsub (hsub' hentry))
  have hkey : key ∉ (evict List.length (capacityOf totalBytes key.kind.partition) value.length
      (remove key (ideal key.kind.partition))).map Prod.fst := fun hmem ↦
    not_mem_remove key _ (List.map_subset Prod.fst (evict_suffix List.length _ _ _).subset hmem)
  have hpush := hevicted.push hfresh hkey hroom (saturatingSucc evicted.admissions)
  rw [insert_of_fits (fun hlt ↦ hlarge (hcapacity ▸ hlt)) hbump hremove hevict hadd]
  dsimp only
  split_ifs with hmemory
  · refine .inl ⟨_, rfl, Inv.of_setPartition hholds hstamp hnext hstamps hpush ?_ hmemory⟩
    intro entry hentry
    rcases List.mem_cons.mp hentry with rfl | hentry
    · exact le_refl stamp
    · exact (hfresh entry hentry).le
  · refine .inr ⟨rfl, ?_⟩
    rw [← (hholds.setPartition hpush).count_eq]
    exact not_lt.mp hmemory

/-! ## Runs -/

/-- The list of the ideal cache of a partition after calls. -/
def idealEntries (totalBytes : ℕ) (calls : List CacheCall) (which : CachePartition) :
    List (CacheKey × Bytes) :=
  (calls.filter fun call ↦ call.partition = which).foldl
    (fun entries call ↦ (call.ideal (capacityOf totalBytes which) entries).2) []

/-- What the ideal caches answer to calls, after others. -/
def idealResponses (totalBytes : ℕ) (before : List CacheCall) : List CacheCall → List CacheResponse
  | [] => []
  | call :: calls =>
    (call.ideal (capacityOf totalBytes call.partition)
      (idealEntries totalBytes before call.partition)).1
      :: idealResponses totalBytes (before ++ [call]) calls

private theorem idealEntries_append_singleton (totalBytes : ℕ) (calls : List CacheCall)
    (call : CacheCall) :
    idealEntries totalBytes (calls ++ [call]) = Function.update (idealEntries totalBytes calls)
      call.partition (call.ideal (capacityOf totalBytes call.partition)
        (idealEntries totalBytes calls call.partition)).2 := by
  funext which
  by_cases hwhich : which = call.partition
  · subst hwhich
    rw [Function.update_self, idealEntries, List.filter_append, List.filter_singleton,
      decide_eq_true rfl, List.foldl_append]
    rfl
  · rw [Function.update_of_ne hwhich, idealEntries, List.filter_append, List.filter_singleton,
      decide_eq_false (Ne.symm hwhich)]
    simp [idealEntries]

/-- One call. -/
theorem Inv.step (htotal : totalBytes < usizeRange) {calls : List CacheCall}
    (h : state.Inv totalBytes (idealEntries totalBytes calls)) (call : CacheCall) :
    (∃ state', state.step call = .ok ((call.ideal (capacityOf totalBytes call.partition)
          (idealEntries totalBytes calls call.partition)).1, state') ∧
      state'.Inv totalBytes (idealEntries totalBytes (calls ++ [call]))) ∨
    state.step call = .error .outOfMemory ∧
      usizeRange ≤ (idealEntries totalBytes (calls ++ [call]) .metadata).length
        + (idealEntries totalBytes (calls ++ [call]) .data).length := by
  rw [idealEntries_append_singleton]
  cases call with
  | get key =>
    obtain ⟨state', hget, hinv⟩ := h.get key
    refine .inl ⟨state', ?_, hinv⟩
    rw [CacheState.step, hget]
    rfl
  | insert key value =>
    rcases h.insert htotal key value with ⟨state', hinsert, hinv⟩ | ⟨hinsert, hmemory⟩
    · refine .inl ⟨state', ?_, hinv⟩
      rw [CacheState.step, hinsert]
      rfl
    · refine .inr ⟨?_, hmemory⟩
      rw [CacheState.step, hinsert]
      rfl

theorem Inv.new (totalBytes : ℕ) :
    (⟨.new (totalBytes / 5), .new (totalBytes - totalBytes / 5), 0⟩ : CacheState).Inv totalBytes
      (idealEntries totalBytes []) := by
  refine ⟨fun which ↦ ?_, Nat.zero_le _, fun which entry hentry ↦ ?_,
    (by decide : 0 < usizeRange)⟩
  · cases which <;>
      exact ⟨rfl, ⟨[], Ordered.nil, rfl⟩, List.nodup_nil, rfl, Nat.zero_le _⟩
  · cases which <;> exact absurd hentry List.not_mem_nil

/-- A run that was begun after other calls. -/
theorem Inv.run (htotal : totalBytes < usizeRange) {before : List CacheCall}
    (h : state.Inv totalBytes (idealEntries totalBytes before)) (calls : List CacheCall) :
    (∃ state', state.run calls = .ok (idealResponses totalBytes before calls, state') ∧
      state'.Inv totalBytes (idealEntries totalBytes (before ++ calls))) ∨
    state.run calls = .error .outOfMemory ∧ ∃ front, front <+: calls ∧
      usizeRange ≤ (idealEntries totalBytes (before ++ front) .metadata).length
        + (idealEntries totalBytes (before ++ front) .data).length := by
  induction calls generalizing before state with
  | nil =>
    refine .inl ⟨state, rfl, ?_⟩
    rwa [List.append_nil]
  | cons call calls ih =>
    rw [CacheState.run, idealResponses]
    rcases h.step htotal call with ⟨next, hstep, hnext⟩ | ⟨hstep, hmemory⟩
    · rw [hstep]
      rcases ih hnext with ⟨final, hrun, hfinal⟩ | ⟨hrun, front, hfront, hmemory⟩
      · refine .inl ⟨final, ?_, ?_⟩
        · show (next.run calls >>= _) = _
          rw [hrun]
          rfl
        · rwa [List.append_assoc] at hfinal
      · refine .inr ⟨?_, call :: front, List.cons_prefix_cons.mpr ⟨rfl, hfront⟩, ?_⟩
        · show (next.run calls >>= _) = _
          rw [hrun]
          rfl
        · rwa [List.append_assoc] at hmemory
    · rw [hstep]
      exact .inr ⟨rfl, [call], List.cons_prefix_cons.mpr ⟨rfl, List.nil_prefix⟩, hmemory⟩

/-- **The block cache is two ideal caches.** However many calls are made, they answer as the ideal
cache of their partition does after the earlier calls of that partition; each partition holds the
entries of its ideal cache and charges their sizes, which stay within its capacity; and no call
panics. A run ends early only if the ideal caches hold `2 ^ 64` entries, more than can be
addressed. -/
theorem run_refines (totalBytes : ℕ) (hpos : 0 < totalBytes) (htotal : totalBytes < usizeRange)
    (calls : List CacheCall) :
    ∃ start, CacheState.new totalBytes = .ok start ∧
      ((∃ state, start.run calls = .ok (idealResponses totalBytes [] calls, state) ∧ ∀ which,
          ((state.partition which).entries.map unstamped).Perm
            (idealEntries totalBytes calls which) ∧
          (state.partition which).capacityBytes = capacityOf totalBytes which ∧
          (state.partition which).usageBytes
            = held List.length ((state.partition which).entries.map unstamped) ∧
          (state.partition which).usageBytes ≤ (state.partition which).capacityBytes) ∨
        start.run calls = .error .outOfMemory ∧ ∃ front, front <+: calls ∧
          usizeRange ≤ (idealEntries totalBytes front .metadata).length
            + (idealEntries totalBytes front .data).length) := by
  refine ⟨_, if_neg hpos.ne', ?_⟩
  rcases (Inv.new totalBytes).run htotal calls with ⟨state, hrun, hinv⟩ | hmemory
  · refine .inl ⟨state, hrun, fun which ↦ ?_⟩
    have hholds := hinv.holds which
    refine ⟨hholds.perm, hholds.capacity_eq, ?_, ?_⟩
    · rw [hholds.usage, held_perm List.length hholds.perm]
    · rw [hholds.usage, hholds.capacity_eq]
      exact hholds.fits
  · exact .inr hmemory

/-- Two metadata blocks, of two bytes and of one, and an empty data block. -/
def fewCalls : List CacheCall :=
  [.insert ⟨1, 0, .index⟩ [7, 7], .insert ⟨1, 9, .filter⟩ [8], .insert ⟨1, 2, .data⟩ [],
    .get ⟨1, 0, .index⟩, .get ⟨1, 9, .filter⟩]

/-- A cache of ten bytes has two for metadata, so that the second block drives the first one out. -/
theorem run_refines_tenBytes :
    ∃ start state, CacheState.new 10 = .ok start ∧
      start.run fewCalls = .ok ([.admitted true, .admitted true, .admitted true, .got none,
        .got (some [8])], state) ∧
      ((state.partition .metadata).entries.map unstamped).Perm [(⟨1, 9, .filter⟩, [8])] ∧
      ((state.partition .data).entries.map unstamped).Perm [(⟨1, 2, .data⟩, [])] := by
  obtain ⟨start, hstart, ⟨state, hrun, hstate⟩ | ⟨-, front, hfront, hmemory⟩⟩ :=
    run_refines 10 (by decide) (by decide) fewCalls
  · exact ⟨start, state, hstart, hrun, (hstate .metadata).1, (hstate .data).1⟩
  · -- Five calls do not fill the memory.
    exfalso
    revert hmemory
    rw [List.prefix_iff_eq_take.mp hfront]
    have hlength := hfront.length_le
    generalize front.length = count at hlength
    revert count
    decide +kernel

end CacheState

end MeteorDB
