import MeteorDB.Lib.MergeIter
import MeteorDB.Memtable
import MeteorDB.Version

/-!
# Scans

A scan merges the memtables and tables that may hold keys within its bounds and yields, for each
user key in order, the value of its newest visible version. `referenceScan` says what that is for:
it lists the user keys of all entries in ascending order and looks each of them up.

The iterator looks one entry ahead, since only the first entry of the next user key shows that all
versions of the current one have been seen. A child that fails may therefore fail while a user key
is being gathered, and the iterator then reports the error in place of a pair that a later version
might have changed. `KvIterator.next_cases` says what one call can do, and
`scanFromState_output` what all calls on a fresh iterator yield.
-/

namespace MeteorDB

open ByteString OrderedList MergeIter

/-! ## Bounds -/

/-- One end of a range of keys. -/
inductive Bound where
  | included (key : Bytes)
  | excluded (key : Bytes)
  | unbounded
  deriving DecidableEq

/-- The lower and the upper user-key bound of a forward scan. -/
structure ScanBounds where
  start : Bound
  stop : Bound
  deriving DecidableEq

def lowerAllows (bounds : ScanBounds) (key : Bytes) : Bool :=
  match bounds.start with
  | .included start => start ≤ key
  | .excluded start => start < key
  | .unbounded => true

def upperAllows (bounds : ScanBounds) (key : Bytes) : Bool :=
  match bounds.stop with
  | .included stop => key ≤ stop
  | .excluded stop => key < stop
  | .unbounded => true

def userKeyInBounds (bounds : ScanBounds) (key : Bytes) : Bool :=
  lowerAllows bounds key && upperAllows bounds key

/-- Whether a table from `smallest` to `largest` may hold keys within the bounds. -/
def overlapsBounds (smallest largest : Bytes) (bounds : ScanBounds) : Bool :=
  (match bounds.start with
    | .included start => start ≤ largest
    | .excluded start => start < largest
    | .unbounded => true) &&
  (match bounds.stop with
    | .included stop => smallest ≤ stop
    | .excluded stop => smallest < stop
    | .unbounded => true)

/-- A key within the bounds and within a table shows that the two overlap. -/
theorem overlapsBounds_of_mem {smallest largest key : Bytes} {bounds : ScanBounds}
    (hsmallest : smallest ≤ key) (hlargest : key ≤ largest)
    (h : userKeyInBounds bounds key = true) : overlapsBounds smallest largest bounds = true := by
  obtain ⟨start, stop⟩ := bounds
  rw [userKeyInBounds, Bool.and_eq_true] at h
  rw [overlapsBounds, Bool.and_eq_true]
  constructor
  · cases start with
    | included start => exact decide_eq_true ((of_decide_eq_true h.1).trans hlargest)
    | excluded start => exact decide_eq_true ((of_decide_eq_true h.1).trans_le hlargest)
    | unbounded => rfl
  · cases stop with
    | included stop => exact decide_eq_true (hsmallest.trans (of_decide_eq_true h.2))
    | excluded stop => exact decide_eq_true (hsmallest.trans_lt (of_decide_eq_true h.2))
    | unbounded => rfl

/-- Past the upper bound no key is allowed. -/
theorem upperAllows_of_le {bounds : ScanBounds} {key key' : Bytes} (hle : key ≤ key')
    (h : upperAllows bounds key' = true) : upperAllows bounds key = true := by
  obtain ⟨start, stop⟩ := bounds
  cases stop with
  | included stop => exact decide_eq_true (hle.trans (of_decide_eq_true h))
  | excluded stop => exact decide_eq_true (hle.trans_lt (of_decide_eq_true h))
  | unbounded => rfl

/-! ### Prefixes -/

/-- The last position that satisfies a test. -/
def rposition (test : Byte → Bool) (bytes : Bytes) : Option ℕ :=
  (List.range bytes.length).reverse.find? fun index ↦ (bytes[index]?).any test

/-- The least string above all strings that begin with `front`, if there is one. -/
def prefixSuccessor (front : Bytes) : Option Bytes := do
  let index ← rposition (· ≠ 0xff) front
  return (front.modify index (· + 1)).take (index + 1)

/-- The bounds of a scan over the keys that begin with `front`. -/
def prefixBounds (front : Bytes) : ScanBounds :=
  ⟨.included front,
    match prefixSuccessor front with
    | some successor => .excluded successor
    | none => .unbounded⟩

private theorem rposition_concat (test : Byte → Bool) (bytes : Bytes) (byte : Byte) :
    rposition test (bytes ++ [byte]) = if test byte then some bytes.length
      else rposition test bytes := by
  have hlast : ((bytes ++ [byte])[bytes.length]?).any test = test byte := by
    rw [List.getElem?_concat_length]
    rfl
  have hfront : (List.range bytes.length).reverse.find?
      (fun index ↦ ((bytes ++ [byte])[index]?).any test) = rposition test bytes := by
    refine List.find?_congr fun index hindex ↦ ?_
    rw [List.getElem?_append_left (List.mem_range.mp (List.mem_reverse.mp hindex))]
  rw [rposition, List.length_append, List.length_singleton, List.range_succ, List.reverse_append,
    List.reverse_singleton, List.singleton_append, List.find?_cons, hlast, hfront]
  cases test byte <;> rfl

private theorem rposition_lt {test : Byte → Bool} {bytes : Bytes} {index : ℕ}
    (h : rposition test bytes = some index) : index < bytes.length :=
  List.mem_range.mp (List.mem_reverse.mp (List.mem_of_find?_eq_some h))

private theorem prefixSuccessor_concat_max (front : Bytes) :
    prefixSuccessor (front ++ [0xff]) = prefixSuccessor front := by
  unfold prefixSuccessor
  rw [rposition_concat, if_neg (by decide)]
  cases hposition : rposition (fun byte ↦ byte ≠ 0xff) front with
  | none => rfl
  | some index =>
    have hlt := rposition_lt hposition
    refine congrArg some ?_
    rw [List.take_modify, List.take_modify, List.take_append_of_le_length hlt]

private theorem modify_concat (front : Bytes) (byte : Byte) (f : Byte → Byte) :
    (front ++ [byte]).modify front.length f = front ++ [f byte] := by
  induction front with
  | nil => rfl
  | cons first front ih =>
    rw [List.cons_append, List.length_cons, List.modify_succ_cons, ih, List.cons_append]

private theorem prefixSuccessor_concat {byte : Byte} (h : byte ≠ 0xff) (front : Bytes) :
    prefixSuccessor (front ++ [byte]) = some (front ++ [byte + 1]) := by
  unfold prefixSuccessor
  rw [rposition_concat, if_pos (decide_eq_true h)]
  refine congrArg some ?_
  rw [modify_concat, List.take_of_length_le]
  rw [List.length_append, List.length_singleton]

/-- What begins with a byte lies between it and the next one. -/
theorem singleton_isPrefix_iff {byte : Byte} (h : byte ≠ 0xff) {rest : Bytes} :
    [byte] <+: rest ↔ [byte] ≤ rest ∧ rest < [byte + 1] := by
  have hval : (byte + 1).val = byte.val + 1 := by
    have hne : byte.val ≠ 255 := fun heq ↦ h (Fin.ext heq)
    rw [Fin.val_add]
    exact Nat.mod_eq_of_lt (by have := byte.isLt; omega)
  cases rest with
  | nil => exact iff_of_false (by simp) fun h ↦ absurd h.1 (not_le.mpr (List.nil_lt_cons _ _))
  | cons first rest =>
    rw [List.cons_prefix_cons, ← not_lt, List.cons_lt_cons_iff, List.cons_lt_cons_iff, Fin.lt_def,
      Fin.lt_def, hval, Fin.ext_iff]
    constructor
    · rintro ⟨heq, -⟩
      refine ⟨?_, .inl (by omega)⟩
      rintro (hlt | ⟨-, hnil⟩)
      · omega
      · exact List.not_lt_nil _ hnil
    · rintro ⟨hlower, hupper | ⟨-, hnil⟩⟩
      · refine ⟨?_, List.nil_prefix⟩
        have := not_or.mp hlower
        omega
      · exact absurd hnil (List.not_lt_nil _)

/-- The largest byte is below nothing that does not begin with it. -/
theorem singleton_max_isPrefix_iff {rest : Bytes} : [(0xff : Byte)] <+: rest ↔ [0xff] ≤ rest := by
  cases rest with
  | nil => exact iff_of_false (by simp) (not_le.mpr (List.nil_lt_cons _ _))
  | cons first rest =>
    rw [List.cons_prefix_cons, ← not_lt, List.cons_lt_cons_iff]
    constructor
    · rintro ⟨rfl, -⟩ (hlt | ⟨-, hnil⟩)
      · exact lt_irrefl _ hlt
      · exact List.not_lt_nil _ hnil
    · intro hlower
      refine ⟨le_antisymm (not_lt.mp (not_or.mp hlower).1) ?_, List.nil_prefix⟩
      exact Nat.le_of_lt_succ first.isLt

private theorem isPrefix_iff (front key : Bytes) :
    front <+: key ↔ front ≤ key ∧ ∀ successor ∈ prefixSuccessor front, key < successor := by
  -- The successor is computed from the right end of the prefix, and so is the induction.
  induction front using List.reverseRecOn with
  | nil =>
    exact iff_of_true List.nil_prefix ⟨le_append [] key, nofun⟩
  | append_singleton front byte ih =>
    have hsplit : front <+: key ↔ ∃ rest, key = front ++ rest :=
      exists_congr fun rest ↦ eq_comm
    have hfront : front ≤ front ++ [byte] := (lt_append_of_ne_nil front (List.cons_ne_nil _ _)).le
    by_cases hmax : byte = 0xff
    · subst hmax
      rw [prefixSuccessor_concat_max]
      constructor
      · intro h
        obtain ⟨rest, rfl⟩ := h
        refine ⟨le_append .., fun successor hsuccessor ↦ ?_⟩
        exact (ih.mp ⟨_, (List.append_assoc ..).symm⟩).2 successor hsuccessor
      · rintro ⟨hlower, hupper⟩
        obtain ⟨rest, rfl⟩ := hsplit.mp (ih.mpr ⟨hfront.trans hlower, hupper⟩)
        rw [append_le_append_left] at hlower
        exact (List.prefix_append_right_inj front).mpr (singleton_max_isPrefix_iff.mpr hlower)
    · rw [prefixSuccessor_concat hmax]
      constructor
      · rintro ⟨rest, rfl⟩
        rw [List.append_assoc]
        have hbetween := (singleton_isPrefix_iff hmax).mp (List.prefix_append [byte] rest)
        refine ⟨append_le_append_left.mpr hbetween.1, fun successor hsuccessor ↦ ?_⟩
        obtain rfl := Option.some.inj hsuccessor
        exact append_lt_append_left.mpr hbetween.2
      · rintro ⟨hlower, hupper⟩
        have hlt := hupper _ rfl
        obtain ⟨rest, rfl, -, -⟩ := between_append hlower hlt.le
        rw [append_le_append_left] at hlower
        rw [append_lt_append_left] at hlt
        exact (List.prefix_append_right_inj front).mpr
          ((singleton_isPrefix_iff hmax).mpr ⟨hlower, hlt⟩)

/-- **Prefix scans.** The bounds of a prefix admit exactly the keys that begin with it. -/
theorem userKeyInBounds_prefixBounds (front key : Bytes) :
    userKeyInBounds (prefixBounds front) key = true ↔ front <+: key := by
  rw [isPrefix_iff, userKeyInBounds, Bool.and_eq_true]
  unfold prefixBounds lowerAllows upperAllows
  refine and_congr decide_eq_true_iff ?_
  cases prefixSuccessor front with
  | none => exact iff_of_true rfl nofun
  | some successor =>
    exact decide_eq_true_iff.trans ⟨fun h other hother ↦ Option.some.inj hother ▸ h,
      fun h ↦ h successor rfl⟩

-- a prefix that ends in the largest byte, and one that has no successor
example : prefixSuccessor [1, 0xff, 0xff] = some [2] ∧ prefixSuccessor [0xff, 0xff] = none := by
  decide

/-! ## The iterator -/

/-- A merger of entries, in the order of their internal keys. -/
abbrev Merged := Merger Error InternalEntry

/-- A merged forward iterator over visible pairs. -/
structure KvIterator where
  merged : Merged
  bounds : ScanBounds
  sequence : SequenceNumber
  readTimeUnixMs : U64
  remaining : ℕ
  failed : Bool
  pending : Option InternalEntry

/-- Takes an entry into account for the newest version not above a sequence. -/
def considerVisible (sequence : SequenceNumber)
    (newest : Option (SequenceNumber × ValueRecord)) (entry : InternalEntry) :
    Option (SequenceNumber × ValueRecord) :=
  if entry.key.sequence ≤ sequence ∧ newest.all (·.1 < entry.key.sequence) then
    some (entry.key.sequence, entry.record)
  else newest

namespace KvIterator

def empty (bounds : ScanBounds) (sequence : SequenceNumber) (readTimeUnixMs : U64) : KvIterator :=
  ⟨Merger.new InternalEntry.key [], bounds, sequence, readTimeUnixMs, 0, false, none⟩

def new (children : List (List (Result InternalEntry))) (bounds : ScanBounds)
    (sequence : SequenceNumber) (readTimeUnixMs : U64) (limit : ℕ) : KvIterator :=
  ⟨Merger.new InternalEntry.key children, bounds, sequence, readTimeUnixMs, limit, false, none⟩

/-- Takes the entry that was looked at before, or else the next merged one. -/
def takeFirst (it : KvIterator) : Option (Result InternalEntry) × KvIterator :=
  match it.pending with
  | some entry => (some (.ok entry), { it with pending := none })
  | none =>
    let next := it.merged.next InternalEntry.key
    (next.1, { it with merged := next.2 })

/-- Gathers the versions of a user key. Returns the newest visible one, and the first entry of the
next user key or the error that came instead. -/
def gather (userKey : Bytes) (sequence : SequenceNumber)
    (newest : Option (SequenceNumber × ValueRecord)) (merged : Merged) :
    Option (SequenceNumber × ValueRecord) × Result (Option InternalEntry) × Merged :=
  match _h : merged.next InternalEntry.key with
  | (some (.ok entry), merged') =>
    if entry.key.userKey = userKey then
      gather userKey sequence (considerVisible sequence newest entry) merged'
    else (newest, .ok (some entry), merged')
  | (some (.error e), merged') => (newest, .error e, merged')
  | (none, merged') => (newest, .ok none, merged')
termination_by merged.size
decreasing_by exact Merger.size_next _h

/-- The entries an iterator still holds. -/
def size (it : KvIterator) : ℕ := it.merged.size + if it.pending.isSome then 1 else 0

def fail (it : KvIterator) (e : Error) : Option (Result (Bytes × Bytes)) × KvIterator :=
  (some (.error e), { it with failed := true })

private theorem size_gather {userKey : Bytes} {sequence : SequenceNumber}
    {newest newest' : Option (SequenceNumber × ValueRecord)} {merged merged' : Merged}
    {pending : Option InternalEntry}
    (h : gather userKey sequence newest merged = (newest', .ok pending, merged')) :
    merged'.size + (if pending.isSome then 1 else 0) ≤ merged.size := by
  induction newest, merged using gather.induct userKey sequence with
  | case1 newest merged entry merged₁ hnext huser ih =>
    rw [gather, hnext] at h
    simp only [if_pos huser] at h
    exact (ih h).trans (Merger.size_next hnext).le
  | case2 newest merged entry merged₁ hnext huser =>
    rw [gather, hnext] at h
    simp only [if_neg huser] at h
    cases h
    exact Merger.size_next hnext
  | case3 newest merged e merged₁ hnext =>
    rw [gather, hnext] at h
    cases h
  | case4 newest merged merged₁ hnext =>
    rw [gather, hnext] at h
    cases h
    rw [Merger.next_none hnext]
    exact le_rfl

private theorem size_takeFirst {it it' : KvIterator} {item : Result InternalEntry}
    (h : it.takeFirst = (some item, it')) : it'.merged.size < it.size := by
  unfold takeFirst at h
  split at h
  next entry hpending =>
    cases h
    simp [size, hpending]
  next hpending =>
    obtain ⟨hitem, rfl⟩ := Prod.ext_iff.mp h
    exact (Merger.size_next (Prod.ext hitem rfl)).trans_le (Nat.le_add_right _ _)

/-- Yields the pair of the next user key that is within the bounds and has a visible value. -/
def nextLoop (it : KvIterator) : Option (Result (Bytes × Bytes)) × KvIterator :=
  match _hfirst : it.takeFirst with
  | (none, it') => (none, it')
  | (some (.error e), it') => it'.fail e
  | (some (.ok first), it') =>
    let userKey := first.key.userKey
    match _hgather : gather userKey it'.sequence (considerVisible it'.sequence none first)
        it'.merged with
    | (_, .error e, merged) => { it' with merged }.fail e
    | (newest, .ok pending, merged) =>
      if ¬ lowerAllows it'.bounds userKey then nextLoop { it' with merged, pending }
      else if ¬ upperAllows it'.bounds userKey then (none, { it' with merged, pending })
      else
        match newest.bind fun (_, record) ↦ record.intoValue it'.readTimeUnixMs with
        | some value =>
          (some (.ok (userKey, value)),
            { it' with merged, pending, remaining := it'.remaining - 1 })
        | none => nextLoop { it' with merged, pending }
termination_by it.size
decreasing_by
  all_goals exact (size_gather _hgather).trans_lt (size_takeFirst _hfirst)

/-- The next visible pair, or an error, after which there is nothing. -/
def next (it : KvIterator) : Option (Result (Bytes × Bytes)) × KvIterator :=
  if it.failed ∨ it.remaining = 0 then (none, it) else it.nextLoop

/-- What the `n`-th call yields. -/
def output (it : KvIterator) : ℕ → Option (Result (Bytes × Bytes))
  | 0 => it.next.1
  | n + 1 => it.next.2.output n

end KvIterator

/-! ## Scans of a state -/

/-- The child of a scan for a memtable. -/
def memtableChild (bounds : ScanBounds) (table : MemTable) : List (Result InternalEntry) :=
  (table.ownedEntriesMatching fun key ↦ userKeyInBounds bounds key.userKey).map .ok

/-- The live tables of a version, level by level. -/
def Version.allFiles (version : Version) : List FileMeta :=
  (List.finRange numLevels).flatMap version.levels

/-- The iterator of a scan. Immutable memtables are given oldest first; `openTable` opens a table
and gives the stream of its entries. -/
def scanFromState (mutable : MemTable) (immutables : List MemTable) (version : Version)
    (openTable : FileMeta → Result (List (Result InternalEntry))) (bounds : ScanBounds) (limit : ℕ)
    (sequence : SequenceNumber) (readTimeUnixMs : U64) : Result KvIterator := do
  let memtables := (mutable :: immutables.reverse).map (memtableChild bounds)
  let files := version.allFiles.filter fun file ↦
    overlapsBounds file.smallest.userKey file.largest.userKey bounds
  let tables ← files.mapM openTable
  return .new (memtables ++ tables) bounds sequence readTimeUnixMs limit

/-! ## The reference scan -/

/-- The user keys of a list of entries, in ascending order. -/
def userKeys (entries : List InternalEntry) : List Bytes :=
  (entries.map (·.key.userKey)).toFinset.sort

theorem userKeys_eq {entries : List InternalEntry} {keys : List Bytes}
    (h : (entries.map (·.key.userKey)).toFinset = keys.toFinset)
    (hsorted : keys.Pairwise (· < ·)) : userKeys entries = keys := by
  rw [userKeys, h]
  exact (List.toFinset_sort _ (hsorted.imp ne_of_lt)).mpr (hsorted.imp le_of_lt)

/-- The pair a scan yields for a user key of an ordered list of entries. -/
def visiblePair (bounds : ScanBounds) (sequence : SequenceNumber) (readTimeUnixMs : U64)
    (entries : List InternalEntry) (userKey : Bytes) : Option (Bytes × Bytes) :=
  if userKeyInBounds bounds userKey then
    ((newest userKey sequence entries).bind fun entry ↦ entry.record.intoValue readTimeUnixMs).map
      fun value ↦ (userKey, value)
  else none

/-- The pairs a complete scan of an ordered list of entries yields. -/
def scanRun (bounds : ScanBounds) (sequence : SequenceNumber) (readTimeUnixMs : U64)
    (entries : List InternalEntry) : List (Bytes × Bytes) :=
  (userKeys entries).filterMap (visiblePair bounds sequence readTimeUnixMs entries)

/-- All entries of some sources, in key order. -/
def mergedEntries (sources : List (List InternalEntry)) : List InternalEntry :=
  sources.flatten.insertionSort fun a b ↦ a.key ≤ b.key

/-- The pairs a complete scan of some sources yields. -/
def referenceScan (bounds : ScanBounds) (sequence : SequenceNumber) (readTimeUnixMs : U64)
    (sources : List (List InternalEntry)) : List (Bytes × Bytes) :=
  scanRun bounds sequence readTimeUnixMs (mergedEntries sources)

private theorem scanRun_nil (bounds : ScanBounds) (sequence : SequenceNumber)
    (readTimeUnixMs : U64) : scanRun bounds sequence readTimeUnixMs [] = [] := by
  simp [scanRun, userKeys]

/-! ### One user key at a time -/

/-- The entries of one user key, in front of the entries of greater ones. -/
structure Group (userKey : Bytes) (group rest : List InternalEntry) : Prop where
  ne_nil : group ≠ []
  eq : ∀ entry ∈ group, entry.key.userKey = userKey
  lt : ∀ entry ∈ rest, userKey < entry.key.userKey

variable {bounds : ScanBounds} {sequence : SequenceNumber} {readTimeUnixMs : U64}
  {userKey : Bytes} {group rest : List InternalEntry}

theorem Group.userKeys_append (h : Group userKey group rest) :
    userKeys (group ++ rest) = userKey :: userKeys rest := by
  have hset : ((group ++ rest).map (·.key.userKey)).toFinset
      = Insert.insert userKey (rest.map (·.key.userKey)).toFinset := by
    ext k
    simp only [List.mem_toFinset, List.mem_map, List.mem_append, Finset.mem_insert]
    constructor
    · rintro ⟨entry, hentry | hentry, rfl⟩
      · exact .inl (h.eq entry hentry)
      · exact .inr ⟨entry, hentry, rfl⟩
    · rintro (rfl | ⟨entry, hentry, rfl⟩)
      · obtain ⟨entry, hentry⟩ := List.exists_mem_of_ne_nil group h.ne_nil
        exact ⟨entry, .inl hentry, h.eq entry hentry⟩
      · exact ⟨entry, .inr hentry, rfl⟩
  rw [userKeys, hset, userKeys, Finset.sort_insert]
  · intro k hk
    obtain ⟨entry, hentry, rfl⟩ := List.mem_map.mp (List.mem_toFinset.mp hk)
    exact (h.lt entry hentry).le
  · intro hk
    obtain ⟨entry, hentry, heq⟩ := List.mem_map.mp (List.mem_toFinset.mp hk)
    exact (h.lt entry hentry).ne' heq

private theorem Group.scanRun_append (h : Group userKey group rest) :
    scanRun bounds sequence readTimeUnixMs (group ++ rest)
      = (visiblePair bounds sequence readTimeUnixMs group userKey).toList
        ++ scanRun bounds sequence readTimeUnixMs rest := by
  have hfirst : newest userKey sequence (group ++ rest) = newest userKey sequence group := by
    have hnone : newest userKey sequence rest = none := by
      refine List.find?_eq_none.mpr fun entry hentry ↦ ?_
      simp [(h.lt entry hentry).ne']
    rw [newest_append, hnone, Option.or_none]
  have hlater : ∀ k ∈ userKeys rest,
      newest k sequence (group ++ rest) = newest k sequence rest := by
    intro k hk
    obtain ⟨entry, hentry, rfl⟩ :=
      List.mem_map.mp (List.mem_toFinset.mp ((Finset.mem_sort _).mp hk))
    have hnone : newest entry.key.userKey sequence group = none := by
      refine List.find?_eq_none.mpr fun other hother ↦ ?_
      simp [h.eq other hother, (h.lt entry hentry).ne]
    rw [newest_append, hnone, Option.none_or]
  have hfilter : (userKeys rest).filterMap
        (visiblePair bounds sequence readTimeUnixMs (group ++ rest))
      = scanRun bounds sequence readTimeUnixMs rest := by
    refine List.filterMap_congr fun k hk ↦ ?_
    rw [visiblePair, hlater k hk, visiblePair]
  have hpair : visiblePair bounds sequence readTimeUnixMs (group ++ rest) userKey
      = visiblePair bounds sequence readTimeUnixMs group userKey := by
    rw [visiblePair, hfirst, visiblePair]
  rw [scanRun, h.userKeys_append, List.filterMap_cons, hpair, hfilter]
  cases visiblePair bounds sequence readTimeUnixMs group userKey <;> rfl

/-- A run that is not empty starts with the group of its first user key. -/
theorem exists_group {first : InternalEntry} {entries : List InternalEntry}
    (hrun : Run (first :: entries)) :
    ∃ group rest, entries = group ++ rest ∧ Group first.key.userKey (first :: group) rest := by
  let same : InternalEntry → Bool := fun entry ↦ entry.key.userKey = first.key.userKey
  obtain ⟨hfirst, hentries⟩ := increasing_cons.mp hrun
  refine ⟨entries.takeWhile same, entries.dropWhile same,
    (List.takeWhile_append_dropWhile).symm, List.cons_ne_nil _ _, ?_, ?_⟩
  · intro entry hentry
    rcases List.mem_cons.mp hentry with rfl | hentry
    · rfl
    · have hsame : same entry = true := List.mem_takeWhile_imp hentry
      exact of_decide_eq_true hsame
  · cases hdrop : entries.dropWhile same with
    | nil => exact fun entry hentry ↦ absurd hentry List.not_mem_nil
    | cons next later =>
      have hsub : (next :: later).Sublist entries := hdrop ▸ List.dropWhile_sublist same
      have hne : next.key.userKey ≠ first.key.userKey := by
        have hnot : ∀ e ∈ (entries.dropWhile same).head?, same e = false := by
          intro e he
          have := List.head?_dropWhile_not same entries
          rw [Option.mem_def.mp he] at this
          simpa using this
        have hnext : same next = false := hnot next (by rw [hdrop]; rfl)
        exact of_decide_eq_false hnext
      have hlt : first.key.userKey < next.key.userKey :=
        lt_of_le_of_ne (InternalKey.userKey_le_of_le
          (hfirst next (hsub.subset (List.mem_cons_self ..))).le) hne.symm
      intro entry hentry
      rcases List.mem_cons.mp hentry with rfl | hentry
      · exact hlt
      · exact hlt.trans_le (InternalKey.userKey_le_of_le
          ((increasing_cons.mp (hentries.sublist hsub)).1 entry hentry).le)

/-- Considering the versions of one user key in order leaves the newest visible one. -/
theorem foldl_considerVisible (hrun : Run group)
    (h : ∀ entry ∈ group, entry.key.userKey = userKey) :
    group.foldl (considerVisible sequence) none
      = (newest userKey sequence group).map fun entry ↦ (entry.key.sequence, entry.record) := by
  have hkeep : ∀ {later : List InternalEntry} {kept : SequenceNumber × ValueRecord},
      (∀ entry ∈ later, entry.key.sequence ≤ kept.1) →
        later.foldl (considerVisible sequence) (some kept) = some kept := by
    intro later kept hle
    induction later with
    | nil => rfl
    | cons entry later ih =>
      rw [List.forall_mem_cons] at hle
      rw [List.foldl_cons, considerVisible, if_neg, ih hle.2]
      rintro ⟨-, hlt⟩
      exact absurd (of_decide_eq_true hlt) (not_lt.mpr hle.1)
  induction group with
  | nil => rfl
  | cons entry group ih =>
    obtain ⟨hentry, hgroup⟩ := List.forall_mem_cons.mp h
    have hsequence := List.pairwise_cons.mp hrun.sequence_le
    rw [List.foldl_cons, newest, considerVisible]
    by_cases hle : entry.key.sequence ≤ sequence
    · rw [if_pos ⟨hle, rfl⟩, List.find?_cons_of_pos (by simp [hentry, hle]), hkeep]
      · rfl
      · intro later hlater
        exact hsequence.1 later hlater (hentry.trans (hgroup later hlater).symm)
    · rw [if_neg fun h ↦ hle h.1, List.find?_cons_of_neg (by simp [hle])]
      exact ih (increasing_cons.mp hrun).2 hgroup

/-! ## What one call does -/

namespace KvIterator

private theorem gather_group (sequence : SequenceNumber)
    (kept : Option (SequenceNumber × ValueRecord))
    {merged : Merged} {stream : List (Result InternalEntry)}
    (h : ∀ entry ∈ group, entry.key.userKey = userKey)
    (hstreams : merged.Streams InternalEntry.key (group.map .ok ++ stream)) :
    ∃ merged', gather userKey sequence kept merged
        = gather userKey sequence (group.foldl (considerVisible sequence) kept) merged' ∧
      merged'.Streams InternalEntry.key stream := by
  induction group generalizing kept merged with
  | nil => exact ⟨merged, rfl, hstreams⟩
  | cons entry group ih =>
    obtain ⟨hentry, hgroup⟩ := List.forall_mem_cons.mp h
    obtain ⟨merged₁, hnext, hstreams₁⟩ := hstreams
    obtain ⟨merged', heq, hstreams'⟩ := ih (considerVisible sequence kept entry) hgroup hstreams₁
    refine ⟨merged', ?_, hstreams'⟩
    rw [gather, hnext]
    simp only [if_pos hentry]
    exact heq

/-- An iterator that has not failed and still gets the given entries, ahead of an error or of the
end. -/
structure Holds (it : KvIterator) (entries : List InternalEntry)
    (tail : List (Result InternalEntry)) : Prop where
  failed : it.failed = false
  streams : ∃ stream, it.merged.Streams InternalEntry.key stream ∧
    it.pending.toList.map .ok ++ stream = entries.map .ok ++ tail
  /-- Nothing, or one error. -/
  tail : tail = [] ∨ ∃ e, tail = [.error e]

variable {it : KvIterator} {entries : List InternalEntry} {tail : List (Result InternalEntry)}

private theorem Holds.takeFirst_cons {first : InternalEntry}
    (h : it.Holds (first :: entries) tail) :
    ∃ merged, it.takeFirst = (some (.ok first), { it with merged, pending := none }) ∧
      merged.Streams InternalEntry.key (entries.map .ok ++ tail) := by
  obtain ⟨stream, hstreams, heq⟩ := h.streams
  cases hpending : it.pending with
  | some entry =>
    rw [hpending] at heq
    obtain ⟨hentry, rfl⟩ := List.cons.inj heq
    obtain rfl := Except.ok.inj hentry
    exact ⟨it.merged, by rw [takeFirst, hpending], hstreams⟩
  | none =>
    simp only [hpending, Option.toList_none, List.map_nil, List.nil_append, List.map_cons,
      List.cons_append] at heq
    subst heq
    obtain ⟨merged, hnext, hstreams⟩ := hstreams
    refine ⟨merged, ?_, hstreams⟩
    rw [takeFirst, hpending]
    simp only [hnext]

private theorem Holds.takeFirst_nil (h : it.Holds [] tail) :
    it.takeFirst.1 = tail.head? ∧ (tail = [] → it.takeFirst.2 = it) := by
  obtain ⟨stream, hstreams, heq⟩ := h.streams
  have hpending : it.pending = none := by
    cases hpending : it.pending with
    | none => rfl
    | some entry =>
      rw [hpending] at heq
      rcases h.tail with rfl | ⟨e, rfl⟩ <;> cases heq
  rw [hpending] at heq
  obtain rfl : stream = tail := heq
  rcases h.tail with rfl | ⟨e, rfl⟩
  · have hnext : it.merged.next InternalEntry.key = (none, it.merged) := hstreams
    rw [takeFirst, hpending]
    simp only [hnext, List.head?_nil, true_and, forall_const]
    rw [← hpending]
  · obtain ⟨merged, hnext, -⟩ := hstreams
    rw [takeFirst, hpending]
    simp [hnext]

variable (it) in
/-- The pairs a complete scan with the parameters of an iterator yields. -/
abbrev pairs (entries : List InternalEntry) : List (Bytes × Bytes) :=
  scanRun it.bounds it.sequence it.readTimeUnixMs entries

/-- What a call can do to an iterator that holds `entries`, when `hidden` are the entries that an
error at the end of `entries` takes the place of. -/
inductive Outcome (it : KvIterator) (entries hidden : List InternalEntry)
    (tail : List (Result InternalEntry)) : Option (Result (Bytes × Bytes)) × KvIterator → Prop
  /-- A pair is yielded. -/
  | pair (merged : Merged) (pending : Option InternalEntry) (later : List InternalEntry)
      (pair : Bytes × Bytes) (hlater : later <:+ entries)
      (hholds : { it with merged, pending, remaining := it.remaining - 1 }.Holds later tail)
      (hpairs : it.pairs (entries ++ hidden) = pair :: it.pairs (later ++ hidden)) :
      Outcome it entries hidden tail
        (some (.ok pair), { it with merged, pending, remaining := it.remaining - 1 })
  /-- Nothing is left to yield. -/
  | done (merged : Merged) (pending : Option InternalEntry) (later : List InternalEntry)
      (hlater : later <:+ entries) (hholds : { it with merged, pending }.Holds later tail)
      (hpairs : it.pairs (entries ++ hidden) = []) (hnone : it.pairs (later ++ hidden) = []) :
      Outcome it entries hidden tail (none, { it with merged, pending })
  /-- The error of a child is reported. -/
  | failed (it' : KvIterator) (e : Error) (hfailed : it'.failed = true)
      (htail : tail = [.error e]) : Outcome it entries hidden tail (some (.error e), it')

/-- Gathering stops at the first entry of the next user key, at the end or at an error. -/
theorem gather_rest {kept : Option (SequenceNumber × ValueRecord)} {merged : Merged}
    (hfailed : it.failed = false) (htail : tail = [] ∨ ∃ e, tail = [.error e])
    (hstreams : merged.Streams InternalEntry.key (rest.map .ok ++ tail))
    (hrest : ∀ entry ∈ rest, userKey < entry.key.userKey) :
    (∃ pending merged', gather userKey sequence kept merged = (kept, .ok pending, merged') ∧
        { it with merged := merged', pending }.Holds rest tail ∧ (rest = [] → tail = [])) ∨
      ∃ e merged', rest = [] ∧ tail = [.error e] ∧
        gather userKey sequence kept merged = (kept, .error e, merged') := by
  cases rest with
  | cons entry rest =>
    obtain ⟨merged', hnext, hstreams⟩ := hstreams
    have hne : entry.key.userKey ≠ userKey := (hrest entry (List.mem_cons_self ..)).ne'
    refine .inl ⟨some entry, merged', ?_, ⟨hfailed, ⟨_, hstreams, rfl⟩, htail⟩, nofun⟩
    rw [gather, hnext]
    simp only [if_neg hne]
  | nil =>
    rcases htail with rfl | ⟨e, rfl⟩
    · have hnext : merged.next InternalEntry.key = (none, merged) := hstreams
      refine .inl ⟨none, merged, ?_, ⟨hfailed, ⟨[], hstreams, rfl⟩, .inl rfl⟩, fun _ ↦ rfl⟩
      rw [gather, hnext]
    · obtain ⟨merged', hnext, -⟩ := hstreams
      refine .inr ⟨e, merged', rfl, rfl, ?_⟩
      rw [gather, hnext]

variable {hidden : List InternalEntry}

/-- A user key without a pair is skipped. -/
theorem Outcome.skip {merged : Merged} {pending : Option InternalEntry}
    {result : Option (Result (Bytes × Bytes)) × KvIterator} {later : List InternalEntry}
    (h : Outcome { it with merged, pending } later hidden tail result) (hlater : later <:+ entries)
    (hpairs : it.pairs (entries ++ hidden) = it.pairs (later ++ hidden)) :
    Outcome it entries hidden tail result := by
  cases h with
  | pair merged' pending' later' pair hlater' hholds hpairs' =>
    exact .pair merged' pending' later' pair (hlater'.trans hlater) hholds (hpairs.trans hpairs')
  | done merged' pending' later' hlater' hholds hpairs' hnone =>
    exact .done merged' pending' later' (hlater'.trans hlater) hholds (hpairs.trans hpairs') hnone
  | failed it' e hfailed htail => exact .failed it' e hfailed htail

private theorem nextLoop_of_gather {first : InternalEntry} {merged merged' : Merged}
    {kept : Option (SequenceNumber × ValueRecord)} {pending : Option InternalEntry}
    (hfirst : it.takeFirst = (some (.ok first), { it with merged, pending := none }))
    (hgather : gather first.key.userKey it.sequence (considerVisible it.sequence none first) merged
      = (kept, .ok pending, merged')) :
    it.nextLoop =
      if ¬ lowerAllows it.bounds first.key.userKey then
        nextLoop { it with merged := merged', pending }
      else if ¬ upperAllows it.bounds first.key.userKey then
        (none, { it with merged := merged', pending })
      else
        match kept.bind fun (_, record) ↦ record.intoValue it.readTimeUnixMs with
        | some value => (some (.ok (first.key.userKey, value)),
            { it with merged := merged', pending, remaining := it.remaining - 1 })
        | none => nextLoop { it with merged := merged', pending } := by
  rw [nextLoop, hfirst]
  simp only
  rw [hgather]

/-- All keys from one past the upper bound on yield nothing. -/
theorem pairs_eq_nil {entries : List InternalEntry} (hupper : upperAllows it.bounds userKey = false)
    (h : ∀ entry ∈ entries, userKey ≤ entry.key.userKey) : it.pairs entries = [] := by
  refine List.filterMap_eq_nil_iff.mpr fun k hk ↦ ?_
  obtain ⟨entry, hentry, rfl⟩ :=
    List.mem_map.mp (List.mem_toFinset.mp ((Finset.mem_sort _).mp hk))
  have hnot : upperAllows it.bounds entry.key.userKey = false := by
    by_contra hne
    rw [upperAllows_of_le (h entry hentry) (by simpa using hne)] at hupper
    cases hupper
  rw [visiblePair, userKeyInBounds, hnot, Bool.and_false]
  rfl

/-- **What one call does.** -/
theorem nextLoop_outcome (hrun : Run (entries ++ hidden)) (hhidden : tail = [] → hidden = [])
    (h : it.Holds entries tail) : Outcome it entries hidden tail it.nextLoop := by
  induction hn : entries.length using Nat.strong_induction_on generalizing it entries with
  | _ n ih =>
  cases entries with
  | nil =>
    obtain ⟨hfirst, hsame⟩ := h.takeFirst_nil
    rcases h.tail with rfl | ⟨e, rfl⟩
    · have hloop : it.nextLoop = (none, it) := by
        have : it.takeFirst = (none, it) := Prod.ext hfirst (hsame rfl)
        rw [nextLoop, this]
      rw [hloop, hhidden rfl]
      have hnone : it.pairs [] = [] := scanRun_nil _ _ _
      exact .done it.merged it.pending [] (List.suffix_refl _) h hnone hnone
    · have hloop : it.nextLoop = it.takeFirst.2.fail e := by
        have : it.takeFirst = (some (.error e), it.takeFirst.2) := Prod.ext hfirst rfl
        rw [nextLoop, this]
      rw [hloop]
      exact .failed _ e rfl rfl
  | cons first entries =>
    obtain ⟨merged₁, hfirst, hstreams⟩ := h.takeFirst_cons
    obtain ⟨group, rest, rfl, hgroup⟩ := exists_group (hrun.sublist (List.sublist_append_left _ _))
    have hkept :
      (group.foldl (considerVisible it.sequence) (considerVisible it.sequence none first))
        = (newest first.key.userKey it.sequence (first :: group)).map
          fun entry ↦ (entry.key.sequence, entry.record) := by
      refine foldl_considerVisible (hrun.sublist ?_) hgroup.eq
      simp
    rw [List.map_append, List.append_assoc] at hstreams
    obtain ⟨merged₂, hgather, hstreams⟩ :=
      gather_group it.sequence (considerVisible it.sequence none first)
        (fun entry hentry ↦ hgroup.eq entry (List.mem_cons_of_mem first hentry)) hstreams
    rw [hkept] at hgather
    rcases gather_rest h.failed h.tail hstreams hgroup.lt with
      ⟨pending, merged₃, hgather₃, hholds, hend⟩ | ⟨e, merged₃, rfl, rfl, hgather₃⟩
    · have hrest : ∀ entry ∈ rest ++ hidden, first.key.userKey < entry.key.userKey := by
        cases rest with
        | nil =>
          rw [hhidden (hend rfl)]
          exact hgroup.lt
        | cons next rest =>
          have hnext := hgroup.lt next (List.mem_cons_self ..)
          have hrun' : Run (next :: (rest ++ hidden)) := hrun.sublist
            (List.sublist_append_right (first :: group) _ |>.trans (by simp))
          intro entry hentry
          rcases List.mem_cons.mp hentry with rfl | hentry
          · exact hnext
          · exact hnext.trans_le
              (InternalKey.userKey_le_of_le ((increasing_cons.mp hrun').1 entry hentry).le)
      have hpairs : it.pairs (first :: (group ++ rest) ++ hidden)
          = (visiblePair it.bounds it.sequence it.readTimeUnixMs (first :: group)
              first.key.userKey).toList ++ it.pairs (rest ++ hidden) := by
        have hgroup' : Group first.key.userKey (first :: group) (rest ++ hidden) :=
          ⟨hgroup.ne_nil, hgroup.eq, hrest⟩
        rw [← hgroup'.scanRun_append]
        simp
      have hsuffix : rest <:+ first :: (group ++ rest) := ⟨first :: group, rfl⟩
      have hskip (hnone : visiblePair it.bounds it.sequence it.readTimeUnixMs (first :: group)
          first.key.userKey = none) :
          Outcome it (first :: (group ++ rest)) hidden tail
            (nextLoop { it with merged := merged₃, pending }) := by
        rw [hnone] at hpairs
        refine Outcome.skip (ih rest.length ?_ (hrun.sublist ?_) hholds rfl) hsuffix hpairs
        · simp [← hn]
        · exact (hsuffix.sublist).append (List.Sublist.refl hidden)
      rw [nextLoop_of_gather hfirst (hgather.trans hgather₃)]
      by_cases hlower : lowerAllows it.bounds first.key.userKey
      case neg =>
        rw [if_pos hlower]
        refine hskip ?_
        rw [visiblePair, userKeyInBounds, Bool.eq_false_of_not_eq_true hlower]
        rfl
      rw [if_neg (not_not.mpr hlower)]
      by_cases hupper : upperAllows it.bounds first.key.userKey
      case neg =>
        rw [if_pos hupper]
        have hupper' := Bool.eq_false_of_not_eq_true hupper
        refine .done _ _ rest hsuffix hholds (pairs_eq_nil hupper' fun entry hentry ↦ ?_)
          (pairs_eq_nil hupper' fun entry hentry ↦ (hrest entry hentry).le)
        have hmem : entry ∈ first :: group ∨ entry ∈ rest ++ hidden := by
          simpa [or_assoc] using hentry
        rcases hmem with hmem | hmem
        · exact (hgroup.eq entry hmem).ge
        · exact (hrest entry hmem).le
      rw [if_neg (not_not.mpr hupper), Option.bind_map]
      have hpair : visiblePair it.bounds it.sequence it.readTimeUnixMs (first :: group)
          first.key.userKey
          = ((newest first.key.userKey it.sequence (first :: group)).bind fun entry ↦
              entry.record.intoValue it.readTimeUnixMs).map fun value ↦
                (first.key.userKey, value) := by
        rw [visiblePair, if_pos (by rw [userKeyInBounds, hlower, hupper]; rfl)]
      cases hvalue : (newest first.key.userKey it.sequence (first :: group)).bind fun entry ↦
          entry.record.intoValue it.readTimeUnixMs with
      | none =>
        rw [hvalue] at hpair
        simp only [Function.comp_def, hvalue]
        exact hskip hpair
      | some value =>
        rw [hvalue] at hpair
        simp only [Function.comp_def, hvalue]
        rw [hpair] at hpairs
        exact .pair merged₃ pending rest _ hsuffix ⟨hholds.failed, hholds.streams, hholds.tail⟩
          hpairs
    · have hloop : it.nextLoop = fail { it with merged := merged₃, pending := none } e := by
        rw [nextLoop, hfirst]
        simp only
        rw [hgather, hgather₃]
      rw [hloop]
      exact .failed _ e rfl rfl

/-! ## What all calls yield -/

theorem output_of_stopped (h : it.failed = true ∨ it.remaining = 0) (n : ℕ) :
    it.output n = none := by
  have hnext : it.next = (none, it) := if_pos h
  induction n with
  | zero => rw [output, hnext]
  | succ n ih => rw [output, hnext, ih]

/-- Calls that yield no pair any more: at most one error, from the end of the entries, and nothing
after it. -/
structure Quiet (tail : List (Result InternalEntry))
    (output : ℕ → Option (Result (Bytes × Bytes))) : Prop where
  none_or_error : ∀ n, output n = none ∨ ∃ e, output n = some (.error e) ∧ tail = [.error e]
  after_error : ∀ n e, output n = some (.error e) → ∀ later > n, output later = none

private theorem Quiet.of_none {output : ℕ → Option (Result (Bytes × Bytes))}
    (h : ∀ n, output n = none) : Quiet tail output :=
  ⟨fun n ↦ .inl (h n), fun _ _ _ later _ ↦ h later⟩

/-- The first call of an iterator that has nothing left to yield. -/
theorem next_quiet (hrun : Run (entries ++ hidden)) (hhidden : tail = [] → hidden = [])
    (h : it.Holds entries tail) (hpairs : it.pairs (entries ++ hidden) = []) :
    (it.next.1 = none ∧ ∃ later, it.next.2.Holds later tail ∧ Run (later ++ hidden) ∧
        it.next.2.pairs (later ++ hidden) = []) ∨
      ∃ e, it.next.1 = some (.error e) ∧ tail = [.error e] ∧ it.next.2.failed = true := by
  by_cases hremaining : it.remaining = 0
  · have hnext : it.next = (none, it) := if_pos (.inr hremaining)
    rw [hnext]
    exact .inl ⟨rfl, entries, h, hrun, hpairs⟩
  have hnext : it.next = it.nextLoop := if_neg (by simp [h.failed, hremaining])
  have houtcome := nextLoop_outcome hrun hhidden h
  rw [← hnext] at houtcome
  generalize it.next = result at houtcome
  cases houtcome with
  | pair merged pending later pair hlater hholds hpairs' =>
    rw [hpairs] at hpairs'
    cases hpairs'
  | done merged pending later hlater hholds hpairs' hnone =>
    exact .inl ⟨rfl, later, hholds,
      hrun.sublist (hlater.sublist.append (List.Sublist.refl hidden)), hnone⟩
  | failed it' e hfailed htail => exact .inr ⟨e, rfl, htail, hfailed⟩

private theorem quiet_of_holds (hrun : Run (entries ++ hidden)) (hhidden : tail = [] → hidden = [])
    (h : it.Holds entries tail) (hpairs : it.pairs (entries ++ hidden) = []) :
    Quiet tail it.output := by
  constructor
  · intro n
    induction n generalizing it entries with
    | zero =>
      rw [output]
      rcases next_quiet hrun hhidden h hpairs with ⟨hnone, -⟩ | ⟨e, herror, htail, -⟩
      · exact .inl hnone
      · exact .inr ⟨e, herror, htail⟩
    | succ n ih =>
      rw [output]
      rcases next_quiet hrun hhidden h hpairs with
        ⟨-, later, h', hrun', hpairs'⟩ | ⟨e, -, -, hfailed⟩
      · exact ih hrun' h' hpairs'
      · exact .inl (output_of_stopped (.inl hfailed) n)
  · intro n e herror later hlater
    obtain ⟨later, rfl⟩ : ∃ m, later = m + 1 := ⟨later - 1, by omega⟩
    induction n generalizing it entries later with
    | zero =>
      rw [output] at herror
      rw [output]
      rcases next_quiet hrun hhidden h hpairs with ⟨hnone, -⟩ | ⟨e', -, -, hfailed⟩
      · rw [hnone] at herror
        cases herror
      · exact output_of_stopped (.inl hfailed) later
    | succ n ih =>
      rw [output] at herror
      rw [output]
      rcases next_quiet hrun hhidden h hpairs with ⟨-, _, h', hrun', hpairs'⟩ | ⟨e', -, -, hfailed⟩
      · obtain ⟨later, rfl⟩ : ∃ m, later = m + 1 := ⟨later - 1, by omega⟩
        exact ih hrun' h' hpairs' herror later (by omega)
      · exact output_of_stopped (.inl hfailed) later

/-- Calls that yield the first `n` of a list of pairs, and then no pair any more; an error is the
only reason to stop early. -/
structure Delivers (pairs : List (Bytes × Bytes)) (tail : List (Result InternalEntry))
    (output : ℕ → Option (Result (Bytes × Bytes))) (n : ℕ) : Prop where
  le_length : n ≤ pairs.length
  delivered : ∀ i < n, output i = pairs[i]?.map .ok
  quiet : Quiet tail fun i ↦ output (n + i)
  early : n < pairs.length → ∃ e, output n = some (.error e)

private theorem Delivers.none_or_error {pairs : List (Bytes × Bytes)} {n : ℕ}
    {output : ℕ → Option (Result (Bytes × Bytes))} (h : Delivers pairs tail output n) {i : ℕ}
    (hi : n ≤ i) : output i = none ∨ ∃ e, output i = some (.error e) ∧ tail = [.error e] := by
  obtain ⟨k, rfl⟩ := Nat.exists_eq_add_of_le hi
  exact h.quiet.none_or_error k

private theorem Delivers.after_error {pairs : List (Bytes × Bytes)} {n : ℕ}
    {output : ℕ → Option (Result (Bytes × Bytes))} (h : Delivers pairs tail output n) {i j : ℕ}
    {e : Error} (he : output i = some (.error e)) (hj : i < j) : output j = none := by
  have hi : n ≤ i := by
    by_contra hlt
    rw [h.delivered i (Nat.lt_of_not_le hlt)] at he
    obtain ⟨pair, -, heq⟩ := Option.map_eq_some_iff.mp he
    cases heq
  obtain ⟨k, rfl⟩ := Nat.exists_eq_add_of_le hi
  obtain ⟨l, rfl⟩ := Nat.exists_eq_add_of_lt hj
  have := h.quiet.after_error k e he (k + l + 1) (by omega)
  rwa [show n + (k + l + 1) = n + k + l + 1 by omega] at this

theorem Delivers.complete {pairs : List (Bytes × Bytes)} {n : ℕ}
    {output : ℕ → Option (Result (Bytes × Bytes))} (h : Delivers pairs tail output n)
    (htail : tail = []) : n = pairs.length ∧ ∀ i, n ≤ i → output i = none := by
  have hnone : ∀ i, n ≤ i → output i = none := fun i hi ↦
    (h.none_or_error hi).resolve_right fun ⟨e, _, he⟩ ↦ by rw [htail] at he; cases he
  refine ⟨h.le_length.antisymm (Nat.le_of_not_lt fun hlt ↦ ?_), hnone⟩
  obtain ⟨e, he⟩ := h.early hlt
  rw [hnone n le_rfl] at he
  cases he

theorem Delivers.cons {pair : Bytes × Bytes} {pairs : List (Bytes × Bytes)} {n : ℕ}
    {output : ℕ → Option (Result (Bytes × Bytes))} (hfirst : output 0 = some (.ok pair))
    (h : Delivers pairs tail (fun i ↦ output (i + 1)) n) :
    Delivers (pair :: pairs) tail output (n + 1) where
  le_length := Nat.succ_le_succ h.le_length
  delivered i hi := by
    cases i with
    | zero => exact hfirst
    | succ i => exact h.delivered i (Nat.lt_of_succ_lt_succ hi)
  quiet := by
    have hshift (i : ℕ) : n + i + 1 = n + 1 + i := by omega
    simpa only [hshift] using h.quiet
  early hn := h.early (Nat.lt_of_succ_lt_succ hn)

/-- An iterator delivers the pairs of all entries, up to its limit, unless a child fails. -/
theorem exists_delivers (hrun : Run (entries ++ hidden)) (hhidden : tail = [] → hidden = [])
    (h : it.Holds entries tail) :
    ∃ n, Delivers ((it.pairs (entries ++ hidden)).take it.remaining) tail it.output n := by
  induction hremaining : it.remaining generalizing it entries with
  | zero =>
    refine ⟨0, le_of_eq ?_, nofun, .of_none fun i ↦ output_of_stopped (.inr hremaining) _, ?_⟩
    · rw [List.take_zero, List.length_nil]
    · simp
  | succ r ih =>
    have hnext : it.next = it.nextLoop := if_neg (by simp [h.failed, hremaining])
    have houtcome := nextLoop_outcome hrun hhidden h
    rw [← hnext] at houtcome
    generalize hresult : it.next = result at houtcome
    cases houtcome with
    | pair merged pending later pair hlater hholds hpairs =>
      obtain ⟨n, hn⟩ := ih (hrun.sublist (hlater.sublist.append (List.Sublist.refl hidden))) hholds
        (by simp [hremaining])
      rw [hpairs, List.take_succ_cons]
      refine ⟨n + 1, Delivers.cons (by rw [output, hresult]) ?_⟩
      simp only [output, hresult]
      simpa [hremaining] using hn
    | done merged pending later hlater hholds hpairs hnone =>
      rw [hpairs]
      refine ⟨0, le_rfl, nofun, ?_, by simp⟩
      simpa using quiet_of_holds hrun hhidden h hpairs
    | failed it' e hfailed htail =>
      have hzero : it.output 0 = some (.error e) := by rw [output, hresult]
      have hlater (i : ℕ) : it.output (i + 1) = none := by
        rw [output, hresult]
        exact output_of_stopped (.inl hfailed) i
      refine ⟨0, Nat.zero_le _, nofun, ⟨fun i ↦ ?_, fun i e' he' later hlt ↦ ?_⟩,
        fun _ ↦ ⟨e, hzero⟩⟩
      · cases i with
        | zero => exact .inr ⟨e, hzero, htail⟩
        | succ i => exact .inl (by rw [Nat.zero_add]; exact hlater i)
      · obtain ⟨later, rfl⟩ : ∃ m, later = m + 1 := ⟨later - 1, by omega⟩
        simpa using hlater later

end KvIterator

/-! ## Scans and the reference -/

theorem scanRun_increasing (bounds : ScanBounds) (sequence : SequenceNumber) (readTimeUnixMs : U64)
    (entries : List InternalEntry) :
    Increasing Prod.fst (scanRun bounds sequence readTimeUnixMs entries) := by
  have hkeys : (userKeys entries).Pairwise (· < ·) := (Finset.sortedLT_sort _).pairwise
  refine hkeys.filterMap _ fun k k' hlt pair hpair pair' hpair' ↦ ?_
  have hfst {k : Bytes} {pair : Bytes × Bytes}
      (h : visiblePair bounds sequence readTimeUnixMs entries k = some pair) : pair.1 = k := by
    unfold visiblePair at h
    split_ifs at h
    obtain ⟨value, -, rfl⟩ := Option.map_eq_some_iff.mp h
    rfl
  rw [hfst hpair, hfst hpair']
  exact hlt

/-- A scan yields exactly the user keys within the bounds whose newest visible version is a live
value. -/
theorem mem_scanRun {entries : List InternalEntry} {key value : Bytes} :
    (key, value) ∈ scanRun bounds sequence readTimeUnixMs entries ↔
      userKeyInBounds bounds key = true ∧
        ((newest key sequence entries).bind fun entry ↦ entry.record.intoValue readTimeUnixMs)
          = some value := by
  rw [scanRun, List.mem_filterMap]
  constructor
  · rintro ⟨k, -, hpair⟩
    unfold visiblePair at hpair
    split_ifs at hpair with hbounds
    obtain ⟨value', hvalue, hpair⟩ := Option.map_eq_some_iff.mp hpair
    cases hpair
    exact ⟨hbounds, hvalue⟩
  · rintro ⟨hbounds, hvalue⟩
    refine ⟨key, ?_, by rw [visiblePair, if_pos hbounds, hvalue]; rfl⟩
    obtain ⟨entry, hnewest, -⟩ := Option.bind_eq_some_iff.mp hvalue
    have hkey : entry.key.userKey = key := by
      have := List.find?_some hnewest
      simp only [decide_eq_true_eq] at this
      exact this.1
    rw [userKeys, Finset.mem_sort, List.mem_toFinset, List.mem_map]
    exact ⟨entry, List.mem_of_find?_eq_some hnewest, hkey⟩

/-- Leaving out entries outside the bounds does not change a scan. -/
theorem scanRun_filter {entries : List InternalEntry} {keep : InternalEntry → Bool}
    (h : ∀ entry ∈ entries, userKeyInBounds bounds entry.key.userKey = true → keep entry = true) :
    scanRun bounds sequence readTimeUnixMs (entries.filter keep)
      = scanRun bounds sequence readTimeUnixMs entries := by
  refine (scanRun_increasing _ _ _ _).ext (scanRun_increasing _ _ _ _) fun ⟨key, value⟩ ↦ ?_
  rw [mem_scanRun, mem_scanRun]
  refine and_congr_right fun hbounds ↦ ?_
  have hnewest : newest key sequence (entries.filter keep) = newest key sequence entries := by
    rw [newest, List.find?_filter, newest]
    refine List.find?_congr fun entry hentry ↦ ?_
    by_cases hkey : entry.key.userKey = key
    · simp [h entry hentry (hkey ▸ hbounds)]
    · simp [hkey]
  rw [hnewest]

theorem mem_mergedEntries {sources : List (List InternalEntry)} {entry : InternalEntry} :
    entry ∈ mergedEntries sources ↔ ∃ source ∈ sources, entry ∈ source := by
  rw [mergedEntries, List.mem_insertionSort, List.mem_flatten]

theorem mergedEntries_run {sources : List (List InternalEntry)}
    (hruns : ∀ source ∈ sources, Run source)
    (hshared : sources.Pairwise fun a b ↦ ∀ x ∈ a, ∀ y ∈ b, x.key ≠ y.key) :
    Run (mergedEntries sources) := by
  have hdistinct : sources.flatten.Pairwise fun a b ↦ a.key ≠ b.key :=
    List.pairwise_flatten.mpr ⟨fun l hl ↦ (hruns l hl).imp fun hlt ↦ hlt.ne, hshared⟩
  have htotal : Std.Total fun a b : InternalEntry ↦ a.key ≤ b.key := ⟨fun a b ↦ le_total _ _⟩
  have htrans : IsTrans InternalEntry fun a b ↦ a.key ≤ b.key := ⟨fun a b c ↦ le_trans⟩
  have hsorted := List.pairwise_insertionSort (fun a b : InternalEntry ↦ a.key ≤ b.key)
    sources.flatten
  have hdistinct' : (mergedEntries sources).Pairwise fun a b ↦ a.key ≠ b.key :=
    ((List.perm_insertionSort _ _).pairwise_iff fun h ↦ Ne.symm h).mpr hdistinct
  exact (hsorted.and hdistinct').imp fun h ↦ lt_of_le_of_ne h.1 h.2

/-- The memtables and tables a scan reads, as lists of entries. -/
def scanSources (mutable : MemTable) (immutables : List MemTable) (version : Version)
    (contents : FileMeta → List InternalEntry) : List (List InternalEntry) :=
  (mutable :: immutables.reverse).map MemTable.entries ++ version.allFiles.map contents

section Scan

variable {mutable : MemTable} {immutables : List MemTable} {version : Version}
  {openTable : FileMeta → Result (List (Result InternalEntry))}
  {contents : FileMeta → List InternalEntry}

/-- The lists a scan merges: the memtables and tables without what the bounds prune. -/
def prunedSources (bounds : ScanBounds) (mutable : MemTable) (immutables : List MemTable)
    (version : Version) (contents : FileMeta → List InternalEntry) : List (List InternalEntry) :=
  (mutable :: immutables.reverse).map
      (fun table ↦ table.entries.filter fun entry ↦ userKeyInBounds bounds entry.key.userKey) ++
    (version.allFiles.filter fun file ↦
      overlapsBounds file.smallest.userKey file.largest.userKey bounds).map contents

private theorem prunedSources_pairwise
    (hshared : (scanSources mutable immutables version contents).Pairwise
      fun a b ↦ ∀ x ∈ a, ∀ y ∈ b, x.key ≠ y.key) :
    (prunedSources bounds mutable immutables version contents).Pairwise
      fun a b ↦ ∀ x ∈ a, ∀ y ∈ b, x.key ≠ y.key := by
  rw [scanSources, List.pairwise_append, List.pairwise_map, List.pairwise_map] at hshared
  rw [prunedSources, List.pairwise_append, List.pairwise_map, List.pairwise_map]
  obtain ⟨hmemtables, htables, hboth⟩ := hshared
  refine ⟨hmemtables.imp fun h x hx y hy ↦ ?_, htables.sublist List.filter_sublist, ?_⟩
  · exact h x (List.mem_of_mem_filter hx) y (List.mem_of_mem_filter hy)
  · intro a ha b hb x hx y hy
    obtain ⟨table, htable, rfl⟩ := List.mem_map.mp ha
    obtain ⟨file, hfile, rfl⟩ := List.mem_map.mp hb
    exact hboth _ (List.mem_map_of_mem htable) _
      (List.mem_map_of_mem (List.mem_of_mem_filter hfile)) x (List.mem_of_mem_filter hx) y hy

/-- The pruned lists hold entries of the sources only, and all of them within the bounds. -/
theorem mem_prunedSources
    (hcovers : ∀ file ∈ version.allFiles, ∀ entry ∈ contents file, file.Covers entry.key.userKey)
    {entry : InternalEntry} :
    ((∃ l ∈ prunedSources bounds mutable immutables version contents, entry ∈ l) →
        ∃ l ∈ scanSources mutable immutables version contents, entry ∈ l) ∧
      (userKeyInBounds bounds entry.key.userKey = true →
        (∃ l ∈ scanSources mutable immutables version contents, entry ∈ l) →
          ∃ l ∈ prunedSources bounds mutable immutables version contents, entry ∈ l) := by
  simp only [prunedSources, scanSources, List.mem_append, List.mem_map]
  constructor
  · rintro ⟨l, ⟨table, htable, rfl⟩ | ⟨file, hfile, rfl⟩, hentry⟩
    · exact ⟨_, .inl ⟨table, htable, rfl⟩, List.mem_of_mem_filter hentry⟩
    · exact ⟨_, .inr ⟨file, List.mem_of_mem_filter hfile, rfl⟩, hentry⟩
  · rintro hbounds ⟨l, ⟨table, htable, rfl⟩ | ⟨file, hfile, rfl⟩, hentry⟩
    · exact ⟨_, .inl ⟨table, htable, rfl⟩, List.mem_filter.mpr ⟨hentry, hbounds⟩⟩
    · obtain ⟨hsmallest, hlargest⟩ := hcovers file hfile entry hentry
      exact ⟨_, .inr ⟨file, List.mem_filter.mpr
        ⟨hfile, overlapsBounds_of_mem hsmallest hlargest hbounds⟩, rfl⟩, hentry⟩

private theorem mapM_openTable {files : List FileMeta}
    (hopen : ∀ file ∈ files, ∃ stream, openTable file = .ok stream ∧
      Follows stream (contents file)) :
    ∃ streams, files.mapM openTable = .ok streams ∧
      List.Forall₂ Follows streams (files.map contents) ∧
      ∀ stream ∈ streams, ∃ file ∈ files, openTable file = .ok stream := by
  induction files with
  | nil => exact ⟨[], rfl, .nil, nofun⟩
  | cons file files ih =>
    obtain ⟨hfile, hfiles⟩ := List.forall_mem_cons.mp hopen
    obtain ⟨stream, hstream, hfollows⟩ := hfile
    obtain ⟨streams, hstreams, hforall, hmem⟩ := ih hfiles
    refine ⟨stream :: streams, ?_, .cons hfollows hforall, ?_⟩
    · rw [List.mapM_cons, hstream, hstreams]
      rfl
    · intro s hs
      rcases List.mem_cons.mp hs with rfl | hs
      · exact ⟨file, List.mem_cons_self .., hstream⟩
      · obtain ⟨file', hfile', heq⟩ := hmem s hs
        exact ⟨file', List.mem_cons_of_mem _ hfile', heq⟩

/-- The pruned lists have an ordered union, and its scan is the reference scan: what is pruned lies
outside the bounds. -/
theorem exists_union_prunedSources (bounds : ScanBounds) (sequence : SequenceNumber)
    (readTimeUnixMs : U64) (hruns : ∀ file ∈ version.allFiles, Run (contents file))
    (hcovers : ∀ file ∈ version.allFiles, ∀ entry ∈ contents file, file.Covers entry.key.userKey)
    (hshared : (scanSources mutable immutables version contents).Pairwise
      fun a b ↦ ∀ x ∈ a, ∀ y ∈ b, x.key ≠ y.key) :
    ∃ entries,
      Union InternalEntry.key entries (prunedSources bounds mutable immutables version contents) ∧
      scanRun bounds sequence readTimeUnixMs entries = referenceScan bounds sequence readTimeUnixMs
        (scanSources mutable immutables version contents) := by
  let sources := scanSources mutable immutables version contents
  let lists := prunedSources bounds mutable immutables version contents
  let keep : InternalEntry → Bool := fun entry ↦ lists.any fun l ↦ entry ∈ l
  have hkeep {entry : InternalEntry} : keep entry = true ↔ ∃ l ∈ lists, entry ∈ l := by
    simp [keep]
  have hsources : ∀ source ∈ sources, Run source := by
    intro source hsource
    rcases List.mem_append.mp hsource with hmem | hmem
    · obtain ⟨table, -, rfl⟩ := List.mem_map.mp hmem
      exact table.run
    · obtain ⟨file, hfile, rfl⟩ := List.mem_map.mp hmem
      exact hruns file hfile
  have hlists : ∀ l ∈ lists, Run l := by
    intro l hl
    rcases List.mem_append.mp hl with hmem | hmem
    · obtain ⟨table, -, rfl⟩ := List.mem_map.mp hmem
      exact table.run.sublist List.filter_sublist
    · obtain ⟨file, hfile, rfl⟩ := List.mem_map.mp hmem
      exact hruns file (List.mem_of_mem_filter hfile)
  have hmerged : Run (mergedEntries sources) := mergedEntries_run hsources hshared
  refine ⟨(mergedEntries sources).filter keep, ?_, ?_⟩
  · refine Union.of_pairwise (hmerged.sublist List.filter_sublist) hlists
      (prunedSources_pairwise hshared) fun entry ↦ ?_
    rw [List.mem_filter, hkeep, mem_mergedEntries]
    exact ⟨And.right, fun h ↦ ⟨(mem_prunedSources hcovers).1 h, h⟩⟩
  · refine scanRun_filter fun entry hentry hbounds ↦ hkeep.mpr ?_
    exact (mem_prunedSources hcovers).2 hbounds (mem_mergedEntries.mp hentry)

/-- The children of a scan deliver the pruned lists, as far as the tables do not fail. -/
theorem exists_children (mutable : MemTable) (immutables : List MemTable) (bounds : ScanBounds)
    (limit : ℕ) (sequence : SequenceNumber) (readTimeUnixMs : U64)
    (hopen : ∀ file ∈ version.allFiles,
      ∃ stream, openTable file = .ok stream ∧ Follows stream (contents file)) :
    ∃ children,
      scanFromState mutable immutables version openTable bounds limit sequence readTimeUnixMs
        = .ok (.new children bounds sequence readTimeUnixMs limit) ∧
      List.Forall₂ Follows children (prunedSources bounds mutable immutables version contents) ∧
      ∀ child ∈ children, ∀ e, .error e ∈ child →
        ∃ file ∈ version.allFiles, openTable file = .ok child := by
  obtain ⟨streams, hmapM, hforall, hmem⟩ := mapM_openTable
    (fun file hfile ↦ hopen file (List.mem_of_mem_filter hfile) : ∀ file ∈ version.allFiles.filter
      fun file ↦ overlapsBounds file.smallest.userKey file.largest.userKey bounds, _)
  refine ⟨(mutable :: immutables.reverse).map (memtableChild bounds) ++ streams, ?_, ?_, ?_⟩
  · rw [scanFromState, hmapM]
    rfl
  · refine List.rel_append ?_ hforall
    rw [List.forall₂_map_left_iff, List.forall₂_map_right_iff]
    exact List.forall₂_same.mpr fun table _ ↦ .inl rfl
  · intro child hchild e he
    rcases List.mem_append.mp hchild with hmap | hstream
    · obtain ⟨table, -, rfl⟩ := List.mem_map.mp hmap
      simp [memtableChild] at he
    · obtain ⟨file, hfile, heq⟩ := hmem child hstream
      exact ⟨file, List.mem_of_mem_filter hfile, heq⟩

/-- The calls on the iterator of a scan deliver pairs of the reference scan; only a table that fails
ends them early. -/
theorem exists_scan_delivers (mutable : MemTable) (immutables : List MemTable) (bounds : ScanBounds)
    (limit : ℕ) (sequence : SequenceNumber) (readTimeUnixMs : U64)
    (hruns : ∀ file ∈ version.allFiles, Run (contents file))
    (hcovers : ∀ file ∈ version.allFiles, ∀ entry ∈ contents file, file.Covers entry.key.userKey)
    (hshared : (scanSources mutable immutables version contents).Pairwise
      fun a b ↦ ∀ x ∈ a, ∀ y ∈ b, x.key ≠ y.key)
    (hopen : ∀ file ∈ version.allFiles,
      ∃ stream, openTable file = .ok stream ∧ Follows stream (contents file)) :
    ∃ it n tail,
      scanFromState mutable immutables version openTable bounds limit sequence readTimeUnixMs
        = .ok it ∧
      KvIterator.Delivers ((referenceScan bounds sequence readTimeUnixMs
        (scanSources mutable immutables version contents)).take limit) tail it.output n ∧
      ((∀ file ∈ version.allFiles, openTable file = .ok ((contents file).map .ok)) →
        tail = []) := by
  obtain ⟨entries, hunion, hscan⟩ :=
    exists_union_prunedSources bounds sequence readTimeUnixMs hruns hcovers hshared
  obtain ⟨children, hit, hfollows, hchild⟩ :=
    exists_children mutable immutables bounds limit sequence readTimeUnixMs hopen
  obtain ⟨m, tail, hstreams, htail⟩ := streams_new hfollows hunion
  have hdrop : tail = [] → entries.drop m = [] := by
    rintro rfl
    rcases htail with ⟨-, rfl⟩ | ⟨e, he, -⟩
    · exact List.drop_length
    · cases he
  let it := KvIterator.new children bounds sequence readTimeUnixMs limit
  have hholds : it.Holds (entries.take m) tail :=
    ⟨rfl, ⟨_, hstreams, rfl⟩, htail.imp And.left fun ⟨e, he, _⟩ ↦ ⟨e, he⟩⟩
  obtain ⟨n, hn⟩ := KvIterator.exists_delivers
    (by rw [List.take_append_drop]; exact hunion.merged_increasing) hdrop hholds
  rw [List.take_append_drop] at hn
  have hpairs : (it.pairs entries).take it.remaining = (referenceScan bounds sequence readTimeUnixMs
      (scanSources mutable immutables version contents)).take limit :=
    congrArg (List.take limit) hscan
  rw [hpairs] at hn
  refine ⟨it, n, tail, hit, hn, fun hcomplete ↦ ?_⟩
  rcases htail with ⟨hnil, -⟩ | ⟨e, -, child, hmem, he⟩
  · exact hnil
  · obtain ⟨file, hfile, heq⟩ := hchild child hmem e he
    rw [hcomplete file hfile] at heq
    obtain rfl := Except.ok.inj heq
    simp at he

/-- **A scan equals the reference scan.** The memtables and tables are runs without common keys,
and a table lies between the ends its metadata gives. Opening a table gives a stream that follows
its entries, and may fail before the last of them. The calls on the iterator then yield the first
`n` pairs of the reference scan, in ascending key order, and no pair after them; there is at most
one error, and nothing after it. If no stream fails, all pairs up to the limit come and no error. -/
theorem scanFromState_output (mutable : MemTable) (immutables : List MemTable) (version : Version)
    (openTable : FileMeta → Result (List (Result InternalEntry)))
    (contents : FileMeta → List InternalEntry) (bounds : ScanBounds) (limit : ℕ)
    (sequence : SequenceNumber) (readTimeUnixMs : U64)
    (hruns : ∀ file ∈ version.allFiles, Run (contents file))
    (hcovers : ∀ file ∈ version.allFiles, ∀ entry ∈ contents file, file.Covers entry.key.userKey)
    (hshared : (scanSources mutable immutables version contents).Pairwise
      fun a b ↦ ∀ x ∈ a, ∀ y ∈ b, x.key ≠ y.key)
    (hopen : ∀ file ∈ version.allFiles,
      ∃ stream, openTable file = .ok stream ∧ Follows stream (contents file)) :
    let pairs := (referenceScan bounds sequence readTimeUnixMs
      (scanSources mutable immutables version contents)).take limit
    Increasing Prod.fst pairs ∧
      ∃ it n, scanFromState mutable immutables version openTable bounds limit sequence
        readTimeUnixMs = .ok it ∧
        n ≤ pairs.length ∧ (∀ i < n, it.output i = pairs[i]?.map .ok) ∧
        (∀ i, n ≤ i → it.output i = none ∨ ∃ e, it.output i = some (.error e)) ∧
        (∀ i e, it.output i = some (.error e) → ∀ j > i, it.output j = none) ∧
        (n < pairs.length → ∃ e, it.output n = some (.error e)) ∧
        ((∀ file ∈ version.allFiles, openTable file = .ok ((contents file).map .ok)) →
          n = pairs.length ∧ ∀ i, n ≤ i → it.output i = none) := by
  intro pairs
  obtain ⟨it, n, tail, hit, hn, htail⟩ :=
    exists_scan_delivers mutable immutables bounds limit sequence readTimeUnixMs hruns hcovers
      hshared hopen
  refine ⟨(scanRun_increasing _ _ _ _).sublist (List.take_sublist _ _), it, n, hit, hn.le_length,
    hn.delivered, fun i hi ↦ ?_, fun i e he j hj ↦ ?_, hn.early,
    fun hcomplete ↦ hn.complete (htail hcomplete)⟩
  · exact (hn.none_or_error hi).imp_right fun ⟨e, he, _⟩ ↦ ⟨e, he⟩
  · exact hn.after_error he hj

/-- A version with one table, in level zero. -/
def Version.single (file : FileMeta) : Version where
  levels i := if i = 0 then [file] else []
  distinct :=
    ⟨fun i ↦ by split_ifs <;> simp, fun i j hij a ha b hb ↦ by
      split_ifs at ha hb with hi hj
      · exact absurd (hi.trans hj.symm) hij
      all_goals simp_all⟩
  newest_first := List.pairwise_singleton _ _
  disjoint i hi := by
    rw [if_neg hi]
    exact .nil

private theorem Version.mem_allFiles_single {file file' : FileMeta}
    (h : file' ∈ (Version.single file).allFiles) : file' = file := by
  obtain ⟨i, -, hi⟩ := List.mem_flatMap.mp h
  simp only [Version.single] at hi
  split_ifs at hi
  · exact List.mem_singleton.mp hi
  · cases hi

private theorem tornRange : 9 ≤ 2 ^ 64 := by decide

private theorem tornSequence_lt (sequence : Fin 9) :
    (sequence.castLE tornRange : SequenceNumber).val < maxU64 :=
  sequence.isLt.trans (by decide)

private def tornKey (byte : Byte) (sequence : Fin 9) (kind : ValueKind) : InternalKey :=
  ⟨[byte], sequence.castLE tornRange, kind, tornSequence_lt sequence⟩

private def tornPut (byte : Byte) (sequence : Fin 9) (value : Byte) : InternalEntry :=
  ⟨tornKey byte sequence .value, .value [value] none, rfl⟩

private def tornEntries : List InternalEntry := [tornPut 97 1 10, tornPut 98 2 20, tornPut 99 3 30]

private def tornMutable : MemTable := ⟨[tornPut 98 5 50], 1, List.pairwise_singleton _ _⟩

private def tornImmutable : MemTable :=
  ⟨[⟨tornKey 97 4 .deletion, .tombstone, rfl⟩], 1, List.pairwise_singleton _ _⟩

private theorem tornNumber_ne : (1 : U64) ≠ 0 := by decide

private theorem tornKey_le : tornKey 97 1 .value ≤ tornKey 99 3 .value := by decide

private def tornFile : FileMeta :=
  ⟨1, 1, tornKey 97 1 .value, tornKey 99 3 .value, tornNumber_ne, tornNumber_ne, tornKey_le⟩

private def tornBounds : ScanBounds := ⟨.included [97], .unbounded⟩

/-- The stream of the table fails before its last entry. -/
private def tornStream : List (Result InternalEntry) :=
  [.ok (tornPut 97 1 10), .ok (tornPut 98 2 20),
    .error (.corruption "SSTable block" "checksum mismatch")]

private def tornScan (stream : List (Result InternalEntry)) : Result KvIterator :=
  scanFromState tornMutable [tornImmutable] (.single tornFile) (fun _ ↦ .ok stream) tornBounds 5 9 0

private theorem referenceScan_torn : referenceScan tornBounds 9 0
    (scanSources tornMutable [tornImmutable] (.single tornFile) fun _ ↦ tornEntries)
      = [([98], [50]), ([99], [30])] := by
  have hkeys : userKeys (mergedEntries
      (scanSources tornMutable [tornImmutable] (.single tornFile) fun _ ↦ tornEntries))
        = [[97], [98], [99]] :=
    userKeys_eq (by decide +kernel) (by decide)
  rw [referenceScan, scanRun, hkeys]
  decide +kernel

/-- A scan of two memtables and a table. One key is deleted and one has two versions. If the stream
of the table fails, no later pair comes in place of the error. -/
theorem scanFromState_output_torn :
    (∃ it, tornScan (tornEntries.map .ok) = .ok it ∧ it.output 0 = some (.ok ([98], [50])) ∧
      it.output 1 = some (.ok ([99], [30])) ∧ ∀ i, 2 ≤ i → it.output i = none) ∧
    ∃ it n, tornScan tornStream = .ok it ∧ n ≤ 2 ∧
      (∀ i < n, it.output i = [([98], [50]), ([99], [30])][i]?.map .ok) ∧
      (n < 2 → ∃ e, it.output n = some (.error e)) ∧
      ∀ i e, it.output i = some (.error e) → ∀ j > i, it.output j = none := by
  have hscan : ∀ stream, Follows stream tornEntries → _ := fun stream hstream ↦
    scanFromState_output tornMutable [tornImmutable] (.single tornFile) (fun _ ↦ .ok stream)
      (fun _ ↦ tornEntries) tornBounds 5 9 0 (fun _ _ ↦ by decide)
      (fun file hfile ↦ by rw [Version.mem_allFiles_single hfile]; decide) (by decide)
      (fun _ _ ↦ ⟨stream, rfl, hstream⟩)
  simp only [referenceScan_torn] at hscan
  constructor
  · obtain ⟨-, it, n, hit, -, hdelivered, -, -, -, hcomplete⟩ := hscan _ (.inl rfl)
    obtain ⟨rfl, hnone⟩ := hcomplete fun _ _ ↦ rfl
    exact ⟨it, hit, hdelivered 0 (by decide), hdelivered 1 (by decide), hnone⟩
  · obtain ⟨-, it, n, hit, hle, hdelivered, -, herror, hearly, -⟩ :=
      hscan tornStream (.inr ⟨2, _, [], rfl⟩)
    exact ⟨it, n, hit, hle, hdelivered, hearly, herror⟩

end Scan

end MeteorDB
