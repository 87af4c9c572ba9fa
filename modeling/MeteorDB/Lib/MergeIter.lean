import MeteorDB.Lib.OrderedList

/-!
# Merging ordered streams that may fail

A merger holds several child streams and a priority queue with at most one element of each. It
yields the least queued element and refills the queue from the child that element came from. A
child may end in an error; the error is kept back until the element already taken has been
delivered, is then delivered once, and ends the merger.

The law is `streams_new`: if every child is an initial piece of an ordered list, then what the
merger yields before any error is an initial piece of the ordered union of those lists.
-/

namespace MergeIter

open OrderedList

variable {α κ ε : Type} [LinearOrder κ] (key : α → κ)

/-! ## The merger -/

/-- The order of queued elements: by key, then by the index of the child. -/
def queueOrder (a b : α × ℕ) : Prop := toLex (key a.1, a.2) ≤ toLex (key b.1, b.2)

instance : DecidableRel (queueOrder key) := fun _ _ ↦ inferInstanceAs (Decidable (_ ≤ _))

instance : Std.Total (queueOrder key) := ⟨fun _ _ ↦ le_total _ _⟩

instance : IsTrans (α × ℕ) (queueOrder key) := ⟨fun _ _ _ ↦ le_trans⟩

/-- Child streams, the queue with its least element first, and the state of failure. -/
structure Merger (ε α : Type) where
  children : List (List (Except ε α))
  heap : List (α × ℕ)
  failed : Bool
  pendingError : Option ε

namespace Merger

/-- Takes the next element of a child into the queue; `false` reports that it failed. -/
def advanceChild (m : Merger ε α) (child : ℕ) : Bool × Merger ε α :=
  match m.children.getD child [] with
  | .ok a :: rest =>
    (true, { m with
      children := m.children.set child rest
      heap := m.heap.orderedInsert (queueOrder key) (a, child) })
  | .error e :: rest =>
    (false, { m with children := m.children.set child rest, pendingError := some e })
  | [] => (true, m)

/-- Fills the queue from the given children, up to the first that fails. -/
def fill (m : Merger ε α) : List ℕ → Merger ε α
  | [] => m
  | child :: rest =>
    match m.advanceChild key child with
    | (true, m) => m.fill rest
    | (false, m) => m

/-- A merger of the given children. -/
def new (children : List (List (Except ε α))) : Merger ε α :=
  fill key ⟨children, [], false, none⟩ (List.range children.length)

/-- The next element or error. -/
def next (m : Merger ε α) : Option (Except ε α) × Merger ε α :=
  if m.failed then (none, m)
  else
    match m.pendingError with
    | some e => (some (.error e), { m with failed := true, heap := [], pendingError := none })
    | none =>
      match m.heap with
      | [] => (none, m)
      | (a, child) :: heap => (some (.ok a), ({ m with heap }.advanceChild key child).2)

/-! ## The elements left in a merger -/

/-- The elements and errors a merger still holds: a bound on the number of calls that yield. -/
def size (m : Merger ε α) : ℕ :=
  (m.children.map List.length).sum + m.heap.length + if m.pendingError.isSome then 1 else 0

variable {key}

private theorem sum_length_set {β : Type} {lists : List (List β)} {i : ℕ} {x : β} {rest : List β}
    (h : lists.getD i [] = x :: rest) :
    ((lists.set i rest).map List.length).sum + 1 = (lists.map List.length).sum := by
  induction lists generalizing i with
  | nil => cases h
  | cons l lists ih =>
    cases i with
    | zero =>
      obtain rfl : l = x :: rest := h
      simp
      omega
    | succ i =>
      have := ih (i := i) h
      simp only [List.set_cons_succ, List.map_cons, List.sum_cons]
      omega

theorem size_advanceChild {m : Merger ε α} {child : ℕ} (h : m.pendingError = none) :
    (m.advanceChild key child).2.size ≤ m.size := by
  unfold advanceChild
  split
  next a rest hchild =>
    have := sum_length_set hchild
    simp only [size, List.orderedInsert_length, h, Option.isSome_none]
    omega
  next e rest hchild =>
    have := sum_length_set hchild
    simp only [size, h, Option.isSome_none, Option.isSome_some, if_true]
    omega
  next => exact le_rfl

/-- Every call that yields something leaves less to yield. -/
theorem size_next {m m' : Merger ε α} {x : Except ε α} (h : m.next key = (some x, m')) :
    m'.size < m.size := by
  unfold next at h
  split_ifs at h with hfailed
  · cases h
  split at h
  next e he =>
    cases h
    simp [size, he]
  next hnone =>
    split at h
    next hheap => cases h
    next a child heap hheap =>
      cases h
      have hadv := @size_advanceChild _ _ _ _ key { m with heap } child hnone
      refine hadv.trans_lt ?_
      simp only [size, hheap, List.length_cons]
      omega

/-- A call that yields nothing changes nothing. -/
theorem next_none {m m' : Merger ε α} (h : m.next key = (none, m')) : m' = m := by
  unfold next at h
  split_ifs at h with hfailed
  · exact (Prod.ext_iff.mp h).2.symm
  split at h
  next e he => cases h
  next hnone =>
    split at h
    next hheap => exact (Prod.ext_iff.mp h).2.symm
    next a child heap hheap => cases h

/-! ## What a merger yields -/

variable (key) in
/-- The merger yields the elements of a list one after the other, and nothing after that. -/
def Streams (m : Merger ε α) : List (Except ε α) → Prop
  | [] => m.next key = (none, m)
  | x :: xs => ∃ m', m.next key = (some x, m') ∧ Streams m' xs

variable (key) in
/-- Everything a merger yields. -/
def drain (m : Merger ε α) : List (Except ε α) :=
  match _h : m.next key with
  | (some x, m') => x :: m'.drain
  | (none, _) => []
termination_by m.size
decreasing_by exact size_next _h

theorem Streams.drain_eq {m : Merger ε α} {xs : List (Except ε α)} (h : m.Streams key xs) :
    m.drain key = xs := by
  induction xs generalizing m with
  | nil =>
    rw [drain]
    split
    next x m' hnext =>
      rw [show m.next key = (none, m) from h] at hnext
      cases hnext
    next => rfl
  | cons x xs ih =>
    obtain ⟨m₁, hnext₁, hrest⟩ := h
    rw [drain]
    split
    next y m' hnext =>
      rw [hnext₁] at hnext
      cases hnext
      rw [ih hrest]
    next m' hnext =>
      rw [hnext₁] at hnext
      cases hnext

theorem streams_of_pendingError {m : Merger ε α} {e : ε} (hfailed : m.failed = false)
    (he : m.pendingError = some e) : m.Streams key [.error e] := by
  refine ⟨{ m with failed := true, heap := [], pendingError := none }, ?_, ?_⟩
  · rw [next, if_neg (by simp [hfailed]), he]
  · rw [Streams, next, if_pos rfl]

end Merger

variable {key}

/-- A stream that delivers an initial piece of a list: all of it, or some of it and then an error,
after which nothing is said. -/
def Follows (stream : List (Except ε α)) (full : List α) : Prop :=
  stream = full.map .ok ∨ ∃ n e rest, stream = (full.take n).map .ok ++ .error e :: rest

theorem Follows.of_nil {full : List α} (h : Follows ([] : List (Except ε α)) full) : full = [] := by
  rcases h with h | ⟨n, e, after, h⟩
  · simpa using h
  · simp at h

theorem Follows.of_ok_cons {stream : List (Except ε α)} {full : List α} {a : α}
    (h : Follows (.ok a :: stream) full) : ∃ rest, full = a :: rest ∧ Follows stream rest := by
  rcases h with h | ⟨n, e, after, h⟩
  · cases full with
    | nil => cases h
    | cons b rest =>
      rw [List.map_cons, List.cons.injEq, Except.ok.injEq] at h
      exact ⟨rest, by rw [h.1], .inl h.2⟩
  · cases full with
    | nil => simp at h
    | cons b rest =>
      cases n with
      | zero => simp at h
      | succ n =>
        rw [List.take_succ_cons, List.map_cons, List.cons_append, List.cons.injEq,
          Except.ok.injEq] at h
        exact ⟨rest, by rw [h.1], .inr ⟨n, e, after, h.2⟩⟩

/-! ## Ordered unions -/

/-- A relation of two lists of lists, element by element, read at an index. -/
theorem forall₂_getD {β γ : Type} {R : List β → List γ → Prop} {ls : List (List β)}
    {ls' : List (List γ)} (h : List.Forall₂ R ls ls') (hnil : R [] []) (i : ℕ) :
    R (ls.getD i []) (ls'.getD i []) := by
  induction h generalizing i with
  | nil => exact hnil
  | cons hhead _ ih =>
    cases i with
    | zero => exact hhead
    | succ i => exact ih i

variable (key) in
/-- An ordered list that is the union of ordered lists without common keys. -/
structure Union (merged : List α) (lists : List (List α)) : Prop where
  merged_increasing : Increasing key merged
  increasing : ∀ i, Increasing key (lists.getD i [])
  disjoint : ∀ i j, i ≠ j → ∀ a ∈ lists.getD i [], ∀ b ∈ lists.getD j [], key a ≠ key b
  mem_iff : ∀ a, a ∈ merged ↔ ∃ i, a ∈ lists.getD i []

theorem getD_set {β : Type} {lists : List (List β)} {i j : ℕ} {rest : List β}
    (hi : i < lists.length) :
    (lists.set i rest).getD j [] = if j = i then rest else lists.getD j [] := by
  simp only [List.getD_eq_getElem?_getD, List.getElem?_set]
  by_cases h : i = j
  · subst h
    simp [hi]
  · simp [h, Ne.symm h]

theorem lt_length_of_getD {β : Type} {lists : List (List β)} {i : ℕ} (h : lists.getD i [] ≠ []) :
    i < lists.length := by
  by_contra hge
  exact h (List.getD_eq_default _ _ (Nat.le_of_not_lt hge))

theorem getD_mem_or_nil {β : Type} (lists : List (List β)) (i : ℕ) :
    lists.getD i [] ∈ lists ∨ lists.getD i [] = [] := by
  by_cases h : lists.getD i [] = []
  · exact .inr h
  · have hlt := lt_length_of_getD h
    rw [List.getD_eq_getElem _ _ hlt]
    exact .inl (List.getElem_mem hlt)

theorem Union.of_pairwise {merged : List α} {lists : List (List α)}
    (hmerged : Increasing key merged) (hlists : ∀ l ∈ lists, Increasing key l)
    (hdisjoint : lists.Pairwise fun l l' ↦ ∀ a ∈ l, ∀ b ∈ l', key a ≠ key b)
    (hmem : ∀ a, a ∈ merged ↔ ∃ l ∈ lists, a ∈ l) : Union key merged lists := by
  have hlt : ∀ i j, i < j → ∀ a ∈ lists.getD i [], ∀ b ∈ lists.getD j [], key a ≠ key b := by
    intro i j hij a ha b hb
    have hi := lt_length_of_getD (List.ne_nil_of_mem ha)
    have hj := lt_length_of_getD (List.ne_nil_of_mem hb)
    rw [List.getD_eq_getElem _ _ hi] at ha
    rw [List.getD_eq_getElem _ _ hj] at hb
    exact List.pairwise_iff_getElem.mp hdisjoint i j hi hj hij a ha b hb
  refine ⟨hmerged, fun i ↦ ?_, fun i j hij a ha b hb ↦ ?_, fun a ↦ (hmem a).trans ⟨?_, ?_⟩⟩
  · rcases getD_mem_or_nil lists i with h | h
    · exact hlists _ h
    · rw [h]
      exact .nil
  · rcases Nat.lt_or_gt_of_ne hij with h | h
    · exact hlt i j h a ha b hb
    · exact (hlt j i h b hb a ha).symm
  · rintro ⟨l, hl, ha⟩
    obtain ⟨i, hi, rfl⟩ := List.getElem_of_mem hl
    exact ⟨i, by rwa [List.getD_eq_getElem _ _ hi]⟩
  · rintro ⟨i, ha⟩
    exact ⟨_, (getD_mem_or_nil lists i).resolve_right (List.ne_nil_of_mem ha), ha⟩

/-- The least head is the head of the union, and removing it from both leaves a union. -/
theorem Union.pop {merged : List α} {lists : List (List α)} (h : Union key merged lists) {i : ℕ}
    {a : α} {rest : List α} (hi : lists.getD i [] = a :: rest)
    (hleast : ∀ j b tail, lists.getD j [] = b :: tail → key a ≤ key b) :
    ∃ merged', merged = a :: merged' ∧ Union key merged' (lists.set i rest) := by
  have hlt : i < lists.length := lt_length_of_getD (by rw [hi]; exact List.cons_ne_nil _ _)
  have hmin : ∀ b ∈ merged, key a ≤ key b := by
    intro b hb
    obtain ⟨j, hj⟩ := (h.mem_iff b).mp hb
    cases htail : lists.getD j [] with
    | nil => rw [htail] at hj; cases hj
    | cons c tail =>
      refine (hleast j c tail htail).trans ?_
      rw [htail] at hj
      rcases List.mem_cons.mp hj with rfl | hj
      · exact le_rfl
      · have hinc := h.increasing j
        rw [htail] at hinc
        exact ((increasing_cons.mp hinc).1 b hj).le
  have ha : a ∈ merged := (h.mem_iff a).mpr ⟨i, by rw [hi]; exact List.mem_cons_self ..⟩
  obtain ⟨hfirst, hrest⟩ := increasing_cons.mp (hi ▸ h.increasing i)
  cases merged with
  | nil => cases ha
  | cons c merged =>
    obtain ⟨hc, hmerged⟩ := increasing_cons.mp h.merged_increasing
    obtain rfl : c = a := by
      rcases List.mem_cons.mp ha with heq | ha'
      · exact heq.symm
      · exact absurd (hmin c (List.mem_cons_self ..)) (not_le.mpr (hc a ha'))
    have hsub {j : ℕ} {b : α} (hb : b ∈ (lists.set i rest).getD j []) : b ∈ lists.getD j [] := by
      rw [getD_set hlt] at hb
      split_ifs at hb with hj
      · rw [hj, hi]
        exact List.mem_cons_of_mem c hb
      · exact hb
    refine ⟨merged, rfl, hmerged, fun j ↦ ?_, fun j k hjk x hx y hy ↦ ?_,
      fun b ↦ ⟨fun hb ↦ ?_, ?_⟩⟩
    · rw [getD_set hlt]
      split_ifs
      · exact hrest
      · exact h.increasing j
    · exact h.disjoint j k hjk x (hsub hx) y (hsub hy)
    · obtain ⟨j, hj⟩ := (h.mem_iff b).mp (List.mem_cons_of_mem c hb)
      refine ⟨j, ?_⟩
      rw [getD_set hlt]
      split_ifs with hji
      · rw [hji, hi] at hj
        rcases List.mem_cons.mp hj with rfl | hj
        · exact absurd (hc b hb) (lt_irrefl _)
        · exact hj
      · exact hj
    · rintro ⟨j, hj⟩
      have hne : key b ≠ key c := by
        rw [getD_set hlt] at hj
        split_ifs at hj with hji
        · exact (hfirst b hj).ne'
        · exact h.disjoint j i hji b hj c (by rw [hi]; exact List.mem_cons_self ..)
      rcases List.mem_cons.mp ((h.mem_iff b).mpr ⟨j, hsub hj⟩) with rfl | hb
      · exact absurd rfl hne
      · exact hb

theorem Union.eq_nil {merged : List α} {lists : List (List α)} (h : Union key merged lists)
    (hnil : ∀ i, lists.getD i [] = []) : merged = [] := by
  refine List.eq_nil_iff_forall_not_mem.mpr fun a ha ↦ ?_
  obtain ⟨i, hi⟩ := (h.mem_iff a).mp ha
  rw [hnil i] at hi
  cases hi

/-! ## The law -/

variable (key) in
/-- A merger that has not failed, against the lists its elements still to come are taken from.
For the children in `queued` the head of the list is in the queue and the child goes on with the
rest; the others still hold their whole list. Errors to come satisfy `P`. -/
structure Tracks (P : ε → Prop) (m : Merger ε α) (lists : List (List α)) (queued : Set ℕ) :
    Prop where
  failed : m.failed = false
  pendingError : m.pendingError = none
  length : m.children.length = lists.length
  sorted : m.heap.Pairwise (queueOrder key)
  nodup : (m.heap.map Prod.snd).Nodup
  mem_heap : ∀ a i, (a, i) ∈ m.heap ↔ i ∈ queued ∧ (lists.getD i []).head? = some a
  follows : ∀ i ∈ queued, Follows (m.children.getD i []) (lists.getD i []).tail
  waiting : ∀ i ∉ queued, Follows (m.children.getD i []) (lists.getD i [])
  errors : ∀ i e, .error e ∈ m.children.getD i [] → P e

namespace Tracks

variable {P : ε → Prop} {m : Merger ε α} {lists : List (List α)} {queued : Set ℕ}

/-- A waiting child is advanced: the head of its list is queued, or the merger has an error to
report. -/
theorem advance {i : ℕ} (hm : Tracks key P m lists queued) (hi : i ∉ queued) :
    (∃ m', m.advanceChild key i = (true, m') ∧ Tracks key P m' lists (insert i queued)) ∨
      ∃ m' e, m.advanceChild key i = (false, m') ∧ m'.failed = false ∧
        m'.pendingError = some e ∧ P e := by
  have hfollows := hm.waiting i hi
  unfold Merger.advanceChild
  split
  next a stream hchild =>
    have hlt : i < m.children.length :=
      lt_length_of_getD (by rw [hchild]; exact List.cons_ne_nil _ _)
    rw [hchild] at hfollows
    obtain ⟨rest, hlist, hrest⟩ := hfollows.of_ok_cons
    refine .inl ⟨_, rfl, hm.failed, hm.pendingError, ?_, ?_, ?_, ?_, ?_, ?_, ?_⟩
    · rw [List.length_set, hm.length]
    · exact hm.sorted.orderedInsert _ _
    · have hperm := (List.perm_orderedInsert (queueOrder key) (a, i) m.heap).map Prod.snd
      rw [hperm.nodup_iff, List.map_cons, List.nodup_cons]
      refine ⟨fun hmem ↦ ?_, hm.nodup⟩
      obtain ⟨⟨b, j⟩, hb, rfl⟩ := List.mem_map.mp hmem
      exact hi ((hm.mem_heap b j).mp hb).1
    · intro b j
      rw [List.mem_orderedInsert, hm.mem_heap, Set.mem_insert_iff, Prod.mk.injEq]
      constructor
      · rintro (⟨rfl, rfl⟩ | ⟨hj, hb⟩)
        · exact ⟨.inl rfl, by rw [hlist]; rfl⟩
        · exact ⟨.inr hj, hb⟩
      · rintro ⟨rfl | hj, hb⟩
        · rw [hlist, List.head?_cons, Option.some.injEq] at hb
          exact .inl ⟨hb.symm, rfl⟩
        · exact .inr ⟨hj, hb⟩
    · intro j hj
      rw [getD_set hlt]
      split_ifs with hji
      · rw [hji, hlist]
        exact hrest
      · exact hm.follows j ((Set.mem_insert_iff.mp hj).resolve_left hji)
    · intro j hj
      rw [Set.mem_insert_iff, not_or] at hj
      rw [getD_set hlt, if_neg hj.1]
      exact hm.waiting j hj.2
    · intro j e he
      rw [getD_set hlt] at he
      split_ifs at he with hji
      · exact hm.errors i e (by rw [hchild]; exact List.mem_cons_of_mem _ he)
      · exact hm.errors j e he
  next e stream hchild =>
    have hP : P e := hm.errors i e (by rw [hchild]; exact List.mem_cons_self ..)
    exact .inr ⟨_, e, rfl, hm.failed, rfl, hP⟩
  next hchild =>
    have hnil : lists.getD i [] = [] := by
      rw [hchild] at hfollows
      exact hfollows.of_nil
    refine .inl ⟨m, rfl, hm.failed, hm.pendingError, hm.length, hm.sorted, hm.nodup, ?_, ?_, ?_,
      hm.errors⟩
    · intro b j
      rw [hm.mem_heap, Set.mem_insert_iff]
      refine ⟨fun ⟨hj, hb⟩ ↦ ⟨.inr hj, hb⟩, ?_⟩
      rintro ⟨rfl | hj, hb⟩
      · rw [hnil] at hb
        cases hb
      · exact ⟨hj, hb⟩
    · intro j hj
      rcases Set.mem_insert_iff.mp hj with rfl | hj
      · rw [hnil] at hfollows ⊢
        exact hfollows
      · exact hm.follows j hj
    · intro j hj
      rw [Set.mem_insert_iff, not_or] at hj
      exact hm.waiting j hj.2

/-- Filling the queue from waiting children. -/
theorem fill {rest : List ℕ} (hm : Tracks key P m lists queued) (hnodup : rest.Nodup)
    (hwaiting : ∀ i ∈ rest, i ∉ queued) :
    Tracks key P (m.fill key rest) lists (queued ∪ {i | i ∈ rest}) ∨
      ∃ e, (m.fill key rest).failed = false ∧ (m.fill key rest).pendingError = some e ∧ P e := by
  induction rest generalizing m queued with
  | nil => exact .inl (by simpa [Merger.fill] using hm)
  | cons i rest ih =>
    rw [List.nodup_cons] at hnodup
    rw [Merger.fill]
    rcases hm.advance (hwaiting i (List.mem_cons_self ..)) with
      ⟨m', hadv, hm'⟩ | ⟨m', e, hadv, hfailed, he, hP⟩
    · rw [hadv]
      have hrest : ∀ j ∈ rest, j ∉ insert i queued := by
        intro j hj hmem
        rcases Set.mem_insert_iff.mp hmem with rfl | hmem
        · exact hnodup.1 hj
        · exact hwaiting j (List.mem_cons_of_mem i hj) hmem
      have hset : insert i queued ∪ {j | j ∈ rest} = queued ∪ {j | j ∈ i :: rest} := by
        ext j
        simp only [Set.mem_union, Set.mem_insert_iff, Set.mem_ofPred_eq, List.mem_cons]
        tauto
      rw [← hset]
      exact ih hm' hnodup.2 hrest
    · rw [hadv]
      exact .inr ⟨e, hfailed, he, hP⟩

/-- The least queued element is the least head of the lists, and its child is waiting again once
it is taken. -/
theorem pop {a : α} {i : ℕ} {heap : List (α × ℕ)} (hm : Tracks key P m lists queued)
    (hheap : m.heap = (a, i) :: heap) :
    i ∈ queued ∧ (∀ j ∈ queued, ∀ b tail, lists.getD j [] = b :: tail → key a ≤ key b) ∧
      ∃ rest, lists.getD i [] = a :: rest ∧
        Tracks key P { m with heap } (lists.set i rest) (queued \ {i}) := by
  obtain ⟨hi, ha⟩ := (hm.mem_heap a i).mp (by rw [hheap]; exact List.mem_cons_self ..)
  obtain ⟨rest, hlist⟩ : ∃ rest, lists.getD i [] = a :: rest := List.head?_eq_some_iff.mp ha
  have hlt : i < lists.length := lt_length_of_getD (by rw [hlist]; exact List.cons_ne_nil _ _)
  have hsorted := hm.sorted
  have hnodup := hm.nodup
  rw [hheap, List.pairwise_cons] at hsorted
  rw [hheap, List.map_cons, List.nodup_cons] at hnodup
  refine ⟨hi, fun j hj b tail hb ↦ ?_, rest, hlist, hm.failed, hm.pendingError, ?_, hsorted.2,
    hnodup.2, fun b j ↦ ?_, fun j hj ↦ ?_, fun j hj ↦ ?_, hm.errors⟩
  · have hmem : (b, j) ∈ (a, i) :: heap := by
      rw [← hheap, hm.mem_heap, hb]
      exact ⟨hj, rfl⟩
    rcases List.mem_cons.mp hmem with heq | hmem
    · exact (congrArg key (Prod.ext_iff.mp heq).1).ge
    · exact Prod.Lex.monotone_fst _ _ (hsorted.1 (b, j) hmem)
  · rw [List.length_set]
    exact hm.length
  · have hmem := hm.mem_heap b j
    rw [hheap, List.mem_cons, Prod.mk.injEq] at hmem
    rw [Set.mem_sdiff_singleton, getD_set hlt]
    constructor
    · intro hb
      have hji : j ≠ i := by
        rintro rfl
        exact hnodup.1 (List.mem_map.mpr ⟨(b, j), hb, rfl⟩)
      rw [if_neg hji]
      have := hmem.mp (.inr hb)
      exact ⟨⟨this.1, hji⟩, this.2⟩
    · rintro ⟨⟨hj, hji⟩, hb⟩
      rw [if_neg hji] at hb
      exact (hmem.mpr ⟨hj, hb⟩).resolve_left fun h ↦ hji h.2
  · obtain ⟨hj, hji⟩ := Set.mem_sdiff_singleton.mp hj
    rw [getD_set hlt, if_neg hji]
    exact hm.follows j hj
  · rw [getD_set hlt]
    split_ifs with hji
    · have := hm.follows i hi
      rw [hlist] at this
      rw [hji]
      exact this
    · exact hm.waiting j fun h ↦ hj (Set.mem_sdiff_singleton.mpr ⟨h, hji⟩)

/-- Beyond the last child there is nothing to queue. -/
theorem univ (hm : Tracks key P m lists queued) (hqueued : ∀ i < lists.length, i ∈ queued) :
    Tracks key P m lists Set.univ := by
  have hnil : ∀ i ∉ queued, m.children.getD i [] = [] ∧ lists.getD i [] = [] := by
    intro i hi
    have hge : lists.length ≤ i := Nat.le_of_not_lt fun h ↦ hi (hqueued i h)
    exact ⟨List.getD_eq_default _ _ (hm.length.trans_le hge), List.getD_eq_default _ _ hge⟩
  refine ⟨hm.failed, hm.pendingError, hm.length, hm.sorted, hm.nodup, fun a i ↦ ?_, fun i _ ↦ ?_,
    fun i hi ↦ absurd (Set.mem_univ i) hi, hm.errors⟩
  · rw [hm.mem_heap]
    by_cases hi : i ∈ queued
    · simp [hi]
    · rw [(hnil i hi).2]
      simp [hi]
  · by_cases hi : i ∈ queued
    · exact hm.follows i hi
    · rw [(hnil i hi).1, (hnil i hi).2]
      exact .inl rfl

/-- A merger whose queue is filled yields an initial piece of the union of its lists. -/
theorem streams {merged : List α} (hm : Tracks key P m lists Set.univ)
    (hunion : Union key merged lists) :
    ∃ n tail, m.Streams key ((merged.take n).map .ok ++ tail) ∧
      (tail = [] ∧ n = merged.length ∨ ∃ e, tail = [.error e] ∧ P e) := by
  induction merged generalizing m lists with
  | nil =>
    refine ⟨0, [], ?_, .inl ⟨rfl, rfl⟩⟩
    have hheap : m.heap = [] := by
      refine List.eq_nil_iff_forall_not_mem.mpr fun ⟨a, i⟩ hmem ↦ ?_
      have hhead := List.mem_of_head? ((hm.mem_heap a i).mp hmem).2
      exact List.not_mem_nil ((hunion.mem_iff a).mpr ⟨i, hhead⟩)
    rw [List.take_nil, List.map_nil, List.append_nil, Merger.Streams, Merger.next, hm.failed,
      hm.pendingError, hheap]
    rfl
  | cons c merged ih =>
    cases hheap : m.heap with
    | nil =>
      refine absurd (hunion.eq_nil fun i ↦ ?_) (List.cons_ne_nil c merged)
      refine List.eq_nil_iff_forall_not_mem.mpr fun a ha ↦ ?_
      obtain ⟨b, tail, hlist⟩ := List.exists_cons_of_ne_nil (List.ne_nil_of_mem ha)
      have hmem := (hm.mem_heap b i).mpr ⟨Set.mem_univ i, by rw [hlist]; rfl⟩
      rw [hheap] at hmem
      cases hmem
    | cons top heap =>
      obtain ⟨a, i⟩ := top
      obtain ⟨-, hleast, rest, hlist, hpop⟩ := hm.pop hheap
      obtain ⟨merged', heq, hunion'⟩ :=
        hunion.pop hlist fun j b tail hb ↦ hleast j (Set.mem_univ j) b tail hb
      obtain ⟨rfl, rfl⟩ := List.cons.inj heq
      have hnext : m.next key =
          (some (.ok c), (Merger.advanceChild key { m with heap } i).2) := by
        rw [Merger.next, hm.failed, hm.pendingError, hheap]
        rfl
      rcases hpop.advance (i := i) (by simp) with
        ⟨m', hadv, hm'⟩ | ⟨m', e, hadv, hfailed, he, hP⟩
      · rw [Set.insert_sdiff_singleton, Set.insert_eq_of_mem (Set.mem_univ i)] at hm'
        obtain ⟨n, tail, hstreams, htail⟩ := ih hm' hunion'
        refine ⟨n + 1, tail, ⟨m', by rw [hnext, hadv], hstreams⟩, htail.imp_left fun h ↦ ?_⟩
        exact ⟨h.1, by rw [h.2, List.length_cons]⟩
      · refine ⟨1, [.error e], ⟨m', by rw [hnext, hadv], ?_⟩, .inr ⟨e, rfl, hP⟩⟩
        exact Merger.streams_of_pendingError hfailed he

end Tracks

/-- **The law of the merger.** If every child delivers an initial piece of an ordered list, the
merger yields an initial piece of the ordered union of these lists: all of it, or some of it and
then the error of a child. -/
theorem streams_new {children : List (List (Except ε α))} {lists : List (List α)} {merged : List α}
    (hfollows : List.Forall₂ Follows children lists) (hunion : Union key merged lists) :
    ∃ n tail, (Merger.new key children).Streams key ((merged.take n).map .ok ++ tail) ∧
      (tail = [] ∧ n = merged.length ∨
        ∃ e, tail = [.error e] ∧ ∃ child ∈ children, .error e ∈ child) := by
  have hlength := hfollows.length_eq
  have herrors (i : ℕ) (e : ε) (he : .error e ∈ children.getD i []) :
      ∃ child ∈ children, .error e ∈ child :=
    ⟨_, (getD_mem_or_nil children i).resolve_right (List.ne_nil_of_mem he), he⟩
  have hstart : Tracks key (fun e ↦ ∃ child ∈ children, .error e ∈ child)
      (⟨children, [], false, none⟩ : Merger ε α) lists ∅ :=
    ⟨rfl, rfl, hlength, .nil, .nil, by simp, by simp,
      fun i _ ↦ forall₂_getD hfollows (.inl rfl) i, herrors⟩
  rcases hstart.fill List.nodup_range (fun i _ ↦ Set.notMem_empty i) with
    hm | ⟨e, hfailed, he, hP⟩
  · refine (hm.univ fun i hi ↦ ?_).streams hunion
    exact .inr (List.mem_range.mpr (hlength ▸ hi))
  · exact ⟨0, [.error e], Merger.streams_of_pendingError hfailed he, .inr ⟨e, rfl, hP⟩⟩

end MergeIter
