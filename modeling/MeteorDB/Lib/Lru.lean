import Mathlib

/-!
# Least-recently-used caches with a byte budget

The ideal cache is a list of keys and values, the least recently used first. A hit moves an entry to
the end; an insertion drops entries from the front until the new one fits, and puts it at the end.

An implementation that marks entries with stamps holds them in no order of their own. `Ordered` says
what the order is: the list of the entries by increasing stamps. The lemmas about it are the steps
an implementation takes: an entry is removed, the one with the least stamp is found, an entry with a
fresh stamp is added, or all stamps are replaced in a way that keeps their order.
-/

namespace Lru

section Ideal

variable {κ β : Type*} [DecidableEq κ] (size : β → ℕ)

/-- The bytes that entries take. -/
def held (entries : List (κ × β)) : ℕ := (entries.map fun entry ↦ size entry.2).sum

def remove (key : κ) (entries : List (κ × β)) : List (κ × β) :=
  entries.filter fun entry ↦ entry.1 ≠ key

def lookup (key : κ) (entries : List (κ × β)) : Option β :=
  (entries.find? fun entry ↦ entry.1 = key).map Prod.snd

/-- A hit makes its entry the most recent one. -/
def get (key : κ) (entries : List (κ × β)) : Option β × List (κ × β) :=
  match lookup key entries with
  | some value => (some value, remove key entries ++ [(key, value)])
  | none => (none, entries)

/-- Entries are dropped, the least recently used first, until there is room. -/
def evict (capacity need : ℕ) : List (κ × β) → List (κ × β)
  | [] => []
  | entry :: rest =>
    if held size (entry :: rest) + need ≤ capacity then entry :: rest else evict capacity need rest

/-- An insertion that could never fit changes nothing. -/
def insert (capacity : ℕ) (key : κ) (value : β) (entries : List (κ × β)) : Bool × List (κ × β) :=
  if capacity < size value then (false, entries)
  else (true, evict size capacity (size value) (remove key entries) ++ [(key, value)])

theorem lookup_eq_some {key : κ} {value : β} {entries : List (κ × β)}
    (hnodup : (entries.map Prod.fst).Nodup) :
    lookup key entries = some value ↔ (key, value) ∈ entries := by
  rw [lookup, Option.map_eq_some_iff]
  constructor
  · rintro ⟨⟨key', value'⟩, hfind, rfl⟩
    obtain rfl : key' = key := by simpa using List.find?_some hfind
    exact List.mem_of_find?_eq_some hfind
  · intro hmem
    obtain ⟨found, hfind⟩ : ∃ found, (entries.find? fun entry ↦ entry.1 = key) = some found :=
      Option.isSome_iff_exists.mp (List.find?_isSome.mpr ⟨_, hmem, by simp⟩)
    have hkey : found.1 = key := by simpa using List.find?_some hfind
    have hsame := List.inj_on_of_nodup_map hnodup (List.mem_of_find?_eq_some hfind) hmem hkey
    exact ⟨found, hfind, congrArg Prod.snd hsame⟩

theorem lookup_eq_none {key : κ} {entries : List (κ × β)} :
    lookup key entries = none ↔ key ∉ entries.map Prod.fst := by
  rw [lookup, Option.map_eq_none_iff, List.find?_eq_none, List.mem_map]
  simp only [decide_eq_true_eq, not_exists, not_and]

theorem remove_of_not_mem {key : κ} {entries : List (κ × β)} (h : key ∉ entries.map Prod.fst) :
    remove key entries = entries := by
  refine List.filter_eq_self.mpr fun entry hentry ↦ decide_eq_true fun heq ↦ h ?_
  exact heq ▸ List.mem_map_of_mem hentry

theorem not_mem_remove (key : κ) (entries : List (κ × β)) :
    key ∉ (remove key entries).map Prod.fst := by
  rw [List.mem_map]
  rintro ⟨entry, hentry, rfl⟩
  exact of_decide_eq_true (List.mem_filter.mp hentry).2 rfl

/-- What is left, and the entry that was taken out. -/
theorem remove_perm {key : κ} {value : β} {entries : List (κ × β)}
    (hnodup : (entries.map Prod.fst).Nodup) (hmem : (key, value) ∈ entries) :
    (remove key entries ++ [(key, value)]).Perm entries := by
  have hkept := List.filter_append_perm (fun entry : κ × β ↦ decide (entry.1 ≠ key)) entries
  have htaken : entries.filter (fun entry ↦ !decide (entry.1 ≠ key)) = [(key, value)] := by
    have hnodup' := (List.Nodup.of_map _ hnodup).filter fun entry ↦ !decide (entry.1 ≠ key)
    refine List.perm_singleton.mp ((List.perm_ext_iff_of_nodup hnodup'
      (List.nodup_singleton _)).mpr fun entry ↦ ?_)
    rw [List.mem_filter, List.mem_singleton]
    simp only [ne_eq, decide_not, Bool.not_not, decide_eq_true_eq]
    exact ⟨fun h ↦ List.inj_on_of_nodup_map hnodup h.1 hmem h.2, fun h ↦ h ▸ ⟨hmem, rfl⟩⟩
  rwa [htaken] at hkept

omit [DecidableEq κ]

theorem held_append (front back : List (κ × β)) :
    held size (front ++ back) = held size front + held size back := by
  rw [held, List.map_append, List.sum_append]
  rfl

theorem held_perm {left right : List (κ × β)} (h : left.Perm right) :
    held size left = held size right := (h.map _).sum_eq

theorem held_evict_le {capacity need : ℕ} (hneed : need ≤ capacity) (entries : List (κ × β)) :
    held size (evict size capacity need entries) + need ≤ capacity := by
  induction entries with
  | nil => simpa [evict, held] using hneed
  | cons entry rest ih =>
    rw [evict]
    split_ifs with hfits
    · exact hfits
    · exact ih

theorem evict_suffix (capacity need : ℕ) (entries : List (κ × β)) :
    evict size capacity need entries <:+ entries := by
  induction entries with
  | nil => exact List.suffix_rfl
  | cons entry rest ih =>
    rw [evict]
    split_ifs
    · exact List.suffix_rfl
    · exact ih.trans (List.suffix_cons _ _)

end Ideal

/-! ## Entries ordered by stamps -/

section Stamps

variable {α : Type*} {stamp : α → ℕ} {entries ordered : List α}

/-- The entries in the order of their stamps, which are distinct. -/
structure Ordered (stamp : α → ℕ) (entries ordered : List α) : Prop where
  perm : ordered.Perm entries
  increasing : ordered.Pairwise fun a b ↦ stamp a < stamp b

theorem Ordered.nil : Ordered stamp [] [] := ⟨.nil, .nil⟩

theorem Ordered.filter (h : Ordered stamp entries ordered) (p : α → Bool) :
    Ordered stamp (entries.filter p) (ordered.filter p) :=
  ⟨h.perm.filter p, h.increasing.filter p⟩

/-- An entry with a stamp above all others comes last. -/
theorem Ordered.push (h : Ordered stamp entries ordered) {a : α}
    (hfresh : ∀ b ∈ entries, stamp b < stamp a) :
    Ordered stamp (a :: entries) (ordered ++ [a]) := by
  refine ⟨?_, List.pairwise_append.mpr ⟨h.increasing, List.pairwise_singleton _ _, ?_⟩⟩
  · exact (List.perm_append_singleton a ordered).trans (h.perm.cons a)
  · intro b hb c hc
    rw [List.mem_singleton.mp hc]
    exact hfresh b (h.perm.subset hb)

/-- The entry with the least stamp comes first. -/
theorem Ordered.eq_of_le {first a : α} {rest : List α} (h : Ordered stamp entries (first :: rest))
    (ha : a ∈ entries) (hle : stamp a ≤ stamp first) : a = first := by
  rcases List.mem_cons.mp (h.perm.symm.subset ha) with rfl | hrest
  · rfl
  · have hlt := (List.pairwise_cons.mp h.increasing).1 a hrest
    omega

/-- Replacing the stamps keeps the order if it keeps the order of the stamps. -/
theorem Ordered.map (h : Ordered stamp entries ordered) {f : α → α}
    (hmono : ∀ a ∈ entries, ∀ b ∈ entries, stamp a < stamp b → stamp (f a) < stamp (f b)) :
    Ordered stamp (entries.map f) (ordered.map f) := by
  refine ⟨h.perm.map f, List.pairwise_map.mpr (h.increasing.imp_of_mem ?_)⟩
  intro a b ha hb
  exact hmono a (h.perm.subset ha) b (h.perm.subset hb)

theorem Ordered.of_perm (h : Ordered stamp entries ordered) {entries' : List α}
    (hperm : entries.Perm entries') : Ordered stamp entries' ordered :=
  ⟨h.perm.trans hperm, h.increasing⟩

end Stamps

end Lru
