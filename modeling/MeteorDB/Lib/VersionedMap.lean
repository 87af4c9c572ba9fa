import Mathlib

/-!
# Versioned maps

A versioned map is a list of commits, each of which has a record for some of the keys. What the map
holds for a key after the first `n` commits is the record of the last of them that has one.
-/

namespace VersionedMap

variable {κ ρ : Type*}

/-- What the first `n` commits leave for a key. -/
def lookup (commits : List (κ → Option ρ)) (n : ℕ) (key : κ) : Option ρ :=
  (commits.take n).reverse.findSome? fun commit ↦ commit key

variable {commits : List (κ → Option ρ)} {m n : ℕ} {key : κ}

/-- One commit more. -/
theorem lookup_succ {commit : κ → Option ρ} (h : commits[n]? = some commit) (key : κ) :
    lookup commits (n + 1) key = (commit key).or (lookup commits n key) := by
  rw [lookup, List.take_add_one, h, Option.toList_some, List.reverse_append, List.reverse_singleton,
    List.singleton_append, List.findSome?_cons, lookup]
  cases commit key <;> rfl

theorem lookup_succ_of_length_le (h : commits.length ≤ n) (key : κ) :
    lookup commits (n + 1) key = lookup commits n key := by
  rw [lookup, lookup, List.take_of_length_le h, List.take_of_length_le (Nat.le_succ_of_le h)]

/-- Later commits do not matter. -/
theorem lookup_append (h : n ≤ commits.length) (more : List (κ → Option ρ)) (key : κ) :
    lookup (commits ++ more) n key = lookup commits n key := by
  rw [lookup, lookup, List.take_append_of_le_length h]

/-- Commits without a record for the key do not matter. -/
theorem lookup_of_untouched (hle : m ≤ n)
    (h : ∀ i, m ≤ i → i < n → ∀ commit, commits[i]? = some commit → commit key = none) :
    lookup commits n key = lookup commits m key := by
  induction n, hle using Nat.le_induction with
  | base => rfl
  | succ n hmn ih =>
    have hbefore := ih fun i hi hlt ↦ h i hi (hlt.trans (Nat.lt_succ_self n))
    cases hcommit : commits[n]? with
    | none => rw [lookup_succ_of_length_le (List.getElem?_eq_none_iff.mp hcommit), hbefore]
    | some commit =>
      rw [lookup_succ hcommit, h n hmn (Nat.lt_succ_self n) commit hcommit, Option.none_or, hbefore]

/-- The last commit with a record for the key decides. -/
theorem lookup_eq_some {commit : κ → Option ρ} {record : ρ} (hcommit : commits[m]? = some commit)
    (hrecord : commit key = some record) (hlt : m < n)
    (h : ∀ i, m < i → i < n → ∀ commit, commits[i]? = some commit → commit key = none) :
    lookup commits n key = some record := by
  rw [lookup_of_untouched hlt h, lookup_succ hcommit, hrecord, Option.some_or]

end VersionedMap
