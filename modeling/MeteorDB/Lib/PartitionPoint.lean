import Mathlib

/-!
# Partition points

A list is partitioned by a predicate if the elements that satisfy it come first. The length of that
initial segment is found by bisection, with about as many tests as the length has binary digits.
`partitionPoint` is the search as slices of the standard library of the source do it: an interval is
halved until one element is left, and that element is tested once more.

On a list that is not partitioned the search returns some index; nothing is said about it.
-/

variable {α : Type}

namespace PartitionPoint

/-- Halves the interval of `size` elements that starts at `base` until it has at most one. -/
def bisect (pred : ℕ → Bool) (size base : ℕ) : ℕ :=
  if 1 < size then
    bisect pred (size - size / 2) (if pred (base + size / 2) then base + size / 2 else base)
  else base
termination_by size
decreasing_by omega

/-- If exactly the indices below `k` satisfy the predicate, the element that is left is the last of
them, or the first of all. -/
theorem bisect_spec {pred : ℕ → Bool} {k : ℕ} (size base : ℕ)
    (hpred : ∀ i < base + size, pred i = true ↔ i < k) (hbase : base = 0 ∨ base < k)
    (hsize : 0 < size) (hk : k ≤ base + size) :
    bisect pred size base < base + size ∧ (bisect pred size base = 0 ∨ bisect pred size base < k) ∧
      k ≤ bisect pred size base + 1 := by
  induction size using Nat.strong_induction_on generalizing base with
  | _ size ih =>
    rw [bisect]
    split_ifs with hlt h
    · have hrest : base + size / 2 + (size - size / 2) = base + size := by omega
      have hmid := (hpred (base + size / 2) (by omega)).mp h
      rw [← hrest]
      exact ih _ (by omega) _ (by rwa [hrest]) (.inr hmid) (by omega) (by rwa [hrest])
    · have hmid : k ≤ base + size / 2 :=
        not_lt.mp fun hlt' ↦ h ((hpred (base + size / 2) (by omega)).mpr hlt')
      obtain ⟨hend, hfirst, hlast⟩ := ih (size - size / 2) (by omega) base
        (fun i hi ↦ hpred i (by omega)) hbase (by omega) (by omega)
      exact ⟨by omega, hfirst, hlast⟩
    · exact ⟨by omega, hbase, by omega⟩

end PartitionPoint

open PartitionPoint

/-- The number of elements at the front that satisfy the predicate, found by bisection. -/
def partitionPoint (pred : α → Bool) (items : List α) : ℕ :=
  if items.length = 0 then 0
  else
    let base := bisect (fun i ↦ (items[i]?).any pred) items.length 0
    if (items[base]?).any pred then base + 1 else base

/-- **The search is exact on partitioned lists.** -/
theorem partitionPoint_append {pred : α → Bool} {before after : List α}
    (hbefore : ∀ a ∈ before, pred a = true) (hafter : ∀ a ∈ after, pred a = false) :
    partitionPoint pred (before ++ after) = before.length := by
  have hpred : ∀ i < (before ++ after).length,
      (((before ++ after)[i]?).any pred = true ↔ i < before.length) := by
    intro i hi
    by_cases hlt : i < before.length
    · rw [List.getElem?_append_left hlt, List.getElem?_eq_getElem hlt]
      exact iff_of_true (hbefore _ (List.getElem_mem hlt)) hlt
    · rw [List.getElem?_append_right (not_lt.mp hlt)]
      have hlt' : i - before.length < after.length := by
        rw [List.length_append] at hi
        omega
      rw [List.getElem?_eq_getElem hlt', Option.any_some, hafter _ (List.getElem_mem hlt')]
      exact iff_of_false Bool.false_ne_true hlt
  unfold partitionPoint
  split_ifs with hempty
  · rw [List.length_append] at hempty
    omega
  · obtain ⟨hlt, hfirst, hlast⟩ := bisect_spec (before ++ after).length 0
      (fun i hi ↦ hpred i (by omega)) (.inl rfl) (by omega) (by rw [List.length_append]; omega)
    have hbase := hpred _ (by omega : bisect (fun i ↦ ((before ++ after)[i]?).any pred)
      (before ++ after).length 0 < (before ++ after).length)
    simp only
    split_ifs with h
    · have := hbase.mp h
      omega
    · have := mt hbase.mpr h
      omega
