import Mathlib

/-!
# Self-delimiting encodings

An encoding is self-delimiting when the value at the start of a string can be told from what
follows it, whatever that is. Concatenations of such encodings are taken apart from the left, one
component at a time, so a composite key built from them determines its components.

The encodings are relative to a set of values, since a length field can only hold so much.
-/

variable {α β γ : Type*}

/-- An encoded value and what follows it are determined by their concatenation. -/
def SelfDelimiting (s : Set α) (encode : α → List β) : Prop :=
  ∀ ⦃a⦄, a ∈ s → ∀ ⦃b⦄, b ∈ s → ∀ ⦃x y⦄, encode a ++ x = encode b ++ y → a = b ∧ x = y

namespace SelfDelimiting

variable {s t : Set α} {encode : α → List β}

/-- Encodings of one length that differ for different values. -/
theorem of_length {n : ℕ} (hlength : ∀ a ∈ s, (encode a).length = n) (hinj : Set.InjOn encode s) :
    SelfDelimiting s encode := by
  intro a ha b hb x y h
  obtain ⟨hab, hxy⟩ := List.append_inj h ((hlength a ha).trans (hlength b hb).symm)
  exact ⟨hinj ha hb hab, hxy⟩

/-- A string after an encoding of its length. -/
theorem counted {encodeLength : ℕ → List β} {lengths : Set ℕ}
    (h : SelfDelimiting lengths encodeLength) :
    SelfDelimiting { l : List β | l.length ∈ lengths } fun l ↦ encodeLength l.length ++ l := by
  intro a ha b hb x y hab
  simp only [List.append_assoc] at hab
  obtain ⟨hlength, hrest⟩ := h ha hb hab
  exact List.append_inj hrest hlength

/-- A value that may be absent, after a tag that says whether it is there. -/
theorem option (h : SelfDelimiting s encode) {absent present : β} (hne : absent ≠ present) :
    SelfDelimiting { o : Option α | ∀ a ∈ o, a ∈ s } fun o ↦
      o.elim [absent] fun a ↦ present :: encode a := by
  intro o ho o' ho' x y hxy
  cases o with
  | none =>
    cases o' with
    | none => exact ⟨rfl, (List.cons.inj hxy).2⟩
    | some b => exact absurd (List.cons.inj hxy).1 hne
  | some a =>
    cases o' with
    | none => exact absurd (List.cons.inj hxy).1 hne.symm
    | some b =>
      obtain ⟨rfl, hrest⟩ := h (ho a rfl) (ho' b rfl) (List.cons.inj hxy).2
      exact ⟨rfl, hrest⟩

/-- Two values one after the other. -/
theorem prod {u : Set γ} {encode' : γ → List β} (h : SelfDelimiting s encode)
    (h' : SelfDelimiting u encode') :
    SelfDelimiting (s ×ˢ u) fun p ↦ encode p.1 ++ encode' p.2 := by
  rintro ⟨a, c⟩ ⟨ha, hc⟩ ⟨b, d⟩ ⟨hb, hd⟩ x y hxy
  simp only [List.append_assoc] at hxy
  obtain ⟨rfl, hsecond⟩ := h ha hb hxy
  obtain ⟨rfl, hrest⟩ := h' hc hd hsecond
  exact ⟨rfl, hrest⟩

/-- Two lists of the same length, each value encoded in its turn. -/
theorem flatMap (h : SelfDelimiting s encode) {l l' : List α} (hl : ∀ a ∈ l, a ∈ s)
    (hl' : ∀ a ∈ l', a ∈ s) (hlength : l.length = l'.length) {x y : List β}
    (hxy : l.flatMap encode ++ x = l'.flatMap encode ++ y) : l = l' ∧ x = y := by
  induction l generalizing l' with
  | nil =>
    obtain rfl := List.length_eq_zero_iff.mp hlength.symm
    exact ⟨rfl, hxy⟩
  | cons a l ih =>
    cases l' with
    | nil => exact absurd hlength (Nat.succ_ne_zero _)
    | cons b l' =>
      simp only [List.flatMap_cons, List.append_assoc] at hxy
      obtain ⟨rfl, htail⟩ := h (hl a (List.mem_cons_self ..)) (hl' b (List.mem_cons_self ..)) hxy
      obtain ⟨rfl, hrest⟩ := ih (fun c hc ↦ hl c (List.mem_cons_of_mem a hc))
        (fun c hc ↦ hl' c (List.mem_cons_of_mem a hc)) (Nat.succ.inj hlength) htail
      exact ⟨rfl, hrest⟩

end SelfDelimiting
