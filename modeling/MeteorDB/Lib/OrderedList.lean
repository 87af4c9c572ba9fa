import Mathlib

/-!
# Ordered maps as lists in key order

A list of elements whose keys strictly increase is an ordered map: it holds at most one element for
each key. The key is a projection of the element, so that a map may hold records that carry their
own key. Such a list is determined by its elements (`Increasing.ext`), which is how two ways of
computing one map are compared.
-/

namespace OrderedList

variable {α κ : Type} [LinearOrder κ] (key : α → κ)

/-- The keys of a list strictly increase. -/
def Increasing (l : List α) : Prop := l.Pairwise fun a b ↦ key a < key b

instance (l : List α) : Decidable (Increasing key l) :=
  inferInstanceAs (Decidable (l.Pairwise fun a b ↦ key a < key b))

/-- Inserts an element at its place, in place of an element with the same key. -/
def insert (a : α) : List α → List α
  | [] => [a]
  | b :: l =>
    if key a < key b then a :: b :: l
    else if key b < key a then b :: insert a l
    else a :: l

variable {key}

theorem Increasing.nil : Increasing key [] := List.Pairwise.nil

theorem increasing_cons {a : α} {l : List α} :
    Increasing key (a :: l) ↔ (∀ b ∈ l, key a < key b) ∧ Increasing key l :=
  List.pairwise_cons

theorem Increasing.sublist {l l' : List α} (h : Increasing key l) (hsub : l'.Sublist l) :
    Increasing key l' :=
  List.Pairwise.sublist hsub h

theorem increasing_append {l l' : List α} :
    Increasing key (l ++ l') ↔
      Increasing key l ∧ Increasing key l' ∧ ∀ a ∈ l, ∀ b ∈ l', key a < key b :=
  List.pairwise_append

/-- An ordered map holds one element for each key. -/
theorem Increasing.eq_of_key_eq {l : List α} (h : Increasing key l) {a b : α} (ha : a ∈ l)
    (hb : b ∈ l) (hab : key a = key b) : a = b := by
  induction l with
  | nil => exact absurd ha List.not_mem_nil
  | cons c l ih =>
    obtain ⟨hc, hl⟩ := increasing_cons.mp h
    rcases List.mem_cons.mp ha with rfl | ha' <;> rcases List.mem_cons.mp hb with rfl | hb'
    · rfl
    · exact absurd hab (hc b hb').ne
    · exact absurd hab (hc a ha').ne'
    · exact ih hl ha' hb'

/-- An ordered map is determined by its elements. -/
theorem Increasing.ext {l l' : List α} (h : Increasing key l) (h' : Increasing key l')
    (hmem : ∀ a, a ∈ l ↔ a ∈ l') : l = l' := by
  have hnodup {m : List α} (hm : Increasing key m) : m.Nodup :=
    hm.imp fun hlt heq ↦ absurd (heq ▸ hlt) (lt_irrefl _)
  have hperm : l.Perm l' := (List.perm_ext_iff_of_nodup (hnodup h) (hnodup h')).mpr hmem
  exact hperm.eq_of_pairwise (fun a b _ _ hab hba ↦ absurd hba hab.asymm) h h'

theorem mem_insert {a x : α} {l : List α} (h : Increasing key l) :
    x ∈ insert key a l ↔ x = a ∨ x ∈ l ∧ key x ≠ key a := by
  induction l with
  | nil => simp [insert]
  | cons b l ih =>
    obtain ⟨hb, hl⟩ := increasing_cons.mp h
    rw [insert]
    split_ifs with hab hba
    · have hne : ∀ y ∈ b :: l, key y ≠ key a := by
        intro y hy
        rcases List.mem_cons.mp hy with rfl | hy
        · exact hab.ne'
        · exact (hab.trans (hb y hy)).ne'
      rw [List.mem_cons]
      exact or_congr_right ⟨fun hx ↦ ⟨hx, hne x hx⟩, And.left⟩
    · rw [List.mem_cons, ih hl, List.mem_cons]
      constructor
      · rintro (rfl | rfl | ⟨hx, hne⟩)
        · exact .inr ⟨.inl rfl, hba.ne⟩
        · exact .inl rfl
        · exact .inr ⟨.inr hx, hne⟩
      · rintro (rfl | ⟨rfl | hx, hne⟩)
        · exact .inr (.inl rfl)
        · exact .inl rfl
        · exact .inr (.inr ⟨hx, hne⟩)
    · have hkey : key a = key b := le_antisymm (not_lt.mp hba) (not_lt.mp hab)
      rw [List.mem_cons, List.mem_cons]
      constructor
      · rintro (rfl | hx)
        · exact .inl rfl
        · exact .inr ⟨.inr hx, hkey ▸ (hb x hx).ne'⟩
      · rintro (rfl | ⟨rfl | hx, hne⟩)
        · exact .inl rfl
        · exact absurd hkey.symm hne
        · exact .inr hx

theorem Increasing.insert {a : α} {l : List α} (h : Increasing key l) :
    Increasing key (insert key a l) := by
  induction l with
  | nil => exact List.pairwise_singleton _ a
  | cons b l ih =>
    obtain ⟨hb, hl⟩ := increasing_cons.mp h
    rw [OrderedList.insert]
    split_ifs with hab hba
    · refine increasing_cons.mpr ⟨fun c hc ↦ ?_, h⟩
      rcases List.mem_cons.mp hc with rfl | hc
      · exact hab
      · exact hab.trans (hb c hc)
    · refine increasing_cons.mpr ⟨fun c hc ↦ ?_, ih hl⟩
      rcases (mem_insert hl).mp hc with rfl | ⟨hc, -⟩
      · exact hba
      · exact hb c hc
    · have hkey : key a = key b := le_antisymm (not_lt.mp hba) (not_lt.mp hab)
      exact increasing_cons.mpr ⟨fun c hc ↦ hkey ▸ hb c hc, hl⟩

/-- Inserting a key that is there replaces its element. -/
theorem Increasing.insert_of_mem {a : α} {l : List α} (h : Increasing key l)
    (hmem : key a ∈ l.map key) :
    OrderedList.insert key a l = l.map fun b ↦ if key b = key a then a else b := by
  induction l with
  | nil => exact absurd hmem List.not_mem_nil
  | cons b l ih =>
    obtain ⟨hb, hl⟩ := increasing_cons.mp h
    have hlater (hab : key a ≤ key b) : ∀ c ∈ l, key c ≠ key a := fun c hc ↦
      (hab.trans_lt (hb c hc)).ne'
    rw [List.map_cons, List.mem_cons] at hmem
    rw [OrderedList.insert, List.map_cons]
    rcases lt_trichotomy (key a) (key b) with hab | hab | hba
    · obtain ⟨c, hc, hca⟩ := List.mem_map.mp (hmem.resolve_left hab.ne)
      exact absurd hca (hlater hab.le c hc)
    · rw [if_neg hab.not_lt, if_neg hab.not_gt, if_pos hab.symm,
        List.map_congr_left fun c hc ↦ if_neg (hlater hab.le c hc), List.map_id']
    · rw [if_neg hba.not_gt, if_pos hba, if_neg hba.ne, ih hl (hmem.resolve_left hba.ne')]

/-- Inserting a new key adds an element. -/
theorem insert_perm {a : α} {l : List α} (hmem : key a ∉ l.map key) :
    (OrderedList.insert key a l).Perm (a :: l) := by
  induction l with
  | nil => exact .refl _
  | cons b l ih =>
    rw [List.map_cons, List.mem_cons, not_or] at hmem
    rw [OrderedList.insert]
    split_ifs with hab hba
    · exact .refl _
    · exact ((ih hmem.2).cons b).trans (.swap a b l)
    · exact absurd (le_antisymm (not_lt.mp hba) (not_lt.mp hab)) hmem.1

/-- Inserting in place of an element leaves the others as they are. -/
theorem Increasing.exists_perm_insert {a b : α} {l : List α} (h : Increasing key l) (hb : b ∈ l)
    (hkey : key b = key a) :
    ∃ rest, l.Perm (b :: rest) ∧ (OrderedList.insert key a l).Perm (a :: rest) := by
  induction l with
  | nil => exact absurd hb List.not_mem_nil
  | cons c l ih =>
    obtain ⟨hc, hl⟩ := increasing_cons.mp h
    rw [OrderedList.insert]
    rcases List.mem_cons.mp hb with rfl | hb
    · rw [if_neg hkey.not_gt, if_neg hkey.not_lt]
      exact ⟨l, .refl _, .refl _⟩
    · have hlt : key c < key a := hkey ▸ hc b hb
      obtain ⟨rest, hold, hnew⟩ := ih hl hb
      rw [if_neg hlt.not_gt, if_pos hlt]
      exact ⟨c :: rest, (hold.cons c).trans (.swap b c rest), (hnew.cons c).trans (.swap a c rest)⟩

/-! ## Searching -/

/-- The first element whose key is at least a bound is the first that satisfies a property, if the
property holds of exactly the elements from the bound up to some key. -/
theorem find?_filter_eq_find? {l : List α} {p q : α → Bool}
    (h : l.Pairwise fun a b ↦ q a = true → p a = false → p b = false)
    (hpq : ∀ a ∈ l, p a = true → q a = true) :
    (l.find? q).filter p = l.find? p := by
  induction l with
  | nil => rfl
  | cons a l ih =>
    obtain ⟨ha, hl⟩ := List.pairwise_cons.mp h
    have ih' := ih hl fun b hb ↦ hpq b (List.mem_cons_of_mem a hb)
    by_cases hq : q a = true
    · rw [List.find?_cons_of_pos hq]
      by_cases hp : p a = true
      · rw [List.find?_cons_of_pos hp, Option.filter_some_pos hp]
      · have hnone : l.find? p = none := by
          rw [List.find?_eq_none]
          intro b hb
          simp [ha b hb hq (by simpa using hp)]
        rw [List.find?_cons_of_neg hp, hnone, Option.filter_some_neg (by simpa using hp)]
    · have hp : ¬ p a = true := fun hp ↦ hq (hpq a (List.mem_cons_self ..) hp)
      rw [List.find?_cons_of_neg hq, List.find?_cons_of_neg hp, ih']

end OrderedList
