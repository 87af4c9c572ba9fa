import MeteorDB.Lib.ByteString

/-!
# Decoders over byte strings

A decoder consumes a prefix of its input and returns what that prefix denotes, or an error. The
property a format states about its decoder is `Decodes`: on any input that begins with
a given encoding, the decoder returns the encoded value and leaves the rest. It composes along
`bind`, so the round trip of a record is the list of the round trips of its fields.

`Exact` is the converse: the decoder accepts nothing but encodings. A run of a decoder is taken
apart step by step with `run_bind_eq_ok` and the inversions of the primitive readers.
-/

/-- A decoder over byte strings with errors in `ε`. -/
abbrev Decoder (ε α : Type) := StateT Bytes (Except ε) α

namespace Decoder

open ByteString

variable {ε α β : Type}

/-! ## Primitive readers -/

/-- Takes `length` bytes; `short` makes the error from the number of bytes that are left. -/
def takeBytes (short : ℕ → ε) (length : ℕ) : Decoder ε Bytes := fun input ↦
  if length ≤ input.length then .ok (input.take length, input.drop length)
  else .error (short input.length)

/-- Reads one byte. -/
def takeByte (short : ℕ → ε) : Decoder ε Byte := do
  let bytes ← takeBytes short 1
  return bytes.headD 0

/-- Reads a little-endian number of the given width. -/
def takeLe (short : ℕ → ε) (width : ℕ) : Decoder ε ℕ := do
  let bytes ← takeBytes short width
  return leNat bytes

/-- Reads a little-endian 64-bit word. -/
def takeU64 (short : ℕ → ε) : Decoder ε U64 := do
  let bytes ← takeBytes short 8
  return u64OfLeBytes bytes

/-- Runs a decoder a fixed number of times. -/
def times (d : Decoder ε α) : ℕ → Decoder ε (List α)
  | 0 => return []
  | n + 1 => do
    let a ← d
    let as ← times d n
    return a :: as

/-! ## What a decoder decodes -/

/-- On every input that begins with `bytes`, the decoder returns `a` and leaves the rest. -/
def Decodes (d : Decoder ε α) (bytes : Bytes) (a : α) : Prop :=
  ∀ rest, d (bytes ++ rest) = .ok (a, rest)

theorem Decodes.pure (a : α) : Decodes (pure a : Decoder ε α) [] a := fun _ ↦ rfl

theorem Decodes.bind {d : Decoder ε α} {f : α → Decoder ε β} {bytes more : Bytes} {a : α} {b : β}
    (hd : Decodes d bytes a) (hf : Decodes (f a) more b) : Decodes (d >>= f) (bytes ++ more) b := by
  intro rest
  show (d (bytes ++ more ++ rest) >>= fun p ↦ f p.1 p.2) = _
  rw [List.append_assoc, hd (more ++ rest)]
  exact hf rest

/-- A decoder that consumes nothing may stand before or after another. -/
theorem Decodes.bind_nil {d : Decoder ε α} {f : α → Decoder ε β} {bytes : Bytes} {a : α} {b : β}
    (hd : Decodes d bytes a) (hf : Decodes (f a) [] b) : Decodes (d >>= f) bytes b := by
  simpa using hd.bind hf

theorem Decodes.nil_bind {d : Decoder ε α} {f : α → Decoder ε β} {more : Bytes} {a : α} {b : β}
    (hd : Decodes d [] a) (hf : Decodes (f a) more b) : Decodes (d >>= f) more b := by
  simpa using hd.bind hf

/-! ## Round trips of the primitive readers -/

theorem decodes_takeBytes {short : ℕ → ε} {bytes : Bytes} {length : ℕ} (h : bytes.length = length) :
    Decodes (takeBytes short length) bytes bytes := by
  intro rest
  rw [takeBytes, if_pos (by rw [List.length_append]; omega), List.take_left' h, List.drop_left' h]

theorem decodes_takeByte {short : ℕ → ε} (byte : Byte) :
    Decodes (takeByte short) [byte] byte := by
  have hone : Decodes (takeBytes short 1) [byte] [byte] := decodes_takeBytes rfl
  exact hone.bind_nil (.pure byte)

theorem decodes_takeLe {short : ℕ → ε} {width n : ℕ} (h : n < 256 ^ width) :
    Decodes (takeLe short width) (leBytes width n) n := by
  refine (decodes_takeBytes (length_leBytes width n)).bind_nil ?_
  rw [leNat_leBytes_of_lt h]
  exact .pure n

theorem decodes_takeU64 {short : ℕ → ε} (n : U64) :
    Decodes (takeU64 short) (u64LeBytes n) n := by
  refine (decodes_takeBytes (length_u64LeBytes n)).bind_nil ?_
  rw [u64OfLeBytes_u64LeBytes]
  exact .pure n

/-- Reading a list is reading its elements one after the other. -/
theorem decodes_times {d : Decoder ε α} {encode : α → Bytes} {as : List α}
    (h : ∀ a ∈ as, Decodes d (encode a) a) :
    Decodes (times d as.length) (as.flatMap encode) as := by
  induction as with
  | nil => exact .pure []
  | cons a as ih =>
    rw [List.length_cons, List.flatMap_cons]
    refine (h a (List.mem_cons_self ..)).bind ?_
    exact (ih fun b hb ↦ h b (List.mem_cons_of_mem a hb)).bind_nil (.pure _)

/-! ## What a decoder accepts -/

/-- Whatever the decoder accepts begins with the encoding of what it returns, which is good. -/
def Exact (d : Decoder ε α) (encode : α → Bytes) (Good : α → Prop) : Prop :=
  ∀ ⦃input a rest⦄, d input = .ok (a, rest) → Good a ∧ input = encode a ++ rest

theorem run_bind_eq_ok {d : Decoder ε α} {f : α → Decoder ε β} {input rest : Bytes} {b : β} :
    (d >>= f) input = .ok (b, rest) ↔
      ∃ a mid, d input = .ok (a, mid) ∧ f a mid = .ok (b, rest) := by
  show (d input >>= fun p ↦ f p.1 p.2) = _ ↔ _
  cases d input with
  | error e => exact ⟨nofun, fun ⟨_, _, h, _⟩ ↦ nomatch h⟩
  | ok p => exact ⟨fun h ↦ ⟨p.1, p.2, rfl, h⟩, fun ⟨_, _, h, h'⟩ ↦ by cases h; exact h'⟩

theorem run_pure_eq_ok {a b : α} {input rest : Bytes} :
    (pure a : Decoder ε α) input = .ok (b, rest) ↔ b = a ∧ rest = input := by
  show Except.ok (a, input) = .ok (b, rest) ↔ _
  rw [Except.ok.injEq, Prod.mk.injEq, eq_comm, @eq_comm _ input]

theorem run_lift_eq_ok {result : Except ε α} {a : α} {input rest : Bytes} :
    (liftM result : Decoder ε α) input = .ok (a, rest) ↔ result = .ok a ∧ rest = input := by
  cases result with
  | error e => exact ⟨nofun, fun h ↦ nomatch h.1⟩
  | ok a' =>
    show Except.ok (a', input) = .ok (a, rest) ↔ _
    rw [Except.ok.injEq, Prod.mk.injEq, Except.ok.injEq, @eq_comm _ input]

theorem exact_takeBytes (short : ℕ → ε) (length : ℕ) :
    Exact (takeBytes short length) id fun bytes ↦ bytes.length = length := by
  intro input bytes rest h
  unfold takeBytes at h
  split_ifs at h with hle
  cases h
  exact ⟨List.length_take_of_le hle, (List.take_append_drop length input).symm⟩

theorem exact_takeByte (short : ℕ → ε) :
    Exact (takeByte short) (fun byte ↦ [byte]) fun _ ↦ True := by
  intro input byte rest h
  obtain ⟨bytes, mid, hbytes, h₁⟩ := run_bind_eq_ok.mp h
  obtain ⟨hlength, rfl⟩ := exact_takeBytes short 1 hbytes
  obtain ⟨b, rfl⟩ := List.length_eq_one_iff.mp hlength
  obtain ⟨rfl, rfl⟩ := run_pure_eq_ok.mp h₁
  exact ⟨trivial, rfl⟩

theorem exact_takeLe (short : ℕ → ε) (width : ℕ) :
    Exact (takeLe short width) (leBytes width) fun n ↦ n < 256 ^ width := by
  intro input n rest h
  obtain ⟨bytes, mid, hbytes, h₁⟩ := run_bind_eq_ok.mp h
  obtain ⟨rfl, rfl⟩ := exact_takeBytes short width hbytes
  obtain ⟨rfl, rfl⟩ := run_pure_eq_ok.mp h₁
  exact ⟨leNat_lt bytes, by rw [leBytes_leNat]; rfl⟩

theorem exact_takeU64 (short : ℕ → ε) : Exact (takeU64 short) u64LeBytes fun _ ↦ True := by
  intro input n rest h
  obtain ⟨bytes, mid, hbytes, h₁⟩ := run_bind_eq_ok.mp h
  obtain ⟨hlength, rfl⟩ := exact_takeBytes short 8 hbytes
  obtain ⟨rfl, rfl⟩ := run_pure_eq_ok.mp h₁
  have hlt : leNat bytes < 2 ^ 64 := by
    have hlt := leNat_lt bytes
    rw [hlength] at hlt
    exact hlt
  refine ⟨trivial, ?_⟩
  rw [u64LeBytes, u64OfLeBytes, Fin.val_ofNat, Nat.mod_eq_of_lt hlt, ← hlength, leBytes_leNat]
  rfl

theorem exact_times {d : Decoder ε α} {encode : α → Bytes} {Good : α → Prop}
    (h : Exact d encode Good) (n : ℕ) :
    Exact (times d n) (List.flatMap encode) fun as ↦ as.length = n ∧ ∀ a ∈ as, Good a := by
  induction n with
  | zero =>
    intro input as rest hrun
    obtain ⟨rfl, rfl⟩ := run_pure_eq_ok.mp hrun
    exact ⟨⟨rfl, nofun⟩, rfl⟩
  | succ n ih =>
    intro input as rest hrun
    obtain ⟨a, mid, ha, hrun⟩ := run_bind_eq_ok.mp hrun
    obtain ⟨tail, mid', htail, hrun⟩ := run_bind_eq_ok.mp hrun
    obtain ⟨rfl, rfl⟩ := run_pure_eq_ok.mp hrun
    obtain ⟨hgood, rfl⟩ := h ha
    obtain ⟨⟨hlength, hall⟩, rfl⟩ := ih htail
    refine ⟨⟨by rw [List.length_cons, hlength], List.forall_mem_cons.mpr ⟨hgood, hall⟩⟩, ?_⟩
    rw [List.flatMap_cons, List.append_assoc]

/-! ## Computations that may fail -/

/-- A computation in steps succeeds if each step does. -/
theorem bind_eq_ok {x : Except ε α} {f : α → Except ε β} {b : β} :
    x >>= f = .ok b ↔ ∃ a, x = .ok a ∧ f a = .ok b := by
  cases x with
  | error e => exact ⟨nofun, fun ⟨_, h, _⟩ ↦ nomatch h⟩
  | ok a => exact ⟨fun h ↦ ⟨a, rfl, h⟩, fun ⟨_, h, h'⟩ ↦ by cases h; exact h'⟩

/-- An encoder accepts a list if it accepts every element. -/
theorem mapM_eq_ok_iff {encode : α → Except ε β} {Accepts : α → Prop} {bytes : α → β}
    (h : ∀ a b, encode a = .ok b ↔ Accepts a ∧ b = bytes a) {as : List α} {bs : List β} :
    as.mapM encode = .ok bs ↔ (∀ a ∈ as, Accepts a) ∧ bs = as.map bytes := by
  induction as generalizing bs with
  | nil =>
    rw [List.mapM_nil]
    exact ⟨fun h ↦ ⟨nofun, (Except.ok.inj h).symm⟩, fun h ↦ by rw [h.2]; rfl⟩
  | cons a as ih =>
    rw [List.mapM_cons, List.map_cons, List.forall_mem_cons]
    constructor
    · intro hok
      cases ha : encode a with
      | error e => rw [ha] at hok; cases hok
      | ok b =>
        cases has : as.mapM encode with
        | error e => rw [ha, has] at hok; cases hok
        | ok bs' =>
          obtain ⟨haccepts, rfl⟩ := (h a b).mp ha
          obtain ⟨hall, rfl⟩ := ih.mp has
          rw [ha, has] at hok
          exact ⟨⟨haccepts, hall⟩, (Except.ok.inj hok).symm⟩
    · rintro ⟨⟨haccepts, hall⟩, rfl⟩
      rw [(h a _).mpr ⟨haccepts, rfl⟩, ih.mpr ⟨hall, rfl⟩]
      rfl

/-- A computation for each element of a list succeeds if each of them does. -/
theorem exists_of_mapM_eq_ok {f : α → Except ε β} {as : List α} {bs : List β}
    (h : as.mapM f = .ok bs) : ∀ a ∈ as, ∃ b, f a = .ok b := by
  induction as generalizing bs with
  | nil => exact nofun
  | cons a as ih =>
    rw [List.mapM_cons] at h
    obtain ⟨b, hb, h⟩ := bind_eq_ok.mp h
    obtain ⟨bs', hbs', -⟩ := bind_eq_ok.mp h
    exact List.forall_mem_cons.mpr ⟨⟨b, hb⟩, ih hbs'⟩

/-- A loop of checks succeeds exactly if every check does. -/
theorem forM_eq_ok {f : α → Except ε Unit} {l : List α} :
    l.forM f = .ok () ↔ ∀ a ∈ l, f a = .ok () := by
  induction l with
  | nil => exact ⟨fun _ _ h ↦ absurd h List.not_mem_nil, fun _ ↦ rfl⟩
  | cons a l ih =>
    rw [List.forall_mem_cons, ← ih]
    refine bind_eq_ok.trans ⟨fun ⟨_, ha, hl⟩ ↦ ⟨ha, hl⟩, fun ⟨ha, hl⟩ ↦ ⟨(), ha, hl⟩⟩

theorem mapM_congr {f g : α → Except ε β} {as : List α} (h : ∀ a ∈ as, f a = g a) :
    as.mapM f = as.mapM g := by
  induction as with
  | nil => rfl
  | cons a as ih =>
    obtain ⟨ha, has⟩ := List.forall_mem_cons.mp h
    rw [List.mapM_cons, List.mapM_cons, ha, ih has]

theorem mapM_eq_ok_of_forall {f : α → Except ε β} {g : α → β} {as : List α}
    (h : ∀ a ∈ as, f a = .ok (g a)) : as.mapM f = .ok (as.map g) := by
  induction as with
  | nil => rfl
  | cons a as ih =>
    rw [List.forall_mem_cons] at h
    rw [List.mapM_cons, h.1, ih h.2]
    rfl

end Decoder
