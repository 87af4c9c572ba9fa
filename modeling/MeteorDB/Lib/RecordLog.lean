import MeteorDB.Lib.BlockLog

/-!
# Logs of records that are written, cut and resumed

A record format says how records are turned into the byte strings of a block-framed log and back.
A *whole* log holds its records and nothing else, except perhaps the filling of the last block; a
*torn* one may end inside a record. A writer keeps a log whole, and a crash leaves a torn one that
holds a prefix of the records. Reading a torn log gives its records, and cutting it at the valid
length that reading reports makes it whole again, so that a writer can resume.
-/

namespace BlockLog

open ByteString

variable {ε ρ : Type} {F : Framing}

/-- How records of type `ρ` are written and read. -/
structure RecordFormat (ε ρ : Type) where
  encode : ρ → Bytes
  /-- The records a writer accepts. -/
  Good : ρ → Prop
  consumer : Consumer ε (List ρ)
  encode_ne_nil : ∀ {r}, Good r → encode r ≠ []
  length_encode_le : ∀ {r}, Good r → (encode r).length ≤ consumer.limit
  deliver_encode : ∀ {r} out, Good r → consumer.deliver out (encode r) = .ok (out ++ [r])

variable (F) (R : RecordFormat ε ρ)

/-- The bytes of a log without filling at its end. -/
def logBytes (records : List ρ) : Bytes := (emitAll F 0 (records.map R.encode)).1

/-- The lengths of the filling that may follow some records: none, or the rest of the last block
if it is too short for a header and a further record may come. -/
def Filling (records : List ρ) (filled : ℕ) : Prop :=
  filled = 0 ∨ filled = padding F (emitAll F 0 (records.map R.encode)).2 ∧ ∃ r, R.Good r

/-- A log of records, all accepted, that may be followed by the filling of the last block. -/
structure Whole (records : List ρ) (bytes : Bytes) : Prop where
  good : ∀ r ∈ records, R.Good r
  eq : ∃ filled, Filling F R records filled ∧
    bytes = logBytes F R records ++ List.replicate filled 0

/-- A log cut anywhere: its complete records. -/
def Torn (records : List ρ) (bytes : Bytes) : Prop :=
  ∃ more n, (∀ r ∈ records ++ more, R.Good r) ∧ n ≤ (logBytes F R (records ++ more)).length ∧
    bytes = (logBytes F R (records ++ more)).take n ∧
    Complete F 0 ((records ++ more).map R.encode) n records.length

variable {F R} {records records' : List ρ} {bytes bytes' : Bytes}

theorem logBytes_append (records more : List ρ) :
    logBytes F R (records ++ more) = logBytes F R records
      ++ (emitAll F (emitAll F 0 (records.map R.encode)).2 (more.map R.encode)).1 := by
  rw [logBytes, List.map_append, emitAll_append]
  rfl

theorem deliver_all {out : List ρ} (h : ∀ r ∈ records, R.Good r) :
    (records.map R.encode).foldlM R.consumer.deliver out = .ok (out ++ records) := by
  induction records generalizing out with
  | nil =>
    rw [List.append_nil]
    rfl
  | cons r records ih =>
    rw [List.forall_mem_cons] at h
    rw [List.map_cons, List.foldlM_cons, R.deliver_encode out h.1]
    show (records.map R.encode).foldlM R.consumer.deliver (out ++ [r]) = _
    rw [ih h.2, List.append_assoc, List.singleton_append]

/-- Reading the first bytes of a log. -/
theorem replay_take_logBytes {n : ℕ} (h : ∀ r ∈ records, R.Good r)
    (hn : n ≤ (logBytes F R records).length) :
    ∃ m filled, Complete F 0 (records.map R.encode) n m ∧
      (filled = 0 ∨ filled = padding F (emitAll F 0 ((records.take m).map R.encode)).2) ∧
      (logBytes F R (records.take m)).length + filled ≤ n ∧
      replay F R.consumer ((logBytes F R records).take n) []
        = .ok ⟨records.take m, (logBytes F R (records.take m)).length + filled, n⟩ := by
  have hrecords : ∀ record ∈ records.map R.encode,
      record ≠ [] ∧ record.length ≤ R.consumer.limit := by
    intro record hrecord
    obtain ⟨r, hr, rfl⟩ := List.mem_map.mp hrecord
    exact ⟨R.encode_ne_nil (h r hr), R.length_encode_le (h r hr)⟩
  obtain ⟨m, filled, out, hcomplete, hfilled, hle, hdeliver, hreplay⟩ :=
    replay_take R.consumer hrecords (@deliver_all _ _ R records [] h) hn
  rw [← List.map_take] at hfilled hle hdeliver hreplay
  rw [deliver_all fun r hr ↦ h r (List.mem_of_mem_take hr)] at hdeliver
  obtain rfl := Except.ok.inj hdeliver
  exact ⟨m, filled, hcomplete, hfilled, hle, hreplay⟩

/-! ## Torn logs -/

theorem Complete.unique {offset n m m' : ℕ} {encoded : List Bytes}
    (h : Complete F offset encoded n m) (h' : Complete F offset encoded n m') : m = m' :=
  le_antisymm ((h'.le_iff_within h.le_length).mpr h.within)
    ((h.le_iff_within h'.le_length).mpr h'.within)

/-- A further record starts with the filling of the block the records end in. -/
theorem logBytes_append_cons {r : ρ} (more : List ρ) (hr : R.Good r) :
    ∃ rest, rest ≠ [] ∧ logBytes F R (records ++ r :: more) = logBytes F R records
      ++ (List.replicate (padding F (emitAll F 0 (records.map R.encode)).2) 0 ++ rest) := by
  have hne := R.encode_ne_nil hr
  rw [logBytes_append, List.map_cons, emitAll, emit_eq_padding_append _ true hne]
  simp only [List.append_assoc]
  refine ⟨_, fun hnil ↦ ?_, rfl⟩
  have hlength := length_emit_of_ne_nil (F := F)
    (headerOffset F (emitAll F 0 (records.map R.encode)).2) true hne
  rw [(List.append_eq_nil_iff.mp hnil).1, List.length_nil] at hlength
  simp only [headerBytes] at hlength
  omega

/-- The part of a log that ends with the filling after some of its records. -/
theorem take_logBytes_append {more : List ρ} {filled : ℕ} (hgood : ∀ r ∈ more, R.Good r)
    (hfilled : filled = 0 ∨ filled = padding F (emitAll F 0 (records.map R.encode)).2)
    (hle : (logBytes F R records).length + filled ≤ (logBytes F R (records ++ more)).length) :
    Filling F R records filled ∧
      (logBytes F R (records ++ more)).take ((logBytes F R records).length + filled)
        = logBytes F R records ++ List.replicate filled 0 := by
  rcases hfilled with rfl | rfl
  · refine ⟨.inl rfl, ?_⟩
    rw [Nat.add_zero, logBytes_append, List.take_left, List.replicate_zero, List.append_nil]
  cases more with
  | nil =>
    have hzero : padding F (emitAll F 0 (records.map R.encode)).2 = 0 := by
      simpa using hle
    rw [hzero, Nat.add_zero, List.append_nil, List.take_length]
    exact ⟨.inl rfl, by simp⟩
  | cons r more =>
    have hr := hgood r (List.mem_cons_self ..)
    obtain ⟨rest, -, hrest⟩ := @logBytes_append_cons _ _ F R records r more hr
    refine ⟨.inr ⟨rfl, r, hr⟩, ?_⟩
    rw [hrest, ← List.append_assoc]
    exact List.take_left' (by rw [List.length_append, List.length_replicate])

/-- **Reading a torn log** gives its complete records, and the valid length it reports is that of a
whole log of them. -/
theorem Torn.replay (h : Torn F R records bytes) :
    ∃ valid ≤ bytes.length, Whole F R records (bytes.take valid) ∧
      replay F R.consumer bytes [] = .ok ⟨records, valid, bytes.length⟩ := by
  obtain ⟨more, n, hgood, hn, rfl, hcomplete⟩ := h
  obtain ⟨m, filled, hcomplete', hfilled, hle, hreplay⟩ := replay_take_logBytes hgood hn
  obtain rfl := hcomplete'.unique hcomplete
  rw [List.take_left] at hfilled hle hreplay
  have hlength : ((logBytes F R (records ++ more)).take n).length = n := List.length_take_of_le hn
  obtain ⟨hfilling, htake⟩ := take_logBytes_append
    (fun r hr ↦ hgood r (List.mem_append_right _ hr)) hfilled (hle.trans hn)
  refine ⟨_, hlength.symm ▸ hle, ⟨fun r hr ↦ hgood r (List.mem_append_left _ hr), filled, hfilling,
    ?_⟩, by rw [hlength]; exact hreplay⟩
  rw [List.take_take, Nat.min_eq_left hle, htake]

/-- The first bytes of a log hold the records that lie entirely within them. -/
theorem exists_torn_take {n : ℕ} (h : ∀ r ∈ records, R.Good r) :
    ∃ m ≤ records.length, Torn F R (records.take m) ((logBytes F R records).take n) ∧
      ∀ k ≤ records.length, k ≤ m ↔ (logBytes F R (records.take k)).length ≤ n := by
  obtain ⟨m, -, hcomplete, -⟩ := replay_take_logBytes h
    (min_le_right n (logBytes F R records).length)
  have hm : m ≤ records.length := by simpa using hcomplete.le_length
  refine ⟨m, hm, ⟨records.drop m, min n (logBytes F R records).length, ?_⟩, fun k hk ↦ ?_⟩
  · rw [List.take_append_drop, List.length_take_of_le hm]
    exact ⟨h, min_le_right _ _, (List.take_eq_take_min ..), hcomplete⟩
  · have hwithin := hcomplete.le_iff_within (k := k) (by simpa using hk)
    rw [← List.map_take] at hwithin
    have hle : (logBytes F R (records.take k)).length ≤ (logBytes F R records).length := by
      have happend := @logBytes_append _ _ F R (records.take k) (records.drop k)
      rw [List.take_append_drop] at happend
      rw [happend, List.length_append]
      exact Nat.le_add_right _ _
    exact hwithin.trans ⟨fun h ↦ h.trans (min_le_left _ _), fun h ↦ le_min h hle⟩

/-! ## Whole logs -/

theorem Whole.nil : Whole F R [] [] :=
  ⟨nofun, 0, .inl rfl, rfl⟩

theorem Whole.torn (h : Whole F R records bytes) : Torn F R records bytes := by
  obtain ⟨hgood, filled, rfl | ⟨rfl, r, hr⟩, rfl⟩ := h
  · refine ⟨[], (logBytes F R records).length, by rwa [List.append_nil], ?_, ?_, ?_, ?_, ?_⟩
    · rw [List.append_nil]
    · simp
    · simp
    · simp only [List.append_nil]
      rw [← List.map_take, List.take_length]
      exact le_rfl
    · intro hlt
      simp at hlt
  · obtain ⟨rest, hne, hrest⟩ := @logBytes_append_cons _ _ F R records r [] hr
    refine ⟨[r], (logBytes F R records).length
      + padding F (emitAll F 0 (records.map R.encode)).2, ?_, ?_, ?_, ?_, ?_, ?_⟩
    · intro r' hr'
      rcases List.mem_append.mp hr' with hr' | hr'
      · exact hgood r' hr'
      · rwa [List.mem_singleton.mp hr']
    · rw [hrest]
      simp
    · rw [hrest, ← List.append_assoc]
      exact (List.take_left' (by simp)).symm
    · simp
    · rw [← List.map_take, List.take_left]
      exact Nat.le_add_right _ _
    · intro _
      have hall : ((records ++ [r]).map R.encode).take (records.length + 1)
          = (records ++ [r]).map R.encode := List.take_of_length_le (by simp)
      rw [hall]
      show _ < (logBytes F R (records ++ [r])).length
      have := List.length_pos_iff.mpr hne
      rw [hrest, List.length_append, List.length_append, List.length_replicate]
      omega

theorem Whole.append_eq {r : ρ} {offset : ℕ} (h : Whole F R records bytes) (hr : R.Good r)
    (hoff : offset ≤ F.blockBytes) (hpos : bytes.length % F.blockBytes = offset % F.blockBytes) :
    bytes ++ (emit F offset true (R.encode r)).1 = logBytes F R (records ++ [r]) := by
  obtain ⟨hgood, filled, hfilling, rfl⟩ := h
  have hne := R.encode_ne_nil hr
  have hlength : (logBytes F R records ++ List.replicate filled 0).length
      = (logBytes F R records).length + filled := by simp
  obtain ⟨hend, hendpos⟩ := @emitAll_offset F 0 (records.map R.encode) 0 (Nat.zero_le _) rfl
  rw [Nat.zero_add] at hendpos
  have hfilled := hfilling.imp_right And.left
  -- both writers resume at the same place: the first behind the records, the second behind the
  -- filling
  have hfirst := emit_resume hend hendpos hfilled hne
  have hsecond := emit_resume hoff hpos (.inl rfl) hne
  rw [logBytes_append, List.map_singleton, emitAll, emitAll, List.append_nil, hfirst, hsecond,
    hlength, Nat.add_zero, List.replicate_zero, List.nil_append, List.append_assoc]
  rfl

/-- **Appending to a whole log.** A writer whose offset fits the length of the log keeps it
whole. -/
theorem Whole.append {r : ρ} {offset : ℕ} (h : Whole F R records bytes) (hr : R.Good r)
    (hoff : offset ≤ F.blockBytes) (hpos : bytes.length % F.blockBytes = offset % F.blockBytes) :
    Whole F R (records ++ [r]) (bytes ++ (emit F offset true (R.encode r)).1) := by
  refine ⟨fun r' hr' ↦ ?_, 0, .inl rfl, ?_⟩
  · rcases List.mem_append.mp hr' with hr' | hr'
    · exact h.good r' hr'
    · rwa [List.mem_singleton.mp hr']
  · rw [h.append_eq hr hoff hpos, List.replicate_zero, List.append_nil]

/-! ## Folding over the records of a log

A reader may act on every record as it meets it instead of collecting them first. It then accepts
the logs whose records can be read and whose fold succeeds. -/

section Fold

variable {σ : Type} (fault : Fault → ε) (limit : ℕ) (tooLong : ε) (decode : Bytes → Except ε ρ)

/-- The consumer that decodes each record and takes one step with it. -/
def foldConsumer (step : σ → ρ → Except ε σ) : Consumer ε σ where
  fault := fault
  limit := limit
  tooLong := tooLong
  deliver out encoded := decode encoded >>= step out

/-- What the consumer gets from one fragment: the record under assembly and, if the fragment ends
a record, that record. -/
private def received (position : ℕ) (pending : Option (Bytes × ℕ)) (ty : Byte)
    (fragment : Bytes) : Except ε (Option (Bytes × ℕ) × Option ρ) :=
  (consume (foldConsumer fault limit tooLong decode fun _ r ↦ .ok (some r)) position
    ⟨pending, none⟩ ty fragment).map fun st ↦ (st.pending, st.out)

variable {fault limit tooLong decode}

private theorem consume_foldConsumer (step : σ → ρ → Except ε σ) (position : ℕ)
    (pending : Option (Bytes × ℕ)) (out : σ) (ty : Byte) (fragment : Bytes) :
    consume (foldConsumer fault limit tooLong decode step) position ⟨pending, out⟩ ty fragment =
      match received fault limit tooLong decode position pending ty fragment with
      | .error e => .error e
      | .ok (pending', none) => .ok ⟨pending', out⟩
      | .ok (pending', some r) => (step out r).map fun out' ↦ ⟨pending', out'⟩ := by
  have hdeliver (encoded : Bytes) :
      ((decode encoded >>= step out).map fun out' ↦ (⟨none, out'⟩ : Assembly σ)) =
        match (((decode encoded >>= fun r ↦ .ok (some r)).map fun out' ↦
            (⟨none, out'⟩ : Assembly (Option ρ))).map fun st ↦ (st.pending, st.out)) with
        | .error e => .error e
        | .ok (pending', none) => .ok ⟨pending', out⟩
        | .ok (pending', some r) => (step out r).map fun out' ↦ ⟨pending', out'⟩ := by
    cases decode encoded <;> rfl
  have happend (logical : Bytes) :
      appendFragment (foldConsumer fault limit tooLong decode step) logical fragment
        = appendFragment (foldConsumer fault limit tooLong decode fun _ r ↦ .ok (some r)) logical
          fragment := rfl
  cases pending with
  | none =>
    simp only [received, consume, happend]
    split_ifs
    · exact hdeliver fragment
    · cases appendFragment (foldConsumer fault limit tooLong decode fun _ r ↦ .ok (some r)) []
        fragment <;> rfl
    · rfl
    · rfl
  | some chain =>
    obtain ⟨logical, start⟩ := chain
    simp only [received, consume, happend]
    split_ifs
    · cases appendFragment (foldConsumer fault limit tooLong decode fun _ r ↦ .ok (some r)) logical
        fragment <;> rfl
    · cases appendFragment (foldConsumer fault limit tooLong decode fun _ r ↦ .ok (some r)) logical
        fragment with
      | error e => rfl
      | ok record => exact hdeliver record
    · rfl
    · rfl
    · rfl

/-- Reading on from a position is a fold over the records that end there, followed by the end of
the reading, and neither depends on what is done with the records. -/
private theorem readFrom_foldConsumer (position : ℕ) (rest : Bytes)
    (pending : Option (Bytes × ℕ)) :
    ∃ (records : List ρ) (final : Except ε (ℕ × ℕ)), ∀ {σ : Type} (step : σ → ρ → Except ε σ)
      (out : σ),
      readFrom F (foldConsumer fault limit tooLong decode step) position rest ⟨pending, out⟩
        = records.foldlM step out >>= fun out' ↦ final.map fun ends ↦ ⟨out', ends.1, ends.2⟩ := by
  induction hn : rest.length using Nat.strong_induction_on
    generalizing position rest pending with
  | h n ih =>
    by_cases hrest : rest = []
    · refine ⟨[], .ok (validUpTo position ⟨pending, ()⟩, position), fun step out ↦ ?_⟩
      rw [readFrom, if_pos hrest]
      rfl
    have hpos := List.length_pos_iff.mpr hrest
    have hroom := room_pos F position
    by_cases hshort : min (room F position) rest.length < headerBytes
    · by_cases hlast : rest.length ≤ room F position
      · refine ⟨[], .ok (validUpTo position ⟨pending, ()⟩, position + rest.length),
          fun step out ↦ ?_⟩
        rw [readFrom, if_neg hrest, if_pos hshort, if_pos hlast]
        rfl
      by_cases hzero : (rest.take (room F position)).any (· ≠ 0)
      · refine ⟨[], .error (fault .trailer), fun step out ↦ ?_⟩
        rw [readFrom, if_neg hrest, if_pos hshort, if_neg hlast, if_pos hzero]
        rfl
      obtain ⟨records, final, h⟩ := ih _ (by rw [List.length_drop]; omega)
        (position + room F position) (rest.drop (room F position)) pending rfl
      refine ⟨records, final, fun step out ↦ ?_⟩
      rw [readFrom, if_neg hrest, if_pos hshort, if_neg hlast, if_neg hzero, h]
    by_cases hcross : min (room F position) rest.length < headerBytes + (parseHeader rest).2.1
    · by_cases hlast : rest.length ≤ room F position
      · refine ⟨[], .ok (validUpTo position ⟨pending, ()⟩, position + rest.length),
          fun step out ↦ ?_⟩
        rw [readFrom, if_neg hrest, if_neg hshort]
        simp only
        rw [if_pos hcross, if_pos hlast]
        rfl
      · refine ⟨[], .error (fault (.crosses (parseHeader rest).2.1)), fun step out ↦ ?_⟩
        rw [readFrom, if_neg hrest, if_neg hshort]
        simp only
        rw [if_pos hcross, if_neg hlast]
        rfl
    by_cases hverify : F.verify (parseHeader rest).1 (parseHeader rest).2.2
        ((rest.drop headerBytes).take (parseHeader rest).2.1)
    swap
    · refine ⟨[], .error (fault .checksum), fun step out ↦ ?_⟩
      rw [readFrom, if_neg hrest, if_neg hshort]
      simp only
      rw [if_neg hcross, if_neg hverify]
      rfl
    -- the fragment is consumed, and if it ends a record the fold starts with that record
    have hread {σ : Type} (step : σ → ρ → Except ε σ) (out : σ) :
        readFrom F (foldConsumer fault limit tooLong decode step) position rest ⟨pending, out⟩ =
          (consume (foldConsumer fault limit tooLong decode step) position ⟨pending, out⟩
            (parseHeader rest).2.2 ((rest.drop headerBytes).take (parseHeader rest).2.1)).bind
          fun st' ↦ readFrom F (foldConsumer fault limit tooLong decode step)
            (position + headerBytes + (parseHeader rest).2.1)
            (rest.drop (headerBytes + (parseHeader rest).2.1)) st' := by
      rw [readFrom, if_neg hrest, if_neg hshort]
      simp only
      refine (if_neg hcross).trans ((if_pos hverify).trans ?_)
      generalize consume _ _ _ _ _ = result
      cases result <;> rfl
    have hnext := ih (rest.drop (headerBytes + (parseHeader rest).2.1)).length
      (by rw [List.length_drop]; unfold headerBytes; omega)
      (position + headerBytes + (parseHeader rest).2.1)
      (rest.drop (headerBytes + (parseHeader rest).2.1))
    cases hreceived : received fault limit tooLong decode position pending (parseHeader rest).2.2
        ((rest.drop headerBytes).take (parseHeader rest).2.1) with
    | error e =>
      refine ⟨[], .error e, fun step out ↦ ?_⟩
      rw [hread, consume_foldConsumer, hreceived]
      rfl
    | ok got =>
      obtain ⟨pending', _ | r⟩ := got
      · obtain ⟨records, final, h⟩ := hnext pending' rfl
        refine ⟨records, final, fun step out ↦ ?_⟩
        rw [hread, consume_foldConsumer, hreceived, ← h]
        rfl
      · obtain ⟨records, final, h⟩ := hnext pending' rfl
        refine ⟨r :: records, final, fun step out ↦ ?_⟩
        rw [hread, consume_foldConsumer, hreceived, List.foldlM_cons]
        simp only
        cases step out r with
        | error e => rfl
        | ok next => exact h step next

/-- **Folding a log.** A reader that takes one step with each record succeeds exactly if the
records can be collected and the steps succeed one after the other. -/
theorem replay_foldConsumer_eq_ok {step : σ → ρ → Except ε σ} {bytes : Bytes}
    {out out' : σ} {valid length : ℕ} :
    BlockLog.replay F (foldConsumer fault limit tooLong decode step) bytes out
        = .ok ⟨out', valid, length⟩ ↔
      ∃ records, BlockLog.replay F
          (foldConsumer fault limit tooLong decode fun l r ↦ .ok (l ++ [r])) bytes []
            = .ok ⟨records, valid, length⟩ ∧ records.foldlM step out = .ok out' := by
  obtain ⟨records, final, h⟩ := @readFrom_foldConsumer _ _ F fault limit tooLong decode 0 bytes
    none
  have hcollect (l before : List ρ) :
      l.foldlM (fun l r ↦ (.ok (l ++ [r]) : Except ε (List ρ))) before = .ok (before ++ l) := by
    induction l generalizing before with
    | nil => rw [List.append_nil]; rfl
    | cons r l ih =>
      rw [List.foldlM_cons]
      exact (ih (before ++ [r])).trans (by rw [List.append_assoc]; rfl)
  rw [replay_eq_readFrom, replay_eq_readFrom, h, h, hcollect, List.nil_append]
  cases hfold : records.foldlM step out with
  | error e =>
    refine ⟨nofun, fun ⟨records', hcollected, hfold'⟩ ↦ ?_⟩
    cases final with
    | error e => cases hcollected
    | ok ends =>
      obtain rfl := congrArg Summary.out (Except.ok.inj hcollected)
      exact nomatch hfold.symm.trans hfold'
  | ok reached =>
    cases final with
    | error e => exact ⟨nofun, nofun⟩
    | ok ends =>
      constructor
      · intro h
        cases h
        exact ⟨records, rfl, hfold⟩
      · rintro ⟨records', hcollected, hfold'⟩
        cases hcollected
        cases hfold.symm.trans hfold'
        rfl

end Fold

end BlockLog
