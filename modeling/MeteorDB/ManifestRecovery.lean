import MeteorDB.VersionSet

/-!
# Cutting a manifest and resuming it

A version set applies edits, one after another, while the rest of the directory may change under
it. If the manifest is then cut anywhere behind its first edit, recovery gives the state after the
edits that are still complete, and the recovered version set can go on: what it appends is read
back by the next recovery, behind the edits that were kept.
-/

namespace MeteorDB

open ByteString Decoder BlockLog CrashFs

variable [Crc32c]

/-! ## Runs of a version set -/

/-- Edits are applied one after another, and the list has those that were accepted. In between,
anything may happen to files other than `CURRENT` and the manifest. -/
inductive Applies (vs : VersionSet) (d : Disk FileName) :
    List VersionEdit → VersionSet → Disk FileName → Prop
  | start : Applies vs d [] vs d
  | accepted {edits : List VersionEdit} {edit : VersionEdit} {vs₁ vs₂ : VersionSet}
      {d₁ d₂ : Disk FileName} (h : Applies vs d edits vs₁ d₁)
      (hexec : ((VersionSet.apply edit).run.run vs₁).exec d₁ = ((.ok (), vs₂), d₂)) :
      Applies vs d (edits ++ [edit]) vs₂ d₂
  | refused {edits : List VersionEdit} {edit : VersionEdit} {vs₁ vs₂ : VersionSet} {error : Error}
      {d₁ d₂ : Disk FileName} (h : Applies vs d edits vs₁ d₁)
      (hexec : ((VersionSet.apply edit).run.run vs₁).exec d₁ = ((.error error, vs₂), d₂)) :
      Applies vs d edits vs₂ d₂
  | others {edits : List VersionEdit} {vs₁ : VersionSet} {d₁ d₂ : Disk FileName}
      (h : Applies vs d edits vs₁ d₁)
      (hcurrent : d₂.file .current = d₁.file .current)
      (hmanifest : d₂.file (.manifest vs₁.manifestNumber)
        = d₁.file (.manifest vs₁.manifestNumber)) :
      Applies vs d edits vs₁ d₂

/-- A version set whose manifest is the one `CURRENT` names and logs the edits. -/
structure Tracks (vs : VersionSet) (edits : List VersionEdit) (file : File) (d : Disk FileName) :
    Prop where
  current : ∃ current, d.file .current = some current ∧
    parseCurrent current.bytes = .ok vs.manifestNumber
  manifest : d.file (.manifest vs.manifestNumber) = some file
  logs : vs.Logs edits file.bytes

variable {vs vs' : VersionSet} {edits more : List VersionEdit} {edit : VersionEdit} {file : File}
  {d d' : Disk FileName}

/-- What one call of `VersionSet.apply` does without failures of the filesystem. -/
theorem Tracks.exec_apply (h : Tracks vs edits file d) {result : Except Error Unit}
    (hexec : ((VersionSet.apply edit).run.run vs).exec d = ((result, vs'), d')) :
    (result = .ok () ∧ ∃ state, vs.Admits edit d state ∧ vs' = vs.advance edit state ∧
        Tracks vs' (edits ++ [edit]) (.durable (file.bytes ++ vs.recordBytes edit)) d') ∨
      (∃ error, result = .error error) ∧ (∀ state, ¬ vs.Admits edit d state) ∧ vs' = vs ∧
        Tracks vs edits file d' := by
  have hpath := h.logs.path
  have hwp : wp false (fun _ ↦ True) (fun _ ↦ True)
      (fun r d' ↦ ∃ r', VersionSet.ApplyOutcome false vs edit file d r' d' ∧
        r = (r'.1.mapError VersionApplyError.error, r'.2))
      ((VersionSet.apply edit).run.run vs) d :=
    wp_adapt_st (wp_post (VersionSet.wp_applyWithVisibility h.logs.usable
      (fun _ ↦ by rw [hpath]; nofun) (by rw [hpath]; exact h.manifest) (fun _ _ ↦ trivial)
      ⟨fun _ ↦ trivial, trivial⟩ fun _ _ _ _ ↦ trivial) fun r d' _ hr ↦ ⟨r, hr, rfl⟩)
  obtain ⟨-, r', houtcome, hr'⟩ := wp_exec hwp
  rw [hexec] at houtcome hr'
  have hslot {d₁ : Disk FileName} {name : FileName} (hname : ∀ number, name ≠ .sst number)
      (hd₁ : Disk.Resynced (VersionSet.addedTables edit) d d₁) : d₁.file name = d.file name := by
    refine congrArg Slot.entry (hd₁.slot_of_notMem ?_)
    rintro ⟨added, -, rfl⟩
    exact hname _ rfl
  cases houtcome with
  | @applied state d₁ _ hadmits hsynced hdone =>
    obtain ⟨rfl, rfl⟩ := Prod.mk.inj hr'
    refine .inl ⟨rfl, state, hadmits, rfl, ?_, ?_, h.logs.advance hadmits⟩
    · obtain ⟨current, hcurrent, hparse⟩ := h.current
      refine ⟨current, ?_, hparse⟩
      rw [← hcurrent, ← hslot (by nofun) hsynced]
      exact hdone.file_of_ne (by rw [hpath]; nofun)
    · show d'.file (.manifest vs.manifestNumber) = _
      rw [← hpath]
      exact hdone.file_self
  | @refused error _ hrefused hsynced =>
    obtain ⟨rfl, rfl⟩ := Prod.mk.inj hr'
    obtain ⟨current, hcurrent, hparse⟩ := h.current
    exact .inr ⟨⟨_, rfl⟩, hrefused.resolve_left nofun, rfl,
      ⟨current, (hslot (by nofun) hsynced).trans hcurrent, hparse⟩,
      (hslot (by nofun) hsynced).trans h.manifest, h.logs⟩
  | broken hfaults => cases hfaults

/-- The log without filling at its end. -/
def manifestBytes (edits : List VersionEdit) : Bytes := logBytes logFraming manifestFormat edits

/-- The state after a list of edits. -/
def stateAfter (state : VersionState) (edits : List VersionEdit) : Result VersionState :=
  edits.foldlM (VersionState.apply false) state

/-- **A run of a version set.** The manifest logs the accepted edits behind those it had, and the
state is the one they lead to. -/
theorem Tracks.applies (h : Tracks vs edits file d) (hrun : Applies vs d more vs' d') :
    vs'.manifestNumber = vs.manifestNumber ∧ stateAfter vs.state more = .ok vs'.state ∧
      ∃ file', Tracks vs' (edits ++ more) file' d' ∧
        (file.bytes = manifestBytes edits → file'.bytes = manifestBytes (edits ++ more)) := by
  induction hrun with
  | start =>
    exact ⟨rfl, rfl, file, by rw [List.append_nil]; exact h, by rw [List.append_nil]; exact id⟩
  | accepted hrun hexec ih =>
    obtain ⟨hnumber, hstate, file', htracks, hbytes⟩ := ih
    obtain ⟨-, state, hadmits, rfl, htracks'⟩ | ⟨⟨error, herror⟩, -⟩ := htracks.exec_apply hexec
    · refine ⟨hnumber, ?_, _, by rw [← List.append_assoc]; exact htracks', fun _ ↦ ?_⟩
      · rw [stateAfter, List.foldlM_append]
        refine bind_eq_ok.mpr ⟨_, hstate, ?_⟩
        rw [List.foldlM_cons, hadmits.apply]
        rfl
      · rw [← List.append_assoc]
        exact htracks.logs.whole.append_eq hadmits.encodable htracks.logs.offset_le
          htracks.logs.offset_mod
    · cases herror
  | refused hrun hexec ih =>
    obtain ⟨hnumber, hstate, file', htracks, hbytes⟩ := ih
    obtain ⟨hok, -⟩ | ⟨-, -, rfl, htracks'⟩ := htracks.exec_apply hexec
    · cases hok
    · exact ⟨hnumber, hstate, file', htracks', hbytes⟩
  | others hrun hcurrent hmanifest ih =>
    obtain ⟨hnumber, hstate, file', htracks, hbytes⟩ := ih
    obtain ⟨current, hfile, hparse⟩ := htracks.current
    exact ⟨hnumber, hstate, file', ⟨⟨current, hcurrent.trans hfile, hparse⟩,
      hmanifest.trans htracks.manifest, htracks.logs⟩, hbytes⟩

/-! ## Recovery -/

omit [Crc32c] in
/-- A state that some edits lead to is the one they are replayed to. -/
theorem foldlM_apply_of_stateAfter {state state' : VersionState}
    (h : stateAfter state edits = .ok state') :
    edits.foldlM (VersionState.apply true) state = .ok state' ∧
      state.counters.nextFileNumber ≤ state'.counters.nextFileNumber := by
  induction edits generalizing state with
  | nil =>
    obtain rfl := Except.ok.inj h
    exact ⟨rfl, le_rfl⟩
  | cons edit edits ih =>
    rw [stateAfter, List.foldlM_cons] at h
    obtain ⟨next, hnext, h⟩ := bind_eq_ok.mp h
    obtain ⟨hreplay, hle⟩ := ih h
    refine ⟨?_, (VersionState.le_of_apply hnext).nextFileNumber.trans hle⟩
    rw [List.foldlM_cons,
      VersionState.apply_eq_ok.mpr (VersionState.apply_eq_ok.mp hnext)]
    exact hreplay

omit [Crc32c] in
private theorem recoverable_of_stateAfter {state : VersionState}
    (h : stateAfter initialState edits = .ok state) :
    Recoverable 1 (initialEdit :: edits) state := by
  obtain ⟨hreplay, hle⟩ := foldlM_apply_of_stateAfter h
  refine ⟨List.cons_ne_nil _ _, ?_, fun hzero ↦ ?_⟩
  · have hfirst := recoverable_initialEdit.replay
    rw [VersionState.replay, List.foldlM_cons] at hfirst ⊢
    obtain ⟨first, happly, hfirst⟩ := bind_eq_ok.mp hfirst
    obtain rfl := Except.ok.inj hfirst
    rw [happly]
    exact hreplay
  · rw [hzero] at hle
    exact absurd hle (by decide)

omit [Crc32c] in
/-- A prefix of edits that lead to a state leads to a state. -/
theorem exists_stateAfter_take {state state' : VersionState} (m : ℕ)
    (h : stateAfter state edits = .ok state') :
    ∃ prior, stateAfter state (edits.take m) = .ok prior := by
  rw [← List.take_append_drop m edits, stateAfter, List.foldlM_append] at h
  obtain ⟨prior, hprior, -⟩ := bind_eq_ok.mp h
  exact ⟨prior, hprior⟩

/-- Recovering from a manifest that may be torn. -/
theorem exec_recover {number : U64} {state : VersionState}
    (hcurrent : ∃ current, d.file .current = some current ∧ parseCurrent current.bytes = .ok number)
    (hfile : d.file (.manifest number) = some file)
    (htorn : Torn logFraming manifestFormat edits file.bytes)
    (hrecoverable : Recoverable number edits state) (hpresent : state.version.Present d) :
    ∃ vs file' d', VersionSet.recover.run.exec d = (.ok vs, d') ∧ vs.manifestNumber = number ∧
      vs.state = state ∧ Tracks vs edits file' d' := by
  obtain ⟨current, hcurrent, hparse⟩ := hcurrent
  have hwp : wp false (fun _ ↦ True) (fun _ ↦ True)
      (fun r d' ↦ ∃ vs file', r = .ok vs ∧ vs.manifestNumber = number ∧ vs.state = state ∧
        Tracks vs edits file' d') VersionSet.recover.run d := by
    refine VersionSet.wp_recover hcurrent hparse hfile htorn hrecoverable hpresent
      (fun _ ↦ trivial) ⟨fun _ ↦ trivial, trivial⟩ trivial (fun _ _ _ _ _ ↦ trivial)
      (fun vs file' d' hlogs hnumber hstate htrimmed ↦ ?_) nofun
    refine ⟨vs, file', rfl, hnumber, hstate, ?_, ?_, hlogs⟩
    · refine ⟨current, ?_, hnumber ▸ hparse⟩
      cases htrimmed with
      | whole => exact hcurrent
      | cut hpre hd' => exact (hd'.file_of_ne (by nofun)).trans hcurrent
    · rw [hnumber]
      cases htrimmed with
      | whole => exact hfile
      | cut hpre hd' => exact hd'.file_self
  obtain ⟨-, vs, file', hok, hnumber, hstate, htracks⟩ := wp_exec hwp
  exact ⟨vs, file', _, Prod.ext hok rfl, hnumber, hstate, htracks⟩

/-- Creating a version set in a directory that has none. -/
theorem exec_create (hcurrent : d.slot .current = {}) (hmanifest : d.slot (.manifest 1) = {}) :
    ∃ vs d', VersionSet.create.run.exec d = (.ok vs, d') ∧ vs.manifestNumber = 1 ∧
      vs.state = initialState ∧ Tracks vs [initialEdit] (.durable initialLog) d' := by
  have hnone {name : FileName} {entry : Option File} (hslot : d.slot name = {})
      (hentry : (d.slot name).MayBe entry) : entry = none := by
    rw [hslot] at hentry
    exact hentry.elim id nofun
  have hwp : wp false (fun _ ↦ True) (Boot d)
      (fun r d' ↦ ∃ vs, r = .ok vs ∧ vs.manifestNumber = 1 ∧ vs.state = initialState ∧
        Tracks vs [initialEdit] (.durable initialLog) d') VersionSet.create.run d := by
    refine VersionSet.wp_create (fun _ ↦ trivial) (fun entry ↦ hnone hcurrent)
      (fun entry hentry ↦ .inl (hnone hmanifest hentry)) ?_ nofun
    intro vs d' hlogs hnumber hstate hbooted
    refine ⟨vs, rfl, hnumber, hstate, ⟨_, congrArg Slot.entry hbooted.current, ?_⟩, ?_, hlogs⟩
    · rw [hnumber]
      exact parseCurrent_currentText
    · rw [hnumber]
      exact congrArg Slot.entry hbooted.manifest
  obtain ⟨-, vs, hok, hpost⟩ := wp_exec hwp
  exact ⟨vs, _, Prod.ext hok rfl, hpost⟩

/-- **Cutting and resuming.** Edits are applied to a new version set, the manifest is cut anywhere
behind its first edit, and the version set is recovered: its state is the one after the edits that
lie entirely within the bytes that are left. Further edits are applied, and the version set is
recovered once more: its state is the one after the edits that were kept and the further ones. -/
theorem recover_cut_apply_recover (d d₁ d₂ d₃ : Disk FileName) (vs₁ vs₂ : VersionSet)
    (edits : List VersionEdit) (file : File) (n : ℕ) (hcurrent : d.slot .current = {})
    (hmanifest : d.slot (.manifest 1) = {})
    (hcreate : VersionSet.create.run.exec d = (.ok vs₁, d₁)) (hrun : Applies vs₁ d₁ edits vs₂ d₂)
    (hfile : d₂.file (.manifest 1) = some file)
    (hcut : (d₃.file (.manifest 1)).map File.bytes = some (file.bytes.take n))
    (hkept : d₃.file .current = d₂.file .current)
    (hfirst : (manifestBytes [initialEdit]).length ≤ n) :
    file.bytes = manifestBytes (initialEdit :: edits) ∧
    ∃ m ≤ edits.length,
      (∀ k ≤ edits.length, k ≤ m ↔ (manifestBytes (initialEdit :: edits.take k)).length ≤ n) ∧
      ∃ state, stateAfter initialState (edits.take m) = .ok state ∧
        (state.version.Present d₃ → ∃ vs₄ d₄,
          VersionSet.recover.run.exec d₃ = (.ok vs₄, d₄) ∧ vs₄.state = state ∧
          ∀ more vs₅ d₅, Applies vs₄ d₄ more vs₅ d₅ →
            ∃ state', stateAfter initialState (edits.take m ++ more) = .ok state' ∧
              (state'.version.Present d₅ → ∃ vs₆ d₆,
                VersionSet.recover.run.exec d₅ = (.ok vs₆, d₆) ∧ vs₆.state = state')) := by
  obtain ⟨vs, d', hexec, hnumber₁, hstate₁, htracks₁⟩ := exec_create hcurrent hmanifest
  obtain ⟨hok, rfl⟩ := Prod.mk.inj (hexec.symm.trans hcreate)
  obtain rfl := Except.ok.inj hok
  obtain ⟨hnumber₂, hstate₂, file₂, htracks₂, hbytes⟩ := htracks₁.applies hrun
  have hnumber₂ := hnumber₂.trans hnumber₁
  rw [hstate₁] at hstate₂
  obtain rfl : file₂ = file := by
    have hfile₂ := htracks₂.manifest
    rw [hnumber₂, hfile] at hfile₂
    exact (Option.some.inj hfile₂).symm
  have hbytes : file₂.bytes = manifestBytes (initialEdit :: edits) := hbytes rfl
  refine ⟨hbytes, ?_⟩
  obtain ⟨m, hm, htorn, hmax⟩ := @exists_torn_take _ _ logFraming manifestFormat
    (initialEdit :: edits) n htracks₂.logs.whole.good
  have hpos : 1 ≤ m := (hmax 1 (by simp)).mpr hfirst
  obtain ⟨m, rfl⟩ := Nat.exists_eq_add_of_le' hpos
  rw [List.take_succ_cons] at htorn
  refine ⟨m, by simpa using hm, fun k hk ↦ ?_, ?_⟩
  · have hk' := hmax (k + 1) (by simpa using hk)
    rwa [Nat.add_le_add_iff_right, List.take_succ_cons] at hk'
  obtain ⟨state, hstate⟩ := exists_stateAfter_take m hstate₂
  refine ⟨state, hstate, fun hpresent ↦ ?_⟩
  obtain ⟨file₃, hfile₃, hbytes₃⟩ := Option.map_eq_some_iff.mp hcut
  have hcurrent₃ : ∃ current, d₃.file .current = some current ∧
      parseCurrent current.bytes = .ok 1 := by
    obtain ⟨current, hfile, hparse⟩ := htracks₂.current
    exact ⟨current, hkept.trans hfile, hnumber₂ ▸ hparse⟩
  have htorn₃ : Torn logFraming manifestFormat (initialEdit :: edits.take m) file₃.bytes := by
    rw [hbytes₃, hbytes]
    exact htorn
  obtain ⟨vs₄, file₄, d₄, hexec₄, hnumber₄, hstate₄, htracks₄⟩ := exec_recover hcurrent₃ hfile₃
    htorn₃ (recoverable_of_stateAfter hstate) hpresent
  refine ⟨vs₄, d₄, hexec₄, hstate₄, fun more vs₅ d₅ hrun₅ ↦ ?_⟩
  obtain ⟨hnumber₅, hstate₅, file₅, htracks₅, -⟩ := htracks₄.applies hrun₅
  have hnumber₅ := hnumber₅.trans hnumber₄
  have hstate' : stateAfter initialState (edits.take m ++ more) = .ok vs₅.state := by
    rw [stateAfter, List.foldlM_append]
    exact bind_eq_ok.mpr ⟨state, hstate, hstate₄ ▸ hstate₅⟩
  refine ⟨vs₅.state, hstate', fun hpresent₅ ↦ ?_⟩
  obtain ⟨vs₆, -, d₆, hexec₆, -, hstate₆, -⟩ := exec_recover (hnumber₅ ▸ htracks₅.current)
    (hnumber₅ ▸ htracks₅.manifest) htracks₅.logs.whole.torn (recoverable_of_stateAfter hstate')
    hpresent₅
  exact ⟨vs₆, d₆, hexec₆, hstate₆⟩

omit [Crc32c] in
/-- An edit that reserves a file number is recorded, and cut off by a byte. -/
theorem recover_cut_apply_recover_byte :
    letI := castagnoli
    let edit : VersionEdit := { nextFileNumber := some 3 }
    let n := (manifestBytes [initialEdit, edit]).length - 1
    ∃ d₁ d₂ d₃ vs₁ vs₂ file, VersionSet.create.run.exec Disk.empty = (.ok vs₁, d₁) ∧
      Applies vs₁ d₁ [edit] vs₂ d₂ ∧ d₂.file (.manifest 1) = some file ∧
      (d₃.file (.manifest 1)).map File.bytes = some (file.bytes.take n) ∧
      d₃.file .current = d₂.file .current ∧ (manifestBytes [initialEdit]).length ≤ n ∧
      ∃ m ≤ 1, (∀ k ≤ 1, k ≤ m ↔ (manifestBytes (initialEdit :: [edit].take k)).length ≤ n) ∧
        ∃ state, stateAfter initialState ([edit].take m) = .ok state ∧
          (state.version.Present d₃ → ∃ vs₄ d₄,
            VersionSet.recover.run.exec d₃ = (.ok vs₄, d₄) ∧ vs₄.state = state ∧
            ∀ more vs₅ d₅, Applies vs₄ d₄ more vs₅ d₅ →
              ∃ state', stateAfter initialState ([edit].take m ++ more) = .ok state' ∧
                (state'.version.Present d₅ → ∃ vs₆ d₆,
                  VersionSet.recover.run.exec d₅ = (.ok vs₆, d₆) ∧ vs₆.state = state')) := by
  let := castagnoli
  intro edit n
  obtain ⟨vs₁, d₁, hcreate, hnumber, hstate, htracks⟩ := @exec_create _ Disk.empty rfl rfl
  have happly : initialState.apply false edit
      = .ok ⟨.empty, {1}, ⟨3, 0, 0, 0, 0⟩⟩ := by
    refine VersionState.apply_eq_ok.mpr
      ⟨⟨⟨by decide, by decide, by decide, by decide, by decide⟩, nofun,
        ⟨by decide, by decide, by decide⟩, ⟨?_, by decide, nofun, nofun, nofun⟩⟩,
      Version.apply_eq_ok.mpr rfl, by decide, rfl⟩
    intro number hnumber
    rw [Finset.mem_singleton.mp hnumber]
    decide
  have hadmits : vs₁.Admits edit d₁ ⟨.empty, {1}, ⟨3, 0, 0, 0, 0⟩⟩ :=
    ⟨hstate ▸ happly, ⟨by decide, nofun, by decide, nofun, by decide⟩, nofun⟩
  obtain ⟨result, vs₂, d₂, hexec⟩ : ∃ result vs₂ d₂,
      ((VersionSet.apply edit).run.run vs₁).exec d₁ = ((result, vs₂), d₂) := ⟨_, _, _, rfl⟩
  rcases htracks.exec_apply hexec with ⟨rfl, state, -, rfl, htracks₂⟩ | ⟨-, hrefused, -⟩
  case inr => exact absurd hadmits (hrefused _)
  have hrun : Applies vs₁ d₁ [edit] (vs₁.advance edit state) d₂ := .accepted .start hexec
  have hfile : d₂.file (.manifest 1)
      = some (.durable (initialLog ++ vs₁.recordBytes edit)) := hnumber ▸ htracks₂.manifest
  have hfirst : (manifestBytes [initialEdit]).length ≤ n := by decide +kernel
  have hcut := d₂.updated_set (.manifest 1)
    (.durable (.durable ((initialLog ++ vs₁.recordBytes edit).take n)))
  have hbytes := congrArg (Option.map File.bytes) hcut.file_self
  exact ⟨d₁, d₂, _, vs₁, _, _, hcreate, hrun, hfile, hbytes, hcut.file_of_ne (by nofun), hfirst,
    (recover_cut_apply_recover Disk.empty d₁ d₂ _ vs₁ _ [edit] _ n rfl rfl hcreate hrun hfile hbytes
      (hcut.file_of_ne (by nofun)) hfirst).2⟩

end MeteorDB
