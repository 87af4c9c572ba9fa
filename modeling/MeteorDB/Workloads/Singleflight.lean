import MeteorDB.Lib.FairRun
import MeteorDB.Lib.Wire
import MeteorDB.Workloads.AdapterKeys

/-!
# Singleflight in the inference cache

Calls of `get_or_compute` on clones of one cache, by any number of threads and in any interleaving.
A call that misses registers a flight under its key or finds one. Who registered it leads: it looks
the key up again, computes, stores the entry, publishes the outcome in the flight, removes the
flight from the table and notifies. The others follow: they wait until the outcome is there.

The sections under the table's lock and under the lock of an outcome are short and wait for nothing
else, so each is one step; so is each read and write of the engine, which do not fail here. A
condition variable may wake a follower at any time. How long a computation takes and how it ends is
up to the environment. Calls of one thread may be nested; the model lets them interleave freely.

A flight is named by the call that leads it. `Inv` is the invariant of all runs. That followers
return is a statement about fair runs, since nothing else keeps the leader from being descheduled
before it has notified.
-/

namespace MeteorDB

open ByteString Decoder CrashFs

/-! ## Entries -/

/-- One inference result. -/
structure InferenceEntry where
  payload : Bytes
  deriving DecidableEq

def maxPayloadBytes : ℕ := 16 * 1024 * 1024

def maxEntryBodyBytes : ℕ := maxPayloadBytes + 10

def entrySchemaVersion : Byte := 1

def entryCorruption (detail : String) : Error := .corruption "inference-cache entry" detail

/-- The serialization of entries: a byte string after its length in at most ten bytes. -/
class PostcardEntry extends Postcard InferenceEntry where
  toAllocvec_ok : ∀ entry, entry.payload.length ≤ maxPayloadBytes →
    ∃ body, toAllocvec entry = .ok body
  length_toAllocvec : ∀ entry body, entry.payload.length ≤ maxPayloadBytes →
    toAllocvec entry = .ok body → body.length ≤ entry.payload.length + 10

section Entries

variable [PostcardEntry]

def encodeEntry (entry : InferenceEntry) : Result Bytes := do
  validateMax "payload" entry.payload.length maxPayloadBytes
  let body ← (Postcard.toAllocvec entry).mapError fun error ↦
    Error.invalidArgument ("could not encode cache entry: " ++ error)
  return entrySchemaVersion :: body

def decodeEntry : Bytes → Result InferenceEntry
  | [] => .error (entryCorruption "missing schema version")
  | version :: body =>
    if version ≠ entrySchemaVersion then
      .error (.unsupportedFormat "inference-cache entry" version.val)
    else if maxEntryBodyBytes < body.length then
      .error (entryCorruption ("serialized entry is " ++ toString body.length
        ++ " bytes, exceeding the " ++ toString maxEntryBodyBytes ++ " byte limit"))
    else do
      let (entry, trailing) ← (Postcard.takeFromBytes (α := InferenceEntry) body).mapError
        fun error ↦ entryCorruption ("invalid postcard body: " ++ error)
      if trailing ≠ [] then throw (entryCorruption "trailing bytes after postcard body")
      else do
        (validateMax "stored payload" entry.payload.length maxPayloadBytes).mapError
          fun error ↦ entryCorruption error.display
        let canonical ← (Postcard.toAllocvec entry).mapError fun error ↦
          entryCorruption ("could not re-encode postcard body: " ++ error)
        if canonical ≠ body then throw (entryCorruption "non-canonical postcard body")
        else return entry

private theorem encodeEntry_of_le {entry : InferenceEntry}
    (h : entry.payload.length ≤ maxPayloadBytes) : ∃ bytes, encodeEntry entry = .ok bytes := by
  obtain ⟨body, hbody⟩ := PostcardEntry.toAllocvec_ok entry h
  refine ⟨entrySchemaVersion :: body, ?_⟩
  rw [encodeEntry, validateMax_eq_ok.mpr h, hbody]
  rfl

private theorem encodeEntry_of_lt {entry : InferenceEntry}
    (h : maxPayloadBytes < entry.payload.length) : ∃ error, encodeEntry entry = .error error := by
  rw [encodeEntry, validateMax, if_pos h]
  exact ⟨_, rfl⟩

private theorem payload_le_of_encodeEntry {entry : InferenceEntry} {bytes : Bytes}
    (h : encodeEntry entry = .ok bytes) : entry.payload.length ≤ maxPayloadBytes := by
  by_contra hlarge
  obtain ⟨error, herror⟩ := encodeEntry_of_lt (not_le.mp hlarge)
  exact absurd (herror.symm.trans h) nofun

private theorem decodeEntry_of_encodeEntry {entry : InferenceEntry} {bytes : Bytes}
    (h : encodeEntry entry = .ok bytes) : decodeEntry bytes = .ok entry := by
  have hpayload := payload_le_of_encodeEntry h
  obtain ⟨body, hbody⟩ := PostcardEntry.toAllocvec_ok entry hpayload
  have hbytes : bytes = entrySchemaVersion :: body := by
    rw [encodeEntry, validateMax_eq_ok.mpr hpayload, hbody] at h
    exact (Except.ok.inj h).symm
  have hlength := PostcardEntry.length_toAllocvec entry body hpayload hbody
  have hfits : ¬maxEntryBodyBytes < body.length := by
    unfold maxEntryBodyBytes
    omega
  rw [hbytes, decodeEntry, if_neg (not_not.mpr rfl), if_neg hfits,
    Postcard.takeFromBytes_toAllocvec entry body hbody]
  simp only [Except.mapError, bind, Except.bind]
  rw [if_neg (not_not.mpr rfl), validateMax_eq_ok.mpr hpayload, hbody]
  exact if_neg (not_not.mpr rfl)

end Entries

/-! ## Shared outcomes -/

/-- An error that can be handed to several callers. -/
inductive SharedError where
  | invalidArgument (message : String)
  | io (operation : String) (path : FileName) (kind : IoErrorKind) (message : String)
  | corruption (context detail : String)
  | unsupportedFormat (kind : String) (version : ℕ)
  | reentrant (operation : String)
  | locked (path : FileName)
  | closed
  | background (message : String)
  | writeStall (immutableMemtables : ℕ)
  deriving DecidableEq

namespace SharedError

def fromError : Error → SharedError
  | .invalidArgument message => invalidArgument message
  | .io operation path source => io operation path source (displayIoError source)
  | .corruption context detail => corruption context detail
  | .unsupportedFormat kind version => unsupportedFormat kind version
  | .reentrant operation => reentrant operation
  | .locked path => locked path
  | .closed => closed
  | .background message => background message
  | .writeStall immutableMemtables => writeStall immutableMemtables

/-- The source of an I/O error is rebuilt from its kind and text; the model keeps the kind. -/
def intoError : SharedError → Error
  | invalidArgument message => .invalidArgument message
  | io operation path kind _ => .io operation path kind
  | corruption context detail => .corruption context detail
  | unsupportedFormat kind version => .unsupportedFormat kind version
  | reentrant operation => .reentrant operation
  | locked path => .locked path
  | closed => .closed
  | background message => .background message
  | writeStall immutableMemtables => .writeStall immutableMemtables

end SharedError

abbrev SharedResult := Except SharedError InferenceEntry

namespace Singleflight

/-- How the guarded part of a leader's call ends. -/
inductive Operation where
  | result (result : Result InferenceEntry)
  | panicked

/-- What a leader publishes. -/
def Operation.shared : Operation → SharedResult
  | .result answer => answer.mapError SharedError.fromError
  | .panicked => .error (.background "inference computation panicked")

/-- Where a call is. -/
inductive Phase where
  | idle
  | lookingUp
  | missed
  | following (flight : ℕ)
  | waiting (flight : ℕ)
  | leading
  | computing
  | computed (entry : InferenceEntry)
  | ended (operation : Operation)
  | published (operation : Operation)
  | removed (operation : Operation)
  | returned (operation : Operation)

namespace Phase

/-- The call leads and has not published yet. -/
def Pending : Phase → Prop
  | leading | computing | computed _ | ended _ => True
  | _ => False

/-- The call leads and its flight is in the table. -/
def Leads : Phase → Prop
  | leading | computing | computed _ | ended _ | published _ => True
  | _ => False

/-- The call leads and has not notified yet. -/
def Unnotified : Phase → Prop
  | leading | computing | computed _ | ended _ | published _ | removed _ => True
  | _ => False

/-- The call has its result, as a leader or as a caller. -/
def Has (operation : Operation) (phase : Phase) : Prop :=
  phase = ended operation ∨ phase = published operation ∨ phase = removed operation ∨
    phase = returned operation

/-- The call follows a flight. -/
def Follows (flight : ℕ) (phase : Phase) : Prop :=
  phase = following flight ∨ phase = waiting flight

/-- The call's next step waits for nothing and nobody. -/
def Ready : Phase → Prop
  | lookingUp | missed | following _ | leading | computed _ | ended _ | published _ | removed _ =>
    True
  | _ => False

/-- The call is not in progress. -/
def Quiet : Phase → Prop
  | idle | returned _ => True
  | _ => False

end Phase

/-- A call: the thread that makes it, and its key, which the cache has accepted. A call whose key is
rejected returns before it touches anything shared. -/
structure Request (cache : InferenceCache) where
  thread : ℕ
  key : InferenceKey
  encodedKey : Bytes
  encodes : cache.encodeKey key = .ok encodedKey

/-- The engine's value of each key, the table of flights, their outcomes, and the calls; `computed`
records every computation that returned an entry. -/
structure State where
  stored : Bytes → Option Bytes
  flights : Bytes → Option ℕ
  outcome : ℕ → Option SharedResult
  phase : ℕ → Phase
  computed : List (ℕ × InferenceEntry)

/-- No call has begun and nothing has been written. -/
def State.initial : State := ⟨fun _ ↦ none, fun _ ↦ none, fun _ ↦ none, fun _ ↦ .idle, []⟩

def State.setPhase (s : State) (i : ℕ) (phase : Phase) : State :=
  { s with phase := Function.update s.phase i phase }

@[simp] theorem State.setPhase_self (s : State) (i : ℕ) (phase : Phase) :
    (s.setPhase i phase).phase i = phase := Function.update_self ..

private theorem State.setPhase_of_ne (s : State) {i j : ℕ} (phase : Phase) (h : j ≠ i) :
    (s.setPhase i phase).phase j = s.phase j := Function.update_of_ne h ..

/-- Everyone who waits for a flight is woken. -/
def State.notifyAll (s : State) (flight : ℕ) : State :=
  { s with phase := fun j ↦ match s.phase j with
      | .waiting f => if f = flight then .following f else .waiting f
      | phase => phase }

section

variable [PostcardEntry]

/-- What the engine holds under a key, decoded; `none` is a miss. -/
def State.lookupEncoded (s : State) (encodedKey : Bytes) : Result (Option InferenceEntry) :=
  match s.stored encodedKey with
  | some bytes => (decodeEntry bytes).map some
  | none => .ok none

/-- The first lookup of a call. -/
def afterLookup : Result (Option InferenceEntry) → Phase
  | .ok (some entry) => .returned (.result (.ok entry))
  | .ok none => .missed
  | .error error => .returned (.result (.error error))

/-- The lookup of a leader, after it has registered. -/
def afterSecondLookup : Result (Option InferenceEntry) → Phase
  | .ok (some entry) => .ended (.result (.ok entry))
  | .ok none => .computing
  | .error error => .ended (.result (.error error))

variable {cache : InferenceCache} (requests : ℕ → Request cache)

def key (i : ℕ) : Bytes := (requests i).encodedKey

/-- The section under the lock of the table of flights. -/
def State.enterFlight (s : State) (i : ℕ) : State :=
  match s.flights (key requests i) with
  | some flight =>
    if (requests flight).thread = (requests i).thread then
      s.setPhase i (.returned (.result (.error (.reentrant "inference-cache get_or_compute"))))
    else s.setPhase i (.following flight)
  | none =>
    { s.setPhase i .leading with
      flights := Function.update s.flights (key requests i) (some i)
      outcome := Function.update s.outcome i none }

/-- A follower looks at the outcome and waits if it is not there. -/
def State.checkOutcome (s : State) (i flight : ℕ) : State :=
  match s.outcome flight with
  | none => s.setPhase i (.waiting flight)
  | some shared => s.setPhase i (.returned (.result (shared.mapError SharedError.intoError)))

/-- The engine is given the computed entry. -/
def State.store (s : State) (i : ℕ) (entry : InferenceEntry) : State :=
  match encodeEntry entry with
  | .error error => s.setPhase i (.ended (.result (.error error)))
  | .ok bytes =>
    { s.setPhase i (.ended (.result (.ok entry))) with
      stored := Function.update s.stored (key requests i) (some bytes) }

/-- The flight is removed if it is the one in the table. -/
def State.removeFlight (s : State) (i : ℕ) (operation : Operation) : State :=
  if s.flights (key requests i) = some i then
    { s.setPhase i (.removed operation) with
      flights := Function.update s.flights (key requests i) none }
  else s.setPhase i (.removed operation)

/-- One step, of a call or of the environment. -/
inductive Step : Option ℕ → State → State → Prop
  | idle (s : State) : Step none s s
  | begin {s : State} {i : ℕ} (h : s.phase i = .idle) : Step none s (s.setPhase i .lookingUp)
  | wake {s : State} {i flight : ℕ} (h : s.phase i = .waiting flight) :
      Step none s (s.setPhase i (.following flight))
  | computeOk {s : State} {i : ℕ} (entry : InferenceEntry) (h : s.phase i = .computing) :
      Step none s { s.setPhase i (.computed entry) with computed := s.computed ++ [(i, entry)] }
  | computeError {s : State} {i : ℕ} (error : Error) (h : s.phase i = .computing) :
      Step none s (s.setPhase i (.ended (.result (.error error))))
  | computePanic {s : State} {i : ℕ} (h : s.phase i = .computing) :
      Step none s (s.setPhase i (.ended .panicked))
  | lookup {s : State} {i : ℕ} (h : s.phase i = .lookingUp) :
      Step (some i) s (s.setPhase i (afterLookup (s.lookupEncoded (key requests i))))
  | enter {s : State} {i : ℕ} (h : s.phase i = .missed) :
      Step (some i) s (s.enterFlight requests i)
  | check {s : State} {i flight : ℕ} (h : s.phase i = .following flight) :
      Step (some i) s (s.checkOutcome i flight)
  | secondLookup {s : State} {i : ℕ} (h : s.phase i = .leading) :
      Step (some i) s (s.setPhase i (afterSecondLookup (s.lookupEncoded (key requests i))))
  | store {s : State} {i : ℕ} {entry : InferenceEntry} (h : s.phase i = .computed entry) :
      Step (some i) s (s.store requests i entry)
  | publish {s : State} {i : ℕ} {operation : Operation} (h : s.phase i = .ended operation) :
      Step (some i) s { s.setPhase i (.published operation) with
        outcome := Function.update s.outcome i (some operation.shared) }
  | remove {s : State} {i : ℕ} {operation : Operation} (h : s.phase i = .published operation) :
      Step (some i) s (s.removeFlight requests i operation)
  | notify {s : State} {i : ℕ} {operation : Operation} (h : s.phase i = .removed operation) :
      Step (some i) s ((s.notifyAll i).setPhase i (.returned operation))

/-- The states that steps lead to. -/
inductive Reachable : State → Prop
  | initial : Reachable State.initial
  | step {a : Option ℕ} {s s' : State} (h : Reachable s) (hstep : Step requests a s s') :
      Reachable s'

/-- A call that can go on by itself. -/
def Ready (i : ℕ) (s : State) : Prop := (s.phase i).Ready

/-- The computations for a key that returned an entry which the cache stores. -/
def State.successes (s : State) (encodedKey : Bytes) : List (ℕ × InferenceEntry) :=
  s.computed.filter fun (i, entry) ↦
    decide (key requests i = encodedKey ∧ entry.payload.length ≤ maxPayloadBytes)

/-! ## The invariant -/

/-- The engine holds an entry under a key. -/
def State.Holds (s : State) (encodedKey : Bytes) (entry : InferenceEntry) : Prop :=
  ∃ bytes, s.stored encodedKey = some bytes ∧ encodeEntry entry = .ok bytes

/-- A flight that can be followed: its outcome is there or will be. -/
def State.Followable (s : State) (flight : ℕ) : Prop :=
  (s.phase flight).Pending ∨ ∃ shared, s.outcome flight = some shared

/-- What a phase says about the rest of the state, for the call that is in it. -/
structure Sound (s : State) (i : ℕ) (phase : Phase) : Prop where
  leads : phase.Leads → s.flights (key requests i) = some i
  pending : phase.Pending → s.outcome i = none
  shares : ∀ operation, phase = .published operation ∨ phase = .removed operation →
    s.outcome i = some operation.shared
  follows : ∀ flight, phase.Follows flight →
    key requests flight = key requests i ∧ s.Followable flight
  waits : ∀ flight, phase = .waiting flight → (s.phase flight).Unnotified
  computing : phase = .computing → s.stored (key requests i) = none
  computed : ∀ entry, phase = .computed entry →
    s.stored (key requests i) = none ∧ (i, entry) ∈ s.computed
  has : ∀ entry, phase.Has (.result (.ok entry)) → s.Holds (key requests i) entry

/-- The computations for a key that have succeeded: none; or one, whose entry is about to be stored
or is stored. -/
def History (s : State) (encodedKey : Bytes) : Prop :=
  s.successes requests encodedKey = [] ∧ s.stored encodedKey = none ∨
    ∃ i entry, s.successes requests encodedKey = [(i, entry)] ∧
      (s.phase i = .computed entry ∧ s.stored encodedKey = none ∨ s.Holds encodedKey entry)

/-- The invariant of all runs. -/
structure Inv (s : State) : Prop where
  sound : ∀ i, Sound requests s i (s.phase i)
  flight : ∀ encodedKey i, s.flights encodedKey = some i →
    key requests i = encodedKey ∧ (s.phase i).Leads
  shared : ∀ i shared, s.outcome i = some shared → ∃ operation, shared = operation.shared ∧
    (s.phase i = .published operation ∨ s.phase i = .removed operation ∨
      s.phase i = .returned operation)
  history : ∀ encodedKey, History requests s encodedKey

variable {requests} {s s' : State} {i : ℕ}

/-- What a step has to keep for the calls that do not take it. -/
theorem Sound.frame {j : ℕ} {phase : Phase} (h : Sound requests s j phase)
    (hflights : phase.Leads → s'.flights (key requests j) = some j)
    (houtcome : s'.outcome j = s.outcome j)
    (hfollow : ∀ flight, s.Followable flight → s'.Followable flight)
    (hwait : ∀ flight, phase = .waiting flight → (s.phase flight).Unnotified →
      (s'.phase flight).Unnotified)
    (hstored : ∀ encodedKey bytes, s.stored encodedKey = some bytes →
      s'.stored encodedKey = some bytes)
    (hempty : phase.Pending → s.stored (key requests j) = none →
      s'.stored (key requests j) = none)
    (hlog : s.computed ⊆ s'.computed) : Sound requests s' j phase where
  leads := hflights
  pending hphase := houtcome.trans (h.pending hphase)
  shares operation hphase := houtcome.trans (h.shares operation hphase)
  follows flight hphase := ⟨(h.follows flight hphase).1, hfollow _ (h.follows flight hphase).2⟩
  waits flight hphase := hwait flight hphase (h.waits flight hphase)
  computing hphase := hempty (by rw [hphase]; trivial) (h.computing hphase)
  computed entry hphase := by
    obtain ⟨hnone, hmem⟩ := h.computed entry hphase
    exact ⟨hempty (by rw [hphase]; trivial) hnone, hlog hmem⟩
  has entry hphase := by
    obtain ⟨bytes, hbytes, hencode⟩ := h.has entry hphase
    exact ⟨bytes, hstored _ _ hbytes, hencode⟩

/-- The call that leads under a key is the one in the table. -/
theorem Inv.leader_unique (h : Inv requests s) {j : ℕ} (hi : (s.phase i).Leads)
    (hj : (s.phase j).Leads) (hkey : key requests i = key requests j) : i = j := by
  have hflight := (h.sound i).leads hi
  rw [hkey, (h.sound j).leads hj] at hflight
  exact (Option.some.inj hflight).symm

/-- A call that has not published has no outcome. -/
theorem Inv.outcome_eq_none (h : Inv requests s)
    (hphase : ∀ operation, s.phase i ≠ .published operation ∧ s.phase i ≠ .removed operation ∧
      s.phase i ≠ .returned operation) : s.outcome i = none := by
  cases houtcome : s.outcome i with
  | none => rfl
  | some shared =>
    obtain ⟨operation, -, hpublished | hremoved | hreturned⟩ := h.shared i shared houtcome
    · exact absurd hpublished (hphase operation).1
    · exact absurd hremoved (hphase operation).2.1
    · exact absurd hreturned (hphase operation).2.2

/-- What a step has to show when it puts one call into a new phase and changes what is shared. -/
theorem Inv.update (h : Inv requests s) {phase' : Phase}
    (hphase : s'.phase = Function.update s.phase i phase')
    (hsound : Sound requests s' i phase')
    (hflights : ∀ j ≠ i, (s.phase j).Leads → s'.flights (key requests j) = some j)
    (houtcome : ∀ j ≠ i, s'.outcome j = s.outcome j)
    (hfollow : s.Followable i → s'.Followable i)
    (hunnotified : ∀ j, s.phase j = .waiting i → phase'.Unnotified)
    (hstored : ∀ encodedKey bytes, s.stored encodedKey = some bytes →
      s'.stored encodedKey = some bytes)
    (hempty : ∀ j ≠ i, (s.phase j).Pending → s.stored (key requests j) = none →
      s'.stored (key requests j) = none)
    (hlog : s.computed ⊆ s'.computed)
    (hflight : ∀ encodedKey j, s'.flights encodedKey = some j →
      j = i ∧ key requests i = encodedKey ∧ phase'.Leads ∨ j ≠ i ∧ s.flights encodedKey = some j)
    (hshared : ∀ shared, s'.outcome i = some shared → ∃ operation, shared = operation.shared ∧
      (phase' = .published operation ∨ phase' = .removed operation ∨ phase' = .returned operation))
    (hhistory : ∀ encodedKey, History requests s' encodedKey) : Inv requests s' := by
  have hself : s'.phase i = phase' := by rw [hphase, Function.update_self]
  have hother : ∀ j ≠ i, s'.phase j = s.phase j := fun j hj ↦ by
    rw [hphase, Function.update_of_ne hj]
  refine ⟨fun j ↦ ?_, fun encodedKey j hj ↦ ?_, fun j shared hj ↦ ?_, hhistory⟩
  · by_cases hji : j = i
    · rw [hji, hself]
      exact hsound
    · rw [hother j hji]
      refine (h.sound j).frame (hflights j hji) (houtcome j hji) ?_ ?_ hstored (hempty j hji)
        hlog
      · intro flight hfollowable
        by_cases hfi : flight = i
        · subst hfi
          exact hfollow hfollowable
        · unfold State.Followable
          rwa [hother flight hfi, houtcome flight hfi]
      · intro flight hwaiting hwaited
        by_cases hfi : flight = i
        · subst hfi
          exact hself.symm ▸ hunnotified j hwaiting
        · rwa [hother flight hfi]
  · rcases hflight encodedKey j hj with ⟨rfl, hkey, hleads⟩ | ⟨hji, hbefore⟩
    · exact ⟨hkey, hself.symm ▸ hleads⟩
    · rw [hother j hji]
      exact h.flight encodedKey j hbefore
  · by_cases hji : j = i
    · subst hji
      rw [hself]
      exact hshared shared hj
    · rw [hother j hji]
      exact h.shared j shared ((houtcome j hji).symm.trans hj)

/-- The history of a key while a call moves that is not about to store an entry of it. -/
theorem Inv.history_update (h : Inv requests s) {phase' : Phase}
    (hphase : s'.phase = Function.update s.phase i phase') (hlog : s'.computed = s.computed)
    (hstored : s'.stored = s.stored)
    (hcomputed : ∀ entry, s.phase i = .computed entry → maxPayloadBytes < entry.payload.length)
    (encodedKey : Bytes) : History requests s' encodedKey := by
  have hsuccesses : s'.successes requests encodedKey = s.successes requests encodedKey := by
    rw [State.successes, hlog, State.successes]
  unfold History State.Holds
  rw [hsuccesses, hstored]
  rcases h.history encodedKey with hnone | ⟨j, entry, hone, ⟨hentry, hempty⟩ | hholds⟩
  · exact .inl hnone
  · have hji : j ≠ i := by
      rintro rfl
      have hmem : (j, entry) ∈ s.successes requests encodedKey := by rw [hone]; simp
      have hsmall := (of_decide_eq_true (List.mem_filter.mp hmem).2).2
      exact absurd (hcomputed entry hentry) (not_lt.mpr hsmall)
    refine .inr ⟨j, entry, hone, .inl ⟨?_, hempty⟩⟩
    rwa [hphase, Function.update_of_ne hji]
  · exact .inr ⟨j, entry, hone, .inr hholds⟩

/-- A step that only moves one call. -/
theorem Inv.move (h : Inv requests s) {phase' : Phase} (hsound : Sound requests s i phase')
    (hleads : (s.phase i).Leads → phase'.Leads)
    (hpending : (s.phase i).Pending → phase'.Pending)
    (hunnotified : (s.phase i).Unnotified → phase'.Unnotified)
    (houtcome : s.outcome i = none)
    (hcomputed : ∀ entry, s.phase i = .computed entry → maxPayloadBytes < entry.payload.length) :
    Inv requests (s.setPhase i phase') := by
  have hkept : ∀ (P : Phase → Prop) (j : ℕ), (P (s.phase i) → P phase') → P (s.phase j) →
      P ((s.setPhase i phase').phase j) := by
    intro P j himp hj
    by_cases hji : j = i
    · subst hji
      rw [State.setPhase_self]
      exact himp hj
    · rwa [s.setPhase_of_ne phase' hji]
  have hfollow : ∀ flight, s.Followable flight → (s.setPhase i phase').Followable flight := by
    rintro flight (hflight | hflight)
    · exact .inl (hkept Phase.Pending flight hpending hflight)
    · exact .inr hflight
  refine h.update rfl ?_ (fun j _ ↦ (h.sound j).leads) (fun _ _ ↦ rfl) (hfollow i)
    (fun j hj ↦ hunnotified ((h.sound j).waits i hj)) (fun _ _ hbytes ↦ hbytes)
    (fun _ _ _ hnone ↦ hnone) (List.Subset.refl _) ?_ ?_ (h.history_update rfl rfl rfl hcomputed)
  · exact hsound.frame hsound.leads rfl hfollow
      (fun flight _ ↦ hkept Phase.Unnotified flight hunnotified) (fun _ _ hbytes ↦ hbytes)
      (fun _ hnone ↦ hnone) (List.Subset.refl _)
  · intro encodedKey j hflight
    by_cases hji : j = i
    · subst hji
      obtain ⟨hkey, hlead⟩ := h.flight encodedKey j hflight
      exact .inl ⟨rfl, hkey, hleads hlead⟩
    · exact .inr ⟨hji, hflight⟩
  · intro shared hshared
    exact absurd (houtcome.symm.trans hshared) nofun

/-! ## Steps that move one call -/

/-- A call that has begun and does not lead or follow. -/
theorem sound_lookingUp : Sound requests s i .lookingUp := by
  constructor <;> simp [Phase.Leads, Phase.Pending, Phase.Follows, Phase.Has]

private theorem sound_missed : Sound requests s i .missed := by
  constructor <;> simp [Phase.Leads, Phase.Pending, Phase.Follows, Phase.Has]

private theorem sound_returned {operation : Operation}
    (h : ∀ entry, operation = .result (.ok entry) → s.Holds (key requests i) entry) :
    Sound requests s i (.returned operation) := by
  constructor <;> simp [Phase.Leads, Phase.Pending, Phase.Follows, Phase.Has]
  exact h

/-- A leader's operation ends. -/
theorem Sound.ended {phase : Phase} {operation : Operation} (hphase : Sound requests s i phase)
    (hleads : phase.Leads) (hpending : phase.Pending)
    (h : ∀ entry, operation = .result (.ok entry) → s.Holds (key requests i) entry) :
    Sound requests s i (.ended operation) := by
  constructor <;> simp [Phase.Leads, Phase.Pending, Phase.Follows, Phase.Has]
  · exact hphase.leads hleads
  · exact hphase.pending hpending
  · exact h

private theorem sound_following {flight : ℕ} (hkey : key requests flight = key requests i)
    (hflight : s.Followable flight) : Sound requests s i (.following flight) := by
  constructor <;> simp [Phase.Leads, Phase.Pending, Phase.Follows, Phase.Has]
  exact ⟨hkey, hflight⟩

/-- What a lookup finds is what is stored. -/
theorem Inv.lookupEncoded (h : Inv requests s) (encodedKey : Bytes) :
    s.lookupEncoded encodedKey = .ok none ∧ s.stored encodedKey = none ∨
      ∃ entry, s.lookupEncoded encodedKey = .ok (some entry) ∧ s.Holds encodedKey entry := by
  have hstored : s.stored encodedKey = none ∨ ∃ entry, s.Holds encodedKey entry := by
    rcases h.history encodedKey with ⟨-, hnone⟩ | ⟨i, entry, -, ⟨-, hnone⟩ | hholds⟩
    · exact .inl hnone
    · exact .inl hnone
    · exact .inr ⟨entry, hholds⟩
  rcases hstored with hnone | ⟨entry, bytes, hbytes, hencode⟩
  · exact .inl ⟨by rw [State.lookupEncoded, hnone], hnone⟩
  · refine .inr ⟨entry, ?_, bytes, hbytes, hencode⟩
    rw [State.lookupEncoded, hbytes]
    exact congrArg (Except.map some) (decodeEntry_of_encodeEntry hencode)

private theorem Inv.begin (h : Inv requests s) (hphase : s.phase i = .idle) :
    Inv requests (s.setPhase i .lookingUp) :=
  h.move sound_lookingUp (by rw [hphase]; exact id) (by rw [hphase]; exact id)
    (by rw [hphase]; exact id) (h.outcome_eq_none (by simp [hphase])) (by simp [hphase])

theorem Inv.wake (h : Inv requests s) {flight : ℕ} (hphase : s.phase i = .waiting flight) :
    Inv requests (s.setPhase i (.following flight)) := by
  obtain ⟨hkey, hflight⟩ := (h.sound i).follows flight (.inr hphase)
  exact h.move (sound_following hkey hflight) (by rw [hphase]; exact id)
    (by rw [hphase]; exact id) (by rw [hphase]; exact id)
    (h.outcome_eq_none (by simp [hphase])) (by simp [hphase])

theorem Inv.lookup (h : Inv requests s) (hphase : s.phase i = .lookingUp) :
    Inv requests (s.setPhase i (afterLookup (s.lookupEncoded (key requests i)))) := by
  have hnone := h.outcome_eq_none (i := i) (by simp [hphase])
  rcases h.lookupEncoded (key requests i) with ⟨hmiss, -⟩ | ⟨entry, hhit, hholds⟩
  · rw [hmiss]
    exact h.move sound_missed (by rw [hphase]; exact id) (by rw [hphase]; exact id)
      (by rw [hphase]; exact id) hnone (by simp [hphase])
  · rw [hhit]
    refine h.move (sound_returned ?_) (by rw [hphase]; exact id) (by rw [hphase]; exact id)
      (by rw [hphase]; exact id) hnone (by simp [hphase])
    rintro entry' ⟨⟩
    exact hholds

/-- A leader's operation ends without anything being stored. -/
theorem Inv.endOperation (h : Inv requests s) {operation : Operation}
    (hleads : (s.phase i).Leads) (hpending : (s.phase i).Pending)
    (hholds : ∀ entry, operation = .result (.ok entry) → s.Holds (key requests i) entry)
    (hcomputed : ∀ entry, s.phase i = .computed entry → maxPayloadBytes < entry.payload.length) :
    Inv requests (s.setPhase i (.ended operation)) :=
  h.move ((h.sound i).ended hleads hpending hholds) (fun _ ↦ trivial)
    (fun _ ↦ trivial) (fun _ ↦ trivial) ((h.sound i).pending hpending) hcomputed

private theorem Inv.secondLookup (h : Inv requests s) (hphase : s.phase i = .leading) :
    Inv requests (s.setPhase i (afterSecondLookup (s.lookupEncoded (key requests i)))) := by
  have hleads : (s.phase i).Leads := by rw [hphase]; trivial
  have hpending : (s.phase i).Pending := by rw [hphase]; trivial
  rcases h.lookupEncoded (key requests i) with ⟨hmiss, hempty⟩ | ⟨entry, hhit, hholds⟩
  · rw [hmiss]
    have hsound : Sound requests s i .computing := by
      constructor <;> simp [Phase.Leads, Phase.Pending, Phase.Follows, Phase.Has]
      · exact (h.sound i).leads hleads
      · exact (h.sound i).pending hpending
      · exact hempty
    exact h.move hsound (fun _ ↦ trivial) (fun _ ↦ trivial) (fun _ ↦ trivial)
      ((h.sound i).pending hpending) (by simp [hphase])
  · rw [hhit]
    refine h.endOperation hleads hpending ?_ (by simp [hphase])
    rintro entry' ⟨⟩
    exact hholds

/-- A computation fails. -/
theorem Inv.computeFails (h : Inv requests s) {operation : Operation}
    (hphase : s.phase i = .computing) (hfails : ∀ entry, operation ≠ .result (.ok entry)) :
    Inv requests (s.setPhase i (.ended operation)) :=
  h.endOperation (by rw [hphase]; trivial) (by rw [hphase]; trivial)
    (fun entry hok ↦ absurd hok (hfails entry)) (by simp [hphase])

theorem Inv.check (h : Inv requests s) {flight : ℕ} (hphase : s.phase i = .following flight) :
    Inv requests (s.checkOutcome i flight) := by
  obtain ⟨hkey, hflight⟩ := (h.sound i).follows flight (.inl hphase)
  have hnone := h.outcome_eq_none (i := i) (by simp [hphase])
  unfold State.checkOutcome
  cases houtcome : s.outcome flight with
  | none =>
    -- The outcome is not there, so the leader is still before its publication.
    have hpending : (s.phase flight).Pending := by
      rcases hflight with hpending | ⟨shared, hshared⟩
      · exact hpending
      · exact absurd (houtcome.symm.trans hshared) nofun
    have hunnotified : (s.phase flight).Unnotified := by
      cases hleader : s.phase flight <;> rw [hleader] at hpending <;> first
        | exact trivial
        | exact hpending.elim
    have hsound : Sound requests s i (.waiting flight) := by
      constructor <;> simp [Phase.Leads, Phase.Pending, Phase.Follows, Phase.Has]
      · exact ⟨hkey, hflight⟩
      · exact hunnotified
    exact h.move hsound (by rw [hphase]; exact id) (by rw [hphase]; exact id)
      (by rw [hphase]; exact id) hnone (by simp [hphase])
  | some shared =>
    obtain ⟨operation, rfl, hleader⟩ := h.shared flight shared houtcome
    refine h.move (sound_returned ?_) (by rw [hphase]; exact id) (by rw [hphase]; exact id)
      (by rw [hphase]; exact id) hnone (by simp [hphase])
    intro entry hok
    -- A shared entry is the leader's own.
    have hoperation : operation = .result (.ok entry) := by
      match operation with
      | .result (.ok entry') =>
        simpa [Operation.shared, Except.mapError] using hok
      | .result (.error error) => simp [Operation.shared, Except.mapError] at hok
      | .panicked => simp [Operation.shared, Except.mapError] at hok
    rw [← hkey]
    refine (h.sound flight).has entry ?_
    rw [← hoperation]
    exact .inr hleader

/-! ## Steps that change what is shared -/

/-- A flight in the table can be followed. -/
theorem Inv.followable (h : Inv requests s) (hleads : (s.phase i).Leads) : s.Followable i := by
  cases hphase : s.phase i with
  | published operation => exact .inr ⟨_, (h.sound i).shares operation (.inl hphase)⟩
  | leading | computing | computed | ended => exact .inl (by rw [hphase]; trivial)
  | idle | lookingUp | missed | following | waiting | removed | returned =>
    rw [hphase] at hleads
    exact hleads.elim

private theorem Inv.enter (h : Inv requests s) (hphase : s.phase i = .missed) :
    Inv requests (s.enterFlight requests i) := by
  have hnone := h.outcome_eq_none (i := i) (by simp [hphase])
  unfold State.enterFlight
  split
  · next flight hflight =>
    obtain ⟨hkey, hleads⟩ := h.flight _ _ hflight
    split_ifs
    · exact h.move (sound_returned nofun) (by rw [hphase]; exact id) (by rw [hphase]; exact id)
        (by rw [hphase]; exact id) hnone (by simp [hphase])
    · exact h.move (sound_following hkey (h.followable hleads)) (by rw [hphase]; exact id)
        (by rw [hphase]; exact id) (by rw [hphase]; exact id) hnone (by simp [hphase])
  · next hflight =>
    -- No other call leads under this key, and nobody can have followed this one.
    refine h.update rfl ?_ ?_ (fun j hj ↦ Function.update_of_ne hj ..) ?_ (fun _ _ ↦ trivial)
      (fun _ _ hbytes ↦ hbytes) (fun _ _ _ hempty ↦ hempty) (List.Subset.refl _) ?_ ?_
      (h.history_update rfl rfl rfl (by simp [hphase]))
    · constructor <;> simp [Phase.Leads, Phase.Pending, Phase.Follows, Phase.Has]
    · intro j hj hleads
      have hj' := (h.sound j).leads hleads
      have hkey : key requests j ≠ key requests i := fun hkey ↦ by
        rw [hkey, hflight] at hj'
        exact absurd hj' nofun
      exact (Function.update_of_ne hkey ..).trans hj'
    · rintro (hpending | ⟨shared, hshared⟩)
      · rw [hphase] at hpending
        exact hpending.elim
      · exact absurd (hnone.symm.trans hshared) nofun
    · intro encodedKey j hj
      by_cases hkey : encodedKey = key requests i
      · subst hkey
        simp only [Function.update_self, Option.some.injEq] at hj
        exact .inl ⟨hj.symm, rfl, trivial⟩
      · simp only [Function.update_of_ne hkey] at hj
        refine .inr ⟨?_, hj⟩
        rintro rfl
        exact hkey (h.flight encodedKey j hj).1.symm
    · intro shared hshared
      simp only [Function.update_self, reduceCtorEq] at hshared

theorem Inv.publish (h : Inv requests s) {operation : Operation}
    (hphase : s.phase i = .ended operation) :
    Inv requests { s.setPhase i (.published operation) with
      outcome := Function.update s.outcome i (some operation.shared) } := by
  refine h.update rfl ?_ (fun j _ ↦ (h.sound j).leads) (fun j hj ↦ Function.update_of_ne hj ..)
    (fun _ ↦ .inr ⟨_, Function.update_self ..⟩) (fun _ _ ↦ trivial) (fun _ _ hbytes ↦ hbytes)
    (fun _ _ _ hempty ↦ hempty) (List.Subset.refl _) ?_ ?_
    (h.history_update rfl rfl rfl (by simp [hphase]))
  · have hown := h.sound i
    rw [hphase] at hown
    constructor <;> simp [Phase.Leads, Phase.Pending, Phase.Follows, Phase.Has]
    · exact hown.leads trivial
    · rintro entry rfl
      exact hown.has entry (.inl rfl)
  · intro encodedKey j hj
    by_cases hji : j = i
    · subst hji
      exact .inl ⟨rfl, (h.flight encodedKey j hj).1, trivial⟩
    · exact .inr ⟨hji, hj⟩
  · intro shared hshared
    simp only [Function.update_self, Option.some.injEq] at hshared
    exact ⟨operation, hshared.symm, .inl rfl⟩

theorem Inv.remove (h : Inv requests s) {operation : Operation}
    (hphase : s.phase i = .published operation) :
    Inv requests (s.removeFlight requests i operation) := by
  have hown := h.sound i
  rw [hphase] at hown
  have hflight := hown.leads trivial
  have hshares := hown.shares operation (.inl rfl)
  rw [State.removeFlight, if_pos hflight]
  refine h.update rfl ?_ ?_ (fun _ _ ↦ rfl) (fun _ ↦ .inr ⟨_, hshares⟩) (fun _ _ ↦ trivial)
    (fun _ _ hbytes ↦ hbytes) (fun _ _ _ hempty ↦ hempty) (List.Subset.refl _) ?_ ?_
    (h.history_update rfl rfl rfl (by simp [hphase]))
  · constructor <;> simp [Phase.Leads, Phase.Pending, Phase.Follows, Phase.Has]
    · exact hshares
    · rintro entry rfl
      exact hown.has entry (.inr (.inl rfl))
  · intro j hj hleads
    have hkey : key requests j ≠ key requests i := fun hkey ↦
      hj (h.leader_unique hleads (by rw [hphase]; trivial) hkey)
    exact (Function.update_of_ne hkey ..).trans ((h.sound j).leads hleads)
  · intro encodedKey j hj
    have hkey : encodedKey ≠ key requests i := by
      rintro rfl
      simp only [Function.update_self, reduceCtorEq] at hj
    simp only [Function.update_of_ne hkey] at hj
    refine .inr ⟨?_, hj⟩
    rintro rfl
    exact hkey (h.flight encodedKey j hj).1.symm
  · intro shared hshared
    exact ⟨operation, Option.some.inj (hshared.symm.trans hshares), .inr (.inl rfl)⟩

/-- While a computation for a key runs, none has succeeded. -/
theorem Inv.successes_of_computing (h : Inv requests s) (hphase : s.phase i = .computing) :
    s.successes requests (key requests i) = [] := by
  have hempty := (h.sound i).computing hphase
  rcases h.history (key requests i) with ⟨hnone, -⟩ | ⟨j, entry, hone, ⟨hentry, -⟩ | hholds⟩
  · exact hnone
  · have hmem : (j, entry) ∈ s.successes requests (key requests i) := by rw [hone]; simp
    have hkey := (of_decide_eq_true (List.mem_filter.mp hmem).2).1
    obtain rfl := h.leader_unique (by rw [hentry]; trivial) (by rw [hphase]; trivial) hkey
    exact absurd (hentry.symm.trans hphase) nofun
  · obtain ⟨bytes, hbytes, -⟩ := hholds
    exact absurd (hempty.symm.trans hbytes) nofun

private theorem Inv.computeOk (h : Inv requests s) (entry : InferenceEntry)
    (hphase : s.phase i = .computing) :
    Inv requests
      { s.setPhase i (.computed entry) with computed := s.computed ++ [(i, entry)] } := by
  have hown := h.sound i
  have hempty := hown.computing hphase
  rw [hphase] at hown
  refine h.update rfl ?_ (fun j _ ↦ (h.sound j).leads) (fun _ _ ↦ rfl) ?_ (fun _ _ ↦ trivial)
    (fun _ _ hbytes ↦ hbytes) (fun _ _ _ hnone ↦ hnone) (List.subset_append_left ..) ?_ ?_ ?_
  · constructor <;> simp [Phase.Leads, Phase.Pending, Phase.Follows, Phase.Has]
    · exact hown.leads trivial
    · exact hown.pending trivial
    · exact hempty
  · exact fun _ ↦ .inl (by simp [Phase.Pending])
  · intro encodedKey j hj
    by_cases hji : j = i
    · subst hji
      exact .inl ⟨rfl, (h.flight encodedKey j hj).1, trivial⟩
    · exact .inr ⟨hji, hj⟩
  · intro shared hshared
    exact absurd ((hown.pending trivial).symm.trans hshared) nofun
  · intro encodedKey
    by_cases hcounts : key requests i = encodedKey ∧ entry.payload.length ≤ maxPayloadBytes
    · obtain ⟨rfl, hsmall⟩ := hcounts
      refine .inr ⟨i, entry, ?_, .inl ⟨by simp, hempty⟩⟩
      have hnone := h.successes_of_computing hphase
      unfold State.successes at hnone ⊢
      rw [List.filter_append, hnone]
      simp [hsmall]
    · have hsame : State.successes requests
          { s.setPhase i (.computed entry) with computed := s.computed ++ [(i, entry)] } encodedKey
          = s.successes requests encodedKey := by
        unfold State.successes
        rw [List.filter_append]
        simp only [List.filter_cons, hcounts, decide_false, Bool.false_eq_true, if_false,
          List.filter_nil, List.append_nil]
      have hmove : (s.setPhase i (.computed entry)).phase
          = Function.update s.phase i (.computed entry) := rfl
      have hmoved := h.history_update hmove rfl rfl (by simp [hphase]) encodedKey
      unfold History
      rw [hsame]
      exact hmoved

theorem Inv.store (h : Inv requests s) {entry : InferenceEntry}
    (hphase : s.phase i = .computed entry) : Inv requests (s.store requests i entry) := by
  have hown := h.sound i
  obtain ⟨hempty, hlogged⟩ := hown.computed entry hphase
  rw [hphase] at hown
  unfold State.store
  split
  · next error herror =>
    refine h.endOperation (by rw [hphase]; trivial) (by rw [hphase]; trivial) nofun ?_
    intro entry' hentry'
    obtain rfl : entry = entry' := Phase.computed.inj (hphase.symm.trans hentry')
    by_contra hsmall
    obtain ⟨bytes, hbytes⟩ := encodeEntry_of_le (not_lt.mp hsmall)
    exact absurd (herror.symm.trans hbytes) nofun
  · next bytes hbytes =>
    have hsuccess : (i, entry) ∈ s.successes requests (key requests i) :=
      List.mem_filter.mpr ⟨hlogged, decide_eq_true ⟨rfl, payload_le_of_encodeEntry hbytes⟩⟩
    refine h.update rfl ?_ (fun j _ ↦ (h.sound j).leads) (fun _ _ ↦ rfl) ?_ (fun _ _ ↦ trivial)
      ?_ ?_ (List.Subset.refl _) ?_ ?_ ?_
    · constructor <;> simp [Phase.Leads, Phase.Pending, Phase.Follows, Phase.Has]
      · exact hown.leads trivial
      · exact hown.pending trivial
      · exact ⟨bytes, Function.update_self .., hbytes⟩
    · exact fun _ ↦ .inl (by simp [Phase.Pending])
    · intro encodedKey bytes' hbytes'
      have hkey : encodedKey ≠ key requests i := by
        rintro rfl
        exact absurd (hempty.symm.trans hbytes') nofun
      exact (Function.update_of_ne hkey ..).trans hbytes'
    · intro j hj hpending hnone
      have hleads : (s.phase j).Leads := by
        cases hj' : s.phase j <;> rw [hj'] at hpending <;> first
          | exact trivial
          | exact hpending.elim
      have hkey : key requests j ≠ key requests i := fun hkey ↦
        hj (h.leader_unique hleads (by rw [hphase]; trivial) hkey)
      exact (Function.update_of_ne hkey ..).trans hnone
    · intro encodedKey j hj
      by_cases hji : j = i
      · subst hji
        exact .inl ⟨rfl, (h.flight encodedKey j hj).1, trivial⟩
      · exact .inr ⟨hji, hj⟩
    · intro shared hshared
      exact absurd ((hown.pending trivial).symm.trans hshared) nofun
    · intro encodedKey
      by_cases hkey : encodedKey = key requests i
      · subst hkey
        -- The one success of this key is the entry that has just been stored.
        rcases h.history (key requests i) with ⟨hnone, -⟩ | ⟨j, entry', hone, -⟩
        · rw [hnone] at hsuccess
          exact absurd hsuccess List.not_mem_nil
        · rw [hone, List.mem_singleton] at hsuccess
          refine .inr ⟨i, entry, hone.trans (by rw [hsuccess]), .inr ?_⟩
          exact ⟨bytes, Function.update_self .., hbytes⟩
      · have hstored := Function.update_of_ne hkey (some bytes) s.stored
        rcases h.history encodedKey with ⟨hnone, hempty'⟩ | ⟨j, entry', hone, hj⟩
        · exact .inl ⟨hnone, hstored.trans hempty'⟩
        · refine .inr ⟨j, entry', hone, ?_⟩
          rcases hj with ⟨hcomputed, hempty'⟩ | ⟨bytes', hbytes', hencode⟩
          · have hmem : (j, entry') ∈ s.successes requests encodedKey := by rw [hone]; simp
            have hji : j ≠ i := by
              rintro rfl
              exact hkey (of_decide_eq_true (List.mem_filter.mp hmem).2).1.symm
            refine .inl ⟨?_, hstored.trans hempty'⟩
            exact (s.setPhase_of_ne _ hji).trans hcomputed
          · exact .inr ⟨bytes', hstored.trans hbytes', hencode⟩

omit [PostcardEntry] in
/-- What `notify_all` does to a call. -/
theorem State.phase_notifyAll (s : State) (flight j : ℕ) :
    s.phase j = .waiting flight ∧ (s.notifyAll flight).phase j = .following flight ∨
      s.phase j ≠ .waiting flight ∧ (s.notifyAll flight).phase j = s.phase j := by
  unfold State.notifyAll
  cases hphase : s.phase j with
  | waiting f =>
    by_cases hf : f = flight
    · exact .inl ⟨by rw [hf], by simp [hphase, hf]⟩
    · exact .inr ⟨by simpa using hf, by simp [hphase, hf]⟩
  | _ => exact .inr ⟨by simp, by simp [hphase]⟩

private theorem Inv.notifyAll (h : Inv requests s) (flight : ℕ) :
    Inv requests (s.notifyAll flight) := by
  have hkept : ∀ (P : Phase → Prop) (j : ℕ), ¬P (.waiting flight) → P (s.phase j) →
      P ((s.notifyAll flight).phase j) := by
    intro P j hwaiting hj
    rcases s.phase_notifyAll flight j with ⟨hbefore, -⟩ | ⟨-, hafter⟩
    · exact absurd (hbefore ▸ hj) hwaiting
    · rwa [hafter]
  have hfollow : ∀ f, s.Followable f → (s.notifyAll flight).Followable f := by
    rintro f (hf | hf)
    · exact .inl (hkept Phase.Pending f id hf)
    · exact .inr hf
  have hframe : ∀ j phase, Sound requests s j phase →
      Sound requests (s.notifyAll flight) j phase := fun j phase hj ↦
    hj.frame hj.leads rfl hfollow (fun f _ ↦ hkept Phase.Unnotified f id)
      (fun _ _ hbytes ↦ hbytes) (fun _ hnone ↦ hnone) (List.Subset.refl _)
  refine ⟨fun j ↦ ?_, fun encodedKey j hj ↦ ?_, fun j shared hj ↦ ?_, fun encodedKey ↦ ?_⟩
  · rcases s.phase_notifyAll flight j with ⟨hbefore, hafter⟩ | ⟨-, hafter⟩
    · obtain ⟨hkey, hflight⟩ := (h.sound j).follows flight (.inr hbefore)
      rw [hafter]
      exact hframe j _ (sound_following hkey hflight)
    · rw [hafter]
      exact hframe j _ (h.sound j)
  · obtain ⟨hkey, hleads⟩ := h.flight encodedKey j hj
    exact ⟨hkey, hkept Phase.Leads j id hleads⟩
  · obtain ⟨operation, hshared, hoperation⟩ := h.shared j shared hj
    refine ⟨operation, hshared, ?_⟩
    exact hkept (fun phase ↦ phase = .published operation ∨ phase = .removed operation ∨
      phase = .returned operation) j (by simp) hoperation
  · rcases h.history encodedKey with hnone | ⟨j, entry, hone, ⟨hentry, hempty⟩ | hholds⟩
    · exact .inl hnone
    · exact .inr ⟨j, entry, hone,
        .inl ⟨hkept (fun phase ↦ phase = .computed entry) j nofun hentry, hempty⟩⟩
    · exact .inr ⟨j, entry, hone, .inr hholds⟩

private theorem Inv.notify (h : Inv requests s) {operation : Operation}
    (hphase : s.phase i = .removed operation) :
    Inv requests ((s.notifyAll i).setPhase i (.returned operation)) := by
  have hwoken := h.notifyAll i
  have hphase' : (s.notifyAll i).phase i = .removed operation := by
    rcases s.phase_notifyAll i i with ⟨hbefore, -⟩ | ⟨-, hafter⟩
    · exact absurd (hphase.symm.trans hbefore) nofun
    · exact hafter.trans hphase
  have hown := hwoken.sound i
  rw [hphase'] at hown
  have hshares := hown.shares operation (.inr rfl)
  -- Everyone who waited for this flight has been woken.
  have hnobody : ∀ j, (s.notifyAll i).phase j ≠ .waiting i := by
    intro j hj
    rcases s.phase_notifyAll i j with ⟨-, hafter⟩ | ⟨hbefore, hafter⟩
    · exact absurd (hafter.symm.trans hj) nofun
    · exact hbefore (hafter.symm.trans hj)
  refine hwoken.update rfl ?_ (fun j _ ↦ (hwoken.sound j).leads) (fun _ _ ↦ rfl)
    (fun _ ↦ .inr ⟨_, hshares⟩) (fun j hj ↦ absurd hj (hnobody j)) (fun _ _ hbytes ↦ hbytes)
    (fun _ _ _ hempty ↦ hempty) (List.Subset.refl _) ?_ ?_
    (hwoken.history_update rfl rfl rfl (by simp [hphase']))
  · exact sound_returned fun entry hok ↦ hown.has entry (.inr (.inr (.inl (by rw [hok]))))
  · intro encodedKey j hj
    refine .inr ⟨?_, hj⟩
    rintro rfl
    have hleads := (hwoken.flight encodedKey j hj).2
    rw [hphase'] at hleads
    exact hleads.elim
  · intro shared hshared
    exact ⟨operation, Option.some.inj (hshared.symm.trans hshares), .inr (.inr rfl)⟩

/-! ## All runs -/

private theorem inv_initial : Inv requests State.initial := by
  refine ⟨fun i ↦ ?_, nofun, nofun, fun encodedKey ↦ .inl ⟨rfl, rfl⟩⟩
  constructor <;> simp [State.initial, Phase.Leads, Phase.Pending, Phase.Follows, Phase.Has]

theorem Inv.step {a : Option ℕ} (h : Inv requests s) (hstep : Step requests a s s') :
    Inv requests s' := by
  cases hstep with
  | idle => exact h
  | begin hphase => exact h.begin hphase
  | wake hphase => exact h.wake hphase
  | computeOk entry hphase => exact h.computeOk entry hphase
  | computeError error hphase => exact h.computeFails hphase nofun
  | computePanic hphase => exact h.computeFails hphase nofun
  | lookup hphase => exact h.lookup hphase
  | enter hphase => exact h.enter hphase
  | check hphase => exact h.check hphase
  | secondLookup hphase => exact h.secondLookup hphase
  | store hphase => exact h.store hphase
  | publish hphase => exact h.publish hphase
  | remove hphase => exact h.remove hphase
  | notify hphase => exact h.notify hphase

theorem Reachable.inv (h : Reachable requests s) : Inv requests s := by
  induction h with
  | initial => exact inv_initial
  | step _ hstep ih => exact ih.step hstep

/-! ## Followers return -/

/-- A call that others' steps reach only by waking it. -/
theorem Step.unmoved {a : Option ℕ} {j : ℕ} (hstep : Step requests a s s') (ha : a ≠ some j)
    (hidle : s.phase j ≠ .idle) (hcomputing : s.phase j ≠ .computing) :
    s'.phase j = s.phase j ∨
      ∃ flight, s.phase j = .waiting flight ∧ s'.phase j = .following flight := by
  cases hstep with
  | idle => exact .inl rfl
  | @begin _ i h => exact .inl (s.setPhase_of_ne _ (by rintro rfl; exact hidle h))
  | @wake _ i flight h =>
    by_cases hj : j = i
    · subst hj
      exact .inr ⟨flight, h, s.setPhase_self ..⟩
    · exact .inl (s.setPhase_of_ne _ hj)
  | @computeOk _ i entry h => exact .inl (s.setPhase_of_ne _ (by rintro rfl; exact hcomputing h))
  | @computeError _ i error h => exact .inl (s.setPhase_of_ne _ (by rintro rfl; exact hcomputing h))
  | @computePanic _ i h => exact .inl (s.setPhase_of_ne _ (by rintro rfl; exact hcomputing h))
  | @lookup _ i h => exact .inl (s.setPhase_of_ne _ (by rintro rfl; exact ha rfl))
  | @enter _ i h =>
    have hj : j ≠ i := by rintro rfl; exact ha rfl
    refine .inl ?_
    unfold State.enterFlight
    split
    · split_ifs <;> exact s.setPhase_of_ne _ hj
    · exact s.setPhase_of_ne _ hj
  | @check _ i flight h =>
    have hj : j ≠ i := by rintro rfl; exact ha rfl
    refine .inl ?_
    unfold State.checkOutcome
    split <;> exact s.setPhase_of_ne _ hj
  | @secondLookup _ i h => exact .inl (s.setPhase_of_ne _ (by rintro rfl; exact ha rfl))
  | @store _ i entry h =>
    have hj : j ≠ i := by rintro rfl; exact ha rfl
    refine .inl ?_
    unfold State.store
    split <;> exact s.setPhase_of_ne _ hj
  | @publish _ i operation h => exact .inl (s.setPhase_of_ne _ (by rintro rfl; exact ha rfl))
  | @remove _ i operation h =>
    have hj : j ≠ i := by rintro rfl; exact ha rfl
    refine .inl ?_
    unfold State.removeFlight
    split_ifs <;> exact s.setPhase_of_ne _ hj
  | @notify _ i operation h =>
    have hj : j ≠ i := by rintro rfl; exact ha rfl
    rw [(s.notifyAll i).setPhase_of_ne _ hj]
    rcases s.phase_notifyAll i j with ⟨hbefore, hafter⟩ | ⟨-, hafter⟩
    · exact .inr ⟨i, hbefore, hafter⟩
    · exact .inl hafter

/-- How far a leader whose operation has ended is from having notified. -/
def Phase.remaining : Phase → ℕ
  | ended _ => 3
  | published _ => 2
  | removed _ => 1
  | _ => 0

/-- A leader whose operation has ended goes on towards its return, by its own steps only. -/
theorem Step.leader {a : Option ℕ} {flight : ℕ} {operation : Operation}
    (hstep : Step requests a s s') (h : (s.phase flight).Has operation) :
    (s'.phase flight).Has operation ∧ ((s'.phase flight).remaining < (s.phase flight).remaining ∨
      s'.phase flight = s.phase flight ∧ a ≠ some flight) := by
  by_cases ha : a = some flight
  · subst ha
    rcases h with h | h | h | h
    all_goals cases hstep <;> rename_i h' <;> rw [h] at h' <;> injection h'
    · subst operation
      simp [h, Phase.Has, Phase.remaining]
    · subst operation
      unfold State.removeFlight
      split_ifs <;> simp [h, Phase.Has, Phase.remaining]
    · subst operation
      simp [h, Phase.Has, Phase.remaining]
  · have hsame : s'.phase flight = s.phase flight := by
      rcases hstep.unmoved ha (by rcases h with h | h | h | h <;> simp [h])
        (by rcases h with h | h | h | h <;> simp [h]) with hsame | ⟨f, hwaiting, -⟩
      · exact hsame
      · rcases h with h | h | h | h <;> exact absurd (hwaiting.symm.trans h) nofun
    exact ⟨hsame.symm ▸ h, .inr ⟨hsame, ha⟩⟩

/-- A follower follows on, or it finds the outcome and returns it. -/
theorem Step.follower {a : Option ℕ} {flight : ℕ} (hstep : Step requests a s s')
    (h : (s.phase i).Follows flight) :
    (s'.phase i).Follows flight ∧ (a = some i → s.outcome flight = none) ∨
      ∃ shared, s.outcome flight = some shared ∧
        s'.phase i = .returned (.result (shared.mapError SharedError.intoError)) := by
  by_cases ha : a = some i
  · subst ha
    have hcheck : s' = s.checkOutcome i flight := by
      rcases h with h | h
      all_goals cases hstep <;> rename_i h' <;> rw [h] at h' <;> injection h'
      subst flight
      rfl
    rw [hcheck, State.checkOutcome]
    cases houtcome : s.outcome flight with
    | none => exact .inl ⟨.inr (s.setPhase_self ..), fun _ ↦ rfl⟩
    | some shared => exact .inr ⟨shared, rfl, s.setPhase_self ..⟩
  · refine .inl ⟨?_, fun h' ↦ absurd h' ha⟩
    rcases hstep.unmoved ha (by rcases h with h | h <;> simp [h])
      (by rcases h with h | h <;> simp [h]) with hsame | ⟨f, hwaiting, hwoken⟩
    · rwa [hsame]
    · rcases h with h | h
      · exact absurd (hwaiting.symm.trans h) nofun
      · obtain rfl := Phase.waiting.inj (hwaiting.symm.trans h)
        exact .inl hwoken

/-- What a leader has published is the outcome of its operation. -/
theorem Inv.shared_eq (h : Inv requests s) {flight : ℕ} {operation : Operation}
    {shared : SharedResult} (hoperation : (s.phase flight).Has operation)
    (hshared : s.outcome flight = some shared) : shared = operation.shared := by
  obtain ⟨operation', rfl, hphase⟩ := h.shared flight shared hshared
  have hsame : operation' = operation := by
    rcases hphase with hphase | hphase | hphase <;> rw [hphase] at hoperation <;>
      simpa [Phase.Has] using hoperation
  rw [hsame]

/-- Somebody can go on: the leader until it has notified, and then the follower. -/
theorem Inv.ready_helper (h : Inv requests s) {flight : ℕ} {operation : Operation}
    (hfollows : (s.phase i).Follows flight) (hended : (s.phase flight).Has operation) :
    Ready (if (s.phase flight).remaining = 0 then i else flight) s := by
  rcases hended with hended | hended | hended | hended
  · rw [hended, if_neg (by simp [Phase.remaining])]
    simp [Ready, hended, Phase.Ready]
  · rw [hended, if_neg (by simp [Phase.remaining])]
    simp [Ready, hended, Phase.Ready]
  · rw [hended, if_neg (by simp [Phase.remaining])]
    simp [Ready, hended, Phase.Ready]
  · rw [hended, if_pos (by rfl)]
    rcases hfollows with hfollowing | hwaiting
    · simp [Ready, hfollowing, Phase.Ready]
    · have hunnotified := (h.sound i).waits flight hwaiting
      rw [hended] at hunnotified
      exact hunnotified.elim

/-- Once the leader has returned, its outcome is there. -/
theorem Inv.outcome_ne_none (h : Inv requests s) {flight : ℕ} {operation : Operation}
    (hfollows : (s.phase i).Follows flight) (hended : (s.phase flight).Has operation)
    (hzero : (s.phase flight).remaining = 0) : s.outcome flight ≠ none := by
  have hreturned : s.phase flight = .returned operation := by
    rcases hended with hended | hended | hended | hended
    · simp [hended, Phase.remaining] at hzero
    · simp [hended, Phase.remaining] at hzero
    · simp [hended, Phase.remaining] at hzero
    · exact hended
  rcases ((h.sound i).follows flight hfollows).2 with hpending | ⟨shared, hshared⟩
  · rw [hreturned] at hpending
    exact hpending.elim
  · simp [hshared]

/-- Along a fair run, a follower of a leader whose operation has ended returns its outcome. -/
theorem follower_returns (run : FairRun (Step requests) Ready) (hinitial : run.state 0 = .initial)
    {n flight : ℕ} {operation : Operation} (hfollows : ((run.state n).phase i).Follows flight)
    (hended : ((run.state n).phase flight).Has operation) :
    ∃ m ≥ n, (run.state m).phase i
      = .returned (.result (operation.shared.mapError SharedError.intoError)) := by
  have hinv : ∀ m, Inv requests (run.state m) :=
    run.invariant (fun _ _ _ h hstep ↦ h.step hstep) (hinitial ▸ inv_initial)
  -- Until it has notified, the leader brings the follower closer; after that, the follower itself.
  let P (s : State) : Prop := Inv requests s ∧ (s.phase i).Follows flight ∧
    (s.phase flight).Has operation
  let Q (s : State) : Prop := s.phase i
    = .returned (.result (operation.shared.mapError SharedError.intoError))
  refine run.eventually (P := P) (Q := Q) (fun s ↦ (s.phase flight).remaining)
    (fun s ↦ if (s.phase flight).remaining = 0 then i else flight) ?_ ?_
    ⟨hinv n, hfollows, hended⟩
  · rintro s ⟨h, hfollows, hended⟩
    exact h.ready_helper hfollows hended
  · rintro a s s' ⟨h, hfollows, hended⟩ hstep
    rcases hstep.follower hfollows with ⟨hfollows', hchecked⟩ | ⟨shared, hshared, hreturned⟩
    · obtain ⟨hended', hcloser | ⟨hsame, hactor⟩⟩ := hstep.leader hended
      · exact .inr ⟨⟨h.step hstep, hfollows', hended'⟩, .inl hcloser⟩
      · refine .inr ⟨⟨h.step hstep, hfollows', hended'⟩, .inr ?_⟩
        simp only [hsame, true_and]
        split_ifs with hzero
        · exact fun ha ↦ h.outcome_ne_none hfollows hended hzero (hchecked ha)
        · exact hactor
    · rw [h.shared_eq hended hshared] at hreturned
      exact .inl hreturned

/-! ## The result -/

private theorem Inv.length_successes_le (h : Inv requests s) (encodedKey : Bytes) :
    (s.successes requests encodedKey).length ≤ 1 := by
  rcases h.history encodedKey with ⟨hnone, -⟩ | ⟨i, entry, hone, -⟩
  · simp [hnone]
  · simp [hone]

/-- An entry that a call returns is the one that was computed. -/
theorem Inv.successes_of_returned (h : Inv requests s) {entry : InferenceEntry}
    (hphase : s.phase i = .returned (.result (.ok entry))) :
    ∃ j, s.successes requests (key requests i) = [(j, entry)] := by
  obtain ⟨bytes, hbytes, hencode⟩ := (h.sound i).has entry (.inr (.inr (.inr hphase)))
  rcases h.history (key requests i) with ⟨-, hnone⟩ | ⟨j, entry', hone, ⟨-, hnone⟩ | hholds⟩
  · exact absurd (hnone.symm.trans hbytes) nofun
  · exact absurd (hnone.symm.trans hbytes) nofun
  · obtain ⟨bytes', hbytes', hencode'⟩ := hholds
    obtain rfl := Option.some.inj (hbytes.symm.trans hbytes')
    have hentry := (decodeEntry_of_encodeEntry hencode).symm.trans
      (decodeEntry_of_encodeEntry hencode')
    exact ⟨j, hone.trans (by rw [Except.ok.inj hentry])⟩

private theorem Inv.flights_eq_none (h : Inv requests s) {encodedKey : Bytes}
    (hquiet : ∀ i, key requests i = encodedKey → (s.phase i).Quiet) :
    s.flights encodedKey = none := by
  cases hflight : s.flights encodedKey with
  | none => rfl
  | some i =>
    obtain ⟨hkey, hleads⟩ := h.flight encodedKey i hflight
    have hquiet' := hquiet i hkey
    cases hphase : s.phase i <;> rw [hphase] at hleads hquiet' <;> first
      | exact hleads.elim
      | exact hquiet'.elim

variable (requests) in
/-- **Singleflight.** For every key, at most one computation returns an entry that the cache can
store, at most one computation runs at a time, all entries that calls return are the one that was
computed, and no flight is left when no call is in progress. Along every fair run, whoever follows a
leader whose operation has ended, well or badly or by a panic, returns its outcome. -/
theorem singleflight (encodedKey : Bytes) :
    (∀ s, Reachable requests s →
      (s.successes requests encodedKey).length ≤ 1 ∧
      (∀ i j, key requests i = encodedKey → key requests j = encodedKey →
        s.phase i = .computing → s.phase j = .computing → i = j) ∧
      (∀ i entry, key requests i = encodedKey → s.phase i = .returned (.result (.ok entry)) →
        ∃ j, s.successes requests encodedKey = [(j, entry)]) ∧
      ((∀ i, key requests i = encodedKey → (s.phase i).Quiet) → s.flights encodedKey = none)) ∧
    ∀ run : FairRun (Step requests) Ready, run.state 0 = .initial →
      ∀ n i flight operation, ((run.state n).phase i).Follows flight →
        ((run.state n).phase flight).Has operation →
          ∃ m ≥ n, (run.state m).phase i
            = .returned (.result (operation.shared.mapError SharedError.intoError)) := by
  refine ⟨fun s hreachable ↦ ?_, fun run hinitial n i flight operation ↦
    follower_returns run hinitial⟩
  have h := hreachable.inv
  refine ⟨h.length_successes_le encodedKey, ?_, ?_, h.flights_eq_none⟩
  · intro i j hi hj hcomputing hcomputing'
    exact h.leader_unique (by rw [hcomputing]; trivial) (by rw [hcomputing']; trivial)
      (hi.trans hj.symm)
  · rintro i entry rfl hphase
    exact h.successes_of_returned hphase

/-! ## Example runs -/

/-- A call that finds nothing leads, and its computation returns an entry. -/
private theorem Reachable.compute (h : Reachable requests s) (hidle : s.phase i = .idle)
    (hflight : s.flights (key requests i) = none) (hstored : s.stored (key requests i) = none)
    (entry : InferenceEntry) :
    ∃ s', Reachable requests s' ∧ s'.phase i = .computed entry ∧
      s'.computed = s.computed ++ [(i, entry)] ∧ s'.stored = s.stored ∧
      ∀ j ≠ i, s'.phase j = s.phase j := by
  have hlookup : ∀ s' : State, s'.stored = s.stored →
      s'.lookupEncoded (key requests i) = .ok none := fun s' hs' ↦ by
    rw [State.lookupEncoded, hs', hstored]
  have hbegun := h.step (.begin hidle)
  have hmissed := hbegun.step (.lookup (State.setPhase_self ..))
  rw [hlookup _ (by rfl)] at hmissed
  have hleading := hmissed.step (.enter (State.setPhase_self ..))
  simp only [State.enterFlight, State.setPhase, hflight] at hleading
  have hcomputing := hleading.step (.secondLookup (Function.update_self ..))
  rw [hlookup _ (by rfl)] at hcomputing
  refine ⟨_, hcomputing.step (.computeOk entry (State.setPhase_self ..)), ?_, rfl, rfl, ?_⟩
  · exact State.setPhase_self ..
  · intro j hj
    simp [State.setPhase, Function.update_of_ne hj]

/-- A leader whose operation has ended finishes its flight. -/
private theorem Reachable.finish (h : Reachable requests s) {operation : Operation}
    (hended : s.phase i = .ended operation) :
    ∃ s', Reachable requests s' ∧ s'.phase i = .returned operation ∧
      s'.flights (key requests i) = none ∧ s'.stored = s.stored ∧ s'.computed = s.computed ∧
      ∀ j, s.phase j = .idle → s'.phase j = .idle := by
  have hflight := (h.inv.sound i).leads (by rw [hended]; trivial)
  have hpublished := h.step (.publish hended)
  have hremoved := hpublished.step (.remove (State.setPhase_self ..))
  rw [State.removeFlight, if_pos (by exact hflight)] at hremoved
  refine ⟨_, hremoved.step (.notify (State.setPhase_self ..)), State.setPhase_self .., ?_, rfl, rfl,
    fun j hj ↦ ?_⟩
  · exact Function.update_self ..
  · have hji : j ≠ i := by
      rintro rfl
      exact absurd (hended.symm.trans hj) nofun
    simp [State.setPhase, State.notifyAll, Function.update_of_ne hji, hj]

end

/-- The wire format of an entry. -/
private def entryWire (entry : InferenceEntry) : Bytes := Wire.bytes entry.payload

private theorem entryWire_injective : Function.Injective entryWire := by
  rintro ⟨payload⟩ ⟨payload'⟩ h
  obtain ⟨rfl, -⟩ := Wire.selfDelimiting_bytes trivial trivial (congrArg (· ++ []) h)
  rfl

/-- A library that writes the wire format. -/
@[reducible] private noncomputable def entryLibrary : PostcardEntry where
  toPostcard := (PostcardWire.ofInjective entryWire_injective).toPostcard
  toAllocvec_ok entry _ := ⟨entryWire entry, rfl⟩
  length_toAllocvec entry body hle h := by
    obtain rfl := Except.ok.inj h
    rw [Nat.add_comm]
    exact @Wire.length_bytes_le 9 entry.payload (hle.trans_lt (by decide))

private def tenantCache : InferenceCache := ⟨[1], by decide, by decide⟩

private theorem noParameters : OrderedList.Increasing Prod.fst ([] : List (Bytes × Bytes)) := .nil

private def sameKey : InferenceKey :=
  ⟨[2], [3], 0, List.Vector.replicate 32 0, [], noParameters⟩

/-- Every call asks for the same inference, each from a thread of its own. -/
private def sameRequest (i : ℕ) : Request tenantCache where
  thread := i
  key := sameKey
  encodedKey := tenantCache.keyBytes sameKey
  encodes := rfl

/-- A call leads and another one waits for it; the first stores its entry, publishes it and wakes
the second, which returns it. -/
private theorem exists_steps_follower :
    let := entryLibrary
    let Steps := Relation.ReflTransGen fun s s' ↦ ∃ a, Step sameRequest a s s'
    ∃ s s', Steps .initial s ∧ s.phase 0 = .ended (.result (.ok ⟨[7]⟩)) ∧ s.phase 1 = .waiting 0 ∧
      Steps s s' ∧ ∀ i, (s'.phase i).Quiet := by
  intro _ Steps
  have h₁ : Steps .initial _ := .single ⟨none, .begin (i := 0) rfl⟩
  have h₂ := h₁.tail ⟨none, .begin (i := 1) rfl⟩
  have h₃ := h₂.tail ⟨some 0, .lookup (i := 0) rfl⟩
  have h₄ := h₃.tail ⟨some 1, .lookup (i := 1) rfl⟩
  have h₅ := h₄.tail ⟨some 0, .enter (i := 0) rfl⟩
  have h₆ := h₅.tail ⟨some 1, .enter (i := 1) rfl⟩
  have h₇ := h₆.tail ⟨some 1, .check (i := 1) rfl⟩
  have h₈ := h₇.tail ⟨some 0, .secondLookup (i := 0) rfl⟩
  have h₉ := h₈.tail ⟨none, .computeOk (i := 0) ⟨[7]⟩ rfl⟩
  have hended := h₉.tail ⟨some 0, .store (i := 0) rfl⟩
  have hstart : ∀ {s}, Steps .initial s → Steps s s := fun _ ↦ .refl
  have hpublished := (hstart hended).tail ⟨some 0, .publish (i := 0) rfl⟩
  have hremoved := hpublished.tail ⟨some 0, .remove (i := 0) rfl⟩
  have hnotified := hremoved.tail ⟨some 0, .notify (i := 0) rfl⟩
  have hchecked := hnotified.tail ⟨some 1, .check (i := 1) rfl⟩
  refine ⟨_, _, hended, rfl, rfl, hchecked, fun i ↦ ?_⟩
  match i with
  | 0 => exact trivial
  | 1 => exact trivial
  | i + 2 => exact trivial

/-- A call leads and another one follows it: along a fair run both return the entry that the first
has computed. -/
theorem singleflight_follower :
    let := entryLibrary
    ∃ run : FairRun (Step sameRequest) Ready, run.state 0 = .initial ∧
      (∃ n, (run.state n).phase 0 = .ended (.result (.ok ⟨[7]⟩)) ∧
        (run.state n).phase 1 = .waiting 0) ∧
      ∃ m, (run.state m).phase 1 = .returned (.result (.ok ⟨[7]⟩)) ∧
        (∃ j, (run.state m).successes sameRequest (key sameRequest 1) = [(j, ⟨[7]⟩)]) ∧
        ∃ k, (run.state k).flights (key sameRequest 1) = none := by
  intro _
  obtain ⟨s, s', hs, hended, hwaiting, hs', hquiet⟩ := exists_steps_follower
  -- The steps, and then nothing more.
  have hready : ∀ i, ¬Ready i s' := fun i hready ↦ by
    have hi := hquiet i
    unfold Ready at hready
    cases hphase : s'.phase i <;> rw [hphase] at hi hready <;> first
      | exact hi.elim
      | exact hready.elim
  obtain ⟨run, rfl, k, hrest⟩ := (FairRun.rest s' (.idle s') hready).exists_prepend hs'
  obtain ⟨run', hinitial, n, hstate⟩ := run.exists_prepend hs
  have hn : run'.state n = run.state 0 := hstate 0
  have hk : run'.state (n + k) = s' := (hstate k).trans (hrest 0)
  have hreachable : ∀ m, Reachable sameRequest (run'.state m) :=
    run'.invariant (fun _ _ _ h hstep ↦ h.step hstep) (hinitial ▸ .initial)
  obtain ⟨hsafe, hreturns⟩ := singleflight sameRequest (key sameRequest 1)
  obtain ⟨m, -, hreturned⟩ := hreturns run' hinitial n 1 0 _ (.inr (hn ▸ hwaiting))
    (.inl (hn ▸ hended))
  refine ⟨run', hinitial, ⟨n, hn ▸ hended, hn ▸ hwaiting⟩, m, hreturned,
    (hsafe _ (hreachable m)).2.2.1 1 _ rfl hreturned, n + k, ?_⟩
  exact (hsafe _ (hreachable _)).2.2.2 fun i _ ↦ hk ▸ hquiet i

/-- A payload that is too large to be stored. -/
private def largeEntry : InferenceEntry := ⟨List.replicate (maxPayloadBytes + 1) 0⟩

/-- Computations whose entries are too large succeed as often as they are called. -/
theorem computations_succeed_twice :
    let := entryLibrary
    ∃ s, Reachable sameRequest s ∧ s.computed = [(0, largeEntry), (1, largeEntry)] ∧
      key sameRequest 0 = key sameRequest 1 := by
  intro _
  have hlarge : maxPayloadBytes < largeEntry.payload.length := by simp [largeEntry]
  obtain ⟨error, herror⟩ := encodeEntry_of_lt hlarge
  have hinitial : Reachable sameRequest .initial := .initial
  obtain ⟨s₁, h₁, hphase₁, hlog₁, hstored₁, hothers₁⟩ :=
    hinitial.compute (i := 0) rfl rfl rfl largeEntry
  have hfailed := h₁.step (.store hphase₁)
  rw [State.store, herror] at hfailed
  obtain ⟨s₂, h₂, -, hflight, hstored₂, hlog₂, hidle⟩ := hfailed.finish (State.setPhase_self ..)
  obtain ⟨s₃, h₃, -, hlog₃, -⟩ := h₂.compute (i := 1)
    (hidle 1 ((s₁.setPhase_of_ne _ one_ne_zero).trans (hothers₁ 1 one_ne_zero))) hflight
    (by rw [hstored₂]; exact congrFun hstored₁ _) largeEntry
  refine ⟨s₃, h₃, ?_, rfl⟩
  rw [hlog₃, hlog₂]
  exact congrArg (· ++ [(1, largeEntry)]) hlog₁

end Singleflight

end MeteorDB
