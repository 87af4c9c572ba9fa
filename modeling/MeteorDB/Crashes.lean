import MeteorDB.Machine

/-!
# Crashes

The machine of `Machine` runs without failures. Here a crash may happen inside any of its sections:
some steps of the section fail, with or without their effect, and then the memory is forgotten. What
a section does after a failed step touches no file, so this covers a crash between any two steps and
in the middle of one.

The removal of a file lasts only once its directory has been synchronized. The system therefore
keeps the WALs that were removed, and a crash may bring any of them back.
-/

namespace MeteorDB

open Attempt Engine

namespace Machine

/-- What the engine has become when the process dies, between two sections or inside one. The
sections that are missing use no files. -/
inductive Dies (options : Options) (m : Machine) : Engine → Prop
  | between : Dies options m m.engine
  | write (faults : Faults) (prepare : Result WriteBatch) (hup : m.up = true) :
      Dies options m ((writeSerialized options faults prepare).exec m.engine).2
  | sync (faults : Faults) (hup : m.up = true) :
      Dies options m ((Engine.sync faults).exec m.engine).2
  | close (faults : Faults) (hup : m.up = true) :
      Dies options m ((Engine.close faults).exec m.engine).2
  | enterFlush (faults : Faults) (hup : m.up = true) :
      Dies options m ((flushEnter options faults).exec m.engine).2
  | build (faults : Faults) {immutable : ImmutableMemTable} {number : U64} (fileSize : U64)
      (hup : m.up = true) (hworker : m.worker = .building immutable number) :
      Dies options m ((buildSstable faults number immutable.table fileSize).exec m.engine).2
  | finishFlush (faults : Faults) {immutable : ImmutableMemTable} {number : U64}
      {file : Result FileMeta} (hup : m.up = true)
      (hworker : m.worker = .built immutable number file) :
      Dies options m ((Engine.finishFlush faults immutable file).exec m.engine).2
  | compact (faults : Faults) (oldestActiveSnapshot : Option SequenceNumber) (readTimeUnixMs : U64)
      (fileSize : U64 → U64) {plan : CompactionPlan} (hup : m.up = true) (hplan : plan ∈ m.plans) :
      Dies options m ((executeCompactionPlan options faults oldestActiveSnapshot readTimeUnixMs
        fileSize plan).exec m.engine).2
  | openEngine (faults : Faults) (hdown : m.up = false) :
      Dies options m ((Engine.openEngine faults).exec m.engine).2

end Machine

/-- A machine, and the WALs that have been removed from its directory. -/
structure System where
  machine : Machine
  removed : List WalSegment

namespace System

/-- The WALs that are not in a directory any more. -/
def removedBetween (before after : Directory) : List WalSegment :=
  before.wals.filter fun segment ↦ segment.number ∉ after.wals.map (·.number)

/-- The removed WALs once the engine has moved on. -/
def removedBy (s : System) (e : Engine) : List WalSegment :=
  s.removed ++ removedBetween s.machine.engine.directory e.directory

/-- An engine in whose directory removed WALs are back. -/
def restore (e : Engine) (back : List WalSegment) : Engine :=
  { e with directory := { e.directory with wals := e.directory.wals ++ back } }

/-- A step of the machine, or a crash. -/
inductive Step (options : Options) : System → System → Prop
  | run {s : System} {m : Machine} (h : Machine.Step options s.machine m) :
      Step options s ⟨m, s.removedBy m.engine⟩
  | crash {s : System} {e : Engine} (h : s.machine.Dies options e) {back : List WalSegment}
      (hback : back ⊆ s.removedBy e) (hnodup : (back.map (·.number)).Nodup)
      (hnew : ∀ segment ∈ back, segment.number ∉ e.directory.wals.map (·.number)) :
      Step options s ⟨{ s.machine.stop with engine := restore e back }, s.removedBy e⟩

/-- The systems that a new directory can lead to. -/
inductive Reachable (options : Options) : System → Prop
  | fresh {m : Machine} (h : m.Fresh) : Reachable options ⟨m, []⟩
  | step {s s' : System} (h : Reachable options s) (hstep : Step options s s') :
      Reachable options s'

end System

end MeteorDB
