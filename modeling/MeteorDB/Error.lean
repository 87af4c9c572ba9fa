import MeteorDB.Lib.Prog

/-!
# Files and errors

The names of the files in a database directory and the failures the engine reports. Paths are
relative to the database directory: an error carries the file it is about, and the text it prints
for that file is the file's own name. Engine code that touches the directory is a program over
these names (`Fs`).
-/

namespace MeteorDB

open CrashFs

/-- The bytes of a text. -/
def utf8 (text : String) : Bytes := text.toUTF8.data.toList.map UInt8.toFin

/-! ## File names -/

/-- The entries of a database directory. -/
inductive FileName where
  | directory
  | current
  | currentTmp
  | manifest (number : U64)
  | manifestTmp (number : U64)
  | wal (number : U64)
  | sst (number : U64)
  | sstTmp (number : U64)
  deriving DecidableEq, Repr

/-- Decimal digits, filled with zeros to at least six places. -/
def sixDigits (number : ℕ) : String :=
  let digits := toString number
  String.ofList (List.replicate (6 - digits.length) '0') ++ digits

/-- The text of a file name. -/
def FileName.display : FileName → String
  | .directory => "."
  | .current => "CURRENT"
  | .currentTmp => "CURRENT.tmp"
  | .manifest number => "MANIFEST-" ++ sixDigits number
  | .manifestTmp number => "MANIFEST-" ++ sixDigits number ++ ".tmp"
  | .wal number => sixDigits number ++ ".wal"
  | .sst number => sixDigits number ++ ".sst"
  | .sstTmp number => sixDigits number ++ ".sst.tmp"

/-! ## Errors -/

/-- The text of an operating-system failure. -/
def displayIoError : IoErrorKind → String
  | .notFound => "entity not found"
  | .alreadyExists => "entity already exists"
  | .other => "other error"

/-- Failures returned through the public API. -/
inductive Error where
  | invalidArgument (message : String)
  | io (operation : String) (path : FileName) (source : IoErrorKind)
  | corruption (context detail : String)
  | unsupportedFormat (kind : String) (version : ℕ)
  | reentrant (operation : String)
  | locked (path : FileName)
  | closed
  | background (message : String)
  | writeStall (immutableMemtables : ℕ)
  deriving DecidableEq, Repr

/-- The text of an error. -/
def Error.display : Error → String
  | .invalidArgument message => "invalid argument: " ++ message
  | .io operation path source =>
    operation ++ " failed for " ++ path.display ++ ": " ++ displayIoError source
  | .corruption context detail => "corruption in " ++ context ++ ": " ++ detail
  | .unsupportedFormat kind version =>
    "unsupported " ++ kind ++ " format version " ++ toString version
  | .reentrant operation => "reentrant operation would deadlock: " ++ operation
  | .locked path => "database is locked: " ++ path.display
  | .closed => "database is closed"
  | .background message => "background worker failed: " ++ message
  | .writeStall immutableMemtables =>
    "write stalled with " ++ toString immutableMemtables ++ " immutable memtables"

/-- The standard result type. -/
abbrev Result (α : Type) := Except Error α

/-! ## Filesystem calls -/

/-- A computation over the database directory. -/
abbrev Fs (α : Type) := Io FileName Error α

/-- The error of a filesystem call: what was attempted, and on which file. -/
def ioError (operation : String) (path : FileName) (source : IoErrorKind) : Error :=
  .io operation path source

/-- One filesystem call, with its failure reported as an error. -/
def fsCall (operation : String) (path : FileName) (call : Op FileName) : Fs call.Response :=
  Io.call call (ioError operation path)

end MeteorDB
