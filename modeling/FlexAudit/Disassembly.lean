import FlexAudit.FileTree.Basic
import FlexAudit.Log

/-! # Disassembly

A backend gives the disassembly text of a file, or says why it cannot. What it reports to the log
while it works comes with the answer. -/

namespace FlexAudit

/-- Why there is no disassembly. -/
inductive DisassemblyError where
  | missingBinary (path : Path)
  /-- No backend of this name; the known names follow. -/
  | missingBackend (name : String) (available : List String)
  | spawn (program : String) (cause : OsError)
  | failed (program : String) (status : Nat) (stderr : String)
  | unreadable (path : Path) (cause : OsError)
  deriving DecidableEq, Repr

def DisassemblyError.message : DisassemblyError → String
  | missingBinary p => "Binary not found at " ++ p.text
  | missingBackend name available =>
    "Disassembler not found: " ++ name ++ " (available: " ++ ", ".intercalate available ++ ")"
  | spawn program cause => "failed to spawn " ++ program ++ ": " ++ cause.message
  | failed program status stderr =>
    program ++ " exited with exit status: " ++ toString status ++ ": " ++ stderr
  | unreadable p cause => "failed to read " ++ p.text ++ ": " ++ cause.message

/-- The answer of a backend. -/
structure Disassembly where
  result : Except DisassemblyError String
  log : Log := []

structure Backend where
  name : String
  disassemble : Path → Disassembly

/-! ## The registry -/

/-- Backends by name, in the order of the names. -/
structure Registry where
  backends : List Backend := []

namespace Registry

/-- Puts a backend in its place, instead of one that has the same name. -/
def insert (b : Backend) : List Backend → List Backend
  | [] => [b]
  | a :: rest =>
    if b.name < a.name then b :: a :: rest
    else if a.name < b.name then a :: insert b rest
    else b :: rest

def register (r : Registry) (b : Backend) : Registry :=
  ⟨insert b r.backends⟩

def names (r : Registry) : List String :=
  r.backends.map Backend.name

def get? (r : Registry) (name : String) : Option Backend :=
  r.backends.find? (·.name == name)

def resolve (r : Registry) (name : String) : Except DisassemblyError Backend :=
  match r.get? name with
  | some b => .ok b
  | none => .error (.missingBackend name r.names)

end Registry

end FlexAudit
