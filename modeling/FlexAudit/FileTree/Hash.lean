import FlexAudit.Digest.Sha256
import FlexAudit.FileTree.Basic

/-! # Digests of files -/

namespace FlexAudit

/-- Why a file could not be hashed. -/
inductive HashError where
  | unopenable (path : Path) (cause : OsError)
  | unreadable (path : Path) (cause : OsError)
  deriving DecidableEq, Repr

namespace HashError

def message : HashError → String
  | unopenable p _ => "Failed to open file for hashing: " ++ p.text
  | unreadable p _ => "Failed to read file for hashing: " ++ p.text

def cause : HashError → OsError
  | unopenable _ e => e
  | unreadable _ e => e

/-- The message and its cause on one line. -/
def full (e : HashError) : String :=
  e.message ++ ": " ++ e.cause.message

end HashError

/-- The SHA-256 digest of a file. A directory can be opened and not read. -/
def FileTree.sha256 (t : FileTree) (cwd : Location) (p : Path) : Except HashError String :=
  match t.locate cwd p with
  | .error e => .error (.unopenable p e)
  | .ok l =>
    match t.lookup l with
    | some (.file content _) => .ok (Sha256.hex content)
    | _ => .error (.unreadable p .isDirectory)

end FlexAudit
