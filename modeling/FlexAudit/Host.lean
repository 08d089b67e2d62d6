import FlexAudit.Config
import FlexAudit.Disassembly
import FlexAudit.Text.Blank
import FlexAudit.Text.Utf8

/-! # The host

All that commands see of the system they run on: its files, the working directory, the name of the
disassembler in the environment, what programs do, how many workers it can start, and the time. -/

namespace FlexAudit

/-- What a program left behind. -/
structure Completed where
  status : Nat := 0
  stdout : List UInt8 := []
  stderr : List UInt8 := []
  deriving DecidableEq, Repr

structure Host where
  tree : FileTree
  cwd : Location
  /-- The disassembler that the environment names. -/
  disassembler : Option String := none
  /-- Runs a program with arguments. -/
  run : String → List String → Except OsError Completed
  /-- Starts a number of workers for a scan. -/
  startWorkers : UInt64 → Except OsError Unit := fun _ => .ok ()
  /-- The time of a report. -/
  time : String := ""

namespace Host

/-- Bytes as text, with a replacement character for what is no text. -/
def lossy (bytes : List UInt8) : List Char :=
  Utf8.decodeLossy bytes

/-- Reads disassembly text that was saved ahead of time. -/
def readDump (h : Host) (p : Path) : Disassembly :=
  if !h.tree.isFile h.cwd p then ⟨.error (.missingBinary p), []⟩
  else
    match h.tree.read h.cwd p with
    | .error e => ⟨.error (.unreadable p e), []⟩
    | .ok content => ⟨.ok (String.ofList (lossy content)), []⟩

/-- Runs a disassembler on a file and takes what it prints. -/
def runDisassembler (h : Host) (program : String) (args : List String) (p : Path) : Disassembly :=
  if !h.tree.isFile h.cwd p then ⟨.error (.missingBinary p), []⟩
  else
    let log : Log := [⟨.debug, .disassembler,
      "running " ++ program ++ " " ++ " ".intercalate args ++ " " ++ p.text⟩]
    match h.run program (args ++ [p.text]) with
    | .error e => ⟨.error (.spawn program e), log⟩
    | .ok done =>
      if done.status = 0 then ⟨.ok (String.ofList (lossy done.stdout)), log⟩
      else
        ⟨.error (.failed program done.status (String.ofList (Text.trim (lossy done.stderr)))), log⟩

/-- The backend for saved text. -/
def dumpFile (h : Host) : Backend :=
  ⟨"dump-file", h.readDump⟩

/-- The backend that runs the configured program. -/
def swfdump (h : Host) (c : DisassemblerConfig) : Backend :=
  ⟨"swfdump", h.runDisassembler (c.resolveProgram h.disassembler) c.args⟩

/-- Both backends. -/
def registry (h : Host) (c : DisassemblerConfig) : Registry :=
  (({} : Registry).register (h.swfdump c)).register h.dumpFile

end Host

/-! ## What the backends are -/

structure BackendInfo where
  name : String
  description : String
  isDefault : Bool
  deriving DecidableEq, Repr

namespace Host

def describe (h : Host) (c : DisassemblerConfig) (name : String) : String :=
  match name with
  | "swfdump" => "Runs " ++ c.resolveProgram h.disassembler ++ " " ++ " ".intercalate c.args
      ++ " <file> and analyzes its output"
  | "dump-file" => "Reads disassembly text saved ahead of time"
  | other => "Disassembler '" ++ other ++ "'"

def backendInfos (h : Host) (c : DisassemblerConfig) : List BackendInfo :=
  (h.registry c).names.map fun name => ⟨name, h.describe c name, name == c.backend⟩

end Host

end FlexAudit
