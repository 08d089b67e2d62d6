import FlexAudit.Candidates
import FlexAudit.Config.File
import FlexAudit.Report

/-! # Commands

What the program can be asked to do: scan files, analyse dumps, list the disassemblers, write a
configuration. A command is a function of the host; it prints, reports to the log, and succeeds or
fails. -/

namespace FlexAudit

/-- Why a command failed. -/
inductive CommandError where
  | config (e : ConfigError)
  | disassembly (e : DisassemblyError)
  | missingInput (path : Path)
  | unsupportedFormat (name : String)
  | configExists (path : Path)
  | unwritable (path : Path) (cause : OsError)
  /-- The workers of a scan could not be started. -/
  | noWorkers (cause : OsError)
  deriving DecidableEq, Repr

namespace CommandError

def message : CommandError → String
  | config e => e.message
  | disassembly e => e.message
  | missingInput p => "Input does not exist: " ++ p.text
  | unsupportedFormat name => "Unsupported config format '" ++ name ++ "'"
  | configExists p => "Config already exists at " ++ p.text ++ " (use --force to overwrite)"
  | unwritable p _ => "Failed to write config: " ++ p.text
  | noWorkers _ => "Failed to build scan worker pool"

/-- The refusal of the system behind an error. -/
def cause? : CommandError → Option OsError
  | config (.unreadable _ e) => some e
  | unwritable _ e => some e
  | noWorkers e => some e
  | _ => none

end CommandError

/-- What a command did. -/
structure CommandRun (α : Type) where
  result : Except CommandError α
  stdout : String := ""
  log : Log := []

namespace CommandRun

def fail {α : Type} (e : CommandError) : CommandRun α :=
  { result := .error e }

end CommandRun

/-- How the outcomes of a scan are printed. -/
structure OutputOptions where
  json : Bool := false
  quiet : Bool := false
  deriving DecidableEq, Repr

namespace Host

/-- The text that a scan prints. -/
def printed (h : Host) (outcomes : List ScanOutcome) (o : OutputOptions) : String :=
  if o.json then (ScanReport.ofOutcomes h outcomes).toJson.pretty ++ "\n"
  else if o.quiet then String.join ((vulnerablePaths outcomes).map fun p => p.text ++ "\n")
  else renderOutcomes outcomes

/-- What printing a scan reports. -/
def printLog (h : Host) (outcomes : List ScanOutcome) (o : OutputOptions) : Log :=
  if o.json then outcomes.flatMap (FileReport.hashLog h) else []

/-- Gets the workers of a scan. Without a number, and with zero, they are the shared ones, which
are always there. -/
def gatherWorkers (h : Host) : Option UInt64 → Except OsError Unit
  | none => .ok ()
  | some n => if n = 0 then .ok () else h.startWorkers n

/-- Scans files with a number of workers. -/
def scanBatch (h : Host) (b : Backend) (paths : List Path) (jobs : Option UInt64) :
    Except OsError (List ScanOutcome) := do
  h.gatherWorkers jobs
  return b.scanAll paths

/-- Scans files and prints the outcomes. -/
def scanAndPrint (h : Host) (b : Backend) (paths : List Path) (jobs : Option UInt64)
    (o : OutputOptions) : CommandRun ScanSummary :=
  match h.scanBatch b paths jobs with
  | .error e => .fail (.noWorkers e)
  | .ok outcomes =>
    { result := .ok (.ofOutcomes outcomes)
      stdout := h.printed outcomes o
      log := b.scanLog paths ++ h.printLog outcomes o }

end Host

/-! ## Scanning -/

structure ScanOptions where
  inputs : List String
  config : Option Path := none
  /-- The backend, instead of the configured one. -/
  backend : Option String := none
  /-- The executable, instead of the configured one. -/
  disassembler : Option String := none
  recursive : Bool := false
  /-- The number of workers, instead of the configured one. -/
  jobs : Option UInt64 := none
  output : OutputOptions := {}
  deriving DecidableEq, Repr

/-- A configuration with what the options say instead. -/
def ScanOptions.apply (o : ScanOptions) (c : ScanConfig) : ScanConfig where
  disassembler := {
    c.disassembler with
    backend := o.backend.getD c.disassembler.backend
    program := o.disassembler <|> c.disassembler.program }
  extensions := c.extensions
  recursive := o.recursive || c.recursive
  jobs := o.jobs <|> c.jobs

namespace Host

/-- The backend, the files and the number of workers of a scan. -/
def prepareScan (h : Host) (o : ScanOptions) :
    Except CommandError (Backend × List Path × Option UInt64) := do
  let c ← (ScanConfig.loadOrDefault h.tree h.cwd o.config).mapError .config
  let c := o.apply c
  let b ← ((h.registry c.disassembler).resolve c.disassembler.backend).mapError .disassembly
  let paths ← (h.tree.candidates h.cwd c.extensions c.recursive o.inputs).mapError .missingInput
  return (b, paths, c.jobs)

/-- Disassembles and judges every candidate. -/
def scan (h : Host) (o : ScanOptions) : CommandRun ScanSummary :=
  match h.prepareScan o with
  | .error e => .fail e
  | .ok (b, paths, jobs) =>
    let run := h.scanAndPrint b paths jobs o.output
    let start : Log.Record := ⟨.info, .command,
      "scanning " ++ toString paths.length ++ " file(s) with " ++ b.name⟩
    { run with log := start :: run.log }

/-- The extensions of the dumps that a directory gives. -/
def dumpExtensions : List String := ["txt", "dump"]

/-- Judges disassembly text that was saved ahead of time. -/
def analyzeDump (h : Host) (inputs : List String) (recursive : Bool) (o : OutputOptions) :
    CommandRun ScanSummary :=
  match h.tree.candidates h.cwd dumpExtensions recursive inputs with
  | .error p => .fail (.missingInput p)
  | .ok paths => h.scanAndPrint h.dumpFile paths none o

/-! ## Disassemblers -/

def renderBackends (infos : List BackendInfo) : String :=
  "Disassemblers:\n" ++ String.join (infos.map fun i =>
    "- " ++ i.name ++ (if i.isDefault then " (default)" else "") ++ ": " ++ i.description ++ "\n")

/-- Lists the backends as a configuration sets them up. -/
def listDisassemblers (h : Host) (config : Option Path) (json : Bool) : CommandRun Unit :=
  match ScanConfig.loadOrDefault h.tree h.cwd config with
  | .error e => .fail (.config e)
  | .ok c =>
    let infos := h.backendInfos c.disassembler
    { result := .ok ()
      stdout := if json then (Json.arr (infos.map BackendInfo.toJson)).pretty ++ "\n"
        else renderBackends infos }

/-! ## Configurations -/

/-- The path of a configuration where none is given. -/
def defaultConfigPath : ConfigFormat → Path
  | .json => ⟨"parrotng.json"⟩
  | .yaml => ⟨"parrotng.yaml"⟩

/-- The format to write: the one that is asked for, else the one of the path, else JSON. -/
def configFormat (path : Option Path) : Option String → Except CommandError ConfigFormat
  | some name =>
    match ConfigFormat.ofName? name with
    | some format => .ok format
    | none => .error (.unsupportedFormat name)
  | none => .ok ((path.bind ConfigFormat.ofPath?).getD .json)

/-- The path and the file tree after the default configuration has been written. An existing file
is replaced only by force. -/
def writeConfig (h : Host) (path : Option Path) (format : Option String) (force : Bool) :
    Except CommandError (Path × FileTree) := do
  let f ← configFormat path format
  let p := path.getD (defaultConfigPath f)
  if h.tree.pathExists h.cwd p && !force then throw (.configExists p)
  else
    match h.tree.write h.cwd p (Utf8.encode (({} : ScanConfig).render f).toList) with
    | .error e => throw (.unwritable p e)
    | .ok tree => return (p, tree)

/-- Writes the default configuration, and gives the file tree afterwards. -/
def initConfig (h : Host) (path : Option Path) (format : Option String) (force : Bool) :
    CommandRun Path × FileTree :=
  match h.writeConfig path format force with
  | .error e => (.fail e, h.tree)
  | .ok (p, tree) => ({ result := .ok p, stdout := "Wrote config: " ++ p.text ++ "\n" }, tree)

end Host

end FlexAudit
