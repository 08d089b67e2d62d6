import FlexAudit.Cli.Args
import FlexAudit.Log.Filter

/-! # The program

From arguments to what is printed, the exit status and the file tree afterwards. -/

namespace FlexAudit.Cli

/-- What the program did. -/
structure ProgramRun where
  exit : Nat
  stdout : String := ""
  stderr : String := ""
  /-- The files afterwards. -/
  tree : FileTree
  /-- Whether the arguments were refused. -/
  usageError : Bool := false

/-- The status when a file is vulnerable. -/
def exitVulnerable : Nat := 2

def exitOf (s : ScanSummary) : Nat :=
  if s.anyVulnerable then exitVulnerable else 0

/-- The limit of the log by how often a more detailed one is asked for. -/
def verbosityLimit : Nat → Log.Level
  | 0 => .warn
  | 1 => .info
  | 2 => .debug
  | _ => .trace

/-- The cause of an error as text. -/
def causeText? (e : CommandError) : Option String :=
  match e with
  | .config (.malformed _ format) => some ("invalid " ++ format.label ++ " document")
  | _ => e.cause?.map OsError.message

/-- An error that ends the program. -/
def renderError (e : CommandError) : String :=
  "Error: " ++ e.message ++ "\n"
    ++ (causeText? e).elim "" fun cause => "\nCaused by:\n    " ++ cause ++ "\n"

/-- The end of a command. -/
def finish {α : Type} (filter : Log.Filter) (tree : FileTree) (exit : α → Nat)
    (r : CommandRun α) : ProgramRun :=
  let shown := filter.render r.log
  match r.result with
  | .ok a => { exit := exit a, stdout := r.stdout, stderr := shown, tree := tree }
  | .error e => { exit := 1, stdout := r.stdout, stderr := shown ++ renderError e, tree := tree }

def runAction (h : Host) (filter : Log.Filter) : Action → ProgramRun
  | .scan o => finish filter h.tree exitOf (h.scan o)
  | .analyzeDump inputs recursive o =>
    finish filter h.tree exitOf (h.analyzeDump inputs recursive o)
  | .disassemblers config json =>
    finish filter h.tree (fun _ => 0) (h.listDisassemblers config json)
  | .initConfig path format force =>
    let (r, tree) := h.initConfig path format force
    finish filter tree (fun _ => 0) r

def usage : String :=
  "Usage: " ++ toolName ++ " [OPTIONS] <COMMAND>\n\nCommands:\n  scan\n  analyze-dump\n"
    ++ "  disassemblers\n  init-config\n  help\n"

/-- Runs the program. `directives` extends the log filter that the arguments ask for. -/
def run (h : Host) (directives : Option String) (args : List String) : ProgramRun :=
  match readRequest 0 args with
  | .version => { exit := 0, stdout := toolName ++ " " ++ toolVersion ++ "\n", tree := h.tree }
  | .help => { exit := 0, stdout := usage, tree := h.tree }
  | .usageError => { exit := 2, stderr := usage, tree := h.tree, usageError := true }
  | .run action verbosity =>
    let filter : Log.Filter := { everything := some (verbosityLimit verbosity) }
    runAction h (directives.elim filter filter.extend) action

end FlexAudit.Cli
