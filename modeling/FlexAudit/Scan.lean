import FlexAudit.Analysis
import FlexAudit.Disassembly

/-! # Scans

A scan gives one outcome per file, in the order of the files: the analysis of its disassembly, or
why there is none. A summary tallies them. -/

namespace FlexAudit

structure ScanOutcome where
  path : Path
  backend : String
  analysis : Option Analysis := none
  error : Option String := none
  deriving DecidableEq, Repr

namespace ScanOutcome

def verdict? (o : ScanOutcome) : Option Verdict :=
  o.analysis.map Analysis.verdict

def isVulnerable (o : ScanOutcome) : Bool :=
  o.verdict?.any Verdict.isVulnerable

end ScanOutcome

namespace Backend

/-- Disassembles and analyses one file. -/
def scanFile (b : Backend) (p : Path) : ScanOutcome × Log :=
  let start : Log := [⟨.debug, .scan, "disassembling " ++ p.text ++ " with " ++ b.name⟩]
  let disassembly := b.disassemble p
  match disassembly.result with
  | .ok text =>
    let (analysis, log) := (Dump.ofText text).analyzeLogged
    ({ path := p, backend := b.name, analysis := some analysis }, start ++ disassembly.log ++ log)
  | .error e =>
    ({ path := p, backend := b.name, error := some e.message },
     start ++ disassembly.log ++ [⟨.warn, .scan, p.text ++ ": " ++ e.message⟩])

/-- Every file on its own. -/
def scanAll (b : Backend) (paths : List Path) : List ScanOutcome :=
  paths.map fun p => (b.scanFile p).1

/-- What a scan of the files reports. -/
def scanLog (b : Backend) (paths : List Path) : Log :=
  paths.flatMap fun p => (b.scanFile p).2

end Backend

/-- The paths of the vulnerable files. -/
def vulnerablePaths (outcomes : List ScanOutcome) : List Path :=
  (outcomes.filter ScanOutcome.isVulnerable).map ScanOutcome.path

/-! ## Summaries -/

structure ScanSummary where
  scanned : Nat := 0
  vulnerable : Nat := 0
  notVulnerable : Nat := 0
  indeterminate : Nat := 0
  errors : Nat := 0
  deriving DecidableEq, Repr

namespace ScanSummary

def count (outcomes : List ScanOutcome) (kind : Option Verdict.Kind) : Nat :=
  outcomes.countP fun o => o.verdict?.map Verdict.kind == kind

/-- The tally of outcomes; one without a verdict counts as an error. -/
def ofOutcomes (outcomes : List ScanOutcome) : ScanSummary where
  scanned := outcomes.length
  vulnerable := count outcomes (some .vulnerable)
  notVulnerable := count outcomes (some .notVulnerable)
  indeterminate := count outcomes (some .indeterminate)
  errors := count outcomes none

def anyVulnerable (s : ScanSummary) : Bool :=
  0 < s.vulnerable

/-- The summary as a line of text. -/
def render (s : ScanSummary) : String :=
  "Scanned " ++ toString s.scanned ++ " file(s): " ++ toString s.vulnerable ++ " vulnerable, "
    ++ toString s.notVulnerable ++ " not vulnerable, " ++ toString s.indeterminate
    ++ " indeterminate, " ++ toString s.errors ++ " error(s)"

end ScanSummary

end FlexAudit
