import FlexAudit.Analysis.Json
import FlexAudit.FileTree.Hash
import FlexAudit.Host
import FlexAudit.Json.Printer
import FlexAudit.Scan

/-! # Reports

Outcomes for people, as text, and for machines, as JSON. -/

namespace FlexAudit

/-! ## The finding -/

/-- What is told about a vulnerability. -/
structure Issue where
  id : String
  name : String
  severity : String
  background : String
  detail : String
  remediation : List String
  deriving DecidableEq, Repr

/-- The one vulnerability that is looked for. -/
def Issue.resourceModules : Issue where
  id := "CVE-2011-2461"
  name := "Adobe Flex resourceModuleURLs SOP Bypass (CVE-2011-2461)"
  severity := "High"
  background := "Starting with Flex 3 the ResourceManager can load localization resources at "
    ++ "runtime from modules named in the resourceModuleURLs FlashVar. SWF files compiled with "
    ++ "Flex SDK 3.x through 4.5.1 do not validate the security domain of the loaded resource "
    ++ "module, allowing same-origin requests from an attacker-supplied module."
  detail := "An attacker can pass a malicious resource module through the resourceModuleURLs "
    ++ "FlashVar. The module inherits the security domain of the vulnerable SWF and can read HTTP "
    ++ "responses from the hosting domain, an indirect same-origin-policy bypass in fully patched "
    ++ "browsers and plugins."
  remediation := [
    "Recompile the SWF with the latest Apache Flex SDK, including static libraries",
    "Patch the SWF with the official Adobe patch tool (APSB11-25 technical advisory)",
    "Delete the SWF if it is not used"]

def toolName : String := "parrotng"

def toolVersion : String := "0.1.0"

def banner : String :=
  ":: " ++ toolName ++ " v" ++ toolVersion ++ " ::"

/-! ## Text -/

def Trace.Entry.render (e : Trace.Entry) : String :=
  (match e.level with
    | .info => "[*] "
    | .warn => "[!] ") ++ e.message ++ "\n"

def Verdict.Kind.label : Verdict.Kind → String
  | .vulnerable => "VULNERABLE"
  | .notVulnerable => "not vulnerable"
  | .indeterminate => "indeterminate (not vulnerable)"

/-- The lines about a vulnerability. -/
def Issue.render (i : Issue) : String :=
  "  Issue: " ++ i.name ++ " [" ++ i.severity ++ "]\n  Remediation:\n"
    ++ String.join (i.remediation.map fun step => "    - " ++ step ++ "\n")

/-- The trace and the result. -/
def Analysis.render (a : Analysis) : String :=
  String.join (a.trace.map Trace.Entry.render)
    ++ "Result: " ++ a.verdict.kind.label ++ " - " ++ a.verdict.rationale ++ "\n"
    ++ (if a.verdict.isVulnerable then Issue.resourceModules.render else "")

/-- The block of text about one file. -/
def ScanOutcome.render (o : ScanOutcome) : String :=
  "[*] Analyzing " ++ o.path.text ++ "\n"
    ++ match o.error, o.analysis with
      | some e, _ => "[!] " ++ e ++ "\n"
      | none, some a => a.render
      | none, none => ""

/-- The whole text about a scan. -/
def renderOutcomes (outcomes : List ScanOutcome) : String :=
  banner ++ "\n" ++
    if outcomes.isEmpty then "\nNo candidate files found.\n"
    else String.join (outcomes.map fun o => "\n" ++ o.render)
      ++ "\n" ++ (ScanSummary.ofOutcomes outcomes).render ++ "\n"

/-! ## JSON -/

open Json

def Issue.toJson (i : Issue) : Json :=
  ofMembers [("id", some (text i.id)), ("name", some (text i.name)),
    ("severity", some (text i.severity)), ("background", some (text i.background)),
    ("detail", some (text i.detail)), ("remediation", some (texts i.remediation))]

def ScanSummary.toJson (s : ScanSummary) : Json :=
  ofMembers [("scanned", some (.nat s.scanned)), ("vulnerable", some (.nat s.vulnerable)),
    ("not_vulnerable", some (.nat s.notVulnerable)), ("indeterminate", some (.nat s.indeterminate)),
    ("errors", some (.nat s.errors))]

def ScanOutcome.toJson (o : ScanOutcome) : Json :=
  ofMembers [("path", some (text o.path.text)), ("backend", some (text o.backend)),
    ("analysis", o.analysis.map Analysis.toJson), ("error", o.error.map text)]

def BackendInfo.toJson (i : BackendInfo) : Json :=
  ofMembers [("name", some (text i.name)), ("description", some (text i.description)),
    ("default", some (.bool i.isDefault))]

/-- What is reported about one file. -/
structure FileReport where
  path : Path
  /-- The digest, if the file could be read. -/
  sha256 : Option String
  backend : String
  verdict : Option Verdict
  trace : Trace
  error : Option String
  issue : Option Issue
  deriving DecidableEq, Repr

namespace FileReport

def ofOutcome (h : Host) (o : ScanOutcome) : FileReport where
  path := o.path
  sha256 := (h.tree.sha256 h.cwd o.path).toOption
  backend := o.backend
  verdict := o.verdict?
  trace := o.analysis.elim [] Analysis.trace
  error := o.error
  issue := if o.isVulnerable then some .resourceModules else none

/-- What is logged about a file that cannot be hashed. -/
def hashLog (h : Host) (o : ScanOutcome) : Log :=
  match h.tree.sha256 h.cwd o.path with
  | .ok _ => []
  | .error e => [⟨.debug, .report, e.full⟩]

def toJson (r : FileReport) : Json :=
  ofMembers [("path", some (text r.path.text)), ("sha256", some (r.sha256.elim .null text)),
    ("backend", some (text r.backend)), ("verdict", r.verdict.map Verdict.toJson),
    ("trace", some (Trace.toJson r.trace)), ("error", r.error.map text),
    ("issue", r.issue.map Issue.toJson)]

end FileReport

/-- What is reported about a scan. -/
structure ScanReport where
  scannedAt : String
  summary : ScanSummary
  files : List FileReport
  deriving DecidableEq, Repr

namespace ScanReport

def ofOutcomes (h : Host) (outcomes : List ScanOutcome) : ScanReport where
  scannedAt := h.time
  summary := .ofOutcomes outcomes
  files := outcomes.map (FileReport.ofOutcome h)

def toJson (r : ScanReport) : Json :=
  ofMembers [("tool", some (text toolName)), ("version", some (text toolVersion)),
    ("scanned_at", some (text r.scannedAt)), ("summary", some r.summary.toJson),
    ("files", some (.arr (r.files.map FileReport.toJson)))]

end ScanReport

end FlexAudit
