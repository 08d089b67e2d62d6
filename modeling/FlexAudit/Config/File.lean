import FlexAudit.Config.Format
import FlexAudit.Config.Json
import FlexAudit.Config.Yaml
import FlexAudit.FileTree.Basic
import FlexAudit.Json.Printer
import FlexAudit.Json.Reader
import FlexAudit.Text.Utf8

/-! # Configuration files

Loading a configuration from a file tree, and the text of one. -/

namespace FlexAudit

/-- Why a configuration could not be loaded. -/
inductive ConfigError where
  | unsupportedFormat (path : Path)
  | unreadable (path : Path) (cause : OsError)
  | malformed (path : Path) (format : ConfigFormat)
  deriving DecidableEq, Repr

def ConfigError.message : ConfigError → String
  | unsupportedFormat p => "Unsupported config format for " ++ p.text
  | unreadable p _ => "Failed to read config at " ++ p.text
  | malformed p format => "Failed to parse config " ++ format.label ++ " at " ++ p.text

/-- The content of a file as text. -/
def FileTree.readText (t : FileTree) (cwd : Location) (p : Path) : Except OsError String := do
  match Utf8.decode? (← t.read cwd p) with
  | some cs => return String.ofList cs
  | none => throw .invalidText

namespace ScanConfig

def render (c : ScanConfig) : ConfigFormat → String
  | .json => c.toJson.pretty
  | .yaml => String.ofList c.toYaml

def parse? (format : ConfigFormat) (text : String) : Option ScanConfig :=
  match format with
  | .json => (Json.parse? text).bind ofJson?
  | .yaml => (Yaml.Document.parse? text.toList).bind ofYaml?

/-- Loads a configuration. The format is settled before the file is looked at. -/
def load (t : FileTree) (cwd : Location) (p : Path) : Except ConfigError ScanConfig :=
  match ConfigFormat.ofPath? p with
  | none => .error (.unsupportedFormat p)
  | some format =>
    match t.readText cwd p with
    | .error e => .error (.unreadable p e)
    | .ok text =>
      match parse? format text with
      | none => .error (.malformed p format)
      | some c => .ok c

/-- The configuration at a path, or the default one where no path is given. -/
def loadOrDefault (t : FileTree) (cwd : Location) : Option Path → Except ConfigError ScanConfig
  | none => .ok {}
  | some p => load t cwd p

end ScanConfig

end FlexAudit
