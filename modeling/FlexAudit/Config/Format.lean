import FlexAudit.Path

/-! # Formats of configuration files

A configuration is stored as JSON or as YAML, and the extension of the file says which. -/

namespace FlexAudit

inductive ConfigFormat where
  | json
  | yaml
  deriving DecidableEq, Repr

namespace ConfigFormat

/-- The format of a name, in any case. -/
def ofName? (name : String) : Option ConfigFormat :=
  match Path.lower name with
  | "json" => some json
  | "yaml" => some yaml
  | "yml" => some yaml
  | _ => none

/-- The format of a file, by its extension. -/
def ofPath? (p : Path) : Option ConfigFormat :=
  p.extension?.bind ofName?

/-- The name that messages use. -/
def label : ConfigFormat → String
  | json => "JSON"
  | yaml => "YAML"

end ConfigFormat

end FlexAudit
