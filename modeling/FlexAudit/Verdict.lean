/-! # Verdicts

The judgement on one dump: its kind, the stage that settled it, a short rationale, and an anomaly
of the input if one weakened the judgement. -/

namespace FlexAudit

namespace Verdict

inductive Kind where
  | vulnerable
  | notVulnerable
  /-- Not enough information; reported as not vulnerable. -/
  | indeterminate
  deriving DecidableEq, Repr

/-- The stage that settled a verdict. -/
inductive Basis where
  /-- The dump shows no Flex application. -/
  | applicationType
  /-- The recorded SDK version; a vulnerable result is a likely finding. -/
  | sdkVersion
  /-- The instructions of the load method. -/
  | bytecode
  deriving DecidableEq, Repr

/-- What was wrong with the dump. -/
inductive Anomaly where
  | malformedVersionString (text : String)
  | missingProductInfo
  | missingStartMarker
  | emptyDump
  deriving DecidableEq, Repr

def Kind.name : Kind → String
  | vulnerable => "vulnerable"
  | notVulnerable => "not_vulnerable"
  | indeterminate => "indeterminate"

def Basis.name : Basis → String
  | applicationType => "application_type"
  | sdkVersion => "sdk_version"
  | bytecode => "bytecode"

def Anomaly.message : Anomaly → String
  | malformedVersionString text => "malformed SDK version string '" ++ text ++ "'"
  | missingProductInfo => "no SDK version record in dump"
  | missingStartMarker => "ModuleInfo::load reported present but no block start found"
  | emptyDump => "empty dump"

end Verdict

structure Verdict where
  kind : Verdict.Kind
  basis : Verdict.Basis
  rationale : String
  anomaly : Option Verdict.Anomaly := none
  deriving DecidableEq, Repr

namespace Verdict

def vulnerable (basis : Basis) (rationale : String) : Verdict :=
  ⟨.vulnerable, basis, rationale, none⟩

def notVulnerable (basis : Basis) (rationale : String) : Verdict :=
  ⟨.notVulnerable, basis, rationale, none⟩

def indeterminate (basis : Basis) (rationale : String) (anomaly : Anomaly) : Verdict :=
  ⟨.indeterminate, basis, rationale, some anomaly⟩

def withAnomaly (v : Verdict) (anomaly : Anomaly) : Verdict :=
  { v with anomaly := some anomaly }

/-- Only the kind `vulnerable` counts as a finding. -/
def isVulnerable (v : Verdict) : Bool :=
  v.kind == .vulnerable

end Verdict

end FlexAudit
