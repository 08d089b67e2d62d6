import FlexAudit.Analysis
import FlexAudit.Json.Basic

/-! # Analyses as JSON

How verdicts, traces and versions are written as JSON values and read back. Fields are written in
the order of the structure, and an absent anomaly is left out. -/

namespace FlexAudit

open Json

namespace Verdict

def Kind.all : List Kind := [.vulnerable, .notVulnerable, .indeterminate]

def Kind.ofName? (name : String) : Option Kind :=
  all.find? fun k => k.name == name

def Basis.all : List Basis := [.applicationType, .sdkVersion, .bytecode]

def Basis.ofName? (name : String) : Option Basis :=
  all.find? fun b => b.name == name

def Kind.toJson (k : Kind) : Json := text k.name

def Kind.ofJson? (j : Json) : Option Kind := (unitVariant? j).bind ofName?

def Basis.toJson (b : Basis) : Json := text b.name

def Basis.ofJson? (j : Json) : Option Basis := (unitVariant? j).bind ofName?

def Anomaly.toJson : Anomaly → Json
  | malformedVersionString s => .obj [(some "malformed_version_string", text s)]
  | missingProductInfo => text "missing_product_info"
  | missingStartMarker => text "missing_start_marker"
  | emptyDump => text "empty_dump"

def Anomaly.ofName? : String → Option Anomaly
  | "missing_product_info" => some missingProductInfo
  | "missing_start_marker" => some missingStartMarker
  | "empty_dump" => some emptyDump
  | _ => none

def Anomaly.ofJson? (j : Json) : Option Anomaly :=
  match variant? j with
  | some ("malformed_version_string", payload) => (text? payload).map malformedVersionString
  | _ => (unitVariant? j).bind ofName?

def toJson (v : Verdict) : Json :=
  ofMembers [("kind", some v.kind.toJson), ("basis", some v.basis.toJson),
    ("rationale", some (text v.rationale)), ("anomaly", v.anomaly.map Anomaly.toJson)]

def ofJson? (j : Json) : Option Verdict := do
  match ← slots? ["kind", "basis", "rationale", "anomaly"] j with
  | [kind, basis, rationale, anomaly] =>
    return {
      kind := ← required Kind.ofJson? kind
      basis := ← required Basis.ofJson? basis
      rationale := ← required text? rationale
      anomaly := ← withDefault none (option? Anomaly.ofJson?) anomaly }
  | _ => none

end Verdict

namespace Trace

def Level.ofName? : String → Option Level
  | "info" => some .info
  | "warn" => some .warn
  | _ => none

def Level.toJson (l : Level) : Json := text l.name

def Level.ofJson? (j : Json) : Option Level := (unitVariant? j).bind ofName?

def Entry.toJson (e : Entry) : Json :=
  ofMembers [("level", some e.level.toJson), ("message", some (text e.message))]

def Entry.ofJson? (j : Json) : Option Entry := do
  match ← slots? ["level", "message"] j with
  | [level, message] => return ⟨← required Level.ofJson? level, ← required text? message⟩
  | _ => none

def toJson (t : Trace) : Json := .arr (t.map Entry.toJson)

def ofJson? (j : Json) : Option Trace := list? Entry.ofJson? j

end Trace

namespace Analysis

def toJson (a : Analysis) : Json :=
  ofMembers [("verdict", some a.verdict.toJson), ("trace", some (Trace.toJson a.trace))]

def ofJson? (j : Json) : Option Analysis := do
  match ← slots? ["verdict", "trace"] j with
  | [verdict, trace] => return ⟨← required Verdict.ofJson? verdict, ← required Trace.ofJson? trace⟩
  | _ => none

end Analysis

namespace SdkVersion

def toJson (v : SdkVersion) : Json :=
  ofMembers [("major", some (.nat v.major.toNat)), ("minor", some (.nat v.minor.toNat)),
    ("patch", some (.nat v.patch.toNat))]

def part? (j : Json) : Option UInt32 := (natBelow? UInt32.size j).map Nat.toUInt32

def ofJson? (j : Json) : Option SdkVersion := do
  match ← slots? ["major", "minor", "patch"] j with
  | [major, minor, patch] =>
    return ⟨← required part? major, ← required part? minor, ← required part? patch⟩
  | _ => none

end SdkVersion

end FlexAudit
