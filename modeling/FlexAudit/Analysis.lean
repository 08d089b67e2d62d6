import FlexAudit.CodeBlock
import FlexAudit.SdkVersion
import FlexAudit.Trace
import FlexAudit.Verdict

/-! # Analysis of a dump

Four stages, each of which may settle the verdict: whether the dump shows a Flex application at
all; whether it shows the load method; the instructions of that method where it does; the recorded
SDK version where it does not. The stages write to a journal and never fail: input that cannot be
read is an anomaly of the verdict. -/

namespace FlexAudit

open Verdict

/-- Judges a dump by the instructions of its load method. -/
def Dump.checkCodeBlock (d : Dump) (j : Journal) : Verdict × Journal :=
  match d.codeBlock? with
  | none =>
    (.indeterminate .bytecode "ModuleInfo::load block could not be extracted" .missingStartMarker,
     j.warn "ModuleInfo::load block not found; disassembler output may have changed format")
  | some block =>
    let j := if block.closed then j else
      j.debug .codeBlock ("ModuleInfo::load block starting at line "
        ++ toString (block.startLine + 1) ++ " has no trailer; using "
        ++ toString block.lines.length ++ " lines to end of dump")
    if !InstructionPair.assignment.foundIn block then
      (.notVulnerable .bytecode "compiled with a recent Flex SDK that never had the issue",
       j.info "It was compiled with a 'recent' Flex SDK")
    else
      let j := j.info "It was compiled with an old SDK version"
      if InstructionPair.patch.foundIn block then
        (.notVulnerable .bytecode "ModuleInfo::load carries the APSB11-25 patch",
         j.info "=> It was PATCHED")
      else
        (.vulnerable .bytecode
          "ModuleInfo::load assigns currentDomain to securityDomain without the patch",
         (j.info "It was not patched").info "=> VULNERABLE!")

/-- The verdict where the SDK version cannot be told. -/
def unidentified (detail : String) (anomaly : Anomaly) (j : Journal) : Verdict × Journal :=
  (.indeterminate .sdkVersion ("unable to identify SDK version: " ++ detail) anomaly,
   j.warn "Unable to identify the SDK version")

/-- Judges a version text. -/
def checkVersionText (raw : String) (j : Journal) : Verdict × Journal :=
  let j := j.info ("It was compiled with Flex SDK " ++ raw)
  match SdkVersion.parse raw with
  | .error e => unidentified e.message (.malformedVersionString raw) j
  | .ok version =>
    if version.isAffected then
      (.vulnerable .sdkVersion ("likely vulnerable: compiled with affected Flex SDK " ++ raw),
       j.info "=> LIKELY vulnerable")
    else
      (.notVulnerable .sdkVersion ("Flex SDK " ++ raw ++ " is outside the affected range"),
       j.info "=> Code pattern NOT found. Not vulnerable")

/-- Judges a dump by the version attribute of its first product record. -/
def Dump.checkSdkVersion (d : Dump) (j : Journal) : Verdict × Journal :=
  match d.lines.find? Marker.productInfo.foundIn with
  | none => unidentified "no ProductInfo record in dump" .missingProductInfo j
  | some line =>
    match VersionAttribute.ofLine line with
    | .value raw => checkVersionText raw j
    | .missing => unidentified "ProductInfo record has no version attribute" .missingProductInfo j
    | .unterminated =>
      unidentified "ProductInfo version attribute is not terminated"
        (.malformedVersionString (String.ofList (Text.trim line.toList))) j

/-- A verdict and the trace that led to it. -/
structure Analysis where
  verdict : Verdict
  trace : Trace
  deriving DecidableEq, Repr

/-- All stages, from an open journal. -/
def Dump.judge (d : Dump) (j : Journal) : Verdict × Journal :=
  if !d.isFlex then
    let verdict := Verdict.notVulnerable .applicationType "not a Flex application"
    (if d.isBlank then verdict.withAnomaly .emptyDump else verdict,
     j.info "NOT a Flex application")
  else
    let j := j.info "Flex application detected"
    if d.hasModuleLoad then
      let (verdict, j) := d.checkCodeBlock (j.info "It contains ModuleInfo::load")
      (verdict, if verdict.kind = .notVulnerable then j.info "=> NOT vulnerable" else j)
    else
      d.checkSdkVersion (j.info "It does NOT contain ModuleInfo::load")

/-- The analysis of a dump, and the log of it. -/
def Dump.analyzeLogged (d : Dump) : Analysis × Log :=
  let (verdict, j) := d.judge {}
  (⟨verdict, j.trace⟩, j.log)

def Dump.analyze (d : Dump) : Analysis :=
  d.analyzeLogged.1

end FlexAudit
