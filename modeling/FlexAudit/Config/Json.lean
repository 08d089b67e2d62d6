import FlexAudit.Config
import FlexAudit.Json.Basic

/-! # Configurations as JSON

Fields are written in the order of the structure, absent options are left out. In reading, a field
that is not given takes its default. -/

namespace FlexAudit

open Json

namespace DisassemblerConfig

def toJson (c : DisassemblerConfig) : Json :=
  ofMembers [("backend", some (text c.backend)), ("program", c.program.map text),
    ("args", some (texts c.args))]

def ofJson? (j : Json) : Option DisassemblerConfig := do
  let base : DisassemblerConfig := {}
  match ← slots? ["backend", "program", "args"] j with
  | [backend, program, args] =>
    return {
      backend := ← withDefault base.backend text? backend
      program := ← withDefault base.program (option? text?) program
      args := ← withDefault base.args (list? text?) args }
  | _ => none

end DisassemblerConfig

namespace ScanConfig

def toJson (c : ScanConfig) : Json :=
  ofMembers [("disassembler", some c.disassembler.toJson), ("extensions", some (texts c.extensions)),
    ("recursive", some (.bool c.recursive)), ("jobs", c.jobs.map fun n => .nat n.toNat)]

def jobs? (j : Json) : Option UInt64 := (natBelow? UInt64.size j).map Nat.toUInt64

def ofJson? (j : Json) : Option ScanConfig := do
  let base : ScanConfig := {}
  match ← slots? ["disassembler", "extensions", "recursive", "jobs"] j with
  | [disassembler, extensions, recursive, jobs] =>
    return {
      disassembler := ← withDefault base.disassembler DisassemblerConfig.ofJson? disassembler
      extensions := ← withDefault base.extensions (list? text?) extensions
      recursive := ← withDefault base.recursive bool? recursive
      jobs := ← withDefault base.jobs (option? jobs?) jobs }
  | _ => none

end ScanConfig

end FlexAudit
