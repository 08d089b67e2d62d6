import FlexAudit.Config
import FlexAudit.Yaml.Printer
import FlexAudit.Yaml.Value

/-! # Configurations as YAML

Fields are written in the order of the structure, absent options are left out. In reading, a field
that is not given takes its default. -/

namespace FlexAudit

open Yaml

namespace DisassemblerConfig

def toYaml (indent : Nat) (c : DisassemblerConfig) : List Char :=
  writeText indent "backend" c.backend
    ++ c.program.elim [] (writeText indent "program")
    ++ writeTexts indent "args" c.args

def ofYaml? (d : Document) (n : Node) : Option DisassemblerConfig := do
  let base : DisassemblerConfig := {}
  match ← d.slots? ["backend", "program", "args"] n with
  | [backend, program, args] =>
    return {
      backend := ← backend.elim (some base.backend) d.text?
      program := ← program.elim (some base.program) (d.option? d.text?)
      args := ← args.elim (some base.args) (d.list? d.text?) }
  | _ => none

end DisassemblerConfig

namespace ScanConfig

def toYaml (c : ScanConfig) : List Char :=
  "disassembler:\n".toList ++ c.disassembler.toYaml indentStep
    ++ writeTexts 0 "extensions" c.extensions
    ++ writeMember 0 "recursive" ((if c.recursive then "true\n" else "false\n").toList)
    ++ c.jobs.elim [] fun n => writeMember 0 "jobs" (Nat.toDigits 10 n.toNat ++ ['\n'])

def ofNode? (d : Document) (n : Node) : Option ScanConfig := do
  let base : ScanConfig := {}
  let jobs? (n : Node) : Option UInt64 := (d.natBelow? UInt64.size n).map Nat.toUInt64
  match ← d.slots? ["disassembler", "extensions", "recursive", "jobs"] n with
  | [disassembler, extensions, recursive, jobs] =>
    return {
      disassembler := ← disassembler.elim (some base.disassembler) (DisassemblerConfig.ofYaml? d)
      extensions := ← extensions.elim (some base.extensions) (d.list? d.text?)
      recursive := ← recursive.elim (some base.recursive) d.bool?
      jobs := ← jobs.elim (some base.jobs) (d.option? jobs?) }
  | _ => none

/-- A stream without a document is the default configuration. -/
def ofYaml? (d : Document) : Option ScanConfig :=
  d.root.elim (some {}) (ofNode? d)

end ScanConfig

end FlexAudit
