import FlexAudit.Proofs.Config.File
import FlexAudit.Proofs.Yaml.Value

/-!
# YAML round trips

A configuration is written as a record, its tokens give the nodes of this record, and the nodes give
the configuration back. Proved here:

* `DisassemblerConfig.toYaml_eq`, `ScanConfig.toYaml_eq`: the text as a record of fields;
* `ScanConfig.parse?_toYaml`: the document of the text;
* `DisassemblerConfig.ofYaml?_node`, `ScanConfig.ofNode?_node`: the values of its nodes;
* `yaml_config_round_trips`: every configuration, through a file.
-/

namespace FlexAudit

open Yaml Yaml.Scanner Yaml.Node

namespace DisassemblerConfig

/-- The fields in the order in which they are written. -/
def fields (c : DisassemblerConfig) : List (String × Option Field) :=
  [("backend", some (.text c.backend)), ("program", c.program.map .text),
    ("args", some (.texts c.args))]

theorem toYaml_eq (indent : Nat) (c : DisassemblerConfig) :
    c.toYaml indent = Members.write indent (present c.fields) := by
  obtain ⟨backend, program, args⟩ := c
  cases program with
  | none => simp [toYaml, fields, present, Members.write, Field.write]
  | some program => simp [toYaml, fields, present, Members.write, Field.write]

theorem isKey_of_mem_fields {c : DisassemblerConfig} {m : String × Field}
    (hm : m ∈ present c.fields) : isKey m.1.toList = true := by
  have hall : ∀ name ∈ ["backend", "program", "args"], isKey name.toList = true := by decide
  exact hall m.1 (name_mem_of_mem_present hm)

def node (c : DisassemblerConfig) : Node :=
  record ((present c.fields).map fun m => (m.1, ofField m.2))

theorem ofYaml?_node (d : Document) (c : DisassemblerConfig) : ofYaml? d c.node = some c := by
  have hnames : ["backend", "program", "args"].Nodup := by decide
  have hslots : d.slots? ["backend", "program", "args"] c.node =
      some [some (ofText c.backend), (c.program.map .text).map ofField,
        some (.sequence (c.args.map ofText))] := by
    rw [node, present_map]
    exact d.slots?_record hnames
  have hprogram : ((c.program.map Field.text).map ofField).elim (some none) (d.option? d.text?) =
      some c.program := by
    cases c.program with
    | none => rfl
    | some program => exact d.option?_ofText program
  rw [ofYaml?, hslots]
  simp [-Option.elim_map, -Option.map_map, hprogram, d.text?_ofText, d.list?_ofText]

end DisassemblerConfig

namespace ScanConfig

/-- The fields behind the disassembler. -/
def fields (c : ScanConfig) : List (String × Option Field) :=
  [("extensions", some (.texts c.extensions)), ("recursive", some (.bool c.recursive)),
    ("jobs", c.jobs.map fun n => .nat n.toNat)]

theorem write_fields (c : ScanConfig) :
    Members.write 0 (present c.fields) = writeTexts 0 "extensions" c.extensions
      ++ writeMember 0 "recursive" ((if c.recursive then "true\n" else "false\n").toList)
      ++ c.jobs.elim [] fun n => writeMember 0 "jobs" (Nat.toDigits 10 n.toNat ++ ['\n']) := by
  have hrecursive : (Field.bool c.recursive).write 0 "recursive" =
      writeMember 0 "recursive" ((if c.recursive then "true\n" else "false\n").toList) := by
    cases c.recursive <;> simp [Field.bool, Field.write]
  rw [← hrecursive, List.append_assoc, fields]
  cases c.jobs with
  | none => rfl
  | some n =>
    have hjobs : Members.write 0 [("jobs", .nat n.toNat)] = (Field.nat n.toNat).write 0 "jobs" := by
      rw [Members.write_cons, Members.write_nil, List.append_nil]
    rw [Option.elim_some, ← Field.write_nat, ← hjobs]
    rfl

theorem toYaml_eq (c : ScanConfig) :
    c.toYaml = "disassembler".toList ++ ':' :: '\n' ::
      (Members.write indentStep (present c.disassembler.fields) ++
        Members.write 0 (present c.fields)) := by
  have hname : "disassembler:\n".toList = "disassembler".toList ++ [':', '\n'] := by simp
  have htext : c.toYaml = "disassembler:\n".toList ++ c.disassembler.toYaml indentStep
      ++ writeTexts 0 "extensions" c.extensions
      ++ writeMember 0 "recursive" ((if c.recursive then "true\n" else "false\n").toList)
      ++ c.jobs.elim [] fun n => writeMember 0 "jobs" (Nat.toDigits 10 n.toNat ++ ['\n']) := rfl
  rw [htext, hname, DisassemblerConfig.toYaml_eq, write_fields]
  simp only [List.append_assoc, List.cons_append, List.nil_append]

theorem isKey_of_mem_fields {c : ScanConfig} {m : String × Field} (hm : m ∈ present c.fields) :
    isKey m.1.toList = true := by
  have hall : ∀ name ∈ ["extensions", "recursive", "jobs"], isKey name.toList = true := by decide
  exact hall m.1 (name_mem_of_mem_present hm)

def node (c : ScanConfig) : Node :=
  record (("disassembler", c.disassembler.node) ::
    (present c.fields).map fun m => (m.1, ofField m.2))

theorem parse?_toYaml (c : ScanConfig) : Document.parse? c.toYaml = some ⟨some c.node, []⟩ := by
  have hname : isKey "disassembler".toList = true := by decide
  have hscan := scan_nested hname
    (fun _ hm => DisassemblerConfig.isKey_of_mem_fields (c := c.disassembler) hm)
    (by simp [DisassemblerConfig.fields, present]) (fun _ hm => isKey_of_mem_fields (c := c) hm)
    (by simp [fields, present])
  rw [toYaml_eq, Document.parse?, hscan, Option.bind_some, ofTokens?_nested]
  rfl

theorem ofNode?_node (d : Document) (c : ScanConfig) : ofNode? d c.node = some c := by
  have hnames : ["disassembler", "extensions", "recursive", "jobs"].Nodup := by decide
  have hslots : d.slots? ["disassembler", "extensions", "recursive", "jobs"] c.node =
      some [some c.disassembler.node, some (.sequence (c.extensions.map ofText)),
        some (ofField (.bool c.recursive)), (c.jobs.map fun n => .nat n.toNat).map ofField] := by
    have hmembers : c.node = record (present (("disassembler", some c.disassembler.node) ::
        c.fields.map fun m => (m.1, m.2.map ofField))) := by
      rw [node, present_map]
      rfl
    rw [hmembers]
    exact d.slots?_record hnames
  have hjobs : ((c.jobs.map fun n => Field.nat n.toNat).map ofField).elim (some none)
      (d.option? fun m => (d.natBelow? UInt64.size m).map Nat.toUInt64) = some c.jobs := by
    cases c.jobs with
    | none => rfl
    | some n =>
      have hn : n.toNat < UInt64.size := n.toNat_lt
      simpa using d.option?_nat Nat.toUInt64 hn
  rw [ofNode?, hslots]
  simp [-Option.elim_map, -Option.map_map, hjobs, d.list?_ofText, d.bool?_bool,
    DisassemblerConfig.ofYaml?_node]

theorem parse?_render_yaml (c : ScanConfig) : parse? .yaml (c.render .yaml) = some c := by
  rw [render, parse?, String.toList_ofList, parse?_toYaml]
  exact ofNode?_node _ c

end ScanConfig

theorem ConfigFormat.ofName?_yaml {extension : String}
    (h : Path.lower extension = "yaml" ∨ Path.lower extension = "yml") :
    ofName? extension = some .yaml := by
  rw [ofName?]
  rcases h with h | h <;> rw [h] <;> rfl

/-- A configuration that is written as YAML to a file is loaded as it was. -/
theorem yaml_config_round_trips (t : FileTree) (cwd : Location) (p : Path) (extension : String)
    (c : ScanConfig) (hextension : p.extension? = some extension)
    (hlower : Path.lower extension = "yaml" ∨ Path.lower extension = "yml")
    (hholds : t.Holds cwd p (c.render .yaml)) : ScanConfig.load t cwd p = .ok c := by
  have hformat : ConfigFormat.ofPath? p = some .yaml := by
    rw [ConfigFormat.ofPath?_of_extension hextension, ConfigFormat.ofName?_yaml hlower]
  exact ScanConfig.load_of_holds hformat hholds c.parse?_render_yaml

/-- Texts that look like other values, and one for each way to write a text. -/
def ambiguousConfig : ScanConfig where
  disassembler := {
    backend := "null"
    program := some "~"
    args := ["", " - a: b # c ", "it's", "one\ntwo\n\n", " \n", "\x07\r\n\u2028"] }
  extensions := ["true", "0x1F", "-.inf", "swf"]
  recursive := true
  jobs := some 18446744073709551615

theorem yaml_config_round_trips_ambiguous :
    let p := Location.path ["audit.Yml"]
    let t := FileTree.ofFile "audit.Yml" (ambiguousConfig.render .yaml)
    p.extension? = some "Yml" ∧ (Path.lower "Yml" = "yaml" ∨ Path.lower "Yml" = "yml") ∧
      t.Holds [] p (ambiguousConfig.render .yaml) ∧
      ScanConfig.load t [] p = .ok ambiguousConfig := by
  intro p t
  have hextension : p.extension? = some "Yml" := by decide
  have hlower : Path.lower "Yml" = "yaml" ∨ Path.lower "Yml" = "yml" := by decide
  have hholds : t.Holds [] p (ambiguousConfig.render .yaml) :=
    FileTree.holds_ofFile (by decide) (ambiguousConfig.render .yaml)
  exact ⟨hextension, hlower, hholds,
    yaml_config_round_trips t [] p "Yml" ambiguousConfig hextension hlower hholds⟩

end FlexAudit
