import FlexAudit.Proofs.Config.File
import FlexAudit.Proofs.Json.Printer
import FlexAudit.Proofs.Json.Record

/-!
# JSON round trips

Every value of a type that has a JSON form is read back from its text, in both layouts, and a text
that was decoded and encoded once stays as it is when that is done again. Proved here:

* `RoundTrips.of_inverts`: the text adds nothing to what encoding and decoding do;
* `json_round_trips`: all types, and a configuration through a file.
-/

namespace FlexAudit

namespace Json

inductive Layout where
  | compact
  | pretty

def Layout.write : Layout → Json → String
  | compact => Json.compact
  | pretty => Json.pretty

theorem parse?_write (layout : Layout) (j : Json) : parse? (layout.write j) = some j := by
  cases layout with
  | compact => exact parse?_compact j
  | pretty => exact parse?_pretty j

/-- The value that a text stands for. -/
def decodeText? {α : Type} (decode : Json → Option α) (text : String) : Option α :=
  (parse? text).bind decode

/-- A text decoded and encoded again, if it is accepted. -/
def reencode? {α : Type} (decode : Json → Option α) (encode : α → Json) (layout : Layout)
    (text : String) : Option String :=
  (decodeText? decode text).map fun a => layout.write (encode a)

structure RoundTrips {α : Type} (decode : Json → Option α) (encode : α → Json) : Prop where
  reads_back : ∀ layout a, decodeText? decode (Layout.write layout (encode a)) = some a
  /-- Whatever text is accepted, a second pass keeps what the first one made of it. -/
  idempotent : ∀ layout text out, reencode? decode encode layout text = some out →
    reencode? decode encode layout out = some out

theorem RoundTrips.of_inverts {α : Type} {decode : Json → Option α} {encode : α → Json}
    (h : Inverts decode encode) : RoundTrips decode encode := by
  have hback (layout : Layout) (a : α) :
      decodeText? decode (layout.write (encode a)) = some a := by
    rw [decodeText?, parse?_write, Option.bind_some, h a]
  refine ⟨hback, ?_⟩
  intro layout text out hout
  obtain ⟨a, -, rfl⟩ := Option.map_eq_some_iff.1 hout
  rw [reencode?, hback, Option.map_some]

end Json

open Json

/-- Parsing either text of a value gives the value back, for every type with a JSON form; so a
configuration is loaded as it was written. -/
theorem json_round_trips :
    RoundTrips ScanConfig.ofJson? ScanConfig.toJson ∧
    RoundTrips DisassemblerConfig.ofJson? DisassemblerConfig.toJson ∧
    RoundTrips Verdict.ofJson? Verdict.toJson ∧
    RoundTrips Verdict.Anomaly.ofJson? Verdict.Anomaly.toJson ∧
    RoundTrips Trace.ofJson? Trace.toJson ∧
    RoundTrips Analysis.ofJson? Analysis.toJson ∧
    RoundTrips SdkVersion.ofJson? SdkVersion.toJson ∧
    ∀ (t : FileTree) (cwd : Location) (p : Path) (extension : String) (c : ScanConfig),
      p.extension? = some extension → Path.lower extension = "json" →
      t.Holds cwd p (c.render .json) → ScanConfig.load t cwd p = .ok c := by
  have hconfig := RoundTrips.of_inverts ScanConfig.inverts
  refine ⟨hconfig, .of_inverts DisassemblerConfig.inverts, .of_inverts Verdict.inverts,
    .of_inverts Verdict.Anomaly.inverts, .of_inverts Trace.inverts, .of_inverts Analysis.inverts,
    .of_inverts SdkVersion.inverts, ?_⟩
  intro t cwd p extension c hextension hlower hholds
  have hformat : ConfigFormat.ofPath? p = some .json := by
    rw [ConfigFormat.ofPath?_of_extension hextension, ConfigFormat.ofName?, hlower]
    rfl
  exact ScanConfig.load_of_holds hformat hholds (hconfig.reads_back .pretty c)

/-- A configuration that needs every kind of escape, with the largest number of workers. -/
def escapedConfig : ScanConfig where
  disassembler := { backend := "\"\\/\x00\n", program := some "", args := ["\u2028", "😀"] }
  extensions := []
  jobs := some 18446744073709551615

theorem json_round_trips_escaped :
    let p := Location.path ["audit.Json"]
    let t := FileTree.ofFile "audit.Json" (escapedConfig.render .json)
    p.extension? = some "Json" ∧ Path.lower "Json" = "json" ∧
      t.Holds [] p (escapedConfig.render .json) ∧ ScanConfig.load t [] p = .ok escapedConfig := by
  intro p t
  have hextension : p.extension? = some "Json" := by decide
  have hlower : Path.lower "Json" = "json" := by decide
  have hholds : t.Holds [] p (escapedConfig.render .json) :=
    FileTree.holds_ofFile (by decide) (escapedConfig.render .json)
  obtain ⟨-, -, -, -, -, -, -, hload⟩ := json_round_trips
  exact ⟨hextension, hlower, hholds, hload t [] p "Json" escapedConfig hextension hlower hholds⟩

end FlexAudit
