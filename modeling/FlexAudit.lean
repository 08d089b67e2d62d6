import FlexAudit.FileTree.Edit
import FlexAudit.Main
import FlexAudit.Proofs.Text.Occurrence
import FlexAudit.Proofs.Text.Termination
import FlexAudit.Proofs.CodeBlock
import FlexAudit.Proofs.Text.Lossy
import FlexAudit.Proofs.SdkVersion
import FlexAudit.Proofs.Verdict
import FlexAudit.Proofs.Scan
import FlexAudit.Proofs.Journal
import FlexAudit.Proofs.Locality
import FlexAudit.Proofs.Anomaly
import FlexAudit.Proofs.Report
import FlexAudit.Proofs.Batch
import FlexAudit.Proofs.Text.Encoding
import FlexAudit.Proofs.Path
import FlexAudit.Proofs.FileTree.Walk
import FlexAudit.Proofs.Candidates
import FlexAudit.Proofs.Command
import FlexAudit.Proofs.Text.Digits
import FlexAudit.Proofs.Record
import FlexAudit.Proofs.Json.Reader
import FlexAudit.Proofs.Json.Printer
import FlexAudit.Proofs.Json.Record
import FlexAudit.Proofs.Config.File
import FlexAudit.Proofs.Json.RoundTrip
import FlexAudit.Proofs.Yaml.Written
import FlexAudit.Proofs.Yaml.Plain
import FlexAudit.Proofs.Yaml.Quoted
import FlexAudit.Proofs.Yaml.Literal
import FlexAudit.Proofs.Yaml.Scanner
import FlexAudit.Proofs.Yaml.Fields
import FlexAudit.Proofs.Yaml.Node
import FlexAudit.Proofs.Yaml.Value
import FlexAudit.Proofs.Yaml.RoundTrip
import FlexAudit.Proofs.FileTree.Resolve
import FlexAudit.Proofs.FileTree.Write
import FlexAudit.Proofs.Config.Initial
import FlexAudit.Proofs.FileTree.Canonical
import FlexAudit.Proofs.Json.Report
import FlexAudit.Proofs.ProductRecord
import FlexAudit.Proofs.ReportLines
import FlexAudit.Proofs.Path.Extension
import FlexAudit.Proofs.Registry
import FlexAudit.Proofs.Config.Partial
import FlexAudit.Proofs.VersionAttribute
