import FlexAudit.Report
import FlexAudit.Proofs.Json.Printer
import FlexAudit.Proofs.Json.Record

/-!
# Reports for machines

A report quotes texts from outside as they are, so a reader of the JSON finds every outcome again.
Proved here:

* `FileReport.records_ofOutcome`: the members of the record about a file say what its outcome says,
  and a member without a value is left out;
* `ScanOutcome.Records.unique`: a record tells its outcome from every other one;
* `report_faithful`: the text of a report is read back as one record for each outcome, in order.
-/

namespace FlexAudit

open Json

namespace Json

theorem exists_members {j : Json} {members : List (String × Option Json)}
    (hj : j = ofMembers members) (hnodup : (members.map Prod.fst).Nodup) :
    ∃ ms, j = .obj ms ∧ ∀ m ∈ members, member? ms m.1 = some m.2 := by
  refine ⟨_, hj.trans (ofMembers_eq members), ?_⟩
  intro m hm
  exact member?_present hnodup hm

end Json

/-! ## One record -/

/-- What the members of a record say about an outcome. A name that has no member leads to `none`. -/
structure ScanOutcome.Records (o : ScanOutcome) (members : List (Option String × Json)) :
    Prop where
  path : member? members "path" = some (some (text o.path.text))
  backend : member? members "backend" = some (some (text o.backend))
  error : member? members "error" = some (o.error.map text)
  trace : ∃ j, member? members "trace" = some (some j) ∧
    Trace.ofJson? j = some (o.analysis.elim [] Analysis.trace)
  verdict : ∃ slot, member? members "verdict" = some slot ∧
    slot.isSome = o.analysis.isSome ∧ slot.bind Verdict.ofJson? = o.analysis.map Analysis.verdict
  issue : ∃ slot, member? members "issue" = some slot ∧
    (slot.isSome = true ↔ ∃ a, o.analysis = some a ∧ a.verdict.kind = .vulnerable)

theorem ScanOutcome.isVulnerable_iff (o : ScanOutcome) :
    o.isVulnerable = true ↔ ∃ a, o.analysis = some a ∧ a.verdict.kind = .vulnerable := by
  cases h : o.analysis with
  | none => simp [isVulnerable, verdict?, h]
  | some a => simp [isVulnerable, verdict?, h, Verdict.isVulnerable]

theorem FileReport.records_ofOutcome (h : Host) (o : ScanOutcome) :
    ∃ members, (ofOutcome h o).toJson = .obj members ∧ o.Records members := by
  obtain ⟨members, hmembers, hmember⟩ :=
    exists_members (rfl : (ofOutcome h o).toJson = ofMembers _) (by simp)
  refine ⟨members, hmembers, ?_⟩
  have htrace := hmember ("trace", some (Trace.toJson (o.analysis.elim [] Analysis.trace)))
    (by simp [ofOutcome])
  have hverdict := hmember ("verdict", o.verdict?.map Verdict.toJson) (by simp [ofOutcome])
  have hissue := hmember ("issue", (ofOutcome h o).issue.map Issue.toJson) (by simp)
  exact {
    path := hmember ("path", some (text o.path.text)) (by simp [ofOutcome])
    backend := hmember ("backend", some (text o.backend)) (by simp [ofOutcome])
    error := hmember ("error", o.error.map text) (by simp [ofOutcome])
    trace := ⟨_, htrace, Trace.inverts _⟩
    verdict := by
      refine ⟨_, hverdict, ?_, ?_⟩
      · simp [ScanOutcome.verdict?]
      · cases hanalysis : o.analysis with
        | none => simp [ScanOutcome.verdict?, hanalysis]
        | some a => simp [ScanOutcome.verdict?, hanalysis, Verdict.inverts a.verdict]
    issue := by
      refine ⟨_, hissue, ?_⟩
      rw [← ScanOutcome.isVulnerable_iff]
      simp [ofOutcome] }

theorem Analysis.eq_of_parts {a b : Option Analysis} (hverdict : a.map verdict = b.map verdict)
    (htrace : a.elim [] trace = b.elim [] trace) : a = b := by
  cases a with
  | none => simpa [eq_comm] using hverdict
  | some a =>
    cases b with
    | none => simp at hverdict
    | some b =>
      obtain ⟨verdict, trace⟩ := a
      obtain ⟨verdict', trace'⟩ := b
      simpa using And.intro hverdict htrace

/-- A record tells its outcome from every other one. -/
theorem ScanOutcome.Records.unique {o o' : ScanOutcome} {members : List (Option String × Json)}
    (h : o.Records members) (h' : o'.Records members) : o = o' := by
  have htext : Function.Injective text := fun s t hst => by simpa [text] using hst
  have hpath : o.path.text = o'.path.text := by simpa [h.path, text] using h'.path
  have hbackend : o.backend = o'.backend := by simpa [h.backend, text] using h'.backend
  have herror : o.error = o'.error := by
    apply Option.map_injective htext
    simpa [h.error] using h'.error
  have hanalysis : o.analysis = o'.analysis := by
    obtain ⟨j, hj, htrace⟩ := h.trace
    obtain ⟨j', hj', htrace'⟩ := h'.trace
    obtain ⟨slot, hslot, -, hverdict⟩ := h.verdict
    obtain ⟨slot', hslot', -, hverdict'⟩ := h'.verdict
    obtain rfl : j = j' := by simpa [hj] using hj'
    obtain rfl : slot = slot' := by simpa [hslot] using hslot'
    refine Analysis.eq_of_parts (hverdict.symm.trans hverdict') ?_
    simpa [htrace] using htrace'
  obtain ⟨⟨path⟩, backend, analysis, error⟩ := o
  obtain ⟨⟨path'⟩, backend', analysis', error'⟩ := o'
  rw [mk.injEq, Path.mk.injEq]
  exact ⟨hpath, hbackend, hanalysis, herror⟩

theorem FileReport.toJson_ofOutcome_injective (h : Host) :
    Function.Injective fun o => (ofOutcome h o).toJson := by
  intro o o' heq
  obtain ⟨members, hmembers, hrecords⟩ := records_ofOutcome h o
  obtain ⟨members', hmembers', hrecords'⟩ := records_ofOutcome h o'
  simp only [hmembers, hmembers', obj.injEq] at heq
  subst heq
  exact hrecords.unique hrecords'

/-! ## The whole report -/

/-- The JSON text of the files of a report. -/
def ScanReport.filesText (r : ScanReport) : String :=
  (arr (r.files.map FileReport.toJson)).pretty

theorem ScanReport.filesText_injective (h : Host) :
    Function.Injective fun outcomes => (ofOutcomes h outcomes).filesText := by
  intro outcomes outcomes' htext
  have hitems := congrArg parse? htext
  simp only [filesText, parse?_pretty, ofOutcomes, List.map_map, Option.some.injEq,
    arr.injEq] at hitems
  exact List.map_injective_iff.mpr (FileReport.toJson_ofOutcome_injective h) hitems

/-- **Faithful reports.** The JSON text of the files of a report is read back as an array with one
record for each outcome, in the order of the outcomes, and no two lists of outcomes have the same
text. The report that a scan prints has this array as its member `files`. -/
theorem report_faithful (h : Host) (outcomes : List ScanOutcome) :
    (∃ items, parse? (ScanReport.ofOutcomes h outcomes).filesText = some (.arr items) ∧
      List.Forall₂ (fun o item => ∃ members, item = .obj members ∧ ScanOutcome.Records o members)
        outcomes items ∧
      ∃ members, parse? (ScanReport.ofOutcomes h outcomes).toJson.pretty = some (.obj members) ∧
        member? members "files" = some (some (.arr items))) ∧
    Function.Injective fun outcomes => (ScanReport.ofOutcomes h outcomes).filesText := by
  refine ⟨⟨_, parse?_pretty _, ?_, ?_⟩, ScanReport.filesText_injective h⟩
  · simp only [ScanReport.ofOutcomes, List.map_map, List.forall₂_map_right_iff]
    apply List.forall₂_same.mpr
    intro o _
    exact FileReport.records_ofOutcome h o
  · obtain ⟨members, hmembers, hmember⟩ :=
      exists_members (rfl : (ScanReport.ofOutcomes h outcomes).toJson = ofMembers _) (by simp)
    refine ⟨members, ?_, hmember ("files", some _) (by simp)⟩
    rw [parse?_pretty, hmembers]

end FlexAudit
