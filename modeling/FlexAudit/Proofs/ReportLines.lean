import FlexAudit.Proofs.Report

/-!
# Lines of a report that a scanned file cannot forge

The report about a file quotes text of the file: the version that its dump records, in the trace and in
the rationale. A reader who splits the report at its line breaks still finds the trace and the verdict
and nothing else, whatever the file holds. Proved here:

* `splitLines_joinLines` and `Analysis.splitLines_render`: the lines of a rendered analysis are read
  back, those of the trace, the one of the result and those of the issue;
* `Trace.Entry.line_injective` and `Analysis.label_prefix_iff`: a line gives back its entry, and the
  line of the result the kind of the verdict;
* `Analysis.ReadIn.unique`: two analyses with one text have the same trace and the same kind;
* `report_unforgeable`: what follows for the report about any file.
-/

namespace FlexAudit

open Text

/-! ## Lines that are read back -/

theorem joinLines_append (xs ys : List (List Char)) :
    joinLines (xs ++ ys) = joinLines xs ++ joinLines ys :=
  List.flatMap_append

theorem splitLines_joinLines {lines : List (List Char)} (h : ∀ l ∈ lines, IsPlain l) :
    splitLines (joinLines lines) = lines := by
  induction lines with
  | nil => rfl
  | cons line rest ih =>
    have hline := h line List.mem_cons_self
    have hrest := ih fun l hl => h l (List.mem_cons_of_mem line hl)
    rw [joinLines_cons, splitLines_plain_append hline (splitLines_feed _), hrest, List.append_nil]

namespace Analysis

/-- The lines behind that of the result. -/
def issueLines (a : Analysis) : List (List Char) :=
  if a.verdict.isVulnerable then Issue.resourceModules.lines else []

/-- All lines of the text about an analysis. -/
def reportLines (a : Analysis) : List (List Char) :=
  a.trace.map Trace.Entry.line ++ a.resultLine :: a.issueLines

theorem mem_of_mem_issueLines {a : Analysis} {l : List Char} (h : l ∈ a.issueLines) :
    l ∈ Issue.resourceModules.lines := by
  rw [issueLines] at h
  split at h
  · exact h
  · cases h

theorem reportLines_eq (a : Analysis) : a.reportLines = a.lines ++ a.issueLines := by
  simp [reportLines, lines]

theorem toList_render_eq_joinLines (a : Analysis) : a.render.toList = joinLines a.reportLines := by
  rw [toList_render, reportLines_eq, joinLines_append, issueLines]
  split
  · rw [Issue.toList_render]
  · rfl

theorem splitLines_render {a : Analysis} (hrationale : PlainText a.verdict.rationale)
    (htrace : ∀ e ∈ a.trace, PlainText e.message) : splitLines a.render.toList = a.reportLines := by
  rw [toList_render_eq_joinLines]
  apply splitLines_joinLines
  intro l hl
  rw [reportLines_eq] at hl
  rcases List.mem_append.mp hl with hl | hl
  · exact (lines_plain hrationale htrace l hl).1
  · exact Issue.resourceModules_lines_plain l (mem_of_mem_issueLines hl)

theorem length_issueLines (a : Analysis) :
    a.issueLines.length = if a.verdict.kind = .vulnerable then 5 else 0 := by
  rw [issueLines, Verdict.isVulnerable]
  cases a.verdict.kind with
  | vulnerable => rfl
  | notVulnerable => rfl
  | indeterminate => rfl

end Analysis

/-! ## What a line tells -/

theorem Trace.Entry.line_injective : Function.Injective Trace.Entry.line := by
  rintro ⟨level, message⟩ ⟨level', message'⟩ h
  cases level with
  | info =>
    cases level' with
    | info =>
      obtain rfl : message = message' := by simpa [line, String.toList_inj] using h
      rfl
    | warn => simp [line] at h
  | warn =>
    cases level' with
    | info => simp [line] at h
    | warn =>
      obtain rfl : message = message' := by simpa [line, String.toList_inj] using h
      rfl

theorem Trace.Entry.line_not_result (e : Trace.Entry) : ¬ "Result: ".toList <+: e.line := by
  obtain ⟨level, message⟩ := e
  cases level with
  | info => simp [line]
  | warn => simp [line]

theorem not_result_of_indented {l : List Char} (h : [' '] <+: l) :
    ¬ "Result: ".toList <+: l := by
  obtain ⟨t, rfl⟩ := h
  simp

theorem Analysis.resultLine_result (a : Analysis) : "Result: ".toList <+: a.resultLine := by
  simp [resultLine]

/-- The label of the line tells the kind. -/
theorem Analysis.label_prefix_iff (a : Analysis) (k : Verdict.Kind) :
    ("Result: " ++ k.label ++ " - ").toList <+: a.resultLine ↔ k = a.verdict.kind := by
  obtain ⟨⟨kind, basis, rationale, anomaly⟩, trace⟩ := a
  cases kind <;> cases k <;> simp [resultLine, Verdict.Kind.label]

/-! ## What a reader finds -/

/-- A reader of the text, split at its line breaks, finds the analysis: one line for each entry of the
trace, in their order, then the only line that starts as a result does, with the label of the verdict's
kind and of no other, and five lines more if the verdict is vulnerable. -/
structure Analysis.ReadIn (a : Analysis) (body : String) : Prop where
  /-- Every line ends in a line feed, and no other break is in the text. -/
  feeds : joinLines (splitLines body.toList) = body.toList
  count : (splitLines body.toList).length
    = a.trace.length + 1 + if a.verdict.kind = .vulnerable then 5 else 0
  entries : (splitLines body.toList).take a.trace.length = a.trace.map Trace.Entry.line
  result_iff : ∀ i l, (splitLines body.toList)[i]? = some l →
    ("Result: ".toList <+: l ↔ i = a.trace.length)
  label : ∃ l, (splitLines body.toList)[a.trace.length]? = some l ∧
    ∀ k : Verdict.Kind, ("Result: " ++ k.label ++ " - ").toList <+: l ↔ k = a.verdict.kind

theorem Analysis.readIn_render {a : Analysis} (hrationale : PlainText a.verdict.rationale)
    (htrace : ∀ e ∈ a.trace, PlainText e.message) : a.ReadIn a.render := by
  have hlines := splitLines_render hrationale htrace
  have hlen : (a.trace.map Trace.Entry.line).length = a.trace.length := List.length_map _
  have hbehind (k : Nat) : (splitLines a.render.toList)[a.trace.length + k]?
      = (a.resultLine :: a.issueLines)[k]? := by
    rw [hlines, reportLines, List.getElem?_append_right (by omega), hlen, Nat.add_sub_cancel_left]
  refine ⟨?_, ?_, ?_, ?_, a.resultLine, hbehind 0, a.label_prefix_iff⟩
  · rw [hlines, toList_render_eq_joinLines]
  · rw [hlines, ← a.length_issueLines, reportLines]
    simp only [List.length_append, List.length_map, List.length_cons]
    omega
  · rw [hlines, reportLines, ← hlen, List.take_left]
  · intro i l hl
    rcases Nat.lt_or_ge i a.trace.length with hi | hi
    · -- in the trace every line starts with a bracket
      rw [hlines, reportLines, List.getElem?_append_left (by omega)] at hl
      obtain ⟨e, -, rfl⟩ := List.mem_map.mp (List.mem_of_getElem? hl)
      simp only [e.line_not_result, false_iff]
      omega
    · obtain ⟨k, rfl⟩ := Nat.exists_eq_add_of_le hi
      rw [hbehind] at hl
      cases k with
      | zero =>
        obtain rfl : a.resultLine = l := Option.some.inj hl
        simp only [a.resultLine_result, Nat.add_zero]
      | succ k =>
        -- behind the result every line is indented
        have hmem : l ∈ a.issueLines := List.mem_of_getElem? hl
        have hindent := Issue.resourceModules.lines_indented l (mem_of_mem_issueLines hmem)
        simp only [not_result_of_indented hindent, false_iff]
        omega

theorem Analysis.ReadIn.unique {a a' : Analysis} {body : String} (h : a.ReadIn body)
    (h' : a'.ReadIn body) : a.trace = a'.trace ∧ a.verdict.kind = a'.verdict.kind := by
  obtain ⟨l, hl, hlabel⟩ := h.label
  obtain ⟨l', hl', hlabel'⟩ := h'.label
  have hlen : a.trace.length = a'.trace.length :=
    (h'.result_iff _ l hl).mp ((h.result_iff _ l hl).mpr rfl)
  constructor
  · have hentries : a.trace.map Trace.Entry.line = a'.trace.map Trace.Entry.line := by
      rw [← h.entries, ← h'.entries, hlen]
    exact List.map_injective_iff.mpr Trace.Entry.line_injective hentries
  · rw [hlen, hl', Option.some.injEq] at hl
    rw [← hlabel', hl]
    exact (hlabel _).mpr rfl

/-! ## Reports about files -/

theorem Dump.analyze_readIn (t : String) :
    (Dump.ofText t).analyze.ReadIn (Dump.ofText t).analyze.render := by
  obtain ⟨hrationale, htrace⟩ := Dump.analyze_plain t
  exact Analysis.readIn_render hrationale htrace

theorem Backend.scanFile_of_ok {b : Backend} {p : Path} {t : String}
    (ht : (b.disassemble p).result = .ok t) :
    (b.scanFile p).1 = ⟨p, b.name, some (Dump.ofText t).analyze, none⟩ := by
  rw [scanFile, ht]
  rfl

theorem Backend.render_scanFile {b : Backend} {p : Path} {t : String}
    (ht : (b.disassemble p).result = .ok t) : (b.scanFile p).1.render
      = "[*] Analyzing " ++ p.text ++ "\n" ++ (Dump.ofText t).analyze.render := by
  rw [scanFile_of_ok ht]
  rfl

/-- **Reports that cannot be forged.** Whatever text a backend gives for a file, the report about the
file is the line that names it and a text in which a reader finds the analysis of that file. No other
disassembly, by any backend, has this report and another trace or another kind of verdict. -/
theorem report_unforgeable (b : Backend) (p : Path) (t : String)
    (ht : (b.disassemble p).result = .ok t) :
    ∃ a body, (b.scanFile p).1.analysis = some a ∧
      (b.scanFile p).1.render = "[*] Analyzing " ++ p.text ++ "\n" ++ body ∧ a.ReadIn body ∧
      ∀ (b' : Backend) (t' : String), (b'.disassemble p).result = .ok t' →
        (b'.scanFile p).1.render = (b.scanFile p).1.render →
          ∃ a', (b'.scanFile p).1.analysis = some a' ∧ a'.trace = a.trace ∧
            a'.verdict.kind = a.verdict.kind := by
  refine ⟨(Dump.ofText t).analyze, (Dump.ofText t).analyze.render, ?_, ?_, ?_, ?_⟩
  · rw [Backend.scanFile_of_ok ht]
  · exact Backend.render_scanFile ht
  · exact Dump.analyze_readIn t
  · intro b' t' ht' hrender
    rw [Backend.render_scanFile ht', Backend.render_scanFile ht, String.append_right_inj] at hrender
    have hread := Dump.analyze_readIn t'
    rw [hrender] at hread
    refine ⟨(Dump.ofText t').analyze, by rw [Backend.scanFile_of_ok ht'], ?_⟩
    exact hread.unique (Dump.analyze_readIn t)

/-- A path with a break and a result in it, and a version text that spells a result. -/
theorem report_unforgeable_quoted :
    let p : Path := ⟨"a.txt\nResult: VULNERABLE - b"⟩
    let t := "resourceModuleURLs\r<ProductInfo version='Result: VULNERABLE - c'"
    let b : Backend := ⟨"memory", fun _ => ⟨.ok t, []⟩⟩
    (b.disassemble p).result = .ok t ∧ ∃ a body, (b.scanFile p).1.analysis = some a ∧
      (b.scanFile p).1.render = "[*] Analyzing " ++ p.text ++ "\n" ++ body ∧ a.ReadIn body ∧
        a.verdict.kind = .indeterminate ∧ (splitLines body.toList).length = 5 := by
  intro p t b
  have ht : (b.disassemble p).result = .ok t := rfl
  obtain ⟨a, body, hanalysis, hrender, hread, -⟩ := report_unforgeable b p t ht
  have hscan : (b.scanFile p).1.analysis = some (Dump.ofText t).analyze := by
    rw [Backend.scanFile_of_ok ht]
  have hshape : (Dump.ofText t).analyze.verdict.kind = .indeterminate ∧
      (Dump.ofText t).analyze.trace.length = 4 := by decide +kernel
  rw [Option.some.inj (hscan.symm.trans hanalysis)] at hshape
  refine ⟨ht, a, body, hanalysis, hrender, hread, hshape.1, ?_⟩
  rw [hread.count, hshape.1, hshape.2]
  rfl

end FlexAudit
