import FlexAudit.Report
import FlexAudit.Proofs.Anomaly

/-!
# Reports for people

A report quotes text from outside: the path, the message of a disassembler that failed, and the
version that a dump records. Only the first two can have line breaks in them. Proved here:

* `Dump.analyze_plain`: the trace and the rationale of an analysis of text have no breaks, whatever
  the text is;
* `Analysis.toList_render`: a rendered analysis is one closed line for each entry of the trace, one
  for the result, and the issue behind them if the verdict is vulnerable;
* `Backend.showsIssue_scanFile_iff`: the report about a file has the issue in it exactly if the file
  is vulnerable, or the path or the message of the disassembler quotes the issue.
-/

namespace FlexAudit

open Text

/-! ## Text without breaks -/

namespace Text

theorem IsPlain.append {l r : List Char} (hl : IsPlain l) (hr : IsPlain r) : IsPlain (l ++ r) := by
  intro c hc
  rcases List.mem_append.mp hc with hc | hc
  · exact hl c hc
  · exact hr c hc

theorem toList_feed : "\n".toList = ['\n'] := String.toList_ofList

theorem IsPlain.feed_notMem {l : List Char} (h : IsPlain l) : '\n' ∉ l :=
  h.not_mem_of_mem_chars (e := .feed) List.mem_cons_self

/-- A text without breaks. -/
def PlainText (s : String) : Prop := IsPlain s.toList

namespace PlainText

/-- For a literal: it unifies with `String.ofList` of its characters, so that the test never decodes
its bytes. -/
theorem of_chars {cs : List Char} (h : cs.all (fun c => !isBreak c) = true) :
    PlainText (String.ofList cs) := by
  intro c hc
  rw [String.toList_ofList] at hc
  simpa using List.all_eq_true.mp h c hc

theorem append {s t : String} (hs : PlainText s) (ht : PlainText t) : PlainText (s ++ t) := by
  rw [PlainText, String.toList_append]
  exact IsPlain.append hs ht

theorem of_hasText {s line : String} (hline : PlainText line) (h : HasText s line) :
    PlainText s :=
  fun c hc => hline c (h.subset hc)

theorem toString_nat (n : Nat) : PlainText (toString n) := by
  intro c hc
  rw [Nat.toString_eq_ofList_toDigits, String.toList_ofList] at hc
  have hdigit := Nat.isDigit_of_mem_toDigits (by decide) (by decide) hc
  cases hbreak : isBreak c with
  | false => rfl
  | true => rcases (isBreak_eq_true_iff c).mp hbreak with rfl | rfl <;> simp at hdigit

theorem toString_char {c : Char} (h : isBreak c = false) : PlainText c.toString := by
  intro a ha
  obtain rfl : a = c := by simpa using ha
  exact h

end PlainText

end Text

/-! ## Messages of the analysis -/

theorem SdkVersion.plain_message {raw : String} (hraw : PlainText raw) {e : NonDigit}
    (h : parse raw = .error e) : PlainText e.message := by
  obtain ⟨heq, hfound⟩ := parse_eq_error h
  have hraw' : PlainText e.raw := by rwa [heq]
  have hchar := PlainText.toString_char (hraw _ hfound)
  refine .append (.append (.append (.append (.append (.append ?_ hchar) ?_) (.toString_nat _)) ?_)
    hraw') ?_
  all_goals exact .of_chars (by decide)

/-- No entry of the journal has a break in its message. -/
def Journal.Plain (j : Journal) : Prop := ∀ e ∈ j.trace, PlainText e.message

theorem Journal.Plain.add {j : Journal} (h : j.Plain) {e : Trace.Entry}
    (he : PlainText e.message) : (j.add e).Plain := by
  intro x hx
  rcases List.mem_append.mp hx with hx | hx
  · exact h x hx
  · rw [List.mem_singleton.mp hx]
    exact he

theorem Journal.Plain.info {j : Journal} (h : j.Plain) {m : String} (hm : PlainText m) :
    (j.info m).Plain :=
  h.add (e := ⟨.info, m⟩) hm

theorem Journal.Plain.warn {j : Journal} (h : j.Plain) {m : String} (hm : PlainText m) :
    (j.warn m).Plain :=
  h.add (e := ⟨.warn, m⟩) hm

/-- Neither the rationale nor the journal of a stage has a break in it. -/
structure PlainResult (r : Verdict × Journal) : Prop where
  rationale : PlainText r.1.rationale
  journal : r.2.Plain

theorem PlainResult.of_chars {k : Verdict.Kind} {b : Verdict.Basis} {cs : List Char}
    {a : Option Verdict.Anomaly} {j : Journal} (h : cs.all (fun c => !isBreak c) = true)
    (hj : j.Plain) : PlainResult (⟨k, b, String.ofList cs, a⟩, j) :=
  ⟨.of_chars h, hj⟩

theorem unidentified_plain {detail : String} (hdetail : PlainText detail) (a : Verdict.Anomaly)
    {j : Journal} (h : j.Plain) : PlainResult (unidentified detail a j) :=
  ⟨.append (.of_chars (by decide)) hdetail, .warn h (.of_chars (by decide))⟩

theorem checkVersionText_plain {raw : String} (hraw : PlainText raw) {j : Journal} (h : j.Plain) :
    PlainResult (checkVersionText raw j) := by
  have hquoted : (j.info ("It was compiled with Flex SDK " ++ raw)).Plain :=
    .info h (.append (.of_chars (by decide)) hraw)
  unfold checkVersionText
  cases hparse : SdkVersion.parse raw with
  | error e => exact unidentified_plain (SdkVersion.plain_message hraw hparse) _ hquoted
  | ok v =>
    simp only
    split
    · exact ⟨.append (.of_chars (by decide)) hraw, .info hquoted (.of_chars (by decide))⟩
    · exact ⟨.append (.append (.of_chars (by decide)) hraw) (.of_chars (by decide)),
        .info hquoted (.of_chars (by decide))⟩

theorem Dump.checkSdkVersion_plain {d : Dump} (hd : ∀ l ∈ d.lines, PlainText l) {j : Journal}
    (h : j.Plain) : PlainResult (d.checkSdkVersion j) := by
  unfold checkSdkVersion
  cases hfind : d.lines.find? Marker.productInfo.foundIn with
  | none => exact unidentified_plain (.of_chars (by decide)) _ h
  | some line =>
    simp only
    cases hversion : VersionAttribute.ofLine line with
    | value raw =>
      have hline : PlainText line := hd line (List.mem_of_find?_eq_some hfind)
      exact checkVersionText_plain (hline.of_hasText (VersionAttribute.hasText_of_value hversion)) h
    | missing => exact unidentified_plain (.of_chars (by decide)) _ h
    | unterminated => exact unidentified_plain (.of_chars (by decide)) _ h

theorem Dump.checkCodeBlock_plain (d : Dump) {j : Journal} (h : j.Plain) :
    PlainResult (d.checkCodeBlock j) := by
  unfold checkCodeBlock
  cases d.codeBlock? with
  | none => exact .of_chars (by decide) (.warn h (.of_chars (by decide)))
  | some b =>
    have hremark (m : String) : (if b.closed then j else j.debug .codeBlock m).Plain := by
      split <;> exact h
    simp only
    split
    · exact .of_chars (by decide) (.info (hremark _) (.of_chars (by decide)))
    · split
      · exact .of_chars (by decide)
          (.info (.info (hremark _) (.of_chars (by decide))) (.of_chars (by decide)))
      · exact .of_chars (by decide) (.info (.info (.info (hremark _) (.of_chars (by decide)))
          (.of_chars (by decide))) (.of_chars (by decide)))

theorem Dump.judge_plain {d : Dump} (hd : ∀ l ∈ d.lines, PlainText l) {j : Journal} (h : j.Plain) :
    PlainResult (d.judge j) := by
  cases hflex : d.isFlex with
  | false =>
    rw [judge_of_not_flex hflex]
    split
    · exact .of_chars (by decide) (.info h (.of_chars (by decide)))
    · exact .of_chars (by decide) (.info h (.of_chars (by decide)))
  | true =>
    have hgate : (j.info "Flex application detected").Plain := .info h (.of_chars (by decide))
    cases hload : d.hasModuleLoad with
    | true =>
      have hgates := hgate.info (m := "It contains ModuleInfo::load") (.of_chars (by decide))
      obtain ⟨hrationale, hjournal⟩ := d.checkCodeBlock_plain hgates
      rw [judge_of_load hflex hload]
      refine ⟨hrationale, ?_⟩
      simp only
      split
      · exact .info hjournal (.of_chars (by decide))
      · exact hjournal
    | false =>
      rw [judge_of_no_load hflex hload]
      exact checkSdkVersion_plain hd (.info hgate (.of_chars (by decide)))

theorem Dump.analyze_plain (t : String) :
    PlainText (Dump.ofText t).analyze.verdict.rationale ∧
      ∀ e ∈ (Dump.ofText t).analyze.trace, PlainText e.message := by
  have hlines : ∀ l ∈ (Dump.ofText t).lines, PlainText l := fun l => isPlain_of_mem_ofText
  obtain ⟨hrationale, hjournal⟩ := judge_plain hlines (j := {}) (by simp [Journal.Plain])
  exact ⟨hrationale, hjournal⟩

/-! ## The lines of a report -/

/-- The line of an entry, without its end. -/
def Trace.Entry.line (e : Trace.Entry) : List Char :=
  (match e.level with
    | .info => "[*] ".toList
    | .warn => "[!] ".toList) ++ e.message.toList

/-- The line of the result, without its end. -/
def Analysis.resultLine (a : Analysis) : List Char :=
  ("Result: " ++ a.verdict.kind.label ++ " - " ++ a.verdict.rationale).toList

def Analysis.lines (a : Analysis) : List (List Char) :=
  a.trace.map Trace.Entry.line ++ [a.resultLine]

theorem Trace.Entry.toList_render (e : Trace.Entry) : e.render.toList = e.line ++ ['\n'] := by
  obtain ⟨level, message⟩ := e
  cases level <;> simp [render, line]

theorem Analysis.toList_render (a : Analysis) : a.render.toList =
    joinLines a.lines ++ if a.verdict.isVulnerable then Issue.resourceModules.render.toList
      else [] := by
  have htrace : (String.join (a.trace.map Trace.Entry.render)).toList
      = joinLines (a.trace.map Trace.Entry.line) := by
    simp [joinLines, List.flatMap_map, Trace.Entry.toList_render]
  rw [render]
  simp only [String.toList_append, htrace]
  cases a.verdict.isVulnerable <;> simp [joinLines, lines, resultLine]

theorem Verdict.Kind.label_plain (k : Verdict.Kind) : PlainText k.label := by
  cases k <;> exact .of_chars (by decide)

/-- The lines of an analysis of text: none has a break in it, and none is indented. -/
theorem Analysis.lines_plain {a : Analysis} (hrationale : PlainText a.verdict.rationale)
    (htrace : ∀ e ∈ a.trace, PlainText e.message) :
    ∀ l ∈ a.lines, IsPlain l ∧ ¬ [' '] <+: l := by
  intro l hl
  rcases List.mem_append.mp hl with hl | hl
  · obtain ⟨⟨level, message⟩, he, rfl⟩ := List.mem_map.mp hl
    have hmessage : PlainText message := htrace _ he
    cases level with
    | info =>
      have hmark : PlainText "[*] " := .of_chars (by decide)
      exact ⟨IsPlain.append hmark hmessage, by simp [Trace.Entry.line]⟩
    | warn =>
      have hmark : PlainText "[!] " := .of_chars (by decide)
      exact ⟨IsPlain.append hmark hmessage, by simp [Trace.Entry.line]⟩
  · obtain rfl := List.mem_singleton.mp hl
    refine ⟨?_, by simp [resultLine]⟩
    exact ((PlainText.append (.of_chars (by decide)) a.verdict.kind.label_plain).append
      (.of_chars (by decide))).append hrationale

/-! ## The issue in a report -/

/-- Where no line starts with the character, none follows a feed either. -/
theorem not_infix_joinLines {c : Char} (hc : c ≠ '\n') {lines : List (List Char)}
    (h : ∀ l ∈ lines, IsPlain l ∧ ¬ [c] <+: l) : ¬ ['\n', c] <:+: joinLines lines := by
  induction lines with
  | nil => simp [joinLines]
  | cons x rest ih =>
    have hx := (h x List.mem_cons_self).1.feed_notMem
    have hrest : ∀ l ∈ rest, IsPlain l ∧ ¬ [c] <+: l := fun l hl => h l (List.mem_cons_of_mem x hl)
    have hbreak := infix_break_iff (f := []) (s := [c]) (by simp) hx (joinLines rest)
    rw [List.nil_append] at hbreak
    rw [joinLines_cons, hbreak]
    rintro (⟨-, hnext⟩ | hlater)
    · cases rest with
      | nil => simp [joinLines] at hnext
      | cons y rest =>
        rw [joinLines_cons, prefix_append_cons_iff (by simpa using hc.symm)] at hnext
        exact (hrest y List.mem_cons_self).2 hnext
    · exact ih hrest hlater

/-- Where a line behind the first starts with the character, it follows a feed. -/
theorem infix_joinLines {c : Char} {y : List Char} (h : [c] <+: y) (x : List Char)
    (rest : List (List Char)) : ['\n', c] <:+: joinLines (x :: y :: rest) := by
  obtain ⟨t, rfl⟩ := h
  refine ⟨x, t ++ '\n' :: joinLines rest, ?_⟩
  simp [joinLines_cons]

namespace Issue

/-- The lines about a vulnerability, without their ends. -/
def lines (i : Issue) : List (List Char) :=
  ("  Issue: " ++ i.name ++ " [" ++ i.severity ++ "]").toList :: "  Remediation:".toList ::
    i.remediation.map fun step => ("    - " ++ step).toList

theorem toList_render (i : Issue) : i.render.toList = joinLines i.lines := by
  -- unfolded by hand: the equation of `render` would be made by evaluating its literals
  change ("  Issue: " ++ i.name ++ " [" ++ i.severity ++ "]\n  Remediation:\n"
    ++ String.join (i.remediation.map fun step => "    - " ++ step ++ "\n")).toList
      = joinLines (("  Issue: " ++ i.name ++ " [" ++ i.severity ++ "]").toList ::
        "  Remediation:".toList :: i.remediation.map fun step => ("    - " ++ step).toList)
  simp [joinLines, List.flatMap_map]

theorem lines_indented (i : Issue) : ∀ l ∈ i.lines, [' '] <+: l := by
  simp [lines]

theorem lines_plain {i : Issue} (hname : PlainText i.name) (hseverity : PlainText i.severity)
    (hsteps : ∀ step ∈ i.remediation, PlainText step) : ∀ l ∈ i.lines, IsPlain l := by
  have hissue : PlainText ("  Issue: " ++ i.name ++ " [" ++ i.severity ++ "]") :=
    .append (.append (.append (.append (.of_chars (by decide)) hname) (.of_chars (by decide)))
      hseverity) (.of_chars (by decide))
  have hhead : PlainText "  Remediation:" := .of_chars (by decide)
  have hstep : ∀ step ∈ i.remediation, PlainText ("    - " ++ step) := fun step hmem =>
    .append (.of_chars (by decide)) (hsteps step hmem)
  simp only [lines, List.forall_mem_cons, List.forall_mem_map]
  exact ⟨hissue, hhead, hstep⟩

theorem indent_infix (i : Issue) : ['\n', ' '] <:+: i.render.toList := by
  rw [toList_render]
  exact infix_joinLines (i.lines_indented _ (by simp [lines])) _ _

theorem resourceModules_lines_plain : ∀ l ∈ resourceModules.lines, IsPlain l := by
  refine lines_plain (.of_chars (by decide)) (.of_chars (by decide)) fun step hstep => ?_
  simp only [resourceModules, List.mem_cons, List.not_mem_nil, or_false] at hstep
  rcases hstep with rfl | rfl | rfl <;> exact .of_chars (by decide)

theorem not_bracket_infix : ¬ ['\n', '['] <:+: resourceModules.render.toList := by
  rw [toList_render]
  refine not_infix_joinLines (by decide) fun l hl => ⟨resourceModules_lines_plain l hl, ?_⟩
  obtain ⟨t, rfl⟩ := resourceModules.lines_indented l hl
  simp

end Issue

namespace ScanOutcome

/-- The line that names the file. -/
def header (o : ScanOutcome) : String := "[*] Analyzing " ++ o.path.text ++ "\n"

/-- The line about a disassembler that failed. -/
def errorLine (message : String) : String := "[!] " ++ message ++ "\n"

/-- Whether the text about the file has the lines of the issue in it. -/
def showsIssue (o : ScanOutcome) : Bool :=
  occursIn Issue.resourceModules.render.toList o.render.toList

/-- Whether the path or the message of the disassembler brings them in. -/
def quotesIssue (o : ScanOutcome) : Bool :=
  occursIn Issue.resourceModules.render.toList o.header.toList ||
    o.error.any fun message =>
      occursIn Issue.resourceModules.render.toList (errorLine message).toList

end ScanOutcome

/-- Behind the header, which ends in a feed, comes a line that starts with a bracket: a text
without such a seam is on one side of it. -/
theorem ScanOutcome.infix_header_append_iff {block : List Char} (hblock : ¬ ['\n', '['] <:+: block)
    (o : ScanOutcome) (rest : List Char) :
    block <:+: o.header.toList ++ '[' :: rest ↔
      block <:+: o.header.toList ∨ block <:+: '[' :: rest := by
  -- unfolded by hand, as `Issue.render` above
  change block <:+: ("[*] Analyzing " ++ o.path.text ++ "\n").toList ++ '[' :: rest ↔
    block <:+: ("[*] Analyzing " ++ o.path.text ++ "\n").toList ∨ block <:+: '[' :: rest
  rw [String.toList_append, toList_feed]
  exact infix_seam_iff hblock _ rest

theorem ScanOutcome.infix_render_of_error {block : List Char} (hblock : ¬ ['\n', '['] <:+: block)
    {o : ScanOutcome} {message : String} (herror : o.error = some message) :
    block <:+: o.render.toList ↔
      block <:+: o.header.toList ∨ block <:+: (errorLine message).toList := by
  obtain ⟨path, backend, analysis, error⟩ := o
  obtain rfl : error = some message := herror
  have hline : (errorLine message).toList = '[' :: ("!] " ++ message ++ "\n").toList := by
    change ("[!] " ++ message ++ "\n").toList = _
    simp
  change block <:+: (header _ ++ errorLine message).toList ↔ _
  rw [String.toList_append, hline, infix_header_append_iff hblock]

theorem Analysis.toList_render_of_ne_nil {a : Analysis} (h : a.trace ≠ []) :
    ∃ rest, a.render.toList = '[' :: rest := by
  obtain ⟨⟨level, message⟩, trace, htrace⟩ := List.exists_cons_of_ne_nil h
  rw [toList_render, lines, htrace, List.map_cons, List.cons_append, joinLines_cons]
  cases level with
  | info => exact ⟨_, rfl⟩
  | warn => exact ⟨_, rfl⟩

theorem ScanOutcome.infix_render_of_analysis {block : List Char}
    (hblock : ¬ ['\n', '['] <:+: block) {o : ScanOutcome} {a : Analysis} (herror : o.error = none)
    (hanalysis : o.analysis = some a) (hne : a.trace ≠ []) :
    block <:+: o.render.toList ↔
      block <:+: o.header.toList ∨ block <:+: a.render.toList := by
  obtain ⟨path, backend, analysis, error⟩ := o
  obtain rfl : error = none := herror
  obtain rfl : analysis = some a := hanalysis
  obtain ⟨rest, hrest⟩ := a.toList_render_of_ne_nil hne
  change block <:+: (header _ ++ a.render).toList ↔ _
  rw [String.toList_append, hrest, infix_header_append_iff hblock]

/-- The indented lines are in a rendered analysis only where the issue stands behind the result. -/
theorem Analysis.issue_infix_render_iff {a : Analysis}
    (hlines : ∀ l ∈ a.lines, IsPlain l ∧ ¬ [' '] <+: l) :
    Issue.resourceModules.render.toList <:+: a.render.toList ↔ a.verdict.isVulnerable = true := by
  have hindent := Issue.resourceModules.indent_infix
  rw [a.toList_render]
  generalize Issue.resourceModules.render.toList = block at hindent ⊢
  cases a.verdict.isVulnerable with
  | true => simp [(List.suffix_append _ _).isInfix]
  | false =>
    have hnot : ¬ block <:+: joinLines a.lines := fun hinfix =>
      not_infix_joinLines (by decide) hlines (hindent.trans hinfix)
    simpa using hnot

/-- What a scan of a file gives: the analysis of its text, or why there is none. -/
theorem Backend.scanFile_cases (b : Backend) (p : Path) :
    (∃ t, (b.disassemble p).result = .ok t ∧
      (b.scanFile p).1 = ⟨p, b.name, some (Dump.ofText t).analyze, none⟩) ∨
    ∃ e, (b.disassemble p).result = .error e ∧
      (b.scanFile p).1 = ⟨p, b.name, none, some e.message⟩ := by
  rw [scanFile]
  cases h : (b.disassemble p).result with
  | ok t => exact .inl ⟨t, rfl, rfl⟩
  | error e => exact .inr ⟨e, rfl, rfl⟩

theorem Backend.showsIssue_scanFile_iff (b : Backend) (p : Path) :
    (b.scanFile p).1.showsIssue = true ↔
      (b.scanFile p).1.isVulnerable = true ∨ (b.scanFile p).1.quotesIssue = true := by
  rw [ScanOutcome.showsIssue, occursIn_iff, ScanOutcome.quotesIssue, Bool.or_eq_true, occursIn_iff]
  obtain ⟨t, -, heq⟩ | ⟨e, -, heq⟩ := b.scanFile_cases p
  · obtain ⟨hrationale, htrace⟩ := Dump.analyze_plain t
    have hissue := Analysis.issue_infix_render_iff (Analysis.lines_plain hrationale htrace)
    have herror : (b.scanFile p).1.error = none := by rw [heq]
    have hanalysis : (b.scanFile p).1.analysis = some (Dump.ofText t).analyze := by rw [heq]
    have hvulnerable : (b.scanFile p).1.isVulnerable
        = (Dump.ofText t).analyze.verdict.isVulnerable := by
      simp [ScanOutcome.isVulnerable, ScanOutcome.verdict?, hanalysis]
    have hne := (Dump.ofText t).analyze_concludes.ne_nil
    rw [ScanOutcome.infix_render_of_analysis Issue.not_bracket_infix herror hanalysis hne, hissue,
      hvulnerable, herror]
    simp [or_comm]
  · have herror : (b.scanFile p).1.error = some e.message := by rw [heq]
    have hsafe : (b.scanFile p).1.isVulnerable = false := by rw [heq]; rfl
    rw [ScanOutcome.infix_render_of_error Issue.not_bracket_infix herror, hsafe, herror,
      Option.any_some, occursIn_iff]
    simp

end FlexAudit
