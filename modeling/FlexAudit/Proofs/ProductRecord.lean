import FlexAudit.Proofs.Anomaly

/-!
# The version of a product record

The line of the first product record is found by one search and its version attribute by another,
which starts at the beginning of the same line. What stands in front of the record takes part in the
second search. Proved here:

* `VersionAttribute.ofLine_record` and `VersionAttribute.ofLine_before_record`: the version that is
  read is that of the record, unless an attribute opens in front of the record;
* `checkVersionText_decidedBy`: a version text that is read is quoted, and decides the verdict;
* `record_version_judged_iff`: a dump is judged by the version of its first record exactly if no
  version attribute opens in front of it, or if the first one that does gives the same version;
* `version_before_record_read`: a dump with an affected version in its record that is judged not
  vulnerable.
-/

namespace FlexAudit

open Text

/-! ## The attribute in the line of a record -/

/-- `v` is the version that the text gives: what stands between its first `version='` and the next
quote. -/
def FirstVersion (text v : String) : Prop :=
  ∃ front rest, FirstCut "version='".toList text.toList front (v.toList ++ '\'' :: rest) ∧
    '\'' ∉ v.toList

/-- A version attribute opens in `p`, and `v` stands behind the first one, up to the next quote of `p`
or of the text behind `p`. -/
def OpensVersion (p behind v : String) : Prop :=
  ∃ front back rest, FirstCut "version='".toList p.toList front back ∧
    back ++ behind.toList = v.toList ++ '\'' :: rest ∧ '\'' ∉ v.toList

namespace VersionAttribute

theorem not_infix_record_name : ¬ "version='".toList <:+: "ProductInfo".toList := by
  rw [← occursIn_iff]
  decide +kernel

theorem toList_record (p r : String) : (p ++ "<ProductInfo " ++ r).toList
    = p.toList ++ '<' :: ("ProductInfo".toList ++ ' ' :: r.toList) := by
  simp

/-- No `version='` stands in the mark of a record or across one of its ends. -/
theorem firstCut_record {p r : String} (hp : ¬ HasText "version='" p) {front rest : List Char}
    (hcut : FirstCut "version='".toList r.toList front rest) :
    ∃ front', FirstCut "version='".toList (p ++ "<ProductInfo " ++ r).toList front' rest := by
  have hne : "version='".toList ≠ [] := by simp
  have hblank : ' ' ∉ "version='".toList := by simp
  have hangle : '<' ∉ "version='".toList := by simp
  have hinner := hcut.append_left hne hblank not_infix_record_name
  rw [toList_record]
  exact ⟨_, hinner.append_left hne hangle hp⟩

theorem ofLine_record {p r v : String} (hp : ¬ HasText "version='" p)
    (hr : FirstVersion r v) : ofLine (p ++ "<ProductInfo " ++ r) = .value v := by
  obtain ⟨front, rest, hcut, hquote⟩ := hr
  obtain ⟨front', hcut'⟩ := firstCut_record hp hcut
  exact (ofLine_eq_value_iff _ v).mpr ⟨front', rest, hcut', hquote⟩

theorem ofLine_before_record {p behind v : String} (h : OpensVersion p behind v) :
    ofLine (p ++ behind) = .value v := by
  obtain ⟨front, back, rest, hcut, heq, hquote⟩ := h
  have hline := hcut.append_right behind.toList
  rw [heq, ← String.toList_append] at hline
  exact (ofLine_eq_value_iff _ v).mpr ⟨front, rest, hline, hquote⟩

/-- An attribute that opens in front of a quote is closed. -/
theorem exists_opensVersion {p behind : String} (hp : HasText "version='" p)
    (hquote : '\'' ∈ behind.toList) : ∃ v, OpensVersion p behind v := by
  obtain ⟨front, back, hcut⟩ := (infix_iff_exists_firstCut _ _).mp hp
  obtain ⟨v, rest, heq, hv⟩ := List.eq_append_cons_of_mem (List.mem_append_right back hquote)
  have hlist : (String.ofList v).toList = v := String.toList_ofList
  exact ⟨String.ofList v, front, back, rest, hcut, by rw [hlist, heq], by rwa [hlist]⟩

end VersionAttribute

/-! ## Judged by a version text -/

/-- The entry that quotes a version text. -/
def Trace.Entry.quoting (v : String) : Trace.Entry := ⟨.info, "It was compiled with Flex SDK " ++ v⟩

/-- The version text `v` decides: the trace goes on from `before` with an entry that quotes `v` and
one entry more, and the verdict is the one that reading `v` gives. -/
structure DecidedBy (v : String) (before : Trace) (verdict : Verdict) (trace : Trace) : Prop where
  quoted : ∃ last, trace = before ++ [.quoting v, last]
  affected : ∀ version, SdkVersion.parse v = .ok version → version.isAffected = true →
    verdict = .vulnerable .sdkVersion ("likely vulnerable: compiled with affected Flex SDK " ++ v)
  unaffected : ∀ version, SdkVersion.parse v = .ok version → version.isAffected = false →
    verdict = .notVulnerable .sdkVersion ("Flex SDK " ++ v ++ " is outside the affected range")
  malformed : ∀ e, SdkVersion.parse v = .error e →
    verdict = .indeterminate .sdkVersion ("unable to identify SDK version: " ++ e.message)
      (.malformedVersionString v)

/-- The dump is judged by the version text `v`, by the stage for versions and by the whole analysis. -/
structure Dump.JudgedBy (d : Dump) (v : String) : Prop where
  stage : ∀ j, DecidedBy v j.trace (d.checkSdkVersion j).1 (d.checkSdkVersion j).2.trace
  analysis : DecidedBy v
    [⟨.info, "Flex application detected"⟩, ⟨.info, "It does NOT contain ModuleInfo::load"⟩]
    d.analyze.verdict d.analyze.trace

theorem checkVersionText_decidedBy (v : String) (j : Journal) :
    DecidedBy v j.trace (checkVersionText v j).1 (checkVersionText v j).2.trace := by
  have htwo (last : Trace.Entry) :
      ((j.info ("It was compiled with Flex SDK " ++ v)).add last).trace
        = j.trace ++ [.quoting v, last] := by
    simp [Journal.info, Journal.add, Trace.Entry.quoting]
  unfold checkVersionText
  cases hparse : SdkVersion.parse v with
  | error e =>
    refine ⟨⟨_, htwo _⟩, by simp [hparse], by simp [hparse], ?_⟩
    intro e' he'
    obtain rfl : e = e' := by simpa [hparse] using he'
    rfl
  | ok version =>
    have hsame (version' : SdkVersion) (h : SdkVersion.parse v = .ok version') :
        version = version' := by
      simpa [hparse] using h
    cases haffected : version.isAffected with
    | true =>
      simp only [haffected, ↓reduceIte]
      refine ⟨⟨_, htwo _⟩, fun _ _ _ => rfl, ?_, by simp [hparse]⟩
      intro version' hv hnot
      rw [← hsame version' hv, haffected] at hnot
      cases hnot
    | false =>
      simp only [haffected, Bool.false_eq_true, ↓reduceIte]
      refine ⟨⟨_, htwo _⟩, ?_, fun _ _ _ => rfl, by simp [hparse]⟩
      intro version' hv hyes
      rw [← hsame version' hv, haffected] at hyes
      cases hyes

theorem DecidedBy.unique {v v' : String} {before : Trace} {verdict : Verdict} {trace : Trace}
    (h : DecidedBy v before verdict trace) (h' : DecidedBy v' before verdict trace) : v = v' := by
  obtain ⟨last, hlast⟩ := h.quoted
  obtain ⟨last', hlast'⟩ := h'.quoted
  have hentry : Trace.Entry.quoting v = .quoting v' := by
    rw [hlast, List.append_cancel_left_eq] at hlast'
    exact (List.cons.inj hlast').1
  simpa [Trace.Entry.quoting] using hentry

theorem Dump.checkSdkVersion_of_record {d : Dump} {line v : String}
    (hline : IsFirstRecord d.lines line) (hv : VersionAttribute.ofLine line = .value v)
    (j : Journal) : d.checkSdkVersion j = checkVersionText v j := by
  have hfind : d.lines.find? Marker.productInfo.foundIn = some line :=
    (find?_foundIn_eq_some_iff .productInfo d.lines line).mpr hline
  rw [checkSdkVersion, hfind]
  simp only [hv]

/-- A Flex application without a load method is judged by the version that its first record's line
gives. -/
theorem Dump.judgedBy_of_record {d : Dump} (hflex : d.isFlex = true)
    (hload : d.hasModuleLoad = false) {line v : String} (hline : IsFirstRecord d.lines line)
    (hv : VersionAttribute.ofLine line = .value v) : d.JudgedBy v := by
  have hstage := checkSdkVersion_of_record hline hv
  constructor
  · intro j
    rw [hstage]
    exact checkVersionText_decidedBy v j
  · rw [analyze, analyzeLogged, judge_of_no_load hflex hload, hstage]
    exact checkVersionText_decidedBy v
      ((({} : Journal).info "Flex application detected").info "It does NOT contain ModuleInfo::load")

/-! ## Which version is read -/

/-- **The version of the first record.** In a Flex application without a load method, let `p` stand in
front of the mark of the first product record and `r` behind it, and let `v` be the version that `r`
gives. The dump is judged by `v` exactly if no version attribute opens in `p`, or if the first one that
does gives `v` too. Where one opens in `p`, the dump is judged by the version behind it. -/
theorem record_version_judged_iff (d : Dump)
    (hflex : ∃ l ∈ d.lines, HasText "resourceModuleURLs" l) (hload : ∀ l ∈ d.lines, ¬ OpensLoad l)
    (p r v : String) (hline : IsFirstRecord d.lines (p ++ "<ProductInfo " ++ r))
    (hr : FirstVersion r v) :
    (d.JudgedBy v ↔ ¬ HasText "version='" p ∨ OpensVersion p ("<ProductInfo " ++ r) v) ∧
    (HasText "version='" p → ∃ w, OpensVersion p ("<ProductInfo " ++ r) w ∧ d.JudgedBy w) := by
  have hflex := d.isFlex_iff.mpr hflex
  have hload := d.hasModuleLoad_eq_false_iff.mpr hload
  have hbefore {w : String} (hw : OpensVersion p ("<ProductInfo " ++ r) w) : d.JudgedBy w := by
    have hread := VersionAttribute.ofLine_before_record hw
    rw [← String.append_assoc] at hread
    exact Dump.judgedBy_of_record hflex hload hline hread
  have hexists (hp : HasText "version='" p) : ∃ w, OpensVersion p ("<ProductInfo " ++ r) w := by
    obtain ⟨front, rest, hcut, -⟩ := hr
    refine VersionAttribute.exists_opensVersion hp ?_
    rw [String.toList_append, hcut.eq]
    simp
  refine ⟨⟨?_, ?_⟩, ?_⟩
  · intro hjudged
    by_cases hp : HasText "version='" p
    · obtain ⟨w, hw⟩ := hexists hp
      obtain rfl : v = w := hjudged.analysis.unique (hbefore hw).analysis
      exact Or.inr hw
    · exact Or.inl hp
  · rintro (hp | hv)
    · exact Dump.judgedBy_of_record hflex hload hline (VersionAttribute.ofLine_record hp hr)
    · exact hbefore hv
  · intro hp
    obtain ⟨w, hw⟩ := hexists hp
    exact ⟨w, hw, hbefore hw⟩

/-- A version in front of the record that is not quoted. -/
theorem record_version_judged_iff_unquoted :
    let p := "<swf version=10 >"
    let r := "product='Flex' version='4.5.1' build='2'"
    let d : Dump := ⟨["resourceModuleURLs", p ++ "<ProductInfo " ++ r]⟩
    ((∃ l ∈ d.lines, HasText "resourceModuleURLs" l) ∧ (∀ l ∈ d.lines, ¬ OpensLoad l) ∧
      IsFirstRecord d.lines (p ++ "<ProductInfo " ++ r) ∧ FirstVersion r "4.5.1") ∧
    d.JudgedBy "4.5.1" := by
  intro p r d
  have hflex := d.isFlex_iff.mp (by decide +kernel)
  have hload := d.hasModuleLoad_eq_false_iff.mp (by decide +kernel)
  have hline : IsFirstRecord d.lines (p ++ "<ProductInfo " ++ r) :=
    (find?_foundIn_eq_some_iff .productInfo d.lines _).mp (by decide +kernel)
  have hr : FirstVersion r "4.5.1" :=
    (VersionAttribute.ofLine_eq_value_iff r "4.5.1").mp (by decide +kernel)
  have hp : ¬ HasText "version='" p := by
    rw [HasText, ← occursIn_iff]
    decide +kernel
  exact ⟨⟨hflex, hload, hline, hr⟩,
    (record_version_judged_iff d hflex hload p r "4.5.1" hline hr).1.mpr (Or.inl hp)⟩

/-- The header of the file on the line of the record: its version is read, and a dump that records an
affected version is judged not vulnerable. -/
theorem version_before_record_read :
    let p := "<swf version='10' >"
    let r := "product='Adobe Flex' version='3.5.0' />"
    let d : Dump := ⟨["resourceModuleURLs", p ++ "<ProductInfo " ++ r]⟩
    ((∃ l ∈ d.lines, HasText "resourceModuleURLs" l) ∧ (∀ l ∈ d.lines, ¬ OpensLoad l) ∧
      IsFirstRecord d.lines (p ++ "<ProductInfo " ++ r) ∧ ¬ HasText "<ProductInfo " p ∧
      FirstVersion r "3.5.0") ∧
    SdkVersion.AffectedText "3.5.0".toList ∧ d.analyze.verdict.kind = .notVulnerable ∧
      ¬ d.JudgedBy "3.5.0" := by
  intro p r d
  have hflex := d.isFlex_iff.mp (by decide +kernel)
  have hload := d.hasModuleLoad_eq_false_iff.mp (by decide +kernel)
  have hline : IsFirstRecord d.lines (p ++ "<ProductInfo " ++ r) :=
    (find?_foundIn_eq_some_iff .productInfo d.lines _).mp (by decide +kernel)
  have hp : ¬ HasText "<ProductInfo " p := by
    rw [HasText, ← occursIn_iff]
    decide +kernel
  have hr : FirstVersion r "3.5.0" :=
    (VersionAttribute.ofLine_eq_value_iff r "3.5.0").mp (by decide +kernel)
  have hparse : SdkVersion.parse "3.5.0" = .ok ⟨3, 5, 0⟩ := by decide +kernel
  have haffected : SdkVersion.isAffected ⟨3, 5, 0⟩ = true := by decide
  have hkind : d.analyze.verdict.kind = .notVulnerable := by decide +kernel
  refine ⟨⟨hflex, hload, hline, hp, hr⟩, ?_, hkind, ?_⟩
  · exact (SdkVersion.exists_parse_isAffected_iff _).mp ⟨_, hparse, haffected⟩
  · intro hjudged
    rw [hjudged.analysis.affected _ hparse haffected] at hkind
    cases hkind

end FlexAudit
