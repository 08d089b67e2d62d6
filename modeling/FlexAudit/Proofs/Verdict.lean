import FlexAudit.Analysis
import FlexAudit.Proofs.CodeBlock
import FlexAudit.Proofs.SdkVersion

/-!
# What the verdict says

Each stage of the analysis has its own statement here: which basis it gives, and when its verdict
is that the dump is vulnerable. The verdict does not depend on the journal that a stage is given.
Proved here:

* `Dump.analyze_basis`: the basis of the verdict, by the two gates;
* `analyze_vulnerable_iff`: the verdict is vulnerable exactly if the lines of the text show the
  unchecked assignment in the load method, or an affected version where there is no load method.
-/

namespace FlexAudit

open Text

/-! ## The gates -/

theorem Dump.contains_iff (d : Dump) (needle : String) :
    d.contains needle = true ↔ ∃ l ∈ d.lines, HasText needle l := by
  simp [contains, HasText, occursIn_iff]

theorem Dump.isFlex_iff (d : Dump) :
    d.isFlex = true ↔ ∃ l ∈ d.lines, HasText "resourceModuleURLs" l :=
  d.contains_iff _

theorem Dump.hasModuleLoad_iff (d : Dump) : d.hasModuleLoad = true ↔ ∃ l ∈ d.lines, OpensLoad l :=
  d.contains_iff _

/-! ## The stages -/

theorem Dump.checkCodeBlock_basis (d : Dump) (j : Journal) :
    (d.checkCodeBlock j).1.basis = .bytecode := by
  unfold checkCodeBlock
  cases d.codeBlock? with
  | none => rfl
  | some b =>
    simp only
    split
    · rfl
    · split <;> rfl

theorem Dump.checkCodeBlock_vulnerable_iff (d : Dump) (j : Journal) :
    (d.checkCodeBlock j).1.kind = .vulnerable ↔ ∃ b, d.codeBlock? = some b ∧
      InstructionPair.assignment.foundIn b = true ∧ ¬ InstructionPair.patch.foundIn b = true := by
  unfold checkCodeBlock
  cases d.codeBlock? with
  | none => simp [Verdict.indeterminate]
  | some b =>
    cases ha : InstructionPair.assignment.foundIn b <;>
      cases hp : InstructionPair.patch.foundIn b <;>
        simp [ha, hp, Verdict.notVulnerable, Verdict.vulnerable]

theorem checkVersionText_basis (raw : String) (j : Journal) :
    (checkVersionText raw j).1.basis = .sdkVersion := by
  unfold checkVersionText
  cases SdkVersion.parse raw with
  | error e => rfl
  | ok v =>
    simp only
    split <;> rfl

theorem checkVersionText_vulnerable_iff (raw : String) (j : Journal) :
    (checkVersionText raw j).1.kind = .vulnerable ↔ SdkVersion.AffectedText raw.toList := by
  rw [← SdkVersion.exists_parse_isAffected_iff]
  unfold checkVersionText
  cases SdkVersion.parse raw with
  | error e => simp [unidentified, Verdict.indeterminate]
  | ok v => cases hv : v.isAffected <;> simp [hv, Verdict.notVulnerable, Verdict.vulnerable]

theorem Dump.checkSdkVersion_basis (d : Dump) (j : Journal) :
    (d.checkSdkVersion j).1.basis = .sdkVersion := by
  unfold checkSdkVersion
  cases d.lines.find? Marker.productInfo.foundIn with
  | none => rfl
  | some line =>
    simp only
    cases VersionAttribute.ofLine line with
    | value raw => exact checkVersionText_basis raw j
    | missing => rfl
    | unterminated => rfl

theorem Dump.checkSdkVersion_vulnerable_iff (d : Dump) (j : Journal) :
    (d.checkSdkVersion j).1.kind = .vulnerable ↔
      ∃ line raw, d.lines.find? Marker.productInfo.foundIn = some line ∧
        VersionAttribute.ofLine line = .value raw ∧ SdkVersion.AffectedText raw.toList := by
  unfold checkSdkVersion
  cases d.lines.find? Marker.productInfo.foundIn with
  | none => simp [unidentified, Verdict.indeterminate]
  | some line =>
    simp only
    cases ha : VersionAttribute.ofLine line with
    | value raw => simp [ha, checkVersionText_vulnerable_iff]
    | missing => simp [ha, unidentified, Verdict.indeterminate]
    | unterminated => simp [ha, unidentified, Verdict.indeterminate]

/-! ## All stages -/

theorem Dump.analyze_of_not_flex {d : Dump} (h : d.isFlex = false) :
    d.analyze.verdict.kind = .notVulnerable ∧ d.analyze.verdict.basis = .applicationType := by
  have hjudge : d.analyze.verdict = if d.isBlank
      then (Verdict.notVulnerable .applicationType "not a Flex application").withAnomaly .emptyDump
      else Verdict.notVulnerable .applicationType "not a Flex application" := by
    simp [analyze, analyzeLogged, judge, h]
  rw [hjudge]
  split
  · exact ⟨rfl, rfl⟩
  · exact ⟨rfl, rfl⟩

theorem Dump.analyze_of_load {d : Dump} (hflex : d.isFlex = true) (hload : d.hasModuleLoad = true) :
    ∃ j, d.analyze.verdict = (d.checkCodeBlock j).1 := by
  refine ⟨(({} : Journal).info "Flex application detected").info "It contains ModuleInfo::load", ?_⟩
  simp [analyze, analyzeLogged, judge, hflex, hload]

theorem Dump.analyze_of_no_load {d : Dump} (hflex : d.isFlex = true)
    (hload : d.hasModuleLoad = false) : ∃ j, d.analyze.verdict = (d.checkSdkVersion j).1 := by
  refine ⟨(({} : Journal).info "Flex application detected").info
    "It does NOT contain ModuleInfo::load", ?_⟩
  simp [analyze, analyzeLogged, judge, hflex, hload]

theorem Dump.analyze_basis (d : Dump) : d.analyze.verdict.basis =
    if d.isFlex then (if d.hasModuleLoad then .bytecode else .sdkVersion) else .applicationType := by
  cases hflex : d.isFlex with
  | false => exact (analyze_of_not_flex hflex).2
  | true =>
    cases hload : d.hasModuleLoad with
    | true =>
      obtain ⟨j, hj⟩ := analyze_of_load hflex hload
      rw [hj]
      exact d.checkCodeBlock_basis j
    | false =>
      obtain ⟨j, hj⟩ := analyze_of_no_load hflex hload
      rw [hj]
      exact d.checkSdkVersion_basis j

/-! ## When a dump is vulnerable -/

/-- The load method assigns the domain without a check, and the patch is not in it. -/
def AssignsUnchecked (lines : List String) : Prop :=
  ∃ s e, LoadExtent lines s e ∧
    (∃ i, s ≤ i ∧ i < e ∧ EndsThenStarts lines "        getproperty   \t:currentDomain"
      "        setproperty   \t:securityDomain" i) ∧
    ¬ ∃ j, s ≤ j ∧ j < e ∧ EndsThenStarts lines "        pushfalse     \t" "        pushtrue" j

/-- The first product record names the version `v`: `v` stands between the first `version='` of
its line and the next quote. -/
def RecordsVersion (lines : List String) (v : List Char) : Prop :=
  ∃ i line front rest, FirstFrom (HasText "<ProductInfo ") lines 0 i ∧ lines[i]? = some line ∧
    FirstCut "version='".toList line.toList front (v ++ '\'' :: rest) ∧ '\'' ∉ v

/-- There is no load method to look at, and the recorded version is affected. -/
def RecordsAffected (lines : List String) : Prop :=
  (∀ l ∈ lines, ¬ OpensLoad l) ∧ ∃ v, RecordsVersion lines v ∧ SdkVersion.AffectedText v

theorem VersionAttribute.ofLine_eq_value_iff (line raw : String) :
    VersionAttribute.ofLine line = .value raw ↔ ∃ front rest,
      FirstCut "version='".toList line.toList front (raw.toList ++ '\'' :: rest) ∧
        '\'' ∉ raw.toList := by
  constructor
  · intro h
    rw [ofLine] at h
    cases hafter : after? opening.toList line.toList with
    | none => simp [hafter] at h
    | some r =>
      cases hcut : cut? (· == '\'') r with
      | none => simp [hafter, hcut] at h
      | some x =>
        obtain ⟨text, rest⟩ := x
        obtain rfl : String.ofList text = raw := by simpa [hafter, hcut] using h
        obtain ⟨front, hfirst⟩ := (after?_eq_some_iff _ _ _).mp hafter
        obtain ⟨rfl, hquote⟩ := (cut?_beq_eq_some_iff _ _ _ _).mp hcut
        have htext : (String.ofList text).toList = text := String.toList_ofList
        rw [htext]
        exact ⟨front, rest, hfirst, hquote⟩
  · rintro ⟨front, rest, hfirst, hquote⟩
    have hafter : after? opening.toList line.toList = some (raw.toList ++ '\'' :: rest) :=
      (after?_eq_some_iff _ _ _).mpr ⟨front, hfirst⟩
    have hcut : cut? (· == '\'') (raw.toList ++ '\'' :: rest) = some (raw.toList, rest) :=
      (cut?_beq_eq_some_iff _ _ _ _).mpr ⟨rfl, hquote⟩
    simp [ofLine, hafter, hcut]

theorem find?_foundIn_eq_some_iff (m : Marker) (lines : List String) (line : String) :
    lines.find? m.foundIn = some line ↔
      ∃ i, FirstFrom (HasText m.literal) lines 0 i ∧ lines[i]? = some line := by
  have hfirst {l : String} (h : lines.find? m.foundIn = some l) :
      ∃ i, FirstFrom (HasText m.literal) lines 0 i ∧ lines[i]? = some l := by
    obtain ⟨hl, before, after, rfl, hbefore⟩ := List.find?_eq_some_iff_append.mp h
    refine ⟨before.length, FirstFrom.append_cons ?_ ((m.foundIn_iff l).mp hl) after, by simp⟩
    intro x hx hhas
    have := hbefore x hx
    simp [(m.foundIn_iff x).mpr hhas] at this
  refine ⟨hfirst, ?_⟩
  rintro ⟨i, hi, hline⟩
  obtain ⟨l, hl, hhas⟩ := hi.holds
  cases hfind : lines.find? m.foundIn with
  | none =>
    have := List.find?_eq_none.mp hfind l (List.mem_of_getElem? hl)
    exact absurd ((m.foundIn_iff l).mpr hhas) this
  | some l' =>
    obtain ⟨i', hi', hl'⟩ := hfirst hfind
    rw [hi.unique hi', hl'] at hline
    exact hline

theorem Dump.checkCodeBlock_vulnerable_iff_assigns (d : Dump) (j : Journal) :
    (d.checkCodeBlock j).1.kind = .vulnerable ↔ AssignsUnchecked d.lines := by
  rw [checkCodeBlock_vulnerable_iff]
  constructor
  · rintro ⟨b, hb, ha, hp⟩
    obtain ⟨e, hextent, hlines⟩ := CodeBlock.exists_extent hb
    rw [InstructionPair.foundIn_slice_iff _ hlines] at ha hp
    exact ⟨b.startLine, e, hextent, ha, hp⟩
  · rintro ⟨s, e, hextent, ha, hp⟩
    obtain ⟨b, hb, hlines⟩ := hextent.codeBlock?_eq
    refine ⟨b, hb, ?_, ?_⟩
    · rw [InstructionPair.foundIn_slice_iff _ hlines]
      exact ha
    · rw [InstructionPair.foundIn_slice_iff _ hlines]
      exact hp

theorem Dump.checkSdkVersion_vulnerable_iff_records (d : Dump) (j : Journal) :
    (d.checkSdkVersion j).1.kind = .vulnerable ↔
      ∃ v, RecordsVersion d.lines v ∧ SdkVersion.AffectedText v := by
  rw [checkSdkVersion_vulnerable_iff]
  constructor
  · rintro ⟨line, raw, hfind, hvalue, haffected⟩
    obtain ⟨i, hi, hline⟩ := (find?_foundIn_eq_some_iff _ _ _).mp hfind
    obtain ⟨front, rest, hcut, hquote⟩ := (VersionAttribute.ofLine_eq_value_iff line raw).mp hvalue
    exact ⟨raw.toList, ⟨i, line, front, rest, hi, hline, hcut, hquote⟩, haffected⟩
  · rintro ⟨v, ⟨i, line, front, rest, hi, hline, hcut, hquote⟩, haffected⟩
    have hfind : d.lines.find? Marker.productInfo.foundIn = some line :=
      (find?_foundIn_eq_some_iff _ _ _).mpr ⟨i, hi, hline⟩
    have hv : (String.ofList v).toList = v := String.toList_ofList
    refine ⟨line, String.ofList v, hfind, ?_, by rwa [hv]⟩
    exact (VersionAttribute.ofLine_eq_value_iff _ _).mpr ⟨front, rest, by rwa [hv], by rwa [hv]⟩

theorem AssignsUnchecked.exists_opensLoad {lines : List String} (h : AssignsUnchecked lines) :
    ∃ l ∈ lines, OpensLoad l := by
  obtain ⟨s, e, hextent, -⟩ := h
  obtain ⟨l, hl, hopens⟩ := hextent.start.holds
  exact ⟨l, List.mem_of_getElem? hl, hopens⟩

/-- A dump with a load method is judged by it alone. -/
theorem Dump.vulnerable_iff_of_load {d : Dump} (hflex : d.isFlex = true)
    (hload : d.hasModuleLoad = true) :
    d.analyze.verdict.kind = .vulnerable ↔ AssignsUnchecked d.lines ∨ RecordsAffected d.lines := by
  obtain ⟨j, hj⟩ := analyze_of_load hflex hload
  obtain ⟨l, hl, hopens⟩ := d.hasModuleLoad_iff.mp hload
  have hnot : ¬ RecordsAffected d.lines := fun h => h.1 l hl hopens
  rw [hj, d.checkCodeBlock_vulnerable_iff_assigns, or_iff_left hnot]

theorem Dump.vulnerable_iff_of_no_load {d : Dump} (hflex : d.isFlex = true)
    (hload : d.hasModuleLoad = false) :
    d.analyze.verdict.kind = .vulnerable ↔ AssignsUnchecked d.lines ∨ RecordsAffected d.lines := by
  obtain ⟨j, hj⟩ := analyze_of_no_load hflex hload
  have hnone : ∀ l ∈ d.lines, ¬ OpensLoad l := by
    intro l hl hopens
    rw [d.hasModuleLoad_iff.mpr ⟨l, hl, hopens⟩] at hload
    exact absurd hload (by simp)
  have hnot : ¬ AssignsUnchecked d.lines := fun h => by
    obtain ⟨l, hl, hopens⟩ := h.exists_opensLoad
    exact hnone l hl hopens
  rw [hj, d.checkSdkVersion_vulnerable_iff_records, or_iff_right hnot]
  exact ⟨fun h => ⟨hnone, h⟩, fun h => h.2⟩

/-- **Vulnerable dumps.** A text is judged vulnerable exactly if it shows a Flex application that
assigns the domain unchecked in its load method, or that has no load method and records an
affected version. Which of the two it was is the basis of the verdict. -/
theorem analyze_vulnerable_iff (t : String) :
    let lines := (Dump.ofText t).lines
    let verdict := (Dump.ofText t).analyze.verdict
    (verdict.kind = .vulnerable ↔ (∃ l ∈ lines, HasText "resourceModuleURLs" l) ∧
      (AssignsUnchecked lines ∨ RecordsAffected lines)) ∧
    (verdict.kind = .vulnerable → AssignsUnchecked lines → verdict.basis = .bytecode) ∧
    (verdict.kind = .vulnerable → RecordsAffected lines → verdict.basis = .sdkVersion) := by
  intro lines verdict
  have hiff : verdict.kind = .vulnerable ↔ (Dump.ofText t).isFlex = true ∧
      (AssignsUnchecked lines ∨ RecordsAffected lines) := by
    cases hflex : (Dump.ofText t).isFlex with
    | false => simp [verdict, (Dump.analyze_of_not_flex hflex).1]
    | true =>
      rw [and_iff_right rfl]
      cases hload : (Dump.ofText t).hasModuleLoad with
      | true => exact Dump.vulnerable_iff_of_load hflex hload
      | false => exact Dump.vulnerable_iff_of_no_load hflex hload
  refine ⟨by rw [hiff, Dump.isFlex_iff], ?_, ?_⟩
  · intro hkind hassigns
    have hload := (Dump.hasModuleLoad_iff _).mpr hassigns.exists_opensLoad
    simp [verdict, Dump.analyze_basis, (hiff.mp hkind).1, hload]
  · intro hkind hrecords
    have hload : ¬ (Dump.ofText t).hasModuleLoad = true := by
      rw [Dump.hasModuleLoad_iff]
      rintro ⟨l, hl, hopens⟩
      exact hrecords.1 l hl hopens
    simp [verdict, Dump.analyze_basis, (hiff.mp hkind).1, hload]

/-- One text for each way. In the first a trailer on the opening line does not close the listing, and
the pair ends on the last line. -/
theorem analyze_vulnerable_iff_listing :
    let t := "var resourceModuleURLs\r\nModuleInfo:::load(0 Traits Entries\n" ++
      "        getproperty   \t:currentDomain\r        setproperty   \t:securityDomain"
    let u := "resourceModuleURLs <ProductInfo version='4.5.1'"
    ((Dump.ofText t).analyze.verdict.kind = .vulnerable ∧ AssignsUnchecked (Dump.ofText t).lines ∧
      (Dump.ofText t).analyze.verdict.basis = .bytecode) ∧
    ((Dump.ofText u).analyze.verdict.kind = .vulnerable ∧ RecordsAffected (Dump.ofText u).lines ∧
      (Dump.ofText u).analyze.verdict.basis = .sdkVersion) := by
  intro t u
  have ht : (Dump.ofText t).analyze.verdict.kind = .vulnerable ∧
      (Dump.ofText t).analyze.verdict.basis ≠ .sdkVersion := by decide +kernel
  have hu : (Dump.ofText u).analyze.verdict.kind = .vulnerable ∧
      (Dump.ofText u).analyze.verdict.basis ≠ .bytecode := by decide +kernel
  obtain ⟨hiff, hassigns, hrecords⟩ := analyze_vulnerable_iff t
  obtain ⟨hiff', hassigns', hrecords'⟩ := analyze_vulnerable_iff u
  refine ⟨⟨ht.1, ?_⟩, ⟨hu.1, ?_⟩⟩
  · rcases (hiff.mp ht.1).2 with h | h
    · exact ⟨h, hassigns ht.1 h⟩
    · exact absurd (hrecords ht.1 h) ht.2
  · rcases (hiff'.mp hu.1).2 with h | h
    · exact absurd (hassigns' hu.1 h) hu.2
    · exact ⟨h, hrecords' hu.1 h⟩

end FlexAudit
