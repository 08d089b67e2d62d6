import FlexAudit.Proofs.Locality
import Mathlib.Data.List.TakeWhile

/-!
# Kind, basis and anomaly

Which verdicts the analysis can give at all. `Verdict.Possible` lists them, one case for each way
out of a stage, and says what an anomaly may quote. Proved here:

* `Dump.analyze_possible`: every verdict is one of the list;
* `Text.trim_eq_nil_iff` and `Dump.isBlank_ofText_iff`: a text has nothing but blanks in its lines
  exactly if it has nothing but blanks at all;
* `verdict_consistent`: what follows for kind, basis and anomaly, and for empty dumps.
-/

namespace FlexAudit

/-! ## Blank texts -/

namespace Text

/-- The characters with the property White_Space. -/
def IsWhiteSpace (c : Char) : Prop :=
  (0x09 ≤ c.toNat ∧ c.toNat ≤ 0x0D) ∨ c.toNat = 0x20 ∨ c.toNat = 0x85 ∨ c.toNat = 0xA0 ∨
    c.toNat = 0x1680 ∨ (0x2000 ≤ c.toNat ∧ c.toNat ≤ 0x200A) ∨ c.toNat = 0x2028 ∨
    c.toNat = 0x2029 ∨ c.toNat = 0x202F ∨ c.toNat = 0x205F ∨ c.toNat = 0x3000

theorem isBlank_iff (c : Char) : isBlank c = true ↔ IsWhiteSpace c := by
  simp only [isBlank, blankRanges, List.any_cons, List.any_nil, Bool.or_eq_true, Bool.and_eq_true,
    decide_eq_true_eq, Bool.false_eq_true, or_false, IsWhiteSpace]
  omega

theorem isBlank_of_isBreak {c : Char} (h : isBreak c = true) : isBlank c = true := by
  rcases (isBreak_eq_true_iff c).mp h with rfl | rfl
  · decide
  · decide

theorem forall_mem_trimLeft_iff (l : List Char) :
    (∀ c ∈ trimLeft l, isBlank c = true) ↔ ∀ c ∈ l, isBlank c = true := by
  induction l with
  | nil => rfl
  | cons a l ih =>
    cases ha : isBlank a with
    | true => simpa [trimLeft, ha] using ih
    | false => simp [trimLeft, ha]

theorem trim_eq_nil_iff (l : List Char) : trim l = [] ↔ ∀ c ∈ l, isBlank c = true := by
  rw [trim, List.reverse_eq_nil_iff, trimLeft, List.dropWhile_eq_nil_iff]
  simp only [List.mem_reverse]
  exact forall_mem_trimLeft_iff l

theorem trim_infix (l : List Char) : trim l <:+: l := by
  have hleft : trimLeft l <:+ l := List.dropWhile_suffix _
  have hright : trim l <+: trimLeft l := by
    rw [trim, ← List.reverse_suffix, List.reverse_reverse]
    exact List.dropWhile_suffix _
  exact hright.isInfix.trans hleft.isInfix

end Text

open Text

theorem Dump.isBlank_iff (d : Dump) :
    d.isBlank = true ↔ ∀ l ∈ d.lines, ∀ c ∈ l.toList, Text.isBlank c = true := by
  simp [isBlank, trim_eq_nil_iff]

theorem Dump.isBlank_ofText_iff (t : String) :
    (Dump.ofText t).isBlank = true ↔ ∀ c ∈ t.toList, IsWhiteSpace c := by
  have hlines : (Dump.ofText t).isBlank = true ↔
      ∀ c ∈ (splitLines t.toList).flatten, Text.isBlank c = true := by
    rw [isBlank_iff, ofText]
    simp only [List.mem_map, List.mem_flatten, forall_exists_index, and_imp,
      forall_apply_eq_imp_iff₂, String.toList_ofList]
    exact ⟨fun h c l hl hc => h l hl c hc, fun h l hl c hc => h c l hl hc⟩
  rw [hlines, flatten_splitLines]
  simp only [List.mem_filter, and_imp, ← Text.isBlank_iff]
  constructor
  · intro h c hc
    cases hbreak : isBreak c with
    | true => exact isBlank_of_isBreak hbreak
    | false => exact h c hc (by simp [hbreak])
  · intro h c hc _
    exact h c hc

theorem Dump.isFlex_eq_false_of_isBlank {d : Dump} (h : d.isBlank = true) : d.isFlex = false := by
  rw [← Bool.not_eq_true, d.isFlex_iff]
  rintro ⟨l, hl, hmarker⟩
  have hmem : 'r' ∈ l.toList := hmarker.subset (by decide)
  exact absurd (d.isBlank_iff.mp h l hl 'r' hmem) (by decide)

/-! ## The verdicts that can be given -/

/-- `line` is the first product record of the lines. -/
def IsFirstRecord (lines : List String) (line : String) : Prop :=
  ∃ i, FirstFrom (HasText "<ProductInfo ") lines 0 i ∧ lines[i]? = some line

/-- The verdicts on a dump with these lines, by the stage that gives them. -/
inductive Verdict.Possible (lines : List String) : Verdict → Prop where
  | notFlex (r : String) : Possible lines ⟨.notVulnerable, .applicationType, r, none⟩
  | blank (r : String) : Possible lines ⟨.notVulnerable, .applicationType, r, some .emptyDump⟩
  | vulnerable (b : Basis) (r : String) (h : b ≠ .applicationType) :
      Possible lines ⟨.vulnerable, b, r, none⟩
  | notVulnerable (b : Basis) (r : String) (h : b ≠ .applicationType) :
      Possible lines ⟨.notVulnerable, b, r, none⟩
  | unrecorded (r : String) :
      Possible lines ⟨.indeterminate, .sdkVersion, r, some .missingProductInfo⟩
  | malformed (r : String) (line s : String) (hline : IsFirstRecord lines line)
      (hs : HasText s line) :
      Possible lines ⟨.indeterminate, .sdkVersion, r, some (.malformedVersionString s)⟩

theorem VersionAttribute.hasText_of_value {line raw : String}
    (h : VersionAttribute.ofLine line = .value raw) : HasText raw line := by
  obtain ⟨front, rest, hcut, -⟩ := (ofLine_eq_value_iff line raw).mp h
  exact ⟨front ++ "version='".toList, '\'' :: rest, by rw [hcut.eq]; simp⟩

theorem checkVersionText_possible {lines : List String} {line raw : String}
    (hline : IsFirstRecord lines line) (hraw : HasText raw line) (j : Journal) :
    (checkVersionText raw j).1.Possible lines := by
  unfold checkVersionText
  cases SdkVersion.parse raw with
  | error e => exact .malformed _ line raw hline hraw
  | ok v =>
    simp only
    split
    · exact .vulnerable _ _ (by decide)
    · exact .notVulnerable _ _ (by decide)

theorem Dump.checkSdkVersion_possible (d : Dump) (j : Journal) :
    (d.checkSdkVersion j).1.Possible d.lines := by
  unfold checkSdkVersion
  cases hfind : d.lines.find? Marker.productInfo.foundIn with
  | none => exact .unrecorded _
  | some line =>
    have hline : IsFirstRecord d.lines line :=
      (find?_foundIn_eq_some_iff .productInfo d.lines line).mp hfind
    simp only
    cases hversion : VersionAttribute.ofLine line with
    | value raw =>
      exact checkVersionText_possible hline (VersionAttribute.hasText_of_value hversion) j
    | missing => exact .unrecorded _
    | unterminated =>
      have hquoted : HasText (String.ofList (trim line.toList)) line := by
        rw [HasText, String.toList_ofList]
        exact trim_infix line.toList
      exact .malformed _ line _ hline hquoted

theorem Dump.checkCodeBlock_possible {d : Dump} {b : CodeBlock} (hb : d.codeBlock? = some b)
    (j : Journal) : (d.checkCodeBlock j).1.Possible d.lines := by
  rw [checkCodeBlock, hb]
  simp only
  split
  · exact .notVulnerable _ _ (by decide)
  · split
    · exact .notVulnerable _ _ (by decide)
    · exact .vulnerable _ _ (by decide)

theorem Dump.analyze_possible (d : Dump) : d.analyze.verdict.Possible d.lines := by
  change (d.judge {}).1.Possible d.lines
  cases hflex : d.isFlex with
  | false =>
    rw [judge_of_not_flex hflex]
    cases d.isBlank with
    | true => exact .blank _
    | false => exact .notFlex _
  | true =>
    cases hload : d.hasModuleLoad with
    | true =>
      -- the gate and the search for the block look for the same marker
      obtain ⟨b, hb⟩ := d.exists_codeBlock_iff.mpr hload
      rw [judge_of_load hflex hload]
      exact checkCodeBlock_possible hb _
    | false =>
      rw [judge_of_no_load hflex hload]
      exact d.checkSdkVersion_possible _

theorem Verdict.Possible.basis_of_emptyDump {lines : List String} {v : Verdict}
    (h : v.Possible lines) (hempty : v.anomaly = some .emptyDump) :
    v.basis = .applicationType := by
  cases h with
  | notFlex => rfl
  | blank => rfl
  | vulnerable => simp at hempty
  | notVulnerable => simp at hempty
  | unrecorded => simp at hempty
  | malformed => simp at hempty

theorem Dump.analyze_emptyDump_iff (d : Dump) :
    d.analyze.verdict.anomaly = some .emptyDump ↔ d.isBlank = true := by
  constructor
  · intro hempty
    have hbasis := d.analyze_possible.basis_of_emptyDump hempty
    cases hflex : d.isFlex with
    | false =>
      cases hblank : d.isBlank with
      | true => rfl
      | false =>
        simp [analyze, analyzeLogged, judge_of_not_flex hflex, hblank, Verdict.notVulnerable]
          at hempty
    | true => cases hload : d.hasModuleLoad <;> simp [d.analyze_basis, hflex, hload] at hbasis
  · intro hblank
    have hflex := isFlex_eq_false_of_isBlank hblank
    simp [analyze, analyzeLogged, judge_of_not_flex hflex, hblank, Verdict.withAnomaly]

/-! ## Consistency -/

/-- Kind, basis and anomaly of a verdict on a dump with these lines fit together. -/
structure Verdict.Consistent (lines : List String) (v : Verdict) : Prop where
  applicationType : v.basis = .applicationType →
    v.kind = .notVulnerable ∧ (v.anomaly = none ∨ v.anomaly = some .emptyDump)
  bytecode : v.basis = .bytecode →
    (v.kind = .vulnerable ∨ v.kind = .notVulnerable) ∧ v.anomaly = none
  identified : v.basis = .sdkVersion → (v.kind = .vulnerable ∨ v.kind = .notVulnerable) →
    v.anomaly = none
  unidentified : v.basis = .sdkVersion → v.kind = .indeterminate →
    v.anomaly = some .missingProductInfo ∨ ∃ line s, IsFirstRecord lines line ∧ HasText s line ∧
      v.anomaly = some (.malformedVersionString s)
  indeterminate : v.kind = .indeterminate → v.basis = .sdkVersion
  started : v.anomaly ≠ some .missingStartMarker

theorem Verdict.Possible.consistent {lines : List String} {v : Verdict} (h : v.Possible lines) :
    v.Consistent lines := by
  cases h with
  | notFlex r => constructor <;> simp
  | blank r => constructor <;> simp
  | vulnerable b r hb => constructor <;> simp [hb]
  | notVulnerable b r hb => constructor <;> simp [hb]
  | unrecorded r => constructor <;> simp
  | malformed r line s hline hs =>
    refine ⟨by simp, by simp, by simp, fun _ _ => Or.inr ⟨line, s, hline, hs, rfl⟩, by simp, by simp⟩

/-- **Consistent verdicts.** On every text kind, basis and anomaly fit together; the block is found
wherever the load method is seen, in every dump; and a text counts as empty exactly if all of it is
white space. -/
theorem verdict_consistent (t : String) :
    (Dump.ofText t).analyze.verdict.Consistent (Dump.ofText t).lines ∧
    (∀ d : Dump, d.hasModuleLoad = true → ∃ b, d.codeBlock? = some b) ∧
    ((Dump.ofText t).analyze.verdict.anomaly = some .emptyDump ↔
      ∀ c ∈ t.toList, Text.IsWhiteSpace c) := by
  refine ⟨(Dump.ofText t).analyze_possible.consistent, ?_, ?_⟩
  · intro d hload
    exact d.exists_codeBlock_iff.mpr hload
  · rw [Dump.analyze_emptyDump_iff, Dump.isBlank_ofText_iff]

/-- A record whose version is not closed, between tabs and returns; a text of separators; and a
block whose trailer stands on its first line. -/
theorem verdict_consistent_unclosed :
    let t := "resourceModuleURLs\r\n\t<ProductInfo version='3.5.0\t\r"
    let u := "\u2028\t\r\n\u3000"
    ((Dump.ofText t).analyze.verdict.kind = .indeterminate ∧
      (Dump.ofText t).analyze.verdict.basis = .sdkVersion) ∧
    ((Dump.ofText u).analyze.verdict.anomaly = some .emptyDump ∧
      ∀ c ∈ u.toList, Text.IsWhiteSpace c) ∧
    ∃ b, (Dump.ofText "ModuleInfo:::load(0 Traits Entries").codeBlock? = some b := by
  intro t u
  have ht : (Dump.ofText t).analyze.verdict.kind = .indeterminate := by decide +kernel
  have hu : (Dump.ofText u).analyze.verdict.anomaly = some .emptyDump := by decide +kernel
  have hload : (Dump.ofText "ModuleInfo:::load(0 Traits Entries").hasModuleLoad = true := by
    decide +kernel
  exact ⟨⟨ht, (verdict_consistent t).1.indeterminate ht⟩, ⟨hu, (verdict_consistent u).2.2.mp hu⟩,
    (verdict_consistent t).2.1 _ hload⟩

end FlexAudit
