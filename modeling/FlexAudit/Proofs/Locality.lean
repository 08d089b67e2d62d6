import FlexAudit.Proofs.Journal
import FlexAudit.Proofs.Verdict

/-!
# What the analysis reads

A Flex application is judged by one region of its dump: the block of the load method, or else the
line of the first product record. The two runs compared here share that region and differ in all
that stands around it. Proved here:

* `CodeBlock.upToEnd_append` and `Dump.codeBlock?_around`: the block of a dump is found again, with
  the same end, between any lines that do not open the load method and any lines at all;
* `Dump.analyze_eq_of_block` and `Dump.analyze_eq_of_record`: the analysis is a function of the
  lines of the block, or of the line of the record;
* `analysis_local`: what stands around the region changes neither verdict nor trace.
-/

namespace FlexAudit

open Text

/-! ## The block among other lines -/

namespace CodeBlock

theorem upToEnd_of_closes {body : List String} {trailer : String}
    (hbody : ∀ l ∈ body, ¬ ClosesListing l) (htrailer : ClosesListing trailer)
    (after : List String) :
    upToEnd (body ++ trailer :: after) = (body ++ [trailer], true) := by
  induction body with
  | nil => exact upToEnd_cons_of_isEnd ((isEnd_iff trailer).mpr htrailer) after
  | cons line body ih =>
    have hline : isEnd line = false := by
      rw [← Bool.not_eq_true, isEnd_iff]
      exact hbody line List.mem_cons_self
    have hrest := ih fun l hl => hbody l (List.mem_cons_of_mem line hl)
    rw [List.cons_append, upToEnd_cons_of_not_isEnd hline, hrest, List.cons_append]

/-- What stands behind a block that is closed does not move its end. -/
theorem upToEnd_append {lines back : List String} (hback : (upToEnd lines).2 = false → back = []) :
    upToEnd ((upToEnd lines).1 ++ back) = upToEnd lines := by
  rcases upToEnd_cases lines with ⟨body, trailer, after, -, hbody, htrailer, he⟩ | ⟨hnone, he⟩
  · rw [he, List.append_assoc]
    exact upToEnd_of_closes hbody htrailer back
  · have hnil : back = [] := hback (by rw [he])
    rw [hnil, List.append_nil, he, he]

theorem findFrom_append {front : List String} (hfront : ∀ l ∈ front, ¬ OpensLoad l) (i : Nat)
    (lines : List String) : findFrom i (front ++ lines) = findFrom (i + front.length) lines := by
  induction front generalizing i with
  | nil => rfl
  | cons line front ih =>
    have hrest := ih (fun l hl => hfront l (List.mem_cons_of_mem line hl)) (i + 1)
    rw [List.cons_append, findFrom_cons_of_not_opens (hfront line List.mem_cons_self), hrest,
      List.length_cons, Nat.add_assoc, Nat.add_comm 1]

end CodeBlock

theorem Dump.codeBlock?_around {d : Dump} {b : CodeBlock} (hb : d.codeBlock? = some b)
    {front back : List String} (hfront : ∀ l ∈ front, ¬ OpensLoad l)
    (hback : b.closed = false → back = []) :
    (Dump.mk (front ++ b.lines ++ back)).codeBlock? = some ⟨front.length, b.lines, b.closed⟩ := by
  obtain ⟨before, line, rest, -, -, hopens, rfl⟩ := CodeBlock.findFrom_eq_some hb
  have hend := CodeBlock.upToEnd_append hback
  rw [codeBlock?, List.append_assoc, CodeBlock.findFrom_append hfront, List.cons_append,
    CodeBlock.findFrom_cons_of_opens hopens, hend, Nat.zero_add]

theorem Dump.exists_codeBlock_iff (d : Dump) :
    (∃ b, d.codeBlock? = some b) ↔ d.hasModuleLoad = true := by
  rw [← Option.isSome_iff_exists, d.hasModuleLoad_iff, ← Option.ne_none_iff_isSome, codeBlock?, Ne,
    CodeBlock.findFrom_eq_none_iff]
  simp

/-! ## The analysis as a function of the region -/

theorem InstructionPair.foundIn_congr (p : InstructionPair) {b b' : CodeBlock}
    (h : b.lines = b'.lines) : p.foundIn b = p.foundIn b' := by
  rw [foundIn, foundIn, CodeBlock.linePairs, CodeBlock.linePairs, h]

/-- The verdict and the trace of the stage depend on the lines of the block only; its place and its
end are told to the log alone. -/
theorem Dump.checkCodeBlock_congr {d d' : Dump} {b b' : CodeBlock} (hb : d.codeBlock? = some b)
    (hb' : d'.codeBlock? = some b') (hlines : b.lines = b'.lines) (j : Journal) :
    (d.checkCodeBlock j).1 = (d'.checkCodeBlock j).1 ∧
      (d.checkCodeBlock j).2.trace = (d'.checkCodeBlock j).2.trace := by
  have hremark (b : CodeBlock) (m : String) :
      (if b.closed then j else j.debug .codeBlock m).trace = j.trace := by
    split <;> rfl
  rw [checkCodeBlock, checkCodeBlock, hb, hb']
  simp only [InstructionPair.foundIn_congr _ hlines]
  split
  · simp [Journal.trace_info, hremark]
  · split
    · simp [Journal.trace_info, hremark]
    · simp [Journal.trace_info, hremark]

theorem Dump.analyze_eq_of_block {d d' : Dump} (hflex : d.isFlex = true) (hflex' : d'.isFlex = true)
    {b b' : CodeBlock} (hb : d.codeBlock? = some b) (hb' : d'.codeBlock? = some b')
    (hlines : b.lines = b'.lines) : d.analyze = d'.analyze := by
  have hload := d.exists_codeBlock_iff.mp ⟨b, hb⟩
  have hload' := d'.exists_codeBlock_iff.mp ⟨b', hb'⟩
  obtain ⟨hverdict, htrace⟩ := checkCodeBlock_congr hb hb' hlines
    ((({} : Journal).info "Flex application detected").info "It contains ModuleInfo::load")
  simp only [analyze, analyzeLogged, judge_of_load hflex hload, judge_of_load hflex' hload',
    hverdict, Analysis.mk.injEq, true_and]
  split
  · rw [Journal.trace_info, Journal.trace_info, htrace]
  · exact htrace

theorem Dump.checkSdkVersion_congr {d d' : Dump}
    (h : d.lines.find? Marker.productInfo.foundIn = d'.lines.find? Marker.productInfo.foundIn)
    (j : Journal) : d.checkSdkVersion j = d'.checkSdkVersion j := by
  rw [checkSdkVersion, checkSdkVersion, h]

theorem Dump.analyze_eq_of_record {d d' : Dump} (hflex : d.isFlex = true)
    (hflex' : d'.isFlex = true) (hload : d.hasModuleLoad = false)
    (hload' : d'.hasModuleLoad = false)
    (h : d.lines.find? Marker.productInfo.foundIn = d'.lines.find? Marker.productInfo.foundIn) :
    d.analyze = d'.analyze := by
  simp only [analyze, analyzeLogged, judge_of_no_load hflex hload, judge_of_no_load hflex' hload',
    checkSdkVersion_congr h]

/-! ## Locality -/

theorem Dump.hasModuleLoad_eq_false_iff (d : Dump) :
    d.hasModuleLoad = false ↔ ∀ l ∈ d.lines, ¬ OpensLoad l := by
  rw [← Bool.not_eq_true, d.hasModuleLoad_iff]
  simp

/-- **Locality.** In a Flex application with a load method, all but the block of it can be replaced:
by lines in front that do not open the method, and behind a closed block by any lines. Without a
load method, all but the first product record can be. As long as the dump still shows a Flex
application, it is judged alike, with the same trace. -/
theorem analysis_local (d : Dump) (hflex : ∃ l ∈ d.lines, HasText "resourceModuleURLs" l) :
    ((∃ l ∈ d.lines, OpensLoad l) → ∃ b e, d.codeBlock? = some b ∧
      LoadExtent d.lines b.startLine e ∧
      b.lines = (d.lines.drop b.startLine).take (e + 1 - b.startLine) ∧
      ∀ front back : List String, (∀ l ∈ front, ¬ OpensLoad l) → (b.closed = false → back = []) →
        (∃ l ∈ front ++ b.lines ++ back, HasText "resourceModuleURLs" l) →
        (Dump.mk (front ++ b.lines ++ back)).analyze = d.analyze) ∧
    ((∀ l ∈ d.lines, ¬ OpensLoad l) → ∀ i line, FirstFrom (HasText "<ProductInfo ") d.lines 0 i →
      d.lines[i]? = some line → ∀ front back : List String,
        (∀ l ∈ front, ¬ OpensLoad l ∧ ¬ HasText "<ProductInfo " l) → (∀ l ∈ back, ¬ OpensLoad l) →
        (∃ l ∈ front ++ [line] ++ back, HasText "resourceModuleURLs" l) →
        (Dump.mk (front ++ [line] ++ back)).analyze = d.analyze) := by
  rw [← Dump.isFlex_iff] at hflex
  refine ⟨?_, ?_⟩
  · intro hopens
    obtain ⟨b, hb⟩ := d.exists_codeBlock_iff.mpr (d.hasModuleLoad_iff.mpr hopens)
    obtain ⟨e, hextent, hlines⟩ := CodeBlock.exists_extent hb
    refine ⟨b, e, hb, hextent, hlines, ?_⟩
    intro front back hfront hback hflex'
    have hflex' := (Dump.isFlex_iff ⟨front ++ b.lines ++ back⟩).mpr hflex'
    exact Dump.analyze_eq_of_block hflex' hflex (Dump.codeBlock?_around hb hfront hback) hb rfl
  · intro hnone i line hfirst hline front back hfront hback hflex'
    have hflex' := (Dump.isFlex_iff ⟨front ++ [line] ++ back⟩).mpr hflex'
    have hrecord : HasText "<ProductInfo " line := by
      obtain ⟨l, hl, hhas⟩ := hfirst.holds
      rw [hline, Option.some.injEq] at hl
      rwa [hl]
    have hfind : d.lines.find? Marker.productInfo.foundIn = some line :=
      (find?_foundIn_eq_some_iff _ _ _).mpr ⟨i, hfirst, hline⟩
    have hfind' : (front ++ [line] ++ back).find? Marker.productInfo.foundIn = some line := by
      refine (find?_foundIn_eq_some_iff _ _ _).mpr ⟨front.length, ?_, by simp⟩
      rw [List.append_assoc]
      exact FirstFrom.append_cons (fun l hl => (hfront l hl).2) hrecord back
    have hload' : (Dump.mk (front ++ [line] ++ back)).hasModuleLoad = false := by
      rw [Dump.hasModuleLoad_eq_false_iff]
      intro l hl
      rcases List.mem_append.mp hl with hl | hl
      · rcases List.mem_append.mp hl with hl | hl
        · exact (hfront l hl).1
        · rw [List.mem_singleton.mp hl]
          exact hnone line (List.mem_of_getElem? hline)
      · exact hback l hl
    exact Dump.analyze_eq_of_record hflex' hflex hload' (d.hasModuleLoad_eq_false_iff.mpr hnone)
      (hfind'.trans hfind.symm)

/-- Halves of the patch on both edges of the block, which the lines around it complete, with a
trailer in front and a second block behind; and a second product record behind the first. -/
theorem analysis_local_edges :
    let start := "        pushtrue ModuleInfo:::load("
    let body := ["        getproperty   \t:currentDomain", "        setproperty   \t:securityDomain"]
    let trailer := "0 Traits Entries        pushfalse     \t"
    let d : Dump := ⟨"resourceModuleURLs" :: start :: body ++ [trailer]⟩
    let front := ["0 Traits Entries", "resourceModuleURLs", "        pushfalse     \t"]
    let back := ["        pushtrue", start]
    let record := "<ProductInfo version='3'"
    let other := ["resourceModuleURLs", "<ProductInfo version='9'"]
    (Dump.mk (front ++ start :: body ++ [trailer] ++ back)).analyze = d.analyze ∧
      (Dump.mk (["version='9'"] ++ [record] ++ other)).analyze
        = (Dump.mk ["resourceModuleURLs", record]).analyze := by
  intro start body trailer d front back record other
  constructor
  · have hb : d.codeBlock? = some ⟨1, start :: body ++ [trailer], true⟩ := by decide +kernel
    have hflex := d.isFlex_iff.mp (by decide +kernel)
    have hopens := d.hasModuleLoad_iff.mp (by decide +kernel)
    obtain ⟨b, e, hb', -, -, hlocal⟩ := (analysis_local d hflex).1 hopens
    obtain rfl := Option.some.inj (hb.symm.trans hb')
    have hfront := (Dump.hasModuleLoad_eq_false_iff ⟨front⟩).mp (by decide +kernel)
    have hflex' := (Dump.isFlex_iff ⟨front ++ (start :: body ++ [trailer]) ++ back⟩).mp
      (by decide +kernel)
    exact hlocal front back hfront (by simp) hflex'
  · let d : Dump := ⟨["resourceModuleURLs", record]⟩
    have hflex := d.isFlex_iff.mp (by decide +kernel)
    have hnone := d.hasModuleLoad_eq_false_iff.mp (by decide +kernel)
    obtain ⟨i, hfirst, hline⟩ := (find?_foundIn_eq_some_iff .productInfo d.lines record).mp
      (by decide +kernel)
    have hfront := (Dump.hasModuleLoad_eq_false_iff ⟨["version='9'"]⟩).mp (by decide +kernel)
    have hno : ¬ HasText "<ProductInfo " "version='9'" := by
      have hfound : Marker.productInfo.foundIn "version='9'" = false := by decide +kernel
      exact mt (Marker.foundIn_iff .productInfo _).mpr (by simp [hfound])
    have hback := (Dump.hasModuleLoad_eq_false_iff ⟨other⟩).mp (by decide +kernel)
    have hflex' := (Dump.isFlex_iff ⟨["version='9'"] ++ [record] ++ other⟩).mp (by decide +kernel)
    exact (analysis_local d hflex).2 hnone i record hfirst hline ["version='9'"] other
      (fun l hl => ⟨hfront l hl, List.mem_singleton.mp hl ▸ hno⟩) hback hflex'

end FlexAudit
