import FlexAudit.Proofs.Verdict
import FlexAudit.Proofs.Text.Encoding

/-!
# The version attribute of a line

What is read of a line that has a version attribute, one that is not closed, or none. The line is cut
twice: at the first `version='`, and what follows at its first quote. Proved here:

* `ofLine_eq_missing_iff`, `ofLine_eq_unterminated_iff` and `ofLine_eq_value_iff_closes`: when each of
  the three answers is given;
* `opensOnlyAtEnd_iff`: no piece of `version='` in front of it takes part in an occurrence, since its
  first letter does not come again;
* `OpensBehind.firstInBytes` and `ClosesBehind.firstInBytes`: both cuts are at the same places if the
  bytes of the line are searched;
* `version_attribute_exact`: all of this for every line.
-/

namespace FlexAudit.VersionAttribute

open Text

/-! ## The two cuts -/

/-- The attribute of `line` opens behind `p`, the shortest text with `version='` behind it, and goes on
with `r`. -/
structure OpensBehind (line p r : String) : Prop where
  eq : line = p ++ "version='" ++ r
  shortest : ∀ p' r', line = p' ++ "version='" ++ r' → p.length ≤ p'.length

/-- The first quote of `r` stands behind `v`, and `q` follows. -/
structure ClosesBehind (r v q : String) : Prop where
  eq : r = v ++ "'" ++ q
  quoteFree : '\'' ∉ v.toList

/-- In the text of `p` with `version='` behind it, `version='` stands at the end and nowhere else. -/
def OpensOnlyAtEnd (p : String) : Prop :=
  ∀ a b, p ++ "version='" = a ++ "version='" ++ b → b = ""

/-- In the bytes of `text`, those of `front` stand before the first occurrence of the bytes of `mark`,
and those of `rest` behind it. -/
def FirstInBytes (mark text front rest : String) : Prop :=
  FirstCut (Utf8.encode mark.toList) (Utf8.encode text.toList) (Utf8.encode front.toList)
    (Utf8.encode rest.toList)

theorem opensBehind_iff_firstCut (line p r : String) :
    OpensBehind line p r ↔ FirstCut "version='".toList line.toList p.toList r.toList := by
  constructor
  · rintro ⟨rfl, hshortest⟩
    refine ⟨by simp only [String.toList_append], fun front rest hcut => ?_⟩
    have hline : p ++ "version='" ++ r = String.ofList front ++ "version='" ++ String.ofList rest := by
      rw [← String.toList_inj, hcut]
      simp only [String.toList_append, String.toList_ofList]
    have hle := hshortest _ _ hline
    rwa [String.length_ofList, ← String.length_toList] at hle
  · rintro ⟨hline, hfirst⟩
    refine ⟨?_, fun p' r' hcut => ?_⟩
    · rw [← String.toList_inj, hline]
      simp only [String.toList_append]
    · have hle := hfirst p'.toList r'.toList (by rw [hcut]; simp only [String.toList_append])
      rwa [String.length_toList, String.length_toList] at hle

theorem closesBehind_iff (r v q : String) :
    ClosesBehind r v q ↔ r.toList = v.toList ++ '\'' :: q.toList ∧ '\'' ∉ v.toList := by
  have heq : r = v ++ "'" ++ q ↔ r.toList = v.toList ++ '\'' :: q.toList := by
    rw [← String.toList_inj]
    simp
  rw [← heq]
  exact ⟨fun h => ⟨h.eq, h.quoteFree⟩, fun h => ⟨h.1, h.2⟩⟩

theorem OpensBehind.unique {line p r p' r' : String} (h : OpensBehind line p r)
    (h' : OpensBehind line p' r') : p = p' ∧ r = r' := by
  rw [opensBehind_iff_firstCut] at h h'
  obtain ⟨hp, hr⟩ := h.unique h'
  exact ⟨String.toList_inj.mp hp, String.toList_inj.mp hr⟩

theorem ClosesBehind.unique {r v q v' q' : String} (h : ClosesBehind r v q)
    (h' : ClosesBehind r v' q') : v = v' ∧ q = q' := by
  obtain ⟨hr, hv⟩ := (closesBehind_iff r v q).mp h
  obtain ⟨hr', hv'⟩ := (closesBehind_iff r v' q').mp h'
  obtain ⟨htext, hrest⟩ := append_cons_inj hv hv' (hr.symm.trans hr')
  exact ⟨String.toList_inj.mp htext, String.toList_inj.mp hrest⟩

theorem exists_closesBehind {r : String} (h : '\'' ∈ r.toList) : ∃ v q, ClosesBehind r v q := by
  obtain ⟨v, q, hr, hv⟩ := List.eq_append_cons_of_mem h
  refine ⟨String.ofList v, String.ofList q, (closesBehind_iff r _ _).mpr ?_⟩
  rw [String.toList_ofList, String.toList_ofList]
  exact ⟨hr, hv⟩

theorem hasText_iff_exists_opensBehind (line : String) :
    HasText "version='" line ↔ ∃ p r, OpensBehind line p r := by
  rw [HasText, infix_iff_exists_firstCut]
  constructor
  · rintro ⟨front, rest, hcut⟩
    have hfront : (String.ofList front).toList = front := String.toList_ofList
    have hrest : (String.ofList rest).toList = rest := String.toList_ofList
    refine ⟨String.ofList front, String.ofList rest, (opensBehind_iff_firstCut _ _ _).mpr ?_⟩
    rwa [hfront, hrest]
  · rintro ⟨p, r, h⟩
    exact ⟨p.toList, r.toList, (opensBehind_iff_firstCut line p r).mp h⟩

/-! ## The three answers -/

theorem ofLine_eq_missing_iff (line : String) :
    ofLine line = .missing ↔ ¬ HasText "version='" line := by
  have hnone : after? opening.toList line.toList = none ↔ ¬ HasText "version='" line :=
    after?_eq_none_iff _ _
  rw [← hnone, ofLine]
  cases after? opening.toList line.toList with
  | none => simp
  | some rest => cases hcut : cut? (· == '\'') rest <;> simp [hcut]

theorem ofLine_eq_unterminated_iff {line p r : String} (h : OpensBehind line p r) :
    ofLine line = .unterminated ↔ '\'' ∉ r.toList := by
  have hafter : after? opening.toList line.toList = some r.toList :=
    (after?_eq_some_iff _ _ _).mpr ⟨p.toList, (opensBehind_iff_firstCut line p r).mp h⟩
  rw [← cut?_beq_eq_none_iff, ofLine, hafter]
  cases hcut : cut? (· == '\'') r.toList <;> simp [hcut]

theorem ofLine_eq_value_iff_closes {line p r : String} (h : OpensBehind line p r) (v : String) :
    ofLine line = .value v ↔ ∃ q, ClosesBehind r v q := by
  rw [opensBehind_iff_firstCut] at h
  rw [ofLine_eq_value_iff]
  constructor
  · rintro ⟨front, rest, hcut, hv⟩
    have hr : r.toList = v.toList ++ '\'' :: (String.ofList rest).toList := by
      rw [(h.unique hcut).2, String.toList_ofList]
    exact ⟨String.ofList rest, (closesBehind_iff r v _).mpr ⟨hr, hv⟩⟩
  · rintro ⟨q, hcloses⟩
    obtain ⟨hr, hv⟩ := (closesBehind_iff r v q).mp hcloses
    exact ⟨p.toList, q.toList, hr ▸ h, hv⟩

/-! ## What stands in front -/

theorem opensBehind_append_iff (p r : String) :
    OpensBehind (p ++ "version='" ++ r) p r ↔ OpensOnlyAtEnd p := by
  rw [opensBehind_iff_firstCut, String.toList_append, String.toList_append, firstCut_append_iff]
  constructor
  · intro h a b hab
    have hb := h a.toList b.toList (by simp only [← String.toList_append, hab])
    simpa using hb
  · intro h x y hxy
    have hy := h (String.ofList x) (String.ofList y) (by
      rw [← String.toList_inj]
      simpa only [String.toList_append, String.toList_ofList] using hxy)
    simpa using hy

theorem opensOnlyAtEnd_iff (p : String) : OpensOnlyAtEnd p ↔ ¬ HasText "version='" p := by
  have hv : 'v' ∉ "ersion='".toList := by simp
  rw [← opensBehind_append_iff p "", opensBehind_iff_firstCut, String.toList_append,
    String.toList_append, firstCut_append_iff]
  exact ends_first_iff hv p.toList

/-! ## The cuts in bytes -/

theorem OpensBehind.firstInBytes {line p r : String} (h : OpensBehind line p r) :
    FirstInBytes "version='" line p r :=
  Utf8.firstCut_encode (by simp) ((opensBehind_iff_firstCut line p r).mp h)

theorem ClosesBehind.firstInBytes {r v q : String} (h : ClosesBehind r v q) :
    FirstInBytes "'" r v q := by
  refine Utf8.firstCut_encode (by simp) ?_
  have hnot : ¬ ['\''] <:+: v.toList := fun hfound => h.quoteFree (hfound.subset List.mem_cons_self)
  rw [h.eq, String.toList_append, String.toList_append, firstCut_append_iff]
  exact (ends_first_iff List.not_mem_nil v.toList).mpr hnot

/-! ## Every line -/

theorem ofLine_of_opensOnlyAtEnd {p v : String} (hp : OpensOnlyAtEnd p) (hv : '\'' ∉ v.toList)
    (q : String) : ofLine (p ++ "version='" ++ v ++ "'" ++ q) = .value v := by
  have hline : p ++ "version='" ++ v ++ "'" ++ q = p ++ "version='" ++ (v ++ "'" ++ q) := by
    simp only [String.append_assoc]
  rw [hline]
  exact (ofLine_eq_value_iff_closes ((opensBehind_append_iff p _).mpr hp) v).mpr ⟨q, rfl, hv⟩

/-- **Three answers.** The attribute is missing exactly in the lines without `version='`. Every other
line is cut in one way at its first `version='`. It is unterminated exactly if no quote follows there,
and otherwise its value is the one text before the next quote. A search in the bytes of the line makes
the same cuts. So a value is read back behind every text in which no attribute opens earlier. -/
theorem version_attribute_exact (line : String) :
    (ofLine line = .missing ↔ ¬ HasText "version='" line) ∧
    (HasText "version='" line → ∃! cut : String × String, OpensBehind line cut.1 cut.2) ∧
    (∀ p r, OpensBehind line p r →
      (ofLine line = .unterminated ↔ '\'' ∉ r.toList) ∧
      ('\'' ∈ r.toList → ∃! v, ∃ q, ClosesBehind r v q) ∧
      (∀ v, ofLine line = .value v ↔ ∃ q, ClosesBehind r v q) ∧
      FirstInBytes "version='" line p r ∧ ∀ v q, ClosesBehind r v q → FirstInBytes "'" r v q) ∧
    (∀ p v q, OpensOnlyAtEnd p → '\'' ∉ v.toList →
      ofLine (p ++ "version='" ++ v ++ "'" ++ q) = .value v) ∧
    ∀ p, OpensOnlyAtEnd p ↔ ¬ HasText "version='" p := by
  refine ⟨ofLine_eq_missing_iff line, ?_, ?_, ?_, opensOnlyAtEnd_iff⟩
  · intro hfound
    obtain ⟨p, r, h⟩ := (hasText_iff_exists_opensBehind line).mp hfound
    refine ⟨(p, r), h, ?_⟩
    rintro ⟨p', r'⟩ h'
    obtain ⟨rfl, rfl⟩ := h'.unique h
    rfl
  · intro p r h
    refine ⟨ofLine_eq_unterminated_iff h, ?_, ofLine_eq_value_iff_closes h, h.firstInBytes,
      fun v q hcloses => hcloses.firstInBytes⟩
    intro hquote
    obtain ⟨v, q, hcloses⟩ := exists_closesBehind hquote
    exact ⟨v, ⟨q, hcloses⟩, fun v' ⟨q', hcloses'⟩ => (hcloses'.unique hcloses).1⟩
  · intro p v q hp hv
    exact ofLine_of_opensOnlyAtEnd hp hv q

/-- All three answers behind a text with two pieces of `version='` and a character of three bytes: an
empty value with a second attribute behind it, an attribute that opens at the end of the line, and
none. -/
theorem version_attribute_exact_pieces :
    let p := "versionversion=€"
    (OpensOnlyAtEnd p ∧ '\'' ∉ "".toList ∧
      ofLine (p ++ "version='" ++ "" ++ "'" ++ "é' version='9'") = .value "") ∧
    (HasText "version='" (p ++ "version='") ∧ OpensBehind (p ++ "version='") p "" ∧
      FirstInBytes "version='" (p ++ "version='") p "" ∧
      ofLine (p ++ "version='") = .unterminated) ∧
    (¬ HasText "version='" p ∧ ofLine p = .missing) := by
  intro p
  have hnot : ¬ HasText "version='" p := by
    rw [HasText, ← occursIn_iff]
    decide +kernel
  have hp : OpensOnlyAtEnd p := (version_attribute_exact p).2.2.2.2 p |>.mpr hnot
  have hempty : '\'' ∉ "".toList := by simp
  have hopens : OpensBehind (p ++ "version='") p "" := by
    simpa using (opensBehind_append_iff p "").mpr hp
  obtain ⟨hunterminated, -, -, hbytes, -⟩ :=
    (version_attribute_exact (p ++ "version='")).2.2.1 p "" hopens
  exact ⟨⟨hp, hempty, (version_attribute_exact p).2.2.2.1 p "" _ hp hempty⟩,
    ⟨(hasText_iff_exists_opensBehind _).mpr ⟨p, "", hopens⟩, hopens, hbytes,
      hunterminated.mpr hempty⟩,
    ⟨hnot, (version_attribute_exact p).1.mpr hnot⟩⟩

end FlexAudit.VersionAttribute
