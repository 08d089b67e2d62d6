import FlexAudit.Proofs.Path
import FlexAudit.Proofs.Text.Lossy
import FlexAudit.Proofs.Text.Occurrence
import Mathlib.Data.List.Forall2
import Mathlib.Data.List.TakeWhile

/-!
# The extension filter

A directory gives the files whose extension is listed. Proved here:

* `eq_append_trail_of_split`, `split_append_trail`: the parts of a path are what stands between its
  slashes;
* `fileName?_eq_some_iff`, `fileName?_eq_none_iff`: the final name of a path, and where there is
  none;
* `extensionOf?_eq_some_iff`: the extension of a name;
* `lower_eq_lower_iff`: lowering tells apart exactly the texts that differ in more than case;
* `extension_filter_exact`: which paths pass the filter, and what they pass it by.
-/

namespace FlexAudit.Path

/-! ## The final name -/

/-- Parts that lead nowhere: trailing slashes and trailing dots give these. -/
def IsIdle (parts : List (List Char)) : Prop :=
  ∀ part ∈ parts, part = [] ∨ part = ['.']

/-- Parts as they stand behind others, each after a slash. -/
def trail (parts : List (List Char)) : List Char :=
  parts.flatMap ('/' :: ·)

/-- A part at the start or behind a slash, with nothing but idle parts after it. -/
def StandsLast (p : Path) (part : String) : Prop :=
  ∃ (front : List Char) (idle : List (List Char)),
    p.text.toList = front ++ part.toList ++ trail idle ∧
      (front = [] ∨ front.getLast? = some '/') ∧ IsIdle idle

/-- The final name of a path. -/
def EndsIn (p : Path) (name : String) : Prop :=
  IsName name ∧ p.StandsLast name

/-- A path of idle parts alone: the empty one, the root, `.` and what only adds slashes and dots to
these. -/
def NamesNothing (p : Path) : Prop :=
  ∃ first idle, p.text.toList = first ++ trail idle ∧ IsIdle (first :: idle)

theorem trail_cons (part : List Char) (parts : List (List Char)) :
    trail (part :: parts) = '/' :: (part ++ trail parts) := rfl

theorem trail_append (front back : List (List Char)) :
    trail (front ++ back) = trail front ++ trail back :=
  List.flatMap_append

theorem slash_notMem_of_isIdle {parts : List (List Char)} (h : IsIdle parts) :
    ∀ part ∈ parts, '/' ∉ part := by
  intro part hpart
  rcases h part hpart with rfl | rfl <;> simp

theorem eq_append_trail_of_split {cs first : List Char} {rest : List (List Char)}
    (h : split cs = first :: rest) :
    cs = first ++ trail rest ∧ ∀ part ∈ first :: rest, '/' ∉ part := by
  induction cs generalizing first rest with
  | nil =>
    obtain ⟨rfl, rfl⟩ : [] = first ∧ [] = rest := by simpa [split] using h
    simp [trail]
  | cons c cs ih =>
    obtain ⟨next, others, hnext⟩ := exists_split_eq_cons cs
    obtain ⟨htext, hplain⟩ := ih hnext
    by_cases hc : c = '/'
    · subst hc
      rw [split_slash, hnext] at h
      cases h
      refine ⟨by rw [trail_cons, ← htext]; rfl, ?_⟩
      intro part hpart
      rcases List.mem_cons.mp hpart with rfl | hpart
      · simp
      · exact hplain part hpart
    · rw [split_cons hc hnext] at h
      cases h
      refine ⟨by rw [htext]; rfl, ?_⟩
      intro part hpart
      rcases List.mem_cons.mp hpart with rfl | hpart
      · have hnot := hplain next List.mem_cons_self
        simp [hnot, Ne.symm hc]
      · exact hplain part (List.mem_cons_of_mem next hpart)

theorem split_append_trail {first : List Char} {rest : List (List Char)}
    (h : ∀ part ∈ first :: rest, '/' ∉ part) : split (first ++ trail rest) = first :: rest := by
  induction rest generalizing first with
  | nil =>
    rw [trail, List.flatMap_nil, List.append_nil]
    exact split_of_notMem (h first List.mem_cons_self)
  | cons part rest ih =>
    rw [trail_cons, split_append, split_of_notMem (h first List.mem_cons_self),
      ih fun q hq => h q (List.mem_cons_of_mem first hq)]
    rfl

/-- A part stands last exactly if only idle parts come after it. -/
theorem standsLast_iff {p : Path} {part : String} (hplain : '/' ∉ part.toList) :
    p.StandsLast part ↔
      ∃ front idle, split p.text.toList = front ++ part.toList :: idle ∧ IsIdle idle := by
  constructor
  · rintro ⟨front, idle, htext, hfront, hidle⟩
    have hsplit : split (part.toList ++ trail idle) = part.toList :: idle := by
      apply split_append_trail
      intro q hq
      rcases List.mem_cons.mp hq with rfl | hq
      · exact hplain
      · exact slash_notMem_of_isIdle hidle q hq
    rcases hfront with rfl | hfront
    · exact ⟨[], idle, by rw [htext, List.nil_append]; exact hsplit, hidle⟩
    · obtain ⟨before, rfl⟩ := List.getLast?_eq_some_iff.mp hfront
      refine ⟨split before, idle, ?_, hidle⟩
      rw [htext, List.append_assoc, List.append_assoc, List.singleton_append, split_append, hsplit]
  · rintro ⟨front, idle, hsplit, hidle⟩
    cases front with
    | nil =>
      refine ⟨[], idle, ?_, .inl rfl, hidle⟩
      rw [List.nil_append]
      exact (eq_append_trail_of_split hsplit).1
    | cons first front =>
      refine ⟨first ++ trail front ++ ['/'], idle, ?_, .inr (by simp), hidle⟩
      rw [List.cons_append] at hsplit
      rw [(eq_append_trail_of_split hsplit).1, trail_append, trail_cons]
      simp

/-- Whether a part counts in `names`. -/
def counts (part : List Char) : Bool := part ≠ [] ∧ part ≠ ['.']

theorem counts_eq_false_iff (part : List Char) :
    counts part = false ↔ part = [] ∨ part = ['.'] := by
  simp only [counts, decide_eq_false_iff_not]
  tauto

theorem names_eq (p : Path) :
    p.names = ((split p.text.toList).filter counts).map String.ofList := by
  rw [names, segments, List.filter_map]
  congr 2
  funext part
  have hempty : String.ofList part = "" ↔ part = [] := String.ofList_eq_empty_iff
  have hdot : String.ofList part = "." ↔ part = ['.'] := by
    rw [← String.toList_inj, String.toList_ofList]
    rfl
  simp [counts, hempty, hdot]

/-- The last element with a property has none with it behind it. -/
theorem getLast?_filter_eq_some_iff {α : Type} (q : α → Bool) (l : List α) (a : α) :
    (l.filter q).getLast? = some a ↔
      q a = true ∧ ∃ front back, l = front ++ a :: back ∧ ∀ b ∈ back, q b = false := by
  rw [← List.head?_reverse, ← List.filter_reverse, List.head?_filter, List.find?_eq_some_iff_append]
  refine and_congr_right fun _ => ⟨?_, ?_⟩
  · rintro ⟨front, back, heq, hfront⟩
    refine ⟨back.reverse, front.reverse, ?_, by simpa using hfront⟩
    rw [← List.reverse_reverse l, heq]
    simp
  · rintro ⟨front, back, rfl, hback⟩
    exact ⟨back.reverse, front.reverse, by simp, by simpa using hback⟩

theorem getLast?_names_eq_some_iff (p : Path) (name : String) :
    p.names.getLast? = some name ↔
      (name ≠ "" ∧ name ≠ "." ∧ '/' ∉ name.toList) ∧ p.StandsLast name := by
  have hlast : p.names.getLast? = some name ↔
      ((split p.text.toList).filter counts).getLast? = some name.toList := by
    rw [names_eq, List.getLast?_map, Option.map_eq_some_iff]
    constructor
    · rintro ⟨part, hpart, rfl⟩
      rwa [String.toList_ofList]
    · exact fun h => ⟨name.toList, h, String.ofList_toList⟩
  have hcounts : counts name.toList = true ↔ name ≠ "" ∧ name ≠ "." := by
    have hdot : name.toList = ['.'] ↔ name = "." := by
      rw [← String.toList_inj]
      rfl
    simp [counts, hdot]
  have hidle (parts : List (List Char)) : (∀ part ∈ parts, counts part = false) ↔ IsIdle parts :=
    forall₂_congr fun part _ => counts_eq_false_iff part
  simp only [hlast, getLast?_filter_eq_some_iff, hcounts, hidle]
  constructor
  · rintro ⟨⟨hempty, hdot⟩, front, idle, hsplit, hidle⟩
    have hplain : '/' ∉ name.toList := by
      obtain ⟨first, rest, hfirst⟩ := exists_split_eq_cons p.text.toList
      apply (eq_append_trail_of_split hfirst).2
      rw [← hfirst, hsplit]
      simp
    exact ⟨⟨hempty, hdot, hplain⟩, (standsLast_iff hplain).mpr ⟨front, idle, hsplit, hidle⟩⟩
  · rintro ⟨⟨hempty, hdot, hplain⟩, hlast⟩
    exact ⟨⟨hempty, hdot⟩, (standsLast_iff hplain).mp hlast⟩

theorem names_eq_nil_iff (p : Path) : p.names = [] ↔ p.NamesNothing := by
  have hidle : p.names = [] ↔ IsIdle (split p.text.toList) := by
    rw [names_eq, List.map_eq_nil_iff, List.filter_eq_nil_iff]
    refine forall₂_congr fun part _ => ?_
    rw [Bool.not_eq_true, counts_eq_false_iff]
  rw [hidle]
  constructor
  · intro h
    obtain ⟨first, rest, hfirst⟩ := exists_split_eq_cons p.text.toList
    exact ⟨first, rest, (eq_append_trail_of_split hfirst).1, hfirst ▸ h⟩
  · rintro ⟨first, idle, htext, h⟩
    rw [htext, split_append_trail (slash_notMem_of_isIdle h)]
    exact h

theorem fileName?_eq (p : Path) : p.fileName? = p.names.getLast?.filter (· ≠ "..") := by
  unfold fileName?
  split
  · next heq => simp [heq, Option.filter_some]
  · next hne =>
    cases hlast : p.names.getLast? with
    | none => rfl
    | some name =>
      have hdots : name ≠ ".." := by
        rintro rfl
        exact hne hlast
      simp [Option.filter_some, hdots]

theorem fileName?_eq_some_iff (p : Path) (name : String) :
    p.fileName? = some name ↔ p.EndsIn name := by
  rw [fileName?_eq, Option.filter_eq_some_iff, getLast?_names_eq_some_iff, decide_eq_true_iff,
    EndsIn, IsName]
  tauto

theorem fileName?_eq_none_iff (p : Path) :
    p.fileName? = none ↔ p.NamesNothing ∨ p.StandsLast ".." := by
  have hdots : p.names.getLast? = some ".." ↔ p.StandsLast ".." := by
    rw [getLast?_names_eq_some_iff]
    exact and_iff_right (by decide)
  rw [fileName?_eq, ← names_eq_nil_iff, ← hdots, ← List.getLast?_eq_none_iff]
  cases p.names.getLast? with
  | none => simp
  | some name => simp [Option.filter_some]

/-! ## The extension of a name -/

theorem extensionOf?_eq_some_iff (name x : List Char) :
    extensionOf? name = some x ↔ ∃ stem, stem ≠ [] ∧ name = stem ++ '.' :: x ∧ '.' ∉ x := by
  have hcut : extensionOf? name = some x ↔
      ∃ stem, stem ≠ [] ∧ Text.cut? (· == '.') name.reverse = some (x.reverse, stem.reverse) := by
    unfold extensionOf?
    split
    · next heq => simp [heq]
    · next ext stem hne heq =>
      rw [heq]
      constructor
      · rintro ⟨⟩
        exact ⟨stem.reverse, by simpa using hne, by simp⟩
      · rintro ⟨_, -, h⟩
        cases h
        simp
    · next heq => simp [heq]
  rw [hcut]
  refine exists_congr fun stem => and_congr_right fun _ => ?_
  rw [Text.cut?_beq_eq_some_iff, List.mem_reverse, List.reverse_eq_iff]
  simp

theorem extension?_eq_some_iff (p : Path) (x : String) :
    p.extension? = some x ↔ ∃ stem, stem ≠ [] ∧ '.' ∉ x.toList ∧
      p.EndsIn (String.ofList (stem ++ '.' :: x.toList)) := by
  have hbind : p.extension? = some x ↔
      ∃ name, p.fileName? = some name ∧ extensionOf? name.toList = some x.toList := by
    simp only [extension?, Option.bind_eq_some_iff, Option.map_eq_some_iff]
    constructor
    · rintro ⟨name, hname, cs, hcs, rfl⟩
      exact ⟨name, hname, by rwa [String.toList_ofList]⟩
    · rintro ⟨name, hname, hx⟩
      exact ⟨name, hname, x.toList, hx, String.ofList_toList⟩
  simp only [hbind, fileName?_eq_some_iff, extensionOf?_eq_some_iff]
  constructor
  · rintro ⟨name, hends, stem, hne, hname, hx⟩
    refine ⟨stem, hne, hx, ?_⟩
    rwa [← hname, String.ofList_toList]
  · rintro ⟨stem, hne, hx, hends⟩
    exact ⟨_, hends, stem, hne, String.toList_ofList, hx⟩

/-! ## Texts up to case -/

/-- Equal, or one letter of ASCII in its two cases. -/
def SameLetter (a b : Char) : Prop :=
  a = b ∨ ∃ k < 26, a.toNat = 65 + k ∧ b.toNat = 97 + k ∨ a.toNat = 97 + k ∧ b.toNat = 65 + k

/-- Equal up to the case of ASCII letters. -/
def SameUpToCase (s t : String) : Prop :=
  List.Forall₂ SameLetter s.toList t.toList

theorem toNat_lowerAscii (c : Char) :
    (lowerAscii c).toNat = if 65 ≤ c.toNat ∧ c.toNat ≤ 90 then c.toNat + 32 else c.toNat := by
  have hupper : ('A' ≤ c ∧ c ≤ 'Z') ↔ 65 ≤ c.toNat ∧ c.toNat ≤ 90 := Iff.rfl
  simp only [lowerAscii, hupper]
  split
  · exact Utf8.toNat_ofNat (.inl (by omega))
  · rfl

theorem lowerAscii_eq_iff (a b : Char) : lowerAscii a = lowerAscii b ↔ SameLetter a b := by
  rw [SameLetter, ← Char.toNat_inj, ← Char.toNat_inj, toNat_lowerAscii, toNat_lowerAscii]
  constructor
  · intro h
    by_cases heq : a.toNat = b.toNat
    · exact .inl heq
    · refine .inr ?_
      split at h <;> split at h
      · omega
      · exact ⟨a.toNat - 65, by omega, .inl (by omega)⟩
      · exact ⟨b.toNat - 65, by omega, .inr (by omega)⟩
      · omega
  · rintro (h | ⟨k, hk, ⟨ha, hb⟩ | ⟨ha, hb⟩⟩)
    · rw [h]
    · rw [if_pos (by omega), if_neg (by omega)]
      omega
    · rw [if_neg (by omega), if_pos (by omega)]
      omega

theorem toList_lower (s : String) : (lower s).toList = s.toList.map lowerAscii :=
  String.toList_ofList

theorem lower_eq_lower_iff (s t : String) : lower s = lower t ↔ SameUpToCase s t := by
  rw [← String.toList_inj, toList_lower, toList_lower, ← List.forall₂_eq_eq_eq,
    List.forall₂_map_left_iff, List.forall₂_map_right_iff, SameUpToCase]
  simp only [lowerAscii_eq_iff]

/-- Only letters change. -/
theorem lowerAscii_eq_iff_of_mark {d : Char} (hd : d.toNat < 65) (c : Char) :
    lowerAscii c = d ↔ c = d := by
  rw [← Char.toNat_inj, ← Char.toNat_inj, toNat_lowerAscii]
  split <;> omega

theorem lowerAscii_beq_dot (c : Char) : (lowerAscii c == '.') = (c == '.') := by
  rw [Bool.eq_iff_iff, beq_iff_eq, beq_iff_eq]
  exact lowerAscii_eq_iff_of_mark (by decide) c

theorem lower_lower (s : String) : lower (lower s) = lower s := by
  rw [← String.toList_inj, toList_lower, toList_lower, List.map_map]
  refine List.map_congr_left fun c _ => ?_
  rw [Function.comp_apply, ← Char.toNat_inj, toNat_lowerAscii, if_neg]
  rw [toNat_lowerAscii]
  split <;> omega

/-! ### Paths in lower case -/

/-- The path in lower case. -/
def lowered (p : Path) : Path := ⟨lower p.text⟩

theorem split_map_lower (cs : List Char) :
    split (cs.map lowerAscii) = (split cs).map (List.map lowerAscii) := by
  induction cs with
  | nil => rfl
  | cons c cs ih =>
    have hslash := lowerAscii_eq_iff_of_mark (d := '/') (by decide) c
    by_cases hc : c = '/'
    · rw [List.map_cons, hslash.mpr hc, hc, split_slash, split_slash, ih]
      rfl
    · obtain ⟨first, rest, hfirst⟩ := exists_split_eq_cons cs
      rw [hfirst, List.map_cons] at ih
      rw [List.map_cons, split_cons (mt hslash.mp hc) ih, split_cons hc hfirst]
      rfl

theorem counts_map_lower (part : List Char) : counts (part.map lowerAscii) = counts part := by
  have hdot := lowerAscii_eq_iff_of_mark (d := '.') (by decide)
  cases part with
  | nil => rfl
  | cons c part => simp [counts, hdot]

theorem names_lowered (p : Path) : p.lowered.names = p.names.map lower := by
  have hcounts : counts ∘ List.map lowerAscii = counts := funext counts_map_lower
  rw [names_eq, names_eq, lowered, toList_lower, split_map_lower, List.filter_map, hcounts,
    List.map_map, List.map_map]
  refine List.map_congr_left fun part _ => ?_
  simp [lower]

theorem fileName?_lowered (p : Path) : p.lowered.fileName? = p.fileName?.map lower := by
  have hdots (name : String) : lower name = ".." ↔ name = ".." := by
    have hdot := lowerAscii_eq_iff_of_mark (d := '.') (by decide)
    have htext : "..".toList = ['.', '.'] := rfl
    rw [← String.toList_inj, ← String.toList_inj, toList_lower, htext]
    match name.toList with
    | [] | [_] | [_, _] | _ :: _ :: _ :: _ => simp [hdot]
  rw [fileName?_eq, fileName?_eq, names_lowered, List.getLast?_map]
  cases p.names.getLast? with
  | none => rfl
  | some name =>
    by_cases hname : name = ".."
    · simp [hname, (hdots "..").mpr rfl, Option.filter_some]
    · simp [hname, mt (hdots name).mp hname, Option.filter_some]

theorem extensionOf?_map_lower (name : List Char) :
    extensionOf? (name.map lowerAscii) = (extensionOf? name).map (List.map lowerAscii) := by
  have hdot : ((fun c => !(c == '.')) ∘ lowerAscii) = fun c => !(c == '.') := by
    funext c
    rw [Function.comp_apply, lowerAscii_beq_dot]
  unfold extensionOf? Text.cut?
  rw [← List.map_reverse, List.dropWhile_map, List.takeWhile_map, hdot]
  cases name.reverse.dropWhile (fun c => !(c == '.')) with
  | nil => rfl
  | cons c rest =>
    cases rest with
    | nil => rfl
    | cons d rest => simp

theorem extension?_lowered (p : Path) : p.lowered.extension? = p.extension?.map lower := by
  rw [extension?, extension?, fileName?_lowered]
  cases p.fileName? with
  | none => rfl
  | some name =>
    simp only [Option.map_some, Option.bind_some, toList_lower, extensionOf?_map_lower,
      Option.map_map]
    congr 1
    funext x
    simp [lower]

/-! ## Which paths pass -/

/-- What a listed extension is compared by. -/
def key (allowed : String) : String :=
  lower (String.ofList (allowed.toList.dropWhile (· == '.')))

theorem hasExtension_eq (p : Path) (extensions : List String) :
    p.hasExtension extensions =
      p.extension?.any fun x => (extensions.map key).any (· == lower x) := by
  unfold hasExtension
  cases p.extension? with
  | none => rfl
  | some x => simp [key, List.any_map, Function.comp_def]

theorem hasExtension_lowered (p : Path) (extensions : List String) :
    p.lowered.hasExtension extensions = p.hasExtension extensions := by
  rw [hasExtension_eq, hasExtension_eq, extension?_lowered]
  cases p.extension? with
  | none => rfl
  | some x => simp [lower_lower]

/-- All leading dots are removed. -/
theorem dropWhile_dots_eq_iff (cs rest : List Char) :
    cs.dropWhile (· == '.') = rest ↔
      (∃ dots, cs = List.replicate dots '.' ++ rest) ∧ rest.head? ≠ some '.' := by
  constructor
  · rintro rfl
    have hdots : ∀ c ∈ cs.takeWhile (· == '.'), c = '.' := by
      intro c hc
      exact beq_iff_eq.mp (List.mem_takeWhile_imp (p := (· == '.')) hc)
    refine ⟨⟨(cs.takeWhile (· == '.')).length, ?_⟩, ?_⟩
    · rw [← List.eq_replicate_of_mem hdots, List.takeWhile_append_dropWhile]
    · intro hhead
      have hnot := List.head?_dropWhile_not (· == '.') cs
      rw [hhead] at hnot
      simp at hnot
  · rintro ⟨⟨dots, rfl⟩, hhead⟩
    rw [List.dropWhile_append_of_pos (by simp)]
    cases rest with
    | nil => rfl
    | cons c rest =>
      have hc : c ≠ '.' := by simpa using hhead
      exact List.dropWhile_cons_of_neg (by simpa using hc)

/-- A listed extension without its leading dots is `x`, up to case. -/
def Allows (allowed x : String) : Prop :=
  ∃ (dots : Nat) (rest : String), allowed.toList = List.replicate dots '.' ++ rest.toList ∧
    rest.toList.head? ≠ some '.' ∧ SameUpToCase rest x

theorem key_eq_lower_iff (allowed x : String) : key allowed = lower x ↔ Allows allowed x := by
  rw [key, lower_eq_lower_iff]
  constructor
  · intro h
    obtain ⟨⟨dots, hdots⟩, hhead⟩ := (dropWhile_dots_eq_iff allowed.toList _).mp rfl
    exact ⟨dots, _, by rwa [String.toList_ofList], by rwa [String.toList_ofList], h⟩
  · rintro ⟨dots, rest, hdots, hhead, h⟩
    rwa [(dropWhile_dots_eq_iff _ _).mpr ⟨⟨dots, hdots⟩, hhead⟩, String.ofList_toList]

theorem hasExtension_eq_true_iff (p : Path) (extensions : List String) :
    p.hasExtension extensions = true ↔
      ∃ x, p.extension? = some x ∧ ∃ allowed ∈ extensions, Allows allowed x := by
  simp only [hasExtension_eq, Option.any_eq_true, List.any_map, List.any_eq_true,
    Function.comp_apply, beq_iff_eq, key_eq_lower_iff]

/-- The listed extensions count by what they are compared by. -/
theorem hasExtension_congr (p : Path) {extensions others : List String}
    (h : List.Forall₂ (fun e f => key e = key f) extensions others) :
    p.hasExtension extensions = p.hasExtension others := by
  have hkeys : extensions.map key = others.map key := by
    rw [← List.forall₂_eq_eq_eq, List.forall₂_map_left_iff, List.forall₂_map_right_iff]
    exact h
  rw [hasExtension_eq, hasExtension_eq, hkeys]

theorem key_eq_of_dots {e f : String} (h : ∃ dots, f.toList = List.replicate dots '.' ++ e.toList) :
    key e = key f := by
  obtain ⟨dots, hdots⟩ := h
  rw [key, key, hdots, List.dropWhile_append_of_pos (by simp)]

theorem key_lower (e : String) : key (lower e) = key e := by
  have hdot : ((· == '.') ∘ lowerAscii) = (· == '.') := funext lowerAscii_beq_dot
  have hdrop : String.ofList ((lower e).toList.dropWhile (· == '.')) =
      lower (String.ofList (e.toList.dropWhile (· == '.'))) := by
    rw [toList_lower, List.dropWhile_map, hdot, lower, String.toList_ofList]
  rw [key, hdrop, lower_lower, key]

theorem key_eq_of_sameUpToCase {e f : String} (h : SameUpToCase e f) : key e = key f := by
  rw [← key_lower, (lower_eq_lower_iff e f).mpr h, key_lower]

theorem hasExtension_eq_of_sameUpToCase {p q : Path} (h : SameUpToCase p.text q.text)
    (extensions : List String) : q.hasExtension extensions = p.hasExtension extensions := by
  have hlowered : p.lowered = q.lowered := by
    rw [lowered, lowered, (lower_eq_lower_iff p.text q.text).mpr h]
  rw [← hasExtension_lowered q, ← hlowered, hasExtension_lowered]

/-- A path passes exactly if its final name has an extension and this is listed, up to leading dots
and case. Nothing else of the path counts, nor do dots in front of a listed extension or the case of
either. -/
theorem extension_filter_exact (p : Path) (extensions : List String) :
    (p.hasExtension extensions = true ↔
      ∃ stem x, stem ≠ [] ∧ '.' ∉ x ∧ p.EndsIn (String.ofList (stem ++ '.' :: x)) ∧
        ∃ allowed ∈ extensions, Allows allowed (String.ofList x)) ∧
    ((∀ name, ¬ p.EndsIn name) ↔ p.NamesNothing ∨ p.StandsLast "..") ∧
    (∀ q : Path, (∀ name, q.EndsIn name ↔ p.EndsIn name) →
      q.hasExtension extensions = p.hasExtension extensions) ∧
    (∀ dotted : List String,
      List.Forall₂ (fun e f => ∃ dots, f.toList = List.replicate dots '.' ++ e.toList)
        extensions dotted → p.hasExtension dotted = p.hasExtension extensions) ∧
    ∀ (q : Path) (others : List String), SameUpToCase p.text q.text →
      List.Forall₂ SameUpToCase extensions others →
      q.hasExtension others = p.hasExtension extensions := by
  refine ⟨?_, ?_, ?_, ?_, ?_⟩
  · rw [hasExtension_eq_true_iff]
    constructor
    · rintro ⟨x, hx, hallows⟩
      obtain ⟨stem, hne, hplain, hends⟩ := (extension?_eq_some_iff p x).mp hx
      exact ⟨stem, x.toList, hne, hplain, hends, by rwa [String.ofList_toList]⟩
    · rintro ⟨stem, x, hne, hplain, hends, hallows⟩
      refine ⟨String.ofList x, ?_, hallows⟩
      rw [extension?_eq_some_iff, String.toList_ofList]
      exact ⟨stem, hne, hplain, hends⟩
  · simp only [← fileName?_eq_some_iff, ← fileName?_eq_none_iff, Option.eq_none_iff_forall_ne_some,
      ne_eq]
  · intro q h
    have hfile : q.fileName? = p.fileName? := by
      ext name
      rw [fileName?_eq_some_iff, fileName?_eq_some_iff, h]
    rw [hasExtension_eq, hasExtension_eq, extension?, extension?, hfile]
  · intro dotted h
    exact (p.hasExtension_congr (h.imp fun _ _ => key_eq_of_dots)).symm
  · intro q others hcase hothers
    rw [hasExtension_eq_of_sameUpToCase hcase]
    exact (p.hasExtension_congr (hothers.imp fun _ _ => key_eq_of_sameUpToCase)).symm

/-- A name with two dots, idle parts behind it, and a path and list in other cases. -/
theorem extension_filter_exact_archive :
    let p : Path := ⟨"old/App.min.Swf/./"⟩
    let q : Path := ⟨"OLD/app.MIN.swf/./"⟩
    SameUpToCase p.text q.text ∧ List.Forall₂ SameUpToCase ["txt", "swf"] ["TXT", "sWF"] ∧
      p.hasExtension ["txt", "swf"] = true ∧ q.hasExtension ["TXT", "sWF"] = true := by
  intro p q
  have hpath : SameUpToCase p.text q.text := (lower_eq_lower_iff _ _).mp (by decide +kernel)
  have hlist : List.Forall₂ SameUpToCase ["txt", "swf"] ["TXT", "sWF"] :=
    .cons ((lower_eq_lower_iff _ _).mp (by decide))
      (.cons ((lower_eq_lower_iff _ _).mp (by decide)) .nil)
  have hpasses : p.hasExtension ["txt", "swf"] = true := by decide +kernel
  obtain ⟨-, -, -, -, hcase⟩ := extension_filter_exact p ["txt", "swf"]
  exact ⟨hpath, hlist, hpasses, (hcase q _ hpath hlist).trans hpasses⟩

end FlexAudit.Path
