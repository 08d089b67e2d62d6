import FlexAudit.SdkVersion
import Mathlib.Logic.Relation
import Mathlib.Tactic.IntervalCases

/-!
# Reading a version text

A version text counts by its characters other than dots, and of these by the first three.
Proved here:

* `part_eq_ok_iff`: one part is read exactly if the character at its place, if there is one, is a
  digit;
* `parse_eq_ok_iff`: a version is read exactly if the first three characters are digits, and its
  parts are these digits, with zero for what is missing;
* `parse_eq_error_iff`: a refusal names the text and the first of its characters that is no digit;
* `parse_congr`: changes of dots, or behind the third character that counts, keep the version;
* `parse_render_iff`: a version is read back from its text exactly if its parts are single digits;
* `isAffected_iff`: the affected range as a statement on numbers.
-/

namespace FlexAudit.SdkVersion

def IsDigit (c : Char) : Prop := '0' ≤ c ∧ c ≤ '9'

/-- The characters of a version text that count. -/
def significant (text : List Char) : List Char := text.filter (· ≠ '.')

/-- The value of the digit at a place, zero beyond the end. -/
def digitAt (w : List Char) (i : Nat) : Nat :=
  match w[i]? with
  | some c => c.toNat - 48
  | none => 0

/-- The affected range, by the three digits of a version. -/
def AffectedDigits (major minor patch : Nat) : Prop :=
  major = 3 ∨ (major = 4 ∧ (minor < 4 ∨ (minor = 5 ∧ patch ≤ 1)))

/-- A version text that gives an affected version. -/
structure AffectedText (text : List Char) : Prop where
  digits : ∀ c ∈ (significant text).take 3, IsDigit c
  affected : AffectedDigits (digitAt (significant text) 0) (digitAt (significant text) 1)
    (digitAt (significant text) 2)

theorem bind_eq_ok_iff {ε α β : Type} (x : Except ε α) (f : α → Except ε β) (r : β) :
    x >>= f = .ok r ↔ ∃ a, x = .ok a ∧ f a = .ok r := by
  cases x <;> simp [bind, Except.bind]

theorem digit?_eq_none {c : Char} (h : ¬ IsDigit c) : digit? c = none :=
  if_neg h

theorem digit?_eq_some {c : Char} (h : IsDigit c) :
    ∃ n, digit? c = some n ∧ n.toNat = c.toNat - 48 := by
  have hle : (48 : UInt32) ≤ c.val := h.1
  exact ⟨c.val - 48, if_pos h, UInt32.toNat_sub_of_le _ _ hle⟩

theorem part_eq_ok_iff (raw : String) (w : List Char) (i : Nat) (n : UInt32) :
    part raw w i = .ok n ↔ (∀ c, w[i]? = some c → IsDigit c) ∧ n.toNat = digitAt w i := by
  unfold part digitAt
  cases hc : w[i]? with
  | none => simp [← UInt32.toNat_inj, eq_comm]
  | some c =>
    by_cases h : IsDigit c
    · obtain ⟨m, hm, hval⟩ := digit?_eq_some h
      simp [hm, h, ← hval, ← UInt32.toNat_inj, eq_comm]
    · simp [digit?_eq_none h, h]

theorem forall_mem_take_three_iff (w : List Char) :
    (∀ c ∈ w.take 3, IsDigit c) ↔ (∀ c, w[0]? = some c → IsDigit c) ∧
      (∀ c, w[1]? = some c → IsDigit c) ∧ (∀ c, w[2]? = some c → IsDigit c) := by
  match w with
  | [] => simp
  | [a] => simp
  | [a, b] => simp
  | a :: b :: c :: w => simp

theorem parse_eq (raw : String) :
    parse raw = (do
      let major ← part raw (significant raw.toList) 0
      let minor ← part raw (significant raw.toList) 1
      let patch ← part raw (significant raw.toList) 2
      return ⟨major, minor, patch⟩) := rfl

theorem parse_eq_ok_iff (raw : String) (v : SdkVersion) :
    parse raw = .ok v ↔ (∀ c ∈ (significant raw.toList).take 3, IsDigit c) ∧
      v.major.toNat = digitAt (significant raw.toList) 0 ∧
      v.minor.toNat = digitAt (significant raw.toList) 1 ∧
      v.patch.toNat = digitAt (significant raw.toList) 2 := by
  rw [forall_mem_take_three_iff]
  have hparse : parse raw = .ok v ↔ part raw (significant raw.toList) 0 = .ok v.major ∧
      part raw (significant raw.toList) 1 = .ok v.minor ∧
      part raw (significant raw.toList) 2 = .ok v.patch := by
    rw [parse_eq]
    simp only [bind_eq_ok_iff, pure, Except.pure, Except.ok.injEq]
    constructor
    · rintro ⟨major, hmajor, minor, hminor, patch, hpatch, rfl⟩
      exact ⟨hmajor, hminor, hpatch⟩
    · rintro ⟨hmajor, hminor, hpatch⟩
      exact ⟨_, hmajor, _, hminor, _, hpatch, rfl⟩
  rw [hparse, part_eq_ok_iff, part_eq_ok_iff, part_eq_ok_iff]
  constructor
  · rintro ⟨⟨h₀, hmajor⟩, ⟨h₁, hminor⟩, ⟨h₂, hpatch⟩⟩
    exact ⟨⟨h₀, h₁, h₂⟩, hmajor, hminor, hpatch⟩
  · rintro ⟨⟨h₀, h₁, h₂⟩, hmajor, hminor, hpatch⟩
    exact ⟨⟨h₀, hmajor⟩, ⟨h₁, hminor⟩, ⟨h₂, hpatch⟩⟩

/-! ## Refusals -/

theorem bind_eq_error_iff {ε α β : Type} (x : Except ε α) (f : α → Except ε β) (e : ε) :
    x >>= f = .error e ↔ x = .error e ∨ ∃ a, x = .ok a ∧ f a = .error e := by
  cases x <;> simp [bind, Except.bind]

theorem part_eq_error_iff (raw : String) (w : List Char) (i : Nat) (e : NonDigit) :
    part raw w i = .error e ↔
      e.raw = raw ∧ e.position = i ∧ w[i]? = some e.found ∧ ¬ IsDigit e.found := by
  unfold part
  cases hc : w[i]? with
  | none => simp
  | some c =>
    by_cases h : IsDigit c
    · obtain ⟨n, hn, -⟩ := digit?_eq_some h
      simp only [hn, reduceCtorEq, Option.some_inj, false_iff]
      rintro ⟨-, -, rfl, hfound⟩
      exact hfound h
    · simp only [digit?_eq_none h, Except.error.injEq, Option.some_inj]
      constructor
      · rintro rfl
        exact ⟨rfl, rfl, rfl, h⟩
      · rintro ⟨rfl, rfl, rfl, -⟩
        rfl

/-- The first of the three characters that is no digit, with its place. -/
structure FirstNonDigit (w : List Char) (e : NonDigit) : Prop where
  position_lt : e.position < 3
  stands : w[e.position]? = some e.found
  not_digit : ¬ IsDigit e.found
  digits_before : ∀ i < e.position, ∀ c, w[i]? = some c → IsDigit c

/-- A part is read exactly if the character at its place does not stop the reading. -/
theorem exists_part_eq_ok (raw : String) {w : List Char} {i : Nat}
    (h : ∀ c, w[i]? = some c → IsDigit c) : ∃ n, part raw w i = .ok n := by
  cases hpart : part raw w i with
  | ok n => exact ⟨n, rfl⟩
  | error e =>
    obtain ⟨-, -, hfound, hnot⟩ := (part_eq_error_iff raw w i e).mp hpart
    exact absurd (h e.found hfound) hnot

theorem parse_eq_error_iff (raw : String) (e : NonDigit) :
    parse raw = .error e ↔ e.raw = raw ∧ FirstNonDigit (significant raw.toList) e := by
  have hok {i : Nat} {n : UInt32} (h : part raw (significant raw.toList) i = .ok n) :=
    ((part_eq_ok_iff _ _ _ _).mp h).1
  rw [parse_eq]
  simp only [bind_eq_error_iff, pure, Except.pure, reduceCtorEq, and_false, exists_false,
    or_false, part_eq_error_iff]
  constructor
  · rintro (⟨hraw, hplace, hfound, hnot⟩ | ⟨_, h₀, ⟨hraw, hplace, hfound, hnot⟩ |
      ⟨_, h₁, hraw, hplace, hfound, hnot⟩⟩)
    · refine ⟨hraw, by omega, hplace ▸ hfound, hnot, ?_⟩
      intro i hi
      omega
    · refine ⟨hraw, by omega, hplace ▸ hfound, hnot, ?_⟩
      intro i hi
      obtain rfl : i = 0 := by omega
      exact hok h₀
    · refine ⟨hraw, by omega, hplace ▸ hfound, hnot, ?_⟩
      intro i hi
      obtain rfl | rfl : i = 0 ∨ i = 1 := by omega
      · exact hok h₀
      · exact hok h₁
  · rintro ⟨hraw, hlt, hfound, hnot, hbefore⟩
    obtain hplace | hplace | hplace : e.position = 0 ∨ e.position = 1 ∨ e.position = 2 := by omega
    · exact .inl ⟨hraw, hplace, hplace ▸ hfound, hnot⟩
    · obtain ⟨major, hmajor⟩ := exists_part_eq_ok raw (hbefore 0 (by omega))
      exact .inr ⟨major, hmajor, .inl ⟨hraw, hplace, hplace ▸ hfound, hnot⟩⟩
    · obtain ⟨major, hmajor⟩ := exists_part_eq_ok raw (hbefore 0 (by omega))
      obtain ⟨minor, hminor⟩ := exists_part_eq_ok raw (hbefore 1 (by omega))
      exact .inr ⟨major, hmajor, .inr ⟨minor, hminor, hraw, hplace, hplace ▸ hfound, hnot⟩⟩

theorem parse_eq_error {raw : String} {e : NonDigit} (h : parse raw = .error e) :
    e.raw = raw ∧ e.found ∈ raw.toList := by
  obtain ⟨hraw, hfirst⟩ := (parse_eq_error_iff raw e).mp h
  exact ⟨hraw, (List.mem_filter.mp (List.mem_of_getElem? hfirst.stands)).1⟩

/-! ## Affected versions -/

theorem isAffected_iff (v : SdkVersion) :
    v.isAffected = true ↔ AffectedDigits v.major.toNat v.minor.toNat v.patch.toNat := by
  simp [isAffected, AffectedDigits, ← UInt32.toNat_inj, UInt32.lt_iff_toNat_lt,
    UInt32.le_iff_toNat_le]

/-- A text gives an affected version exactly if its digits say so. -/
theorem exists_parse_isAffected_iff (raw : String) :
    (∃ v, parse raw = .ok v ∧ v.isAffected = true) ↔ AffectedText raw.toList := by
  constructor
  · rintro ⟨v, hparse, haffected⟩
    obtain ⟨hdigits, hmajor, hminor, hpatch⟩ := (parse_eq_ok_iff raw v).mp hparse
    rw [isAffected_iff, hmajor, hminor, hpatch] at haffected
    exact ⟨hdigits, haffected⟩
  · rintro ⟨hdigits, haffected⟩
    have hsmall (i : Nat) : digitAt (significant raw.toList) i < UInt32.size := by
      unfold digitAt
      split
      · next c _ => exact Nat.lt_of_le_of_lt (Nat.sub_le _ _) c.val.toNat_lt
      · decide
    have hvalue (i : Nat) : (UInt32.ofNat (digitAt (significant raw.toList) i)).toNat
        = digitAt (significant raw.toList) i :=
      UInt32.toNat_ofNat_of_lt' (hsmall i)
    refine ⟨⟨.ofNat (digitAt (significant raw.toList) 0), .ofNat (digitAt (significant raw.toList) 1),
      .ofNat (digitAt (significant raw.toList) 2)⟩, ?_, ?_⟩
    · exact (parse_eq_ok_iff raw _).mpr ⟨hdigits, hvalue 0, hvalue 1, hvalue 2⟩
    · rw [isAffected_iff, hvalue, hvalue, hvalue]
      exact haffected

/-! ## Changes that keep the version -/

/-- One change of a version text: a dot more, a dot less, or other text behind the third character
that counts. -/
inductive Change : List Char → List Char → Prop
  | insertDot (front back : List Char) : Change (front ++ back) (front ++ '.' :: back)
  | deleteDot (front back : List Char) : Change (front ++ '.' :: back) (front ++ back)
  | behindThird {front : List Char} (back back' : List Char) :
    3 ≤ (significant front).length → Change (front ++ back) (front ++ back')

theorem significant_append (front back : List Char) :
    significant (front ++ back) = significant front ++ significant back :=
  List.filter_append ..

theorem significant_dot (back : List Char) : significant ('.' :: back) = significant back := rfl

theorem Change.take_significant {text text' : List Char} (h : Change text text') :
    (significant text').take 3 = (significant text).take 3 := by
  cases h with
  | insertDot front back => rw [significant_append, significant_append, significant_dot]
  | deleteDot front back => rw [significant_append, significant_append, significant_dot]
  | behindThird back back' hthree =>
    rw [significant_append, significant_append, List.take_append_of_le_length hthree,
      List.take_append_of_le_length hthree]

theorem take_significant_of_changes {text text' : List Char}
    (h : Relation.ReflTransGen Change text text') :
    (significant text').take 3 = (significant text).take 3 := by
  induction h with
  | refl => rfl
  | tail _ hchange ih => rw [hchange.take_significant, ih]

theorem digitAt_take (w : List Char) {i : Nat} (hi : i < 3) :
    digitAt (w.take 3) i = digitAt w i := by
  rw [digitAt, digitAt, List.getElem?_take_of_lt hi]

theorem parse_congr {raw raw' : String} {v : SdkVersion}
    (h : (significant raw'.toList).take 3 = (significant raw.toList).take 3)
    (hparse : parse raw = .ok v) : parse raw' = .ok v := by
  have hdigit {i : Nat} (hi : i < 3) :
      digitAt (significant raw'.toList) i = digitAt (significant raw.toList) i := by
    rw [← digitAt_take _ hi, h, digitAt_take _ hi]
  rw [parse_eq_ok_iff] at hparse ⊢
  rw [h, hdigit (by decide), hdigit (by decide), hdigit (by decide)]
  exact hparse

/-! ## Versions read back from their text -/

theorem digitAt_le {w : List Char} {i : Nat} (h : ∀ c, w[i]? = some c → IsDigit c) :
    digitAt w i ≤ 9 := by
  unfold digitAt
  split
  · next c hc =>
    have hle : c.toNat ≤ 57 := (h c hc).2
    omega
  · omega

theorem isDigit_digitChar {n : Nat} (h : n ≤ 9) :
    IsDigit n.digitChar ∧ n.digitChar.toNat - 48 = n := by
  unfold IsDigit
  interval_cases n <;> decide

theorem significant_toString {n : Nat} (h : n ≤ 9) :
    significant (toString n).toList = [n.digitChar] := by
  have htext : (toString n).toList = [n.digitChar] := by
    rw [Nat.toString_eq_repr, Nat.toList_repr, Nat.toDigits_of_lt_base (by omega)]
  rw [htext]
  interval_cases n <;> rfl

theorem significant_render {v : SdkVersion} (hmajor : v.major.toNat ≤ 9)
    (hminor : v.minor.toNat ≤ 9) (hpatch : v.patch.toNat ≤ 9) :
    significant v.render.toList =
      [v.major.toNat.digitChar, v.minor.toNat.digitChar, v.patch.toNat.digitChar] := by
  have hdot : significant ".".toList = [] := rfl
  simp only [render, String.toList_append, significant_append, significant_toString hmajor,
    significant_toString hminor, significant_toString hpatch, hdot]
  rfl

theorem parse_render_iff (v : SdkVersion) :
    parse v.render = .ok v ↔ v.major.toNat ≤ 9 ∧ v.minor.toNat ≤ 9 ∧ v.patch.toNat ≤ 9 := by
  rw [parse_eq_ok_iff]
  constructor
  · -- whatever is read has single digits for its parts
    rintro ⟨hdigits, hmajor, hminor, hpatch⟩
    obtain ⟨h₀, h₁, h₂⟩ := (forall_mem_take_three_iff _).mp hdigits
    rw [hmajor, hminor, hpatch]
    exact ⟨digitAt_le h₀, digitAt_le h₁, digitAt_le h₂⟩
  · rintro ⟨hmajor, hminor, hpatch⟩
    obtain ⟨hdigit₀, hvalue₀⟩ := isDigit_digitChar hmajor
    obtain ⟨hdigit₁, hvalue₁⟩ := isDigit_digitChar hminor
    obtain ⟨hdigit₂, hvalue₂⟩ := isDigit_digitChar hpatch
    rw [significant_render hmajor hminor hpatch]
    refine ⟨?_, hvalue₀.symm, hvalue₁.symm, hvalue₂.symm⟩
    simpa using ⟨hdigit₀, hdigit₁, hdigit₂⟩

/-- A version text is read by its first three characters other than dots and by nothing else: they
are digits, or the first that is none is named. A version is read back from its text exactly if no
part needs a second digit. -/
theorem version_text_exact :
    (∀ raw : String,
      ((∃ v, parse raw = .ok v) ↔ ∀ c ∈ (significant raw.toList).take 3, IsDigit c) ∧
      (∀ v, parse raw = .ok v →
        v.major.toNat = digitAt (significant raw.toList) 0 ∧
        v.minor.toNat = digitAt (significant raw.toList) 1 ∧
        v.patch.toNat = digitAt (significant raw.toList) 2) ∧
      ∀ e, parse raw = .error e ↔ e.raw = raw ∧ FirstNonDigit (significant raw.toList) e) ∧
    (∀ (raw raw' : String) (v : SdkVersion), Relation.ReflTransGen Change raw.toList raw'.toList →
      parse raw = .ok v → parse raw' = .ok v) ∧
    ∀ v : SdkVersion,
      parse v.render = .ok v ↔ v.major.toNat ≤ 9 ∧ v.minor.toNat ≤ 9 ∧ v.patch.toNat ≤ 9 := by
  refine ⟨?_, ?_, parse_render_iff⟩
  · intro raw
    refine ⟨⟨?_, ?_⟩, fun v hv => ((parse_eq_ok_iff raw v).mp hv).2, parse_eq_error_iff raw⟩
    · rintro ⟨v, hv⟩
      exact ((parse_eq_ok_iff raw v).mp hv).1
    · intro hdigits
      cases hparse : parse raw with
      | ok v => exact ⟨v, rfl⟩
      | error e =>
        -- the character that was named is one of the three
        obtain ⟨-, hfirst⟩ := (parse_eq_error_iff raw e).mp hparse
        have hmem : e.found ∈ (significant raw.toList).take 3 := by
          apply List.mem_of_getElem? (i := e.position)
          rw [List.getElem?_take_of_lt hfirst.position_lt, hfirst.stands]
        exact absurd (hdigits e.found hmem) hfirst.not_digit
  · intro raw raw' v hchanges
    exact parse_congr (take_significant_of_changes hchanges)

/-- The text behind the third digit is another, and a dot in front of it is gone. -/
theorem version_text_exact_renamed :
    Relation.ReflTransGen Change "4.10.0".toList "410-beta".toList ∧
      parse "4.10.0" = .ok ⟨4, 1, 0⟩ ∧ parse "410-beta" = .ok ⟨4, 1, 0⟩ := by
  have hbehind : Change "4.10.0".toList "4.10-beta".toList :=
    @Change.behindThird "4.10".toList ".0".toList "-beta".toList (by decide)
  have hdot : Change "4.10-beta".toList "410-beta".toList := .deleteDot ['4'] "10-beta".toList
  have hchanges := Relation.ReflTransGen.head hbehind (.single hdot)
  have hparse : parse "4.10.0" = .ok ⟨4, 1, 0⟩ := by decide
  exact ⟨hchanges, hparse, version_text_exact.2.1 _ _ _ hchanges hparse⟩

end FlexAudit.SdkVersion
