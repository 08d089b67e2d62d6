import FlexAudit.Json.Printer
import FlexAudit.Json.Reader
import FlexAudit.Proofs.Text.Digits
import Mathlib.Data.List.DropRight
import Mathlib.Tactic.SplitIfs

/-!
# Words, numbers and strings of JSON

`IsToken` says which texts are values without parts: the three words, numbers with their optional
sign, fraction and exponent, and strings with every way to write a character. Proved here:

* `string_of_isString`: a string is read as the text that its pieces denote, or as one without text
  where a surrogate stands alone;
* `isString_quote`: the printer writes such a string;
* `unsignedNumber_append`, `value_number`: a number is read to its end;
* `value_token`: so is every token.
-/

namespace FlexAudit.Json

/-! ## Strings -/

/-- One element of a string as it is written. -/
inductive Piece where
  | plain (c : Char) (h : c ≠ '"' ∧ c ≠ '\\' ∧ ¬ c < ' ')
  /-- A backslash and a letter that stands for `c`. -/
  | letter (l c : Char) (h : simpleEscape? l = some c)
  /-- A character by the four hexadecimal digits of its code. -/
  | code (a b c d : Char) (n : Nat) (h : hex4? a b c d = some n) (hhigh : isHighSurrogate n = false)
    (hlow : isLowSurrogate n = false)
  /-- The first half of a character that needs two codes. -/
  | high (a b c d : Char) (n : Nat) (h : hex4? a b c d = some n) (hhigh : isHighSurrogate n = true)
  /-- The second half. -/
  | low (a b c d : Char) (n : Nat) (h : hex4? a b c d = some n) (hlow : isLowSurrogate n = true)

namespace Piece

def chars : Piece → List Char
  | plain c _ => [c]
  | letter l _ _ => ['\\', l]
  | code a b c d _ _ _ _ => ['\\', 'u', a, b, c, d]
  | high a b c d _ _ _ => ['\\', 'u', a, b, c, d]
  | low a b c d _ _ _ => ['\\', 'u', a, b, c, d]

/-- The text of a string by its pieces. There is none if one half of a character stands alone. -/
def denote : List Piece → Option (List Char)
  | [] => some []
  | plain c _ :: ps => (denote ps).map (c :: ·)
  | letter _ c _ :: ps => (denote ps).map (c :: ·)
  | code _ _ _ _ n _ _ _ :: ps => (denote ps).map (Char.ofNat n :: ·)
  | high _ _ _ _ n _ _ :: low _ _ _ _ m _ _ :: ps =>
    (denote ps).map (Char.ofNat (0x10000 + (n - 0xD800) * 0x400 + (m - 0xDC00)) :: ·)
  | high .. :: _ => none
  | low .. :: _ => none

/-- What the reader does with a piece. -/
def add (u : Units) : Piece → Units
  | plain c _ => u.char c
  | letter _ c _ => u.char c
  | code _ _ _ _ n _ _ _ => u.char (Char.ofNat n)
  | high _ _ _ _ n _ _ => u.unit n
  | low _ _ _ _ n _ _ => u.unit n

theorem stringBody_code {a b c d : Char} {n : Nat} (h : hex4? a b c d = some n) (u : Units)
    (rest : List Char) :
    stringBody u ('\\' :: 'u' :: a :: b :: c :: d :: rest) = stringBody (u.unit n) rest := by
  rw [stringBody, h]

theorem stringBody_chars (u : Units) (p : Piece) (rest : List Char) :
    stringBody u (p.chars ++ rest) = stringBody (p.add u) rest := by
  cases p with
  | plain c h => simp [chars, add, stringBody, h]
  | letter l c h =>
    have hu : l ≠ 'u' := by
      rintro rfl
      cases h
    rw [chars, List.cons_append, List.cons_append, stringBody, h]
    · rfl
    · exact fun _ _ _ _ _ heq => absurd heq hu
  | code a b c d n h hhigh hlow =>
    have hunit : u.unit n = u.char (Char.ofNat n) := by simp [Units.unit, hhigh, hlow]
    exact (stringBody_code h u rest).trans (by rw [hunit]; rfl)
  | high a b c d n h hhigh => exact stringBody_code h u rest
  | low a b c d n h hlow => exact stringBody_code h u rest

theorem stringBody_flatMap (ps : List Piece) (u : Units) (rest : List Char) :
    stringBody u (ps.flatMap chars ++ '"' :: rest) = some ((ps.foldl add u).finish, rest) := by
  induction ps generalizing u with
  | nil => simp [stringBody]
  | cons p ps ih => rw [List.flatMap_cons, List.append_assoc, stringBody_chars, ih, List.foldl_cons]

theorem chars_add_eq_none {u : Units} (h : u.chars = none) (p : Piece) :
    (p.add u).chars = none := by
  have hchar (c : Char) : (u.char c).chars = none := by
    unfold Units.char
    split <;> simp [h]
  have hunit (n : Nat) : (u.unit n).chars = none := by
    unfold Units.unit
    split_ifs
    · split <;> simp [h]
    · split <;> simp [h]
    · exact hchar _
  cases p with
  | plain c h => exact hchar c
  | letter l c h => exact hchar c
  | code a b c d n h hhigh hlow => exact hchar _
  | high a b c d n h hhigh => exact hunit n
  | low a b c d n h hlow => exact hunit n

/-- Once a half stood alone there is no text any more. -/
theorem finish_foldl_eq_none (ps : List Piece) {u : Units} (h : u.chars = none) :
    (ps.foldl add u).finish = none := by
  induction ps generalizing u with
  | nil =>
    rw [List.foldl_nil, Units.finish]
    split <;> simp [h]
  | cons p ps ih => exact ih (chars_add_eq_none h p)

theorem isLowSurrogate_of_isHighSurrogate {n : Nat} (h : isHighSurrogate n = true) :
    isLowSurrogate n = false := by
  simp only [isHighSurrogate, isLowSurrogate, Bool.and_eq_true, decide_eq_true_eq,
    Bool.and_eq_false_iff, decide_eq_false_iff_not] at h ⊢
  omega

/-- A first half waits for the second. -/
theorem unit_high {n : Nat} (h : isHighSurrogate n = true) (done : List Char) :
    Units.unit ⟨some done, none⟩ n = ⟨some done, some n⟩ := by
  simp [Units.unit, h, isLowSurrogate_of_isHighSurrogate h]

/-- Nothing but a second half may follow a first one. -/
theorem chars_add_of_waiting {done : List Char} {n : Nat} {p : Piece}
    (hp : ∀ a b c d m h hlow, p ≠ low a b c d m h hlow) :
    (p.add ⟨some done, some n⟩).chars = none := by
  cases p with
  | plain c h => rfl
  | letter l c h => rfl
  | code a b c d m h hhigh hlow => rfl
  | high a b c d m h hhigh =>
    simp [add, Units.unit, hhigh, isLowSurrogate_of_isHighSurrogate hhigh]
  | low a b c d m h hlow => exact absurd rfl (hp a b c d m h hlow)

theorem finish_foldl (ps : List Piece) (done : List Char) :
    (ps.foldl add ⟨some done, none⟩).finish = (denote ps).map (done.reverse ++ ·) := by
  have hcons (text : Option (List Char)) (c : Char) (done : List Char) :
      text.map ((c :: done).reverse ++ ·) = (text.map (c :: ·)).map (done.reverse ++ ·) := by
    cases text <;> simp
  fun_induction denote ps generalizing done with
  | case1 => simp [Units.finish]
  | case2 c h ps ih => exact (ih (c :: done)).trans (hcons _ c done)
  | case3 l c h ps ih => exact (ih (c :: done)).trans (hcons _ c done)
  | case4 a b c d n h hhigh hlow ps ih =>
    exact (ih (Char.ofNat n :: done)).trans (hcons _ (Char.ofNat n) done)
  | case5 a b c d n h hhigh a' b' c' d' m h' hlow ps ih =>
    rw [List.foldl_cons, List.foldl_cons, add, unit_high hhigh, add, ← hcons, ← ih]
    simp [Units.unit, hlow]
  | case6 a b c d n h hhigh ps hnext =>
    rw [List.foldl_cons, add, unit_high hhigh]
    cases ps with
    | nil => rfl
    | cons p ps =>
      have hp : (p.add ⟨some done, some n⟩).chars = none := by
        apply chars_add_of_waiting
        rintro a' b' c' d' m h' hlow rfl
        exact hnext a' b' c' d' m h' hlow ps rfl
      exact finish_foldl_eq_none ps hp
  | case7 a b c d n h hlow ps =>
    rw [List.foldl_cons]
    apply finish_foldl_eq_none
    simp [add, Units.unit, hlow]

end Piece

/-- The texts of a string, quotes included; `none` if one half of a character stands alone. -/
def IsString (s : Option String) (cs : List Char) : Prop :=
  ∃ ps : List Piece, cs = '"' :: (ps.flatMap Piece.chars ++ ['"']) ∧
    s = (Piece.denote ps).map String.ofList

theorem string_of_isString {s : Option String} {cs : List Char} (h : IsString s cs)
    (rest : List Char) : ∃ body, cs ++ rest = '"' :: body ∧ string body = some (s, rest) := by
  obtain ⟨ps, rfl, rfl⟩ := h
  refine ⟨ps.flatMap Piece.chars ++ '"' :: rest, by simp, ?_⟩
  have hfinish : (ps.foldl Piece.add {}).finish = Piece.denote ps := by
    rw [Piece.finish_foldl]
    simp
  rw [string, Piece.stringBody_flatMap, hfinish]
  rfl

/-! ### What the printer writes -/

theorem hexDigit?_hexDigit : ∀ n < 16, hexDigit? (hexDigit n) = some n := by decide

theorem hex4?_hexDigit {n : Nat} (hn : n < 0x20) :
    hex4? '0' '0' (hexDigit (n / 16)) (hexDigit (n % 16)) = some n := by
  have hhigh := hexDigit?_hexDigit (n / 16) (by omega)
  have hlow := hexDigit?_hexDigit (n % 16) (by omega)
  have hzero : hexDigit? '0' = some 0 := by decide
  simp only [hex4?, hzero, hhigh, hlow, Option.bind_eq_bind, Option.bind_some, pure]
  congr 1
  omega

/-- What the printer writes for a character is a piece that stands for it. -/
theorem exists_piece (c : Char) :
    ∃ p : Piece, p.chars = escapeChar c ∧
      ∀ ps, Piece.denote (p :: ps) = (Piece.denote ps).map (c :: ·) := by
  unfold escapeChar
  split_ifs with hquote hbackslash hb hf hn hr ht hcontrol
  · subst hquote
    exact ⟨.letter '"' '"' rfl, rfl, fun _ => rfl⟩
  · subst hbackslash
    exact ⟨.letter '\\' '\\' rfl, rfl, fun _ => rfl⟩
  · subst hb
    exact ⟨.letter 'b' '\x08' rfl, rfl, fun _ => rfl⟩
  · subst hf
    exact ⟨.letter 'f' '\x0c' rfl, rfl, fun _ => rfl⟩
  · subst hn
    exact ⟨.letter 'n' '\n' rfl, rfl, fun _ => rfl⟩
  · subst hr
    exact ⟨.letter 'r' '\r' rfl, rfl, fun _ => rfl⟩
  · subst ht
    exact ⟨.letter 't' '\t' rfl, rfl, fun _ => rfl⟩
  · have hlt : c.toNat < 0x20 := hcontrol
    have hhigh : isHighSurrogate c.toNat = false := by
      rw [isHighSurrogate, Bool.and_eq_false_iff, decide_eq_false_iff_not]
      exact .inl (by omega)
    have hlow : isLowSurrogate c.toNat = false := by
      rw [isLowSurrogate, Bool.and_eq_false_iff, decide_eq_false_iff_not]
      exact .inl (by omega)
    exact ⟨.code _ _ _ _ c.toNat (hex4?_hexDigit hlt) hhigh hlow, rfl,
      fun _ => by rw [Piece.denote, Char.ofNat_toNat]⟩
  · exact ⟨.plain c ⟨hquote, hbackslash, hcontrol⟩, rfl, fun _ => by rw [Piece.denote]⟩

theorem quote_some (s : String) :
    quote (some s) = '"' :: s.toList.flatMap escapeChar ++ ['"'] := rfl

theorem quote_none : quote none = ['"', '\\', 'u', 'd', '8', '0', '0', '"'] :=
  String.toList_ofList

theorem exists_pieces (cs : List Char) :
    ∃ ps : List Piece, ps.flatMap Piece.chars = cs.flatMap escapeChar ∧
      Piece.denote ps = some cs := by
  induction cs with
  | nil => exact ⟨[], rfl, rfl⟩
  | cons c cs ih =>
    obtain ⟨p, hchars, hdenote⟩ := exists_piece c
    obtain ⟨ps, hps, htext⟩ := ih
    refine ⟨p :: ps, ?_, ?_⟩
    · rw [List.flatMap_cons, List.flatMap_cons, hchars, hps]
    · rw [hdenote, htext]
      rfl

theorem isString_quote (s : Option String) : IsString s (quote s) := by
  cases s with
  | none =>
    rw [quote_none]
    exact ⟨[.high 'd' '8' '0' '0' 0xD800 (by decide) (by decide)], rfl, rfl⟩
  | some s =>
    obtain ⟨ps, hps, htext⟩ := exists_pieces s.toList
    refine ⟨ps, ?_, ?_⟩
    · rw [quote_some, hps]
      rfl
    · rw [htext, Option.map_some, String.ofList_toList]

/-! ## Numbers -/

/-- A run of digits. -/
structure IsDigits (ds : List Char) : Prop where
  ne_nil : ds ≠ []
  isDigit : ∀ c ∈ ds, isDigit c = true

/-- The digits in front of any fraction: no needless zero leads them. -/
structure IsInteger (ds : List Char) : Prop extends IsDigits ds where
  no_leading_zero : ds.head? = some '0' → ds.length = 1

inductive IsFraction : List Char → Prop
  | absent : IsFraction []
  | present {ds : List Char} : IsDigits ds → IsFraction ('.' :: ds)

inductive IsExponent : List Char → Prop
  | absent : IsExponent []
  | present {e : Char} {sign ds : List Char} : e = 'e' ∨ e = 'E' →
    sign = [] ∨ sign = ['+'] ∨ sign = ['-'] → IsDigits ds → IsExponent (e :: (sign ++ ds))

/-- The texts of a number. -/
inductive IsNumber : Json → List Char → Prop
  | nat {ds : List Char} : IsInteger ds → IsNumber (.nat (digitsValue ds)) ds
  | negative {ds fs es : List Char} : IsInteger ds → IsFraction fs → IsExponent es →
    IsNumber .otherNumber ('-' :: (ds ++ (fs ++ es)))
  | scaled {ds fs es : List Char} : IsInteger ds → IsFraction fs → IsExponent es → fs ++ es ≠ [] →
    IsNumber .otherNumber (ds ++ (fs ++ es))

/-- What may follow a number: nothing that goes on with it. -/
def EndsNumber (rest : List Char) : Prop :=
  ∀ c ∈ rest.head?, isDigit c = false ∧ c ≠ '.' ∧ c ≠ 'e' ∧ c ≠ 'E'

/-- What may follow a fraction. -/
def EndsFraction (rest : List Char) : Prop :=
  ∀ c ∈ rest.head?, isDigit c = false ∧ c ≠ '.'

/-- What may follow a run of digits. -/
def EndsDigits (rest : List Char) : Prop :=
  ∀ c ∈ rest.head?, isDigit c = false

theorem span_digits {ds rest : List Char} (hds : ∀ c ∈ ds, isDigit c = true)
    (hrest : EndsDigits rest) :
    (ds ++ rest).takeWhile isDigit = ds ∧ (ds ++ rest).dropWhile isDigit = rest := by
  have hstop : rest.takeWhile isDigit = [] ∧ rest.dropWhile isDigit = rest := by
    cases rest with
    | nil => exact ⟨rfl, rfl⟩
    | cons c rest => simp [hrest c rfl]
  rw [List.takeWhile_append_of_pos hds, List.dropWhile_append_of_pos hds, hstop.1, hstop.2]
  simp

theorem someDigits_append {ds rest : List Char} (hds : IsDigits ds) (hrest : EndsDigits rest) :
    someDigits (ds ++ rest) = some rest := by
  have hlength : 0 < ds.length := List.length_pos_of_ne_nil hds.ne_nil
  rw [someDigits, (span_digits hds.isDigit hrest).2]
  simp [hlength]

theorem IsExponent.ends {es rest : List Char} (h : IsExponent es) (hrest : EndsNumber rest) :
    EndsFraction (es ++ rest) := by
  cases h with
  | absent => exact fun c hc => ⟨(hrest c hc).1, (hrest c hc).2.1⟩
  | present he _ _ =>
    rintro c ⟨⟩
    rcases he with rfl | rfl <;> decide

theorem IsExponent.exponent_append {es rest : List Char} (h : IsExponent es)
    (hrest : EndsNumber rest) : exponent (es ++ rest) = some rest := by
  cases h with
  | absent =>
    cases rest with
    | nil => rfl
    | cons c rest =>
      obtain ⟨-, -, hlower, hupper⟩ := hrest c rfl
      simp [exponent, hlower, hupper]
  | @present e sign ds he hsign hds =>
    have hdigits := someDigits_append hds fun c hc => (hrest c hc).1
    obtain ⟨d, ds', rfl⟩ := List.exists_cons_of_ne_nil hds.ne_nil
    have hd := hds.isDigit d List.mem_cons_self
    rcases hsign with rfl | rfl | rfl
    · have hplus : d ≠ '+' := by
        rintro rfl
        cases hd
      have hminus : d ≠ '-' := by
        rintro rfl
        cases hd
      simpa [exponent, he, hplus, hminus] using hdigits
    · simpa [exponent, he] using hdigits
    · simpa [exponent, he] using hdigits

theorem IsFraction.ends {fs rest : List Char} (h : IsFraction fs) (hrest : EndsFraction rest) :
    EndsDigits (fs ++ rest) := by
  cases h with
  | absent => exact fun c hc => (hrest c hc).1
  | present _ =>
    rintro c ⟨⟩
    decide

theorem IsFraction.fraction_append {fs rest : List Char} (h : IsFraction fs)
    (hrest : EndsFraction rest) : fraction (fs ++ rest) = some rest := by
  cases h with
  | absent =>
    cases rest with
    | nil => rfl
    | cons c rest =>
      rw [List.nil_append, fraction]
      rintro _ ⟨⟩
      exact (hrest '.' rfl).2 rfl
  | present hds => exact someDigits_append hds fun c hc => (hrest c hc).1

/-- The digits, the fraction and the exponent are read one after the other. -/
theorem unsignedNumber_append (negative : Bool) {ds fs es rest : List Char} (hds : IsInteger ds)
    (hfs : IsFraction fs) (hes : IsExponent es) (hrest : EndsNumber rest) :
    unsignedNumber negative (ds ++ (fs ++ es) ++ rest) =
      some (if negative = false ∧ fs ++ es = [] then .nat (digitsValue ds) else .otherNumber,
        rest) := by
  have hspan := span_digits hds.isDigit (hfs.ends (hes.ends hrest))
  have hlength : rest.length = (fs ++ (es ++ rest)).length ↔ fs ++ es = [] := by
    rw [← List.length_eq_zero_iff, List.length_append, List.length_append, List.length_append]
    omega
  rw [List.append_assoc, List.append_assoc, unsignedNumber, hspan.1, hspan.2,
    hfs.fraction_append (hes.ends hrest)]
  simp only [Option.bind_eq_bind, Option.bind_some, hes.exponent_append hrest, hlength]
  rw [if_neg (by simpa [hds.ne_nil] using hds.no_leading_zero)]
  split <;> rfl

theorem isDigit_of_mem_toDigits {n : Nat} {c : Char} (hc : c ∈ Nat.toDigits 10 n) :
    isDigit c = true := by
  have hdigit := Nat.isDigit_of_mem_toDigits (by decide) (by decide) hc
  simp only [isDigit, Char.isDigit, Bool.and_eq_true, decide_eq_true_eq] at hdigit ⊢
  exact hdigit

/-- The printer writes a number with the fewest digits. -/
theorem isInteger_toDigits (n : Nat) : IsInteger (Nat.toDigits 10 n) where
  ne_nil := Nat.toDigits_ne_nil
  isDigit _ hc := isDigit_of_mem_toDigits hc
  no_leading_zero := by
    intro hhead
    rcases Nat.eq_zero_or_pos n with rfl | hn
    · rfl
    · exact absurd hhead (Text.head?_toDigits hn)

theorem isNumber_toDigits (n : Nat) : IsNumber (.nat n) (Nat.toDigits 10 n) := by
  have hvalue : digitsValue (Nat.toDigits 10 n) = n := Text.foldl_toDigits n
  have hnat := IsNumber.nat (isInteger_toDigits n)
  rwa [hvalue] at hnat

/-! ## Tokens -/

/-- Blanks, or none. -/
def IsBlank (ws : List Char) : Prop := ∀ c ∈ ws, isBlank c = true

theorem IsBlank.nil : IsBlank [] := by simp [IsBlank]

theorem skipBlank_append {ws : List Char} (hws : IsBlank ws) (cs : List Char) :
    skipBlank (ws ++ cs) = skipBlank cs :=
  List.dropWhile_append_of_pos hws

theorem skipBlank_cons {c : Char} (hc : isBlank c = false) (cs : List Char) :
    skipBlank (c :: cs) = c :: cs :=
  List.dropWhile_cons_of_neg (by simp [hc])

theorem skipBlank_skipBlank (cs : List Char) : skipBlank (skipBlank cs) = skipBlank cs :=
  List.dropWhile_idempotent isBlank cs

/-- The texts of a value without parts. -/
inductive IsToken : Json → List Char → Prop
  | null : IsToken .null "null".toList
  | true : IsToken (.bool true) "true".toList
  | false : IsToken (.bool false) "false".toList
  | number {j : Json} {cs : List Char} : IsNumber j cs → IsToken j cs
  | string {s : Option String} {cs : List Char} : IsString s cs → IsToken (.str s) cs

theorem value_digit {c : Char} (hc : isDigit c = true) (n : Nat) (rest : List Char) :
    value (n + 1) (c :: rest) = unsignedNumber false (c :: rest) := by
  have hne (d : Char) (hd : isDigit d = false) : c ≠ d := by
    rintro rfl
    rw [hd] at hc
    cases hc
  have hblank : isBlank c = false := by
    simp [isBlank, hne ' ' rfl, hne '\t' rfl, hne '\n' rfl, hne '\r' rfl]
  rw [value, skipBlank_cons hblank]
  split
  · next heq => cases heq
  · next heq =>
    cases heq
    split
    · exact absurd rfl (hne '"' rfl)
    · exact absurd rfl (hne '[' rfl)
    · exact absurd rfl (hne '\x7b' rfl)
    · exact absurd rfl (hne 't' rfl)
    · exact absurd rfl (hne 'f' rfl)
    · exact absurd rfl (hne 'n' rfl)
    · rw [number]
      rintro _ ⟨⟩
      exact hne '-' rfl rfl

theorem value_integer {ds : List Char} (hds : IsInteger ds) (n : Nat) (rest : List Char) :
    value (n + 1) (ds ++ rest) = unsignedNumber false (ds ++ rest) := by
  obtain ⟨d, ds, rfl⟩ := List.exists_cons_of_ne_nil hds.ne_nil
  exact value_digit (hds.isDigit d List.mem_cons_self) n (ds ++ rest)

theorem value_number {j : Json} {cs : List Char} (h : IsNumber j cs) (n : Nat) {rest : List Char}
    (hrest : EndsNumber rest) : value (n + 1) (cs ++ rest) = some (j, rest) := by
  cases h with
  | nat hds =>
    have hnumber := unsignedNumber_append false hds .absent .absent hrest
    rw [List.append_nil, List.append_nil] at hnumber
    rw [value_integer hds, hnumber]
    rfl
  | negative hds hfs hes =>
    have hminus (cs : List Char) : value (n + 1) ('-' :: cs) = unsignedNumber true cs := by
      rw [value, skipBlank_cons rfl]
      rfl
    rw [List.cons_append, hminus, unsignedNumber_append true hds hfs hes hrest]
    rfl
  | scaled hds hfs hes hne =>
    have hnumber := unsignedNumber_append false hds hfs hes hrest
    rw [if_neg (by simpa using hne)] at hnumber
    rw [← hnumber, List.append_assoc, value_integer hds]

theorem word_append (w : String) (v : Json) (rest : List Char) :
    word w v (w.toList ++ rest) = some (v, rest) := by
  have hstarts : w.toList.isPrefixOf (w.toList ++ rest) = true := by simp
  rw [word, if_pos hstarts, ← String.length_toList, List.drop_left]

theorem value_token {j : Json} {cs : List Char} (h : IsToken j cs) (n : Nat) {rest : List Char}
    (hrest : EndsNumber rest) : value (n + 1) (cs ++ rest) = some (j, rest) := by
  cases h with
  | null =>
    have htext : "null".toList ++ rest = 'n' :: ("ull".toList ++ rest) := rfl
    rw [htext, value, skipBlank_cons rfl]
    exact word_append "ull" .null rest
  | true =>
    have htext : "true".toList ++ rest = 't' :: ("rue".toList ++ rest) := rfl
    rw [htext, value, skipBlank_cons rfl]
    exact word_append "rue" (.bool true) rest
  | false =>
    have htext : "false".toList ++ rest = 'f' :: ("alse".toList ++ rest) := rfl
    rw [htext, value, skipBlank_cons rfl]
    exact word_append "alse" (.bool false) rest
  | number hnumber => exact value_number hnumber n hrest
  | string hstring =>
    obtain ⟨body, hbody, hread⟩ := string_of_isString hstring rest
    rw [hbody, value, skipBlank_cons rfl]
    simp [hread]

end FlexAudit.Json
