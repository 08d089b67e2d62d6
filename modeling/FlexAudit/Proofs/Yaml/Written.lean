import FlexAudit.Proofs.Text.Encoding
import FlexAudit.Yaml.Printer
import Mathlib.Data.List.TakeWhile
import Mathlib.Tactic.SplitIfs

/-!
# Characters and lines of a written text

What is written holds printable characters only, so the reader takes it as it stands. Behind each
line comes the next one: its indentation, and a key or an entry. Proved here:

* `unifyBreaks_eq_self`: a text of printable characters has uniform breaks already;
* `written_writeScalar`: the style of a text says how it is written and what is known of it;
* `Written.printable`: a scalar is written in printable characters;
* `NextLine.of_spaces`: what follows a line is an indentation and what starts behind it.
-/

namespace FlexAudit.Yaml

/-! ## Printable characters -/

theorem ne_of_isPrintable {c d : Char} (hc : isPrintable c = true) (hd : isPrintable d = false) :
    c ≠ d := by
  rintro rfl
  rw [hd] at hc
  cases hc

theorem isBlank_of_isPrintable {c : Char} (hc : isPrintable c = true) :
    isBlank c = (c == ' ') := by
  simp [isBlank, ne_of_isPrintable hc (d := '\t') rfl]

theorem isAllowed_of_isPrintable {c : Char} (hc : isPrintable c = true) : isAllowed c = true := by
  simp only [isPrintable, isAllowed, Bool.or_eq_true, Bool.and_eq_true, decide_eq_true_eq,
    beq_iff_eq] at hc ⊢
  omega

/-- A text of printable characters. -/
def Printable (cs : List Char) : Prop := ∀ c ∈ cs, isPrintable c = true

theorem Printable.append {cs ds : List Char} (hcs : Printable cs) (hds : Printable ds) :
    Printable (cs ++ ds) := by
  intro c hc
  rcases List.mem_append.1 hc with hc | hc
  · exact hcs c hc
  · exact hds c hc

theorem printable_singleton {c : Char} (hc : isPrintable c = true) : Printable [c] := by
  simpa [Printable] using hc

theorem unifyBreaks_eq_self {cs : List Char} (h : Printable cs) : unifyBreaks cs = cs := by
  induction cs with
  | nil => rfl
  | cons c cs ih =>
    have hc : isPrintable c = true := h c List.mem_cons_self
    have hreturn : c ≠ '\r' := ne_of_isPrintable hc rfl
    have hnext : c ≠ '\u0085' := ne_of_isPrintable hc rfl
    rw [unifyBreaks, ih fun d hd => h d (List.mem_cons_of_mem c hd)]
    · simp [hreturn, hnext]
    · exact fun _ heq _ => hreturn heq

/-! ## Neighbours -/

theorem anyNeighbours_cons_cons (p : Char → Char → Bool) (a b : Char) (cs : List Char) :
    anyNeighbours p (a :: b :: cs) = (p a b || anyNeighbours p (b :: cs)) := rfl

/-! ## Styles -/

/-- How a text is written in a style, and what is known of it then. -/
inductive Written (indent : Nat) (cs : List Char) : Style → List Char → Prop
  | plain : readsAsValue cs = false → plainAllowed cs = true →
    Written indent cs .plain (cs ++ ['\n'])
  | singleQuoted : '\n' ∉ cs → singleQuotesAllowed cs = true →
    Written indent cs .singleQuoted (writeSingleQuoted indent cs ++ ['\n'])
  | literal : '\n' ∈ cs → literalAllowed cs = true →
    Written indent cs .literal (writeLiteral indent cs)
  | doubleQuoted : Written indent cs .doubleQuoted (writeDoubleQuoted cs ++ ['\n'])

theorem written_writeScalar (indent : Nat) (text : String) :
    Written indent text.toList (styleOf text.toList) (writeScalar indent text) := by
  unfold writeScalar styleOf
  dsimp only
  generalize text.toList = cs
  split_ifs with hfeed hliteral hplain hsingle
  · exact .literal (by simpa using hfeed) hliteral
  · exact .doubleQuoted
  · simp only [Bool.and_eq_true, Bool.not_eq_true'] at hplain
    exact .plain hplain.1 hplain.2
  · exact .singleQuoted (by simpa using hfeed) hsingle
  · exact .doubleQuoted

theorem printable_of_hasSpecial {cs : List Char} (h : hasSpecial cs = false) : Printable cs := by
  simpa [hasSpecial, Printable] using h

theorem printable_of_singleQuotesAllowed {cs : List Char} (h : singleQuotesAllowed cs = true) :
    Printable cs := by
  simp only [singleQuotesAllowed, Bool.not_eq_true', Bool.or_eq_false_iff] at h
  exact printable_of_hasSpecial h.2

theorem printable_of_plainAllowed {cs : List Char} (h : plainAllowed cs = true) :
    Printable cs := by
  simp only [plainAllowed, Bool.and_eq_true] at h
  exact printable_of_singleQuotesAllowed h.1.1.1.1.1

theorem printable_of_literalAllowed {cs : List Char} (h : literalAllowed cs = true) :
    Printable cs := by
  simp only [literalAllowed, Bool.not_eq_true', Bool.or_eq_false_iff] at h
  exact printable_of_hasSpecial h.2

/-! ## The characters of the written forms -/

theorem printable_spaces (n : Nat) : Printable (spaces n) := by
  intro c hc
  rw [List.eq_of_mem_replicate hc]
  rfl

theorem printable_indentLines {write : Char → List Char} (indent : Nat)
    (hwrite : ∀ c, isPrintable c = true → Printable (write c)) (broken : Bool) {cs : List Char}
    (hcs : Printable cs) : Printable (indentLines indent write broken cs) := by
  induction cs generalizing broken with
  | nil => exact hcs
  | cons c cs ih =>
    have hc : isPrintable c = true := hcs c List.mem_cons_self
    have hrest (broken : Bool) := ih broken fun d hd => hcs d (List.mem_cons_of_mem c hd)
    rw [indentLines]
    split_ifs with hbreak hbroken
    · rintro d (_ | ⟨_, hd⟩)
      · exact hc
      · exact hrest true d hd
    · exact ((printable_spaces indent).append (hwrite c hc)).append (hrest false)
    · exact (hwrite c hc).append (hrest false)

theorem isPrintable_hexDigit : ∀ d < 16,
    isPrintable (if d < 10 then Char.ofNat (48 + d) else Char.ofNat (55 + d)) = true := by
  decide

theorem printable_hexCode (width n : Nat) : Printable (hexCode width n) := by
  intro c hc
  obtain ⟨k, -, rfl⟩ := List.mem_map.1 hc
  exact isPrintable_hexDigit _ (Nat.mod_lt _ (by decide))

/-- The ways to write a character between double quotes. -/
inductive Escaped (c : Char) : List Char → Prop
  | self : isPrintable c = true → isBreak c = false → c ≠ '"' → c ≠ '\\' → Escaped c [c]
  | letter {d : Char} : escapeLetter? d = some (.char c) → isPrintable d = true →
    isBreak d = false → Escaped c ['\\', d]
  | code {d : Char} {width : Nat} : escapeLetter? d = some (.code (width + 1)) →
    isPrintable d = true → isBreak d = false → c.toNat < 16 ^ (width + 1) →
    Escaped c ('\\' :: d :: hexCode (width + 1) c.toNat)

theorem escaped_escapeChar (c : Char) : Escaped c (escapeChar c) := by
  unfold escapeChar
  split_ifs with hquote hprintable
  · simp only [Bool.or_eq_true, beq_iff_eq] at hquote
    rcases hquote with rfl | rfl <;> exact .letter rfl rfl rfl
  · simp only [Bool.and_eq_true, Bool.not_eq_true'] at hprintable
    simp only [Bool.or_eq_true, beq_iff_eq, not_or] at hquote
    exact .self hprintable.1 hprintable.2 hquote.1 hquote.2
  · split
    any_goals exact .letter rfl rfl rfl
    have hrange := Utf8.toNat_range c
    dsimp only
    split_ifs with htwo hfour
    · exact .code rfl rfl rfl (by omega)
    · exact .code rfl rfl rfl (by omega)
    · exact .code rfl rfl rfl (by omega)

theorem printable_escapeChar (c : Char) : Printable (escapeChar c) := by
  have hpair {d : Char} (hd : isPrintable d = true) : Printable ['\\', d] :=
    (printable_singleton rfl).append (printable_singleton hd)
  have hescaped := escaped_escapeChar c
  generalize escapeChar c = written at hescaped ⊢
  cases hescaped with
  | self hc => simpa [Printable] using hc
  | letter _ hd => exact hpair hd
  | code _ hd => exact Printable.append (hpair hd) (printable_hexCode _ _)

theorem printable_literalHeader (cs : List Char) : Printable (literalHeader cs) := by
  have hdigit : Nat.toDigits 10 indentStep = ['2'] := rfl
  unfold literalHeader
  rw [hdigit]
  apply Printable.append
  · split_ifs
    · exact printable_singleton rfl
    · simp [Printable]
  · split
    · exact printable_singleton rfl
    · split_ifs <;> exact printable_singleton rfl
    · split_ifs
      · exact printable_singleton rfl
      · exact printable_singleton rfl
      · simp [Printable]

theorem printable_writeSingleQuoted (indent : Nat) {cs : List Char} (hcs : Printable cs) :
    Printable (writeSingleQuoted indent cs) := by
  have hwrite (c : Char) (hc : isPrintable c = true) :
      Printable (if c == '\'' then ['\'', '\''] else [c]) := by
    split_ifs
    · exact Printable.append (printable_singleton rfl) (printable_singleton rfl)
    · exact printable_singleton hc
  have hlines := printable_indentLines indent hwrite false hcs
  have hlast : Printable (if cs.getLast?.any isBreak then spaces indent else []) := by
    split_ifs
    · exact printable_spaces indent
    · simp [Printable]
  have hquote : Printable ['\''] := printable_singleton rfl
  exact ((hquote.append hlines).append hlast).append hquote

theorem printable_writeDoubleQuoted (cs : List Char) : Printable (writeDoubleQuoted cs) := by
  have hquote : Printable ['"'] := printable_singleton rfl
  have hescapes : Printable (cs.flatMap escapeChar) := by
    intro d hd
    obtain ⟨c, -, hc⟩ := List.mem_flatMap.1 hd
    exact printable_escapeChar c d hc
  exact (hquote.append hescapes).append hquote

theorem printable_writeLiteral (indent : Nat) {cs : List Char} (hcs : Printable cs) :
    Printable (writeLiteral indent cs) := by
  have hfeed : Printable ['\n'] := printable_singleton rfl
  have hlines := printable_indentLines indent (fun _ hc => printable_singleton hc) true hcs
  have hlast : Printable (if cs.getLast?.any isBreak then [] else ['\n']) := by
    split_ifs
    · simp [Printable]
    · exact hfeed
  have hbar : Printable ['|'] := printable_singleton rfl
  simpa [writeLiteral] using
    hbar.append ((printable_literalHeader cs).append (hfeed.append (hlines.append hlast)))

theorem Written.printable {indent : Nat} {cs : List Char} {style : Style} {written : List Char}
    (h : Written indent cs style written) : Printable written := by
  have hfeed : Printable ['\n'] := printable_singleton rfl
  cases h with
  | plain _ hplain => exact (printable_of_plainAllowed hplain).append hfeed
  | singleQuoted _ hsingle =>
    exact (printable_writeSingleQuoted indent (printable_of_singleQuotesAllowed hsingle)).append
      hfeed
  | literal _ hliteral =>
    exact printable_writeLiteral indent (printable_of_literalAllowed hliteral)
  | doubleQuoted => exact (printable_writeDoubleQuoted cs).append hfeed

/-! ## The next line -/

/-- The position after `n` characters of a line. -/
def Position.after (p : Position) (n : Nat) : Position := ⟨p.line, p.column + n⟩

theorem Position.after_next (p : Position) (n : Nat) : p.next.after n = p.after (n + 1) := by
  simp only [after, next]
  congr 1
  omega

/-- A character that starts a key or an entry. -/
def isMark (c : Char) : Bool :=
  c == '-' || ('a' ≤ c && c ≤ 'z')

theorem ne_of_isMark {c d : Char} (hc : isMark c = true) (hd : isMark d = false) : c ≠ d := by
  rintro rfl
  rw [hd] at hc
  cases hc

theorem isBlank_of_isMark {c : Char} (hc : isMark c = true) : isBlank c = false := by
  simp [isBlank, ne_of_isMark hc (d := ' ') rfl, ne_of_isMark hc (d := '\t') rfl]

theorem isBreak_of_isMark {c : Char} (hc : isMark c = true) : isBreak c = false := by
  simp [isBreak, ne_of_isMark hc (d := '\n') rfl, ne_of_isMark hc (d := '\r') rfl,
    ne_of_isMark hc (d := '\u0085') rfl, ne_of_isMark hc (d := '\u2028') rfl,
    ne_of_isMark hc (d := '\u2029') rfl]

/-- Nothing, or a key or an entry. -/
def Starts (rest : List Char) : Prop := ∀ c ∈ rest.head?, isMark c = true

/-- The indentation of a text. -/
def lead (tail : List Char) : Nat := (tail.takeWhile (· == ' ')).length

/-- What stands behind the indentation. -/
def body (tail : List Char) : List Char := tail.dropWhile (· == ' ')

/-- What comes behind a line of a collection at a column: the end, a further part of it, or of one
that lies around it. -/
structure NextLine (column : Nat) (tail : List Char) : Prop where
  lead_le : lead tail ≤ column
  starts : Starts (body tail)

theorem spaces_lead_append_body (tail : List Char) : spaces (lead tail) ++ body tail = tail := by
  have hspaces : spaces (lead tail) = tail.takeWhile (· == ' ') := by
    refine (List.eq_replicate_of_mem fun c hc => ?_).symm
    simpa using List.mem_takeWhile_imp hc
  rw [hspaces, body, List.takeWhile_append_dropWhile]

theorem lead_body_spaces_append (n : Nat) {rest : List Char} (h : Starts rest) :
    lead (spaces n ++ rest) = n ∧ body (spaces n ++ rest) = rest := by
  have hall : ∀ c ∈ spaces n, (c == ' ') = true := by
    intro c hc
    rw [List.eq_of_mem_replicate hc]
    rfl
  have hstop : rest.takeWhile (· == ' ') = [] ∧ rest.dropWhile (· == ' ') = rest := by
    cases rest with
    | nil => exact ⟨rfl, rfl⟩
    | cons c rest => simp [ne_of_isMark (h c rfl) (d := ' ') rfl]
  rw [lead, body, List.takeWhile_append_of_pos hall, List.dropWhile_append_of_pos hall, hstop.1,
    hstop.2]
  simp [spaces]

theorem NextLine.of_spaces {n column : Nat} (hn : n ≤ column) {rest : List Char} (h : Starts rest) :
    NextLine column (spaces n ++ rest) := by
  obtain ⟨hlead, hbody⟩ := lead_body_spaces_append n h
  exact ⟨by rwa [hlead], by rwa [hbody]⟩

end FlexAudit.Yaml
