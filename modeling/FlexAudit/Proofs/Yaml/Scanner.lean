import FlexAudit.Proofs.Yaml.Literal
import FlexAudit.Yaml.Token.Scanner
import Mathlib.Logic.Relation

/-!
# Scalars in the scanner

A scalar that was written is one token, and behind it the scanner stands in front of the line below.
Whether the scalar has read the indentation of that line makes no difference. Proved here:

* `run_of_reaches`: the tokens of a run, from its steps;
* `stands_of_feed`, `stands_of_body`: where the scanner stands behind a line;
* `token_plain`: a plain scalar is recognised by how it starts;
* `readsLine_written`: a text is read back from any of its written forms.
-/

namespace FlexAudit.Yaml.Scanner

/-! ## Steps and runs -/

/-- A step that reads a token. -/
def Steps (s s' : Scanner) : Prop :=
  s.step = some (s', false) ∧ s'.cursor.rest.length < s.cursor.rest.length

/-- Any number of such steps. -/
abbrev Reaches : Scanner → Scanner → Prop := Relation.ReflTransGen Steps

theorem run_of_reaches {s s' last : Scanner} (h : Reaches s s') (hend : s'.step = some (last, true))
    {fuel : Nat} (hfuel : s.cursor.rest.length < fuel) : s.run fuel = some last.tokens := by
  induction h using Relation.ReflTransGen.head_induction_on generalizing fuel with
  | refl =>
    obtain ⟨fuel, rfl⟩ := Nat.exists_eq_add_one_of_ne_zero (Nat.ne_zero_of_lt hfuel)
    simp [run, hend]
  | head hstep _ ih =>
    obtain ⟨hstep, hshorter⟩ := hstep
    obtain ⟨fuel, rfl⟩ := Nat.exists_eq_add_one_of_ne_zero (Nat.ne_zero_of_lt hfuel)
    have hrun := ih (show _ < fuel by omega)
    simp [run, hstep, hrun]

/-- The scanner in front of its next token. -/
def settle (s : Scanner) : Option Scanner :=
  let (allowed, cursor) := skipIgnored s.inFlow false s.keyAllowed s.cursor.position s.cursor.rest
  { s with cursor := cursor, keyAllowed := allowed }.refreshKeys

/-- The token that starts where the scanner stands. -/
def dispatch (s : Scanner) : Option (Scanner × Bool) :=
  match s.cursor.rest with
  | [] => do return (← s.streamEnd, true)
  | c :: rest => do return (← s.token c rest, false)

theorem step_eq (s : Scanner) :
    s.step = s.settle.bind fun s => (s.closeBlocks (s.cursor.column < ·)).dispatch := by
  rfl

theorem dispatch_cons {s : Scanner} {c : Char} {rest : List Char} (h : s.cursor.rest = c :: rest) :
    s.dispatch = (s.token c rest).map (·, false) := by
  rw [dispatch, h, Option.map_eq_bind]
  rfl

/-! ## Lines -/

/-- The scanner in front of what a line starts with. -/
def atLine (line : Nat) (tail : List Char) (tokens : List Token) (indents : List Nat) : Scanner :=
  ⟨⟨⟨line, lead tail⟩, body tail⟩, tokens, indents, [none], true⟩

/-- A scanner whose next token is the first one of a line. -/
structure Stands (s : Scanner) (tail : List Char) (tokens : List Token) (indents : List Nat) :
    Prop where
  settle : ∃ line, s.settle = some (atLine line tail tokens indents)
  length : (body tail).length ≤ s.cursor.rest.length

theorem skipIgnored_spaces (allowed : Bool) (n : Nat) (p : Position) (rest : List Char) :
    skipIgnored false false allowed p (spaces n ++ rest) =
      skipIgnored false false allowed (p.after n) rest := by
  induction n generalizing p with
  | zero => rfl
  | succ n ih =>
    have hcons : spaces (n + 1) ++ rest = ' ' :: (spaces n ++ rest) := rfl
    have hbreak : isBreak ' ' = false := rfl
    rw [hcons, skipIgnored, hbreak, ← Position.after_next, ← ih]
    simp

/-- A character that is not skipped between tokens. -/
def isVisible (c : Char) : Bool :=
  !(isBlank c || isBreak c || c == '#' || c == byteOrderMark)

theorem isVisible_of_isMark {c : Char} (hc : isMark c = true) : isVisible c = true := by
  simp [isVisible, isBlank_of_isMark hc, isBreak_of_isMark hc, ne_of_isMark hc (d := '#') rfl,
    ne_of_isMark hc (d := byteOrderMark) rfl]

theorem skipIgnored_visible (allowed : Bool) (p : Position) {c : Char} (hc : isVisible c = true)
    (rest : List Char) :
    skipIgnored false false allowed p (c :: rest) = (allowed, ⟨p, c :: rest⟩) := by
  simp only [isVisible, Bool.not_eq_true', Bool.or_eq_false_iff, isBlank] at hc
  obtain ⟨⟨⟨⟨hspace, htab⟩, hbreak⟩, hcomment⟩, hmark⟩ := hc
  rw [skipIgnored, hbreak, hspace, htab, hcomment, hmark]
  simp

theorem skipIgnored_starts (allowed : Bool) (p : Position) {rest : List Char} (h : Starts rest) :
    skipIgnored false false allowed p rest = (allowed, ⟨p, rest⟩) := by
  cases rest with
  | nil => rfl
  | cons c rest => exact skipIgnored_visible allowed p (isVisible_of_isMark (h c rfl)) rest

theorem skipIgnored_tail (allowed : Bool) (line : Nat) {tail : List Char} (h : Starts (body tail)) :
    skipIgnored false false allowed ⟨line, 0⟩ tail =
      (allowed, ⟨⟨line, lead tail⟩, body tail⟩) := by
  conv => lhs; rw [← spaces_lead_append_body tail]
  rw [skipIgnored_spaces, skipIgnored_starts allowed _ h, Position.after, Nat.zero_add]

/-- The possible keys of a scanner outside of brackets, once the line is over. -/
def Stale (line : Nat) (keys : List (Option PossibleKey)) : Prop :=
  ∃ key, keys = [key] ∧ ∀ k ∈ key, k.required = false ∧ k.position.line < line

theorem mapM_refresh {line : Nat} {keys : List (Option PossibleKey)} (h : Stale line keys)
    {p : Position} (hp : line ≤ p.line) : keys.mapM (refresh p) = some [none] := by
  obtain ⟨key, rfl, hkey⟩ := h
  cases key with
  | none => rfl
  | some k =>
    obtain ⟨hrequired, hline⟩ := hkey k rfl
    have hstale : PossibleKey.isStale k p = true := by
      simp [PossibleKey.isStale, Nat.lt_of_lt_of_le hline hp]
    simp [refresh, hstale, hrequired]

theorem Stale.inFlow {line : Nat} {s : Scanner} (h : Stale line s.keys) : s.inFlow = false := by
  obtain ⟨key, hkeys, -⟩ := h
  simp [Scanner.inFlow, hkeys]

theorem settle_eq {s : Scanner} {allowed : Bool} {cursor : Cursor}
    {keys : List (Option PossibleKey)}
    (hskip : skipIgnored s.inFlow false s.keyAllowed s.cursor.position s.cursor.rest =
      (allowed, cursor))
    (hkeys : s.keys.mapM (refresh cursor.position) = some keys) :
    s.settle = some { s with cursor := cursor, keyAllowed := allowed, keys := keys } := by
  simp [settle, hskip, refreshKeys, hkeys]

/-- Behind the break of a line. -/
theorem stands_of_feed (p : Position) {tail : List Char} (tokens : List Token)
    (indents : List Nat) {keys : List (Option PossibleKey)} (hkeys : Stale (p.line + 1) keys)
    (htail : Starts (body tail)) (allowed : Bool) :
    Stands ⟨⟨p, '\n' :: tail⟩, tokens, indents, keys, allowed⟩ tail tokens indents := by
  let s : Scanner := ⟨⟨p, '\n' :: tail⟩, tokens, indents, keys, allowed⟩
  have hflow : s.inFlow = false := Stale.inFlow hkeys
  have hskip : skipIgnored s.inFlow false allowed p ('\n' :: tail) =
      (true, ⟨⟨p.line + 1, lead tail⟩, body tail⟩) := by
    have hbreak : isBreak '\n' = true := rfl
    rw [hflow, skipIgnored, hbreak, if_pos rfl, Bool.not_false, Bool.or_true]
    exact skipIgnored_tail true (p.line + 1) htail
  refine ⟨⟨p.line + 1, settle_eq hskip (mapM_refresh hkeys (Nat.le_refl _))⟩, ?_⟩
  exact Nat.le_succ_of_le (List.length_dropWhile_le _ _)

/-- Behind a scalar that has read the indentation of the next line. -/
theorem stands_of_body {line : Nat} {tail : List Char} (tokens : List Token)
    (indents : List Nat) {keys : List (Option PossibleKey)} (hkeys : Stale line keys)
    (htail : Starts (body tail)) :
    Stands ⟨⟨⟨line, lead tail⟩, body tail⟩, tokens, indents, keys, true⟩ tail tokens indents := by
  let s : Scanner := ⟨⟨⟨line, lead tail⟩, body tail⟩, tokens, indents, keys, true⟩
  have hflow : s.inFlow = false := Stale.inFlow hkeys
  have hskip : skipIgnored s.inFlow false true ⟨line, lead tail⟩ (body tail) =
      (true, ⟨⟨line, lead tail⟩, body tail⟩) := by
    rw [hflow]
    exact skipIgnored_starts true _ htail
  exact ⟨⟨line, settle_eq hskip (mapM_refresh hkeys (Nat.le_refl _))⟩, Nat.le_refl _⟩

theorem closeBlocks_of_le {s : Scanner} (h : ∀ column ∈ s.indents.head?, column ≤ s.cursor.column) :
    s.closeBlocks (s.cursor.column < ·) = s := by
  obtain ⟨cursor, tokens, indents, keys, allowed⟩ := s
  cases indents with
  | nil => simp [closeBlocks]
  | cons column indents =>
    have hclosed : ¬ cursor.column < column := Nat.not_lt.2 (h column rfl)
    simp [closeBlocks, hclosed]

/-! ## Scalars -/

/-- The scanner in front of a value or an item, a space before it. -/
def atScalar (p : Position) (rest : List Char) (tokens : List Token) (indents : List Nat)
    (allowed : Bool) : Scanner :=
  ⟨⟨p, ' ' :: rest⟩, tokens, indents, [none], allowed⟩

theorem step_atScalar {p : Position} {c : Char} (hc : isVisible c = true) {column : Nat}
    (hp : column ≤ p.column) (rest : List Char) (tokens : List Token) (indents : List Nat)
    (allowed : Bool) :
    (atScalar p (c :: rest) tokens (column :: indents) allowed).step =
      (token ⟨⟨p.next, c :: rest⟩, tokens, column :: indents, [none], allowed⟩ c rest).map
        (·, false) := by
  have hskip : skipIgnored false false allowed p (' ' :: c :: rest) =
      (allowed, ⟨p.next, c :: rest⟩) :=
    (skipIgnored_spaces allowed 1 p (c :: rest)).trans (skipIgnored_visible allowed _ hc rest)
  have hsettle : (atScalar p (c :: rest) tokens (column :: indents) allowed).settle =
      some ⟨⟨p.next, c :: rest⟩, tokens, column :: indents, [none], allowed⟩ :=
    settle_eq hskip rfl
  have hopen : column ≤ p.next.column := Nat.le_succ_of_le hp
  rw [step_eq, hsettle, Option.bind_some, closeBlocks_of_le (by rintro _ ⟨⟩; exact hopen)]
  exact dispatch_cons rfl

/-- The key that is noted where the scanner stands, if one is allowed. -/
def noted (s : Scanner) : Option PossibleKey :=
  if s.keyAllowed then
    some ⟨s.indents.head? == some s.cursor.column, s.tokens.length, s.cursor.position⟩
  else none

theorem noteKey_eq {s : Scanner} (hkeys : s.keys = [none]) :
    s.noteKey = some { s with keys := [s.noted] } := by
  obtain ⟨cursor, tokens, indents, _, allowed⟩ := s
  subst hkeys
  cases allowed <;> rfl

theorem plainScalar_eq {s : Scanner} (hkeys : s.keys = [none]) {f : Fold} {cursor : Cursor}
    (hscan : scanPlain false s.leastIndent {} s.cursor.position s.cursor.rest = some (f, cursor)) :
    s.plainScalar = some { s with
      cursor := cursor
      tokens := s.tokens ++ [.scalar .plain f.text]
      keys := [s.noted]
      keyAllowed := f.broken } := by
  rw [plainScalar, noteKey_eq hkeys]
  exact congrArg (Option.bind · _) hscan

theorem quotedScalar_eq {s : Scanner} (hkeys : s.keys = [none]) {double : Bool} {f : Fold}
    {cursor : Cursor}
    (hscan : scanQuoted double .nothing {} (s.cursor.skip 1).position (s.cursor.skip 1).rest =
      some (f, cursor)) :
    s.quotedScalar double = some { s with
      cursor := cursor
      tokens := s.tokens ++ [.scalar (if double then .doubleQuoted else .singleQuoted) f.text]
      keys := [s.noted]
      keyAllowed := false } := by
  rw [quotedScalar, noteKey_eq hkeys]
  exact congrArg (Option.bind · _) hscan

theorem blockScalar_eq {s : Scanner} (hkeys : s.keys = [none]) {text : String} {cursor : Cursor}
    (hscan : scanBlock true s.leastIndent (s.cursor.skip 1) = some (text, cursor)) :
    s.blockScalar true = some { s with
      cursor := cursor
      tokens := s.tokens ++ [.scalar .literal text]
      keyAllowed := true } := by
  have hdrop : s.dropKey = some s := by simp [dropKey, hkeys]
  rw [blockScalar, hdrop]
  exact congrArg (Option.bind · _) hscan

/-- What a plain scalar starts with. -/
structure PlainStart (c : Char) (rest : List Char) : Prop where
  visible : isVisible c = true
  noBracket : isBracketOrComma c = false
  noIndicator : ∀ d ∈ ['&', '*', '!', '|', '>', '\'', '"', '%', '@', '\x60'], c ≠ d
  notAlone : c = '-' ∨ c = '?' ∨ c = ':' → blankNext rest = false

theorem plainStart_of_plainAllowed {c : Char} {cs : List Char} (h : plainAllowed (c :: cs) = true)
    (rest : List Char) : PlainStart c (cs ++ rest) := by
  have hprintable : isPrintable c = true := printable_of_plainAllowed h c List.mem_cons_self
  simp only [plainAllowed, Bool.and_eq_true, Bool.not_eq_true', List.head?_cons, Option.any_some,
    startsLikeToken, isSpaceOrBreak, Bool.or_eq_false_iff] at h
  obtain ⟨⟨⟨⟨-, hspace, hbreak⟩, -⟩, hstarts⟩, -⟩ := h
  have hmark : (c == byteOrderMark) = false := by
    simpa using ne_of_isPrintable hprintable rfl
  refine ⟨?_, by simp_all, ?_, ?_⟩
  · rw [isVisible, isBlank_of_isPrintable hprintable]
    simp_all
  · simp only [beq_eq_false_iff_ne] at hstarts
    simp [hstarts]
  · intro halone
    have hnext : blankNext cs = false := by
      rcases halone with rfl | rfl | rfl <;> simpa using hstarts.2
    cases cs with
    | nil => cases hnext
    | cons d cs => exact hnext

theorem PlainStart.alone {c : Char} {rest : List Char} (h : PlainStart c rest) {d : Char}
    (hd : d = '-' ∨ d = '?' ∨ d = ':') : (c == d && blankNext rest) = false := by
  cases hc : c == d with
  | false => rfl
  | true =>
    obtain rfl : c = d := by simpa using hc
    exact h.notAlone hd

theorem PlainStart.starts {c : Char} {rest : List Char} (h : PlainStart c rest) :
    plainStarts false c rest = true := by
  obtain ⟨hvisible, hbracket, hindicator, halone⟩ := h
  simp only [isVisible, Bool.not_eq_true', Bool.or_eq_false_iff] at hvisible
  obtain ⟨⟨⟨hblank, hbreak⟩, hcomment⟩, -⟩ := hvisible
  unfold plainStarts
  split_ifs with hdash hmark
  · have hnext : blankNext rest = false := halone (.inl (by simpa using hdash))
    cases rest with
    | nil => rfl
    | cons d rest => simpa using (Bool.or_eq_false_iff.1 hnext).1
  · have hnext : blankNext rest = false := halone (.inr (by simpa using hmark))
    simp [hnext]
  · simp at hindicator
    simp [hblank, hbreak, hbracket, hcomment, hindicator]

theorem token_plain {s : Scanner} (hmark : s.cursor.atDocumentMark = false)
    (hflow : s.inFlow = false) {c : Char} {rest : List Char} (h : PlainStart c rest) :
    s.token c rest = s.plainScalar := by
  have hdash := h.alone (.inl rfl)
  have hquestion := h.alone (.inr (.inl rfl))
  have hcolon := h.alone (.inr (.inr rfl))
  have hbracket := h.noBracket
  have hindicator := h.noIndicator
  simp only [isBracketOrComma, Bool.or_eq_false_iff, beq_eq_false_iff_ne] at hbracket
  simp only [List.mem_cons, forall_eq_or_imp] at hindicator
  rw [token, hmark, hflow, Bool.false_or, hdash, hquestion, hcolon, h.starts]
  simp [hbracket, hindicator]

theorem stale_noted {s : Scanner} (h : s.indents.head? ≠ some s.cursor.column) {line : Nat}
    (hline : s.cursor.position.line < line) : Stale line [s.noted] := by
  refine ⟨s.noted, rfl, ?_⟩
  intro k hk
  unfold noted at hk
  split_ifs at hk
  · obtain rfl := Option.some_inj.1 hk
    exact ⟨by simpa using h, hline⟩
  · cases hk

/-- One token is read, and the next one is the first of the line below. -/
def ReadsLine (s : Scanner) (t : Token) (tail : List Char) : Prop :=
  ∃ s', Steps s s' ∧ Stands s' tail (s.tokens ++ [t]) s.indents

theorem length_body_le (tail : List Char) : (body tail).length ≤ tail.length :=
  List.length_dropWhile_le _ _

section

variable {p : Position} {column : Nat} (hp : column ≤ p.column) (tokens : List Token)
  (indents : List Nat) (allowed : Bool) {tail : List Char} (htail : NextLine column tail)

include hp

theorem readsLine_of_token {c : Char} (hc : isVisible c = true) {rest : List Char} {t : Token}
    {s' : Scanner}
    (htoken : token ⟨⟨p.next, c :: rest⟩, tokens, column :: indents, [none], allowed⟩ c rest =
      some s')
    (hstands : Stands s' tail (tokens ++ [t]) (column :: indents))
    (hlength : s'.cursor.rest.length ≤ rest.length) :
    ReadsLine (atScalar p (c :: rest) tokens (column :: indents) allowed) t tail := by
  refine ⟨s', ⟨?_, ?_⟩, hstands⟩
  · rw [step_atScalar hc hp, htoken]
    rfl
  · simp only [atScalar, List.length_cons]
    omega

theorem stale_noted_value (rest : List Char) {line : Nat} (hline : p.line < line) :
    Stale line [noted ⟨⟨p.next, rest⟩, tokens, column :: indents, [none], allowed⟩] := by
  refine stale_noted ?_ hline
  simp only [List.head?_cons, Cursor.column, Position.next, ne_eq, Option.some_inj]
  omega

include htail

theorem readsLine_plain {cs : List Char} (hcs : plainAllowed cs = true) (hne : cs ≠ []) :
    ReadsLine (atScalar p (cs ++ '\n' :: tail) tokens (column :: indents) allowed)
      (.scalar .plain (String.ofList cs)) tail := by
  obtain ⟨c, cs, rfl⟩ := List.exists_cons_of_ne_nil hne
  have hstart := plainStart_of_plainAllowed hcs ('\n' :: tail)
  obtain ⟨f, hscan, htext, hbroken⟩ :=
    scanPlain_line (p := p.next) hcs (Nat.lt_succ_of_le hp) htail
  refine readsLine_of_token hp tokens indents allowed hstart.visible
    ((token_plain ?_ rfl hstart).trans (plainScalar_eq rfl hscan)) ?_ ?_
  · simp [Cursor.atDocumentMark, Cursor.column, Position.next]
  · rw [htext, hbroken]
    exact stands_of_body _ _ (stale_noted_value hp _ _ _ _ (Nat.lt_succ_self _)) htail.starts
  · have hbody := length_body_le tail
    simp
    omega

theorem readsLine_quoted (double : Bool) {quoted : List Char} {f : Fold} {p' : Position}
    (hscan : scanQuoted double .nothing {} p.next.next quoted = some (f, ⟨p', '\n' :: tail⟩))
    (hline : p.line ≤ p'.line) (hlength : tail.length < quoted.length) :
    ReadsLine (atScalar p ((if double then '"' else '\'') :: quoted) tokens (column :: indents)
        allowed)
      (.scalar (if double then .doubleQuoted else .singleQuoted) f.text) tail := by
  have htoken (c : Char) (hc : c = if double then '"' else '\'') :
      token ⟨⟨p.next, c :: quoted⟩, tokens, column :: indents, [none], allowed⟩ c quoted =
        quotedScalar ⟨⟨p.next, c :: quoted⟩, tokens, column :: indents, [none], allowed⟩
          double := by
    cases double <;> subst hc <;>
      simp [token, Cursor.atDocumentMark, Cursor.column, Position.next, inFlow]
  refine readsLine_of_token hp tokens indents allowed (by cases double <;> rfl)
    ((htoken _ rfl).trans (quotedScalar_eq rfl hscan)) ?_ hlength
  exact stands_of_feed _ _ _ (stale_noted_value hp _ _ _ _ (Nat.lt_succ_of_le hline)) htail.starts
    false

theorem readsLine_doubleQuoted (cs : List Char) :
    ReadsLine (atScalar p (writeDoubleQuoted cs ++ '\n' :: tail) tokens (column :: indents) allowed)
      (.scalar .doubleQuoted (String.ofList cs)) tail := by
  obtain ⟨quoted, f, p', hwritten, hscan, htext, hline⟩ :=
    scanQuoted_double cs (p := p.next.next) (Nat.succ_ne_zero _) ('\n' :: tail)
  have hlength : tail.length < quoted.length := by
    have hlengths := congrArg List.length hwritten
    simp [writeDoubleQuoted] at hlengths
    omega
  rw [hwritten, ← htext]
  exact readsLine_quoted hp tokens indents allowed htail true hscan hline hlength

theorem readsLine_singleQuoted {cs : List Char} (hallowed : singleQuotesAllowed cs = true)
    (hfeed : '\n' ∉ cs) {indent : Nat} (hindent : 0 < indent) :
    ReadsLine (atScalar p (writeSingleQuoted indent cs ++ '\n' :: tail) tokens (column :: indents)
      allowed) (.scalar .singleQuoted (String.ofList cs)) tail := by
  obtain ⟨quoted, f, p', hwritten, hscan, htext, hline⟩ := scanQuoted_single hallowed hfeed hindent
    (p := p.next.next) (Nat.succ_ne_zero _) (show ('\n' :: tail).head? ≠ some '\'' by simp)
  have hlength : tail.length < quoted.length := by
    have hlengths := congrArg List.length hwritten
    simp [writeSingleQuoted] at hlengths
    omega
  rw [hwritten, ← htext]
  exact readsLine_quoted hp tokens indents allowed htail false hscan hline hlength

theorem readsLine_literal {cs : List Char} (hallowed : literalAllowed cs = true) (hne : cs ≠ []) :
    ReadsLine (atScalar p (writeLiteral (column + indentStep) cs ++ tail) tokens (column :: indents)
      allowed) (.scalar .literal (String.ofList cs)) tail := by
  obtain ⟨block, line, hwritten, hscan, hline⟩ :=
    scanBlock_literal hallowed hne htail p.next.next
  have hlength : tail.length < block.length := by
    have hlengths := congrArg List.length hwritten
    simp [writeLiteral] at hlengths
    omega
  have htoken : token ⟨⟨p.next, '|' :: block⟩, tokens, column :: indents, [none], allowed⟩ '|'
      block = blockScalar ⟨⟨p.next, '|' :: block⟩, tokens, column :: indents, [none], allowed⟩
        true := by
    simp [token, Cursor.atDocumentMark, Cursor.column, Position.next, inFlow]
  rw [hwritten]
  refine readsLine_of_token hp tokens indents allowed rfl
    (htoken.trans (blockScalar_eq rfl hscan)) ?_ ?_
  · exact stands_of_body _ _ ⟨none, rfl, by simp⟩ htail.starts
  · exact Nat.le_of_lt (Nat.lt_of_le_of_lt (length_body_le tail) hlength)

/-- A text is read back from any of its written forms. -/
theorem readsLine_written {cs : List Char} {style : Style} {written : List Char}
    (h : Written (column + indentStep) cs style written) :
    ReadsLine (atScalar p (written ++ tail) tokens (column :: indents) allowed)
      (.scalar style (String.ofList cs)) tail := by
  cases h with
  | plain hvalue hplain =>
    have hne : cs ≠ [] := by
      rintro rfl
      cases hvalue
    rw [List.append_assoc]
    exact readsLine_plain hp tokens indents allowed htail hplain hne
  | singleQuoted hfeed hallowed =>
    rw [List.append_assoc]
    exact readsLine_singleQuoted hp tokens indents allowed htail hallowed hfeed
      (Nat.lt_add_left column (by decide))
  | literal hfeed hallowed =>
    exact readsLine_literal hp tokens indents allowed htail hallowed (List.ne_nil_of_mem hfeed)
  | doubleQuoted =>
    rw [List.append_assoc]
    exact readsLine_doubleQuoted hp tokens indents allowed htail cs

end

end FlexAudit.Yaml.Scanner
