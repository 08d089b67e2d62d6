import FlexAudit.Proofs.Yaml.Plain

/-!
# Quoted scalars are read back

Between double quotes every character is written in a way that is read as this character. Between
single quotes a text may hold line separators; the spaces that indent the lines behind them are
dropped again. Proved here:

* `scanQuoted_hexCode`: the digits of a code give the code;
* `scanQuoted_double`: a text in double quotes is read back;
* `scanQuoted_single`: so is one in single quotes.
-/

namespace FlexAudit.Yaml

/-! ## Double quotes -/

theorem hexValue?_hexDigit : ∀ d < 16,
    hexValue? (if d < 10 then Char.ofNat (48 + d) else Char.ofNat (55 + d)) = some d := by
  decide

theorem hexCode_succ (width n : Nat) :
    hexCode (width + 1) n =
      (if n / 16 ^ width % 16 < 10 then Char.ofNat (48 + n / 16 ^ width % 16)
        else Char.ofNat (55 + n / 16 ^ width % 16)) :: hexCode width n := by
  have hshift : n >>> (4 * width) = n / 16 ^ width := by
    rw [Nat.shiftRight_eq_div_pow, Nat.pow_mul]
  simp [hexCode, List.range_succ, hshift]

theorem charOfCode?_toNat (c : Char) : charOfCode? c.toNat = some c := by
  have hvalid : c.toNat.isValidChar := c.valid
  simp [charOfCode?, hvalid]

/-- The digits so far have given the leading part of a code, and the others complete it. -/
theorem scanQuoted_hexCode (c : Char) (width : Nat) (f : Fold) (p : Position)
    (rest : List Char) :
    scanQuoted true (.code (width + 1) (c.toNat / 16 ^ (width + 1))) f p
        (hexCode (width + 1) c.toNat ++ rest) =
      scanQuoted true .nothing (f.char c) (p.after (width + 1)) rest := by
  induction width generalizing p with
  | zero =>
    have hdigit := hexValue?_hexDigit (c.toNat % 16) (Nat.mod_lt _ (by decide))
    have hcode : c.toNat / 16 * 16 + c.toNat % 16 = c.toNat := Nat.div_add_mod' _ 16
    rw [hexCode_succ, List.cons_append, scanQuoted]
    simp [hdigit, hcode, charOfCode?_toNat, hexCode, Position.next, Position.after]
  | succ width ih =>
    have hdigit := hexValue?_hexDigit (c.toNat / 16 ^ (width + 1) % 16) (Nat.mod_lt _ (by decide))
    have hcode : c.toNat / 16 ^ (width + 1 + 1) * 16 + c.toNat / 16 ^ (width + 1) % 16 =
        c.toNat / 16 ^ (width + 1) := by
      rw [Nat.pow_succ 16 (width + 1), ← Nat.div_div_eq_div_mul]
      exact Nat.div_add_mod' _ 16
    rw [hexCode_succ, List.cons_append, scanQuoted]
    simp only [hdigit, Option.bind_eq_bind, Option.bind_some, hcode]
    rw [if_neg (by omega), Nat.add_sub_cancel, ih, Position.after_next]

/-- A character that stands for itself. -/
theorem scanQuoted_char {double : Bool} (f : Fold) {p : Position} (hp : p.column ≠ 0) {c : Char}
    (hprintable : isPrintable c = true) (hbreak : isBreak c = false)
    (hdouble : double = true → c ≠ '"' ∧ c ≠ '\\') (hsingle : double = false → c ≠ '\'')
    (rest : List Char) :
    scanQuoted double .nothing f p (c :: rest) =
      scanQuoted double .nothing (f.next c) p.next rest := by
  have hcolumn : (p.column == 0) = false := by simpa using hp
  rw [scanQuoted, isBlank_of_isPrintable hprintable, hbreak, hcolumn]
  unfold Fold.next
  cases double with
  | false =>
    have hquote : (c == '\'') = false := by simpa using hsingle rfl
    rw [hquote]
    cases c == ' ' <;> rfl
  | true =>
    have hquote : (c == '"') = false := by simpa using (hdouble rfl).1
    have hbackslash : (c == '\\') = false := by simpa using (hdouble rfl).2
    rw [hquote, hbackslash]
    cases c == ' ' <;> rfl

/-- What has been read between quotes without a line break, at a position inside of the line. -/
structure InLine (f : Fold) (p : Position) : Prop where
  unbroken : f.broken = false
  inside : p.column ≠ 0

theorem scanQuoted_backslash (f : Fold) {p : Position} (hp : p.column ≠ 0) (rest : List Char) :
    scanQuoted true .nothing f p ('\\' :: rest) = scanQuoted true .backslash f p.next rest := by
  rw [scanQuoted]
  simp [hp, isBlank, isBreak]

theorem scanQuoted_escaped {c : Char} {written : List Char} (h : Escaped c written) {f : Fold}
    {p : Position} (hline : InLine f p) (rest : List Char) :
    ∃ f' p', scanQuoted true .nothing f p (written ++ rest) = scanQuoted true .nothing f' p' rest ∧
      InLine f' p' ∧ f'.newest = c :: f.newest ∧ p'.line = p.line := by
  obtain ⟨hf, hp⟩ := hline
  cases h with
  | self hprintable hbreak hquote hbackslash =>
    refine ⟨f.next c, p.next, ?_, ⟨Fold.broken_next hf c, Nat.succ_ne_zero _⟩,
      Fold.newest_next hf c, rfl⟩
    exact scanQuoted_char f hp hprintable hbreak (fun _ => ⟨hquote, hbackslash⟩) (by simp) rest
  | @letter d hletter _ hbreak =>
    refine ⟨f.char c, p.next.next, ?_, ⟨rfl, Nat.succ_ne_zero _⟩, rfl, rfl⟩
    rw [List.cons_append, scanQuoted_backslash f hp, List.singleton_append, scanQuoted, hbreak,
      hletter]
    rfl
  | @code d width hletter _ hbreak hcode =>
    refine ⟨f.char c, p.next.next.after (width + 1), ?_, ⟨rfl, ?_⟩, rfl, rfl⟩
    · have hzero : c.toNat / 16 ^ (width + 1) = 0 := Nat.div_eq_of_lt hcode
      rw [List.cons_append, scanQuoted_backslash f hp, List.cons_append, scanQuoted, hbreak,
        hletter, ← scanQuoted_hexCode, hzero]
      rfl
    · simp [Position.after]

theorem scanQuoted_escapes (cs : List Char) {f : Fold} {p : Position} (hline : InLine f p)
    (rest : List Char) :
    ∃ f' p', scanQuoted true .nothing f p (cs.flatMap escapeChar ++ rest) =
        scanQuoted true .nothing f' p' rest ∧
      InLine f' p' ∧ f'.newest = cs.reverse ++ f.newest ∧ p'.line = p.line := by
  induction cs generalizing f p with
  | nil => exact ⟨f, p, rfl, hline, rfl, rfl⟩
  | cons c cs ih =>
    obtain ⟨f₁, p₁, hstep, hline₁, hread₁, hp₁⟩ :=
      scanQuoted_escaped (escaped_escapeChar c) hline (cs.flatMap escapeChar ++ rest)
    obtain ⟨f₂, p₂, hrun, hline₂, hread₂, hp₂⟩ := ih hline₁
    refine ⟨f₂, p₂, ?_, hline₂, ?_, hp₂.trans hp₁⟩
    · rw [List.flatMap_cons, List.append_assoc, hstep, hrun]
    · rw [hread₂, hread₁]
      simp

/-- A text in double quotes is read back. -/
theorem scanQuoted_double (cs : List Char) {p : Position} (hp : p.column ≠ 0) (rest : List Char) :
    ∃ quoted f p', writeDoubleQuoted cs ++ rest = '"' :: quoted ∧
      scanQuoted true .nothing {} p quoted = some (f, ⟨p', rest⟩) ∧
      f.text = String.ofList cs ∧ p.line ≤ p'.line := by
  obtain ⟨f, p', hrun, ⟨-, hcolumn⟩, hread, hline⟩ :=
    scanQuoted_escapes cs (f := {}) ⟨rfl, hp⟩ ('"' :: rest)
  refine ⟨cs.flatMap escapeChar ++ '"' :: rest, f.join, p'.next, ?_, ?_, ?_,
    Nat.le_of_eq hline.symm⟩
  · simp [writeDoubleQuoted]
  · rw [hrun, scanQuoted]
    simp [hcolumn, isBlank, isBreak]
  · have hdone : f.join.done = cs.reverse ++ [] := hread
    rw [Fold.text, hdone]
    simp

/-! ## Single quotes -/

/-- Whether folding keeps the breaks of a text: none is a line feed, and no space stands beside
one. `blank` and `broken` say what stands in front. -/
def keepsBreaks (blank broken : Bool) : List Char → Bool
  | [] => true
  | c :: rest =>
    if isBreak c then !blank && c != '\n' && keepsBreaks false true rest
    else isPrintable c && !(broken && c == ' ') && keepsBreaks (c == ' ') false rest

theorem singleQuotesAllowed_tail {c : Char} {cs : List Char}
    (h : singleQuotesAllowed (c :: cs) = true) : singleQuotesAllowed cs = true := by
  simp only [singleQuotesAllowed, Bool.not_eq_true', Bool.or_eq_false_iff, hasBreakSpace,
    hasSpaceBreak, hasSpecial, List.any_cons] at h ⊢
  obtain ⟨⟨hafter, hbefore⟩, -, hspecial⟩ := h
  cases cs with
  | nil => exact ⟨⟨rfl, rfl⟩, rfl⟩
  | cons d cs =>
    rw [anyNeighbours_cons_cons, Bool.or_eq_false_iff] at hafter hbefore
    exact ⟨⟨hafter.2, hbefore.2⟩, hspecial⟩

theorem neighbours_of_singleQuotesAllowed {c : Char} {cs : List Char}
    (h : singleQuotesAllowed (c :: cs) = true) :
    (isBreak c = true → cs.head? ≠ some ' ') ∧ (c = ' ' → cs.head?.any isBreak = false) := by
  simp only [singleQuotesAllowed, Bool.not_eq_true', Bool.or_eq_false_iff, hasBreakSpace,
    hasSpaceBreak] at h
  obtain ⟨⟨hafter, hbefore⟩, -⟩ := h
  cases cs with
  | nil => simp
  | cons d cs =>
    rw [anyNeighbours_cons_cons, Bool.or_eq_false_iff] at hafter hbefore
    constructor
    · intro hbreak
      simpa [hbreak] using hafter.1
    · rintro rfl
      simpa using hbefore.1

theorem keepsBreaks_of_singleQuotesAllowed {cs : List Char}
    (hallowed : singleQuotesAllowed cs = true) (hfeed : '\n' ∉ cs) {blank broken : Bool}
    (hblank : blank = true → cs.head?.any isBreak = false)
    (hbroken : broken = true → cs.head? ≠ some ' ') : keepsBreaks blank broken cs = true := by
  induction cs generalizing blank broken with
  | nil => rfl
  | cons c cs ih =>
    have hc : isPrintable c = true :=
      printable_of_singleQuotesAllowed hallowed c List.mem_cons_self
    obtain ⟨hcfeed, hfeed⟩ : '\n' ≠ c ∧ '\n' ∉ cs := by simpa using hfeed
    have htail := singleQuotesAllowed_tail hallowed
    obtain ⟨hafter, hbefore⟩ := neighbours_of_singleQuotesAllowed hallowed
    rw [keepsBreaks]
    split_ifs with hbreak
    · have hb : blank = false := by
        cases blank with
        | false => rfl
        | true => simp [hbreak] at hblank
      have hrest : keepsBreaks false true cs = true :=
        ih htail hfeed (by simp) fun _ => hafter hbreak
      simp [hb, hcfeed.symm, hrest]
    · have hspace : (broken && c == ' ') = false := by
        cases broken with
        | false => rfl
        | true => simpa using hbroken rfl
      rw [hc, hspace, ih htail hfeed (fun h => hbefore (by simpa using h)) (by simp)]
      rfl

theorem documentMarkNext_cons {c : Char} (hdash : c ≠ '-') (hdot : c ≠ '.') (rest : List Char) :
    documentMarkNext (c :: rest) = false := by
  match rest with
  | [] => rfl
  | [_] => rfl
  | _ :: _ :: _ => simp [documentMarkNext, hdash, hdot]

theorem isBlank_of_isBreak {c : Char} (hc : isBreak c = true) : isBlank c = false := by
  simp only [isBreak, Bool.or_eq_true, beq_iff_eq] at hc
  rcases hc with (((rfl | rfl) | rfl) | rfl) | rfl <;> rfl

theorem Fold.newest_of_broken {f : Fold} (hf : f.broken = true) {c : Char}
    (hfirst : f.first = some c) (hc : c ≠ '\n') : f.newest = f.more ++ c :: f.done := by
  have hseparator : f.separator = f.more ++ [c] := by
    rw [separator, if_pos hf, hfirst]
    split
    · next heq => exact absurd (Option.some_inj.1 heq) hc
    · rfl
  rw [newest, join, hseparator]
  simp

/-- What has been read between single quotes: behind a break that folding keeps, or inside of a
line. -/
inductive Quoting : Bool → Bool → Fold → Position → Prop
  | broken {f : Fold} {p : Position} {c : Char} (hf : f.broken = true) (hfirst : f.first = some c)
    (hc : c ≠ '\n') : Quoting false true f p
  | inLine {blank : Bool} {f : Fold} {p : Position} (hf : f.broken = false)
    (hpending : f.pending = blank) (hmore : f.more = []) (hp : p.column ≠ 0) :
    Quoting blank false f p

theorem Quoting.next {f : Fold} {p : Position} {blank broken : Bool}
    (h : Quoting blank broken f p) {c : Char} (hc : (broken && c == ' ') = false) {p' : Position}
    (hp : p'.column ≠ 0) :
    Quoting (c == ' ') false (f.next c) p' ∧ (f.next c).newest = c :: f.newest := by
  cases h with
  | broken hf _ _ =>
    have hspace : (c == ' ') = false := hc
    have hnext : f.next c = f.char c := by
      rw [Fold.next, hspace]
      rfl
    rw [hnext, hspace]
    exact ⟨.inLine rfl rfl rfl hp, rfl⟩
  | inLine hf _ hmore _ =>
    have hmore : (f.next c).more = [] := by
      unfold Fold.next Fold.blank
      split_ifs <;> simp_all [Fold.char]
    exact ⟨.inLine (Fold.broken_next hf c) (Fold.pending_next hf c) hmore hp, Fold.newest_next hf c⟩

theorem Quoting.lineBreak {f : Fold} {p : Position} {broken : Bool} (h : Quoting false broken f p)
    {c : Char} (hc : c ≠ '\n') (p' : Position) :
    Quoting false true (f.lineBreak c) p' ∧ (f.lineBreak c).newest = c :: f.newest := by
  cases h with
  | @broken _ _ first hf hfirst hfeed =>
    have hbreak : f.lineBreak c = { f with more := c :: f.more } := by simp [Fold.lineBreak, hf]
    rw [hbreak]
    refine ⟨.broken hf hfirst hfeed, ?_⟩
    rw [Fold.newest_of_broken hf hfirst hfeed]
    exact Fold.newest_of_broken (f := { f with more := c :: f.more }) hf hfirst hfeed
  | inLine hf hpending hmore _ =>
    have hbreak : f.lineBreak c = { f with spaces := [], broken := true, first := some c } := by
      simp [Fold.lineBreak, hf]
    have hnewest : f.newest = f.done := by
      have hspaces : f.spaces = [] := by simpa [Fold.pending, hf] using hpending
      simp [Fold.newest, Fold.join, Fold.separator, hf, hspaces]
    rw [hbreak, hnewest]
    refine ⟨.broken rfl rfl hc, ?_⟩
    rw [Fold.newest_of_broken rfl rfl hc, hmore]
    rfl

theorem scanQuoted_break {c : Char} (hc : isBreak c = true) (f : Fold) (p : Position)
    (rest : List Char) :
    scanQuoted false .nothing f p (c :: rest) =
      scanQuoted false .nothing (f.lineBreak c) p.nextLine rest := by
  have hmark : documentMarkNext (c :: rest) = false :=
    documentMarkNext_cons (by rintro rfl; cases hc) (by rintro rfl; cases hc) rest
  rw [scanQuoted, isBlank_of_isBreak hc, hc, hmark]
  simp

theorem scanQuoted_spaces {f : Fold} (hf : f.broken = true) (n : Nat) (p : Position)
    (rest : List Char) : scanQuoted false .nothing f p (spaces n ++ rest) =
      scanQuoted false .nothing f (p.after n) rest := by
  induction n generalizing p with
  | zero => rfl
  | succ n ih =>
    have hblank : f.blank ' ' = f := by simp [Fold.blank, hf]
    have hcons : spaces (n + 1) ++ rest = ' ' :: (spaces n ++ rest) := rfl
    have hmark : documentMarkNext (' ' :: (spaces n ++ rest)) = false :=
      documentMarkNext_cons (by decide) (by decide) _
    have hspace : isBlank ' ' = true := rfl
    rw [hcons, scanQuoted, hmark, hspace, hblank, ih, Position.after_next]
    simp

/-- The written form of a character between single quotes. -/
def quoteChar (c : Char) : List Char :=
  if c == '\'' then ['\'', '\''] else [c]

theorem writeSingleQuoted_eq (indent : Nat) (cs : List Char) :
    writeSingleQuoted indent cs = '\'' :: indentLines indent quoteChar false cs
      ++ (if cs.getLast?.any isBreak then spaces indent else []) ++ ['\''] := rfl

theorem scanQuoted_quoteChar (f : Fold) {p : Position} (hp : p.column ≠ 0) {c : Char}
    (hprintable : isPrintable c = true) (hbreak : isBreak c = false) (rest : List Char) :
    ∃ p', scanQuoted false .nothing f p (quoteChar c ++ rest) =
        scanQuoted false .nothing (f.next c) p' rest ∧ p'.column ≠ 0 ∧ p'.line = p.line := by
  unfold quoteChar
  split_ifs with hquote
  · obtain rfl : c = '\'' := by simpa using hquote
    refine ⟨p.next.next, ?_, Nat.succ_ne_zero _, rfl⟩
    rw [List.cons_append, scanQuoted]
    simp [hp, isBlank, isBreak, scanQuoted, Fold.next]
  · have hchar : c ≠ '\'' := by simpa using hquote
    exact ⟨p.next, scanQuoted_char f hp hprintable hbreak (by simp) (fun _ => hchar) rest,
      Nat.succ_ne_zero _, rfl⟩

/-- The indentation of a line is dropped. -/
theorem Quoting.indentation {indent : Nat} (hindent : 0 < indent) {blank broken : Bool} {f : Fold}
    {p : Position} (h : Quoting blank broken f p) (rest : List Char) :
    ∃ p', scanQuoted false .nothing f p ((if broken then spaces indent else []) ++ rest) =
        scanQuoted false .nothing f p' rest ∧ p'.column ≠ 0 ∧ p'.line = p.line := by
  cases h with
  | broken hf _ _ =>
    refine ⟨p.after indent, scanQuoted_spaces hf indent p rest, ?_, rfl⟩
    exact Nat.ne_of_gt (Nat.add_pos_right p.column hindent)
  | inLine _ _ _ hp => exact ⟨p, rfl, hp, rfl⟩

theorem getLast?_cons_elim {β : Type} (c : Char) (cs : List Char) (b : β) (g : Char → β) :
    (c :: cs).getLast?.elim b g = cs.getLast?.elim (g c) g := by
  rw [List.getLast?_cons]
  cases cs.getLast? <;> rfl

/-- The lines of a text, with the indentation in front of those behind a break. -/
theorem scanQuoted_indentLines {indent : Nat} (hindent : 0 < indent) {cs : List Char}
    {blank broken : Bool} (hcs : keepsBreaks blank broken cs = true) {f : Fold} {p : Position}
    (h : Quoting blank broken f p) (rest : List Char) :
    ∃ blank' f' p', scanQuoted false .nothing f p
          (indentLines indent quoteChar broken cs ++ rest) =
        scanQuoted false .nothing f' p' rest ∧
      Quoting blank' (cs.getLast?.elim broken isBreak) f' p' ∧
      f'.newest = cs.reverse ++ f.newest ∧ p.line ≤ p'.line := by
  induction cs generalizing blank broken f p with
  | nil => exact ⟨blank, f, p, rfl, h, rfl, Nat.le_refl _⟩
  | cons c cs ih =>
    rw [keepsBreaks] at hcs
    rw [indentLines, getLast?_cons_elim]
    cases hbreak : isBreak c with
    | true =>
      simp only [hbreak, if_true, Bool.and_eq_true, Bool.not_eq_true', bne_iff_ne] at hcs
      obtain ⟨⟨rfl, hfeed⟩, hcs⟩ := hcs
      obtain ⟨hnext, hread⟩ := h.lineBreak hfeed p.nextLine
      obtain ⟨blank', f', p', hrun, hlast, hread', hline⟩ := ih hcs hnext
      refine ⟨blank', f', p', ?_, hlast, ?_, Nat.le_of_succ_le hline⟩
      · rw [if_pos rfl, List.cons_append, scanQuoted_break hbreak, hrun]
      · rw [hread', hread]
        simp
    | false =>
      simp only [hbreak, Bool.false_eq_true, if_false, Bool.and_eq_true, Bool.not_eq_true'] at hcs
      obtain ⟨⟨hprintable, hspace⟩, hcs⟩ := hcs
      obtain ⟨p₁, hindented, hp₁, hline₁⟩ :=
        h.indentation hindent (quoteChar c ++ (indentLines indent quoteChar false cs ++ rest))
      obtain ⟨p₂, hchar, hp₂, hline₂⟩ := scanQuoted_quoteChar f hp₁ hprintable hbreak
        (indentLines indent quoteChar false cs ++ rest)
      obtain ⟨hnext, hread⟩ := h.next hspace hp₂
      obtain ⟨blank', f', p', hrun, hlast, hread', hline⟩ := ih hcs hnext
      refine ⟨blank', f', p', ?_, hlast, ?_, by omega⟩
      · rw [if_neg (by simp), List.append_assoc, List.append_assoc, hindented, hchar, hrun]
      · rw [hread', hread]
        simp

/-- A quote that is not followed by another one ends the scalar. -/
theorem scanQuoted_close (f : Fold) {p : Position} (hp : p.column ≠ 0) {rest : List Char}
    (hrest : rest.head? ≠ some '\'') :
    scanQuoted false .nothing f p ('\'' :: rest) = some (f.join, ⟨p.next, rest⟩) := by
  have hquote : scanQuoted false .nothing f p ('\'' :: rest) =
      scanQuoted false .quote f p.next rest := by
    rw [scanQuoted]
    simp [hp, isBlank, isBreak]
  rw [hquote]
  cases rest with
  | nil => rfl
  | cons c rest =>
    have hc : (c == '\'') = false := by simpa using hrest
    rw [scanQuoted, hc]
    rfl

/-- A text in single quotes is read back. -/
theorem scanQuoted_single {cs : List Char} (hallowed : singleQuotesAllowed cs = true)
    (hfeed : '\n' ∉ cs) {indent : Nat} (hindent : 0 < indent) {p : Position} (hp : p.column ≠ 0)
    {rest : List Char} (hrest : rest.head? ≠ some '\'') :
    ∃ quoted f p', writeSingleQuoted indent cs ++ rest = '\'' :: quoted ∧
      scanQuoted false .nothing {} p quoted = some (f, ⟨p', rest⟩) ∧
      f.text = String.ofList cs ∧ p.line ≤ p'.line := by
  have hkeeps : keepsBreaks false false cs = true :=
    keepsBreaks_of_singleQuotesAllowed hallowed hfeed (by simp) (by simp)
  have hstart : Quoting false false {} p := .inLine rfl rfl rfl hp
  obtain ⟨blank, f, p₁, hrun, hquoting, hread, hline₁⟩ :=
    scanQuoted_indentLines hindent hkeeps hstart
      ((if cs.getLast?.any isBreak then spaces indent else []) ++ '\'' :: rest)
  have hlast : cs.getLast?.elim false isBreak = cs.getLast?.any isBreak := by
    cases cs.getLast? <;> rfl
  rw [hlast] at hquoting
  obtain ⟨p₂, hindented, hp₂, hline₂⟩ := hquoting.indentation hindent ('\'' :: rest)
  refine ⟨indentLines indent quoteChar false cs ++
    ((if cs.getLast?.any isBreak then spaces indent else []) ++ '\'' :: rest),
    f.join, p₂.next, ?_, ?_, ?_, ?_⟩
  · rw [writeSingleQuoted_eq]
    simp
  · rw [hrun, hindented, scanQuoted_close f hp₂ hrest]
  · have hdone : f.join.done = cs.reverse ++ [] := hread
    rw [Fold.text, hdone]
    simp
  · change p.line ≤ p₂.line
    omega

end FlexAudit.Yaml
