import FlexAudit.Proofs.Yaml.Quoted

/-!
# Literal blocks are read back

A text of several lines is written line by line behind an indentation. Proved here:

* `Block.scan_indentLines`: the lines of a block are read back, whatever they hold;
* `BlockHeader.read_indicators`: so is what its indicators say;
* `scanBlock_literal`: a literal block is read back, up to the line below it.
-/

namespace FlexAudit.Yaml

/-! ## Lines -/

namespace Block

/-- The text that has been read, newest first, with the breaks that may be dropped. -/
def newest (b : Block) : List Char := b.more ++ (b.ended.toList ++ b.done)

/-- A block whose indentation is known: in front of a line, or inside of one. -/
inductive Reading (indent : Nat) : Bool → Block → Position → Prop
  | between {b : Block} {p : Position} (hline : b.inLine = false) (hindent : b.indent = some indent)
    (hp : p.column = 0) : Reading indent true b p
  | inside {b : Block} {p : Position} (hline : b.inLine = true) (hindent : b.indent = some indent)
    (hended : b.ended = none) (hmore : b.more = []) : Reading indent false b p

theorem scan_spaces {b : Block} (hline : b.inLine = false) (least : Nat) {n : Nat} {p : Position}
    (hindent : ∀ k ∈ b.indent, p.column + n ≤ k) (rest : List Char) :
    scan true least b p (spaces n ++ rest) = scan true least b (p.after n) rest := by
  induction n generalizing p with
  | zero => rfl
  | succ n ih =>
    have hcons : spaces (n + 1) ++ rest = ' ' :: (spaces n ++ rest) := rfl
    have hwithin : b.indent.all (p.column < ·) = true := by
      rw [Option.all_eq_true]
      intro k hk
      have := hindent k hk
      simp
      omega
    have hnext : ∀ k ∈ b.indent, p.next.column + n ≤ k := by
      intro k hk
      have := hindent k hk
      simp only [Position.next]
      omega
    rw [hcons, scan, hline, hwithin, ← Position.after_next, ← ih hnext]
    simp

/-- The block behind the first character of a line. -/
def opened (b : Block) (indent : Nat) (c : Char) : Block :=
  let b := { b with indent := some indent }.startLine true c
  { b with done := c :: b.done }

theorem reading_opened (b : Block) (indent : Nat) (c : Char) (p : Position) :
    Reading indent false (b.opened indent c) p :=
  .inside rfl rfl rfl rfl

theorem newest_opened (b : Block) (indent : Nat) (c : Char) :
    (b.opened indent c).newest = c :: b.newest := by
  simp [opened, startLine, newest]

/-- The first character of a line. Where the indentation is not known, it shows it. -/
theorem scan_start {b : Block} (hline : b.inLine = false) {indent least : Nat} {c : Char}
    (hindent : b.indent = some indent ∨ b.indent = none ∧ b.widest ≤ indent ∧ least ≤ indent ∧
      0 < indent ∧ c ≠ ' ' ∧ c ≠ '\t')
    (hc : isBreak c = false) {p : Position} (hp : p.column = indent) (rest : List Char) :
    scan true least b p (c :: rest) = scan true least (b.opened indent c) p.next rest := by
  have hspace (d : Char) (hd : b.indent = none → c ≠ d) :
      (b.indent.all (p.column < ·) && c == d) = false := by
    rcases hindent with hknown | ⟨hnone, -⟩
    · simp [hknown, hp]
    · simpa [hnone] using hd hnone
  have htab := hspace '\t' (by rcases hindent with h | h <;> simp [h])
  have hblank := hspace ' ' (by rcases hindent with h | h <;> simp [h])
  have hfound : b.indent.getD (max (max b.widest p.column) (max least 1)) = indent := by
    rcases hindent with hknown | ⟨hnone, hwidest, hleast, hpos, -⟩
    · simp [hknown]
    · rw [hnone, Option.getD_none, hp]
      omega
  rw [scan]
  dsimp only
  rw [hline, hblank, htab, hc, hfound, hp, beq_self_eq_true]
  rfl

/-- One more break between two lines. -/
theorem scan_break {b : Block} {indent : Nat} {broken : Bool} {p : Position}
    (h : Reading indent broken b p) {c : Char} (hc : isBreak c = true) (least : Nat)
    (rest : List Char) :
    ∃ b', scan true least b p (c :: rest) = scan true least b' p.nextLine rest ∧
      Reading indent true b' p.nextLine ∧ b'.newest = c :: b.newest := by
  cases h with
  | between hline hknown hp =>
    refine ⟨{ b with more := c :: b.more, widest := max b.widest p.column }, ?_,
      .between hline hknown rfl, rfl⟩
    have hspace : (c == ' ') = false := by
      rw [beq_eq_false_iff_ne]
      rintro rfl
      cases hc
    have htab : (c == '\t') = false := by
      rw [beq_eq_false_iff_ne]
      rintro rfl
      cases hc
    rw [scan]
    dsimp only
    rw [hline, hspace, htab, hc, Bool.and_false]
    rfl
  | inside hline hknown hended hmore =>
    refine ⟨{ b with ended := some c, inLine := false }, ?_, .between rfl hknown rfl, ?_⟩
    · rw [scan, hline, hc]
      rfl
    · simp [newest, hended, hmore]

/-- One more character of a text. -/
theorem scan_char {b : Block} {indent : Nat} {broken : Bool} {p : Position}
    (h : Reading indent broken b p) {c : Char} (hc : isBreak c = false) (least : Nat)
    (rest : List Char) :
    ∃ b' p', scan true least b p ((if broken then spaces indent else []) ++ c :: rest) =
        scan true least b' p' rest ∧
      Reading indent false b' p' ∧ b'.newest = c :: b.newest ∧ p'.line = p.line := by
  cases h with
  | between hline hknown hp =>
    refine ⟨b.opened indent c, (p.after indent).next, ?_, reading_opened b indent c _,
      newest_opened b indent c, rfl⟩
    have hwithin : ∀ k ∈ b.indent, p.column + indent ≤ k := by
      intro k hk
      rw [hknown] at hk
      simp at hk
      omega
    have hcolumn : (p.after indent).column = indent := by simp [Position.after, hp]
    rw [if_pos rfl, scan_spaces hline least hwithin, scan_start hline (.inl hknown) hc hcolumn]
  | inside hline hknown hended hmore =>
    refine ⟨{ b with done := c :: b.done }, p.next, ?_, .inside hline hknown hended hmore, ?_, rfl⟩
    · rw [if_neg (by simp), List.nil_append, scan, hline, hc]
      rfl
    · simp [newest, hended, hmore]

theorem scan_indentLines (least : Nat) (cs : List Char) {indent : Nat} {broken : Bool} {b : Block}
    {p : Position} (h : Reading indent broken b p) (rest : List Char) :
    ∃ b' p', scan true least b p (indentLines indent (fun c => [c]) broken cs ++ rest) =
        scan true least b' p' rest ∧
      Reading indent (cs.getLast?.elim broken isBreak) b' p' ∧
      b'.newest = cs.reverse ++ b.newest ∧ p.line ≤ p'.line := by
  induction cs generalizing broken b p with
  | nil => exact ⟨b, p, rfl, h, rfl, Nat.le_refl _⟩
  | cons c cs ih =>
    rw [indentLines, getLast?_cons_elim]
    cases hbreak : isBreak c with
    | true =>
      obtain ⟨b₁, hstep, hread₁, hnewest₁⟩ :=
        scan_break h hbreak least (indentLines indent (fun c => [c]) true cs ++ rest)
      obtain ⟨b', p', hrun, hread, hnewest, hline⟩ := ih hread₁
      refine ⟨b', p', ?_, hread, ?_, Nat.le_of_succ_le hline⟩
      · rw [if_pos rfl, List.cons_append, hstep, hrun]
      · rw [hnewest, hnewest₁]
        simp
    | false =>
      obtain ⟨b₁, p₁, hstep, hread₁, hnewest₁, hline₁⟩ :=
        scan_char h hbreak least (indentLines indent (fun c => [c]) false cs ++ rest)
      obtain ⟨b', p', hrun, hread, hnewest, hline⟩ := ih hread₁
      refine ⟨b', p', ?_, hread, ?_, by omega⟩
      · rw [if_neg (by simp), List.append_assoc, List.append_assoc, List.singleton_append, hstep,
          hrun]
      · rw [hnewest, hnewest₁]
        simp

/-- The line below is not indented enough to belong to the block. -/
theorem scan_tail {b : Block} {indent column : Nat} {p : Position} (h : Reading indent true b p)
    {tail : List Char} (htail : NextLine column tail) (hcolumn : column < indent) (least : Nat) :
    scan true least b p tail = some (b, ⟨⟨p.line, lead tail⟩, body tail⟩) := by
  cases h with
  | between hline hknown hp =>
    have hlead : lead tail < indent := Nat.lt_of_le_of_lt htail.lead_le hcolumn
    have hwithin : ∀ k ∈ b.indent, p.column + lead tail ≤ k := by
      intro k hk
      rw [hknown] at hk
      simp at hk
      omega
    have hafter : p.after (lead tail) = ⟨p.line, lead tail⟩ := by simp [Position.after, hp]
    conv => lhs; rw [← spaces_lead_append_body tail]
    rw [scan_spaces hline least hwithin, hafter]
    cases hbody : body tail with
    | nil => rfl
    | cons c rest =>
      have hc : isMark c = true := htail.starts c (by rw [hbody]; rfl)
      have hspace : (c == ' ') = false := by simpa using ne_of_isMark hc rfl
      have htab : (c == '\t') = false := by simpa using ne_of_isMark hc rfl
      have hstop : (lead tail == indent) = false := by simpa using Nat.ne_of_lt hlead
      rw [scan]
      dsimp only
      rw [hline, hspace, htab, isBreak_of_isMark hc, hknown, Option.getD_some, hstop,
        Bool.and_false]
      rfl

/-- The break that ends the last line, in front of the line below. -/
theorem scan_close {b : Block} {indent column : Nat} {p : Position} (h : Reading indent false b p)
    {c : Char} (hc : isBreak c = true) {tail : List Char} (htail : NextLine column tail)
    (hcolumn : column < indent) (least : Nat) :
    scan true least b p (c :: tail) =
        some ({ b with ended := some c, inLine := false }, ⟨⟨p.line + 1, lead tail⟩, body tail⟩) ∧
      b.done = b.newest := by
  cases h with
  | inside hline hknown hended hmore =>
    refine ⟨?_, by simp [newest, hended, hmore]⟩
    have hnext : Reading indent true { b with ended := some c, inLine := false } p.nextLine :=
      .between rfl hknown rfl
    rw [scan, hline, hc]
    exact scan_tail hnext htail hcolumn least

end Block

/-! ## Indicators -/

/-- What becomes of the breaks at the end of a text, and the mark that says so. -/
inductive Chomps (cs : List Char) : Chomping → List Char → Prop
  | strip : cs.getLast?.any isBreak = false → Chomps cs .strip ['-']
  | clip {init : List Char} {d c : Char} : cs = init ++ [d, c] → isBreak d = false →
    isBreak c = true → Chomps cs .clip []
  | keep : cs.getLast?.any isBreak = true → Chomps cs .keep ['+']

/-- A digit gives the indentation where the first line does not show it. -/
def indentDigit (cs : List Char) : List Char :=
  if cs.head?.any isSpaceOrBreak then ['2'] else []

theorem literalHeader_eq (cs : List Char) :
    ∃ chomping mark, Chomps cs chomping mark ∧ literalHeader cs = indentDigit cs ++ mark := by
  have hdigit : (if cs.head?.any isSpaceOrBreak then Nat.toDigits 10 indentStep else []) =
      indentDigit cs := rfl
  rw [literalHeader, hdigit]
  rcases hreverse : cs.reverse with _ | ⟨c, _ | ⟨d, init⟩⟩ <;> rw [List.reverse_eq_iff] at hreverse
  · exact ⟨_, _, .strip (by simp [hreverse]), rfl⟩
  · cases hc : isBreak c with
    | false => exact ⟨_, _, .strip (by simp [hreverse, hc]), by simp [hc]⟩
    | true => exact ⟨_, _, .keep (by simp [hreverse, hc]), by simp [hc]⟩
  · cases hc : isBreak c with
    | false => exact ⟨_, _, .strip (by simp [hreverse, hc]), by simp [hc]⟩
    | true =>
      cases hd : isBreak d with
      | false => exact ⟨_, _, .clip (by simpa using hreverse) hd hc, by simp [hc, hd]⟩
      | true => exact ⟨_, _, .keep (by simp [hreverse, hc]), by simp [hc, hd]⟩

theorem BlockHeader.read_indicators {cs : List Char} {chomping : Chomping} {mark : List Char}
    (h : Chomps cs chomping mark) (digit : Bool) (p : Position) (rest : List Char) :
    ∃ p', read ⟨p, (if digit then ['2'] else []) ++ (mark ++ '\n' :: rest)⟩ =
        some (⟨chomping, if digit then some 2 else none⟩, ⟨p', '\n' :: rest⟩) ∧
      p'.line = p.line := by
  cases h <;> cases digit <;> exact ⟨_, rfl, rfl⟩

theorem Cursor.endOfLine?_feed (p : Position) (rest : List Char) :
    (⟨p, '\n' :: rest⟩ : Cursor).endOfLine? = some ⟨p.nextLine, rest⟩ := rfl

/-! ## Blocks -/

theorem indentLines_append (indent : Nat) (write : Char → List Char) (broken : Bool)
    (cs ds : List Char) :
    indentLines indent write broken (cs ++ ds) = indentLines indent write broken cs ++
      indentLines indent write (cs.getLast?.elim broken isBreak) ds := by
  induction cs generalizing broken with
  | nil => rfl
  | cons c cs ih =>
    rw [List.cons_append, indentLines, indentLines, getLast?_cons_elim]
    cases hbreak : isBreak c <;> simp [ih]

/-- The lines of a text whose last one has no break of its own, and a break behind them. -/
theorem Block.scan_closed {cs : List Char} (hlast : cs.getLast?.elim true isBreak = false)
    {c : Char} (hc : isBreak c = true) {column indent : Nat} {tail : List Char} (htail : NextLine column tail)
    (hcolumn : column < indent) (least : Nat) {p : Position} (hp : p.column = 0) :
    ∃ b line, scan true least { indent := some indent } p
        (indentLines indent (fun c => [c]) true cs ++ c :: tail) =
        some (b, ⟨⟨line, lead tail⟩, body tail⟩) ∧
      b.done = cs.reverse ∧ b.ended = some c ∧ p.line ≤ line := by
  have hstart : Reading indent true { indent := some indent } p := .between rfl rfl hp
  obtain ⟨b, p', hrun, hread, hnewest, hline⟩ := scan_indentLines least cs hstart (c :: tail)
  rw [hlast] at hread
  obtain ⟨hclose, hdone⟩ := scan_close hread hc htail hcolumn least
  have hempty : newest { indent := some indent } = [] := rfl
  rw [hnewest, hempty, List.append_nil] at hdone
  exact ⟨{ b with ended := some c, inLine := false }, p'.line + 1, hrun.trans hclose, hdone, rfl,
    Nat.le_succ_of_le hline⟩

/-- The lines of a text up to the line below it. -/
theorem Chomps.scan {cs : List Char} {chomping : Chomping} {mark : List Char}
    (h : Chomps cs chomping mark) (hcs : cs ≠ []) {column indent : Nat} {tail : List Char}
    (htail : NextLine column tail) (hcolumn : column < indent) (least : Nat) (p : Position)
    (hp : p.column = 0) :
    ∃ b line, Block.scan true least { indent := some indent } p
        (indentLines indent (fun c => [c]) true cs ++
          ((if cs.getLast?.any isBreak then [] else ['\n']) ++ tail)) =
        some (b, ⟨⟨line, lead tail⟩, body tail⟩) ∧
      b.text chomping = String.ofList cs ∧ p.line ≤ line := by
  have hlines : cs.getLast?.elim true isBreak = cs.getLast?.any isBreak := by
    rw [List.getLast?_eq_some_getLast hcs]
    rfl
  cases h with
  | strip hlast =>
    obtain ⟨b, line, hscan, hdone, -, hline⟩ :=
      Block.scan_closed (hlines.trans hlast) (c := '\n') rfl htail hcolumn least hp
    refine ⟨b, line, ?_, by simp [Block.text, hdone], hline⟩
    rw [hlast, if_neg (by simp), List.singleton_append, hscan]
  | @clip init d c heq hd hc =>
    have hinit : (init ++ [d]).getLast?.elim true isBreak = false := by simp [hd]
    obtain ⟨b, line, hscan, hdone, hended, hline⟩ :=
      Block.scan_closed hinit hc htail hcolumn least hp
    refine ⟨b, line, ?_, by simp [Block.text, hdone, hended, heq], hline⟩
    have hsplit : indentLines indent (fun c => [c]) true cs =
        indentLines indent (fun c => [c]) true (init ++ [d]) ++ [c] := by
      have hcons : init ++ [d, c] = (init ++ [d]) ++ [c] := by simp
      rw [heq, hcons, indentLines_append, hinit]
      simp [indentLines, hc]
    have hlast : cs.getLast?.any isBreak = true := by simp [heq, hc]
    rw [hlast, if_pos rfl, hsplit, List.nil_append, List.append_assoc, List.singleton_append, hscan]
  | keep hlast =>
    have hstart : Block.Reading indent true { indent := some indent } p := .between rfl rfl hp
    obtain ⟨b, p', hrun, hread, hnewest, hline⟩ := Block.scan_indentLines least cs hstart tail
    rw [hlines, hlast] at hread
    refine ⟨b, p'.line, ?_, ?_, hline⟩
    · rw [hlast, if_pos rfl, List.nil_append, hrun, Block.scan_tail hread htail hcolumn]
    · have htext : b.more ++ b.ended.toList ++ b.done = cs.reverse := by
        simpa [Block.newest] using hnewest
      simp [Block.text, htext]

/-- Where the first line shows the indentation, it need not be given. -/
theorem Block.scan_first {c : Char} (hc : isBreak c = false) (hspace : c ≠ ' ') (htab : c ≠ '\t')
    {least indent : Nat} (hleast : least ≤ indent) (hindent : 0 < indent) {p : Position}
    (hp : p.column = 0) (cs rest : List Char) :
    scan true least {} p (indentLines indent (fun c => [c]) true (c :: cs) ++ rest) =
      scan true least { indent := some indent } p
        (indentLines indent (fun c => [c]) true (c :: cs) ++ rest) := by
  have hcolumn : (p.after indent).column = indent := by simp [Position.after, hp]
  have hlines : indentLines indent (fun c => [c]) true (c :: cs) ++ rest =
      spaces indent ++ c :: (indentLines indent (fun c => [c]) false cs ++ rest) := by
    simp [indentLines, hc]
  rw [hlines, scan_spaces rfl least (by simp), scan_spaces rfl least (by simp [hp]),
    scan_start rfl (.inr ⟨rfl, Nat.zero_le _, hleast, hindent, hspace, htab⟩) hc hcolumn,
    scan_start rfl (.inl rfl) hc hcolumn]
  rfl

/-- The indentation is known from the digit, or else from the first line. -/
theorem Block.scan_indicated {cs : List Char} (hallowed : literalAllowed cs = true) (hcs : cs ≠ [])
    (column : Nat) {p : Position} (hp : p.column = 0) (rest : List Char) :
    let indent := (if cs.head?.any isSpaceOrBreak then some 2 else none).map
      fun n => if column + 1 = 0 then n else column + 1 - 1 + n
    scan true (column + 1) { indent := indent } p
        (indentLines (column + indentStep) (fun c => [c]) true cs ++ rest) =
      scan true (column + 1) { indent := some (column + indentStep) } p
        (indentLines (column + indentStep) (fun c => [c]) true cs ++ rest) := by
  cases hfirst : cs.head?.any isSpaceOrBreak with
  | true => rfl
  | false =>
    obtain ⟨c, cs, rfl⟩ := List.exists_cons_of_ne_nil hcs
    have hc : isPrintable c = true := printable_of_literalAllowed hallowed c List.mem_cons_self
    have hplain : (c == ' ') = false ∧ isBreak c = false := Bool.or_eq_false_iff.1 hfirst
    exact scan_first hplain.2 (by simpa using hplain.1) (ne_of_isPrintable hc rfl)
      (by simp [indentStep]) (by simp [indentStep]) hp cs rest

/-- A literal block is read back. -/
theorem scanBlock_literal {cs : List Char} (hallowed : literalAllowed cs = true) (hcs : cs ≠ [])
    {column : Nat} {tail : List Char} (htail : NextLine column tail) (p : Position) :
    ∃ block line, writeLiteral (column + indentStep) cs ++ tail = '|' :: block ∧
      scanBlock true (column + 1) ⟨p, block⟩ =
        some (String.ofList cs, ⟨⟨line, lead tail⟩, body tail⟩) ∧ p.line < line := by
  obtain ⟨chomping, mark, hchomps, hheader⟩ := literalHeader_eq cs
  let ending := (if cs.getLast?.any isBreak then [] else ['\n']) ++ tail
  let lines := indentLines (column + indentStep) (fun c => [c]) true cs ++ ending
  obtain ⟨p', hread, hp'⟩ :=
    BlockHeader.read_indicators hchomps (cs.head?.any isSpaceOrBreak) p lines
  obtain ⟨b, line, hscan, htext, hline⟩ := hchomps.scan hcs htail
    (Nat.lt_add_of_pos_right (by decide : 0 < indentStep)) (column + 1) p'.nextLine rfl
  have hindicated := Block.scan_indicated hallowed hcs column (p := p'.nextLine) rfl ending
  refine ⟨indentDigit cs ++ (mark ++ '\n' :: lines), line, ?_, ?_, ?_⟩
  · simp [writeLiteral, hheader, lines, ending]
  · rw [scanBlock, indentDigit, hread]
    simp only [Option.bind_eq_bind, Option.bind_some, Cursor.endOfLine?_feed]
    rw [hindicated, hscan]
    simp [htext]
  · rw [← hp']
    exact hline

end FlexAudit.Yaml
