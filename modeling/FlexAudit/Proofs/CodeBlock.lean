import FlexAudit.CodeBlock
import FlexAudit.Proofs.Text.Termination

/-!
# The block of the load method

What the block of a dump is, by the indices of its lines, and what it means that a pair of
instructions stands in it. Proved here:

* `CodeBlock.exists_extent`, `LoadExtent.codeBlock?_eq`: the block of a dump is the lines from the
  first one that opens the load method to the first trailer after it, or to the last line;
* `load_block_extracted`: the block with all its fields, for every dump with a line that opens the
  load method; a line that opens it again does not end the block (`trailer_on_opening_line`);
* `InstructionPair.foundIn_slice_iff`: a pair stands in such a slice exactly if it stands on two
  neighbouring lines of the dump from its start to its end;
* `foundIn_iff_infix_text`: the search by lines agrees with a search in the text of the block.
-/

namespace FlexAudit

open Text

/-! ## Pairs on neighbouring lines -/

/-- The line at `i` ends with `first` and the next one starts with `second`. -/
def EndsThenStarts (lines : List String) (first second : String) (i : Nat) : Prop :=
  ∃ x y, lines[i]? = some x ∧ lines[i + 1]? = some y ∧
    first.toList <:+ x.toList ∧ second.toList <+: y.toList

namespace InstructionPair

theorem matchesLines_iff (p : InstructionPair) (x y : String) :
    p.matchesLines x y = true ↔ p.first.toList <:+ x.toList ∧ p.second.toList <+: y.toList := by
  simp [matchesLines]

theorem foundIn_cons_cons (p : InstructionPair) (n : Nat) (x y : String) (rest : List String)
    (c : Bool) : p.foundIn ⟨n, x :: y :: rest, c⟩ = true ↔
      p.matchesLines x y = true ∨ p.foundIn ⟨n, y :: rest, c⟩ = true := by
  simp [foundIn, CodeBlock.linePairs]

theorem foundIn_iff (p : InstructionPair) (b : CodeBlock) :
    p.foundIn b = true ↔ ∃ i, EndsThenStarts b.lines p.first p.second i := by
  obtain ⟨n, lines, c⟩ := b
  induction lines with
  | nil => simp [foundIn, CodeBlock.linePairs, EndsThenStarts]
  | cons x rest ih =>
    cases rest with
    | nil => simp [foundIn, CodeBlock.linePairs, EndsThenStarts]
    | cons y rest =>
      rw [foundIn_cons_cons, ih, matchesLines_iff]
      constructor
      · rintro (h | ⟨i, h⟩)
        · exact ⟨0, x, y, rfl, rfl, h⟩
        · exact ⟨i + 1, h⟩
      · rintro ⟨i, h⟩
        cases i with
        | zero =>
          obtain ⟨x', y', hx, hy, h⟩ := h
          cases hx
          cases hy
          exact Or.inl h
        | succ i => exact Or.inr ⟨i, h⟩

/-- A pair in the lines from `s` to `e`. -/
theorem foundIn_slice_iff (p : InstructionPair) {b : CodeBlock} {lines : List String} {s e : Nat}
    (hb : b.lines = (lines.drop s).take (e + 1 - s)) :
    p.foundIn b = true ↔ ∃ i, s ≤ i ∧ i < e ∧ EndsThenStarts lines p.first p.second i := by
  rw [foundIn_iff, hb]
  have hline (i : Nat) (hi : i < e + 1 - s) :
      ((lines.drop s).take (e + 1 - s))[i]? = lines[s + i]? := by
    rw [List.getElem?_take_of_lt hi, List.getElem?_drop]
  constructor
  · rintro ⟨i, x, y, hx, hy, h⟩
    have hi : i + 1 < e + 1 - s := by
      have := (List.getElem?_eq_some_iff.mp hy).1
      rw [List.length_take] at this
      omega
    rw [hline i (by omega)] at hx
    rw [hline (i + 1) hi] at hy
    exact ⟨s + i, by omega, by omega, x, y, hx, hy, h⟩
  · rintro ⟨i, hs, he, x, y, hx, hy, h⟩
    refine ⟨i - s, x, y, ?_, ?_, h⟩
    · rw [hline (i - s) (by omega), Nat.add_sub_cancel' hs, hx]
    · rw [hline (i - s + 1) (by omega), ← Nat.add_assoc, Nat.add_sub_cancel' hs, hy]

end InstructionPair

/-! ## Pairs in the text of a block -/

/-- No line of the block has a line feed in it. -/
def CodeBlock.FeedFree (b : CodeBlock) : Prop := ∀ l ∈ b.lines, '\n' ∉ l.toList

/-- One line feed tells the two texts of the pair apart. -/
structure InstructionPair.Separable (p : InstructionPair) : Prop where
  first_feedFree : '\n' ∉ p.first.toList
  second_feedFree : '\n' ∉ p.second.toList
  second_ne : p.second ≠ ""

theorem joinLines_cons (l : List Char) (rest : List (List Char)) :
    joinLines (l :: rest) = l ++ '\n' :: joinLines rest := by
  simp [joinLines]

theorem foundIn_iff_infix_joinLines (b : CodeBlock) (p : InstructionPair) (hb : b.FeedFree)
    (hp : p.Separable) : p.foundIn b = true ↔
      p.first.toList ++ '\n' :: p.second.toList <:+: joinLines (b.lines.map String.toList) := by
  obtain ⟨n, lines, c⟩ := b
  obtain ⟨hf, hs, hne⟩ := hp
  induction lines with
  | nil => simp [InstructionPair.foundIn, CodeBlock.linePairs, joinLines]
  | cons x rest ih =>
    have hx : '\n' ∉ x.toList := hb x List.mem_cons_self
    have hrest : ∀ l ∈ rest, '\n' ∉ l.toList := fun l hl => hb l (List.mem_cons_of_mem x hl)
    rw [List.map_cons, joinLines_cons, infix_break_iff hf hx]
    cases rest with
    | nil =>
      -- behind the last feed stands nothing, and the second text is not empty
      simp [InstructionPair.foundIn, CodeBlock.linePairs, joinLines, hne]
    | cons y rest =>
      rw [InstructionPair.foundIn_cons_cons, p.matchesLines_iff, ih hrest, List.map_cons,
        joinLines_cons, prefix_append_cons_iff hs]

/-! ## The extent of a block -/

/-- `text` stands somewhere in `line`. -/
def HasText (text line : String) : Prop := text.toList <:+: line.toList

/-- A line that opens the load method. -/
def OpensLoad (line : String) : Prop := HasText "ModuleInfo:::load(" line

/-- A line that closes a listing; one that opens the load method again does not. -/
def ClosesListing (line : String) : Prop := HasText "0 Traits Entries" line ∧ ¬ OpensLoad line

/-- `i` is the least index from `start` on whose line has the property. -/
structure FirstFrom (P : String → Prop) (lines : List String) (start i : Nat) : Prop where
  le : start ≤ i
  holds : ∃ l, lines[i]? = some l ∧ P l
  first : ∀ j l, start ≤ j → j < i → lines[j]? = some l → ¬ P l

/-- The listing of the load method goes from line `s` to line `e`: `s` is the first line that opens
it, and `e` the first line after `s` that closes it, or the last line where none does. -/
structure LoadExtent (lines : List String) (s e : Nat) : Prop where
  start : FirstFrom OpensLoad lines 0 s
  stop : FirstFrom ClosesListing lines (s + 1) e ∨
    (∀ j l, s < j → lines[j]? = some l → ¬ ClosesListing l) ∧ e + 1 = lines.length

theorem FirstFrom.unique {P : String → Prop} {lines : List String} {start i j : Nat}
    (hi : FirstFrom P lines start i) (hj : FirstFrom P lines start j) : i = j := by
  obtain ⟨x, hx, hPx⟩ := hi.holds
  obtain ⟨y, hy, hPy⟩ := hj.holds
  rcases Nat.lt_trichotomy i j with h | h | h
  · exact absurd hPx (hj.first i x hi.le h hx)
  · exact h
  · exact absurd hPy (hi.first j y hj.le h hy)

theorem FirstFrom.append_cons {P : String → Prop} {before : List String} {line : String}
    (hbefore : ∀ l ∈ before, ¬ P l) (hline : P line) (after : List String) :
    FirstFrom P (before ++ line :: after) 0 before.length := by
  refine ⟨Nat.zero_le _, ⟨line, by simp, hline⟩, ?_⟩
  intro j l _ hj hl
  rw [List.getElem?_append_left hj] at hl
  exact hbefore l (List.mem_of_getElem? hl)

theorem FirstFrom.shift {P : String → Prop} {lines : List String} {start i : Nat}
    (front : List String) (h : FirstFrom P lines start i) :
    FirstFrom P (front ++ lines) (front.length + start) (front.length + i) := by
  obtain ⟨hle, ⟨l, hl, hP⟩, hfirst⟩ := h
  have hl' : (front ++ lines)[front.length + i]? = some l := by
    rw [List.getElem?_append_right (by omega), Nat.add_sub_cancel_left]
    exact hl
  refine ⟨by omega, ⟨l, hl', hP⟩, ?_⟩
  intro j l' hj hji hl'
  have hge : front.length ≤ j := by omega
  rw [List.getElem?_append_right hge] at hl'
  exact hfirst (j - front.length) l' (by omega) (by omega) hl'

theorem LoadExtent.unique {lines : List String} {s e s' e' : Nat} (h : LoadExtent lines s e)
    (h' : LoadExtent lines s' e') : s = s' ∧ e = e' := by
  obtain rfl : s = s' := h.start.unique h'.start
  refine ⟨rfl, ?_⟩
  rcases h.stop with hstop | ⟨hnone, hlast⟩
  · rcases h'.stop with hstop' | ⟨hnone', -⟩
    · exact hstop.unique hstop'
    · obtain ⟨l, hl, hcloses⟩ := hstop.holds
      exact absurd hcloses (hnone' e l hstop.le hl)
  · rcases h'.stop with hstop' | ⟨-, hlast'⟩
    · obtain ⟨l, hl, hcloses⟩ := hstop'.holds
      exact absurd hcloses (hnone e' l hstop'.le hl)
    · omega

theorem Marker.foundIn_iff (m : Marker) (line : String) :
    m.foundIn line = true ↔ HasText m.literal line :=
  occursIn_iff _ _

theorem LineEvent.ofLine_eq_blockStart_iff (line : String) :
    LineEvent.ofLine line = .blockStart ↔ OpensLoad line := by
  have hload : Marker.moduleLoad.foundIn line = true ↔ OpensLoad line := Marker.foundIn_iff _ _
  grind [LineEvent.ofLine]

namespace CodeBlock

theorem isEnd_iff (line : String) : isEnd line = true ↔ ClosesListing line := by
  have hload : Marker.moduleLoad.foundIn line = true ↔ OpensLoad line := Marker.foundIn_iff _ _
  have hend : Marker.blockEnd.foundIn line = true ↔ HasText "0 Traits Entries" line :=
    Marker.foundIn_iff _ _
  grind [isEnd, LineEvent.ofLine, ClosesListing]

theorem upToEnd_cons_of_isEnd {line : String} (h : isEnd line = true) (rest : List String) :
    upToEnd (line :: rest) = ([line], true) := by
  simp [upToEnd, h]

theorem upToEnd_cons_of_not_isEnd {line : String} (h : isEnd line = false) (rest : List String) :
    upToEnd (line :: rest) = (line :: (upToEnd rest).1, (upToEnd rest).2) := by
  simp only [upToEnd, List.dropWhile_cons, h, Bool.not_false, ↓reduceIte, List.takeWhile_cons]
  cases rest.dropWhile (fun line => !isEnd line) <;> rfl

/-- The lines up to the first trailer, or all of them where there is none. -/
theorem upToEnd_cases (lines : List String) :
    (∃ body trailer after, lines = body ++ trailer :: after ∧ (∀ l ∈ body, ¬ ClosesListing l) ∧
      ClosesListing trailer ∧ upToEnd lines = (body ++ [trailer], true)) ∨
    ((∀ l ∈ lines, ¬ ClosesListing l) ∧ upToEnd lines = (lines, false)) := by
  induction lines with
  | nil => exact Or.inr ⟨by simp, rfl⟩
  | cons line rest ih =>
    cases hline : isEnd line with
    | true =>
      have hcloses := (isEnd_iff line).mp hline
      exact Or.inl ⟨[], line, rest, rfl, by simp, hcloses, upToEnd_cons_of_isEnd hline rest⟩
    | false =>
      have hopen : ¬ ClosesListing line := fun h => by simp [(isEnd_iff line).mpr h] at hline
      rw [upToEnd_cons_of_not_isEnd hline]
      rcases ih with ⟨body, trailer, after, rfl, hbody, hcloses, he⟩ | ⟨hnone, he⟩
      · refine Or.inl ⟨line :: body, trailer, after, rfl, ?_, hcloses, by simp [he]⟩
        simpa [hopen] using hbody
      · refine Or.inr ⟨?_, by simp [he]⟩
        simpa [hopen] using hnone

theorem findFrom_cons_of_opens {line : String} (h : OpensLoad line) (i : Nat)
    (rest : List String) :
    findFrom i (line :: rest) = some ⟨i, line :: (upToEnd rest).1, (upToEnd rest).2⟩ := by
  rw [findFrom, if_pos ((LineEvent.ofLine_eq_blockStart_iff line).mpr h)]

theorem findFrom_cons_of_not_opens {line : String} (h : ¬ OpensLoad line) (i : Nat)
    (rest : List String) : findFrom i (line :: rest) = findFrom (i + 1) rest := by
  rw [findFrom, if_neg (mt (LineEvent.ofLine_eq_blockStart_iff line).mp h)]

/-- A block begins at the first line that opens the load method. -/
theorem findFrom_eq_some {i : Nat} {lines : List String} {b : CodeBlock}
    (h : findFrom i lines = some b) :
    ∃ before line rest, lines = before ++ line :: rest ∧ (∀ l ∈ before, ¬ OpensLoad l) ∧
      OpensLoad line ∧ b = ⟨i + before.length, line :: (upToEnd rest).1, (upToEnd rest).2⟩ := by
  induction lines generalizing i with
  | nil => simp [findFrom] at h
  | cons line rest ih =>
    by_cases hline : OpensLoad line
    · rw [findFrom_cons_of_opens hline, Option.some.injEq] at h
      exact ⟨[], line, rest, rfl, by simp, hline, h.symm⟩
    · rw [findFrom_cons_of_not_opens hline] at h
      obtain ⟨before, line', rest', rfl, hbefore, hline', rfl⟩ := ih h
      refine ⟨line :: before, line', rest', rfl, ?_, hline', ?_⟩
      · simpa [hline] using hbefore
      · simp [Nat.add_assoc, Nat.add_comm 1]

theorem findFrom_eq_none_iff (i : Nat) (lines : List String) :
    findFrom i lines = none ↔ ∀ l ∈ lines, ¬ OpensLoad l := by
  induction lines generalizing i with
  | nil => simp [findFrom]
  | cons line rest ih =>
    by_cases hline : OpensLoad line
    · simp [findFrom_cons_of_opens hline, hline]
    · simp [findFrom_cons_of_not_opens hline, hline, ih]

/-- Where the block of a dump starts, and where it ends: with the first trailer behind its start, or
open with the last line. -/
theorem start_and_end {d : Dump} {b : CodeBlock} (h : d.codeBlock? = some b) :
    FirstFrom OpensLoad d.lines 0 b.startLine ∧
      ((∃ e, FirstFrom ClosesListing d.lines (b.startLine + 1) e ∧ b.closed = true ∧
          b.lines = (d.lines.drop b.startLine).take (e + 1 - b.startLine)) ∨
        (∀ j l, b.startLine < j → d.lines[j]? = some l → ¬ ClosesListing l) ∧ b.closed = false ∧
          b.lines = d.lines.drop b.startLine) := by
  obtain ⟨before, line, rest, hlines, hbefore, hline, rfl⟩ := findFrom_eq_some h
  rw [hlines, Nat.zero_add]
  refine ⟨FirstFrom.append_cons hbefore hline rest, ?_⟩
  rcases upToEnd_cases rest with ⟨body, trailer, after, rfl, hbody, hcloses, he⟩ | ⟨hnone, he⟩
  · left
    have hstop := (FirstFrom.append_cons hbody hcloses after).shift (before ++ [line])
    have hlen : (before ++ [line]).length = before.length + 1 := by simp
    rw [hlen, List.append_assoc] at hstop
    refine ⟨before.length + 1 + body.length, hstop, by rw [he], ?_⟩
    have hcount : before.length + 1 + body.length + 1 - before.length
        = (line :: (body ++ [trailer])).length := by simp; omega
    have hsplit : line :: (body ++ trailer :: after) = line :: (body ++ [trailer]) ++ after := by simp
    rw [he, List.drop_left, hcount, hsplit, List.take_left]
  · right
    refine ⟨?_, by rw [he], by rw [he, List.drop_left]⟩
    intro j l hj hl
    change before.length < j at hj
    obtain ⟨k, rfl⟩ := Nat.exists_eq_add_of_lt hj
    rw [List.getElem?_append_right (by omega)] at hl
    exact hnone l (List.mem_of_getElem? (i := k) (by simpa [Nat.add_assoc] using hl))

/-- The block of a dump is a slice of its lines, by the extent of the load method. -/
theorem exists_extent {d : Dump} {b : CodeBlock} (h : d.codeBlock? = some b) :
    ∃ e, LoadExtent d.lines b.startLine e ∧
      b.lines = (d.lines.drop b.startLine).take (e + 1 - b.startLine) := by
  obtain ⟨hstart, ⟨e, hstop, -, hlines⟩ | ⟨hnone, -, hlines⟩⟩ := start_and_end h
  · exact ⟨e, ⟨hstart, Or.inl hstop⟩, hlines⟩
  · obtain ⟨l, hl, -⟩ := hstart.holds
    have hlt := (List.getElem?_eq_some_iff.mp hl).1
    have hlast : d.lines.length - 1 + 1 = d.lines.length := by omega
    refine ⟨d.lines.length - 1, ⟨hstart, Or.inr ⟨hnone, hlast⟩⟩, ?_⟩
    rw [hlines, hlast, ← List.length_drop, List.take_length]

end CodeBlock

theorem LoadExtent.codeBlock?_eq {d : Dump} {s e : Nat} (h : LoadExtent d.lines s e) :
    ∃ b, d.codeBlock? = some b ∧ b.lines = (d.lines.drop s).take (e + 1 - s) := by
  cases hb : d.codeBlock? with
  | none =>
    obtain ⟨l, hl, hopens⟩ := h.start.holds
    exact absurd hopens ((CodeBlock.findFrom_eq_none_iff 0 d.lines).mp hb l (List.mem_of_getElem? hl))
  | some b =>
    obtain ⟨e', h', hlines⟩ := CodeBlock.exists_extent hb
    obtain ⟨rfl, rfl⟩ := h.unique h'
    exact ⟨b, rfl, hlines⟩

/-- **The block of the load method.** Wherever a line of a dump opens the load method, the block starts
at the first such line. It ends with the first later line that closes the listing, and is then closed;
where no later line does, it is open and ends with the dump. -/
theorem load_block_extracted (d : Dump) (hload : ∃ l ∈ d.lines, OpensLoad l) :
    ∃ s, FirstFrom OpensLoad d.lines 0 s ∧
      ((∃ e, FirstFrom ClosesListing d.lines (s + 1) e ∧
          d.codeBlock? = some ⟨s, (d.lines.drop s).take (e + 1 - s), true⟩) ∨
        (∀ j l, s < j → d.lines[j]? = some l → ¬ ClosesListing l) ∧
          d.codeBlock? = some ⟨s, d.lines.drop s, false⟩) := by
  cases hb : d.codeBlock? with
  | none =>
    obtain ⟨l, hl, hopens⟩ := hload
    exact absurd hopens ((CodeBlock.findFrom_eq_none_iff 0 d.lines).mp hb l hl)
  | some b =>
    obtain ⟨hstart, ⟨e, hstop, hclosed, hlines⟩ | ⟨hnone, hclosed, hlines⟩⟩ :=
      CodeBlock.start_and_end hb
    · exact ⟨b.startLine, hstart, Or.inl ⟨e, hstop, by rw [← hlines, ← hclosed]⟩⟩
    · exact ⟨b.startLine, hstart, Or.inr ⟨hnone, by rw [← hlines, ← hclosed]⟩⟩

/-- A trailer in front of the method, one on its first line and one on a line that opens it again: the
block goes on to the trailer behind them. -/
theorem load_block_extracted_reopened :
    let d : Dump := ⟨["0 Traits Entries", "ModuleInfo:::load(0 Traits Entries",
      "ModuleInfo:::load(0 Traits Entries", "0 Traits Entries", "0 Extras"]⟩
    (∃ l ∈ d.lines, OpensLoad l) ∧ ∃ s e, FirstFrom OpensLoad d.lines 0 s ∧
      FirstFrom ClosesListing d.lines (s + 1) e ∧
        d.codeBlock? = some ⟨s, (d.lines.drop s).take (e + 1 - s), true⟩ := by
  intro d
  have hload : ∃ l ∈ d.lines, OpensLoad l :=
    ⟨_, List.mem_cons_of_mem _ List.mem_cons_self, (Marker.foundIn_iff .moduleLoad _).mp
      (by decide +kernel)⟩
  have hclosed : d.codeBlock?.map CodeBlock.closed = some true := by decide +kernel
  obtain ⟨s, hstart, ⟨e, hstop, hb⟩ | ⟨-, hb⟩⟩ := load_block_extracted d hload
  · exact ⟨hload, s, e, hstart, hstop, hb⟩
  · simp [hb] at hclosed

/-- A line with the text of the trailer that opens the method again does not end the block. -/
theorem trailer_on_opening_line :
    let d : Dump := ⟨["ModuleInfo:::load(", "ModuleInfo:::load(0 Traits Entries", "0 Extras"]⟩
    FirstFrom (HasText "ModuleInfo:::load(") d.lines 0 0 ∧
      FirstFrom (HasText "0 Traits Entries") d.lines 1 1 ∧
      d.codeBlock? = some ⟨0, d.lines, false⟩ ∧
      d.codeBlock? ≠ some ⟨0, (d.lines.drop 0).take (1 + 1 - 0), true⟩ := by
  intro d
  have hopens : HasText "ModuleInfo:::load(" "ModuleInfo:::load(" :=
    (Marker.foundIn_iff .moduleLoad _).mp (by decide +kernel)
  have htrailer : HasText "0 Traits Entries" "ModuleInfo:::load(0 Traits Entries" :=
    (Marker.foundIn_iff .blockEnd _).mp (by decide +kernel)
  refine ⟨⟨Nat.le_refl 0, ⟨_, rfl, hopens⟩, ?_⟩, ⟨Nat.le_refl 1, ⟨_, rfl, htrailer⟩, ?_⟩, ?_, ?_⟩
  · intro j l _ hj
    omega
  · intro j l hle hj
    omega
  · decide +kernel
  · decide +kernel

/-! ## The two searches -/

theorem Dump.isPlain_of_mem_ofText {t line : String} (h : line ∈ (Dump.ofText t).lines) :
    IsPlain line.toList := by
  obtain ⟨l, hl, rfl⟩ := List.mem_map.mp h
  rw [String.toList_ofList]
  exact isPlain_of_mem_splitLines hl

theorem CodeBlock.feedFree_of_ofText {t : String} {b : CodeBlock}
    (h : (Dump.ofText t).codeBlock? = some b) : b.FeedFree := by
  obtain ⟨e, -, hlines⟩ := exists_extent h
  intro line hline hfeed
  rw [hlines] at hline
  have hplain := Dump.isPlain_of_mem_ofText (List.mem_of_mem_drop (List.mem_of_mem_take hline))
  exact (ne_of_isBreak_eq_false (hplain '\n' hfeed)).2 rfl

/-- **Search by lines and search in the text.** They agree on every block whose lines have no line
feed, as those of a dump of text have none, for every pair that a line feed tells apart, as it does
for the two pairs that are searched. -/
theorem foundIn_iff_infix_text :
    (∀ (b : CodeBlock) (p : InstructionPair), b.FeedFree → p.Separable →
      (p.foundIn b = true ↔ (p.first ++ "\n" ++ p.second).toList <:+: b.text.toList)) ∧
    (∀ (t : String) (b : CodeBlock), (Dump.ofText t).codeBlock? = some b → b.FeedFree) ∧
    InstructionPair.assignment.Separable ∧ InstructionPair.patch.Separable := by
  refine ⟨?_, fun t b => CodeBlock.feedFree_of_ofText, ?_, ?_⟩
  · intro b p hb hp
    rw [foundIn_iff_infix_joinLines b p hb hp, CodeBlock.text, String.toList_ofList]
    simp
  · exact ⟨by decide, by decide, by decide⟩
  · exact ⟨by decide, by decide, by decide⟩

/-- An empty line and a short one after the pair. -/
theorem foundIn_iff_infix_text_short :
    let b : CodeBlock := ⟨0, ["ab", "cd", "", "c"], false⟩
    let p : InstructionPair := ⟨"b", "c"⟩
    b.FeedFree ∧ p.Separable ∧
      (p.foundIn b = true ↔ (p.first ++ "\n" ++ p.second).toList <:+: b.text.toList) := by
  intro b p
  have hb : b.FeedFree := by unfold CodeBlock.FeedFree; decide
  have hp : p.Separable := ⟨by decide, by decide, by decide⟩
  exact ⟨hb, hp, foundIn_iff_infix_text.1 b p hb hp⟩

end FlexAudit
