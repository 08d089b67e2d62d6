import FlexAudit.Proofs.Yaml.Written
import Mathlib.Data.List.Basic

/-!
# Plain scalars are read back

A text that may be written plain is read to its end and no further. Proved here:

* `goesOn_of_plainAllowed`: nothing inside of such a text ends a plain scalar;
* `scanPlain_line`: a plain scalar that fills the rest of its line is read back;
* `scanPlain_key`: so is one in front of a colon.
-/

namespace FlexAudit.Yaml

/-! ## Folding of one line -/

namespace Fold

/-- The text that has been read, newest first, with what is pending. -/
def newest (f : Fold) : List Char := f.join.done

/-- A character that stands on the line. -/
def next (f : Fold) (c : Char) : Fold :=
  if c == ' ' then f.blank c else f.char c

theorem char_eq (f : Fold) (c : Char) : f.char c = { done := c :: f.newest } := rfl

theorem newest_blank {f : Fold} (hf : f.broken = false) (c : Char) :
    (f.blank c).newest = c :: f.newest := by
  simp [newest, join, separator, blank, hf]

theorem broken_next {f : Fold} (hf : f.broken = false) (c : Char) :
    (f.next c).broken = false := by
  unfold next blank
  split_ifs with hspace hbroken
  · exact hf
  · exact hf
  · rfl

theorem pending_next {f : Fold} (hf : f.broken = false) (c : Char) :
    (f.next c).pending = (c == ' ') := by
  unfold next
  split_ifs with hspace
  · simp [blank, pending, hf, hspace]
  · simp_all [char, pending]

theorem newest_next {f : Fold} (hf : f.broken = false) (c : Char) :
    (f.next c).newest = c :: f.newest := by
  unfold next
  split_ifs
  · exact newest_blank hf c
  · rfl

theorem foldl_next (cs : List Char) {f : Fold} (hf : f.broken = false) :
    (cs.foldl next f).newest = cs.reverse ++ f.newest := by
  induction cs generalizing f with
  | nil => rfl
  | cons c cs ih =>
    rw [List.foldl_cons, ih (broken_next hf c), newest_next hf]
    simp

/-- A line that does not end in a space leaves nothing pending. -/
theorem foldl_next_eq {cs : List Char} (hlast : cs.getLast? ≠ some ' ') :
    cs.foldl next {} = { done := cs.reverse } := by
  rcases List.eq_nil_or_concat' cs with rfl | ⟨init, c, rfl⟩
  · rfl
  · have hc : (c == ' ') = false := by simpa using hlast
    have hread := foldl_next init (f := {}) rfl
    rw [List.foldl_append, List.foldl_cons, List.foldl_nil, next, hc, if_neg (by simp), char_eq,
      hread]
    simp [newest, join, separator]

end Fold

/-! ## What does not end a plain scalar -/

/-- Whether a plain scalar goes on to the end of a text. `blank` says that a space stands in
front. -/
def goesOn (blank : Bool) : List Char → Bool
  | [] => true
  | c :: rest =>
    isPrintable c && !isBreak c && !(blank && c == '#') && !(c == ':' && blankNext rest)
      && goesOn (c == ' ') rest

theorem goesOn_of_holdsToken {cs : List Char} (hprintable : Printable cs)
    (hbreak : ∀ c ∈ cs, isBreak c = false) (hholds : holdsToken cs = false) {blank : Bool}
    (hhead : blank = true → cs.head? ≠ some '#') : goesOn blank cs = true := by
  induction cs generalizing blank with
  | nil => rfl
  | cons c cs ih =>
    have hc : isPrintable c = true := hprintable c List.mem_cons_self
    have hcbreak : isBreak c = false := hbreak c List.mem_cons_self
    have hcomment : (blank && c == '#') = false := by
      cases blank <;> simp_all
    simp only [holdsToken, Bool.or_eq_false_iff, beq_eq_false_iff_ne] at hholds
    obtain ⟨⟨hlast, hcolons⟩, hcomments⟩ := hholds
    cases cs with
    | nil =>
      have hcolon : (c == ':') = false := by simpa using hlast
      simp [goesOn, hc, hcbreak, hcomment, hcolon]
    | cons d cs =>
      rw [anyNeighbours_cons_cons, Bool.or_eq_false_iff] at hcolons hcomments
      have hrest : goesOn (c == ' ') (d :: cs) = true := by
        refine ih (fun e he => hprintable e (List.mem_cons_of_mem c he))
          (fun e he => hbreak e (List.mem_cons_of_mem c he)) ?_ ?_
        · simp only [holdsToken, Bool.or_eq_false_iff, beq_eq_false_iff_ne]
          exact ⟨⟨by simpa using hlast, hcolons.2⟩, hcomments.2⟩
        · intro hspace hhash
          have hd : d = '#' := by simpa using hhash
          have hsplit := hcomments.1
          simp only [beq_iff_eq] at hspace
          subst hspace hd
          cases hsplit
      have hcolon : (c == ':' && blankNext (d :: cs)) = false := hcolons.1
      rw [goesOn, hc, hcbreak, hcomment, hcolon, hrest]
      rfl

theorem goesOn_of_plainAllowed {cs : List Char} (h : plainAllowed cs = true) :
    goesOn false cs = true := by
  have hprintable := printable_of_plainAllowed h
  simp only [plainAllowed, Bool.and_eq_true, Bool.not_eq_true'] at h
  obtain ⟨⟨⟨⟨⟨-, hbreak⟩, -⟩, -⟩, -⟩, hholds⟩ := h
  exact goesOn_of_holdsToken hprintable (by simpa using hbreak) hholds (by simp)

/-- A colon that ends no scalar in its text ends none in a longer one. -/
theorem colon_append {c : Char} {cs : List Char} (h : (c == ':' && blankNext cs) = false)
    (rest : List Char) : (c == ':' && blankNext (cs ++ rest)) = false := by
  cases cs with
  | nil =>
    rw [Bool.and_eq_false_iff] at h ⊢
    exact .inl (h.resolve_right (by simp [blankNext]))
  | cons d cs => exact h

/-! ## Reading -/

/-- One character of a line. The indentation counts only behind a space. -/
theorem scanPlain_cons {indent : Nat} {f : Fold} {p : Position} {c : Char} {rest : List Char}
    (hf : f.broken = false) (hprintable : isPrintable c = true) (hbreak : isBreak c = false)
    (hcomment : (f.pending && c == '#') = false) (hcolon : (c == ':' && blankNext rest) = false)
    (hp : f.pending = true → 0 < indent ∧ indent ≤ p.column) :
    scanPlain false indent f p (c :: rest) = scanPlain false indent (f.next c) p.next rest := by
  have hblank := isBlank_of_isPrintable hprintable
  have hends : (f.pending && plainEnds false indent p (c :: rest)) = false := by
    cases hpending : f.pending with
    | false => rfl
    | true =>
      obtain ⟨hindent, hcolumn⟩ := hp hpending
      rw [hpending, Bool.true_and] at hcomment
      have hzero : p.column ≠ 0 := by omega
      simp [plainEnds, hzero, hcomment, hcolumn]
  rw [scanPlain, hblank, hbreak, hends, hcolon, hf]
  unfold Fold.next
  cases c == ' ' <;> simp

theorem scanPlain_append {indent : Nat} {f : Fold} {p : Position} {cs rest : List Char}
    (hf : f.broken = false) (hcs : goesOn f.pending cs = true)
    (hp : f.pending = true ∨ ' ' ∈ cs → 0 < indent ∧ indent ≤ p.column) :
    scanPlain false indent f p (cs ++ rest) =
      scanPlain false indent (cs.foldl Fold.next f) (p.after cs.length) rest := by
  induction cs generalizing f p with
  | nil => rfl
  | cons c cs ih =>
    simp only [goesOn, Bool.and_eq_true, Bool.not_eq_true'] at hcs
    obtain ⟨⟨⟨⟨hprintable, hbreak⟩, hcomment⟩, hcolon⟩, hcs⟩ := hcs
    have hstep := scanPlain_cons hf hprintable hbreak hcomment (colon_append hcolon rest)
      (fun h => hp (.inl h))
    have hcolumn : (f.next c).pending = true ∨ ' ' ∈ cs →
        0 < indent ∧ indent ≤ p.next.column := by
      rw [Fold.pending_next hf, beq_iff_eq]
      intro hspace
      obtain ⟨hindent, hle⟩ := hp (.inr (by rcases hspace with rfl | h <;> simp [*]))
      exact ⟨hindent, Nat.le_succ_of_le hle⟩
    have hrest := ih (Fold.broken_next hf c) (by rwa [Fold.pending_next hf]) hcolumn
    rw [List.cons_append, hstep, hrest, List.foldl_cons, List.length_cons, Position.after_next]

theorem scanPlain_spaces {f : Fold} (hf : f.broken = true) (indent n : Nat) (p : Position)
    (rest : List Char) : scanPlain false indent f p (spaces n ++ rest) =
      scanPlain false indent f (p.after n) rest := by
  induction n generalizing p with
  | zero => rfl
  | succ n ih =>
    have hblank : f.blank ' ' = f := by simp [Fold.blank, hf]
    have hcons : spaces (n + 1) ++ rest = ' ' :: (spaces n ++ rest) := rfl
    have hspace : isBlank ' ' = true := rfl
    rw [hcons, scanPlain, hspace, hblank, ih, Position.after_next]
    simp

/-- The line below is not indented enough to go on with the scalar. -/
theorem scanPlain_tail {f : Fold} (hf : f.broken = true) {column : Nat} {tail : List Char}
    (h : NextLine column tail) (line : Nat) :
    scanPlain false (column + 1) f ⟨line, 0⟩ tail =
      some (f, ⟨⟨line, lead tail⟩, body tail⟩) := by
  have hstop : ∀ rest, Starts rest → scanPlain false (column + 1) f ⟨line, lead tail⟩ rest =
      some (f, ⟨⟨line, lead tail⟩, rest⟩) := by
    intro rest hrest
    cases rest with
    | nil => rfl
    | cons c rest =>
      have hc : isMark c = true := hrest c rfl
      have hends : plainEnds false (column + 1) ⟨line, lead tail⟩ (c :: rest) = true := by
        simp [plainEnds, Nat.lt_succ_of_le h.lead_le]
      rw [scanPlain, isBlank_of_isMark hc, isBreak_of_isMark hc, hends]
      simp [Fold.pending, hf]
  conv => lhs; rw [← spaces_lead_append_body tail]
  rw [scanPlain_spaces hf, Position.after, Nat.zero_add]
  exact hstop _ h.starts

theorem getLast?_of_plainAllowed {cs : List Char} (h : plainAllowed cs = true) :
    cs.getLast? ≠ some ' ' := by
  simp only [plainAllowed, Bool.and_eq_true, Bool.not_eq_true'] at h
  intro hlast
  have hspace := h.1.1.2
  rw [hlast] at hspace
  cases hspace

theorem scanPlain_text {cs : List Char} {indent : Nat} {p : Position}
    (hcs : plainAllowed cs = true) (hp : ' ' ∈ cs → 0 < indent ∧ indent ≤ p.column)
    (rest : List Char) :
    scanPlain false indent {} p (cs ++ rest) =
      scanPlain false indent { done := cs.reverse } (p.after cs.length) rest := by
  have hcolumn : Fold.pending {} = true ∨ ' ' ∈ cs → 0 < indent ∧ indent ≤ p.column := by
    rintro (h | h)
    · cases h
    · exact hp h
  have hgoes : goesOn (Fold.pending {}) cs = true := goesOn_of_plainAllowed hcs
  rw [scanPlain_append rfl hgoes hcolumn, Fold.foldl_next_eq (getLast?_of_plainAllowed hcs)]

/-- A plain scalar that fills the rest of its line. -/
theorem scanPlain_line {cs tail : List Char} {column : Nat} {p : Position}
    (hcs : plainAllowed cs = true) (hp : column < p.column) (htail : NextLine column tail) :
    ∃ f, scanPlain false (column + 1) {} p (cs ++ '\n' :: tail) =
        some (f, ⟨⟨p.line + 1, lead tail⟩, body tail⟩) ∧
      f.text = String.ofList cs ∧ f.broken = true := by
  refine ⟨{ done := cs.reverse, broken := true, first := some '\n' }, ?_, by simp [Fold.text], rfl⟩
  rw [scanPlain_text hcs fun _ => ⟨Nat.succ_pos column, hp⟩]
  exact scanPlain_tail rfl htail (p.line + 1)

/-- A plain scalar in front of a colon. -/
theorem scanPlain_key (indent : Nat) (p : Position) {cs rest : List Char}
    (hcs : plainAllowed cs = true) (hspace : ' ' ∉ cs) (hrest : blankNext rest = true) :
    ∃ f, scanPlain false indent {} p (cs ++ ':' :: rest) =
        some (f, ⟨p.after cs.length, ':' :: rest⟩) ∧
      f.text = String.ofList cs ∧ f.broken = false := by
  refine ⟨{ done := cs.reverse }, ?_, by simp [Fold.text], rfl⟩
  rw [scanPlain_text hcs fun h => absurd h hspace, scanPlain, hrest]
  rfl

end FlexAudit.Yaml
