import FlexAudit.Analysis
import FlexAudit.Proofs.Text.Occurrence
import Mathlib.Data.List.Chain

/-!
# Line termination

A text is a list of closed lines, each with its own terminator, and possibly a last line that is
not closed. `Decomposition` is that reading of a text, with the rules that make it unique. Proved
here:

* `Decomposition.exists_text_eq` and `Decomposition.text_injective`: every text has exactly one
  decomposition;
* `splitLines_text`: splitting a text gives the lines of its decomposition;
* `infix_text_iff`: a needle without breaks stands in a text exactly if it stands in a line;
* `ofText_inverts_termination`: the two together for dumps, with what follows for texts whose
  line feeds are written as other terminators;
* `search_by_lines_exact`: for which needles a search line by line is a search in the text.
-/

namespace FlexAudit.Text

/-! ## Closed lines -/

/-- How a line ends. -/
inductive Terminator where
  | feed
  | returnFeed
  | carriageReturn
  deriving DecidableEq, Repr

def Terminator.chars : Terminator → List Char
  | feed => ['\n']
  | returnFeed => ['\r', '\n']
  | carriageReturn => ['\r']

/-- Whether a character belongs to terminators. -/
def isBreak (c : Char) : Bool := c == '\r' || c == '\n'

/-- No character of the text is a break. -/
def IsPlain (l : List Char) : Prop := ∀ c ∈ l, isBreak c = false

/-- A line without breaks, and its terminator. -/
@[ext] structure ClosedLine where
  content : List Char
  terminator : Terminator
  plain : IsPlain content

def ClosedLine.text (i : ClosedLine) : List Char := i.content ++ i.terminator.chars

/-- A return and the feed behind it are one terminator, not two: after a line that ends in a lone
return comes no empty line that ends in a feed. -/
def ClosedLine.MayPrecede (i j : ClosedLine) : Prop :=
  ¬ (i.terminator = .carriageReturn ∧ j.content = [] ∧ j.terminator = .feed)

theorem ClosedLine.mayPrecede_of_ne {i : ClosedLine} (h : i.terminator ≠ .carriageReturn)
    (j : ClosedLine) : i.MayPrecede j :=
  fun hij => h hij.1

theorem isBreak_eq_true_iff (c : Char) : isBreak c = true ↔ c = '\r' ∨ c = '\n' := by
  simp [isBreak]

theorem Terminator.chars_ne_nil (e : Terminator) : e.chars ≠ [] := by
  cases e <;> simp [chars]

theorem Terminator.isBreak_of_mem (e : Terminator) : ∀ c ∈ e.chars, isBreak c = true := by
  cases e <;> simp [chars, isBreak]

theorem IsPlain.nil : IsPlain [] := by
  intro c hc
  simp at hc

theorem IsPlain.cons {c : Char} {l : List Char} (hc : isBreak c = false) (hl : IsPlain l) :
    IsPlain (c :: l) := by
  intro a ha
  rcases List.mem_cons.mp ha with rfl | ha
  · exact hc
  · exact hl a ha

theorem IsPlain.tail {c : Char} {l : List Char} (h : IsPlain (c :: l)) : IsPlain l :=
  fun a ha => h a (List.mem_cons_of_mem c ha)

theorem IsPlain.filter_eq_self {l : List Char} (hl : IsPlain l) :
    l.filter (fun c => !isBreak c) = l := by
  rw [List.filter_eq_self]
  intro c hc
  simp [hl c hc]

theorem IsPlain.not_mem_of_mem_chars {l : List Char} (hl : IsPlain l) {e : Terminator} {c : Char}
    (hc : c ∈ e.chars) : c ∉ l := by
  intro hmem
  have hplain := hl c hmem
  rw [e.isBreak_of_mem c hc] at hplain
  exact absurd hplain (by simp)

/-! ## Decompositions -/

/-- Closed lines and a last line that is not closed. -/
structure Decomposition where
  items : List ClosedLine
  tail : Option (List Char)
  chain : items.IsChain ClosedLine.MayPrecede
  tail_plain : ∀ l ∈ tail, IsPlain l
  tail_ne_nil : ∀ l ∈ tail, l ≠ []

namespace Decomposition

def text (d : Decomposition) : List Char :=
  d.items.flatMap ClosedLine.text ++ d.tail.getD []

def lines (d : Decomposition) : List (List Char) :=
  d.items.map ClosedLine.content ++ d.tail.toList

/-- One more closed line in front. -/
def cons (i : ClosedLine) (d : Decomposition) (h : ∀ j ∈ d.items.head?, i.MayPrecede j) :
    Decomposition where
  items := i :: d.items
  tail := d.tail
  chain := List.isChain_cons.mpr ⟨h, d.chain⟩
  tail_plain := d.tail_plain
  tail_ne_nil := d.tail_ne_nil

@[simp] theorem text_cons (i : ClosedLine) (d : Decomposition)
    (h : ∀ j ∈ d.items.head?, i.MayPrecede j) :
    (cons i d h).text = i.content ++ (i.terminator.chars ++ d.text) := by
  simp [text, cons, ClosedLine.text]

@[simp] theorem lines_cons (i : ClosedLine) (d : Decomposition)
    (h : ∀ j ∈ d.items.head?, i.MayPrecede j) : (cons i d h).lines = i.content :: d.lines := by
  simp [lines, cons]

@[ext] theorem ext {d d' : Decomposition} (hitems : d.items = d'.items) (htail : d.tail = d'.tail) :
    d = d' := by
  cases d
  cases d'
  cases hitems
  cases htail
  rfl

/-- A decomposition is built from one without closed lines by putting lines in front. -/
@[elab_as_elim] theorem induction {motive : Decomposition → Prop}
    (last : ∀ d : Decomposition, d.items = [] → motive d)
    (cons : ∀ i d h, motive d → motive (cons i d h)) (d : Decomposition) : motive d := by
  obtain ⟨items, tail, chain, hplain, hne⟩ := d
  induction items with
  | nil => exact last _ rfl
  | cons i items ih =>
    obtain ⟨h, chain'⟩ := List.isChain_cons.mp chain
    exact cons i ⟨items, tail, chain', hplain, hne⟩ h (ih chain')

theorem text_of_items_eq_nil {d : Decomposition} (h : d.items = []) : d.text = d.tail.getD [] := by
  simp [text, h]

theorem isPlain_tail (d : Decomposition) : IsPlain (d.tail.getD []) := by
  cases ht : d.tail with
  | none => exact IsPlain.nil
  | some l => exact d.tail_plain l (by simp [ht])

/-- A text begins with a feed exactly if its first line is empty and closed by a feed. -/
theorem head?_text_eq_feed_iff (d : Decomposition) :
    d.text.head? = some '\n' ↔ ∃ i ∈ d.items.head?, i.content = [] ∧ i.terminator = .feed := by
  induction d using Decomposition.induction with
  | last d h =>
    rw [text_of_items_eq_nil h, h]
    simp only [List.head?_nil, Option.not_mem_none, false_and, exists_false, iff_false]
    intro hhead
    have := d.isPlain_tail '\n' (List.mem_of_mem_head? hhead)
    simp [isBreak] at this
  | cons i d h _ =>
    obtain ⟨content, terminator, plain⟩ := i
    cases content with
    | nil => cases terminator <;> simp [Decomposition.cons, text, ClosedLine.text, Terminator.chars]
    | cons c content =>
      have hc : c ≠ '\n' := by
        rintro rfl
        have := plain '\n' List.mem_cons_self
        simp [isBreak] at this
      simp [Decomposition.cons, text, ClosedLine.text, hc]

theorem mayPrecede_iff (i : ClosedLine) (d : Decomposition) :
    (∀ j ∈ d.items.head?, i.MayPrecede j) ↔
      (i.terminator = .carriageReturn → d.text.head? ≠ some '\n') := by
  rw [Ne, head?_text_eq_feed_iff]
  constructor
  · rintro h hi ⟨j, hj, hc, ht⟩
    exact h j hj ⟨hi, hc, ht⟩
  · rintro h j hj ⟨hi, hc, ht⟩
    exact h hi ⟨j, hj, hc, ht⟩

/-! ## Every text has exactly one -/

theorem exists_text_eq (t : List Char) : ∃ d : Decomposition, d.text = t := by
  induction t with
  | nil => exact ⟨⟨[], none, .nil, by simp, by simp⟩, rfl⟩
  | cons c t ih =>
    obtain ⟨d, rfl⟩ := ih
    by_cases hfeed : c = '\n'
    · have h (j : ClosedLine) : ClosedLine.MayPrecede ⟨[], .feed, .nil⟩ j :=
        ClosedLine.mayPrecede_of_ne (by simp) j
      exact ⟨cons _ d fun j _ => h j, by simp [Terminator.chars, hfeed]⟩
    by_cases hreturn : c = '\r'
    · by_cases hhead : d.text.head? = some '\n'
      · -- the return joins the feed behind it
        induction d using Decomposition.induction with
        | last d h => simp [head?_text_eq_feed_iff, h] at hhead
        | cons i d h _ =>
          obtain ⟨j, hj, hcontent, hterm⟩ := (head?_text_eq_feed_iff _).mp hhead
          obtain rfl : i = j := by simpa [Decomposition.cons] using hj
          have h (j : ClosedLine) : ClosedLine.MayPrecede ⟨[], .returnFeed, .nil⟩ j :=
            ClosedLine.mayPrecede_of_ne (by simp) j
          exact ⟨cons _ d fun j _ => h j, by simp [hcontent, hterm, Terminator.chars, hreturn]⟩
      · exact ⟨cons ⟨[], .carriageReturn, .nil⟩ d ((mayPrecede_iff _ d).mpr fun _ => hhead),
          by simp [Terminator.chars, hreturn]⟩
    · have hc : isBreak c = false := by simp [isBreak, hfeed, hreturn]
      -- any other character joins the line behind it
      induction d using Decomposition.induction with
      | last d h =>
        have hplain : IsPlain (c :: d.tail.getD []) := d.isPlain_tail.cons hc
        exact ⟨⟨[], some (c :: d.tail.getD []), .nil, by simpa using hplain, by simp⟩,
          by simp [text, h]⟩
      | cons i d h _ =>
        have h' := (mayPrecede_iff ⟨c :: i.content, i.terminator, i.plain.cons hc⟩ d).mpr
          ((mayPrecede_iff i d).mp h)
        exact ⟨cons _ d h', by simp⟩

/-- What stands before the first break of a text is its first line. -/
theorem takeWhile_text_cons (i : ClosedLine) (d : Decomposition)
    (h : ∀ j ∈ d.items.head?, i.MayPrecede j) :
    (cons i d h).text.takeWhile (fun c => !isBreak c) = i.content := by
  have hplain : ∀ c ∈ i.content, (!isBreak c) = true := by
    intro c hc
    simp [i.plain c hc]
  rw [text_cons, List.takeWhile_append_of_pos hplain]
  cases i.terminator <;> simp [Terminator.chars, isBreak]

theorem text_last_ne_text_cons {d : Decomposition} (hd : d.items = []) (i : ClosedLine)
    (d' : Decomposition) (h : ∀ j ∈ d'.items.head?, i.MayPrecede j) :
    d.text ≠ (cons i d' h).text := by
  intro he
  rw [text_of_items_eq_nil hd, text_cons] at he
  obtain ⟨c, hc⟩ := List.exists_mem_of_ne_nil _ i.terminator.chars_ne_nil
  have hmem : c ∈ d.tail.getD [] := by
    rw [he]
    exact List.mem_append_right _ (List.mem_append_left _ hc)
  exact d.isPlain_tail.not_mem_of_mem_chars hc hmem

theorem terminator_append_inj {e e' : Terminator} {r r' : List Char}
    (he : e = .carriageReturn → r.head? ≠ some '\n')
    (he' : e' = .carriageReturn → r'.head? ≠ some '\n')
    (h : e.chars ++ r = e'.chars ++ r') : e = e' ∧ r = r' := by
  cases e <;> cases e' <;> simp_all [Terminator.chars]
  all_goals
    subst h
    simp_all

theorem text_injective {d d' : Decomposition} (h : d.text = d'.text) : d = d' := by
  induction d using Decomposition.induction generalizing d' with
  | last d hd =>
    induction d' using Decomposition.induction with
    | last d' hd' =>
      rw [text_of_items_eq_nil hd, text_of_items_eq_nil hd'] at h
      refine Decomposition.ext (by rw [hd, hd']) ?_
      -- an absent tail reads as an empty one, and no tail that is there is empty
      cases ht : d.tail with
      | none =>
        cases ht' : d'.tail with
        | none => rfl
        | some l =>
          exact absurd (by simpa [ht, ht'] using h.symm) (d'.tail_ne_nil l (by simp [ht']))
      | some l =>
        cases ht' : d'.tail with
        | none => exact absurd (by simpa [ht, ht'] using h) (d.tail_ne_nil l (by simp [ht]))
        | some l' => simpa [ht, ht'] using h
    | cons i d' h' _ => exact absurd h (text_last_ne_text_cons hd i d' h')
  | cons i d hi ih =>
    induction d' using Decomposition.induction with
    | last d' hd' => exact absurd h.symm (text_last_ne_text_cons hd' i d hi)
    | cons i' d' hi' _ =>
      have hcontent : i.content = i'.content := by
        rw [← takeWhile_text_cons i d hi, ← takeWhile_text_cons i' d' hi', h]
      rw [text_cons, text_cons, hcontent, List.append_cancel_left_eq] at h
      obtain ⟨hterm, htext⟩ :=
        terminator_append_inj ((mayPrecede_iff i d).mp hi) ((mayPrecede_iff i' d').mp hi') h
      obtain rfl : i = i' := ClosedLine.ext hcontent hterm
      obtain rfl : d = d' := ih htext
      rfl

end Decomposition

/-! ## Splitting gives the lines of the decomposition -/

theorem ne_of_isBreak_eq_false {c : Char} (hc : isBreak c = false) : c ≠ '\r' ∧ c ≠ '\n' := by
  rw [← not_or, ← isBreak_eq_true_iff, hc]
  simp

theorem splitLines_cons_plain {c : Char} (hc : isBreak c = false) {t first : List Char}
    {others : List (List Char)} (ht : splitLines t = first :: others) :
    splitLines (c :: t) = (c :: first) :: others := by
  obtain ⟨hreturn, hfeed⟩ := ne_of_isBreak_eq_false hc
  simp [splitLines_cons, pushFront, hreturn, hfeed, ht]

theorem splitLines_plain_append {l : List Char} (hl : IsPlain l) {t first : List Char}
    {others : List (List Char)} (ht : splitLines t = first :: others) :
    splitLines (l ++ t) = (l ++ first) :: others := by
  induction l with
  | nil => exact ht
  | cons c l ih =>
    have hrest := ih hl.tail
    exact splitLines_cons_plain (hl c List.mem_cons_self) hrest

/-- A line that is not closed is the only line. -/
theorem splitLines_plain {l : List Char} (hl : IsPlain l) (hne : l ≠ []) : splitLines l = [l] := by
  induction l with
  | nil => exact absurd rfl hne
  | cons c l ih =>
    have hc : isBreak c = false := hl c List.mem_cons_self
    cases l with
    | nil =>
      obtain ⟨hreturn, hfeed⟩ := ne_of_isBreak_eq_false hc
      simp [splitLines_cons, pushFront, hreturn, hfeed]
    | cons b l =>
      have hrest := ih hl.tail (by simp)
      exact splitLines_cons_plain hc hrest

/-- A terminator closes the line before it. -/
theorem splitLines_terminator (e : Terminator) {t : List Char}
    (he : e = .carriageReturn → t.head? ≠ some '\n') :
    splitLines (e.chars ++ t) = [] :: splitLines t := by
  cases e with
  | feed => exact splitLines_feed t
  | returnFeed => exact splitLines_return_feed t
  | carriageReturn => simp [Terminator.chars, splitLines_cons, pushFront, he rfl]

theorem splitLines_text (d : Decomposition) : splitLines d.text = d.lines := by
  induction d using Decomposition.induction with
  | last d h =>
    cases ht : d.tail with
    | none => simp [Decomposition.text, Decomposition.lines, h, ht]
    | some l =>
      have hl := splitLines_plain (d.tail_plain l (by simp [ht])) (d.tail_ne_nil l (by simp [ht]))
      simpa [Decomposition.text, Decomposition.lines, h, ht] using hl
  | cons i d h ih =>
    have hterm := splitLines_terminator i.terminator ((Decomposition.mayPrecede_iff i d).mp h)
    rw [Decomposition.text_cons, Decomposition.lines_cons, splitLines_plain_append i.plain hterm, ih]
    simp

theorem isPlain_of_mem_splitLines {t l : List Char} (hl : l ∈ splitLines t) : IsPlain l := by
  obtain ⟨d, rfl⟩ := Decomposition.exists_text_eq t
  rw [splitLines_text, Decomposition.lines, List.mem_append, List.mem_map, Option.mem_toList] at hl
  rcases hl with ⟨i, -, rfl⟩ | hl
  · exact i.plain
  · exact d.tail_plain l hl

/-- Splitting takes the breaks away and nothing else. -/
theorem flatten_splitLines (t : List Char) :
    (splitLines t).flatten = t.filter (fun c => !isBreak c) := by
  obtain ⟨d, rfl⟩ := Decomposition.exists_text_eq t
  rw [splitLines_text]
  induction d using Decomposition.induction with
  | last d h =>
    rw [Decomposition.text_of_items_eq_nil h, d.isPlain_tail.filter_eq_self]
    cases ht : d.tail <;> simp [Decomposition.lines, h, ht]
  | cons i d h ih =>
    have hterm : i.terminator.chars.filter (fun c => !isBreak c) = [] := by
      rw [List.filter_eq_nil_iff]
      intro c hc
      simp [i.terminator.isBreak_of_mem c hc]
    simp [i.plain.filter_eq_self, hterm, ih]

/-- A needle without breaks stands in a text exactly if it stands in one of its lines. -/
theorem infix_text_iff {needle : List Char} (hne : needle ≠ []) (hn : IsPlain needle)
    (t : List Char) : needle <:+: t ↔ ∃ l ∈ splitLines t, needle <:+: l := by
  obtain ⟨d, rfl⟩ := Decomposition.exists_text_eq t
  rw [splitLines_text]
  induction d using Decomposition.induction with
  | last d h =>
    rw [Decomposition.text_of_items_eq_nil h]
    cases ht : d.tail <;> simp [Decomposition.lines, h, ht, hne]
  | cons i d h ih =>
    have hdisj : ∀ c ∈ i.terminator.chars, c ∉ needle := fun c hc => hn.not_mem_of_mem_chars hc
    rw [Decomposition.text_cons, ← List.append_assoc,
      infix_gap_iff hne _ i.terminator.chars_ne_nil hdisj, ih, Decomposition.lines_cons]
    simp

/-! ## Other terminators in place of feeds -/

/-- The text with `e` written for every line feed. -/
def Terminator.forFeeds (e : Terminator) (t : List Char) : List Char :=
  t.flatMap fun c => if c = '\n' then e.chars else [c]

/-- The closed lines with another terminator. -/
def ClosedLine.closedBy (e : Terminator) (i : ClosedLine) : ClosedLine := { i with terminator := e }

/-- All lines closed by the same terminator: nothing can then read as a return with a feed. -/
def Decomposition.closedBy (e : Terminator) (d : Decomposition) : Decomposition where
  items := d.items.map (ClosedLine.closedBy e)
  tail := d.tail
  chain := by
    rw [List.isChain_map]
    apply d.chain.imp
    rintro i j - ⟨hi, -, hj⟩
    exact absurd (hi.symm.trans hj) (by simp)
  tail_plain := d.tail_plain
  tail_ne_nil := d.tail_ne_nil

theorem Decomposition.lines_closedBy (e : Terminator) (d : Decomposition) :
    (d.closedBy e).lines = d.lines := by
  simp [lines, closedBy, ClosedLine.closedBy, Function.comp_def]

theorem Terminator.forFeeds_append (e : Terminator) (s t : List Char) :
    e.forFeeds (s ++ t) = e.forFeeds s ++ e.forFeeds t :=
  List.flatMap_append

theorem Terminator.forFeeds_plain (e : Terminator) {l : List Char} (hl : IsPlain l) :
    e.forFeeds l = l := by
  induction l with
  | nil => rfl
  | cons c l ih =>
    have hc := (ne_of_isBreak_eq_false (hl c List.mem_cons_self)).2
    have hrest := ih hl.tail
    rw [forFeeds] at hrest ⊢
    simp [hc, hrest]

theorem Terminator.forFeeds_feed (e : Terminator) : e.forFeeds Terminator.feed.chars = e.chars := by
  rw [forFeeds, show Terminator.feed.chars = ['\n'] from rfl]
  simp

theorem Decomposition.text_closedBy (e : Terminator) {d : Decomposition} (h : '\r' ∉ d.text) :
    (d.closedBy e).text = e.forFeeds d.text := by
  have hitem : ∀ i ∈ d.items, (i.closedBy e).text = e.forFeeds i.text := by
    intro i hi
    have hterm : i.terminator = .feed := by
      have hnot : '\r' ∉ i.terminator.chars := fun hr =>
        h (List.mem_append_left _ (List.mem_flatMap.mpr ⟨i, hi, List.mem_append_right _ hr⟩))
      cases ht : i.terminator <;> simp_all [Terminator.chars]
    rw [ClosedLine.text, ClosedLine.text, e.forFeeds_append, e.forFeeds_plain i.plain, hterm,
      e.forFeeds_feed]
    rfl
  have hitems : d.items.flatMap (fun i => (i.closedBy e).text)
      = e.forFeeds (d.items.flatMap ClosedLine.text) := by
    rw [Terminator.forFeeds, List.flatMap_assoc]
    exact List.flatMap_congr hitem
  rw [text, text, e.forFeeds_append, e.forFeeds_plain d.isPlain_tail, ← hitems]
  simp [closedBy, List.flatMap_map]

theorem splitLines_forFeeds (e : Terminator) {t : List Char} (h : '\r' ∉ t) :
    splitLines (e.forFeeds t) = splitLines t := by
  obtain ⟨d, rfl⟩ := Decomposition.exists_text_eq t
  rw [← Decomposition.text_closedBy e h, splitLines_text, splitLines_text,
    Decomposition.lines_closedBy]

end FlexAudit.Text

/-! ## Dumps -/

namespace FlexAudit

open Text

/-- **Lines and terminators.** A text has one decomposition, a dump of the text has its lines, only
breaks are dropped, and a text without returns may have any terminator in place of its feeds. -/
theorem ofText_inverts_termination (t : String) :
    (∃! d : Decomposition, d.text = t.toList) ∧
    (∀ d : Decomposition, d.text = t.toList →
      (Dump.ofText t).lines = d.lines.map String.ofList) ∧
    (Dump.ofText t).lines.flatMap String.toList = t.toList.filter (fun c => !isBreak c) ∧
    ('\r' ∉ t.toList → ∀ e : Terminator, ∀ t' : String, t'.toList = e.forFeeds t.toList →
      Dump.ofText t' = Dump.ofText t ∧ (Dump.ofText t').analyze = (Dump.ofText t).analyze) := by
  refine ⟨?_, ?_, ?_, ?_⟩
  · obtain ⟨d, hd⟩ := Decomposition.exists_text_eq t.toList
    exact ⟨d, hd, fun d' hd' => Decomposition.text_injective (hd'.trans hd.symm)⟩
  · intro d hd
    rw [Dump.ofText, ← hd, splitLines_text]
  · rw [← flatten_splitLines, Dump.ofText, List.flatMap_map]
    simp [List.flatMap_def]
  · intro hr e t' ht'
    have hdump : Dump.ofText t' = Dump.ofText t := by
      rw [Dump.ofText, Dump.ofText, ht', splitLines_forFeeds e hr]
    exact ⟨hdump, by rw [hdump]⟩

/-- Empty lines and an open last line, with returns for feeds. -/
theorem ofText_inverts_termination_returns :
    '\r' ∉ "a\n\n\nb".toList ∧ Dump.ofText "a\r\r\rb" = Dump.ofText "a\n\n\nb" :=
  ⟨by decide, ((ofText_inverts_termination "a\n\n\nb").2.2.2 (by decide) .carriageReturn
    "a\r\r\rb" (by decide)).1⟩

/-! ## Search by lines -/

theorem Dump.contains_ofText_iff {needle : String} (hne : needle.toList ≠ [])
    (hplain : IsPlain needle.toList) (t : String) :
    (Dump.ofText t).contains needle = true ↔ needle.toList <:+: t.toList := by
  rw [infix_text_iff hne hplain]
  simp [Dump.contains, Dump.ofText, occursIn_iff]

/-- Where no line has a break in it, neither has what is found in a line. -/
theorem Dump.contains_ofText_of_not_plain {needle : String} (h : ¬ IsPlain needle.toList)
    (t : String) : (Dump.ofText t).contains needle = false := by
  rw [← Bool.not_eq_true]
  intro hcontains
  apply h
  obtain ⟨l, hl, hfound⟩ : ∃ l ∈ splitLines t.toList, needle.toList <:+: l := by
    simpa [Dump.contains, Dump.ofText, occursIn_iff] using hcontains
  intro c hc
  exact isPlain_of_mem_splitLines hl c (hfound.subset hc)

theorem infix_toList_iff (n t : String) :
    n.toList <:+: t.toList ↔ ∃ front rest, t = front ++ n ++ rest := by
  constructor
  · rintro ⟨x, y, hxy⟩
    refine ⟨String.ofList x, String.ofList y, ?_⟩
    rw [← String.toList_inj]
    simp [← hxy]
  · rintro ⟨front, rest, rfl⟩
    exact ⟨front.toList, rest.toList, by simp⟩

theorem isPlain_iff_notMem (l : List Char) : IsPlain l ↔ '\r' ∉ l ∧ '\n' ∉ l := by
  constructor
  · intro h
    exact ⟨h.not_mem_of_mem_chars (e := .carriageReturn) List.mem_cons_self,
      h.not_mem_of_mem_chars (e := .feed) List.mem_cons_self⟩
  · rintro ⟨hreturn, hfeed⟩ c hc
    rw [← Bool.not_eq_true, isBreak_eq_true_iff]
    rintro (rfl | rfl)
    · exact hreturn hc
    · exact hfeed hc

/-- **Search by lines and in the text.** For a needle that is not empty and has no break in it, a
search line by line finds what a search in the raw text finds, whatever terminators the text has. For
no other needle do the two agree on every text. -/
theorem search_by_lines_exact :
    (∀ t n : String, n ≠ "" → '\r' ∉ n.toList → '\n' ∉ n.toList →
      ((Dump.ofText t).contains n = true ↔ ∃ front rest, t = front ++ n ++ rest)) ∧
    (∀ n : String, n = "" ∨ '\r' ∈ n.toList ∨ '\n' ∈ n.toList →
      ∃ t, (∃ front rest, t = front ++ n ++ rest) ∧ (Dump.ofText t).contains n = false) := by
  constructor
  · intro t n hne hreturn hfeed
    have hnil : n.toList ≠ [] := by simpa using hne
    rw [← infix_toList_iff]
    exact Dump.contains_ofText_iff hnil ((isPlain_iff_notMem _).mpr ⟨hreturn, hfeed⟩) t
  · intro n hn
    refine ⟨n, ⟨"", "", by simp⟩, ?_⟩
    rcases hn with rfl | hbreak
    · rfl
    · apply Dump.contains_ofText_of_not_plain
      rw [isPlain_iff_notMem]
      rintro ⟨hreturn, hfeed⟩
      exact hbreak.elim hreturn hfeed

/-- An occurrence that overlaps a partial one, in an open last line behind two kinds of terminators. -/
theorem search_by_lines_exact_overlap :
    ("aab" ≠ "" ∧ '\r' ∉ "aab".toList ∧ '\n' ∉ "aab".toList) ∧
      (Dump.ofText "a\rab\r\naaab").contains "aab" = true := by
  have hne : "aab" ≠ "" := by decide
  have hreturn : '\r' ∉ "aab".toList := by decide
  have hfeed : '\n' ∉ "aab".toList := by decide
  refine ⟨⟨hne, hreturn, hfeed⟩, ?_⟩
  exact (search_by_lines_exact.1 _ "aab" hne hreturn hfeed).mpr ⟨"a\rab\r\na", "", by decide⟩

end FlexAudit
