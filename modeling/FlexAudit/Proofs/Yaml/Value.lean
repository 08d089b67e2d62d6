import FlexAudit.Proofs.Record
import FlexAudit.Proofs.Text.Digits
import FlexAudit.Proofs.Yaml.Node
import FlexAudit.Yaml.Value

/-!
# Values of the nodes of a record

A text is never written so that it could be taken for a missing value, and a number is written in
the one way in which it is read. Proved here:

* `option?_ofText`: a text that is given is there when it is read;
* `unsigned?_toDigits`, `plainAllowed_toDigits`: a number needs no quotes and keeps its value;
* `slots?_record`: the slots of a record are the members that it was built from.
-/

namespace FlexAudit.Yaml

open Node Scanner

/-! ## Texts -/

theorem Document.text?_ofText (d : Document) (t : String) : d.text? (ofText t) = some t := by
  rfl

theorem Document.list?_ofText (d : Document) (items : List String) :
    d.list? d.text? (.sequence (items.map ofText)) = some items := by
  have hmap : (items.map ofText).mapM d.text? = some (items.map id) :=
    mapM_map_eq_some fun t _ => d.text?_ofText t
  rwa [List.map_id] at hmap

/-- A plain text is neither empty nor null. -/
theorem ne_null_of_styleOf {t : String} (h : styleOf t.toList = .plain) :
    t ≠ "" ∧ isNullText t = false := by
  have hwritten := written_writeScalar 0 t
  rw [h] at hwritten
  generalize writeScalar 0 t = written at hwritten
  cases hwritten with
  | plain hvalue _ =>
    simp only [readsAsValue, Bool.or_eq_false_iff, String.ofList_toList] at hvalue
    obtain ⟨⟨⟨⟨⟨hempty, hnull⟩, -⟩, -⟩, -⟩, -⟩ := hvalue
    refine ⟨?_, hnull⟩
    rintro rfl
    cases hempty

theorem Document.option?_plain {α : Type} (d : Document) (value : Node → Option α) {t : String}
    (hempty : t ≠ "") (hnull : isNullText t = false) :
    d.option? value (.scalar .plain none t) = (value (.scalar .plain none t)).map some := by
  rw [option?]
  simp [resolve?, hempty, hnull]

theorem Document.option?_ofText (d : Document) (t : String) :
    d.option? d.text? (ofText t) = some (some t) := by
  have hplain := ne_null_of_styleOf (t := t)
  unfold ofText
  generalize styleOf t.toList = style at hplain
  cases style with
  | plain => exact d.option?_plain d.text? (hplain rfl).1 (hplain rfl).2
  | singleQuoted | doubleQuoted | literal | folded => rfl

/-! ## Numbers -/

theorem isDigit_of_mem_toDigits {n : Nat} {c : Char} (hc : c ∈ Nat.toDigits 10 n) :
    c.isDigit = true :=
  Nat.isDigit_of_mem_toDigits (by decide) (by decide) hc

theorem ne_of_isDigit {c d : Char} (hc : c.isDigit = true) (hd : d.isDigit = false) : c ≠ d := by
  rintro rfl
  rw [hd] at hc
  cases hc

theorem toNat_of_isDigit {c : Char} (hc : c.isDigit = true) : 48 ≤ c.toNat ∧ c.toNat ≤ 57 := by
  simpa [Char.isDigit, UInt32.le_iff_toNat_le] using hc

theorem isPrintable_of_isDigit {c : Char} (hc : c.isDigit = true) : isPrintable c = true := by
  have hrange := toNat_of_isDigit hc
  simp [isPrintable]
  omega

theorem isBreak_of_isDigit {c : Char} (hc : c.isDigit = true) : isBreak c = false := by
  simp [isBreak, ne_of_isDigit hc (d := '\n') rfl, ne_of_isDigit hc (d := '\r') rfl,
    ne_of_isDigit hc (d := '\u0085') rfl, ne_of_isDigit hc (d := '\u2028') rfl,
    ne_of_isDigit hc (d := '\u2029') rfl]

theorem anyNeighbours_eq_false {p : Char → Char → Bool} {cs : List Char}
    (h : ∀ a ∈ cs, ∀ b ∈ cs, p a b = false) : anyNeighbours p cs = false := by
  rw [anyNeighbours, List.any_eq_false]
  rintro ⟨a, b⟩ hab
  obtain ⟨ha, hb⟩ := List.of_mem_zip hab
  simp [h a ha b (List.mem_of_mem_drop hb)]

theorem startsLikeToken_of_isDigit {c : Char} (hc : c.isDigit = true) (rest : List Char) :
    startsLikeToken (c :: rest) = false := by
  let indicators := ['-', '.', ',', '[', ']', '\x7b', '\x7d', '#', '&', '*', '!', '|', '>', '\'',
    '"', '%', '@', '\x60', '?', ':']
  have hnone : indicators.any Char.isDigit = false := rfl
  have hne : ∀ d ∈ indicators, c ≠ d := by
    intro d hd
    exact ne_of_isDigit hc (by simpa using List.any_eq_false.1 hnone d hd)
  simp only [indicators, List.mem_cons, forall_eq_or_imp] at hne
  simp [startsLikeToken, isBracketOrComma, hne]

theorem holdsToken_of_isDigit {cs : List Char} (hcs : ∀ c ∈ cs, c.isDigit = true) :
    holdsToken cs = false := by
  have hne (d : Char) (hd : d.isDigit = false) (c : Char) (hc : c ∈ cs) : (c == d) = false := by
    simpa using ne_of_isDigit (hcs c hc) hd
  have hcolon : anyNeighbours (fun a b => a == ':' && blankNext [b]) cs = false :=
    anyNeighbours_eq_false fun a ha b _ => by simp [hne ':' rfl a ha]
  have hcomment : anyNeighbours (fun a b => blankNext [a] && b == '#') cs = false :=
    anyNeighbours_eq_false fun a _ b hb => by simp [hne '#' rfl b hb]
  have hlast : cs.getLast? ≠ some ':' := by
    intro h
    exact absurd (hcs ':' (List.mem_of_getLast? h)) (by decide)
  simp [holdsToken, hcolon, hcomment, hlast]

theorem plainAllowed_of_isDigit {cs : List Char} (hcs : ∀ c ∈ cs, c.isDigit = true) :
    plainAllowed cs = true := by
  have hbreak (c : Char) (hc : c ∈ cs) : isBreak c = false := isBreak_of_isDigit (hcs c hc)
  have hspecial : hasSpecial cs = false := by
    simpa [hasSpecial] using fun c hc => isPrintable_of_isDigit (hcs c hc)
  have hquotes : singleQuotesAllowed cs = true := by
    have hbreakSpace : hasBreakSpace cs = false :=
      anyNeighbours_eq_false fun a ha b _ => by simp [hbreak a ha]
    have hspaceBreak : hasSpaceBreak cs = false :=
      anyNeighbours_eq_false fun a _ b hb => by simp [hbreak b hb]
    simp [singleQuotesAllowed, hbreakSpace, hspaceBreak, hspecial]
  have hends {end? : Option Char} (h : ∀ c ∈ end?, c ∈ cs) : end?.any isSpaceOrBreak = false := by
    cases end? with
    | none => rfl
    | some c =>
      have hspace : c ≠ ' ' := ne_of_isDigit (hcs c (h c rfl)) rfl
      simp [isSpaceOrBreak, hspace, hbreak c (h c rfl)]
  have hstarts : startsLikeToken cs = false := by
    cases cs with
    | nil => rfl
    | cons c cs => exact startsLikeToken_of_isDigit (hcs c List.mem_cons_self) cs
  have hfirst := hends fun _ hc => List.mem_of_mem_head? hc
  have hlast := hends fun _ hc => List.mem_of_getLast? hc
  have hnone : cs.any isBreak = false := List.any_eq_false.2 fun c hc => by simp [hbreak c hc]
  simp [plainAllowed, hquotes, hnone, hfirst, hlast, hstarts, holdsToken_of_isDigit hcs]

theorem digitValue?_of_isDigit {c : Char} (hc : c.isDigit = true) :
    digitValue? 10 c = some (c.toNat - 48) := by
  have hrange := toNat_of_isDigit hc
  have hdigit : '0' ≤ c ∧ c ≤ '9' := by simpa [Char.isDigit, Char.le_def] using hc
  simp [digitValue?, hdigit]
  omega

theorem foldl_digits {cs : List Char} (hcs : ∀ c ∈ cs, c.isDigit = true) (n : Nat) :
    cs.foldl (fun n c => do return (← n) * 10 + (← digitValue? 10 c)) (some n) =
      some (cs.foldl (fun n c => n * 10 + (c.toNat - 48)) n) := by
  induction cs generalizing n with
  | nil => rfl
  | cons c cs ih =>
    have hc := digitValue?_of_isDigit (hcs c List.mem_cons_self)
    have hrest := ih fun d hd => hcs d (List.mem_cons_of_mem c hd)
    simp only [List.foldl_cons, hc, ← hrest]
    rfl

theorem unsigned?_toDigits (n : Nat) : unsigned? (Nat.toDigits 10 n) = some n := by
  rcases Nat.eq_zero_or_pos n with rfl | hn
  · rfl
  · have hfirst := Text.head?_toDigits hn
    have hvalue := Text.foldl_toDigits n
    have hdigits (c : Char) (hc : c ∈ Nat.toDigits 10 n) : c.isDigit = true :=
      isDigit_of_mem_toDigits hc
    generalize hcs : Nat.toDigits 10 n = digits at hfirst hvalue hdigits
    obtain _ | ⟨c, cs⟩ := digits
    · exact absurd hcs Nat.toDigits_ne_nil
    have hzero : c ≠ '0' := by simpa using hfirst
    have hplus : c ≠ '+' := ne_of_isDigit (hdigits c List.mem_cons_self) rfl
    have hminus : c ≠ '-' := ne_of_isDigit (hdigits c List.mem_cons_self) rfl
    have hdrop : dropPlus (c :: cs) = c :: cs := by simp [dropPlus, hplus]
    have hneedless : hasNeedlessZero (c :: cs) = false := by
      simp [hasNeedlessZero, dropSign, hplus, hminus, hzero]
    have hmagnitude : magnitude? (c :: cs) = digits? 10 (c :: cs) := by
      simp [magnitude?, hzero, hneedless]
    rw [unsigned?, hdrop, hmagnitude, digits?, foldl_digits hdigits, hvalue]
    rfl

theorem plainAllowed_toDigits (n : Nat) : plainAllowed (Nat.toDigits 10 n) = true :=
  plainAllowed_of_isDigit fun _ hc => isDigit_of_mem_toDigits hc

theorem toDigits_ne_null (n : Nat) : String.ofList (Nat.toDigits 10 n) ≠ "" ∧
    isNullText (String.ofList (Nat.toDigits 10 n)) = false := by
  have hword (word : String) (h : word.toList.all Char.isDigit = false) :
      String.ofList (Nat.toDigits 10 n) ≠ word := by
    rintro rfl
    rw [String.toList_ofList, List.all_eq_false] at h
    obtain ⟨c, hc, hdigit⟩ := h
    exact hdigit (isDigit_of_mem_toDigits hc)
  constructor
  · intro h
    have hlist := congrArg String.toList h
    rw [String.toList_ofList] at hlist
    exact Nat.toDigits_ne_nil hlist
  · simp [isNullText, hword "null" (by decide), hword "Null" (by decide), hword "NULL" (by decide),
      hword "~" (by decide)]

theorem Document.natBelow?_toDigits (d : Document) {n bound : Nat} (hn : n < bound) :
    d.natBelow? bound (.scalar .plain none (String.ofList (Nat.toDigits 10 n))) = some n := by
  have hunsigned := unsigned?_toDigits n
  rw [natBelow?]
  simp [resolve?, isTyped, hunsigned, hn]

/-- A number as a field. -/
def Scanner.Field.nat (n : Nat) : Field :=
  .word (Nat.toDigits 10 n) (plainAllowed_toDigits n) Nat.toDigits_ne_nil

theorem Scanner.Field.write_nat (n indent : Nat) (name : String) :
    (Field.nat n).write indent name = writeMember indent name (Nat.toDigits 10 n ++ ['\n']) := by
  rfl

theorem Document.option?_nat {α : Type} (d : Document) (f : Nat → α) {n bound : Nat}
    (hn : n < bound) :
    d.option? (fun m => (d.natBelow? bound m).map f) (ofField (.nat n)) = some (some (f n)) := by
  obtain ⟨hempty, hnull⟩ := toDigits_ne_null n
  have hvalue := d.natBelow?_toDigits hn
  rw [Field.nat, ofField, d.option?_plain _ hempty hnull, hvalue]
  rfl

/-! ## Switches -/

/-- A switch as a field. -/
def Scanner.Field.bool (b : Bool) : Field :=
  .word (if b then "true".toList else "false".toList) (by cases b <;> decide)
    (by cases b <;> decide)

theorem Document.bool?_bool (d : Document) (b : Bool) : d.bool? (ofField (.bool b)) = some b := by
  cases b <;> rfl

/-! ## Slots -/

theorem Document.members?_record (d : Document) (members : List (String × Node)) :
    d.members? (record members) = some members := by
  have hmap : (members.map fun m => (ofName m.1, m.2)).mapM
      (fun m => do return (← d.text? m.1, m.2)) = some (members.map id) :=
    mapM_map_eq_some fun m _ => rfl
  rwa [List.map_id] at hmap

theorem Document.slots?_record (d : Document) {members : List (String × Option Node)}
    (hnodup : (members.map Prod.fst).Nodup) :
    d.slots? (members.map Prod.fst) (record (present members)) = some (members.map Prod.snd) := by
  rw [slots?, members?_record]
  refine mapM_map_eq_some fun m hm => ?_
  rw [member?, filter_present hnodup hm]
  cases m.2 <;> rfl

end FlexAudit.Yaml
