import FlexAudit.Proofs.Yaml.Scanner
import Mathlib.Data.List.DropRight

/-!
# Tokens of a record

A record is written one field below the other, and a list below the name of its field with one item
on each line. The scanner knows the nesting from the columns alone, and finds a key by the colon
behind it. Proved here, for the scanner in front of a line:

* `Stands.key`, `Stands.entry`: a name with its colon, and the dash of an item;
* `Stands.field`, `Stands.record`: one field, and all of them;
* `Stands.finish`: the end of the text ends every collection;
* `scan_nested`: the tokens of a record whose first field is a record of its own.
-/

namespace FlexAudit.Yaml.Scanner

/-! ## Keys and entries -/

/-- The ends of the collections that a line at a column closes. -/
def closing (column : Nat) (indents : List Nat) : List Token :=
  (indents.takeWhile (column < ·)).map fun _ => .blockEnd

/-- The collections that it leaves open. -/
def closed (column : Nat) (indents : List Nat) : List Nat :=
  indents.dropWhile (column < ·)

/-- A line that starts at a column closes the collections that lie deeper. -/
theorem Stands.step {s : Scanner} {n : Nat} {rest : List Char} {tokens : List Token}
    {indents : List Nat} (h : Stands s (spaces n ++ rest) tokens indents) (hrest : Starts rest) :
    rest.length ≤ s.cursor.rest.length ∧
      ∃ line, s.step = dispatch ⟨⟨⟨line, n⟩, rest⟩, tokens ++ closing n indents, closed n indents,
        [none], true⟩ := by
  obtain ⟨hlead, hbody⟩ := lead_body_spaces_append n hrest
  obtain ⟨⟨line, hsettle⟩, hlength⟩ := h
  rw [atLine, hlead, hbody] at hsettle
  rw [hbody] at hlength
  refine ⟨hlength, line, ?_⟩
  rw [step_eq, hsettle]
  rfl

/-- Whether a key at a column is the first one of a new mapping. -/
def opensAt (column : Nat) (indents : List Nat) : Bool :=
  !(closed column indents).head?.any (column ≤ ·)

/-- The tokens in front of a key: the ends of the collections before it, and the start of its
mapping. -/
def opening (column : Nat) (indents : List Nat) : List Token :=
  closing column indents ++ if opensAt column indents then [.blockMappingStart] else []

/-- The tokens of a key. -/
def keyTokens (name : String) : List Token :=
  [.key, .scalar .plain name, .value]

def keyIndents (column : Nat) (indents : List Nat) : List Nat :=
  if opensAt column indents then column :: closed column indents else closed column indents

/-- The keys of a written record. -/
def isKey (name : List Char) : Bool :=
  plainAllowed name && !name.contains ' ' && name.head?.any (fun c => 'a' ≤ c && c ≤ 'z')
    && name.length ≤ maxKeyLength

theorem printable_of_isKey {name : List Char} (h : isKey name = true) : Printable name := by
  simp only [isKey, Bool.and_eq_true] at h
  exact printable_of_plainAllowed h.1.1.1

theorem insertIdx_length_append (ts us : List Token) (t : Token) :
    (ts ++ us).insertIdx ts.length t = ts ++ t :: us := by
  induction ts with
  | nil => rfl
  | cons u ts ih => simp [List.insertIdx_succ_cons, ih]

/-- A colon makes a key of what stands in front of it. -/
theorem value_of_key (cursor : Cursor) (tokens : List Token) {indents : List Nat} (t : Token)
    (required allowed : Bool) {p : Position} (hopen : closed p.column indents = indents) :
    value ⟨cursor, tokens ++ [t], indents, [some ⟨required, tokens.length, p⟩], allowed⟩ =
      some ⟨cursor.skip 1,
        tokens ++ ((if opensAt p.column indents then [.blockMappingStart] else []) ++
          [.key, t, .value]),
        keyIndents p.column indents, [none], false⟩ := by
  have hopens : opensAt p.column indents = !indents.head?.any (p.column ≤ ·) := by
    rw [opensAt, hopen]
  rw [keyIndents, hopen, hopens]
  simp only [value, insertIdx_length_append, openBlock]
  cases h : indents.head?.any (p.column ≤ ·) with
  | true => simp [inFlow, take, emit]
  | false => simp [inFlow, take, emit]

/-- The scanner behind the colon of a key. -/
def behindKey (p : Position) (rest : List Char) (tokens : List Token) (indents : List Nat) :
    Scanner :=
  ⟨⟨p, rest⟩, tokens, indents, [none], false⟩

theorem eq_cons_of_isKey {name : List Char} (h : isKey name = true) :
    ∃ c cs, name = c :: cs ∧ isMark c = true ∧ c ≠ '-' := by
  simp only [isKey, Bool.and_eq_true] at h
  cases name with
  | nil => simp at h
  | cons c cs =>
    have hc : 'a' ≤ c ∧ c ≤ 'z' := by simpa using h.1.2
    refine ⟨c, cs, rfl, by simp [isMark, hc], ?_⟩
    rintro rfl
    exact absurd hc.1 (by decide)

theorem starts_of_isKey {name : List Char} (h : isKey name = true) (rest : List Char) :
    Starts (name ++ rest) := by
  obtain ⟨c, cs, rfl, hmark, -⟩ := eq_cons_of_isKey h
  rintro d ⟨⟩
  exact hmark

theorem closed_closed (column : Nat) (indents : List Nat) :
    closed column (closed column indents) = closed column indents :=
  List.dropWhile_idempotent _ _

theorem le_of_mem_head?_closed {column m : Nat} {indents : List Nat}
    (h : m ∈ (closed column indents).head?) : m ≤ column := by
  have hstop := List.head?_dropWhile_not (fun m => decide (column < m)) indents
  unfold closed at h
  rw [Option.mem_def.1 h] at hstop
  simpa using hstop

/-- The name of a key is a plain scalar, and is noted where it starts. -/
theorem Stands.name {s : Scanner} {name : String} {n : Nat} {rest : List Char}
    {tokens : List Token} {indents : List Nat}
    (h : Stands s (spaces n ++ (name.toList ++ ':' :: rest)) tokens indents)
    (hname : isKey name.toList = true) (hrest : blankNext rest = true) :
    ∃ line required, Steps s ⟨⟨⟨line, n + name.toList.length⟩, ':' :: rest⟩,
      tokens ++ closing n indents ++ [.scalar .plain name], closed n indents,
      [some ⟨required, (tokens ++ closing n indents).length, ⟨line, n⟩⟩], false⟩ := by
  obtain ⟨hlength, line, hstep⟩ := h.step (starts_of_isKey hname (':' :: rest))
  obtain ⟨c, cs, hcs, hmark, hdash⟩ := eq_cons_of_isKey hname
  simp only [isKey, Bool.and_eq_true, Bool.not_eq_true', decide_eq_true_eq] at hname
  obtain ⟨⟨⟨hplain, hspace⟩, -⟩, -⟩ := hname
  let s₁ : Scanner := ⟨⟨⟨line, n⟩, name.toList ++ ':' :: rest⟩, tokens ++ closing n indents,
    closed n indents, [none], true⟩
  obtain ⟨f, hscan, htext, hbroken⟩ :=
    scanPlain_key s₁.leastIndent ⟨line, n⟩ hplain (by simpa using hspace) hrest
  have hdocument : s₁.cursor.atDocumentMark = false := by
    have hmarks := documentMarkNext_cons hdash (ne_of_isMark hmark rfl) (cs ++ ':' :: rest)
    simp [s₁, Cursor.atDocumentMark, hcs, hmarks]
  have hstart : PlainStart c (cs ++ ':' :: rest) :=
    plainStart_of_plainAllowed (hcs ▸ hplain) (':' :: rest)
  refine ⟨line, (closed n indents).head? == some n, ?_, ?_⟩
  · have hdispatch : s₁.dispatch = (s₁.token c (cs ++ ':' :: rest)).map (·, false) :=
      dispatch_cons (congrArg (· ++ ':' :: rest) hcs)
    rw [hstep, hdispatch, token_plain hdocument rfl hstart, plainScalar_eq rfl hscan, htext,
      hbroken, String.ofList_toList]
    rfl
  · simp [hcs] at hlength ⊢
    omega

/-- The colon behind a name that was noted. -/
theorem step_colon {n : Nat} {name : List Char} (hlength : name.length ≤ maxKeyLength)
    {rest : List Char} (hrest : blankNext rest = true) (tokens : List Token) {indents : List Nat}
    (hopen : closed n indents = indents) (t : Token) (line : Nat) (required : Bool) :
    Steps ⟨⟨⟨line, n + name.length⟩, ':' :: rest⟩, tokens ++ [t], indents,
        [some ⟨required, tokens.length, ⟨line, n⟩⟩], false⟩
      (behindKey ⟨line, n + name.length + 1⟩ rest
        (tokens ++ ((if opensAt n indents then [.blockMappingStart] else []) ++ [.key, t, .value]))
        (keyIndents n indents)) := by
  let s : Scanner := ⟨⟨⟨line, n + name.length⟩, ':' :: rest⟩, tokens ++ [t], indents,
    [some ⟨required, tokens.length, ⟨line, n⟩⟩], false⟩
  have hfresh : PossibleKey.isStale ⟨required, tokens.length, ⟨line, n⟩⟩ ⟨line, n + name.length⟩ =
      false := by
    simp [PossibleKey.isStale, hlength]
  have hkeys : s.keys.mapM (refresh ⟨line, n + name.length⟩) = some s.keys := by
    simp [s, refresh, hfresh]
  have hsettle : s.settle = some s := settle_eq (skipIgnored_visible false _ rfl rest) hkeys
  have hlevel : ∀ column ∈ s.indents.head?, column ≤ s.cursor.column := by
    intro column hcolumn
    have hclosed : column ∈ (closed n indents).head? := by rwa [hopen]
    exact Nat.le_add_right_of_le (le_of_mem_head?_closed hclosed)
  have htoken : s.token ':' rest = s.value := by
    have hmark := documentMarkNext_cons (c := ':') (by decide) (by decide) rest
    simp [s, token, Cursor.atDocumentMark, hmark, hrest]
  refine ⟨?_, Nat.lt_succ_self _⟩
  have hdispatch : s.dispatch = (s.token ':' rest).map (·, false) := dispatch_cons rfl
  rw [step_eq, hsettle, Option.bind_some, closeBlocks_of_le hlevel, hdispatch, htoken,
    value_of_key _ tokens t required false hopen]
  rfl

theorem Stands.key {s : Scanner} {name : String} {n : Nat} {rest : List Char}
    {tokens : List Token} {indents : List Nat}
    (h : Stands s (spaces n ++ (name.toList ++ ':' :: rest)) tokens indents)
    (hname : isKey name.toList = true) (hrest : blankNext rest = true) :
    ∃ p, n ≤ p.column ∧ Reaches s (behindKey p rest
      (tokens ++ (opening n indents ++ keyTokens name)) (keyIndents n indents)) := by
  obtain ⟨line, required, hfirst⟩ := h.name hname hrest
  simp only [isKey, Bool.and_eq_true, decide_eq_true_eq] at hname
  have hsecond := step_colon (n := n) hname.2 hrest (tokens ++ closing n indents)
    (closed_closed n indents) (.scalar .plain name) line required
  refine ⟨⟨line, n + name.toList.length + 1⟩, by simp [Nat.add_assoc], ?_⟩
  have htokens : tokens ++ (opening n indents ++ keyTokens name) = tokens ++ closing n indents ++
      ((if opensAt n (closed n indents) then [.blockMappingStart] else []) ++ keyTokens name) := by
    simp [opening, opensAt, closed_closed]
  have hindents : keyIndents n indents = keyIndents n (closed n indents) := by
    simp [keyIndents, opensAt, closed_closed]
  rw [htokens, hindents]
  exact .head hfirst (.single hsecond)

theorem Stands.entry {s : Scanner} {n : Nat} {rest : List Char} {tokens : List Token}
    {indents : List Nat}
    (h : Stands s (spaces n ++ '-' :: ' ' :: rest) tokens (n :: indents)) :
    ∃ p, n ≤ p.column ∧
      Steps s (atScalar p rest (tokens ++ [.blockEntry]) (n :: indents) true) := by
  obtain ⟨hlength, line, hstep⟩ := h.step (by rintro d ⟨⟩; rfl)
  have hmark : documentMarkNext ('-' :: ' ' :: rest) = false := by
    cases rest <;> simp [documentMarkNext]
  refine ⟨⟨line, n + 1⟩, Nat.le_succ n, ?_, ?_⟩
  · rw [hstep]
    simp [dispatch, closing, closed, token, Cursor.atDocumentMark, hmark, blankNext, isBlank,
      blockEntry, openBlock, dropKey, take, emit, atScalar, Cursor.skip, Cursor.column, inFlow]
  · simp [atScalar] at hlength ⊢
    omega

/-- Brackets around nothing. -/
theorem reaches_emptyList {p : Position} {column : Nat} (hp : column ≤ p.column)
    (tokens : List Token) (indents : List Nat) {tail : List Char} (htail : NextLine column tail) :
    ∃ s', Reaches (atScalar p ('[' :: ']' :: '\n' :: tail) tokens (column :: indents) false) s' ∧
      Stands s' tail (tokens ++ [.flowSequenceStart, .flowSequenceEnd]) (column :: indents) := by
  let opened : Scanner := ⟨⟨p.next.next, ']' :: '\n' :: tail⟩, tokens ++ [.flowSequenceStart],
    column :: indents, [none, none], true⟩
  let done : Scanner := ⟨⟨p.next.next.next, '\n' :: tail⟩,
    tokens ++ [.flowSequenceStart] ++ [.flowSequenceEnd], column :: indents, [none], false⟩
  have hopen : Steps (atScalar p ('[' :: ']' :: '\n' :: tail) tokens (column :: indents) false)
      opened := by
    refine ⟨?_, Nat.lt_succ_of_lt (Nat.lt_succ_self _)⟩
    rw [step_atScalar rfl hp]
    simp [token, Cursor.atDocumentMark, Cursor.column, Position.next, openFlow, noteKey, take, emit,
      Cursor.skip, opened]
  have hclose : Steps opened done := by
    refine ⟨?_, Nat.lt_succ_self _⟩
    have hskip : skipIgnored true false true p.next.next (']' :: '\n' :: tail) =
        (true, ⟨p.next.next, ']' :: '\n' :: tail⟩) := by
      simp [skipIgnored, isBreak, byteOrderMark]
    have hsettle : opened.settle = some opened := settle_eq hskip rfl
    rw [step_eq, hsettle]
    simp [closeBlocks, inFlow, dispatch, token, Cursor.atDocumentMark, Cursor.column, Position.next,
      closeFlow, dropKey, take, emit, Cursor.skip, opened, done]
  have hstands := stands_of_feed p.next.next.next
    (tokens ++ [.flowSequenceStart] ++ [.flowSequenceEnd]) (column :: indents)
    ⟨none, rfl, by simp⟩ htail.starts false
  exact ⟨done, .head hopen (.single hclose), by simpa [done] using hstands⟩

/-- The end of the text ends every collection. -/
theorem Stands.finish {s : Scanner} {tokens : List Token} {indents : List Nat}
    (h : Stands s [] tokens indents) :
    ∃ last, s.step = some (last, true) ∧
      last.tokens = tokens ++ ((indents.map fun _ => .blockEnd) ++ [.streamEnd]) := by
  obtain ⟨-, line, hstep⟩ := Stands.step (n := 0) h (by simp [Starts])
  let s₁ : Scanner := ⟨⟨⟨line, 0⟩, []⟩, tokens ++ closing 0 indents, closed 0 indents, [none], true⟩
  have hend : s₁.streamEnd = some ((s₁.closeBlocks fun _ => true).emit .streamEnd) := rfl
  refine ⟨(s₁.closeBlocks fun _ => true).emit .streamEnd, ?_, ?_⟩
  · rw [hstep]
    exact congrArg (Option.map (·, true)) hend
  · have hall : (closed 0 indents).takeWhile (fun _ => true) = closed 0 indents :=
      List.takeWhile_eq_self_iff.2 fun _ _ => rfl
    have hends : closing 0 indents ++ (closed 0 indents).map (fun _ => Token.blockEnd) =
        indents.map fun _ => .blockEnd := by
      rw [closing, closed, ← List.map_append, List.takeWhile_append_dropWhile]
    simp [s₁, closeBlocks, inFlow, emit, hall, ← hends]

/-! ## Fields -/

theorem keyIndents_eq_cons (n : Nat) (indents : List Nat) :
    ∃ outer, keyIndents n indents = n :: outer := by
  unfold keyIndents opensAt
  cases hclosed : closed n indents with
  | nil => exact ⟨[], rfl⟩
  | cons m outer =>
    have hle : m ≤ n := le_of_mem_head?_closed (by rw [hclosed]; rfl)
    by_cases hm : n ≤ m
    · obtain rfl : m = n := Nat.le_antisymm hle hm
      exact ⟨outer, by simp⟩
    · exact ⟨m :: outer, by simp [hm]⟩

/-- A value as it is written in a record. -/
inductive Field where
  /-- A word that is written as it is. -/
  | word (cs : List Char) (plain : plainAllowed cs = true) (nonempty : cs ≠ [])
  | text (s : String)
  | texts (items : List String)

namespace Field

def write (indent : Nat) (name : String) : Field → List Char
  | word cs _ _ => writeMember indent name (cs ++ ['\n'])
  | text s => writeText indent name s
  | texts items => writeTexts indent name items

def textToken (s : String) : Token :=
  .scalar (styleOf s.toList) s

def tokens : Field → List Token
  | word cs _ _ => [.scalar .plain (String.ofList cs)]
  | text s => [textToken s]
  | texts [] => [.flowSequenceStart, .flowSequenceEnd]
  | texts items => items.flatMap fun item => [.blockEntry, textToken item]

end Field

theorem readsLine_text {p : Position} {column : Nat} (hp : column ≤ p.column) (tokens : List Token)
    (indents : List Nat) (allowed : Bool) {tail : List Char} (htail : NextLine column tail)
    (text : String) :
    ReadsLine (atScalar p (writeScalar (column + indentStep) text ++ tail) tokens
      (column :: indents) allowed) (Field.textToken text) tail := by
  have hwritten := written_writeScalar (column + indentStep) text
  simpa [Field.textToken] using readsLine_written hp tokens indents allowed htail hwritten

/-- The items of a list as they are written. -/
def writeItems (indent : Nat) (items : List String) : List Char :=
  items.flatMap fun item => spaces indent ++ ['-', ' '] ++ writeScalar (indent + indentStep) item

theorem nextLine_writeItems {n : Nat} {tail : List Char} (htail : NextLine n tail)
    (items : List String) : NextLine n (writeItems n items ++ tail) := by
  cases items with
  | nil => exact htail
  | cons item items =>
    simp only [writeItems, List.flatMap_cons, List.append_assoc]
    exact .of_spaces (Nat.le_refl n) (by rintro c ⟨⟩; rfl)

theorem Stands.items {s : Scanner} {n : Nat} {tail : List Char} {tokens : List Token}
    {indents : List Nat} {items : List String}
    (h : Stands s (writeItems n items ++ tail) tokens (n :: indents)) (htail : NextLine n tail) :
    ∃ s', Reaches s s' ∧ Stands s' tail
      (tokens ++ items.flatMap fun item => [.blockEntry, Field.textToken item]) (n :: indents) := by
  induction items generalizing s tokens with
  | nil => exact ⟨s, .refl, by simpa [writeItems] using h⟩
  | cons item items ih =>
    rw [writeItems, List.flatMap_cons, ← writeItems] at h
    simp only [List.append_assoc] at h
    obtain ⟨p, hp, hentry⟩ := h.entry
    obtain ⟨s₁, hitem, hstands⟩ := readsLine_text hp (tokens ++ [.blockEntry]) indents true
      (nextLine_writeItems htail items) item
    obtain ⟨s₂, hitems, hend⟩ := ih hstands
    refine ⟨s₂, .head hentry (.head hitem hitems), ?_⟩
    simpa [atScalar] using hend

/-- A key whose value stands behind it. -/
theorem Stands.member {s : Scanner} {n : Nat} {name : String} {value tail : List Char}
    {tokens : List Token} {indents : List Nat}
    (h : Stands s (writeMember n name value ++ tail) tokens indents)
    (hname : isKey name.toList = true) :
    ∃ p, n ≤ p.column ∧ Reaches s (atScalar p (value ++ tail)
      (tokens ++ (opening n indents ++ keyTokens name)) (keyIndents n indents) false) := by
  simp only [writeMember, List.append_assoc] at h
  exact h.key hname rfl

/-- A field is its key and the tokens of its value. -/
theorem Stands.field {s : Scanner} {n : Nat} {name : String} {f : Field} {tail : List Char}
    {tokens : List Token} {indents : List Nat}
    (h : Stands s (f.write n name ++ tail) tokens indents) (hname : isKey name.toList = true)
    (htail : NextLine n tail) :
    ∃ s', Reaches s s' ∧ Stands s' tail
      (tokens ++ (opening n indents ++ keyTokens name ++ f.tokens)) (keyIndents n indents) := by
  obtain ⟨outer, houter⟩ := keyIndents_eq_cons n indents
  have hassoc := List.append_assoc tokens (opening n indents ++ keyTokens name) f.tokens
  rw [← hassoc]
  cases f with
  | word cs plain nonempty =>
    obtain ⟨p, hp, hkey⟩ := h.member hname
    rw [houter, List.append_assoc] at hkey
    obtain ⟨s', hvalue, hstands⟩ := readsLine_plain hp _ outer false htail plain nonempty
    exact ⟨s', hkey.tail hvalue, houter ▸ hstands⟩
  | text t =>
    obtain ⟨p, hp, hkey⟩ := h.member hname
    rw [houter] at hkey
    obtain ⟨s', hvalue, hstands⟩ := readsLine_text hp _ outer false htail t
    exact ⟨s', hkey.tail hvalue, houter ▸ hstands⟩
  | texts items =>
    cases items with
    | nil =>
      obtain ⟨p, hp, hkey⟩ := h.member hname
      rw [houter] at hkey
      obtain ⟨s', hvalue, hstands⟩ := reaches_emptyList hp _ outer htail
      exact ⟨s', hkey.trans hvalue, houter ▸ hstands⟩
    | cons item items =>
      have hwrite : (Field.texts (item :: items)).write n name =
          spaces n ++ name.toList ++ [':', '\n'] ++ writeItems n (item :: items) := rfl
      simp only [hwrite, List.append_assoc] at h
      obtain ⟨p, -, hkey⟩ := h.key hname rfl
      have hnext := nextLine_writeItems htail (item :: items)
      have hstands := stands_of_feed p (tokens ++ (opening n indents ++ keyTokens name))
        (keyIndents n indents) ⟨none, rfl, by simp⟩ hnext.starts false
      rw [houter] at hstands hkey
      obtain ⟨s', hitems, hend⟩ := hstands.items htail
      exact ⟨s', hkey.trans hitems, houter ▸ hend⟩

/-! ## Records -/

/-- The names and the values of a record. -/
abbrev Members := List (String × Field)

def Members.write (indent : Nat) (members : Members) : List Char :=
  members.flatMap fun (name, f) => f.write indent name

def Members.tokens (members : Members) : List Token :=
  members.flatMap fun (name, f) => keyTokens name ++ f.tokens

@[simp]
theorem Members.write_nil (n : Nat) : Members.write n [] = [] := by
  rfl

@[simp]
theorem Members.tokens_nil : Members.tokens [] = [] := by
  rfl

theorem Members.write_cons (n : Nat) (name : String) (f : Field) (members : Members) :
    Members.write n ((name, f) :: members) = f.write n name ++ members.write n := by
  rfl

theorem Members.tokens_cons (name : String) (f : Field) (members : Members) :
    Members.tokens ((name, f) :: members) = keyTokens name ++ f.tokens ++ members.tokens := by
  rfl

/-- A field starts with its name. -/
theorem Field.write_eq (f : Field) (n : Nat) (name : String) :
    ∃ value, f.write n name = spaces n ++ (name.toList ++ value) := by
  cases f with
  | word cs => exact ⟨[':', ' '] ++ (cs ++ ['\n']), by simp [write, writeMember]⟩
  | text t =>
    exact ⟨[':', ' '] ++ writeScalar (n + indentStep) t, by simp [write, writeText, writeMember]⟩
  | texts items =>
    cases items with
    | nil => exact ⟨[':', ' '] ++ "[]\n".toList, by simp [write, writeTexts, writeMember]⟩
    | cons item items =>
      exact ⟨[':', '\n'] ++ writeItems n (item :: items), by simp [write, writeTexts, writeItems]⟩

theorem nextLine_write {n : Nat} {tail : List Char} (htail : NextLine n tail) {members : Members}
    (hnames : ∀ m ∈ members, isKey m.1.toList = true) : NextLine n (members.write n ++ tail) := by
  cases members with
  | nil => exact htail
  | cons m members =>
    obtain ⟨name, f⟩ := m
    obtain ⟨value, hvalue⟩ := f.write_eq n name
    rw [Members.write_cons, hvalue]
    simp only [List.append_assoc]
    exact .of_spaces (Nat.le_refl n) (starts_of_isKey (hnames (name, f) List.mem_cons_self) _)

/-- A line at the column of the innermost mapping goes on with it. -/
theorem opening_self (n : Nat) (indents : List Nat) : opening n (keyIndents n indents) = [] := by
  obtain ⟨outer, houter⟩ := keyIndents_eq_cons n indents
  simp [houter, opening, closing, opensAt, closed]

theorem keyIndents_self (n : Nat) (indents : List Nat) :
    keyIndents n (keyIndents n indents) = keyIndents n indents := by
  obtain ⟨outer, houter⟩ := keyIndents_eq_cons n indents
  rw [houter]
  simp [keyIndents, opensAt, closed]

theorem Stands.record {s : Scanner} {n : Nat} {members : Members} {tail : List Char}
    {tokens : List Token} {indents : List Nat}
    (h : Stands s (members.write n ++ tail) tokens indents) (hne : members ≠ [])
    (hnames : ∀ m ∈ members, isKey m.1.toList = true) (htail : NextLine n tail) :
    ∃ s', Reaches s s' ∧
      Stands s' tail (tokens ++ (opening n indents ++ members.tokens)) (keyIndents n indents) := by
  induction members generalizing s tokens indents with
  | nil => exact absurd rfl hne
  | cons m members ih =>
    obtain ⟨name, f⟩ := m
    have hrest : ∀ m ∈ members, isKey m.1.toList = true :=
      fun m hm => hnames m (List.mem_cons_of_mem _ hm)
    rw [Members.write_cons, List.append_assoc] at h
    obtain ⟨s₁, hfirst, hstands⟩ :=
      h.field (hnames (name, f) List.mem_cons_self) (nextLine_write htail hrest)
    by_cases hlast : members = []
    · subst hlast
      exact ⟨s₁, hfirst, by simpa [Members.tokens_cons] using hstands⟩
    · obtain ⟨s₂, hmore, hend⟩ := ih hstands hlast hrest
      rw [opening_self, keyIndents_self] at hend
      exact ⟨s₂, hfirst.trans hmore, by simpa [Members.tokens_cons] using hend⟩

/-! ## Documents -/

theorem printable_writeMember (n : Nat) {name : String} (hname : isKey name.toList = true)
    {value : List Char} (hvalue : Printable value) : Printable (writeMember n name value) := by
  have hcolon : Printable [':', ' '] := (printable_singleton rfl).append (printable_singleton rfl)
  exact (((printable_spaces n).append (printable_of_isKey hname)).append hcolon).append hvalue

theorem printable_writeItems (n : Nat) (items : List String) : Printable (writeItems n items) := by
  have hdash : Printable ['-', ' '] := (printable_singleton rfl).append (printable_singleton rfl)
  intro c hc
  obtain ⟨item, -, hitem⟩ := List.mem_flatMap.1 hc
  have hwritten := (written_writeScalar (n + indentStep) item).printable
  exact (((printable_spaces n).append hdash).append hwritten) c hitem

theorem Field.printable (f : Field) (n : Nat) {name : String} (hname : isKey name.toList = true) :
    Printable (f.write n name) := by
  have hfeed : Printable ['\n'] := printable_singleton rfl
  cases f with
  | word cs plain =>
    exact printable_writeMember n hname ((printable_of_plainAllowed plain).append hfeed)
  | text t => exact printable_writeMember n hname (written_writeScalar _ t).printable
  | texts items =>
    cases items with
    | nil =>
      have hbrackets : Printable ['[', ']', '\n'] :=
        (printable_singleton rfl).append ((printable_singleton rfl).append hfeed)
      exact printable_writeMember n hname hbrackets
    | cons item items =>
      have hcolon : Printable [':', '\n'] := (printable_singleton rfl).append hfeed
      exact (((printable_spaces n).append (printable_of_isKey hname)).append hcolon).append
        (printable_writeItems n (item :: items))

theorem Members.printable {members : Members} (n : Nat)
    (hnames : ∀ m ∈ members, isKey m.1.toList = true) : Printable (members.write n) := by
  intro c hc
  obtain ⟨⟨name, f⟩, hm, hf⟩ := List.mem_flatMap.1 hc
  exact f.printable n (hnames (name, f) hm) c hf

theorem stands_start {text : List Char} (h : Starts (body text)) :
    Stands { cursor := { rest := text } } text [] [] :=
  ⟨⟨0, settle_eq (skipIgnored_tail true 0 h) rfl⟩, length_body_le text⟩

theorem scan_eq {text : List Char} (hprintable : Printable text) {s : Scanner}
    (hreaches : Reaches { cursor := { rest := text } } s) {tokens : List Token} {indents : List Nat}
    (hstands : Stands s [] tokens indents) :
    Token.scan text = some (tokens ++ ((indents.map fun _ => .blockEnd) ++ [.streamEnd])) := by
  obtain ⟨last, hend, htokens⟩ := hstands.finish
  have hallowed : text.all isAllowed = true :=
    List.all_eq_true.2 fun c hc => isAllowed_of_isPrintable (hprintable c hc)
  rw [Token.scan, if_pos hallowed, unifyBreaks_eq_self hprintable,
    run_of_reaches hreaches hend (Nat.lt_succ_self _), htokens]

/-- A record whose first field is a record of its own. -/
theorem scan_nested {name : String} {inner outer : Members} (hname : isKey name.toList = true)
    (hinner : ∀ m ∈ inner, isKey m.1.toList = true) (hinnerNe : inner ≠ [])
    (houter : ∀ m ∈ outer, isKey m.1.toList = true) (houterNe : outer ≠ []) :
    Token.scan (name.toList ++ ':' :: '\n' :: (inner.write indentStep ++ outer.write 0)) =
      some (.blockMappingStart :: keyTokens name ++ (.blockMappingStart :: inner.tokens) ++
        (.blockEnd :: outer.tokens) ++ [.blockEnd, .streamEnd]) := by
  have hend : NextLine 0 [] := ⟨Nat.le_refl 0, by simp [Starts, body]⟩
  have houterNext : NextLine 0 (outer.write 0) := by simpa using nextLine_write hend houter
  have hinnerNext : NextLine indentStep (outer.write 0) :=
    ⟨Nat.le_trans houterNext.lead_le (Nat.zero_le _), houterNext.starts⟩
  have hlines := nextLine_write hinnerNext hinner
  have hprintable : Printable (name.toList ++ ([':', '\n'] ++
      (inner.write indentStep ++ outer.write 0))) := by
    refine (printable_of_isKey hname).append (Printable.append ?_ ?_)
    · exact (printable_singleton rfl).append (printable_singleton rfl)
    · exact (Members.printable _ hinner).append (Members.printable _ houter)
  let text := name.toList ++ ':' :: '\n' :: (inner.write indentStep ++ outer.write 0)
  have hfirst : NextLine 0 text := .of_spaces (Nat.le_refl 0) (starts_of_isKey hname _)
  -- The columns of the open mappings are `[]`, `[0]`, `[2, 0]` and `[0]` in turn.
  have hstart : Stands _ (spaces 0 ++ text) [] [] := stands_start hfirst.starts
  obtain ⟨p, -, hkey⟩ := hstart.key hname rfl
  have hbelow := stands_of_feed p (.blockMappingStart :: keyTokens name) [0] ⟨none, rfl, by simp⟩
    hlines.starts false
  obtain ⟨s₁, hfields, hstands₁⟩ := hbelow.record hinnerNe hinner hinnerNext
  rw [← List.append_nil (outer.write 0)] at hstands₁
  obtain ⟨s₂, hmore, hstands₂⟩ := hstands₁.record houterNe houter hend
  refine (scan_eq hprintable (hkey.trans (hfields.trans hmore)) hstands₂).trans ?_
  simp [opening, closing, opensAt, closed, keyIndents, indentStep]

end FlexAudit.Yaml.Scanner
