import FlexAudit.Yaml.Token

/-! # Tokens of a stream

Outside brackets the nesting follows from the columns at which collections start. A key is known
as such only when the colon behind it is found; until then the place where it started is kept,
and the colon puts the key token there. -/

namespace FlexAudit.Yaml

/-- A place where a key may have started. -/
structure PossibleKey where
  /-- Whether nothing but a key can stand there. -/
  required : Bool
  /-- The number of tokens in front of it. -/
  tokens : Nat
  position : Position
  deriving DecidableEq, Repr

structure Scanner where
  cursor : Cursor
  tokens : List Token := []
  /-- The columns of the open block collections, innermost first. -/
  indents : List Nat := []
  /-- The possible key of each bracket and of the level outside of all, innermost first. -/
  keys : List (Option PossibleKey) := [none]
  /-- Whether a key may start here. -/
  keyAllowed : Bool := true
  deriving DecidableEq, Repr

namespace Scanner

def inFlow (s : Scanner) : Bool :=
  1 < s.keys.length

/-- The least indentation of what belongs to the innermost block collection. -/
def leastIndent (s : Scanner) : Nat :=
  match s.indents with
  | [] => 0
  | column :: _ => column + 1

def emit (s : Scanner) (t : Token) : Scanner :=
  { s with tokens := s.tokens ++ [t] }

/-- Reads `n` characters as a token. -/
def take (s : Scanner) (n : Nat) (t : Token) : Scanner :=
  { s.emit t with cursor := s.cursor.skip n }

/-! ## Columns -/

/-- Opens a block collection at a column, if it lies deeper than the innermost one. The token goes
in front of the last ones, after `before` tokens. -/
def openBlock (s : Scanner) (column before : Nat) (t : Token) : Scanner :=
  if s.inFlow || s.indents.head?.any (column ≤ ·) then s
  else { s with indents := column :: s.indents, tokens := s.tokens.insertIdx before t }

/-- Closes the block collections that satisfy a condition on their column. -/
def closeBlocks (s : Scanner) (closed : Nat → Bool) : Scanner :=
  if s.inFlow then s
  else { s with
    tokens := s.tokens ++ (s.indents.takeWhile closed).map (fun _ => Token.blockEnd)
    indents := s.indents.dropWhile closed }

/-! ## Keys -/

/-- Gives up the possible key of the innermost level. -/
def dropKey (s : Scanner) : Option Scanner :=
  match s.keys with
  | some k :: outer => if k.required then none else some { s with keys := none :: outer }
  | _ => some s

/-- Notes that a key may start here. -/
def noteKey (s : Scanner) : Option Scanner :=
  if s.keyAllowed then do
    let s ← s.dropKey
    let required := !s.inFlow && s.indents.head? == some s.cursor.column
    return { s with keys := some ⟨required, s.tokens.length, s.cursor.position⟩ :: s.keys.drop 1 }
  else some s

/-- The longest key. -/
def maxKeyLength : Nat := 1024

/-- A key stands on one line and is not too long. -/
def PossibleKey.isStale (k : PossibleKey) (p : Position) : Bool :=
  k.position.line < p.line || k.position.column + maxKeyLength < p.column

/-- Forgets a key that came to nothing; fails if it was required. -/
def refresh (p : Position) : Option PossibleKey → Option (Option PossibleKey)
  | some k =>
    if PossibleKey.isStale k p then (if k.required then none else some none) else some (some k)
  | none => some none

def refreshKeys (s : Scanner) : Option Scanner := do
  return { s with keys := ← s.keys.mapM (refresh s.cursor.position) }

/-! ## White space and comments -/

/-- Skips what stands between tokens. Outside brackets a new line allows a key; a tab is skipped
only where no key is allowed, and a byte order mark only at the start of the text. -/
def skipIgnored (inFlow comment allowed : Bool) (p : Position) : List Char → Bool × Cursor
  | [] => (allowed, ⟨p, []⟩)
  | c :: rest =>
    if isBreak c then skipIgnored inFlow false (allowed || !inFlow) p.nextLine rest
    else if comment then skipIgnored inFlow true allowed p.next rest
    else if (p == {} && c == byteOrderMark) || c == ' '
        || ((inFlow || !allowed) && c == '\t') then
      skipIgnored inFlow false allowed p.next rest
    else if c == '#' then skipIgnored inFlow true allowed p.next rest
    else (allowed, ⟨p, c :: rest⟩)

/-! ## One token -/

def streamEnd (s : Scanner) : Option Scanner := do
  let s ← (s.closeBlocks fun _ => true).dropKey
  return s.emit .streamEnd

def directive (s : Scanner) : Option Scanner := do
  let s ← (s.closeBlocks fun _ => true).dropKey
  let (token, cursor) ← Token.directive? (s.cursor.skip 1)
  return { s.emit token with cursor := cursor, keyAllowed := false }

def documentMark (s : Scanner) (t : Token) : Option Scanner := do
  let s ← (s.closeBlocks fun _ => true).dropKey
  return { s.take 3 t with keyAllowed := false }

def openFlow (s : Scanner) (t : Token) : Option Scanner := do
  let s ← s.noteKey
  return { s.take 1 t with keys := none :: s.keys, keyAllowed := true }

def closeFlow (s : Scanner) (t : Token) : Option Scanner := do
  let s ← s.dropKey
  return { s.take 1 t with
    keys := if s.inFlow then s.keys.drop 1 else s.keys
    keyAllowed := false }

def flowEntry (s : Scanner) : Option Scanner := do
  let s ← s.dropKey
  return { s.take 1 .flowEntry with keyAllowed := true }

def blockEntry (s : Scanner) : Option Scanner := do
  if !s.inFlow && !s.keyAllowed then none
  else
    let s ← (s.openBlock s.cursor.column s.tokens.length .blockSequenceStart).dropKey
    return { s.take 1 .blockEntry with keyAllowed := true }

def explicitKey (s : Scanner) : Option Scanner := do
  if !s.inFlow && !s.keyAllowed then none
  else
    let s ← (s.openBlock s.cursor.column s.tokens.length .blockMappingStart).dropKey
    return { s.take 1 .key with keyAllowed := !s.inFlow }

/-- A colon: it turns the possible key into one, or follows an explicit key. -/
def value (s : Scanner) : Option Scanner :=
  match s.keys with
  | some k :: outer =>
    let s := { s with tokens := s.tokens.insertIdx k.tokens .key, keys := none :: outer }
    let s := s.openBlock k.position.column k.tokens .blockMappingStart
    some { s.take 1 .value with keyAllowed := false }
  | _ =>
    if !s.inFlow && !s.keyAllowed then none
    else
      let s := s.openBlock s.cursor.column s.tokens.length .blockMappingStart
      some { s.take 1 .value with keyAllowed := !s.inFlow }

def anchor (s : Scanner) (token : String → Token) : Option Scanner := do
  let s ← s.noteKey
  let (name, cursor) ← Token.anchorName? (s.cursor.skip 1)
  return { s.emit (token name) with cursor := cursor, keyAllowed := false }

def tag (s : Scanner) : Option Scanner := do
  let s ← s.noteKey
  let (token, cursor) ← Token.tag? s.inFlow s.cursor
  return { s.emit token with cursor := cursor, keyAllowed := false }

def blockScalar (s : Scanner) (literal : Bool) : Option Scanner := do
  let s ← s.dropKey
  let (text, cursor) ← scanBlock literal s.leastIndent (s.cursor.skip 1)
  let style := if literal then Style.literal else .folded
  return { s.emit (.scalar style text) with cursor := cursor, keyAllowed := true }

def quotedScalar (s : Scanner) (double : Bool) : Option Scanner := do
  let s ← s.noteKey
  let c := s.cursor.skip 1
  let (fold, cursor) ← scanQuoted double .nothing {} c.position c.rest
  let style := if double then Style.doubleQuoted else .singleQuoted
  return { s.emit (.scalar style fold.text) with cursor := cursor, keyAllowed := false }

def plainScalar (s : Scanner) : Option Scanner := do
  let s ← s.noteKey
  let (fold, cursor) ← scanPlain s.inFlow s.leastIndent {} s.cursor.position s.cursor.rest
  return { s.emit (.scalar .plain fold.text) with cursor := cursor, keyAllowed := fold.broken }

/-- Whether a plain scalar may start with `c` in front of `rest`. -/
def plainStarts (inFlow : Bool) (c : Char) (rest : List Char) : Bool :=
  if c == '-' then !rest.head?.any isBlank
  else if c == '?' || c == ':' then !inFlow && !blankNext rest
  else !(isBlank c || isBreak c || isBracketOrComma c || c == '#' || c == '&' || c == '*' || c == '!'
    || c == '|' || c == '>' || c == '\'' || c == '"' || c == '%' || c == '@' || c == '\x60')

/-- The token that starts with `c` in front of `rest`. -/
def token (s : Scanner) (c : Char) (rest : List Char) : Option Scanner :=
  if s.cursor.column == 0 && c == '%' then s.directive
  else if s.cursor.atDocumentMark then
    s.documentMark (if c == '-' then .documentStart else .documentEnd)
  else if c == '[' then s.openFlow .flowSequenceStart
  else if c == '\x7b' then s.openFlow .flowMappingStart
  else if c == ']' then s.closeFlow .flowSequenceEnd
  else if c == '\x7d' then s.closeFlow .flowMappingEnd
  else if c == ',' then s.flowEntry
  else if c == '-' && blankNext rest then s.blockEntry
  else if c == '?' && (s.inFlow || blankNext rest) then s.explicitKey
  else if c == ':' && (s.inFlow || blankNext rest) then s.value
  else if c == '*' then s.anchor .alias
  else if c == '&' then s.anchor .anchor
  else if c == '!' then s.tag
  else if c == '|' && !s.inFlow then s.blockScalar true
  else if c == '>' && !s.inFlow then s.blockScalar false
  else if c == '\'' then s.quotedScalar false
  else if c == '"' then s.quotedScalar true
  else if plainStarts s.inFlow c rest then s.plainScalar
  else none

/-- The next token, and whether it was the end of the stream. -/
def step (s : Scanner) : Option (Scanner × Bool) := do
  let (allowed, cursor) :=
    skipIgnored s.inFlow false s.keyAllowed s.cursor.position s.cursor.rest
  let s ← { s with cursor := cursor, keyAllowed := allowed }.refreshKeys
  let s := s.closeBlocks (s.cursor.column < ·)
  match s.cursor.rest with
  | [] => return (← s.streamEnd, true)
  | c :: rest => return (← s.token c rest, false)

/-- All tokens, by at most `fuel` steps. -/
def run : Nat → Scanner → Option (List Token)
  | 0, _ => none
  | fuel + 1, s => do
    let (s, ended) ← s.step
    if ended then return s.tokens else s.run fuel

end Scanner

/-- The tokens of a stream. Every token but the last takes at least one character. -/
def Token.scan (text : List Char) : Option (List Token) :=
  if text.all isAllowed then
    Scanner.run (text.length + 1) { cursor := { rest := unifyBreaks text } }
  else none

end FlexAudit.Yaml
