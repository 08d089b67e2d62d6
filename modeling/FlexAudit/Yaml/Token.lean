import FlexAudit.Yaml.Scalar

/-! # Tokens

The tokens of a stream, and those that are read by their first character alone: directives,
anchors, aliases and tags. Block collections have no written brackets; their start and end are
tokens all the same. -/

namespace FlexAudit.Yaml

inductive Token where
  | versionDirective (major minor : Nat)
  /-- A handle and what it stands for. -/
  | tagDirective (handle expansion : String)
  | documentStart
  | documentEnd
  | streamEnd
  | blockSequenceStart
  | blockMappingStart
  | blockEnd
  | flowSequenceStart
  | flowSequenceEnd
  | flowMappingStart
  | flowMappingEnd
  | blockEntry
  | flowEntry
  | key
  | value
  | anchor (name : String)
  | alias (name : String)
  | tag (handle suffix : String)
  | scalar (style : Style) (text : String)
  deriving DecidableEq, Repr

namespace Token

/-! ## Anchors and aliases -/

/-- Whether an anchor may be followed by this. -/
def anchorEnds (cs : List Char) : Bool :=
  blankNext cs || cs.head?.any fun c =>
    c == '?' || c == ':' || c == ',' || c == ']' || c == '\x7d' || c == '%' || c == '@' || c == '\x60'

/-- The name of an anchor or alias, from behind its mark. -/
def anchorName? (c : Cursor) : Option (String × Cursor) :=
  let (name, c) := c.span isWord
  if name.isEmpty || !anchorEnds c.rest then none else some (String.ofList name, c)

/-! ## Tags -/

/-- A character of a tag; inside angle brackets there are three more. -/
def isTagChar (verbatim : Bool) (c : Char) : Bool :=
  isWord c || c == ';' || c == '/' || c == '?' || c == ':' || c == '@' || c == '&' || c == '='
    || c == '+' || c == '$' || c == '.' || c == '%' || c == '!' || c == '~' || c == '*'
    || c == '\'' || c == '(' || c == ')' || (verbatim && (c == ',' || c == '[' || c == ']'))

/-- The bytes of a character that is written in escapes, by its first byte. -/
def escapedWidth? (byte : Nat) : Option Nat :=
  if byte < 0x80 then some 1
  else if byte / 0x20 = 6 then some 2
  else if byte / 0x10 = 14 then some 3
  else if byte / 0x08 = 30 then some 4
  else none

/-- Replaces escapes of the form `%41` by what they stand for. `missing` counts the bytes that a
character still needs, and `value` is what is known of it. -/
def unescapeTag (missing value : Nat) : List Char → Option (List Char)
  | '%' :: a :: b :: rest => do
    let byte := (← hexValue? a) * 16 + (← hexValue? b)
    if missing = 0 then
      let width ← escapedWidth? byte
      if width = 1 then (Char.ofNat byte :: ·) <$> unescapeTag 0 0 rest
      else unescapeTag (width - 1) (byte % (1 <<< (7 - width))) rest
    else if byte / 0x40 ≠ 2 then none
    else
      let value := value * 64 + byte % 64
      if missing = 1 then (Char.ofNat value :: ·) <$> unescapeTag 0 0 rest
      else unescapeTag (missing - 1) value rest
  | '%' :: _ => none
  | c :: rest => if missing = 0 then (c :: ·) <$> unescapeTag 0 0 rest else none
  | [] => if missing = 0 then some [] else none

/-- The rest of a tag behind `head`; fails if there is nothing at all. -/
def tagText? (verbatim : Bool) (head : List Char) (c : Cursor) : Option (List Char × Cursor) := do
  let (raw, c) := c.span (isTagChar verbatim)
  if head.isEmpty && raw.isEmpty then none
  else return (head.drop 1 ++ (← unescapeTag 0 0 raw), c)

/-- A handle such as `!`, `!!` or `!name!`; without the second mark it is the start of a tag. -/
def tagHandle? (c : Cursor) : Option (List Char × Cursor) :=
  match c.rest with
  | '!' :: _ =>
    let (name, c) := (c.skip 1).span isWord
    if c.rest.head? == some '!' then some ('!' :: name ++ ['!'], c.skip 1)
    else some ('!' :: name, c)
  | _ => none

/-- A tag from its mark on, without a look at what follows it. -/
def tagBody? (c : Cursor) : Option (Token × Cursor) := do
  if c.rest.drop 1 |>.head?.any (· == '<') then
    let (text, c) ← tagText? true [] (c.skip 2)
    if c.rest.head? == some '>' then return (.tag "" (String.ofList text), c.skip 1) else none
  else
    let (handle, c) ← tagHandle? c
    if handle.length ≥ 2 && handle.getLast? == some '!' then
      let (text, c) ← tagText? false [] c
      return (.tag (String.ofList handle) (String.ofList text), c)
    else
      let (text, c) ← tagText? false handle c
      if text.isEmpty then return (.tag "" "!", c) else return (.tag "!" (String.ofList text), c)

def tag? (inFlow : Bool) (c : Cursor) : Option (Token × Cursor) := do
  let (token, c) ← tagBody? c
  if (inFlow && c.rest.head? == some ',') || blankNext c.rest then return (token, c) else none

/-! ## Directives -/

/-- A part of a version: one to nine digits. -/
def versionPart? (c : Cursor) : Option (Nat × Cursor) :=
  let (digits, c) := c.span Char.isDigit
  if digits.isEmpty || digits.length > 9 then none
  else some (digits.foldl (fun n d => n * 10 + (d.toNat - 48)) 0, c)

def versionDirective? (c : Cursor) : Option (Token × Cursor) := do
  let (major, c) ← versionPart? (c.skipWhile isBlank)
  if c.rest.head? ≠ some '.' then none
  else
    let (minor, c) ← versionPart? (c.skip 1)
    return (.versionDirective major minor, c)

def tagDirective? (c : Cursor) : Option (Token × Cursor) := do
  let (handle, c) ← tagHandle? (c.skipWhile isBlank)
  if handle.getLast? ≠ some '!' || !c.rest.head?.any isBlank then none
  else
    let (expansion, c) ← tagText? true [] (c.skipWhile isBlank)
    if blankNext c.rest then
      return (.tagDirective (String.ofList handle) (String.ofList expansion), c)
    else none

/-- A directive from behind its percent sign to the end of its line. -/
def directive? (c : Cursor) : Option (Token × Cursor) := do
  let (name, c) := c.span isWord
  if !blankNext c.rest then none
  else
    let (token, c) ← match String.ofList name with
      | "YAML" => versionDirective? c
      | "TAG" => tagDirective? c
      | _ => none
    return (token, ← c.endOfLine?)

end Token

end FlexAudit.Yaml
