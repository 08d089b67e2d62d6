import FlexAudit.Yaml.Cursor
import FlexAudit.Yaml.Fold

/-! # Scalars in a stream

How the text of a scalar is read from the place where it starts: plain scalars, quoted scalars and
block scalars. -/

namespace FlexAudit.Yaml

/-- How a scalar is written. -/
inductive Style where
  | plain
  | singleQuoted
  | doubleQuoted
  | literal
  | folded
  deriving DecidableEq, Repr

/-! ## Plain scalars -/

/-- Whether a plain scalar cannot go on after pending blanks: at a document mark, at a comment, or
outside brackets at a line that is not indented enough. -/
def plainEnds (inFlow : Bool) (indent : Nat) (p : Position) (cs : List Char) : Bool :=
  (p.column == 0 && documentMarkNext cs) || cs.head? == some '#' || (!inFlow && p.column < indent)

/-- Reads a plain scalar up to the token that ends it. -/
def scanPlain (inFlow : Bool) (indent : Nat) (f : Fold) (p : Position) :
    List Char → Option (Fold × Cursor)
  | [] => some (f, ⟨p, []⟩)
  | c :: rest =>
    if isBlank c then
      if f.broken && p.column < indent && c == '\t' then none
      else scanPlain inFlow indent (f.blank c) p.next rest
    else if isBreak c then scanPlain inFlow indent (f.lineBreak c) p.nextLine rest
    else if f.pending && plainEnds inFlow indent p (c :: rest) then some (f, ⟨p, c :: rest⟩)
    else if inFlow && c == ':' && rest.head?.any (fun d => isBracketOrComma d || d == '?') then none
    else if (c == ':' && blankNext rest) || (inFlow && isBracketOrComma c) then
      some (f, ⟨p, c :: rest⟩)
    else scanPlain inFlow indent (f.char c) p.next rest

/-! ## Quoted scalars -/

/-- What an escape letter stands for: a character, or a code of so many digits. -/
inductive EscapeLetter where
  | char (c : Char)
  | code (digits : Nat)
  deriving DecidableEq, Repr

def escapeLetter? : Char → Option EscapeLetter
  | '0' => some (.char '\x00')
  | 'a' => some (.char '\x07')
  | 'b' => some (.char '\x08')
  | 't' => some (.char '\t')
  | '\t' => some (.char '\t')
  | 'n' => some (.char '\n')
  | 'v' => some (.char '\x0b')
  | 'f' => some (.char '\x0c')
  | 'r' => some (.char '\r')
  | 'e' => some (.char '\x1b')
  | ' ' => some (.char ' ')
  | '"' => some (.char '"')
  | '/' => some (.char '/')
  | '\\' => some (.char '\\')
  | 'N' => some (.char '\u0085')
  | '_' => some (.char '\u00a0')
  | 'L' => some (.char '\u2028')
  | 'P' => some (.char '\u2029')
  | 'x' => some (.code 2)
  | 'u' => some (.code 4)
  | 'U' => some (.code 8)
  | _ => none

/-- What the last characters of a quoted scalar have begun. -/
inductive Escape where
  | nothing
  /-- A backslash. -/
  | backslash
  /-- A character code with digits still to come. -/
  | code (missing value : Nat)
  /-- A single quote, which ends the scalar unless it is followed by another one. -/
  | quote
  deriving DecidableEq, Repr

/-- The character of a code, if there is one. -/
def charOfCode? (n : Nat) : Option Char :=
  if n.isValidChar then some (Char.ofNat n) else none

/-- Reads a quoted scalar from behind its opening quote. -/
def scanQuoted (double : Bool) (e : Escape) (f : Fold) (p : Position) :
    List Char → Option (Fold × Cursor)
  | [] => if e = .quote then some (f.join, ⟨p, []⟩) else none
  | c :: rest =>
    match e with
    | .quote =>
      if c == '\'' then scanQuoted double .nothing (f.char c) p.next rest
      else some (f.join, ⟨p, c :: rest⟩)
    | .backslash =>
      if isBreak c then scanQuoted double .nothing f.escapedBreak p.nextLine rest
      else
        match escapeLetter? c with
        | some (.char d) => scanQuoted double .nothing (f.char d) p.next rest
        | some (.code digits) => scanQuoted double (.code digits 0) f p.next rest
        | none => none
    | .code missing value => do
      let digit ← hexValue? c
      let value := value * 16 + digit
      if missing ≤ 1 then
        let d ← charOfCode? value
        scanQuoted double .nothing (f.char d) p.next rest
      else scanQuoted double (.code (missing - 1) value) f p.next rest
    | .nothing =>
      if p.column == 0 && documentMarkNext (c :: rest) then none
      else if isBlank c then scanQuoted double .nothing (f.blank c) p.next rest
      else if isBreak c then scanQuoted double .nothing (f.lineBreak c) p.nextLine rest
      else if double && c == '"' then some (f.join, ⟨p.next, rest⟩)
      else if double && c == '\\' then scanQuoted double .backslash f p.next rest
      else if !double && c == '\'' then scanQuoted double .quote f p.next rest
      else scanQuoted double .nothing (f.char c) p.next rest

/-! ## Block scalars -/

/-- What becomes of the line breaks at the end of a block scalar. -/
inductive Chomping where
  | strip
  | clip
  | keep
  deriving DecidableEq, Repr

structure BlockHeader where
  chomping : Chomping := .clip
  /-- The indentation relative to the parent, where it is given. -/
  increment : Option Nat := none
  deriving DecidableEq, Repr

def chomping? : Char → Option Chomping
  | '+' => some .keep
  | '-' => some .strip
  | _ => none

/-- The indicators behind the bar or the angle: a chomping mark and a digit in either order. Fails
at a zero. -/
def BlockHeader.read (c : Cursor) : Option (BlockHeader × Cursor) :=
  let digit (c : Cursor) : Option (Option Nat × Cursor) :=
    match c.rest.head? with
    | some '0' => none
    | some d => if d.isDigit then some (some (d.toNat - 48), c.skip 1) else some (none, c)
    | none => some (none, c)
  match c.rest.head?.bind chomping? with
  | some chomping => do
    let (increment, c) ← digit (c.skip 1)
    return (⟨chomping, increment⟩, c)
  | none => do
    let (increment, c) ← digit c
    match increment, c.rest.head?.bind chomping? with
    | some n, some chomping => return (⟨chomping, some n⟩, c.skip 1)
    | _, _ => return (⟨.clip, increment⟩, c)

/-- A block scalar under way. -/
structure Block where
  /-- The text so far, newest first. -/
  done : List Char := []
  /-- The break that ended the last line. -/
  ended : Option Char := none
  /-- The empty lines after it, newest first. -/
  more : List Char := []
  /-- Whether the last line began with a blank. -/
  blankLine : Bool := false
  /-- Whether a line is being read, rather than the space in front of one. -/
  inLine : Bool := false
  /-- The indentation, once it is known. -/
  indent : Option Nat := none
  /-- The widest empty line while it is not known. -/
  widest : Nat := 0
  deriving DecidableEq, Repr

namespace Block

/-- The text with all that separates it from a line that begins with `c`. -/
def startLine (b : Block) (literal : Bool) (c : Char) : Block :=
  let separator :=
    if !literal && b.ended == some '\n' && !b.blankLine && !isBlank c then
      if b.more.isEmpty then [' '] else b.more
    else b.more ++ b.ended.toList
  { b with done := separator ++ b.done, ended := none, more := [], blankLine := isBlank c,
           inLine := true }

/-- The text when the scalar is over. -/
def text (b : Block) (chomping : Chomping) : String :=
  let tail := match chomping with
    | .strip => []
    | .clip => b.ended.toList
    | .keep => b.more ++ b.ended.toList
  String.ofList (tail ++ b.done).reverse

/-- Reads the lines of a block scalar. `least` is the least indentation it can have. -/
def scan (literal : Bool) (least : Nat) (b : Block) (p : Position) :
    List Char → Option (Block × Cursor)
  | [] => some (b, ⟨p, []⟩)
  | c :: rest =>
    if b.inLine then
      if isBreak c then scan literal least { b with ended := some c, inLine := false } p.nextLine rest
      else scan literal least { b with done := c :: b.done } p.next rest
    else
      let inIndent := b.indent.all (p.column < ·)
      if inIndent && c == ' ' then scan literal least b p.next rest
      else if inIndent && c == '\t' then none
      else
        let widest := max b.widest p.column
        if isBreak c then
          scan literal least { b with more := c :: b.more, widest := widest } p.nextLine rest
        else
          let indent := b.indent.getD (max widest (max least 1))
          if p.column == indent then
            let b := { b with indent := some indent }.startLine literal c
            scan literal least { b with done := c :: b.done } p.next rest
          else some (b, ⟨p, c :: rest⟩)

end Block

/-- Reads a block scalar from behind its bar or angle. `least` is the indentation of the parent
and one more. -/
def scanBlock (literal : Bool) (least : Nat) (c : Cursor) : Option (String × Cursor) := do
  let (header, c) ← BlockHeader.read c
  let c ← c.endOfLine?
  let indent := header.increment.map fun n => if least = 0 then n else least - 1 + n
  let (block, c) ← Block.scan literal least { indent := indent } c.position c.rest
  return (block.text header.chomping, c)

end FlexAudit.Yaml
