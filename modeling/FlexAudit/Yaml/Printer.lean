import FlexAudit.Yaml.Chars
import FlexAudit.Yaml.Scalar
import FlexAudit.Yaml.Value

/-! # Scalars as text

A text is written plain where that reads back as the same text, else in single quotes, else in
double quotes with escapes. A text of several lines is written as a literal block. -/

namespace FlexAudit.Yaml

/-! ## What a text holds -/

/-- A character that is written as itself. -/
def isPrintable (c : Char) : Bool :=
  let n := c.toNat
  n == 0x0A || (0x20 ≤ n && n ≤ 0x7E) || (0xA0 ≤ n && n ≤ 0xFFFD && c != byteOrderMark)
    || 0x10000 ≤ n

/-- Whether two neighbours satisfy a condition. -/
def anyNeighbours (p : Char → Char → Bool) (cs : List Char) : Bool :=
  (cs.zip (cs.drop 1)).any fun (a, b) => p a b

def isSpaceOrBreak (c : Char) : Bool :=
  c == ' ' || isBreak c

/-- Whether a text holds a character that only an escape can write. -/
def hasSpecial (cs : List Char) : Bool :=
  cs.any fun c => !isPrintable c

/-- A space in front of a line break, which no block and no folding keeps. -/
def hasSpaceBreak (cs : List Char) : Bool :=
  anyNeighbours (fun a b => a == ' ' && isBreak b) cs

def hasBreakSpace (cs : List Char) : Bool :=
  anyNeighbours (fun a b => isBreak a && b == ' ') cs

/-- Whether a text begins like something other than a plain scalar. -/
def startsLikeToken (cs : List Char) : Bool :=
  match cs with
  | [] => false
  | c :: rest =>
    cs.take 3 == ['-', '-', '-'] || cs.take 3 == ['.', '.', '.']
    || isBracketOrComma c || c == '#' || c == '&' || c == '*' || c == '!' || c == '|' || c == '>'
    || c == '\'' || c == '"' || c == '%' || c == '@' || c == '\x60'
    || ((c == '-' || c == '?' || c == ':') && blankNext rest)

/-- Whether a colon or a comment mark inside of a text would end a plain scalar. -/
def holdsToken (cs : List Char) : Bool :=
  cs.getLast? == some ':' || anyNeighbours (fun a b => a == ':' && blankNext [b]) cs
    || anyNeighbours (fun a b => blankNext [a] && b == '#') cs

/-! ## The choice of style -/

def singleQuotesAllowed (cs : List Char) : Bool :=
  !(hasBreakSpace cs || hasSpaceBreak cs || hasSpecial cs)

def plainAllowed (cs : List Char) : Bool :=
  singleQuotesAllowed cs && !cs.any isBreak
    && !cs.head?.any isSpaceOrBreak && !cs.getLast?.any isSpaceOrBreak
    && !startsLikeToken cs && !holdsToken cs

def literalAllowed (cs : List Char) : Bool :=
  !(cs.getLast? == some ' ' || hasSpaceBreak cs || hasSpecial cs)

/-- Whether a plain scalar of this text would be read as something else than a text. -/
def readsAsValue (cs : List Char) : Bool :=
  let text := String.ofList cs
  cs.isEmpty || isNullText text || (boolOfText? text).isSome || isInteger cs || isFloat cs
    || hasNeedlessZero cs

def styleOf (cs : List Char) : Style :=
  if cs.contains '\n' then (if literalAllowed cs then .literal else .doubleQuoted)
  else if !readsAsValue cs && plainAllowed cs then .plain
  else if singleQuotesAllowed cs then .singleQuoted
  else .doubleQuoted

/-! ## The written forms -/

def spaces (n : Nat) : List Char :=
  List.replicate n ' '

/-- The characters of a text with an indentation in front of every line but the first. `write`
says how a character inside a line is written. -/
def indentLines (indent : Nat) (write : Char → List Char) (broken : Bool) : List Char → List Char
  | [] => []
  | c :: rest =>
    if isBreak c then c :: indentLines indent write true rest
    else (if broken then spaces indent else []) ++ write c ++ indentLines indent write false rest

def writeSingleQuoted (indent : Nat) (cs : List Char) : List Char :=
  '\'' :: indentLines indent (fun c => if c == '\'' then ['\'', '\''] else [c]) false cs
    ++ (if cs.getLast?.any isBreak then spaces indent else []) ++ ['\'']

/-- The hexadecimal digits of a code, `width` of them. -/
def hexCode (width n : Nat) : List Char :=
  (List.range width).reverse.map fun k =>
    let d := (n >>> (4 * k)) % 16
    if d < 10 then Char.ofNat (48 + d) else Char.ofNat (55 + d)

/-- A character between double quotes. -/
def escapeChar (c : Char) : List Char :=
  if c == '"' || c == '\\' then ['\\', c]
  else if isPrintable c && !isBreak c then [c]
  else
    match c with
    | '\x00' => ['\\', '0']
    | '\x07' => ['\\', 'a']
    | '\x08' => ['\\', 'b']
    | '\t' => ['\\', 't']
    | '\n' => ['\\', 'n']
    | '\x0b' => ['\\', 'v']
    | '\x0c' => ['\\', 'f']
    | '\r' => ['\\', 'r']
    | '\x1b' => ['\\', 'e']
    | '\u0085' => ['\\', 'N']
    | '\u2028' => ['\\', 'L']
    | '\u2029' => ['\\', 'P']
    | _ =>
      let n := c.toNat
      if n ≤ 0xFF then '\\' :: 'x' :: hexCode 2 n
      else if n ≤ 0xFFFF then '\\' :: 'u' :: hexCode 4 n
      else '\\' :: 'U' :: hexCode 8 n

def writeDoubleQuoted (cs : List Char) : List Char :=
  '"' :: cs.flatMap escapeChar ++ ['"']

/-- The indentation of a block relative to what holds it. -/
def indentStep : Nat := 2

/-- The indicators of a literal block: a digit where the first line does not show the indentation,
and what becomes of the line breaks at the end. -/
def literalHeader (cs : List Char) : List Char :=
  (if cs.head?.any isSpaceOrBreak then Nat.toDigits 10 indentStep else [])
    ++ match cs.reverse with
      | [] => ['-']
      | [c] => if isBreak c then ['+'] else ['-']
      | c :: d :: _ => if !isBreak c then ['-'] else if isBreak d then ['+'] else []

/-- A literal block, which ends its last line itself. -/
def writeLiteral (indent : Nat) (cs : List Char) : List Char :=
  '|' :: literalHeader cs ++ '\n' :: indentLines indent (fun c => [c]) true cs
    ++ (if cs.getLast?.any isBreak then [] else ['\n'])

/-- A scalar to the end of its last line. `indent` is the indentation of its further lines. -/
def writeScalar (indent : Nat) (text : String) : List Char :=
  let cs := text.toList
  match styleOf cs with
  | .plain => cs ++ ['\n']
  | .singleQuoted => writeSingleQuoted indent cs ++ ['\n']
  | .literal => writeLiteral indent cs
  | _ => writeDoubleQuoted cs ++ ['\n']

/-! ## Members of mappings -/

/-- A member whose value is written behind the colon. -/
def writeMember (indent : Nat) (name : String) (value : List Char) : List Char :=
  spaces indent ++ name.toList ++ [':', ' '] ++ value

def writeText (indent : Nat) (name text : String) : List Char :=
  writeMember indent name (writeScalar (indent + indentStep) text)

/-- A list of texts, whose items are not indented further. -/
def writeTexts (indent : Nat) (name : String) (items : List String) : List Char :=
  if items.isEmpty then writeMember indent name "[]\n".toList
  else spaces indent ++ name.toList ++ [':', '\n']
    ++ items.flatMap fun item =>
      spaces indent ++ ['-', ' '] ++ writeScalar (indent + indentStep) item

end FlexAudit.Yaml
