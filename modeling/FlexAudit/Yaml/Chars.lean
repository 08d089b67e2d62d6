/-! # Characters of YAML

The character classes that reading and writing share. A stream is read after its line breaks have
been made uniform, so that a line ends at a line feed or at one of the two Unicode separators. -/

namespace FlexAudit.Yaml

/-- A character that a stream may hold. -/
def isAllowed (c : Char) : Bool :=
  let n := c.toNat
  n == 0x09 || n == 0x0A || n == 0x0D || (0x20 ≤ n && n ≤ 0x7E) || n == 0x85
    || (0xA0 ≤ n && n ≤ 0xFFFD) || 0x10000 ≤ n

def isBlank (c : Char) : Bool :=
  c == ' ' || c == '\t'

/-- A character that ends a line. -/
def isBreak (c : Char) : Bool :=
  c == '\n' || c == '\r' || c == '\u0085' || c == '\u2028' || c == '\u2029'

/-- A character of names: of anchors, directives and tag handles. -/
def isWord (c : Char) : Bool :=
  ('0' ≤ c && c ≤ '9') || ('A' ≤ c && c ≤ 'Z') || ('a' ≤ c && c ≤ 'z') || c == '_' || c == '-'

/-- A character with a meaning of its own inside brackets. -/
def isBracketOrComma (c : Char) : Bool :=
  c == ',' || c == '[' || c == ']' || c == '\x7b' || c == '\x7d'

/-- The mark that may stand in front of a text and has no width. -/
def byteOrderMark : Char := '\ufeff'

/-- Whether a blank, a line break or the end comes next. -/
def blankNext : List Char → Bool
  | [] => true
  | c :: _ => isBlank c || isBreak c

/-- Whether a line break or the end comes next. -/
def breakNext : List Char → Bool
  | [] => true
  | c :: _ => isBreak c

/-- Whether `---` or `...` comes next and stands alone. -/
def documentMarkNext : List Char → Bool
  | a :: b :: c :: rest => a == b && b == c && (a == '-' || a == '.') && blankNext rest
  | _ => false

/-- Every line break as one line feed, the two separators excepted. -/
def unifyBreaks : List Char → List Char
  | [] => []
  | '\r' :: '\n' :: rest => '\n' :: unifyBreaks rest
  | c :: rest => (if c == '\r' || c == '\u0085' then '\n' else c) :: unifyBreaks rest

/-- The value of a hexadecimal digit. -/
def hexValue? (c : Char) : Option Nat :=
  if '0' ≤ c ∧ c ≤ '9' then some (c.toNat - 48)
  else if 'a' ≤ c ∧ c ≤ 'f' then some (c.toNat - 87)
  else if 'A' ≤ c ∧ c ≤ 'F' then some (c.toNat - 55)
  else none

end FlexAudit.Yaml
