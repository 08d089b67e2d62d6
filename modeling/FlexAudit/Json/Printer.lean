import FlexAudit.Json.Basic

/-! # Writing JSON

Two layouts: compact, without any blank, and pretty, with one member or item a line and two blanks
for each level. In strings only the quote, the backslash and the control characters below the blank
are escaped. -/

namespace FlexAudit.Json

def hexDigit (n : Nat) : Char :=
  if n < 10 then Char.ofNat (48 + n) else Char.ofNat (87 + n)

def escapeChar (c : Char) : List Char :=
  if c = '"' then ['\\', '"']
  else if c = '\\' then ['\\', '\\']
  else if c = '\x08' then ['\\', 'b']
  else if c = '\x0c' then ['\\', 'f']
  else if c = '\n' then ['\\', 'n']
  else if c = '\r' then ['\\', 'r']
  else if c = '\t' then ['\\', 't']
  else if c < ' ' then ['\\', 'u', '0', '0', hexDigit (c.toNat / 16), hexDigit (c.toNat % 16)]
  else [c]

/-- A string with its quotes; one that has no text is written with a surrogate that stands
alone. -/
def quote : Option String → List Char
  | some s => '"' :: s.toList.flatMap escapeChar ++ ['"']
  | none => "\"\\ud800\"".toList

/-- A value without parts. -/
def atom : Json → List Char
  | .null => "null".toList
  | .bool true => "true".toList
  | .bool false => "false".toList
  | .nat n => (toString n).toList
  | .otherNumber => "-0".toList
  | .str s => quote s
  | .arr _ => "[]".toList
  | .obj _ => "\x7b\x7d".toList

mutual

def compactChars : Json → List Char
  | .arr (v :: vs) => '[' :: compactChars v ++ compactItems vs ++ [']']
  | .obj ((name, v) :: ms) =>
    '\x7b' :: quote name ++ ':' :: compactChars v ++ compactMembers ms ++ ['\x7d']
  | j => atom j

def compactItems : List Json → List Char
  | [] => []
  | v :: vs => ',' :: compactChars v ++ compactItems vs

def compactMembers : List (Option String × Json) → List Char
  | [] => []
  | (name, v) :: ms => ',' :: quote name ++ ':' :: compactChars v ++ compactMembers ms

end

/-- A new line at a level. -/
def newline (level : Nat) : List Char :=
  '\n' :: List.replicate (2 * level) ' '

mutual

def prettyChars (level : Nat) : Json → List Char
  | .arr (v :: vs) =>
    '[' :: newline (level + 1) ++ prettyChars (level + 1) v ++ prettyItems (level + 1) vs
      ++ newline level ++ [']']
  | .obj ((name, v) :: ms) =>
    '\x7b' :: newline (level + 1) ++ quote name ++ ": ".toList ++ prettyChars (level + 1) v
      ++ prettyMembers (level + 1) ms ++ newline level ++ ['\x7d']
  | j => atom j

def prettyItems (level : Nat) : List Json → List Char
  | [] => []
  | v :: vs => ',' :: newline level ++ prettyChars level v ++ prettyItems level vs

def prettyMembers (level : Nat) : List (Option String × Json) → List Char
  | [] => []
  | (name, v) :: ms =>
    ',' :: newline level ++ quote name ++ ": ".toList ++ prettyChars level v
      ++ prettyMembers level ms

end

def compact (j : Json) : String :=
  String.ofList (compactChars j)

def pretty (j : Json) : String :=
  String.ofList (prettyChars 0 j)

end FlexAudit.Json
