import FlexAudit.Json.Basic

/-! # Reading JSON

A reader by descent over the characters. Each function returns what follows the part that it read.
The number of nested calls is bounded by an argument that starts at the length of the text, since
every call reads a character.

Numbers and strings are checked by the grammar alone: a string may hold an unpaired surrogate, and
then has no text. -/

namespace FlexAudit.Json

def isBlank (c : Char) : Bool :=
  c == ' ' || c == '\t' || c == '\n' || c == '\r'

def skipBlank (cs : List Char) : List Char :=
  cs.dropWhile isBlank

def hexDigit? (c : Char) : Option Nat :=
  if '0' ≤ c ∧ c ≤ '9' then some (c.toNat - 48)
  else if 'a' ≤ c ∧ c ≤ 'f' then some (c.toNat - 87)
  else if 'A' ≤ c ∧ c ≤ 'F' then some (c.toNat - 55)
  else none

def hex4? (a b c d : Char) : Option Nat := do
  let x ← hexDigit? a
  let y ← hexDigit? b
  let z ← hexDigit? c
  let w ← hexDigit? d
  return ((x * 16 + y) * 16 + z) * 16 + w

def isHighSurrogate (n : Nat) : Bool := 0xD800 ≤ n && n < 0xDC00
def isLowSurrogate (n : Nat) : Bool := 0xDC00 ≤ n && n < 0xE000

/-- The character of an escape that is one letter. -/
def simpleEscape? : Char → Option Char
  | '"' => some '"'
  | '\\' => some '\\'
  | '/' => some '/'
  | 'b' => some '\x08'
  | 'f' => some '\x0c'
  | 'n' => some '\n'
  | 'r' => some '\r'
  | 't' => some '\t'
  | _ => none

/-- A string that is being read. -/
structure Units where
  /-- The characters so far, last first; nothing once a surrogate stands alone. -/
  chars : Option (List Char) := some []
  /-- A high surrogate that waits for its low one. -/
  high : Option Nat := none

namespace Units

/-- Adds a character. A high surrogate in front of it stands alone. -/
def char (u : Units) (c : Char) : Units :=
  match u.high with
  | none => ⟨u.chars.map (c :: ·), none⟩
  | some _ => ⟨none, none⟩

/-- Adds a code unit that was written as an escape. -/
def unit (u : Units) (n : Nat) : Units :=
  if isLowSurrogate n then
    match u.high with
    | none => ⟨none, none⟩
    | some h =>
      ⟨u.chars.map (Char.ofNat (0x10000 + (h - 0xD800) * 0x400 + (n - 0xDC00)) :: ·), none⟩
  else if isHighSurrogate n then
    match u.high with
    | none => ⟨u.chars, some n⟩
    | some _ => ⟨none, none⟩
  else u.char (Char.ofNat n)

def finish (u : Units) : Option (List Char) :=
  match u.high with
  | none => u.chars.map List.reverse
  | some _ => none

end Units

/-- The rest of a string after its opening quote. -/
def stringBody (u : Units) : List Char → Option (Option (List Char) × List Char)
  | [] => none
  | '"' :: rest => some (u.finish, rest)
  | '\\' :: 'u' :: a :: b :: c :: d :: rest =>
    match hex4? a b c d with
    | none => none
    | some n => stringBody (u.unit n) rest
  | '\\' :: c :: rest =>
    match simpleEscape? c with
    | none => none
    | some e => stringBody (u.char e) rest
  | c :: rest => if c = '\\' ∨ c < ' ' then none else stringBody (u.char c) rest

/-- A string, read from after its opening quote. -/
def string (cs : List Char) : Option (Option String × List Char) :=
  (stringBody {} cs).map fun (text, rest) => (text.map String.ofList, rest)

def isDigit (c : Char) : Bool := '0' ≤ c && c ≤ '9'

def digitsValue (digits : List Char) : Nat :=
  digits.foldl (fun n c => n * 10 + (c.toNat - 48)) 0

/-- What follows a run of at least one digit. -/
def someDigits (cs : List Char) : Option (List Char) :=
  let after := cs.dropWhile isDigit
  if after.length < cs.length then some after else none

/-- What follows a fraction, if one stands here. -/
def fraction : List Char → Option (List Char)
  | '.' :: rest => someDigits rest
  | cs => some cs

/-- What follows an exponent, if one stands here. -/
def exponent : List Char → Option (List Char)
  | [] => some []
  | c :: rest =>
    if c = 'e' ∨ c = 'E' then
      match rest with
      | [] => none
      | s :: rest' => if s = '+' ∨ s = '-' then someDigits rest' else someDigits rest
    else some (c :: rest)

/-- The part of a number that follows its sign. -/
def unsignedNumber (negative : Bool) (cs : List Char) : Option (Json × List Char) := do
  let digits := cs.takeWhile isDigit
  let rest := cs.dropWhile isDigit
  if digits = [] ∨ (digits.head? = some '0' ∧ digits.length ≠ 1) then none
  else
    let after ← exponent (← fraction rest)
    if negative = false ∧ after.length = rest.length then
      return (.nat (digitsValue digits), after)
    else return (.otherNumber, after)

def number : List Char → Option (Json × List Char)
  | '-' :: rest => unsignedNumber true rest
  | cs => unsignedNumber false cs

/-- The rest after a fixed word. -/
def word (w : String) (v : Json) (cs : List Char) : Option (Json × List Char) :=
  if w.toList.isPrefixOf cs then some (v, cs.drop w.length) else none

mutual

/-- One value. -/
def value : Nat → List Char → Option (Json × List Char)
  | 0, _ => none
  | n + 1, cs =>
    match skipBlank cs with
    | [] => none
    | c :: rest =>
      match c with
      | '"' => (string rest).map fun (text, rest) => (.str text, rest)
      | '[' =>
        match skipBlank rest with
        | ']' :: rest => some (.arr [], rest)
        | rest => (items n rest).map fun (vs, rest) => (.arr vs, rest)
      | '\x7b' =>
        match skipBlank rest with
        | '\x7d' :: rest => some (.obj [], rest)
        | rest => (members n rest).map fun (ms, rest) => (.obj ms, rest)
      | 't' => word "rue" (.bool true) rest
      | 'f' => word "alse" (.bool false) rest
      | 'n' => word "ull" .null rest
      | c => number (c :: rest)

/-- The items of an array that is not empty, through its closing bracket. -/
def items : Nat → List Char → Option (List Json × List Char)
  | 0, _ => none
  | n + 1, cs =>
    match value n cs with
    | none => none
    | some (v, rest) =>
      match skipBlank rest with
      | ',' :: rest => (items n rest).map fun (vs, rest) => (v :: vs, rest)
      | ']' :: rest => some ([v], rest)
      | _ => none

/-- The members of an object that is not empty, through its closing brace. -/
def members : Nat → List Char → Option (List (Option String × Json) × List Char)
  | 0, _ => none
  | n + 1, cs =>
    match skipBlank cs with
    | '"' :: rest =>
      match string rest with
      | none => none
      | some (name, rest) =>
        match skipBlank rest with
        | ':' :: rest =>
          match value n rest with
          | none => none
          | some (v, rest) =>
            match skipBlank rest with
            | ',' :: rest => (members n rest).map fun (ms, rest) => ((name, v) :: ms, rest)
            | '\x7d' :: rest => some ([(name, v)], rest)
            | _ => none
        | _ => none
    | _ => none

end

/-- The value of a text that holds one value and blanks around it. -/
def parseChars? (cs : List Char) : Option Json :=
  match value (cs.length + 1) cs with
  | some (v, rest) => if skipBlank rest = [] then some v else none
  | none => none

def parse? (text : String) : Option Json :=
  parseChars? text.toList

end FlexAudit.Json
