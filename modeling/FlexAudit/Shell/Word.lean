/-! # Words of a shell script

A script is a list of lexemes: words, operators and redirections. A word is made of parts, each of
which is text, a parameter or the output of a script, inside quotes or not. -/

namespace FlexAudit.Shell

inductive Part where
  | text (chars : List Char) (quoted : Bool)
  | parameter (name : String) (quoted : Bool)
  /-- The output of a script. -/
  | output (script : List Char) (quoted : Bool)
  deriving DecidableEq, Repr

abbrev Word := List Part

inductive Lexeme where
  | word (w : Word)
  | operator (symbol : String)
  /-- A redirection symbol, with the descriptor in front of it. -/
  | redirection (descriptor : Option Nat) (symbol : String)
  deriving DecidableEq, Repr

def isSpace (c : Char) : Bool :=
  c == ' ' || c == '\t'

/-- A character that ends a word. -/
def isMeta (c : Char) : Bool :=
  isSpace c || c == '\n' || c == ';' || c == '&' || c == '|' || c == '<' || c == '>' || c == '('
    || c == ')'

/-- A character that has a meaning of its own inside a word. -/
def isQuoting (c : Char) : Bool :=
  c == '\\' || c == '\'' || c == '"' || c == '$'

def isNameStart (c : Char) : Bool :=
  c.isAlpha || c == '_'

def isNameChar (c : Char) : Bool :=
  c.isAlphanum || c == '_'

/-- A parameter whose name is one character. -/
def isSpecialParameter (c : Char) : Bool :=
  c.isDigit || c == '@' || c == '*' || c == '#' || c == '?'

/-- The characters in front of the parenthesis that closes the one already open. -/
def untilClosed (depth : Nat) (quote : Option Char) : List Char → Option (List Char × List Char)
  | [] => none
  | c :: rest =>
    let go depth quote := (untilClosed depth quote rest).map fun (a, b) => (c :: a, b)
    match quote with
    | some q => go depth (if c == q then none else quote)
    | none =>
      if c == '\'' || c == '"' then go depth (some c)
      else if c == '(' then go (depth + 1) none
      else if c == ')' then (if depth = 0 then some ([], rest) else go (depth - 1) none)
      else go depth none

/-- What a dollar sign stands for in front of the characters. -/
def expansion? (quoted : Bool) (cs : List Char) : Option (Part × List Char) :=
  match cs with
  | '\x7b' :: rest =>
    match rest.span (· != '\x7d') with
    | (name, _ :: rest) => some (.parameter (String.ofList name) quoted, rest)
    | _ => none
  | '(' :: rest => (untilClosed 0 none rest).map fun (script, rest) => (.output script quoted, rest)
  | c :: rest =>
    if isSpecialParameter c then some (.parameter c.toString quoted, rest)
    else if isNameStart c then
      some (.parameter (String.ofList (cs.takeWhile isNameChar)) quoted, cs.dropWhile isNameChar)
    else some (.text ['$'] quoted, cs)
  | [] => some (.text ['$'] quoted, [])

/-- The parts up to the closing double quote. -/
def doubleQuoted : Nat → List Char → Option (Word × List Char)
  | 0, _ => none
  | _, [] => none
  | fuel + 1, c :: rest =>
    let part (p : Part) (rest : List Char) :=
      (doubleQuoted fuel rest).map fun (w, rest) => (p :: w, rest)
    if c == '"' then some ([], rest)
    else if c == '\\' then
      match rest with
      | '\n' :: rest => doubleQuoted fuel rest
      | d :: rest =>
        if d == '$' || d == '"' || d == '\\' || d == '\x60' then part (.text [d] true) rest
        else part (.text ['\\', d] true) rest
      | [] => none
    else if c == '$' then do
      let (p, rest) ← expansion? true rest
      part p rest
    else part (.text [c] true) rest

/-- The parts of a word up to the character that ends it. -/
def word : Nat → List Char → Option (Word × List Char)
  | 0, _ => none
  | _, [] => some ([], [])
  | fuel + 1, c :: rest =>
    let parts (ps : Word) (rest : List Char) :=
      (word fuel rest).map fun (w, rest) => (ps ++ w, rest)
    if isMeta c then some ([], c :: rest)
    else if c == '\\' then
      match rest with
      | '\n' :: rest => word fuel rest
      | d :: rest => parts [.text [d] true] rest
      | [] => parts [.text ['\\'] true] []
    else if c == '\'' then
      match rest.span (· != '\'') with
      | (chars, _ :: rest) => parts [.text chars true] rest
      | _ => none
    else if c == '"' then do
      let (ps, rest) ← doubleQuoted fuel rest
      parts (.text [] true :: ps) rest
    else if c == '$' then do
      let (p, rest) ← expansion? false rest
      parts [p] rest
    else
      let plain (d : Char) : Bool := !isMeta d && !isQuoting d
      parts [.text ((c :: rest).takeWhile plain) false] ((c :: rest).dropWhile plain)

/-- The longest operator at the start. -/
def operator? : List Char → Option (Lexeme × List Char)
  | ';' :: ';' :: rest => some (.operator ";;", rest)
  | '&' :: '&' :: rest => some (.operator "&&", rest)
  | '|' :: '|' :: rest => some (.operator "||", rest)
  | '>' :: '>' :: rest => some (.redirection none ">>", rest)
  | '>' :: '&' :: rest => some (.redirection none ">&", rest)
  | '<' :: '&' :: rest => some (.redirection none "<&", rest)
  | '>' :: rest => some (.redirection none ">", rest)
  | '<' :: rest => some (.redirection none "<", rest)
  | c :: rest => if isMeta c && !isSpace c then some (.operator c.toString, rest) else none
  | [] => none

/-- The lexemes of a script. Every one takes at least one character. -/
def lexemesFrom : Nat → List Char → Option (List Lexeme)
  | 0, _ => none
  | _, [] => some []
  | fuel + 1, c :: rest =>
    if isSpace c then lexemesFrom fuel rest
    else if c == '#' then lexemesFrom fuel (rest.dropWhile (· != '\n'))
    else
      let digits := (c :: rest).takeWhile Char.isDigit
      let afterDigits := (c :: rest).dropWhile Char.isDigit
      match operator? afterDigits with
      | some (.redirection _ symbol, rest') =>
        if digits.isEmpty then (.redirection none symbol :: ·) <$> lexemesFrom fuel rest'
        else (.redirection (String.ofList digits).toNat? symbol :: ·) <$> lexemesFrom fuel rest'
      | some (l, rest') =>
        if digits.isEmpty then (l :: ·) <$> lexemesFrom fuel rest'
        else do
          let (w, rest') ← word fuel (c :: rest)
          (.word w :: ·) <$> lexemesFrom fuel rest'
      | none => do
        let (w, rest') ← word (fuel + 1) (c :: rest)
        (.word w :: ·) <$> lexemesFrom fuel rest'

def lexemes? (script : List Char) : Option (List Lexeme) :=
  lexemesFrom (script.length + 2) script

end FlexAudit.Shell
