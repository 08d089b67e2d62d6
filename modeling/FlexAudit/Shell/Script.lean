import FlexAudit.Shell.Word

/-! # Shell scripts

The commands of a script, and how they are read from its lexemes. -/

namespace FlexAudit.Shell

/-- A redirection of a descriptor to a file or to another descriptor. -/
structure Redirect where
  descriptor : Nat
  symbol : String
  target : Word
  deriving DecidableEq, Repr

inductive Command where
  | nothing
  | simple (assignments : List (String × Word)) (words : List Word)
  | redirected (body : Command) (redirects : List Redirect)
  | sequence (first second : Command)
  | both (first second : Command)
  | either (first second : Command)
  | negated (body : Command)
  | pipe (first second : Command)
  /-- A loop over words, or over the arguments of the script. -/
  | forEach (name : String) (words : Option (List Word)) (body : Command)
  /-- A loop that runs while the condition has the given success. -/
  | loop (success : Bool) (condition body : Command)
  | branch (condition yes no : Command)
  | select (subject : Word) (cases : List (List Word × Command))
  | subshell (body : Command)

/-- The text of a word that is written without quotes and parameters. -/
def plainText? : Lexeme → Option String
  | .word parts => do
    let texts ← parts.mapM fun
      | .text chars false => some chars
      | _ => none
    return String.ofList texts.flatten
  | _ => none

/-- Whether a lexeme is the keyword. -/
def isKeyword (keyword : String) (l : Lexeme) : Bool :=
  plainText? l == some keyword

def isSeparator (l : Lexeme) : Bool :=
  l == .operator "\n" || l == .operator ";"

def isNewline (l : Lexeme) : Bool :=
  l == .operator "\n"

/-- Keywords and operators that end a list of commands. -/
def endsList (l : Lexeme) : Bool :=
  l == .operator ")" || l == .operator ";;"
    || ["then", "elif", "else", "fi", "do", "done", "esac", "\x7d"].any (isKeyword · l)

/-- An assignment in front of a command: a name, an equals sign and the start of a value. -/
def assignment? : Lexeme → Option (String × Word)
  | .word (.text chars false :: rest) =>
    match chars.span (· != '=') with
    | (name, _ :: value) =>
      if name.head?.any isNameStart && name.all isNameChar then
        some (String.ofList name, .text value false :: rest)
      else none
    | _ => none
  | _ => none

def redirect? (descriptor : Option Nat) (symbol : String) (target : Word) : Redirect :=
  ⟨descriptor.getD (if symbol.startsWith "<" then 0 else 1), symbol, target⟩

abbrev Parsed := Option (Command × List Lexeme)

/-- The words and redirections of a simple command. -/
def simpleParts : List Lexeme → List (String × Word) → List Word → List Redirect →
    Option ((List (String × Word) × List Word × List Redirect) × List Lexeme)
  | .redirection d s :: .word w :: rest, assignments, words, redirects =>
    simpleParts rest assignments words (redirects ++ [redirect? d s w])
  | .redirection _ _ :: _, _, _, _ => none
  | .word w :: rest, assignments, words, redirects =>
    match (if words.isEmpty then assignment? (.word w) else none) with
    | some a => simpleParts rest (assignments ++ [a]) words redirects
    | none => simpleParts rest assignments (words ++ [w]) redirects
  | rest, assignments, words, redirects => some ((assignments, words, redirects), rest)

/-- The redirections behind a compound command. -/
def redirects : List Lexeme → List Redirect × List Lexeme
  | .redirection d s :: .word w :: rest =>
    let (rs, rest) := redirects rest
    (redirect? d s w :: rs, rest)
  | rest => ([], rest)

/-- The words up to the end of the list of a loop. -/
def listWords : List Lexeme → List Word × List Lexeme
  | .word w :: rest =>
    let (ws, rest) := listWords rest
    (w :: ws, rest)
  | rest => ([], rest)

/-- The patterns in front of a closing parenthesis, with bars between them. -/
def patterns : List Lexeme → Option (List Word × List Lexeme)
  | .word w :: .operator "|" :: rest => (patterns rest).map fun (ws, rest) => (w :: ws, rest)
  | .word w :: .operator ")" :: rest => some ([w], rest)
  | _ => none

/-- The lexemes behind an expected keyword, line breaks in front of it skipped. -/
def expect (keyword : String) (ls : List Lexeme) : Option (List Lexeme) :=
  match ls.dropWhile isSeparator with
  | l :: rest => if isKeyword keyword l then some rest else none
  | [] => none

mutual

/-- Commands up to the end or to something that ends a list. -/
def commands : Nat → List Lexeme → Parsed
  | 0, _ => none
  | fuel + 1, ls =>
    match ls.dropWhile isSeparator with
    | [] => some (.nothing, [])
    | l :: rest =>
      if endsList l then some (.nothing, l :: rest)
      else do
        let (first, rest) ← chain fuel (l :: rest)
        match rest with
        | [] => return (first, [])
        | next :: _ =>
          if isSeparator next || endsList next then
            let (second, rest) ← commands fuel rest
            return (.sequence first second, rest)
          else none

/-- Pipelines joined by their success or failure. -/
def chain : Nat → List Lexeme → Parsed
  | 0, _ => none
  | fuel + 1, ls => do
    let (first, rest) ← pipeline fuel ls
    chainFrom fuel first rest

def chainFrom : Nat → Command → List Lexeme → Parsed
  | 0, _, _ => none
  | fuel + 1, first, .operator "&&" :: rest => do
    let (second, rest) ← pipeline fuel (rest.dropWhile isNewline)
    chainFrom fuel (.both first second) rest
  | fuel + 1, first, .operator "||" :: rest => do
    let (second, rest) ← pipeline fuel (rest.dropWhile isNewline)
    chainFrom fuel (.either first second) rest
  | _, first, rest => some (first, rest)

def pipeline : Nat → List Lexeme → Parsed
  | 0, _ => none
  | fuel + 1, ls =>
    match ls with
    | [] => none
    | l :: rest =>
      if isKeyword "!" l then (pipeline fuel rest).map fun (c, rest) => (.negated c, rest)
      else do
        let (first, rest) ← command fuel ls
        match rest with
        | .operator "|" :: rest =>
          let (second, rest) ← pipeline fuel (rest.dropWhile isNewline)
          return (.pipe first second, rest)
        | _ => return (first, rest)

/-- A simple or compound command with its redirections. -/
def command : Nat → List Lexeme → Parsed
  | 0, _ => none
  | _, [] => none
  | fuel + 1, l :: rest => do
    let compound ← compound? fuel l rest
    match compound with
    | some (body, rest) =>
      let (rs, rest) := redirects rest
      return (if rs.isEmpty then body else .redirected body rs, rest)
    | none =>
      let ((assignments, words, rs), rest) ← simpleParts (l :: rest) [] [] []
      if assignments.isEmpty && words.isEmpty && rs.isEmpty then none
      else
        let body := Command.simple assignments words
        return (if rs.isEmpty then body else .redirected body rs, rest)

/-- A compound command, if the lexeme starts one. -/
def compound? : Nat → Lexeme → List Lexeme → Option (Option (Command × List Lexeme))
  | 0, _, _ => none
  | fuel + 1, l, rest =>
    if l == .operator "(" then do
      let (body, rest) ← commands fuel rest
      match rest with
      | .operator ")" :: rest => return some (.subshell body, rest)
      | _ => none
    else if isKeyword "\x7b" l then do
      let (body, rest) ← commands fuel rest
      return some (body, ← expect "\x7d" rest)
    else if isKeyword "if" l then some <$> conditional fuel rest
    else if isKeyword "while" l || isKeyword "until" l then do
      let (condition, rest) ← commands fuel rest
      let (body, rest) ← commands fuel (← expect "do" rest)
      return some (.loop (isKeyword "while" l) condition body, ← expect "done" rest)
    else if isKeyword "for" l then do
      match rest with
      | name :: rest =>
        let (words, rest) := match rest.dropWhile isNewline with
          | next :: rest' =>
            if isKeyword "in" next then
              let (ws, rest') := listWords rest'
              (some ws, rest')
            else (none, rest)
          | [] => (none, rest)
        let (body, rest) ← commands fuel (← expect "do" rest)
        return some (.forEach (← plainText? name) words body, ← expect "done" rest)
      | [] => none
    else if isKeyword "case" l then do
      match rest with
      | .word subject :: rest =>
        let (cases, rest) ← selections fuel (← expect "in" rest)
        return some (.select subject cases, rest)
      | _ => none
    else some none

/-- The rest of a conditional behind its `if` or `elif`. -/
def conditional : Nat → List Lexeme → Parsed
  | 0, _ => none
  | fuel + 1, ls => do
    let (condition, rest) ← commands fuel ls
    let (yes, rest) ← commands fuel (← expect "then" rest)
    match rest with
    | l :: rest =>
      if isKeyword "elif" l then
        let (no, rest) ← conditional fuel rest
        return (.branch condition yes no, rest)
      else if isKeyword "else" l then
        let (no, rest) ← commands fuel rest
        return (.branch condition yes no, ← expect "fi" rest)
      else if isKeyword "fi" l then return (.branch condition yes .nothing, rest)
      else none
    | [] => none

/-- The cases of a selection up to its end. -/
def selections : Nat → List Lexeme → Option (List (List Word × Command) × List Lexeme)
  | 0, _ => none
  | fuel + 1, ls =>
    match ls.dropWhile isSeparator with
    | [] => none
    | l :: rest =>
      if isKeyword "esac" l then some ([], rest)
      else do
        let (ps, rest) ← patterns (if l == .operator "(" then rest else l :: rest)
        let (body, rest) ← commands fuel rest
        let (more, rest) ← match rest with
          | .operator ";;" :: rest => selections fuel rest
          | _ => selections fuel rest
        return ((ps, body) :: more, rest)

end

/-- The commands of a script; fails if it cannot be read. -/
def Command.parse? (script : List Char) : Option Command := do
  let ls ← lexemes? script
  match ← commands (10 * ls.length + 10) ls with
  | (c, []) => some c
  | _ => none

end FlexAudit.Shell
