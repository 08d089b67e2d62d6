import FlexAudit.FileTree.Basic
import FlexAudit.Text.Utf8

/-! # Small programs

What the programs do that scripts are made of. They read files and standard input, write to two
streams and end with a status. -/

namespace FlexAudit.Program

inductive Stream where
  | out
  | err
  deriving DecidableEq, Repr

/-- What a program wrote, in order, and how it ended. -/
structure Effect where
  written : List (Stream × List UInt8) := []
  status : Nat := 0
  deriving DecidableEq, Repr

namespace Effect

/-- All that went to a stream. -/
def on (e : Effect) (s : Stream) : List UInt8 :=
  (e.written.filter (·.1 == s)).flatMap Prod.snd

end Effect

def bytes (s : String) : List UInt8 :=
  Utf8.encode s.toList

def print (s : String) : Effect :=
  { written := [(.out, bytes s)] }

def complain (status : Nat) (s : String) : Effect :=
  { written := [(.err, bytes s)], status := status }

/-! ## Concatenation -/

/-- The reason as programs print it. -/
def reason : OsError → String
  | .notFound => "No such file or directory"
  | .permissionDenied => "Permission denied"
  | .notDirectory => "Not a directory"
  | .isDirectory => "Is a directory"
  | .tooManyLinks => "Too many levels of symbolic links"
  | .badExecutable => "Exec format error"
  | .invalidText => "Invalid argument"
  | .exhausted => "Resource temporarily unavailable"

def catFile (t : FileTree) (cwd : Location) (input : List UInt8) (name : String) :
    Stream × List UInt8 :=
  if name = "-" then (.out, input)
  else
    match t.read cwd ⟨name⟩ with
    | .ok content => (.out, content)
    | .error e => (.err, bytes ("cat: " ++ name ++ ": " ++ reason e ++ "\n"))

/-- The flags that `cat` knows. -/
def catFlags : List Char := "AbeEnstTuv".toList

/-- Arguments that are flags, and the others; two dashes end the flags. -/
def splitFlags : List String → List (List Char) × List String
  | [] => ([], [])
  | "--" :: rest => ([], rest)
  | a :: rest =>
    let (flags, names) := splitFlags rest
    match a.toList with
    | '-' :: c :: cs => ((c :: cs) :: flags, names)
    | _ => (flags, a :: names)

/-- Prints files one after the other. -/
def cat (t : FileTree) (cwd : Location) (input : List UInt8) (args : List String) : Effect :=
  let (flags, names) := splitFlags args
  match flags.flatten.find? (fun c => !catFlags.contains c) with
  | some c =>
    complain 1 ("cat: invalid option -- '" ++ c.toString
      ++ "'\nTry 'cat --help' for more information.\n")
  | none =>
    let written := (if names.isEmpty then ["-"] else names).map (catFile t cwd input)
    { written := written, status := if written.any (·.1 == .err) then 1 else 0 }

/-! ## Beginnings -/

/-- How much of each file is printed. -/
structure Portion where
  count : Nat := 10
  ofBytes : Bool := false
  deriving DecidableEq, Repr

/-- The first lines, with their line breaks. -/
def firstLines : Nat → List UInt8 → List UInt8
  | 0, _ => []
  | count + 1, content =>
    match content.dropWhile (· != 10) with
    | [] => content
    | feed :: rest => content.takeWhile (· != 10) ++ feed :: firstLines count rest

def Portion.take (p : Portion) (content : List UInt8) : List UInt8 :=
  if p.ofBytes then content.take p.count else firstLines p.count content

/-- The portion in front of the names; the number is attached to its letter or follows it. -/
def portion? : List String → Option (Portion × List String)
  | "-c" :: n :: names => n.toNat?.map fun n => (⟨n, true⟩, names)
  | "-n" :: n :: names => n.toNat?.map fun n => (⟨n, false⟩, names)
  | a :: names =>
    match a.toList with
    | '-' :: 'c' :: digits => (String.ofList digits).toNat?.map fun n => (⟨n, true⟩, names)
    | '-' :: 'n' :: digits => (String.ofList digits).toNat?.map fun n => (⟨n, false⟩, names)
    | '-' :: c :: digits => (String.ofList (c :: digits)).toNat?.map fun n => (⟨n, false⟩, names)
    | _ => some ({}, a :: names)
  | [] => some ({}, [])

def headFile (t : FileTree) (cwd : Location) (input : List UInt8) (p : Portion) (name : String) :
    Stream × List UInt8 :=
  if name = "-" then (.out, p.take input)
  else
    match t.read cwd ⟨name⟩ with
    | .ok content => (.out, p.take content)
    | .error .isDirectory => (.err, bytes ("head: error reading '" ++ name ++ "': Is a directory\n"))
    | .error e =>
      (.err, bytes ("head: cannot open '" ++ name ++ "' for reading: " ++ reason e ++ "\n"))

/-- Prints the beginnings of files; the names stand above them if there are several. -/
def head (t : FileTree) (cwd : Location) (input : List UInt8) (args : List String) : Effect :=
  match portion? args with
  | none => complain 1 "head: invalid number\n"
  | some (p, names) =>
    let pieces := (if names.isEmpty then ["-"] else names).map fun name =>
      (name, headFile t cwd input p name)
    let title (i : Nat) (name : String) : String :=
      (if i = 0 then "" else "\n") ++ "==> " ++ name ++ " <==\n"
    let written := pieces.zipIdx.flatMap fun ((name, piece), i) =>
      if pieces.length ≤ 1 || piece.1 == .err then [piece] else [(.out, bytes (title i name)), piece]
    { written := written, status := if pieces.any (·.2.1 == .err) then 1 else 0 }

/-! ## Printing -/

def octalValue? (c : Char) : Option Nat :=
  if '0' ≤ c ∧ c ≤ '7' then some (c.toNat - 48) else none

/-- The byte of up to `width` octal digits, and what follows them. -/
def octal (width : Nat) (cs : List Char) : UInt8 × List Char :=
  let digits := (cs.take width).takeWhile fun c => (octalValue? c).isSome
  ((digits.foldl (fun n c => n * 8 + (octalValue? c).getD 0) 0).toUInt8, cs.drop digits.length)

/-- The byte of an escape letter. -/
def escapeByte? : Char → Option UInt8
  | 'a' => some 7
  | 'b' => some 8
  | 't' => some 9
  | 'n' => some 10
  | 'v' => some 11
  | 'f' => some 12
  | 'r' => some 13
  | '\\' => some 92
  | _ => none

/-- Text with its escapes replaced. A leading zero belongs to the escape where `zero` is set. -/
def unescape (zero : Bool) : Nat → List Char → List UInt8
  | 0, _ => []
  | _, [] => []
  | fuel + 1, '\\' :: c :: rest =>
    match escapeByte? c with
    | some b => b :: unescape zero fuel rest
    | none =>
      if zero && c == '0' then
        let (b, rest) := octal 3 rest
        b :: unescape zero fuel rest
      else if !zero && (octalValue? c).isSome then
        let (b, rest) := octal 3 (c :: rest)
        b :: unescape zero fuel rest
      else Utf8.encode ['\\', c] ++ unescape zero fuel rest
  | fuel + 1, c :: rest => Utf8.encode [c] ++ unescape zero fuel rest

/-- The arguments with spaces between them. -/
def joined (args : List String) : String :=
  " ".intercalate args

/-- Prints the arguments as they are; `-n` leaves out the line break. -/
def echo (args : List String) : Effect :=
  match args with
  | "-n" :: rest => print (joined rest)
  | _ => print (joined args ++ "\n")

/-- Prints the arguments with their escapes replaced. -/
def echoEscaped (args : List String) : Effect :=
  let (ending, args) : List UInt8 × List String := match args with
    | "-n" :: rest => ([], rest)
    | _ => ([10], args)
  let text := (joined args).toList
  { written := [(.out, unescape true (text.length + 1) text ++ ending)] }

/-- One pass of a format over the arguments: what is printed, and the arguments left. -/
def formatOnce : Nat → List Char → List String → List UInt8 × List String
  | 0, _, args => ([], args)
  | _, [], args => ([], args)
  | fuel + 1, '%' :: c :: rest, args =>
    let continued (piece : List UInt8) (args : List String) :=
      let (out, args) := formatOnce fuel rest args
      (piece ++ out, args)
    match c with
    | '%' => continued [37] args
    | 's' => continued (bytes (args.headD "")) (args.drop 1)
    | 'd' => continued (bytes (toString ((args.headD "").toInt?.getD 0))) (args.drop 1)
    | 'c' => continued (Utf8.encode ((args.headD "").toList.take 1)) (args.drop 1)
    | 'b' =>
      let text := (args.headD "").toList
      continued (unescape true (text.length + 1) text) (args.drop 1)
    | _ => continued (Utf8.encode ['%', c]) args
  | fuel + 1, '\\' :: c :: rest, args =>
    match escapeByte? c with
    | some b =>
      let (out, args) := formatOnce fuel rest args
      (b :: out, args)
    | none =>
      if (octalValue? c).isSome then
        let (b, rest) := octal 3 (c :: rest)
        let (out, args) := formatOnce fuel rest args
        (b :: out, args)
      else
        let (out, args) := formatOnce fuel rest args
        (Utf8.encode ['\\', c] ++ out, args)
  | fuel + 1, c :: rest, args =>
    let (out, args) := formatOnce fuel rest args
    (Utf8.encode [c] ++ out, args)

/-- Repeats a format while it takes arguments. -/
def formatAll (format : List Char) : Nat → List String → List UInt8
  | 0, _ => []
  | fuel + 1, args =>
    let (out, left) := formatOnce (format.length + 1) format args
    if left.isEmpty || left.length = args.length then out else out ++ formatAll format fuel left

def printf (args : List String) : Effect :=
  match args with
  | [] => complain 2 "printf: usage: printf format [arg ...]\n"
  | format :: args => { written := [(.out, formatAll format.toList (args.length + 1) args)] }

/-! ## Conditions -/

/-- Whether a condition on texts, numbers and files holds. -/
def holds (t : FileTree) (cwd : Location) : List String → Bool
  | [] => false
  | [a] => a != ""
  | ["!", a] => a == ""
  | ["-n", a] => a != ""
  | ["-z", a] => a == ""
  | ["-e", a] => t.pathExists cwd ⟨a⟩
  | ["-f", a] => t.isFile cwd ⟨a⟩
  | ["-r", a] => t.pathExists cwd ⟨a⟩
  | ["-d", a] => t.isDir cwd ⟨a⟩
  | ["-s", a] =>
    match t.find? cwd ⟨a⟩ with
    | some (.file content _) => !content.isEmpty
    | some .directory => true
    | _ => false
  | [a, "=", b] => a == b
  | [a, "!=", b] => a != b
  | [a, "-eq", b] => a.toInt? == b.toInt?
  | [a, "-ne", b] => a.toInt? != b.toInt?
  | [a, "-lt", b] => a.toInt?.getD 0 < b.toInt?.getD 0
  | [a, "-le", b] => a.toInt?.getD 0 ≤ b.toInt?.getD 0
  | [a, "-gt", b] => a.toInt?.getD 0 > b.toInt?.getD 0
  | [a, "-ge", b] => a.toInt?.getD 0 ≥ b.toInt?.getD 0
  | "!" :: rest => !holds t cwd rest
  | _ => false

def test (t : FileTree) (cwd : Location) (args : List String) : Effect :=
  { status := if holds t cwd args then 0 else 1 }

/-! ## Programs by name -/

/-- The effect of a program, if it is one of the small ones. -/
def small? (t : FileTree) (cwd : Location) (input : List UInt8) (name : String)
    (args : List String) : Option Effect :=
  match name with
  | "true" => some {}
  | "false" => some { status := 1 }
  | "cat" => some (cat t cwd input args)
  | "head" => some (head t cwd input args)
  | "echo" => some (echo args)
  | "printf" => some (printf args)
  | "test" => some (test t cwd args)
  | _ => none

/-- The name of a program in a standard directory. -/
def standardName? (path : String) : Option String :=
  ["/bin/", "/usr/bin/"].findSome? fun directory =>
    if directory.toList.isPrefixOf path.toList then
      some (String.ofList (path.toList.drop directory.length))
    else none

end FlexAudit.Program
