import FlexAudit.Program
import FlexAudit.Shell.Pattern
import FlexAudit.Shell.Script

/-! # Running programs and scripts

A program is found by its name or by its path. A file that can be executed names its interpreter in
its first line, and the shell is the only one. What a program does is a function of the file tree,
its arguments and its input; the number of steps is bounded. -/

namespace FlexAudit.Shell

open Program

/-- Where programs run. -/
structure System where
  tree : FileTree
  cwd : Location

/-- A script under way. -/
structure State where
  name : String
  args : List String := []
  bindings : List (String × String) := []
  status : Nat := 0
  /-- Whether the script has ended. -/
  ended : Bool := false
  input : List UInt8 := []
  written : List (Stream × List UInt8) := []

namespace State

def emit (s : State) (e : Effect) : State :=
  { s with written := s.written ++ e.written, status := e.status }

def assign (s : State) (name value : String) : State :=
  { s with bindings := (name, value) :: s.bindings.filter (·.1 != name) }

/-- The value of a parameter with one value. -/
def parameter (s : State) (name : String) : String :=
  match name with
  | "#" => toString s.args.length
  | "?" => toString s.status
  | "@" => joined s.args
  | "*" => joined s.args
  | "0" => s.name
  | _ =>
    match name.toNat? with
    | some n => s.args.getD (n - 1) ""
    | none => (s.bindings.lookup name).getD ""

end State

/-! ## Fields -/

/-- Words under expansion: the finished fields, and the one that grows. -/
structure Fields where
  done : List String := []
  current : Option (List Char) := none

namespace Fields

def close (f : Fields) : Fields :=
  match f.current with
  | some cs => ⟨f.done ++ [String.ofList cs], none⟩
  | none => f

def append (f : Fields) (cs : List Char) : Fields :=
  { f with current := some (f.current.getD [] ++ cs) }

def isSplitting (c : Char) : Bool :=
  c == ' ' || c == '\t' || c == '\n'

/-- A value without quotes, which is split at blanks. -/
def appendSplit (f : Fields) (cs : List Char) : Fields :=
  cs.foldl (fun f c => if isSplitting c then f.close else f.append [c]) f

/-- The arguments, each a field of its own. -/
def appendArgs (f : Fields) : List String → Fields
  | [] => f
  | [a] => f.append a.toList
  | a :: rest => ((f.append a.toList).close).appendArgs rest

end Fields

/-! ## Redirections -/

/-- Where the descriptors of the two streams lead. -/
abbrev Routes := Nat → Option Stream

def standardRoutes : Routes
  | 1 => some .out
  | 2 => some .err
  | _ => none

def reroute (routes : Routes) (descriptor : Nat) (symbol target : String) : Routes :=
  let route : Option Stream :=
    if symbol = ">&" then target.toNat?.bind routes
    else if target = "/dev/stdout" then routes 1
    else if target = "/dev/stderr" then routes 2
    else none
  fun n => if n = descriptor then route else routes n

def Routes.apply (routes : Routes) (written : List (Stream × List UInt8)) :
    List (Stream × List UInt8) :=
  written.filterMap fun (stream, content) =>
    (routes (match stream with
      | .out => 1
      | .err => 2)).map (·, content)

/-! ## The start of a shell -/

/-- What a shell is asked to run. -/
inductive Task where
  | command (script : List Char) (name : String) (args : List String)
  | file (path : String) (args : List String)
  | input
  deriving DecidableEq, Repr

/-- The task in the arguments behind the options. -/
def taskOfOperands (isCommand : Bool) : List String → Option Task
  | [] => if isCommand then none else some .input
  | a :: rest =>
    if isCommand then
      match rest with
      | [] => some (.command a.toList "sh" [])
      | name :: args => some (.command a.toList name args)
    else some (.file a rest)

/-- The task in the arguments of a shell: options first, then the script or the file. -/
def taskOf (isCommand : Bool) : List String → Option Task
  | [] => taskOfOperands isCommand []
  | "--" :: rest => taskOfOperands isCommand rest
  | a :: rest =>
    match a.toList with
    | '-' :: c :: cs => taskOf (isCommand || (c :: cs).contains 'c') rest
    | _ => taskOfOperands isCommand (a :: rest)

/-- The interpreter that the first line of a file names, with an argument if there is one. -/
def interpreter? (content : List UInt8) : Option (String × List String) :=
  match content with
  | 35 :: 33 :: rest =>
    let line := Utf8.decodeLossy (rest.takeWhile (· != 10))
    let fields := (({} : Fields).appendSplit line).close.done
    match fields with
    | [] => none
    | program :: args => some (program, if args.isEmpty then [] else [joined args])
  | _ => none

/-- The content of a file that can be executed. -/
def executable (sys : System) (path : String) : Except OsError (List UInt8) := do
  match sys.tree.lookup (← sys.tree.locate sys.cwd ⟨path⟩) with
  | some (.file content true) => return content
  | _ => throw .permissionDenied

mutual

/-- Runs a program with arguments and input. -/
def run (sys : System) : Nat → String → List String → List UInt8 → Except OsError Effect
  | 0, _, _, _ => .ok { status := 1 }
  | fuel + 1, program, args, input =>
    if program.toList.contains '/' then
      match executable sys program with
      | .ok content =>
        match interpreter? content with
        | some (interpreter, extra) => run sys fuel interpreter (extra ++ program :: args) input
        | none => .error .badExecutable
      | .error e =>
        match standardName? program with
        | some name => if name.toList.contains '/' then .error e else run sys fuel name args input
        | none => .error e
    else if program = "sh" || program = "dash" then .ok (runShell sys fuel args input)
    else
      match small? sys.tree sys.cwd input program args with
      | some e => .ok e
      | none => .error .notFound

/-- Runs a shell with arguments. -/
def runShell (sys : System) : Nat → List String → List UInt8 → Effect
  | 0, _, _ => { status := 1 }
  | fuel + 1, args, input =>
    match taskOf false args with
    | none => complain 2 "sh: 0: -c requires an argument\n"
    | some .input =>
      let s := script sys fuel (Utf8.decodeLossy input) { name := "sh" }
      ⟨s.written, s.status⟩
    | some (.command text name args) =>
      let s := script sys fuel text { name := name, args := args, input := input }
      ⟨s.written, s.status⟩
    | some (.file path args) =>
      match sys.tree.read sys.cwd ⟨path⟩ with
      | .error _ => complain 2 ("sh: 0: cannot open " ++ path ++ ": No such file\n")
      | .ok content =>
        let s := script sys fuel (Utf8.decodeLossy content)
          { name := path, args := args, input := input }
        ⟨s.written, s.status⟩

/-- Runs the text of a script. -/
def script (sys : System) : Nat → List Char → State → State
  | 0, _, s => { s with status := 1, ended := true }
  | fuel + 1, text, s =>
    match Command.parse? text with
    | none => s.emit (complain 2 (s.name ++ ": 1: Syntax error\n"))
    | some c => exec sys fuel c s

/-- Runs a command. -/
def exec (sys : System) : Nat → Command → State → State
  | 0, _, s => { s with status := 1, ended := true }
  | fuel + 1, c, s =>
    match c with
    | .nothing => s
    | .simple assignments words =>
      let (fields, s) := expandAll sys fuel words s
      match fields with
      | [] => assignAll sys fuel assignments { s with status := 0 }
      | name :: args => invoke sys fuel name args s
    | .redirected body redirects =>
      let (routes, input, s) := redirectAll sys fuel redirects (standardRoutes, some s.input, s)
      match input with
      | none => { s with status := 2 }
      | some input =>
        let inner := exec sys fuel body { s with written := [], input := input }
        { inner with written := s.written ++ routes.apply inner.written, input := s.input }
    | .sequence a b =>
      let s := exec sys fuel a s
      if s.ended then s else exec sys fuel b s
    | .both a b =>
      let s := exec sys fuel a s
      if s.ended || s.status ≠ 0 then s else exec sys fuel b s
    | .either a b =>
      let s := exec sys fuel a s
      if s.ended || s.status = 0 then s else exec sys fuel b s
    | .negated a =>
      let s := exec sys fuel a s
      if s.ended then s else { s with status := if s.status = 0 then 1 else 0 }
    | .pipe a b =>
      let first := exec sys fuel a { s with written := [] }
      let carried := (Effect.mk first.written 0).on .out
      let second := exec sys fuel b { s with written := [], input := carried }
      { s with
        written := s.written ++ first.written.filter (·.1 == .err) ++ second.written
        status := second.status }
    | .forEach name words body =>
      let (fields, s) := match words with
        | none => (s.args, s)
        | some ws => expandAll sys fuel ws s
      repeatFor sys fuel name fields body { s with status := 0 }
    | .loop success condition body =>
      let s := exec sys fuel condition s
      if s.ended then s
      else if (s.status == 0) != success then { s with status := 0 }
      else
        let s := exec sys fuel body s
        if s.ended then s else exec sys fuel (.loop success condition body) s
    | .branch condition yes no =>
      let s := exec sys fuel condition s
      if s.ended then s
      else if s.status = 0 then exec sys fuel yes s
      else exec sys fuel no { s with status := 0 }
    | .select subject cases =>
      let (chars, s) := expandChars sys fuel subject s
      choose sys fuel (chars.map Prod.fst) cases { s with status := 0 }
    | .subshell body =>
      let inner := exec sys fuel body { s with written := [] }
      { s with written := s.written ++ inner.written, status := inner.status }

/-- Runs a command by name: those of the shell itself first. -/
def invoke (sys : System) : Nat → String → List String → State → State
  | 0, _, _, s => { s with status := 1, ended := true }
  | fuel + 1, name, args, s =>
    match name with
    | ":" => { s with status := 0 }
    | "exit" =>
      match args with
      | [] => { s with ended := true }
      | a :: _ =>
        match a.toNat? with
        | some n => { s with status := n % 256, ended := true }
        | none =>
          { s.emit (complain 2 (s.name ++ ": 1: exit: Illegal number: " ++ a ++ "\n")) with
            ended := true }
    | "shift" => { s with args := s.args.drop 1, status := 0 }
    | "exec" =>
      match args with
      | [] => { s with status := 0 }
      | program :: args => { invoke sys fuel program args s with ended := true }
    | "echo" => s.emit (echoEscaped args)
    | "[" => s.emit (test sys.tree sys.cwd args.dropLast)
    | _ =>
      match run sys fuel name args s.input with
      | .ok e => s.emit e
      | .error .notFound => s.emit (complain 127 (s.name ++ ": 1: " ++ name ++ ": not found\n"))
      | .error e => s.emit (complain 126 (s.name ++ ": 1: " ++ name ++ ": " ++ reason e ++ "\n"))

/-- Runs a body once for each value of a variable. -/
def repeatFor (sys : System) : Nat → String → List String → Command → State → State
  | 0, _, _, _, s => { s with status := 1, ended := true }
  | _, _, [], _, s => s
  | fuel + 1, name, value :: rest, body, s =>
    let s := exec sys fuel body (s.assign name value)
    if s.ended then s else repeatFor sys fuel name rest body s

/-- Runs the first case whose pattern fits. -/
def choose (sys : System) : Nat → List Char → List (List Word × Command) → State → State
  | 0, _, _, s => { s with status := 1, ended := true }
  | _, _, [], s => s
  | fuel + 1, subject, (patterns, body) :: rest, s =>
    match patterns with
    | [] => choose sys fuel subject rest s
    | p :: ps =>
      let (chars, s) := expandChars sys fuel p s
      if matchesPattern (patternItems (chars.length + 1) chars) subject then exec sys fuel body s
      else choose sys fuel subject ((ps, body) :: rest) s

/-- Assigns variables one after the other. -/
def assignAll (sys : System) : Nat → List (String × Word) → State → State
  | 0, _, s => { s with status := 1, ended := true }
  | _, [], s => s
  | fuel + 1, (name, value) :: rest, s =>
    let (chars, s) := expandChars sys fuel value s
    assignAll sys fuel rest (s.assign name (String.ofList (chars.map Prod.fst)))

/-- The routes after redirections, and the input, which is missing if it cannot be opened. -/
def redirectAll (sys : System) : Nat → List Redirect → Routes × Option (List UInt8) × State →
    Routes × Option (List UInt8) × State
  | 0, _, acc => acc
  | _, [], acc => acc
  | fuel + 1, r :: rest, (routes, input, s) =>
    let (chars, s) := expandChars sys fuel r.target s
    let target := String.ofList (chars.map Prod.fst)
    if r.symbol = "<" then
      match (if target = "/dev/null" then .ok [] else sys.tree.read sys.cwd ⟨target⟩) with
      | .ok content => redirectAll sys fuel rest (routes, some content, s)
      | .error _ =>
        (routes, none, s.emit (complain 2 (s.name ++ ": 1: cannot open " ++ target
          ++ ": No such file\n")))
    else redirectAll sys fuel rest (reroute routes r.descriptor r.symbol target, input, s)

/-- The output of a script inside a word, without the line breaks at its end. -/
def output (sys : System) : Nat → List Char → State → List Char × State
  | 0, _, s => ([], s)
  | fuel + 1, text, s =>
    let inner := script sys fuel text { s with written := [] }
    let printed := Utf8.decodeLossy ((Effect.mk inner.written 0).on .out)
    ((printed.reverse.dropWhile (· == '\n')).reverse,
     { s with written := s.written ++ inner.written.filter (·.1 == .err), status := inner.status })

/-- A word as characters, each with whether it was quoted; nothing is split. -/
def expandChars (sys : System) : Nat → Word → State → List (Char × Bool) × State
  | 0, _, s => ([], s)
  | _, [], s => ([], s)
  | fuel + 1, part :: rest, s =>
    let (chars, quoted, s) := match part with
      | .text chars quoted => (chars, quoted, s)
      | .parameter name quoted => ((s.parameter name).toList, quoted, s)
      | .output text quoted =>
        let (chars, s) := output sys fuel text s
        (chars, quoted, s)
    let (more, s) := expandChars sys fuel rest s
    (chars.map (·, quoted) ++ more, s)

/-- The fields of a word. -/
def expandWord (sys : System) : Nat → Word → Fields × State → Fields × State
  | 0, _, acc => acc
  | _, [], acc => acc
  | fuel + 1, part :: rest, (f, s) =>
    let acc := match part with
      | .text chars _ => (f.append chars, s)
      | .parameter name quoted =>
        if name = "@" then
          (if quoted then f.appendArgs s.args
            else s.args.foldl (fun f a => (f.appendSplit a.toList).close) f, s)
        else if quoted then (f.append (s.parameter name).toList, s)
        else (f.appendSplit (s.parameter name).toList, s)
      | .output text quoted =>
        let (chars, s) := output sys fuel text s
        (if quoted then f.append chars else f.appendSplit chars, s)
    expandWord sys fuel rest acc

/-- The fields of several words. -/
def expandAll (sys : System) : Nat → List Word → State → List String × State
  | 0, _, s => ([], s)
  | _, [], s => ([], s)
  | fuel + 1, w :: rest, s =>
    -- The empty text that quotes begin with makes a field even of nothing, save for no arguments.
    let start : Word := match w with
      | [.text [] true, .parameter "@" true] => [.parameter "@" true]
      | w => w
    let (f, s) := expandWord sys fuel start ({}, s)
    let (more, s) := expandAll sys fuel rest s
    (f.close.done ++ more, s)

end

/-- The number of steps that a program may take. -/
def maxSteps : Nat := 100000

end FlexAudit.Shell
