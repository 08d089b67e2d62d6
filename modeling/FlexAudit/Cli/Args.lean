import FlexAudit.Command

/-! # Command line arguments

The arguments name a command and its options. An option is a switch or takes a value, which follows
it or is attached with an equals sign. No option is given twice, except the one that asks for a
more detailed log. -/

namespace FlexAudit.Cli

/-- What the program is asked to do. -/
inductive Action where
  | scan (o : ScanOptions)
  | analyzeDump (inputs : List String) (recursive : Bool) (o : OutputOptions)
  | disassemblers (config : Option Path) (json : Bool)
  | initConfig (path : Option Path) (format : Option String) (force : Bool)
  deriving DecidableEq, Repr

/-- What the arguments come to. -/
inductive Request where
  | run (action : Action) (verbosity : Nat)
  | version
  | help
  | usageError
  deriving DecidableEq, Repr

/-! ## Options -/

/-- The values that an option takes. -/
inductive ValueKind where
  | text
  /-- A path, which is not empty. -/
  | path
  /-- A number of 64 bits. -/
  | number
  deriving DecidableEq, Repr

/-- A number with an optional plus sign. -/
def number? (s : String) : Option UInt64 :=
  let digits := match s.toList with
    | '+' :: rest => rest
    | cs => cs
  if digits.isEmpty || !digits.all Char.isDigit then none
  else
    let n : Nat := digits.foldl (fun n d => n * 10 + (d.toNat - 48)) 0
    if n < UInt64.size then some n.toUInt64 else none

def ValueKind.accepts : ValueKind → String → Bool
  | text, _ => true
  | path, s => s ≠ ""
  | number, s => (number? s).isSome

structure OptionSpec where
  name : String
  short : Option Char := none
  /-- The kind of its value, `none` for a switch. -/
  value : Option ValueKind := none
  deriving DecidableEq, Repr

structure CommandSpec where
  name : String
  options : List OptionSpec
  /-- Whether inputs are taken, and at least one. -/
  inputs : Bool
  deriving DecidableEq, Repr

/-- What has been read so far. -/
structure Given where
  switches : List String := []
  values : List (String × String) := []
  inputs : List String := []
  verbosity : Nat := 0
  deriving DecidableEq, Repr

namespace Given

def has (g : Given) (name : String) : Bool :=
  g.switches.contains name

def value? (g : Given) (name : String) : Option String :=
  g.values.lookup name

/-- Adds a switch; fails if it is there. -/
def addSwitch (g : Given) (name : String) : Except Request Given :=
  if g.has name then .error .usageError else .ok { g with switches := name :: g.switches }

/-- Adds a value; fails if there is one already, or if it is of the wrong kind. -/
def addValue (g : Given) (name : String) (kind : ValueKind) (value : String) :
    Except Request Given :=
  if (g.value? name).isSome || !kind.accepts value then .error .usageError
  else .ok { g with values := (name, value) :: g.values }

end Given

/-- An option that waits for its value. -/
abbrev Waiting := Option (String × ValueKind)

/-- The options with one dash: several letters, of which the last may have a value attached. -/
def readLetters (options : List OptionSpec) (version : Bool) (g : Given) :
    List Char → Except Request (Given × Waiting)
  | [] => .ok (g, none)
  | c :: rest =>
    if c == 'v' then
      readLetters options version { g with verbosity := g.verbosity + 1 } rest
    else if c == 'h' then .error .help
    else if version && c == 'V' then .error .version
    else
      match options.find? (·.short == some c) with
      | none => .error .usageError
      | some ⟨name, _, none⟩ =>
        match g.addSwitch name with
        | .ok g => readLetters options version g rest
        | .error e => .error e
      | some ⟨name, _, some kind⟩ =>
        match rest with
        | [] => .ok (g, some (name, kind))
        | '=' :: value => (g.addValue name kind (String.ofList value)).map (·, none)
        | value => (g.addValue name kind (String.ofList value)).map (·, none)

/-- An option with two dashes, possibly with a value behind an equals sign. -/
def readLong (options : List OptionSpec) (version : Bool) (g : Given) (cs : List Char) :
    Except Request (Given × Waiting) :=
  let name := String.ofList (cs.takeWhile (· != '='))
  let attached : Option String := match cs.dropWhile (· != '=') with
    | [] => none
    | _ :: value => some (String.ofList value)
  match name, attached with
  | "verbose", none => .ok ({ g with verbosity := g.verbosity + 1 }, none)
  | "help", none => .error .help
  | _, _ =>
    if version && name = "version" && attached.isNone then .error .version
    else
      match options.find? (·.name == name), attached with
      | some ⟨_, _, none⟩, none => (g.addSwitch name).map (·, none)
      | some ⟨_, _, some kind⟩, some value => (g.addValue name kind value).map (·, none)
      | some ⟨_, _, some kind⟩, none => .ok (g, some (name, kind))
      | _, _ => .error .usageError

/-- An argument as the parser sees it. -/
inductive Shape where
  | long (cs : List Char)
  | letters (cs : List Char)
  | endOfOptions
  | word
  deriving DecidableEq, Repr

/-- A single dash is a word. -/
def shapeOf (a : String) : Shape :=
  match a.toList with
  | ['-', '-'] => .endOfOptions
  | '-' :: '-' :: cs => .long cs
  | '-' :: c :: cs => .letters (c :: cs)
  | _ => .word

/-- Reads the arguments of a command. -/
def readArgs (spec : CommandSpec) (waiting : Waiting) (g : Given) :
    List String → Except Request Given
  | [] => if waiting.isSome then .error .usageError else .ok g
  | a :: rest =>
    match waiting with
    | some (name, kind) =>
      if shapeOf a = .word then
        match g.addValue name kind a with
        | .ok g => readArgs spec none g rest
        | .error e => .error e
      else .error .usageError
    | none =>
      match shapeOf a with
      | .long cs =>
        match readLong spec.options false g cs with
        | .ok (g, waiting) => readArgs spec waiting g rest
        | .error e => .error e
      | .letters cs =>
        match readLetters spec.options false g cs with
        | .ok (g, waiting) => readArgs spec waiting g rest
        | .error e => .error e
      | .endOfOptions =>
        if rest.isEmpty || spec.inputs then .ok { g with inputs := g.inputs ++ rest }
        else .error .usageError
      | .word =>
        if spec.inputs then readArgs spec none { g with inputs := g.inputs ++ [a] } rest
        else .error .usageError

/-! ## The commands -/

def scanSpec : CommandSpec where
  name := "scan"
  options := [⟨"config", none, some .path⟩, ⟨"backend", none, some .text⟩,
    ⟨"disassembler", none, some .text⟩, ⟨"recursive", some 'r', none⟩,
    ⟨"jobs", some 'j', some .number⟩, ⟨"json", none, none⟩, ⟨"quiet", some 'q', none⟩]
  inputs := true

def analyzeDumpSpec : CommandSpec where
  name := "analyze-dump"
  options := [⟨"recursive", some 'r', none⟩, ⟨"json", none, none⟩, ⟨"quiet", some 'q', none⟩]
  inputs := true

def disassemblersSpec : CommandSpec where
  name := "disassemblers"
  options := [⟨"config", none, some .path⟩, ⟨"json", none, none⟩]
  inputs := false

def initConfigSpec : CommandSpec where
  name := "init-config"
  options := [⟨"path", none, some .path⟩, ⟨"format", none, some .text⟩, ⟨"force", none, none⟩]
  inputs := false

def outputOptions (g : Given) : OutputOptions :=
  ⟨g.has "json", g.has "quiet"⟩

/-- The commands, and what becomes of their options. -/
def commands : List (CommandSpec × (Given → Action)) :=
  [(scanSpec, fun g => .scan {
      inputs := g.inputs
      config := (g.value? "config").map Path.mk
      backend := g.value? "backend"
      disassembler := g.value? "disassembler"
      recursive := g.has "recursive"
      jobs := (g.value? "jobs").bind number?
      output := outputOptions g }),
   (analyzeDumpSpec, fun g => .analyzeDump g.inputs (g.has "recursive") (outputOptions g)),
   (disassemblersSpec, fun g => .disassemblers ((g.value? "config").map Path.mk) (g.has "json")),
   (initConfigSpec, fun g =>
      .initConfig ((g.value? "path").map Path.mk) (g.value? "format") (g.has "force"))]

/-- The request of a command with its arguments. A command that asks for a more detailed log
overrides what was asked in front of it. -/
def readCommand (name : String) (verbosity : Nat) (args : List String) : Request :=
  match commands.find? (·.1.name == name) with
  | none => .usageError
  | some (spec, action) =>
    match readArgs spec none {} args with
    | .error r => r
    | .ok g =>
      if spec.inputs && g.inputs.isEmpty then .usageError
      else .run (action g) (if g.verbosity = 0 then verbosity else g.verbosity)

/-- The arguments behind `help`: nothing, or the name of a command. -/
def readHelp : List String → Request
  | [] => .help
  | [name] => if name = "help" || commands.any (·.1.name == name) then .help else .usageError
  | _ => .usageError

/-- The request of all arguments: options, then the command. -/
def readRequest (verbosity : Nat) : List String → Request
  | [] => .usageError
  | a :: rest =>
    match shapeOf a with
    | .long cs =>
      match readLong [] true { verbosity := verbosity } cs with
      | .ok (g, _) => readRequest g.verbosity rest
      | .error r => r
    | .letters cs =>
      match readLetters [] true { verbosity := verbosity } cs with
      | .ok (g, _) => readRequest g.verbosity rest
      | .error r => r
    | .endOfOptions => .usageError
    | .word => if a = "help" then readHelp rest else readCommand a verbosity rest

end FlexAudit.Cli
