import FlexAudit.Yaml.Token.Scanner

/-! # Nodes

A document is a tree of scalars, sequences and mappings. An alias refers to a node by number, and
the document holds the numbered nodes. -/

namespace FlexAudit.Yaml

inductive Node where
  | scalar (style : Style) (tag : Option String) (text : String)
  | sequence (items : List Node)
  | mapping (members : List (Node × Node))
  | alias (id : Nat)

namespace Node

/-- What stands where nothing is written. -/
def empty : Node :=
  .scalar .plain none ""

end Node

/-- The handles that tags may use without a directive. -/
def standardHandles : List (String × String) :=
  [("!", "!"), ("!!", "tag:yaml.org,2002:")]

/-- The tag that a handle and a suffix stand for. -/
def expandTag? (handles : List (String × String)) (handle suffix : String) : Option String :=
  if handle = "" then some suffix
  else (handles.lookup handle).map (· ++ suffix)

/-! ## Reading nodes from tokens -/

namespace Node

/-- The tokens that are left, the number of each anchor's name, and the numbered nodes in the order
in which they start. -/
structure Reading where
  tokens : List Token
  names : List (String × Nat) := []
  nodes : List (Nat × Node) := []

abbrev Read := StateT Reading Option

def peek : Read Token := fun r =>
  match r.tokens with
  | [] => some (.streamEnd, r)
  | t :: _ => some (t, r)

def skip : Read Unit := fun r =>
  some ((), { r with tokens := r.tokens.drop 1 })

/-- The number of an anchor: the count of names before it. A name that is used again takes the new
number from there on. -/
def define (name : String) : Read Nat := fun r =>
  let id := r.names.length
  some (id, { r with names := (name, id) :: r.names.filter (fun n => n.1 ≠ name) })

def refer (name : String) : Read Node := fun r =>
  (r.names.lookup name).map fun id => (.alias id, r)

/-- Reads a node and records it under its number, in front of the nodes inside of it. -/
def recordAs (id : Option Nat) (body : Read Node) : Read Node := fun r =>
  match id with
  | none => body r
  | some id => do
    let (node, after) ← body { r with nodes := [] }
    return (node, { after with nodes := r.nodes ++ (id, node) :: after.nodes })

/-- An anchor and a tag in either order. -/
def properties (handles : List (String × String)) : Read (Option Nat × Option String) := do
  let anchor : Read (Option Nat) := do
    match ← peek with
    | .anchor name => skip; some <$> define name
    | _ => return none
  let tag : Read (Option String) := do
    match ← peek with
    | .tag handle suffix => skip; some <$> (fun r => (expandTag? handles handle suffix).map (·, r))
    | _ => return none
  match ← anchor with
  | some id => return (some id, ← tag)
  | none =>
    match ← tag with
    | some t => return (← anchor, some t)
    | none => return (none, none)

/-- The tag of a scalar; the lone mark `!` is none. -/
def scalarTag : Option String → Option String
  | some "!" => none
  | tag => tag

/-- Whether an item or a value of a block collection is left empty in front of this token. -/
def endsBlockValue : Token → Bool
  | .key => true
  | .value => true
  | .blockEnd => true
  | _ => false

mutual

/-- A node. `block` allows block collections, `indentless` a sequence without a start token, as the
value of a block mapping. -/
def node (handles : List (String × String)) : Nat → Bool → Bool → Read Node
  | 0, _, _ => fun _ => none
  | fuel + 1, block, indentless => do
    match ← peek with
    | .alias name => skip; refer name
    | _ =>
      let (id, tag) ← properties handles
      recordAs id do
        match ← peek with
        | .scalar style text => skip; return .scalar style (scalarTag tag) text
        | .flowSequenceStart => skip; .sequence <$> flowItems handles fuel true
        | .flowMappingStart => skip; .mapping <$> flowMembers handles fuel true
        | .blockEntry =>
          if indentless then .sequence <$> indentlessItems handles fuel
          else if id.isSome || tag.isSome then return .scalar .plain tag ""
          else fun _ => none
        | .blockSequenceStart =>
          if block then do skip; .sequence <$> blockItems handles fuel
          else if id.isSome || tag.isSome then return .scalar .plain tag ""
          else fun _ => none
        | .blockMappingStart =>
          if block then do skip; .mapping <$> blockMembers handles fuel
          else if id.isSome || tag.isSome then return .scalar .plain tag ""
          else fun _ => none
        | _ =>
          if id.isSome || tag.isSome then return .scalar .plain tag "" else fun _ => none

/-- The items of a block sequence up to its end token. -/
def blockItems (handles : List (String × String)) : Nat → Read (List Node)
  | 0 => fun _ => none
  | fuel + 1 => do
    match ← peek with
    | .blockEntry =>
      skip
      let item ← match ← peek with
        | .blockEntry => pure Node.empty
        | .blockEnd => pure Node.empty
        | _ => node handles fuel true false
      return item :: (← blockItems handles fuel)
    | .blockEnd => skip; return []
    | _ => fun _ => none

/-- The items of a sequence that has no tokens of its own for start and end. -/
def indentlessItems (handles : List (String × String)) : Nat → Read (List Node)
  | 0 => fun _ => none
  | fuel + 1 => do
    match ← peek with
    | .blockEntry =>
      skip
      let next ← peek
      let item ← if next = .blockEntry || endsBlockValue next then pure Node.empty
        else node handles fuel true false
      return item :: (← indentlessItems handles fuel)
    | _ => return []

/-- The members of a block mapping up to its end token. -/
def blockMembers (handles : List (String × String)) : Nat → Read (List (Node × Node))
  | 0 => fun _ => none
  | fuel + 1 => do
    match ← peek with
    | .key =>
      skip
      let key ← if endsBlockValue (← peek) then pure Node.empty else node handles fuel true true
      let value ← match ← peek with
        | .value =>
          skip
          if endsBlockValue (← peek) then pure Node.empty else node handles fuel true true
        | _ => pure Node.empty
      return (key, value) :: (← blockMembers handles fuel)
    | .blockEnd => skip; return []
    | _ => fun _ => none

/-- The items of a sequence in brackets up to the closing one. -/
def flowItems (handles : List (String × String)) : Nat → Bool → Read (List Node)
  | 0, _ => fun _ => none
  | fuel + 1, first => do
    match ← peek with
    | .flowSequenceEnd => skip; return []
    | t =>
      if !first && t ≠ .flowEntry then fun _ => none
      else
        if !first then skip
        match ← peek with
        | .flowSequenceEnd => skip; return []
        | .key =>
          skip
          let member ← flowPair handles fuel
          return .mapping [member] :: (← flowItems handles fuel false)
        | _ =>
          let item ← node handles fuel false false
          return item :: (← flowItems handles fuel false)

/-- The one member of a mapping that is an item of a sequence in brackets. -/
def flowPair (handles : List (String × String)) : Nat → Read (Node × Node)
  | 0 => fun _ => none
  | fuel + 1 => do
    let next ← peek
    let key ← if next = .value || next = .flowEntry || next = .flowSequenceEnd then
        do skip; pure Node.empty
      else node handles fuel false false
    let value ← match ← peek with
      | .value =>
        skip
        let next ← peek
        if next = .flowEntry || next = .flowSequenceEnd then pure Node.empty
        else node handles fuel false false
      | _ => pure Node.empty
    return (key, value)

/-- The members of a mapping in braces up to the closing one. -/
def flowMembers (handles : List (String × String)) : Nat → Bool → Read (List (Node × Node))
  | 0, _ => fun _ => none
  | fuel + 1, first => do
    match ← peek with
    | .flowMappingEnd => skip; return []
    | t =>
      if !first && t ≠ .flowEntry then fun _ => none
      else
        if !first then skip
        match ← peek with
        | .flowMappingEnd => skip; return []
        | .key =>
          skip
          let next ← peek
          let key ← if next = .value || next = .flowEntry || next = .flowMappingEnd then
              pure Node.empty
            else node handles fuel false false
          let value ← match ← peek with
            | .value =>
              skip
              let next ← peek
              if next = .flowEntry || next = .flowMappingEnd then pure Node.empty
              else node handles fuel false false
            | _ => pure Node.empty
          return (key, value) :: (← flowMembers handles fuel false)
        | _ =>
          let key ← node handles fuel false false
          return (key, Node.empty) :: (← flowMembers handles fuel false)

end

end Node

/-! ## Documents -/

structure Document where
  /-- The content, `none` if the stream holds no document. -/
  root : Option Node
  /-- The nodes that aliases refer to, in the order in which they start. -/
  nodes : List (Nat × Node) := []

namespace Document

/-- The node behind an alias: the last one that has its number. -/
def resolve? (d : Document) : Node → Option Node
  | .alias id => (d.nodes.reverse.lookup id)
  | n => some n

/-- The directives in front of a document: at most one version, which must be 1.1 or 1.2, and no
handle twice. -/
def directives (version : Bool) (handles : List (String × String)) :
    List Token → Option (List (String × String) × List Token)
  | .versionDirective major minor :: rest =>
    if version || major ≠ 1 || (minor ≠ 1 && minor ≠ 2) then none
    else directives true handles rest
  | .tagDirective handle expansion :: rest =>
    if handles.any (·.1 == handle) then none
    else directives version ((handle, expansion) :: handles) rest
  | tokens => some (handles, tokens)

/-- Whether a document is empty in front of this token. -/
def endsContent : Token → Bool
  | .versionDirective _ _ => true
  | .tagDirective _ _ => true
  | .documentStart => true
  | .documentEnd => true
  | .streamEnd => true
  | _ => false

/-- The content of a document and the tokens after it. -/
def content (handles : List (String × String)) (tokens : List Token) :
    Option (Document × List Token) := do
  let (root, after) ← Node.node handles (3 * tokens.length + 3) true false { tokens := tokens }
  return (⟨some root, after.nodes⟩, after.tokens)

/-- The only document of a stream; fails if there are more. -/
def ofTokens? (tokens : List Token) : Option Document := do
  if tokens.head? = some .streamEnd then return ⟨none, []⟩
  else
    let explicit := match tokens.head? with
      | some (.versionDirective _ _) => true
      | some (.tagDirective _ _) => true
      | some .documentStart => true
      | _ => false
    let (document, rest) ←
      if explicit then do
        match ← directives false [] tokens with
        | (handles, .documentStart :: rest) =>
          if rest.head?.any endsContent then some (⟨some Node.empty, []⟩, rest)
          else content (handles ++ standardHandles) rest
        | _ => none
      else content standardHandles tokens
    if (rest.dropWhile (· == .documentEnd)).head? = some .streamEnd then return document else none

/-- The only document of a text. -/
def parse? (text : List Char) : Option Document :=
  (Token.scan text).bind ofTokens?

end Document

end FlexAudit.Yaml
