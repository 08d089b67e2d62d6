import FlexAudit.Yaml.Node
import FlexAudit.Yaml.Number

/-! # Values of nodes

Nodes read as texts, switches, numbers, lists and records. A plain scalar has the value that its
text spells; a quoted one is a text and nothing else. Every scalar can be read as a text. -/

namespace FlexAudit.Yaml

def isNullText (s : String) : Bool :=
  s == "null" || s == "Null" || s == "NULL" || s == "~"

def boolOfText? (s : String) : Option Bool :=
  if s == "true" || s == "True" || s == "TRUE" then some true
  else if s == "false" || s == "False" || s == "FALSE" then some false
  else none

/-- The tag of a standard type. -/
def standardTag (name : String) : String :=
  "tag:yaml.org,2002:" ++ name

/-- Whether a scalar may be read as a value of the standard type: if it is plain, or if it is
literal and carries the tag of the type. -/
def isTyped (name : String) (style : Style) (tag : Option String) : Bool :=
  style == .plain || (style == .literal && tag == some (standardTag name))

namespace Document

variable (d : Document)

def text? (n : Node) : Option String := do
  match ← d.resolve? n with
  | .scalar _ _ text => some text
  | _ => none

def bool? (n : Node) : Option Bool := do
  match ← d.resolve? n with
  | .scalar style tag text => if isTyped "bool" style tag then boolOfText? text else none
  | _ => none

/-- A number below `bound`. -/
def natBelow? (bound : Nat) (n : Node) : Option Nat := do
  match ← d.resolve? n with
  | .scalar style tag text =>
    if isTyped "int" style tag then (unsigned? text.toList).filter (· < bound) else none
  | _ => none

/-- A value that may be absent: a plain scalar without a tag is absent if it is empty or spells
null, one with the tag of null must spell it. -/
def option? {α : Type} (value : Node → Option α) (n : Node) : Option (Option α) := do
  let n ← d.resolve? n
  match n with
  | .scalar .plain none text =>
    if text == "" || isNullText text then some none else some <$> value n
  | .scalar .plain (some tag) text =>
    if tag == standardTag "null" then (if isNullText text then some none else none)
    else some <$> value n
  | _ => some <$> value n

/-- A list; an empty plain scalar is the empty list. -/
def list? {α : Type} (item : Node → Option α) (n : Node) : Option (List α) := do
  match ← d.resolve? n with
  | .sequence items => items.mapM item
  | .scalar .plain _ "" => some []
  | _ => none

/-- The members of a record by name; an empty plain scalar has none. -/
def members? (n : Node) : Option (List (String × Node)) := do
  match ← d.resolve? n with
  | .mapping members => members.mapM fun (key, value) => do return (← d.text? key, value)
  | .scalar .plain _ "" => some []
  | _ => none

/-- The value of the member called `name`, if there is one; fails if there are two. -/
def member? (members : List (String × Node)) (name : String) : Option (Option Node) :=
  match members.filter (·.1 == name) with
  | [] => some none
  | [m] => some (some m.2)
  | _ => none

/-- The values of the named fields of a record, `none` for those that are not given. -/
def slots? (names : List String) (n : Node) : Option (List (Option Node)) := do
  let members ← d.members? n
  names.mapM (member? members)

end Document

end FlexAudit.Yaml
