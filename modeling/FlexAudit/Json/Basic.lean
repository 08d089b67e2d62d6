/-! # JSON values

Values as a reader finds them. Members keep their order and may repeat a name. Two things have no
value of their own and are kept only to be skipped: a string with an unpaired surrogate, which is
no text, and a number that is not a plain run of digits.

A record is decoded from its slots: the values of its fields by name from an object, or by place
from an array. -/

namespace FlexAudit

inductive Json where
  | null
  | bool (b : Bool)
  /-- A number written with digits alone. -/
  | nat (n : Nat)
  /-- Any other number. -/
  | otherNumber
  /-- A string, `none` if it has an unpaired surrogate. -/
  | str (text : Option String)
  | arr (items : List Json)
  | obj (members : List (Option String × Json))

namespace Json

instance : Inhabited Json := ⟨.null⟩

def text (s : String) : Json :=
  .str (some s)

/-- A list of texts. -/
def texts (items : List String) : Json :=
  .arr (items.map text)

/-- An object from named members, those without a value left out. -/
def ofMembers (members : List (String × Option Json)) : Json :=
  .obj (members.filterMap fun (name, value) => value.map fun v => (some name, v))

def text? : Json → Option String
  | .str s => s
  | _ => none

def bool? : Json → Option Bool
  | .bool b => some b
  | _ => none

/-- A number below `bound`. -/
def natBelow? (bound : Nat) : Json → Option Nat
  | .nat n => if n < bound then some n else none
  | _ => none

def list? {α : Type} (item : Json → Option α) : Json → Option (List α)
  | .arr items => items.mapM item
  | _ => none

/-- A value that may be null. -/
def option? {α : Type} (value : Json → Option α) : Json → Option (Option α)
  | .null => some none
  | j => (value j).map some

/-- The value of the member called `name`, if there is one; fails if there are two. -/
def member? (members : List (Option String × Json)) (name : String) : Option (Option Json) :=
  match members.filter (fun m => m.1 == some name) with
  | [] => some none
  | [m] => some (some m.2)
  | _ => none

/-- The values of the named fields, `none` for those that are not given. An object gives them by
name, and its other members are skipped; an array gives the first of them in order. -/
def slots? (names : List String) : Json → Option (List (Option Json))
  | .obj members =>
    if members.all (fun m => m.1.isSome) then names.mapM (member? members) else none
  | .arr items =>
    if items.length ≤ names.length then
      some (items.map some ++ List.replicate (names.length - items.length) none)
    else none
  | _ => none

/-- A field that must be given. -/
def required {α : Type} (value : Json → Option α) (slot : Option Json) : Option α :=
  slot.bind value

/-- A field with a default. -/
def withDefault {α : Type} (fallback : α) (value : Json → Option α) : Option Json → Option α
  | none => some fallback
  | some j => value j

/-- The one member of a variant with a payload. -/
def variant? : Json → Option (String × Json)
  | .obj [(some name, payload)] => some (name, payload)
  | _ => none

/-- A variant without payload: its name, or an object that maps the name to null. -/
def unitVariant? : Json → Option String
  | .str s => s
  | j =>
    match variant? j with
    | some (name, .null) => some name
    | _ => none

end Json

end FlexAudit
