import FlexAudit.Text.Search

/-! # Paths

A path is a text with slashes. Repeated slashes, a trailing slash and the name `.` mean nothing for
the final name and its extension. -/

namespace FlexAudit

structure Path where
  text : String
  deriving DecidableEq, Repr

namespace Path

/-- A text cut at every slash. -/
def split (cs : List Char) : List (List Char) :=
  cs.foldr (fun c parts =>
    if c = '/' then [] :: parts
    else match parts with
      | [] => [[c]]
      | p :: rest => (c :: p) :: rest) [[]]

/-- The parts between the slashes, empty ones included. -/
def segments (p : Path) : List String :=
  (split p.text.toList).map String.ofList

def isAbsolute (p : Path) : Bool :=
  p.text.toList.head? == some '/'

/-- The parts that name something. -/
def names (p : Path) : List String :=
  p.segments.filter fun s => s ≠ "" ∧ s ≠ "."

/-- The last name, if it is not `..`. -/
def fileName? (p : Path) : Option String :=
  match p.names.getLast? with
  | some ".." => none
  | name => name

/-- What follows the last dot of a name, if something stands in front of that dot. -/
def extensionOf? (name : List Char) : Option (List Char) :=
  match Text.cut? (· == '.') name.reverse with
  | some (_, []) => none
  | some (ext, _) => some ext.reverse
  | none => none

/-- The extension of the last name. -/
def extension? (p : Path) : Option String :=
  p.fileName?.bind fun name => (extensionOf? name.toList).map String.ofList

/-- Whether the path is the current directory by its names alone: `.`, `./`, `./.` and so on. -/
def isCurrent (p : Path) : Bool :=
  p.segments.head? == some "." && p.names.isEmpty

/-- A path below another one; an absolute path stands by itself. -/
def join (base p : Path) : Path :=
  if p.isAbsolute then p
  else if base.text.toList.getLast? = some '/' then ⟨base.text ++ p.text⟩
  else ⟨base.text ++ "/" ++ p.text⟩

def lowerAscii (c : Char) : Char :=
  if 'A' ≤ c ∧ c ≤ 'Z' then Char.ofNat (c.toNat + 32) else c

/-- Letters of ASCII in lower case, all else as it is. -/
def lower (s : String) : String :=
  String.ofList (s.toList.map lowerAscii)

/-- Whether the extension is one of the listed ones, which may be written with dots in front and in
any case. -/
def hasExtension (p : Path) (extensions : List String) : Bool :=
  match p.extension? with
  | none => false
  | some ext =>
    extensions.any fun allowed =>
      lower (String.ofList (allowed.toList.dropWhile (· == '.'))) == lower ext

end Path

end FlexAudit
