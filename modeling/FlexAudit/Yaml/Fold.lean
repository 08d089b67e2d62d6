import FlexAudit.Yaml.Chars

/-! # Folding of lines

Plain and quoted scalars may run over several lines. Blanks around a line break are dropped; a
single line feed counts as a space, and of several the first is dropped. The text is kept newest
first, and what separates it from the next character is pending until that character is known. -/

namespace FlexAudit.Yaml

structure Fold where
  /-- The text so far, newest first. -/
  done : List Char := []
  /-- Blanks since then, newest first. -/
  spaces : List Char := []
  /-- Whether a line has ended since then. -/
  broken : Bool := false
  /-- The first line break, unless it was escaped. -/
  first : Option Char := none
  /-- The line breaks after it, newest first. -/
  more : List Char := []
  deriving DecidableEq, Repr

namespace Fold

/-- Whether blanks or breaks are pending. -/
def pending (f : Fold) : Bool :=
  f.broken || !f.spaces.isEmpty

def blank (f : Fold) (c : Char) : Fold :=
  if f.broken then f else { f with spaces := c :: f.spaces }

def lineBreak (f : Fold) (c : Char) : Fold :=
  if f.broken then { f with more := c :: f.more }
  else { f with spaces := [], broken := true, first := some c }

/-- A line break that is not part of the text. -/
def escapedBreak (f : Fold) : Fold :=
  { f with broken := true }

/-- What the pending blanks and breaks stand for, newest first. -/
def separator (f : Fold) : List Char :=
  if f.broken then
    match f.first with
    | some '\n' => if f.more.isEmpty then [' '] else f.more
    | first => f.more ++ first.toList
  else f.spaces

/-- The text with the pending separator. -/
def join (f : Fold) : Fold :=
  { done := f.separator ++ f.done }

def char (f : Fold) (c : Char) : Fold :=
  { done := c :: f.join.done }

def text (f : Fold) : String :=
  String.ofList f.done.reverse

end Fold

end FlexAudit.Yaml
