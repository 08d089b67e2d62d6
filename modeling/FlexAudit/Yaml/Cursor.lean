import FlexAudit.Yaml.Chars

/-! # Cursors

A place in a stream: the characters that are left, and the line and column they start at. -/

namespace FlexAudit.Yaml

structure Position where
  line : Nat := 0
  column : Nat := 0
  deriving DecidableEq, Repr

/-- One character further on the line. -/
def Position.next (p : Position) : Position :=
  { p with column := p.column + 1 }

/-- The start of the line below. -/
def Position.nextLine (p : Position) : Position :=
  ⟨p.line + 1, 0⟩

structure Cursor where
  position : Position := {}
  rest : List Char
  deriving DecidableEq, Repr

namespace Cursor

def column (c : Cursor) : Nat :=
  c.position.column

/-- The cursor after `n` characters of the line. -/
def skip (c : Cursor) (n : Nat) : Cursor :=
  ⟨{ c.position with column := c.position.column + n }, c.rest.drop n⟩

/-- The characters of a class that come next, and the cursor after them. -/
def span (c : Cursor) (p : Char → Bool) : List Char × Cursor :=
  let taken := c.rest.takeWhile p
  (taken, ⟨{ c.position with column := c.position.column + taken.length }, c.rest.dropWhile p⟩)

def skipWhile (c : Cursor) (p : Char → Bool) : Cursor :=
  (c.span p).2

/-- The cursor after a line break, if one comes next. -/
def skipBreak (c : Cursor) : Cursor :=
  match c.rest with
  | ch :: rest => if isBreak ch then ⟨c.position.nextLine, rest⟩ else c
  | [] => c

/-- Blanks and a comment up to the end of the line; fails if something else stands there. -/
def endOfLine? (c : Cursor) : Option Cursor :=
  let c := c.skipWhile isBlank
  let c := if c.rest.head? == some '#' then c.skipWhile (fun ch => !isBreak ch) else c
  if breakNext c.rest then some c.skipBreak else none

/-- Whether a document mark starts the line here. -/
def atDocumentMark (c : Cursor) : Bool :=
  c.column == 0 && documentMarkNext c.rest

end Cursor

end FlexAudit.Yaml
