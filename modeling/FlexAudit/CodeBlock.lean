import FlexAudit.Marker

/-! # Code blocks

A run of lines of a dump, from the start of the load method through its trailer, and pairs of
instructions on neighbouring lines of it. -/

namespace FlexAudit

structure CodeBlock where
  /-- The index of the first line within the dump. -/
  startLine : Nat
  /-- The lines, with the first and the trailer. -/
  lines : List String
  /-- Whether a trailer ends the block. -/
  closed : Bool
  deriving DecidableEq, Repr

namespace CodeBlock

/-- Each line with the next. -/
def linePairs (b : CodeBlock) : List (String × String) :=
  b.lines.zip b.lines.tail

/-- The lines, each closed by a line feed. -/
def text (b : CodeBlock) : String :=
  String.ofList (Text.joinLines (b.lines.map String.toList))

def isEnd (line : String) : Bool :=
  LineEvent.ofLine line == .blockEnd

/-- The lines up to the first block end, and whether there is one. -/
def upToEnd (lines : List String) : List String × Bool :=
  match lines.dropWhile (fun line => !isEnd line) with
  | [] => (lines, false)
  | trailer :: _ => (lines.takeWhile (fun line => !isEnd line) ++ [trailer], true)

/-- The first block of the lines, the first of which has the index `i`. -/
def findFrom (i : Nat) : List String → Option CodeBlock
  | [] => none
  | line :: rest =>
    if LineEvent.ofLine line = .blockStart then
      let (body, closed) := upToEnd rest
      some ⟨i, line :: body, closed⟩
    else findFrom (i + 1) rest

end CodeBlock

/-- The first block of a dump: from the first block start to the first block end after it, or to
the end of the dump. -/
def Dump.codeBlock? (d : Dump) : Option CodeBlock :=
  CodeBlock.findFrom 0 d.lines

/-- Two instructions on neighbouring lines: the end of the one and the start of the next. -/
structure InstructionPair where
  first : String
  second : String
  deriving DecidableEq, Repr

namespace InstructionPair

def matchesLines (p : InstructionPair) (a b : String) : Bool :=
  p.first.toList.isSuffixOf a.toList && p.second.toList.isPrefixOf b.toList

def foundIn (p : InstructionPair) (b : CodeBlock) : Bool :=
  b.linePairs.any fun (x, y) => p.matchesLines x y

/-- The loader's security domain is taken from the current domain without a check. -/
def assignment : InstructionPair :=
  ⟨"        getproperty   \t:currentDomain", "        setproperty   \t:securityDomain"⟩

/-- What the patch of APSB11-25 puts in. -/
def patch : InstructionPair :=
  ⟨"        pushfalse     \t", "        pushtrue"⟩

end InstructionPair

end FlexAudit
