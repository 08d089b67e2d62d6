import FlexAudit.Text.Search
import FlexAudit.Text.Lines
import FlexAudit.Text.Blank

/-! # Dumps

The text disassembly of one binary, as lines. A dump comes from text, or from lines that are
already split and are then kept as they are. -/

namespace FlexAudit

structure Dump where
  lines : List String
  deriving DecidableEq, Repr

namespace Dump

def ofText (text : String) : Dump :=
  ⟨(Text.splitLines text.toList).map String.ofList⟩

def isEmpty (d : Dump) : Bool :=
  d.lines.isEmpty

/-- Whether some line contains `needle`. -/
def contains (d : Dump) (needle : String) : Bool :=
  d.lines.any fun line => Text.occursIn needle.toList line.toList

/-- Whether no line has anything but blanks. -/
def isBlank (d : Dump) : Bool :=
  d.lines.all fun line => (Text.trim line.toList).isEmpty

end Dump

end FlexAudit
