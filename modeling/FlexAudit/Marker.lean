import FlexAudit.Dump

/-! # Markers

The literal texts by which a disassembly is read, and what one line means. Instruction lines have
an indent of eight blanks, a mnemonic padded to fourteen columns, a tab and the operand; a dump that
is laid out differently is not recognised. -/

namespace FlexAudit

/-- A text whose presence in a line means something. -/
inductive Marker where
  /-- The variable that only the Flex resource manager reads. -/
  | flexApplication
  /-- The signature of the load method. -/
  | moduleLoad
  /-- The trailer of a method listing. -/
  | blockEnd
  /-- The metadata record that names the compiler. -/
  | productInfo
  deriving DecidableEq, Repr

namespace Marker

def literal : Marker → String
  | flexApplication => "resourceModuleURLs"
  | moduleLoad => "ModuleInfo:::load("
  | blockEnd => "0 Traits Entries"
  | productInfo => "<ProductInfo "

def foundIn (m : Marker) (line : String) : Bool :=
  Text.occursIn m.literal.toList line.toList

/-- The names of the markers, in the order in which they are listed. -/
def all : List (String × Marker) :=
  [("flex_application", flexApplication), ("module_load", moduleLoad), ("block_end", blockEnd),
   ("product_info", productInfo)]

end Marker

/-- What a line says about the SDK version. -/
inductive VersionAttribute where
  /-- The text between the quotes. -/
  | value (text : String)
  | missing
  /-- Opened and not closed on the same line. -/
  | unterminated
  deriving DecidableEq, Repr

/-- How the version attribute of a product record opens. -/
def VersionAttribute.opening : String := "version='"

/-- The version attribute of a line, from its first opening to the next quote. -/
def VersionAttribute.ofLine (line : String) : VersionAttribute :=
  match Text.after? opening.toList line.toList with
  | none => missing
  | some rest =>
    match Text.cut? (· == '\'') rest with
    | none => unterminated
    | some (text, _) => value (String.ofList text)

/-- The meaning of one line of a dump. -/
inductive LineEvent where
  | blockStart
  | blockEnd
  | sdkVersion (version : VersionAttribute)
  | flexMarker
  | other
  deriving DecidableEq, Repr

/-- A line with several markers means the first of: block start, block end, SDK version, Flex
marker. -/
def LineEvent.ofLine (line : String) : LineEvent :=
  if Marker.moduleLoad.foundIn line then blockStart
  else if Marker.blockEnd.foundIn line then blockEnd
  else if Marker.productInfo.foundIn line then sdkVersion (.ofLine line)
  else if Marker.flexApplication.foundIn line then flexMarker
  else other

/-- Whether the dump shows a Flex application. -/
def Dump.isFlex (d : Dump) : Bool :=
  d.contains Marker.flexApplication.literal

/-- Whether the dump shows the load method. -/
def Dump.hasModuleLoad (d : Dump) : Bool :=
  d.contains Marker.moduleLoad.literal

end FlexAudit
