/-! # Scan configurations

What a scan is told: how to obtain disassembly, which files to take from a directory, whether to
descend, and how many workers to use. -/

namespace FlexAudit

/-- How disassembly is obtained. -/
structure DisassemblerConfig where
  /-- The name of a registered backend. -/
  backend : String := "swfdump"
  /-- The executable; without it the environment names one. -/
  program : Option String := none
  /-- The arguments in front of the file. -/
  args : List String := ["-abc"]
  deriving DecidableEq, Repr

/-- The executable that is run: the configured one, else the one the environment names, else
`swfdump`. -/
def DisassemblerConfig.resolveProgram (c : DisassemblerConfig) (environment : Option String) :
    String :=
  (c.program <|> environment).getD "swfdump"

structure ScanConfig where
  disassembler : DisassemblerConfig := {}
  /-- The extensions of the files that a directory gives. -/
  extensions : List String := ["swf"]
  /-- Whether directories inside directories are searched. -/
  recursive : Bool := false
  /-- The number of workers; every core without it. -/
  jobs : Option UInt64 := none
  deriving DecidableEq, Repr

end FlexAudit
