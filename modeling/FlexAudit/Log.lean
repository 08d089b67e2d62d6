/-! # Log records

What the library reports while it works: a level, the part that speaks, and a message. A filter
decides which records are shown, and a shown record is one line of text. -/

namespace FlexAudit

namespace Log

/-- How much a record matters, most urgent first. -/
inductive Level where
  | error
  | warn
  | info
  | debug
  | trace
  deriving DecidableEq, Repr

namespace Level

def rank : Level → Nat
  | error => 1
  | warn => 2
  | info => 3
  | debug => 4
  | trace => 5

def name : Level → String
  | error => "error"
  | warn => "warn"
  | info => "info"
  | debug => "debug"
  | trace => "trace"

/-- The level in capitals, five columns wide. -/
def label : Level → String
  | error => "ERROR"
  | warn => "WARN "
  | info => "INFO "
  | debug => "DEBUG"
  | trace => "TRACE"

end Level

/-- The part of the library that speaks. -/
inductive Source where
  | trace
  | codeBlock
  | scan
  | disassembler
  | command
  | report
  deriving DecidableEq, Repr

/-- The name under which a part speaks in the log. -/
def Source.name : Source → String
  | trace => "parrot_core::analysis::trace"
  | codeBlock => "parrot_core::analysis::bytecode"
  | scan => "parrot_core::services::scan"
  | disassembler => "parrot_core::services::backends::swfdump"
  | command => "parrotng::commands::scan"
  | report => "parrotng::report"

structure Record where
  level : Level
  source : Source
  message : String
  deriving DecidableEq, Repr

/-- A record as a line of text. -/
def Record.line (r : Record) : String :=
  "[" ++ r.level.label ++ " " ++ r.source.name ++ "] " ++ r.message ++ "\n"

end Log

/-- Records in the order in which they were sent. -/
abbrev Log := List Log.Record

end FlexAudit
