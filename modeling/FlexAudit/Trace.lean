import FlexAudit.Log

/-! # Traces

The ordered record of what each stage of the analysis observed. A journal is a trace together with
the log: an entry goes to both, a remark to the log alone. -/

namespace FlexAudit

namespace Trace

inductive Level where
  | info
  | warn
  deriving DecidableEq, Repr

def Level.name : Level → String
  | info => "info"
  | warn => "warn"

def Level.toLog : Level → Log.Level
  | info => .info
  | warn => .warn

structure Entry where
  level : Level
  message : String
  deriving DecidableEq, Repr

/-- The log record that an entry is sent as. -/
def Entry.record (e : Entry) : Log.Record :=
  ⟨e.level.toLog, .trace, e.message⟩

end Trace

/-- Entries, oldest first. -/
abbrev Trace := List Trace.Entry

/-- A trace under construction, and the log beside it. -/
structure Journal where
  trace : Trace := []
  log : Log := []
  deriving DecidableEq, Repr

namespace Journal

def add (j : Journal) (e : Trace.Entry) : Journal :=
  ⟨j.trace ++ [e], j.log ++ [e.record]⟩

def info (j : Journal) (message : String) : Journal :=
  j.add ⟨.info, message⟩

def warn (j : Journal) (message : String) : Journal :=
  j.add ⟨.warn, message⟩

/-- Sends a remark to the log and leaves the trace alone. -/
def debug (j : Journal) (source : Log.Source) (message : String) : Journal :=
  { j with log := j.log ++ [⟨.debug, source, message⟩] }

end Journal

end FlexAudit
