import FlexAudit.Log

/-! # Log filters

Which records are shown. There is a level for everything, and there may be levels for sources whose
name starts with a text; of those that fit, the longest text decides. -/

namespace FlexAudit.Log

/-- The level of the name, in any case. -/
def Level.ofName? (name : String) : Option Level :=
  [error, warn, info, debug, trace].find? fun l => l.name == name.toLower

/-- A limit: records of this level and more urgent ones, or none at all. -/
abbrev Limit := Option Level

/-- The limit of a name, in any case. -/
def Limit.ofName? (name : String) : Option Limit :=
  if name.toLower == "off" then some none else (Level.ofName? name).map some

structure Filter where
  everything : Limit := some .warn
  /-- Limits for sources, by the start of their name. -/
  sources : List (String × Limit) := []
  deriving DecidableEq, Repr

namespace Filter

/-- Adds a limit for sources, in place of one with the same text. -/
def limitSource (f : Filter) (start : String) (limit : Limit) : Filter :=
  { f with sources := f.sources.filter (·.1 != start) ++ [(start, limit)] }

/-- Applies one directive: a level, a source with a level, or a source alone, which shows all. -/
def direct (f : Filter) (directive : List Char) : Filter :=
  match directive.span (· != '=') with
  | (name, []) =>
    if name.isEmpty then f
    else
      match Limit.ofName? (String.ofList name) with
      | some limit => { f with everything := limit }
      | none => f.limitSource (String.ofList name) (some .trace)
  | (name, _ :: level) =>
    if level.isEmpty then f.limitSource (String.ofList name) (some .trace)
    else
      match Limit.ofName? (String.ofList level) with
      | some limit => f.limitSource (String.ofList name) limit
      | none => f

/-- Applies the directives of a text, which are separated by commas. -/
def extend (f : Filter) (text : String) : Filter :=
  (text.splitOn ",").foldl (fun f d => f.direct d.trimAscii.toString.toList) f

/-- The limit for a source. -/
def limit (f : Filter) (source : String) : Limit :=
  let fitting := f.sources.filter fun s => s.1.toList.isPrefixOf source.toList
  (fitting.foldl (fun best s =>
    if best.any (fun b => s.1.length ≤ b.1.length) then best else some s) none).elim
    f.everything Prod.snd

def shows (f : Filter) (r : Record) : Bool :=
  (f.limit r.source.name).any fun level => r.level.rank ≤ level.rank

/-- The lines of the records that are shown. -/
def render (f : Filter) (log : Log) : String :=
  String.join ((log.filter f.shows).map Record.line)

end Filter

end FlexAudit.Log
