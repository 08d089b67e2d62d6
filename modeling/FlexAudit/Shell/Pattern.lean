/-! # Patterns

The patterns that a selection compares a text with: a star stands for any text, a question mark for
any character, brackets for one of several. -/

namespace FlexAudit.Shell

inductive PatternItem where
  | anyText
  | anyChar
  | char (c : Char)
  | oneOf (negated : Bool) (ranges : List (Char × Char))
  deriving DecidableEq, Repr

/-- The ranges between brackets; a single character is a range of its own. -/
def ranges : List Char → List (Char × Char)
  | a :: '-' :: b :: rest => (a, b) :: ranges rest
  | a :: rest => (a, a) :: ranges rest
  | [] => []

/-- The pattern that characters spell; a quoted one stands for itself. -/
def patternItems : Nat → List (Char × Bool) → List PatternItem
  | 0, _ => []
  | _, [] => []
  | fuel + 1, (c, quoted) :: rest =>
    if quoted then .char c :: patternItems fuel rest
    else
      match c with
      | '*' => .anyText :: patternItems fuel rest
      | '?' => .anyChar :: patternItems fuel rest
      | '[' =>
        let (negated, body) := match rest with
          | ('!', false) :: body => (true, body)
          | _ => (false, rest)
        match body.span (fun x => x.1 != ']' || x.2) with
        | (inside, _ :: after) =>
          if inside.isEmpty then .char c :: patternItems fuel rest
          else .oneOf negated (ranges (inside.map Prod.fst)) :: patternItems fuel after
        | _ => .char c :: patternItems fuel rest
      | _ => .char c :: patternItems fuel rest

def PatternItem.accepts : PatternItem → Char → Bool
  | anyText, _ => true
  | anyChar, _ => true
  | char c, d => c == d
  | oneOf negated ranges, d => negated != ranges.any fun (a, b) => a ≤ d && d ≤ b

def matchesPattern : List PatternItem → List Char → Bool
  | [], cs => cs.isEmpty
  | .anyText :: ps, [] => matchesPattern ps []
  | .anyText :: ps, c :: cs => matchesPattern ps (c :: cs) || matchesPattern (.anyText :: ps) cs
  | p :: ps, c :: cs => p.accepts c && matchesPattern ps cs
  | _ :: _, [] => false
termination_by ps cs => (ps.length + cs.length)

end FlexAudit.Shell
