/-! # SDK versions

A version has three parts. A version text gives one digit for each: dots are dropped, the first
three characters left are the digits, missing ones are zero and later ones are ignored, so that
`4.10.0` reads as 4.1.0. -/

namespace FlexAudit

structure SdkVersion where
  major : UInt32
  minor : UInt32
  patch : UInt32
  deriving DecidableEq, Repr

namespace SdkVersion

/-- A character other than a digit among the first three of a version text. -/
structure NonDigit where
  raw : String
  /-- Its place among the characters other than dots. -/
  position : Nat
  found : Char
  deriving DecidableEq, Repr

def NonDigit.message (e : NonDigit) : String :=
  "non-digit '" ++ e.found.toString ++ "' at position " ++ toString e.position
    ++ " of SDK version '" ++ e.raw ++ "'"

def digit? (c : Char) : Option UInt32 :=
  if '0' ≤ c ∧ c ≤ '9' then some (c.val - 48) else none

/-- The digit at a position, zero beyond the end. -/
def part (raw : String) (digits : List Char) (position : Nat) : Except NonDigit UInt32 :=
  match digits[position]? with
  | none => .ok 0
  | some c =>
    match digit? c with
    | some n => .ok n
    | none => .error ⟨raw, position, c⟩

def parse (raw : String) : Except NonDigit SdkVersion := do
  let digits := raw.toList.filter (· ≠ '.')
  let major ← part raw digits 0
  let minor ← part raw digits 1
  let patch ← part raw digits 2
  return ⟨major, minor, patch⟩

/-- The affected releases: all of 3.x, and 4.x up to 4.5.1 without 4.4. -/
def isAffected (v : SdkVersion) : Bool :=
  v.major == 3 || (v.major == 4 && (v.minor < 4 || (v.minor == 5 && v.patch ≤ 1)))

def render (v : SdkVersion) : String :=
  toString v.major.toNat ++ "." ++ toString v.minor.toNat ++ "." ++ toString v.patch.toNat

/-- The order of releases: by major, then minor, then patch. -/
def le (a b : SdkVersion) : Bool :=
  if a.major ≠ b.major then a.major ≤ b.major
  else if a.minor ≠ b.minor then a.minor ≤ b.minor
  else a.patch ≤ b.patch

end SdkVersion

end FlexAudit
