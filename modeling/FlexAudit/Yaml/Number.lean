/-! # Numbers in plain scalars

Which plain texts are numbers. An integer may have a base prefix, and one with needless zeros in
front is a text. A float has a fraction or an exponent in decimal, and is finite. -/

namespace FlexAudit.Yaml

/-- The value of a digit in bases up to sixteen. -/
def digitValue? (base : Nat) (c : Char) : Option Nat :=
  let v :=
    if '0' ≤ c ∧ c ≤ '9' then c.toNat - 48
    else if 'a' ≤ c ∧ c ≤ 'f' then c.toNat - 87
    else if 'A' ≤ c ∧ c ≤ 'F' then c.toNat - 55
    else 16
  if v < base then some v else none

/-- The value of a text of one or more digits. -/
def digits? (base : Nat) (cs : List Char) : Option Nat :=
  if cs.isEmpty then none
  else cs.foldl (fun n c => do return (← n) * base + (← digitValue? base c)) (some 0)

def dropSign : List Char → List Char
  | c :: rest => if c == '+' || c == '-' then rest else c :: rest
  | [] => []

def dropPlus : List Char → List Char
  | '+' :: rest => rest
  | cs => cs

/-- Two or more digits of which the first is a zero. -/
def hasNeedlessZero (cs : List Char) : Bool :=
  match dropSign cs with
  | '0' :: c :: rest => (c :: rest).all Char.isDigit
  | _ => false

/-- The magnitude of an integer without its sign. -/
def magnitude? (cs : List Char) : Option Nat :=
  match cs with
  | '0' :: 'x' :: rest => digits? 16 rest
  | '0' :: 'o' :: rest => digits? 8 rest
  | '0' :: 'b' :: rest => digits? 2 rest
  | _ => if hasNeedlessZero cs then none else digits? 10 cs

/-- An integer that is not negative. -/
def unsigned? (cs : List Char) : Option Nat :=
  magnitude? (dropPlus cs)

/-- Whether a text is an integer of at most 128 bits. -/
def isInteger (cs : List Char) : Bool :=
  match cs with
  | '-' :: rest => (magnitude? rest).any (· ≤ 1 <<< 127)
  | _ => (unsigned? cs).any (· < 1 <<< 128)

/-! ## Floats -/

/-- Digits as mantissa, and the decimal exponent. -/
structure Decimal where
  mantissa : Nat
  exponent : Int
  deriving DecidableEq, Repr

/-- The exponent behind a mantissa; zero if there is none. -/
def exponent? : List Char → Option Int
  | [] => some 0
  | c :: rest =>
    if c == 'e' || c == 'E' then
      match rest with
      | '-' :: digits => (digits? 10 digits).map fun n => -(n : Int)
      | _ => (digits? 10 (dropPlus rest)).map fun n => (n : Int)
    else none

/-- A decimal text without a sign: digits with at most one point among them, then an exponent. -/
def Decimal.read? (cs : List Char) : Option Decimal := do
  let whole := cs.takeWhile Char.isDigit
  let rest := cs.dropWhile Char.isDigit
  let (fraction, rest) := match rest with
    | '.' :: rest => (rest.takeWhile Char.isDigit, rest.dropWhile Char.isDigit)
    | _ => ([], rest)
  let mantissa ← digits? 10 (whole ++ fraction)
  return ⟨mantissa, (← exponent? rest) - fraction.length⟩

/-- The least number that is too large for a double, even when rounded down. -/
def doubleLimit : Nat := (1 <<< 1024) - (1 <<< 970)

/-- Whether the nearest double is finite. The bounds on the number of digits spare the powers of
ten that would be too large to write down. -/
def Decimal.isFinite (d : Decimal) : Bool :=
  let scale := ((Nat.toDigits 10 d.mantissa).length : Int) + d.exponent
  if d.mantissa = 0 || scale < 300 then true
  else if scale > 310 then false
  else if d.exponent < 0 then d.mantissa < doubleLimit * Nat.pow 10 d.exponent.natAbs
  else d.mantissa * Nat.pow 10 d.exponent.natAbs < doubleLimit

/-- Whether a text is a float: a finite decimal, an infinity or not a number. -/
def isFloat (cs : List Char) : Bool :=
  let text := String.ofList cs
  [".inf", ".Inf", ".INF", "+.inf", "+.Inf", "+.INF", "-.inf", "-.Inf", "-.INF", ".nan", ".NaN",
    ".NAN"].contains text
  || (Decimal.read? (dropSign cs)).any Decimal.isFinite

end FlexAudit.Yaml
