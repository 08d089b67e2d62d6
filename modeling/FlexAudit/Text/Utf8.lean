/-! # UTF-8

Encoding of characters as bytes, and decoding byte by byte. The decoder keeps the sequence it is in
the middle of: how many bytes are owed, the range the next one must lie in, and the bits read so
far. A byte that cannot continue the sequence ends it, one U+FFFD stands for what was read of it,
and the byte is looked at again as a first byte. So each maximal part that starts a character and
completes none becomes one U+FFFD.

`decode?` refuses any text with such a part, `decodeLossy` replaces them. -/

namespace FlexAudit.Utf8

/-- A character of which the first bytes are read. -/
structure Pending where
  /-- Bytes still owed, at least one. -/
  owed : Nat
  /-- The least and the greatest byte that may come next. -/
  low : UInt8
  high : UInt8
  /-- The bits of the bytes read. -/
  bits : Nat

/-- What a byte starts that stands between characters. -/
inductive Start where
  | ascii (c : Char)
  | sequence (p : Pending)
  | invalid

def start (b : UInt8) : Start :=
  let n := b.toNat
  if n < 0x80 then .ascii (Char.ofNat n)
  else if n < 0xC2 then .invalid
  else if n < 0xE0 then .sequence ⟨1, 0x80, 0xBF, n - 0xC0⟩
  else if n = 0xE0 then .sequence ⟨2, 0xA0, 0xBF, 0⟩
  else if n = 0xED then .sequence ⟨2, 0x80, 0x9F, 0xD⟩
  else if n < 0xF0 then .sequence ⟨2, 0x80, 0xBF, n - 0xE0⟩
  else if n = 0xF0 then .sequence ⟨3, 0x90, 0xBF, 0⟩
  else if n < 0xF4 then .sequence ⟨3, 0x80, 0xBF, n - 0xF0⟩
  else if n = 0xF4 then .sequence ⟨3, 0x80, 0x8F, 4⟩
  else .invalid

/-- The decoder between two bytes: the characters so far, last first, the open sequence, and
whether anything was replaced. -/
structure Decoder where
  output : List Char := []
  pending : Option Pending := none
  replaced : Bool := false

namespace Decoder

def emit (d : Decoder) (c : Char) : Decoder :=
  { d with output := c :: d.output, pending := none }

def replace (d : Decoder) : Decoder :=
  { output := '�' :: d.output, pending := none, replaced := true }

/-- A byte between characters. -/
def enter (d : Decoder) (b : UInt8) : Decoder :=
  match start b with
  | .ascii c => d.emit c
  | .sequence p => { d with pending := some p }
  | .invalid => d.replace

def feed (d : Decoder) (b : UInt8) : Decoder :=
  match d.pending with
  | none => d.enter b
  | some p =>
    if p.low ≤ b ∧ b ≤ p.high then
      let bits := p.bits * 64 + (b.toNat - 0x80)
      if p.owed = 1 then d.emit (Char.ofNat bits)
      else { d with pending := some ⟨p.owed - 1, 0x80, 0xBF, bits⟩ }
    else d.replace.enter b

/-- The end of the bytes: an open sequence is replaced. -/
def finish (d : Decoder) : Decoder :=
  match d.pending with
  | none => d
  | some _ => d.replace

def run (bytes : List UInt8) : Decoder :=
  (bytes.foldl feed {}).finish

end Decoder

/-- The text of the bytes, each ill-formed part replaced by U+FFFD. -/
def decodeLossy (bytes : List UInt8) : List Char :=
  (Decoder.run bytes).output.reverse

/-- The text of well-formed bytes. -/
def decode? (bytes : List UInt8) : Option (List Char) :=
  let d := Decoder.run bytes
  if d.replaced then none else some d.output.reverse

def encodeChar (c : Char) : List UInt8 :=
  let n := c.toNat
  if n < 0x80 then [n.toUInt8]
  else if n < 0x800 then [(0xC0 + n / 64).toUInt8, (0x80 + n % 64).toUInt8]
  else if n < 0x10000 then
    [(0xE0 + n / 4096).toUInt8, (0x80 + n / 64 % 64).toUInt8, (0x80 + n % 64).toUInt8]
  else
    [(0xF0 + n / 262144).toUInt8, (0x80 + n / 4096 % 64).toUInt8, (0x80 + n / 64 % 64).toUInt8,
     (0x80 + n % 64).toUInt8]

def encode (text : List Char) : List UInt8 :=
  text.flatMap encodeChar

end FlexAudit.Utf8
