/-! # Blank characters

The characters with the Unicode property White_Space, and trimming by them. -/

namespace FlexAudit.Text

/-- The ranges of White_Space, both ends included, in order. -/
def blankRanges : List (Nat × Nat) :=
  [(0x09, 0x0D), (0x20, 0x20), (0x85, 0x85), (0xA0, 0xA0), (0x1680, 0x1680), (0x2000, 0x200A),
   (0x2028, 0x2029), (0x202F, 0x202F), (0x205F, 0x205F), (0x3000, 0x3000)]

def isBlank (c : Char) : Bool :=
  blankRanges.any fun r => r.1 ≤ c.toNat && c.toNat ≤ r.2

def trimLeft (text : List Char) : List Char :=
  text.dropWhile isBlank

/-- The text without blanks at its two ends. -/
def trim (text : List Char) : List Char :=
  (trimLeft (trimLeft text).reverse).reverse

end FlexAudit.Text
