/-!
# Classes of bytes

Blanks and delimiters end a word; every other byte is regular.
-/
namespace PageScript.Byte

/-- NUL, tab, line feed, form feed, carriage return and space. -/
def isBlank (b : UInt8) : Bool :=
  b == 0x00 || b == 0x09 || b == 0x0A || b == 0x0C || b == 0x0D || b == 0x20

/-- Bytes that end a word and have a meaning of their own: `( ) < > [ ] { } / % $ #`. -/
def isDelimiter (b : UInt8) : Bool :=
  b == 0x28 || b == 0x29 || b == 0x3C || b == 0x3E || b == 0x5B || b == 0x5D || b == 0x7B ||
    b == 0x7D || b == 0x2F || b == 0x25 || b == 0x24 || b == 0x23

def isRegular (b : UInt8) : Bool := !isBlank b && !isDelimiter b

def isDigit (b : UInt8) : Bool := 0x30 ≤ b && b ≤ 0x39

def isOctalDigit (b : UInt8) : Bool := 0x30 ≤ b && b ≤ 0x37

/-- ASCII letters, digits and `_`, which continue the name of a variable. -/
def isWord (b : UInt8) : Bool :=
  isDigit b || (0x41 ≤ b && b ≤ 0x5A) || (0x61 ≤ b && b ≤ 0x7A) || b == 0x5F

/-- A digit, a sign or a point, which start a number. -/
def startsNumber (b : UInt8) : Bool := isDigit b || b == 0x2B || b == 0x2D || b == 0x2E

/-- The value of a digit in base sixteen, in either letter case. Any other byte counts as zero. -/
def hexValue (b : UInt8) : UInt8 :=
  if isDigit b then b - 0x30
  else if 0x61 ≤ b && b ≤ 0x66 then b - 0x61 + 10
  else if 0x41 ≤ b && b ≤ 0x46 then b - 0x41 + 10
  else 0

end PageScript.Byte
