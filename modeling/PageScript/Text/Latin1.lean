import PageScript.Text.Utf8

/-!
# Bytes of shown text

Strings of a script are UTF-8 where they can be read so, and one byte per character otherwise. Text
that is shown is written with one byte per character.
-/
namespace PageScript.Latin1

def charOfByte (b : UInt8) : Char := Char.ofNat b.toNat

/-- The byte of a character; a question mark stands for characters without one. -/
def byteOfChar (c : Char) : UInt8 := if c.toNat ≤ 0xFF then UInt8.ofNat c.toNat else 0x3F

/-- The text of a string of a script. -/
def decode (bytes : List UInt8) : String :=
  match Utf8.decode? bytes with
  | some text => text
  | none => String.ofList (bytes.map charOfByte)

def encode (text : String) : List UInt8 := text.toList.map byteOfChar

end PageScript.Latin1
