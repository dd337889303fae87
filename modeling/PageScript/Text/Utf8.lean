/-!
# UTF-8

A decoder that reads one byte at a time. Well-formed sequences become characters; each maximal
ill-formed part becomes one hole. `Utf8.decode?` refuses holes and `Utf8.decodeLossy` fills them
with the replacement character.
-/
namespace PageScript.Utf8

/-- Between two characters, or inside one: the bits read, the number of bytes that follow the next
one, and the range in which the next one has to lie. -/
inductive Decoder where
  | ready
  | pending (bits more : Nat) (low high : UInt8)
  deriving DecidableEq, Repr

/-- A byte that starts a sequence. Bytes that start none are a hole of their own. -/
def lead (b : UInt8) : List (Option Char) × Decoder :=
  if b < 0x80 then ([some (Char.ofNat b.toNat)], .ready)
  else if b < 0xC2 then ([none], .ready)
  else if b < 0xE0 then ([], .pending (b.toNat - 0xC0) 0 0x80 0xBF)
  else if b < 0xF0 then
    ([], .pending (b.toNat - 0xE0) 1 (if b = 0xE0 then 0xA0 else 0x80)
      (if b = 0xED then 0x9F else 0xBF))
  else if b < 0xF5 then
    ([], .pending (b.toNat - 0xF0) 2 (if b = 0xF0 then 0x90 else 0x80)
      (if b = 0xF4 then 0x8F else 0xBF))
  else ([none], .ready)

/-- What one more byte completes. A byte that does not continue the open sequence ends it with a
hole and is then read as the start of the next. -/
def Decoder.step : Decoder → UInt8 → List (Option Char) × Decoder
  | .ready, b => lead b
  | .pending bits more low high, b =>
    if low ≤ b ∧ b ≤ high then
      let bits := bits * 64 + (b.toNat - 0x80)
      match more with
      | 0 => ([some (Char.ofNat bits)], .ready)
      | more + 1 => ([], .pending bits more 0x80 0xBF)
    else
      let (out, next) := lead b
      (none :: out, next)

/-- A sequence cut off by the end of the bytes is a hole. -/
def decodeOnto (out : Array (Option Char)) : Decoder → List UInt8 → Array (Option Char)
  | .ready, [] => out
  | .pending .., [] => out.push none
  | d, b :: rest =>
    let (read, next) := d.step b
    decodeOnto (out ++ read) next rest

/-- The characters of the bytes in order, with `none` for each maximal ill-formed part. -/
def characters (bytes : List UInt8) : List (Option Char) :=
  (decodeOnto #[] .ready bytes).toList

def decode? (bytes : List UInt8) : Option String :=
  let read := characters bytes
  if read.all Option.isSome then some (String.ofList (read.filterMap id)) else none

/-- The text of any bytes, with the replacement character for each ill-formed part. -/
def decodeLossy (bytes : List UInt8) : String :=
  String.ofList ((characters bytes).map fun c => c.getD '\uFFFD')

end PageScript.Utf8
