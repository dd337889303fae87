import PageScript.Byte

/-!
# Written numbers

A numeral is an optional sign and digits with at most one point among them. Its value is the
nearest single precision number.
-/
namespace PageScript

/-- The digits read as one integer, of which the last `places` stand after the point. -/
structure Numeral where
  negative : Bool
  digits : Nat
  places : Nat
  deriving DecidableEq, Repr

namespace Numeral

/-- Reads the digits after the point. -/
def fraction (digits places : Nat) : List UInt8 → Option (Nat × Nat)
  | [] => some (digits, places)
  | b :: rest =>
    if Byte.isDigit b then fraction (digits * 10 + (b.toNat - 0x30)) (places + 1) rest else none

/-- Reads the digits before the point; `empty` until there is one. -/
def whole (empty : Bool) (digits : Nat) : List UInt8 → Option (Nat × Nat)
  | [] => if empty then none else some (digits, 0)
  | b :: rest =>
    if Byte.isDigit b then whole false (digits * 10 + (b.toNat - 0x30)) rest
    else if b == 0x2E then if empty && rest.isEmpty then none else fraction digits 0 rest
    else none

def ofBytes? : List UInt8 → Option Numeral
  | [] => none
  | b :: rest =>
    if b == 0x2D then (whole true 0 rest).map fun r => ⟨true, r.1, r.2⟩
    else if b == 0x2B then (whole true 0 rest).map fun r => ⟨false, r.1, r.2⟩
    else (whole true 0 (b :: rest)).map fun r => ⟨false, r.1, r.2⟩

/-- The nearest single precision number; infinite where the numeral is out of range. -/
def toFloat32 (n : Numeral) : Float32 :=
  let magnitude := Float32.ofScientific n.digits true n.places
  if n.negative then -magnitude else magnitude

end Numeral

end PageScript
