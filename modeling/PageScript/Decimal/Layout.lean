import PageScript.Decimal.Shortest

/-!
# Numbers as text

A number is shown by its shortest decimal. Numbers of moderate size are written with a point and at
least one digit on either side of it, the others with a power of ten.
-/
namespace PageScript.Decimal

/-- Powers of ten of the first digit from which, and below which, the point is written in place. -/
structure Layout where
  positionalFrom : Int
  positionalBelow : Int

/-- Numbers from one ten-thousandth up to ten to the sixteenth are written out. -/
def layout : Layout := ⟨-4, 16⟩

def zeros (n : Nat) : List Char := List.replicate n '0'

def Scaled.positional (s : Scaled) : List Char :=
  let digits := Nat.toDigits 10 s.digits
  if 0 ≤ s.exponent then digits ++ zeros s.exponent.toNat ++ ['.', '0']
  else
    let places := (-s.exponent).toNat
    if places < digits.length then
      digits.take (digits.length - places) ++ '.' :: digits.drop (digits.length - places)
    else '0' :: '.' :: zeros (places - digits.length) ++ digits

/-- The digits with the point after the first, and a power of ten. -/
def Scaled.exponential (s : Scaled) : List Char :=
  let digits := Nat.toDigits 10 s.digits
  let lead := match digits with
    | first :: second :: rest => first :: '.' :: second :: rest
    | short => short
  lead ++ 'e' :: (toString (s.exponent + digits.length - 1)).toList

def Scaled.written (s : Scaled) : List Char :=
  let lead := s.exponent + (Nat.toDigits 10 s.digits).length - 1
  if layout.positionalFrom ≤ lead ∧ lead < layout.positionalBelow then s.positional
  else s.exponential

def ofFloat32 (x : Float32) : String :=
  let bits := x.toBits.toNat
  let e := bits / 0x800000 % 256
  let f := bits % 0x800000
  let sign := if bits / 0x80000000 = 1 then ['-'] else []
  if e = 255 then
    if f = 0 then String.ofList (sign ++ ['i', 'n', 'f']) else "NaN"
  else if e = 0 ∧ f = 0 then String.ofList (sign ++ ['0', '.', '0'])
  else String.ofList (sign ++ (Neighbourhood.ofFields e f).shortest.written)

end PageScript.Decimal
