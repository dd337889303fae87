/-!
# Shortest decimals

The decimal with the fewest digits that reads back as a given single precision number. A number is
`m · 2 ^ q`; the reals that round to it form an interval around it, whose ends belong to it exactly
if `m` is even. The coarsest grid of multiples of a power of ten that meets the interval has the
decimal, next to the number itself.
-/
namespace PageScript.Decimal

/-- `digits · 10 ^ exponent`. -/
structure Scaled where
  digits : Nat
  exponent : Int
  deriving DecidableEq, Repr

/-- A number and the reals that round to it, over a common denominator. -/
structure Neighbourhood where
  value : Nat
  low : Nat
  high : Nat
  denominator : Nat
  closed : Bool
  deriving DecidableEq, Repr

/-- The neighbourhood of the finite number with exponent field `e` and fraction field `f`. Below a
power of two the numbers stand twice as close. -/
def Neighbourhood.ofFields (e f : Nat) : Neighbourhood :=
  let m := if e = 0 then f else f + 0x800000
  let below := if e ≠ 0 ∧ f = 0 then 1 else 2
  let q : Int := (max e 1 : Nat) - 152
  let scale := Nat.pow 2 q.toNat
  ⟨4 * m * scale, (4 * m - below) * scale, (4 * m + 2) * scale, Nat.pow 2 (-q).toNat, m % 2 = 0⟩

/-- Whether the multiple `c · unit` lies in the neighbourhood scaled by `scale`. -/
def Neighbourhood.holds (n : Neighbourhood) (scale unit c : Nat) : Bool :=
  if n.closed then n.low * scale ≤ c * unit && c * unit ≤ n.high * scale
  else n.low * scale < c * unit && c * unit < n.high * scale

/-- The multiple of `10 ^ exponent` in the neighbourhood that is nearest to its number. Of two
equally near ones it is the greater. -/
def Neighbourhood.onGrid (n : Neighbourhood) (exponent : Int) : Option Nat :=
  let scale := Nat.pow 10 (-exponent).toNat
  let unit := n.denominator * Nat.pow 10 exponent.toNat
  let value := n.value * scale
  let c := value / unit
  match n.holds scale unit c, n.holds scale unit (c + 1) with
  | true, true => if value - c * unit < (c + 1) * unit - value then some c else some (c + 1)
  | true, false => some c
  | false, true => some (c + 1)
  | false, false => none

/-- The grids of all single precision numbers, coarsest first. -/
def grids : List Int := (List.range 86).map fun (i : Nat) => 39 - (i : Int)

def Neighbourhood.shortest (n : Neighbourhood) : Scaled :=
  (grids.findSome? fun g => (n.onGrid g).map fun c => ⟨c, g⟩).getD ⟨0, 0⟩

end PageScript.Decimal
