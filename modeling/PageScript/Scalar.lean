/-!
# Numbers that lengths are measured in

Lengths are computed in single precision. The same computations can be read over the rationals,
where nothing is rounded.
-/
namespace PageScript

class Scalar (α : Type) extends Add α, Sub α, Div α, Neg α where
  ofNat : Nat → α
  less : α → α → Bool
  atMost : α → α → Bool
  same : α → α → Bool

namespace Scalar

variable {α : Type} [Scalar α]

def zero : α := ofNat 0

/-- The greater of two numbers. Of equal ones it is the second, which tells zeros of different sign
apart; a second one that cannot be compared is passed over. -/
def max (a b : α) : α := if atMost a b then b else a

def greatest (values : List α) : α := values.foldl max zero

end Scalar

instance : Scalar Float32 where
  ofNat := Float32.ofNat
  less a b := a < b
  atMost a b := a ≤ b
  same a b := a == b

instance : Scalar Rat where
  ofNat n := n
  less a b := a < b
  atMost a b := a ≤ b
  same a b := a == b

end PageScript
