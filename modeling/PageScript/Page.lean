import PageScript.Vocabulary

/-!
# Page sizes

Sizes are in points, and templates stand upright.
-/
namespace PageScript

inductive PageTemplate where
  | a3
  | a4
  | a5
  | letter
  | legal
  deriving DecidableEq, Repr

namespace PageTemplate

def word : PageTemplate → String
  | a3 => "A3"
  | a4 => "A4"
  | a5 => "A5"
  | letter => "Letter"
  | legal => "Legal"

instance : Vocabulary PageTemplate where
  title := "PageTemplate"
  all := [a3, a4, a5, letter, legal]
  word := word

def dimensions : PageTemplate → Float32 × Float32
  | a3 => (841.89, 1190.55)
  | a4 => (595.28, 841.89)
  | a5 => (419.53, 595.28)
  | letter => (612, 792)
  | legal => (612, 1008)

end PageTemplate

inductive PageSize where
  | template (t : PageTemplate)
  | explicit (width height : Float32)
  deriving DecidableEq

def PageSize.dimensions : PageSize → Float32 × Float32
  | template t => t.dimensions
  | explicit width height => (width, height)

end PageScript
