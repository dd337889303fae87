import PageScript.Color
import PageScript.Rectangle

/-!
# Patterns

Colour gradients, written as dictionaries `<< /Rect [...] /C0 [...] /C1 [...] ... /Stops [...] >>`.
-/
namespace PageScript

inductive PatternKind where
  /-- Colours change from the left edge to the right one. -/
  | linear
  /-- Colours change from the centre outward. -/
  | radial
  deriving DecidableEq, Repr

namespace PatternKind

def word : PatternKind → String
  | linear => "LinearGradient"
  | radial => "RadialGradient"

instance : Vocabulary PatternKind where
  title := "PatternKind"
  all := [linear, radial]
  word := word

end PatternKind

/-- A colour and where along the gradient it stands. -/
structure ColorStop where
  position : Float32
  color : Color
  deriving DecidableEq

structure Pattern where
  kind : PatternKind
  space : ColorSpace
  rectangle : Rectangle Float32
  stops : List ColorStop
  deriving DecidableEq

namespace Pattern

def colorKey (n : Nat) : String := s!"C{n}"

/-- The colour that an array under a key is written for. -/
def colorOf (space : ColorSpace) (key : String) (items : List Value) :
    Except ScriptError Color := do
  let components ← Value.toNumbers items
  match Color.ofComponents? space components with
  | some color => .ok color
  | none =>
    .error (.componentCount s!"pattern colour /{key}" space.componentCount components.length)

/-- Takes the colours under `C<n>` and the keys after it out of a dictionary, up to the first key
that is missing. Each turn leaves an entry less. -/
def takeColors (space : ColorSpace) (n : Nat) (d : Dictionary) :
    Except ScriptError (List Color × Dictionary) :=
  match h : d.items? (colorKey n) with
  | .error e => .error e
  | .ok none => .ok ([], d)
  | .ok (some items) =>
    have : (d.erase (colorKey n)).size < d.size := Table.size_erase_lt (Dictionary.find?_of_items h)
    do
      let color ← colorOf space (colorKey n) items
      let (colors, d) ← takeColors space (n + 1) (d.erase (colorKey n))
      return (color :: colors, d)
termination_by d.size

/-- The pattern that a dictionary describes. Keys that mean nothing are passed over. -/
def ofDictionary (kind : PatternKind) (space : ColorSpace) (d : Dictionary) :
    Except ScriptError Pattern := do
  let rectangle ← Rectangle.ofValues (← d.required Dictionary.items? "Rect")
  let (colors, d) ← takeColors space 0 (d.erase "Rect")
  let positions ← Value.toNumbers (← d.required Dictionary.items? "Stops")
  if positions.length = colors.length then
    .ok ⟨kind, space, rectangle, positions.zipWith ColorStop.mk colors⟩
  else .error (.componentCount "pattern /Stops" colors.length positions.length)

end Pattern

end PageScript
