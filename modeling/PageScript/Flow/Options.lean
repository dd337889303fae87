import PageScript.Scalar
import PageScript.Value.Extract

/-!
# Options of a text flow
-/
namespace PageScript

inductive HorizontalAlign where
  | left
  | center
  | right
  deriving DecidableEq, Repr

instance : Vocabulary HorizontalAlign where
  title := "HorizontalAlign"
  all := [.left, .center, .right]
  word
    | .left => "Left"
    | .center => "Center"
    | .right => "Right"

inductive VerticalAlign where
  | top
  | middle
  | bottom
  deriving DecidableEq, Repr

instance : Vocabulary VerticalAlign where
  title := "VerticalAlignment"
  all := [.top, .middle, .bottom]
  word
    | .top => "Top"
    | .middle => "Middle"
    | .bottom => "Bottom"

structure FlowOptions (α : Type) where
  horizontal : HorizontalAlign
  /-- Whether every line but the last is stretched to the full width. -/
  justify : Bool
  vertical : VerticalAlign
  lineSpacing : α
  characterSpacing : α
  /-- The ratio by which text is stretched sideways. -/
  horizontalScaling : α
  deriving DecidableEq, Repr

namespace FlowOptions

/-- Text from the top left corner, neither spaced nor stretched. -/
def standard {α : Type} [Scalar α] : FlowOptions α :=
  ⟨.left, false, .top, Scalar.zero, Scalar.zero, Scalar.ofNat 1⟩

/-- The word of a vocabulary under a key. -/
def named? {α : Type} [Vocabulary α] (d : Dictionary) (key : String) :
    Except ScriptError (Option α) := do
  match ← d.name? key with
  | some name => some <$> Vocabulary.ofName name
  | none => pure none

/-- The options that a dictionary gives; those that it leaves out are standard. -/
def ofDictionary (d : Dictionary) : Except ScriptError (FlowOptions Float32) := do
  let base : FlowOptions Float32 := standard
  let horizontal ← named? d "Align"
  let justify ← d.boolean? "Justify"
  let vertical ← named? d "VAlign"
  let lineSpacing ← d.number? "LineSpacing"
  let characterSpacing ← d.number? "CharSpacing"
  let horizontalScaling ← d.number? "TextRatio"
  return {
    horizontal := horizontal.getD base.horizontal
    justify := justify.getD base.justify
    vertical := vertical.getD base.vertical
    lineSpacing := lineSpacing.getD base.lineSpacing
    characterSpacing := characterSpacing.getD base.characterSpacing
    horizontalScaling := horizontalScaling.getD base.horizontalScaling }

end FlowOptions

end PageScript
