import PageScript.ScriptError

/-!
# Colours

Colours in the device colour spaces.
-/
namespace PageScript

inductive ColorSpace where
  | gray
  | rgb
  | cmyk
  deriving DecidableEq, Repr

namespace ColorSpace

def word : ColorSpace → String
  | gray => "DeviceGray"
  | rgb => "DeviceRGB"
  | cmyk => "DeviceCMYK"

instance : Vocabulary ColorSpace where
  title := "ColorSpaceName"
  all := [gray, rgb, cmyk]
  word := word

def componentCount : ColorSpace → Nat
  | gray => 1
  | rgb => 3
  | cmyk => 4

end ColorSpace

inductive Color where
  | gray (level : Float32)
  | rgb (red green blue : Float32)
  | cmyk (cyan magenta yellow key : Float32)
  deriving DecidableEq

namespace Color

def space : Color → ColorSpace
  | gray _ => .gray
  | rgb .. => .rgb
  | cmyk .. => .cmyk

def components : Color → List Float32
  | gray level => [level]
  | rgb red green blue => [red, green, blue]
  | cmyk cyan magenta yellow key => [cyan, magenta, yellow, key]

/-- The colour with the given components, if they are as many as its space asks for. -/
def ofComponents? : ColorSpace → List Float32 → Option Color
  | .gray, [level] => some (gray level)
  | .rgb, [red, green, blue] => some (rgb red green blue)
  | .cmyk, [cyan, magenta, yellow, key] => some (cmyk cyan magenta yellow key)
  | _, _ => none

def ofComponents (space : ColorSpace) (components : List Float32) : Except ScriptError Color :=
  match ofComponents? space components with
  | some color => .ok color
  | none =>
    .error (.componentCount s!"colour space {space.word}" space.componentCount components.length)

theorem ofComponents?_eq_some {space : ColorSpace} {components : List Float32} {color : Color} :
    ofComponents? space components = some color ↔
      color.space = space ∧ color.components = components := by
  constructor
  · intro h
    unfold ofComponents? at h
    split at h <;> cases h <;> exact ⟨rfl, rfl⟩
  · rintro ⟨rfl, rfl⟩
    cases color <;> rfl

theorem length_components (color : Color) :
    color.components.length = color.space.componentCount := by
  cases color <;> rfl

/-- There is a colour for as many components as the space asks for, and for no other number. -/
theorem exists_ofComponents? {space : ColorSpace} {components : List Float32} :
    (∃ color, ofComponents? space components = some color) ↔
      components.length = space.componentCount := by
  constructor
  · rintro ⟨color, h⟩
    obtain ⟨rfl, rfl⟩ := ofComponents?_eq_some.mp h
    exact length_components color
  · intro h
    match space, components, h with
    | .gray, [_], _ | .rgb, [_, _, _], _ | .cmyk, [_, _, _, _], _ => exact ⟨_, rfl⟩

/-- The operator that sets a colour for lines or for areas. -/
def setOperator (stroking : Bool) : Color → Operator
  | gray _ => if stroking then .setStrokeGray else .setFillGray
  | rgb .. => if stroking then .setStrokeRGB else .setFillRGB
  | cmyk .. => if stroking then .setStrokeCMYK else .setFillCMYK

end Color

end PageScript
