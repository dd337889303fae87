/-!
# Fonts

What the text flow has to know of a font, and fonts measured by a table of widths.
-/
namespace PageScript

/-- The measures of a font. Lengths grow with the size of the text; character spacing is added
after every character, and horizontal scaling is a ratio. -/
class FontMetrics (φ : Type) (α : outParam Type) where
  textWidth : φ → String → (size characterSpacing horizontalScaling : α) → α
  spaceWidth : φ → (size characterSpacing horizontalScaling : α) → α
  /-- How far the font reaches below the baseline. -/
  descent : φ → (size : α) → α

/-- A font with a width for each of a run of character codes and one for all other characters, in
thousandths of the size. -/
structure FixedWidthFont where
  widths : Array Float32
  /-- The code of the first character with a width of its own. -/
  firstCode : Nat
  missingWidth : Float32
  /-- How far the font reaches below the baseline, not negative. -/
  depth : Float32

namespace FixedWidthFont

/-- The font with the given table, whose descent may be given with either sign. -/
def ofTable (widths : Array Float32) (firstCode : Nat) (missingWidth descent : Float32) :
    FixedWidthFont :=
  ⟨widths, firstCode, missingWidth, descent.abs⟩

/-- The font all of whose characters are equally wide. -/
def monospace (width descent : Float32) : FixedWidthFont := ofTable #[] 0 width descent

def charWidth (f : FixedWidthFont) (c : Char) : Float32 :=
  let entry := if c.toNat ≤ 0xFF ∧ f.firstCode ≤ c.toNat then f.widths[c.toNat - f.firstCode]? else none
  entry.getD f.missingWidth / 1000

/-- The width of a character with the space after it. -/
def advance (f : FixedWidthFont) (size characterSpacing : Float32) (c : Char) : Float32 :=
  f.charWidth c * size + characterSpacing

/-- The widths are added up from a negative zero, which is the width of the empty text. -/
def textWidth (f : FixedWidthFont) (text : String)
    (size characterSpacing horizontalScaling : Float32) : Float32 :=
  (text.toList.map (f.advance size characterSpacing)).foldl (· + ·) (-0.0) * horizontalScaling

def spaceWidth (f : FixedWidthFont) (size characterSpacing horizontalScaling : Float32) :
    Float32 :=
  f.advance size characterSpacing ' ' * horizontalScaling

def descent (f : FixedWidthFont) (size : Float32) : Float32 := f.depth / 1000 * size

instance : FontMetrics FixedWidthFont Float32 where
  textWidth := textWidth
  spaceWidth := spaceWidth
  descent := descent

end FixedWidthFont

end PageScript
