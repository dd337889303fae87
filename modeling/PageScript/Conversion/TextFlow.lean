import PageScript.Conversion.State
import PageScript.Flow
import PageScript.Text.Latin1

/-!
# Flowed text

The operator `ft` flows text into a rectangle. It is converted into a text object, saved and
restored as a whole, with one shown string for each span of each line.
-/
namespace PageScript

/-- A font with the handle under which it is used. -/
structure LoadedFont (φ : Type) where
  handle : String
  font : φ

instance {φ : Type} [FontMetrics φ Float32] : FlowFont (LoadedFont φ) Float32 where
  textWidth f := FontMetrics.textWidth f.font
  spaceWidth f := FontMetrics.spaceWidth f.font
  descent f := FontMetrics.descent f.font
  sameFont f g := f.handle == g.handle

namespace Conversion

variable {φ ω : Type} [FontMetrics φ Float32] (env : Environment φ ω)

/-- A declared font, loaded once. -/
def font (name : String) : Conversion φ ω (LoadedFont φ) := do
  let handle ← resourceHandle env name .font
  match (← get).fonts.find? name with
  | some f => pure ⟨handle, f⟩
  | none =>
    let r ← resource name .font
    let f ← call env (.loadFont r)
    modify fun s => { s with fonts := s.fonts.insert name f }
    pure ⟨handle, f⟩

/-- The spans of a list of texts, each with its font and size behind it. -/
def spansFrom : List Value → Conversion φ ω (List (Span (LoadedFont φ) Float32))
  | text :: name :: size :: rest => do
    let bytes ← MonadExcept.ofExcept text.toBytes
    let f ← font env (← MonadExcept.ofExcept name.toName)
    let n ← MonadExcept.ofExcept size.toNumber
    return ⟨Latin1.decode bytes, f, n⟩ :: (← spansFrom rest)
  | _ => pure []

/-- The spans of an array, which has to have three items for each. -/
def spans (items : List Value) : Conversion φ ω (List (Span (LoadedFont φ) Float32)) :=
  if items.length % 3 = 0 then spansFrom env items
  else throw (.componentCount "text flow span" 3 (items.length % 3))

/-- What is set inside a text object: font and size, word spacing, and the place of the last
string. -/
structure TextState where
  font : Option (String × Float32) := none
  wordSpacing : Float32 := 0
  x : Float32 := 0
  y : Float32 := 0

def TextState.hasFont (t : TextState) (s : LineSpan (LoadedFont φ) Float32) : Bool :=
  match t.font with
  | some (handle, size) => handle == s.font.handle && size == s.size
  | none => false

/-- Shows a span, setting before what differs. -/
def writeSpan (t : TextState) (s : LineSpan (LoadedFont φ) Float32) : Conversion φ ω TextState := do
  unless t.hasFont s do
    write env .setFont [.name s.font.handle, .number s.size]
  unless s.wordSpacing == t.wordSpacing do
    write env .setWordSpacing [.number s.wordSpacing]
  write env .moveText [.number (s.x - t.x), .number (s.baseline - t.y)]
  write env .showText [.string (Latin1.encode s.text)]
  return ⟨some (s.font.handle, s.size), s.wordSpacing, s.x, s.baseline⟩

/-- Shows lines in a text object. Without lines there is none. -/
def writeLines (options : FlowOptions Float32) (lines : List (Line (LoadedFont φ) Float32)) :
    Conversion φ ω Unit := do
  unless lines.isEmpty do
    write env .saveState []
    call env .beginText
    write env .beginText []
    unless options.characterSpacing == 0 do
      write env .setCharSpacing [.number options.characterSpacing]
    unless options.horizontalScaling == 1 do
      write env .setHorizontalScaling [.number (options.horizontalScaling * 100)]
    discard ((lines.flatMap Line.spans).foldlM (writeSpan env) {})
    write env .endText []
    call env .endText
    write env .restoreState []

def countOverflow : Conversion φ ω Unit :=
  modify fun s => { s with report.overflows := s.report.overflows + 1 }

/-- `[spans] x y width height <<options>> ft`, where the options may be missing. -/
def flowText : List Value → Conversion φ ω Unit
  | array :: left :: bottom :: width :: height :: rest => do
    let spans ← spans env (← MonadExcept.ofExcept array.toItems)
    let left ← MonadExcept.ofExcept left.toNumber
    let bottom ← MonadExcept.ofExcept bottom.toNumber
    let width ← MonadExcept.ofExcept width.toNumber
    let height ← MonadExcept.ofExcept height.toNumber
    let options ← match rest with
      | [] => pure FlowOptions.standard
      | d :: _ => MonadExcept.ofExcept (d.toDictionary >>= FlowOptions.ofDictionary)
    match Flow.lines options spans ⟨left, bottom, width, height⟩ with
    | .ok lines => writeLines env options lines
    | .error overflow =>
      countOverflow
      writeLines env options overflow.lines
  | _ => pure ()

end Conversion

end PageScript
