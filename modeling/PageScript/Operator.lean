import PageScript.Context
import PageScript.Value.Kind

/-!
# Operators

The operators of a script: how each is written, what operands it takes, in which contexts it may
stand, and how it moves between them.
-/
namespace PageScript

inductive Operator where
  | closeFillStroke
  | fillStroke
  | closeFillStrokeEvenOdd
  | fillStrokeEvenOdd
  | beginText
  | curveTo
  | concatMatrix
  | setStrokeColorSpace
  | setFillColorSpace
  | setDash
  | drawImage
  | paintXObject
  | endText
  | fill
  | fillObsolete
  | fillEvenOdd
  | flowText
  | setStrokeGray
  | setFillGray
  | setGraphicsState
  | closePath
  | setFlatness
  | setLineJoin
  | setLineCap
  | setStrokeCMYK
  | setFillCMYK
  | lineTo
  | moveTo
  | setMiterLimit
  | endPath
  | saveState
  | restoreState
  | rectangle
  | setStrokeRGB
  | setFillRGB
  | setRenderingIntent
  | roundedRectangle
  | closeStroke
  | stroke
  | setStrokeColor
  | setFillColor
  | setStrokeColorN
  | setFillColorN
  | shade
  | nextLine
  | setCharSpacing
  | moveText
  | moveTextSetLeading
  | setFont
  | showText
  | showSpacedText
  | setLeading
  | setTextMatrix
  | setTextRenderingMode
  | setTextRise
  | setWordSpacing
  | setHorizontalScaling
  | curveToInitialReplicated
  | setLineWidth
  | clip
  | clipEvenOdd
  | curveToFinalReplicated
  | nextLineShowText
  | nextLineSetSpacingShowText
  deriving DecidableEq, Repr, Inhabited

/-- How an operator moves between the page level and an object of the page. -/
inductive Transition where
  | beginPath
  | endPath
  | beginText
  | endText
  deriving DecidableEq, Repr

/-- What the grammar says of one operator. -/
structure OperatorRule where
  /-- The kinds of operands it takes, bottom to top, longest list first. -/
  signatures : List (List ValueKind)
  contexts : ContextSet
  transition : Option Transition := none
  deriving DecidableEq, Repr

namespace Operator

def all : List Operator :=
  [closeFillStroke, fillStroke, closeFillStrokeEvenOdd, fillStrokeEvenOdd, beginText, curveTo,
    concatMatrix, setStrokeColorSpace, setFillColorSpace, setDash, drawImage, paintXObject,
    endText, fill, fillObsolete, fillEvenOdd, flowText, setStrokeGray, setFillGray,
    setGraphicsState, closePath, setFlatness, setLineJoin, setLineCap, setStrokeCMYK,
    setFillCMYK, lineTo, moveTo, setMiterLimit, endPath, saveState, restoreState, rectangle,
    setStrokeRGB, setFillRGB, setRenderingIntent, roundedRectangle, closeStroke, stroke,
    setStrokeColor, setFillColor, setStrokeColorN, setFillColorN, shade, nextLine,
    setCharSpacing, moveText, moveTextSetLeading, setFont, showText, showSpacedText, setLeading,
    setTextMatrix, setTextRenderingMode, setTextRise, setWordSpacing, setHorizontalScaling,
    curveToInitialReplicated, setLineWidth, clip, clipEvenOdd, curveToFinalReplicated,
    nextLineShowText, nextLineSetSpacingShowText]

def symbol : Operator → String
  | closeFillStroke => "b"
  | fillStroke => "B"
  | closeFillStrokeEvenOdd => "b*"
  | fillStrokeEvenOdd => "B*"
  | beginText => "BT"
  | curveTo => "c"
  | concatMatrix => "cm"
  | setStrokeColorSpace => "CS"
  | setFillColorSpace => "cs"
  | setDash => "d"
  | drawImage => "di"
  | paintXObject => "Do"
  | endText => "ET"
  | fill => "f"
  | fillObsolete => "F"
  | fillEvenOdd => "f*"
  | flowText => "ft"
  | setStrokeGray => "G"
  | setFillGray => "g"
  | setGraphicsState => "gs"
  | closePath => "h"
  | setFlatness => "i"
  | setLineJoin => "j"
  | setLineCap => "J"
  | setStrokeCMYK => "K"
  | setFillCMYK => "k"
  | lineTo => "l"
  | moveTo => "m"
  | setMiterLimit => "M"
  | endPath => "n"
  | saveState => "q"
  | restoreState => "Q"
  | rectangle => "re"
  | setStrokeRGB => "RG"
  | setFillRGB => "rg"
  | setRenderingIntent => "ri"
  | roundedRectangle => "rr"
  | closeStroke => "s"
  | stroke => "S"
  | setStrokeColor => "SC"
  | setFillColor => "sc"
  | setStrokeColorN => "SCN"
  | setFillColorN => "scn"
  | shade => "sh"
  | nextLine => "T*"
  | setCharSpacing => "Tc"
  | moveText => "Td"
  | moveTextSetLeading => "TD"
  | setFont => "Tf"
  | showText => "Tj"
  | showSpacedText => "TJ"
  | setLeading => "TL"
  | setTextMatrix => "Tm"
  | setTextRenderingMode => "Tr"
  | setTextRise => "Ts"
  | setWordSpacing => "Tw"
  | setHorizontalScaling => "Tz"
  | curveToInitialReplicated => "v"
  | setLineWidth => "w"
  | clip => "W"
  | clipEvenOdd => "W*"
  | curveToFinalReplicated => "y"
  | nextLineShowText => "'"
  | nextLineSetSpacingShowText => "\""

/-- What an operator is called where its symbol alone says too little. -/
def title : Operator → String
  | closeFillStroke => "closeFillStroke"
  | fillStroke => "fillStroke"
  | closeFillStrokeEvenOdd => "closeFillStrokeEvenOdd"
  | fillStrokeEvenOdd => "fillStrokeEvenOdd"
  | beginText => "beginText"
  | curveTo => "curveTo"
  | concatMatrix => "concatMatrix"
  | setStrokeColorSpace => "setStrokeColorSpace"
  | setFillColorSpace => "setFillColorSpace"
  | setDash => "setDash"
  | drawImage => "drawImage"
  | paintXObject => "paintXObject"
  | endText => "endText"
  | fill => "fill"
  | fillObsolete => "fillObsolete"
  | fillEvenOdd => "fillEvenOdd"
  | flowText => "flowText"
  | setStrokeGray => "setStrokeGray"
  | setFillGray => "setFillGray"
  | setGraphicsState => "setGraphicsState"
  | closePath => "closePath"
  | setFlatness => "setFlatness"
  | setLineJoin => "setLineJoin"
  | setLineCap => "setLineCap"
  | setStrokeCMYK => "setStrokeCMYK"
  | setFillCMYK => "setFillCMYK"
  | lineTo => "lineTo"
  | moveTo => "moveTo"
  | setMiterLimit => "setMiterLimit"
  | endPath => "endPath"
  | saveState => "saveState"
  | restoreState => "restoreState"
  | rectangle => "rectangle"
  | setStrokeRGB => "setStrokeRGB"
  | setFillRGB => "setFillRGB"
  | setRenderingIntent => "setRenderingIntent"
  | roundedRectangle => "roundedRectangle"
  | closeStroke => "closeStroke"
  | stroke => "stroke"
  | setStrokeColor => "setStrokeColor"
  | setFillColor => "setFillColor"
  | setStrokeColorN => "setStrokeColorN"
  | setFillColorN => "setFillColorN"
  | shade => "shade"
  | nextLine => "nextLine"
  | setCharSpacing => "setCharSpacing"
  | moveText => "moveText"
  | moveTextSetLeading => "moveTextSetLeading"
  | setFont => "setFont"
  | showText => "showText"
  | showSpacedText => "showSpacedText"
  | setLeading => "setLeading"
  | setTextMatrix => "setTextMatrix"
  | setTextRenderingMode => "setTextRenderingMode"
  | setTextRise => "setTextRise"
  | setWordSpacing => "setWordSpacing"
  | setHorizontalScaling => "setHorizontalScaling"
  | curveToInitialReplicated => "curveToInitialReplicated"
  | setLineWidth => "setLineWidth"
  | clip => "clip"
  | clipEvenOdd => "clipEvenOdd"
  | curveToFinalReplicated => "curveToFinalReplicated"
  | nextLineShowText => "nextLineShowText"
  | nextLineSetSpacingShowText => "nextLineSetSpacingShowText"

open ValueKind (number numbers string name array dictionary)

open ContextSet (pageOrPath pageOrText)

/-- Components in any device space, or the name of a colour. -/
def colorSignatures : List (List ValueKind) := [numbers 4, numbers 3, [number], [name]]

/-- Also a pattern, which may have components before its name. -/
def patternSignatures : List (List ValueKind) :=
  [numbers 4 ++ [name], numbers 4, numbers 3 ++ [name], numbers 3, [number, name], [number], [name]]

def rule : Operator → OperatorRule
  | closeFillStroke => ⟨[[]], Context.path.singleton, some .endPath⟩
  | fillStroke => ⟨[[]], Context.path.singleton, some .endPath⟩
  | closeFillStrokeEvenOdd => ⟨[[]], Context.path.singleton, some .endPath⟩
  | fillStrokeEvenOdd => ⟨[[]], Context.path.singleton, some .endPath⟩
  | beginText => ⟨[[]], Context.page.singleton, some .beginText⟩
  | curveTo => ⟨[numbers 6], Context.path.singleton, none⟩
  | concatMatrix => ⟨[numbers 6], Context.page.singleton, none⟩
  | setStrokeColorSpace => ⟨[[name]], pageOrText, none⟩
  | setFillColorSpace => ⟨[[name]], pageOrText, none⟩
  | setDash => ⟨[[array, number]], pageOrText, none⟩
  | drawImage => ⟨[name :: numbers 4], Context.page.singleton, none⟩
  | paintXObject => ⟨[[name]], Context.page.singleton, none⟩
  | endText => ⟨[[]], Context.text.singleton, some .endText⟩
  | fill => ⟨[[]], Context.path.singleton, some .endPath⟩
  | fillObsolete => ⟨[[]], Context.path.singleton, some .endPath⟩
  | fillEvenOdd => ⟨[[]], Context.path.singleton, some .endPath⟩
  | flowText =>
    ⟨[array :: numbers 4 ++ [dictionary], array :: numbers 4], Context.page.singleton, none⟩
  | setStrokeGray => ⟨[[number]], pageOrText, none⟩
  | setFillGray => ⟨[[number]], pageOrText, none⟩
  | setGraphicsState => ⟨[[name]], pageOrText, none⟩
  | closePath => ⟨[[]], Context.path.singleton, none⟩
  | setFlatness => ⟨[[number]], pageOrText, none⟩
  | setLineJoin => ⟨[[number]], pageOrText, none⟩
  | setLineCap => ⟨[[number]], pageOrText, none⟩
  | setStrokeCMYK => ⟨[numbers 4], pageOrText, none⟩
  | setFillCMYK => ⟨[numbers 4], pageOrText, none⟩
  | lineTo => ⟨[numbers 2], Context.path.singleton, none⟩
  | moveTo => ⟨[numbers 2], pageOrPath, some .beginPath⟩
  | setMiterLimit => ⟨[[number]], pageOrText, none⟩
  | endPath => ⟨[[]], pageOrPath, some .endPath⟩
  | saveState => ⟨[[]], Context.page.singleton, none⟩
  | restoreState => ⟨[[]], Context.page.singleton, none⟩
  | rectangle => ⟨[numbers 4], pageOrPath, some .beginPath⟩
  | setStrokeRGB => ⟨[numbers 3], pageOrText, none⟩
  | setFillRGB => ⟨[numbers 3], pageOrText, none⟩
  | setRenderingIntent => ⟨[[name]], pageOrText, none⟩
  | roundedRectangle => ⟨[numbers 6, numbers 5], pageOrPath, some .beginPath⟩
  | closeStroke => ⟨[[]], Context.path.singleton, some .endPath⟩
  | stroke => ⟨[[]], Context.path.singleton, some .endPath⟩
  | setStrokeColor => ⟨colorSignatures, pageOrText, none⟩
  | setFillColor => ⟨colorSignatures, pageOrText, none⟩
  | setStrokeColorN => ⟨patternSignatures, pageOrText, none⟩
  | setFillColorN => ⟨patternSignatures, pageOrText, none⟩
  | shade => ⟨[[name]], Context.page.singleton, none⟩
  | nextLine => ⟨[[]], Context.text.singleton, none⟩
  | setCharSpacing => ⟨[[number]], pageOrText, none⟩
  | moveText => ⟨[numbers 2], Context.text.singleton, none⟩
  | moveTextSetLeading => ⟨[numbers 2], Context.text.singleton, none⟩
  | setFont => ⟨[[name, number]], pageOrText, none⟩
  | showText => ⟨[[string]], Context.text.singleton, none⟩
  | showSpacedText => ⟨[[array]], Context.text.singleton, none⟩
  | setLeading => ⟨[[number]], pageOrText, none⟩
  | setTextMatrix => ⟨[numbers 6], Context.text.singleton, none⟩
  | setTextRenderingMode => ⟨[[number]], pageOrText, none⟩
  | setTextRise => ⟨[[number]], pageOrText, none⟩
  | setWordSpacing => ⟨[[number]], pageOrText, none⟩
  | setHorizontalScaling => ⟨[[number]], pageOrText, none⟩
  | curveToInitialReplicated => ⟨[numbers 4], Context.path.singleton, none⟩
  | setLineWidth => ⟨[[number]], pageOrText, none⟩
  | clip => ⟨[[]], Context.path.singleton, some .endPath⟩
  | clipEvenOdd => ⟨[[]], Context.path.singleton, some .endPath⟩
  | curveToFinalReplicated => ⟨[numbers 4], Context.path.singleton, none⟩
  | nextLineShowText => ⟨[[string]], Context.text.singleton, none⟩
  | nextLineSetSpacingShowText => ⟨[[number, number, string]], Context.text.singleton, none⟩

def signatures (op : Operator) : List (List ValueKind) := op.rule.signatures

instance : Vocabulary Operator where
  title := "Operator"
  all := all
  word := symbol

def ofSymbol? (text : String) : Option Operator := Vocabulary.ofWord? text

end Operator

end PageScript
