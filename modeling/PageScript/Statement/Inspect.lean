import PageScript.Statement

/-!
# Statements in listings

The full structure of a statement as text.
-/
namespace PageScript.Inspect

def operator (op : Operator) : String :=
  String.join (op.symbol.toList.map fun c =>
    if c = '*' then "_star"
    else if c = '\'' then "single_quote"
    else if c = '"' then "double_quote"
    else c.toString)

def color : Color → String
  | .gray level => applied ColorSpace.gray.word [Decimal.ofFloat32 level]
  | .rgb red green blue =>
    record ColorSpace.rgb.word
      [("red", Decimal.ofFloat32 red), ("green", Decimal.ofFloat32 green),
        ("blue", Decimal.ofFloat32 blue)]
  | .cmyk cyan magenta yellow key =>
    record ColorSpace.cmyk.word
      [("cyan", Decimal.ofFloat32 cyan), ("magenta", Decimal.ofFloat32 magenta),
        ("yellow", Decimal.ofFloat32 yellow), ("key", Decimal.ofFloat32 key)]

def rectangle (r : Rectangle Float32) : String :=
  record "Rectangle"
    [("left", Decimal.ofFloat32 r.left), ("bottom", Decimal.ofFloat32 r.bottom),
      ("width", Decimal.ofFloat32 r.width), ("height", Decimal.ofFloat32 r.height)]

def colorStop (s : ColorStop) : String :=
  record "ColorStop" [("position", Decimal.ofFloat32 s.position), ("color", color s.color)]

def pattern (p : Pattern) : String :=
  record "Pattern"
    [("kind", p.kind.word), ("color_space", p.space.word), ("rect", rectangle p.rectangle),
      ("stops", list (p.stops.map colorStop))]

def pageSize : PageSize → String
  | .template t => applied "Template" [t.word]
  | .explicit width height =>
    record "Explicit" [("width", Decimal.ofFloat32 width), ("height", Decimal.ofFloat32 height)]

def declaration : Declaration → String
  | .variable name kind v =>
    applied "Variable"
      [record "VariableDeclaration"
        [("name", Text.quote name), ("kind", kind.word), ("value", value v)]]
  | .resource r =>
    applied "Resource"
      [record "ResourceDeclaration"
        [("name", Text.quote r.name), ("kind", r.kind.word), ("location", Text.quote r.location)]]
  | .color name c =>
    applied "Color" [record "ColorDeclaration" [("name", Text.quote name), ("color", color c)]]
  | .pattern name p =>
    applied "Pattern"
      [record "PatternDeclaration" [("name", Text.quote name), ("pattern", pattern p)]]

def statement : Statement → String
  | .declaration d => applied "Prolog" [declaration d]
  | .graphics o =>
    applied "Graphics"
      [record "GraphicsOperation"
        [("operator", operator o.operator), ("operands", list (values o.operands))]]
  | .page size => applied "Page" [pageSize size]
  | .endPage => "EndPage"

end PageScript.Inspect
