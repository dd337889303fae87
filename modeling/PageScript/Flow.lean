import PageScript.Flow.Line

/-!
# Text flow

Spans of text are laid out in a rectangle from the top line down. Text that does not fit is an
overflow, with the lines that do fit.
-/
namespace PageScript

structure Overflow (φ α : Type) where
  lines : List (Line φ α)

def Overflow.message {φ α : Type} (o : Overflow φ α) : String :=
  s!"text does not fit its rectangle, {o.lines.length} lines placed"

/-- The lines placed so far, the last one first, with the height left below and the baseline of
the last line. -/
structure Column (φ α : Type) where
  lines : List (Line φ α)
  remaining : α
  baseline : α

namespace Column

variable {φ α : Type} [Scalar α] [FlowFont φ α] (options : FlowOptions α) (rect : Rectangle α)

/-- Where a row starts, and what each of its gaps is widened by. -/
def spread (isLast : Bool) (row : Row φ α) : α × α :=
  let free := rect.width - row.width
  if options.justify && !isLast && 1 < row.chunks.length then
    (rect.left, free / Scalar.ofNat (row.chunks.length - 1))
  else
    let offset := match options.horizontal with
      | .left => Scalar.zero
      | .center => free / Scalar.ofNat 2
      | .right => free
    (rect.left + offset, Scalar.zero)

def place (isLast : Bool) (column : Column φ α) (row : Row φ α) :
    Except (Overflow φ α) (Column φ α) :=
  let height := row.height
  let spacing := if column.lines.isEmpty then Scalar.zero else options.lineSpacing
  let remaining := column.remaining - (height + spacing)
  if Scalar.less remaining Scalar.zero then .error ⟨column.lines.reverse⟩
  else
    let baseline := column.baseline - (spacing + height)
    let (left, extra) := spread options rect isLast row
    let line := Row.layOut options.horizontalScaling left baseline height extra row.chunks
    .ok ⟨line :: column.lines, remaining, baseline⟩

def placeAll (column : Column φ α) : List (Row φ α) → Except (Overflow φ α) (Column φ α)
  | [] => .ok column
  | row :: rows =>
    match place options rect rows.isEmpty column row with
    | .ok column => placeAll column rows
    | .error overflow => .error overflow

/-- Moves all lines by the same amount to the top, the middle or the bottom. The descent of the
last line has to fit too. -/
def align (column : Column φ α) : Except (Overflow φ α) (List (Line φ α)) :=
  let descent := (column.lines.head?.map Line.descent).getD Scalar.zero
  let content := rect.top - column.baseline + descent
  if Scalar.less rect.height content then .error ⟨column.lines.tail.reverse⟩
  else
    let slack := rect.height - content
    let dy := match options.vertical with
      | .top => Scalar.zero
      | .middle => -slack / Scalar.ofNat 2
      | .bottom => -slack
    if Scalar.same dy Scalar.zero then .ok column.lines.reverse
    else .ok (column.lines.reverse.map (Line.shift dy))

end Column

namespace Flow

variable {φ α : Type} [Scalar α] [FlowFont φ α]

/-- The lines of some spans in a rectangle. A rectangle without width holds no lines. -/
def lines (options : FlowOptions α) (spans : List (Span φ α)) (rect : Rectangle α) :
    Except (Overflow φ α) (List (Line φ α)) :=
  if Scalar.atMost rect.width Scalar.zero then .ok []
  else do
    let rows := Row.fill rect.width (Chunk.split options spans)
    let column ← Column.placeAll options rect ⟨[], rect.height, rect.top⟩ rows
    column.align options rect

end Flow

end PageScript
