import PageScript.Flow.Row
import PageScript.Rectangle

/-!
# Lines

Words that follow each other in one font and size are set as one span, with a space wherever a gap
is between them.
-/
namespace PageScript

/-- Text in one font and size, placed on a line. -/
structure LineSpan (φ α : Type) where
  x : α
  baseline : α
  width : α
  size : α
  font : φ
  /-- What each space of the text is widened by, before horizontal scaling. -/
  wordSpacing : α
  text : String

structure Line (φ α : Type) where
  left : α
  baseline : α
  width : α
  /-- The greatest size on the line. -/
  height : α
  spans : List (LineSpan φ α)

namespace LineSpan

variable {φ α : Type} [Scalar α]

def bounds (s : LineSpan φ α) : Rectangle α := ⟨s.x, s.baseline, s.width, s.size⟩

def shift (dy : α) (s : LineSpan φ α) : LineSpan φ α := { s with baseline := s.baseline + dy }

end LineSpan

/-- Spans set so far, the last one first, and the place after them. -/
structure Pen (φ α : Type) where
  spans : List (LineSpan φ α)
  x : α

namespace Pen

variable {φ α : Type} [Scalar α] [FlowFont φ α]

/-- Sets a word as a span of its own. -/
def start (baseline wordSpacing : α) (pen : Pen φ α) (gap : Option α) (word : Word φ α) :
    Pen φ α :=
  let x := pen.x + gap.getD Scalar.zero
  ⟨⟨x, baseline, word.width, word.size, word.font, wordSpacing, word.text⟩ :: pen.spans,
    x + word.width⟩

/-- Sets a word at the end of the last span. -/
def extend (span : LineSpan φ α) (before : List (LineSpan φ α)) (x : α) (gap : Option α)
    (word : Word φ α) : Pen φ α :=
  match gap with
  | some gap =>
    ⟨{ span with
        text := span.text ++ " " ++ word.text
        width := span.width + gap + word.width } :: before, x + gap + word.width⟩
  | none =>
    ⟨{ span with text := span.text ++ word.text, width := span.width + word.width } :: before,
      x + word.width⟩

/-- Sets a word behind a gap, if there is one. -/
def place (baseline wordSpacing : α) (pen : Pen φ α) (piece : Option α × Word φ α) : Pen φ α :=
  match pen.spans with
  | span :: before =>
    if Scalar.same span.size piece.2.size && FlowFont.sameFont span.font piece.2.font then
      extend span before pen.x piece.1 piece.2
    else start baseline wordSpacing pen piece.1 piece.2
  | [] => start baseline wordSpacing pen piece.1 piece.2

end Pen

namespace Row

variable {φ α : Type} [Scalar α]

/-- The words of some chunks, each with the gap before it. Gaps are as wide as a space and `extra`;
within a chunk there are none. -/
def pieces (extra : α) (gap : Option α) : List (Chunk φ α) → List (Option α × Word φ α)
  | [] => []
  | chunk :: chunks =>
    let words :=
      match chunk.words with
      | [] => []
      | word :: words => (gap, word) :: words.map fun w => (none, w)
    words ++ pieces extra (some (chunk.spaceAfter + extra)) chunks

/-- The line of some chunks from `left` on. -/
def layOut [FlowFont φ α] (scaling left baseline height extra : α) (chunks : List (Chunk φ α)) :
    Line φ α :=
  let wordSpacing :=
    if Scalar.same extra Scalar.zero || Scalar.same scaling Scalar.zero then Scalar.zero
    else extra / scaling
  let pen := (pieces extra none chunks).foldl (Pen.place baseline wordSpacing) ⟨[], left⟩
  ⟨left, baseline, pen.x - left, height, pen.spans.reverse⟩

end Row

namespace Line

variable {φ α : Type} [Scalar α]

def bounds (l : Line φ α) : Rectangle α := ⟨l.left, l.baseline, l.width, l.height⟩

def shift (dy : α) (l : Line φ α) : Line φ α :=
  { l with baseline := l.baseline + dy, spans := l.spans.map (LineSpan.shift dy) }

/-- How far the line reaches below its baseline. -/
def descent [FlowFont φ α] (l : Line φ α) : α :=
  Scalar.greatest (l.spans.map fun s => FontMetrics.descent s.font s.size)

end Line

end PageScript
