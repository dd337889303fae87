import PageScript.Flow.Options
import PageScript.Font

/-!
# Words and chunks

Text is cut into words at spaces and line ends. Words of neighbouring spans with nothing between
them form one chunk, which no line break divides.
-/
namespace PageScript

/-- A font as the flow sees it: measures, and whether another font is the same one. -/
class FlowFont (φ : Type) (α : outParam Type) extends FontMetrics φ α where
  sameFont : φ → φ → Bool

structure Span (φ α : Type) where
  text : String
  font : φ
  size : α

/-- A word, or the part of a word that lies in one span. -/
structure Word (φ α : Type) where
  text : String
  font : φ
  size : α
  width : α

/-- Words with no space between them. -/
structure Chunk (φ α : Type) where
  words : List (Word φ α)
  width : α
  /-- The width of the space behind the chunk, in the font of its last word. -/
  spaceAfter : α

namespace Word

/-- Space, tab, carriage return, line feed and form feed. -/
def isSeparator (c : Char) : Bool :=
  c == ' ' || c == '\t' || c == '\r' || c == '\n' || c == '\x0C'

/-- The words of a text, the first of them begun by some letters, the last letter first. -/
def textsFrom (letters : List Char) : List Char → List (List Char)
  | [] => if letters.isEmpty then [] else [letters.reverse]
  | c :: rest =>
    if isSeparator c then
      if letters.isEmpty then textsFrom [] rest else letters.reverse :: textsFrom [] rest
    else textsFrom (c :: letters) rest

def texts (text : String) : List String := (textsFrom [] text.toList).map String.ofList

end Word

namespace Chunk

variable {φ α : Type} [Scalar α]

def single (word : Word φ α) (space : α) : Chunk φ α := ⟨[word], word.width, space⟩

/-- The chunk with one more word right behind it. -/
def glue (chunk : Chunk φ α) (word : Word φ α) (space : α) : Chunk φ α :=
  ⟨chunk.words ++ [word], chunk.width + word.width, space⟩

def height (chunk : Chunk φ α) : α := Scalar.greatest (chunk.words.map Word.size)

/-- Chunks found so far, the last one first, and whether the text so far ends inside a word. -/
structure Splitting (φ α : Type) where
  chunks : List (Chunk φ α)
  insideWord : Bool

variable [FlowFont φ α]

def measured (options : FlowOptions α) (span : Span φ α) : List (Word φ α) :=
  (Word.texts span.text).map fun text =>
    { text := text
      font := span.font
      size := span.size
      width := FontMetrics.textWidth span.font text span.size options.characterSpacing
        options.horizontalScaling }

/-- Adds a span. Its first word belongs to the last chunk if no separator stands between them. -/
def splitSpan (options : FlowOptions α) (s : Splitting φ α) (span : Span φ α) : Splitting φ α :=
  match span.text.toList with
  | [] => s
  | first :: rest =>
    let space := FontMetrics.spaceWidth span.font span.size options.characterSpacing
      options.horizontalScaling
    let push := List.foldl fun chunks word => single word space :: chunks
    let chunks :=
      match s.insideWord && !Word.isSeparator first, measured options span, s.chunks with
      | true, word :: more, chunk :: before => push (glue chunk word space :: before) more
      | _, words, chunks => push chunks words
    ⟨chunks, !Word.isSeparator ((first :: rest).getLast (List.cons_ne_nil _ _))⟩

def split (options : FlowOptions α) (spans : List (Span φ α)) : List (Chunk φ α) :=
  (spans.foldl (splitSpan options) ⟨[], false⟩).chunks.reverse

end Chunk

end PageScript
