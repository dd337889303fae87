import PageScript.Flow.Chunk

/-!
# Rows

Chunks are put on a row as long as they fit next to each other. Only widths matter here.
-/
namespace PageScript

/-- The chunks of one line and their width with the spaces between them. -/
structure Row (φ α : Type) where
  chunks : List (Chunk φ α)
  width : α

namespace Row

variable {φ α : Type} [Scalar α]

/-- Goes on with a row that ends with the chunk `last` and has the chunks `before`, nearest first.
A chunk that would reach beyond `limit` starts the next row. -/
def fillFrom (limit : α) (last : Chunk φ α) (before : List (Chunk φ α)) (width : α) :
    List (Chunk φ α) → List (Row φ α)
  | [] => [⟨(last :: before).reverse, width⟩]
  | chunk :: chunks =>
    let reach := width + last.spaceAfter + chunk.width
    if Scalar.less limit reach then
      ⟨(last :: before).reverse, width⟩ ::
        fillFrom limit chunk [] (Scalar.zero + chunk.width) chunks
    else fillFrom limit chunk (last :: before) reach chunks

def fill (limit : α) : List (Chunk φ α) → List (Row φ α)
  | [] => []
  | chunk :: chunks => fillFrom limit chunk [] (Scalar.zero + chunk.width) chunks

def height (row : Row φ α) : α := Scalar.greatest (row.chunks.map Chunk.height)

end Row

end PageScript
