import PageScript.Operation
import PageScript.Page
import PageScript.Pattern

/-!
# Statements

What a script is made of, in the order in which it is written.
-/
namespace PageScript

inductive ResourceKind where
  | image
  | font
  deriving DecidableEq, Repr

namespace ResourceKind

def word : ResourceKind → String
  | image => "Image"
  | font => "Font"

instance : Vocabulary ResourceKind where
  title := "ResourceKind"
  all := [image, font]
  word := word

end ResourceKind

structure Resource where
  name : String
  kind : ResourceKind
  location : String
  deriving DecidableEq, Repr

/-- A name given to something; the names of resources, colours and patterns have a slash. -/
inductive Declaration where
  | variable (name : String) (kind : ValueKind) (value : Value)
  | resource (resource : Resource)
  | color (name : String) (color : Color)
  | pattern (name : String) (pattern : Pattern)

def Declaration.name : Declaration → String
  | .variable name .. => name
  | .resource r => r.name
  | .color name _ => name
  | .pattern name _ => name

inductive Statement where
  | declaration (d : Declaration)
  | graphics (operation : Operation)
  | page (size : PageSize)
  | endPage

end PageScript
