/-!
# Closed sets of words

A type each of whose values is written as one word of the script language.
-/
namespace PageScript

/-- The values of `α` in order, the word of each, and what the set is called in messages. -/
class Vocabulary (α : Type) where
  title : String
  all : List α
  word : α → String

namespace Vocabulary

variable {α : Type} [Vocabulary α]

def ofWord? (text : String) : Option α := (all : List α).find? fun a => word a == text

/-- The text after one leading slash, if there is one. -/
def bare? (name : String) : Option String :=
  match name.toList with
  | '/' :: rest => some (String.ofList rest)
  | _ => none

/-- The value whose word stands after a leading slash. -/
def ofName? (name : String) : Option α := (bare? name).bind ofWord?

end Vocabulary

end PageScript
