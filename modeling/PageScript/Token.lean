import PageScript.Value.Inspect

/-!
# Tokens
-/
namespace PageScript

/-- The least unit of a script. Names keep their slash and variables their dollar sign. -/
inductive Token where
  | number (n : Float32)
  /-- A string between parentheses or angle brackets, decoded. -/
  | string (bytes : List UInt8)
  | name (text : String)
  | variable (text : String)
  | keyword (text : String)
  /-- The word `R` on its own. -/
  | objectReference
  | arrayStart
  | arrayEnd
  | dictionaryStart
  | dictionaryEnd
  | blank
  /-- The text after a percent sign, without the line end. -/
  | comment (bytes : List UInt8)
  | endOfInput
  deriving DecidableEq, Inhabited

namespace Token

def isTrivia : Token → Bool
  | blank | comment _ => true
  | _ => false

def title : Token → String
  | number _ => "Number"
  | string _ => "String"
  | name _ => "Name"
  | .variable _ => "Variable"
  | keyword _ => "Keyword"
  | objectReference => "ObjectReference"
  | arrayStart => "ArrayStart"
  | arrayEnd => "ArrayEnd"
  | dictionaryStart => "DictionaryStart"
  | dictionaryEnd => "DictionaryEnd"
  | blank => "Whitespace"
  | comment _ => "Comment"
  | endOfInput => "EndOfInput"

end Token

def Inspect.token (t : Token) : String :=
  match t with
  | .number n => applied t.title [Decimal.ofFloat32 n]
  | .string b | .comment b => applied t.title [bytes b]
  | .name s | .variable s | .keyword s => applied t.title [Text.quote s]
  | _ => t.title

end PageScript
