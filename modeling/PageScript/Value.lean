import PageScript.Table
import PageScript.Value.Kind

/-!
# Values

The operands of a script, and the dictionaries among them.
-/
namespace PageScript

/-- An operand. Names keep their slash and variables their dollar sign. -/
inductive Value where
  | number (n : Float32)
  | string (bytes : List UInt8)
  | boolean (b : Bool)
  | name (text : String)
  | array (items : List Value)
  | dictionary (entries : Table Value)
  /-- A variable with the kind it was declared with, if it was. -/
  | variable (name : String) (kind : Option ValueKind)
  /-- A bare word, only found inside arrays and dictionaries. -/
  | keyword (text : String)
  deriving Inhabited

/-- Values by key; keys have no slash. -/
abbrev Dictionary := Table Value

namespace Value

/-- What operators take the value for. A variable counts as its declared kind, and as nothing if it
was never declared. -/
def kind : Value → Option ValueKind
  | number _ => some .number
  | string _ => some .string
  | boolean _ => some .boolean
  | name _ => some .name
  | array _ => some .array
  | dictionary _ => some .dictionary
  | .variable _ kind => kind
  | keyword _ => some .keyword

end Value

namespace Dictionary

/-- A key without one leading slash. -/
def bareKey (key : String) : String := (Vocabulary.bare? key).getD key

def put (d : Dictionary) (key : String) (value : Value) : Dictionary :=
  d.insert (bareKey key) value

def ofEntries (entries : List (String × Value)) : Dictionary :=
  entries.foldl (fun d e => put d e.1 e.2) Table.empty

end Dictionary

end PageScript
