import PageScript.Vocabulary

/-!
# Kinds of values
-/
namespace PageScript

/-- What a value is; operators ask for operands of given kinds. -/
inductive ValueKind where
  | number
  | string
  | boolean
  | name
  | array
  | dictionary
  | keyword
  deriving DecidableEq, Repr

namespace ValueKind

def word : ValueKind → String
  | number => "Number"
  | string => "String"
  | boolean => "Boolean"
  | name => "Name"
  | array => "Array"
  | dictionary => "Dictionary"
  | keyword => "Keyword"

/-- `n` numbers in a row. -/
def numbers (n : Nat) : List ValueKind := List.replicate n number

instance : Vocabulary ValueKind where
  title := "ValueKind"
  all := [number, string, boolean, name, array, dictionary, keyword]
  word := word

end ValueKind

/-- The kinds that a variable may be declared with. -/
inductive VariableType where
  | number
  | string
  | boolean
  | name
  deriving DecidableEq, Repr

namespace VariableType

def kind : VariableType → ValueKind
  | number => .number
  | string => .string
  | boolean => .boolean
  | name => .name

instance : Vocabulary VariableType where
  title := "VariableType"
  all := [number, string, boolean, name]
  word t := t.kind.word

end VariableType

end PageScript
