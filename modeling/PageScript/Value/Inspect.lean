import PageScript.Decimal.Layout
import PageScript.Text.Quoted
import PageScript.Value

/-!
# Values in messages

The full structure of a value as text.
-/
namespace PageScript.Inspect

def commas (items : List String) : String := String.intercalate ", " items

def list (items : List String) : String := "[" ++ commas items ++ "]"

def applied (head : String) (arguments : List String) : String :=
  head ++ "(" ++ commas arguments ++ ")"

def record (head : String) (fields : List (String × String)) : String :=
  head ++ " \x7b " ++ commas (fields.map fun f => f.1 ++ ": " ++ f.2) ++ " \x7d"

def optional (item : Option String) : String :=
  match item with
  | some text => applied "Some" [text]
  | none => "None"

def bytes (b : List UInt8) : String := list (b.map fun x => toString x.toNat)

def boolean (b : Bool) : String := if b then "true" else "false"

mutual

def value : Value → String
  | .number n => applied "Number" [Decimal.ofFloat32 n]
  | .string b => applied "String" [bytes b]
  | .boolean b => applied "Boolean" [boolean b]
  | .name t => applied "Name" [Text.quote t]
  | .array items => applied "Array" [list (values items)]
  | .dictionary ⟨sorted⟩ =>
    applied "Dictionary"
      [record "Dictionary" [("dict", "\x7b" ++ commas (pairs sorted) ++ "\x7d")]]
  | .variable name kind =>
    applied "Variable"
      [record "Variable"
        [("name", Text.quote name), ("kind", optional (kind.map ValueKind.word))]]
  | .keyword t => applied "Keyword" [Text.quote t]

def values : List Value → List String
  | [] => []
  | v :: rest => value v :: values rest

def pairs {low : Option String} : Entries Value low → List String
  | .nil => []
  | .cons key v _ rest => (Text.quote key ++ ": " ++ value v) :: pairs rest

end

end PageScript.Inspect
