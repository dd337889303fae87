import PageScript.Value

/-!
# Values given from outside

A caller may give values for the variables that a script declares.
-/
namespace PageScript

/-- Values by the names of variables, with their dollar sign. -/
abbrev Overrides := Table Value

namespace Overrides

/-- The name with a dollar sign in front, if it has none. -/
def dollarName (name : String) : String :=
  match name.toList with
  | '$' :: _ => name
  | _ => "$" ++ name

/-- Gives a value under a name that may lack its dollar sign. -/
def set (o : Overrides) (name : String) (value : Value) : Overrides :=
  o.insert (dollarName name) value

def get? (o : Overrides) (name : String) : Option Value := o.find? name

end Overrides

end PageScript
