import PageScript.Value.Extract

/-!
# Variables replaced by their values
-/
namespace PageScript.Value

mutual

/-- The value with every variable in it replaced, at any depth. -/
def substitute (bindings : Table Value) : Value → Except ScriptError Value
  | .variable x _ =>
    match bindings.find? x with
    | some v => .ok v
    | none => .error (.undeclaredVariable x)
  | .array items => .array <$> substituteItems bindings items
  | .dictionary ⟨sorted⟩ =>
    (fun e => .dictionary (Dictionary.ofEntries e)) <$> substituteEntries bindings sorted
  | v => .ok v

def substituteItems (bindings : Table Value) : List Value → Except ScriptError (List Value)
  | [] => .ok []
  | v :: rest => do return (← substitute bindings v) :: (← substituteItems bindings rest)

def substituteEntries (bindings : Table Value) {low : Option String} :
    Entries Value low → Except ScriptError (List (String × Value))
  | .nil => .ok []
  | .cons key v _ rest => do
    return (key, ← substitute bindings v) :: (← substituteEntries bindings rest)

end

end PageScript.Value
