import PageScript.ScriptError

/-!
# The content of values

Taking out of a value, or of a dictionary, what has to be in it.
-/
namespace PageScript

namespace Value

def mismatch (expected : ValueKind) (v : Value) : ScriptError :=
  .unexpectedToken expected.word (.value v)

def toNumber : Value → Except ScriptError Float32
  | number n => .ok n
  | v => .error (v.mismatch .number)

def toName : Value → Except ScriptError String
  | name text => .ok text
  | v => .error (v.mismatch .name)

def toBytes : Value → Except ScriptError (List UInt8)
  | string bytes => .ok bytes
  | v => .error (v.mismatch .string)

def toItems : Value → Except ScriptError (List Value)
  | array items => .ok items
  | v => .error (v.mismatch .array)

def toDictionary : Value → Except ScriptError Dictionary
  | dictionary entries => .ok entries
  | v => .error (v.mismatch .dictionary)

def toBoolean : Value → Except ScriptError Bool
  | boolean b => .ok b
  | v => .error (v.mismatch .boolean)

/-- The numbers of a list of values; the first value that is none is an error. -/
def toNumbers (values : List Value) : Except ScriptError (List Float32) := values.mapM toNumber

variable {v : Value}

theorem toNumber_eq_ok {n : Float32} (h : v.toNumber = .ok n) : v = .number n := by
  cases v <;> cases h
  rfl

theorem toName_eq_ok {name : String} (h : v.toName = .ok name) : v = .name name := by
  cases v <;> cases h
  rfl

theorem toBytes_eq_ok {bytes : List UInt8} (h : v.toBytes = .ok bytes) : v = .string bytes := by
  cases v <;> cases h
  rfl

theorem toItems_eq_ok {items : List Value} (h : v.toItems = .ok items) : v = .array items := by
  cases v <;> cases h
  rfl

end Value

namespace Dictionary

/-- The content of the entry under a key, which has to be of the expected kind if it is there. -/
def typed? {α : Type} (expected : ValueKind) (content : Value → Except ScriptError α)
    (d : Dictionary) (key : String) : Except ScriptError (Option α) :=
  match d.find? key with
  | none => .ok none
  | some v =>
    if v.kind = some expected then (content v).map some
    else .error (.entryKind key expected (v.kind.getD .keyword))

/-- An entry that has to be there. -/
def required {α : Type} (read : Dictionary → String → Except ScriptError (Option α))
    (d : Dictionary) (key : String) : Except ScriptError α :=
  match read d key with
  | .error e => .error e
  | .ok none => .error (.missingKey key)
  | .ok (some a) => .ok a

def number? : Dictionary → String → Except ScriptError (Option Float32) :=
  typed? .number Value.toNumber

def name? : Dictionary → String → Except ScriptError (Option String) := typed? .name Value.toName

def boolean? : Dictionary → String → Except ScriptError (Option Bool) :=
  typed? .boolean Value.toBoolean

def items? : Dictionary → String → Except ScriptError (Option (List Value)) :=
  typed? .array Value.toItems

theorem find?_of_items {d : Dictionary} {key : String} {items : List Value}
    (h : d.items? key = .ok (some items)) : d.find? key = some (.array items) := by
  unfold items? typed? at h
  split at h
  · simp at h
  · next v hv =>
    split at h
    · cases v with
      | array values => simpa [Value.toItems, Except.map, hv] using h
      | _ => simp [Value.toItems, Except.map] at h
    · cases h

/-- Reads an entry and takes it out, whether or not it could be read. -/
def taking {α : Type} (read : Dictionary → String → α) (d : Dictionary) (key : String) :
    α × Dictionary :=
  (read d key, d.erase key)

end Dictionary

end PageScript
