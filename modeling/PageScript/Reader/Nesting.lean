import PageScript.ScriptError

/-!
# Values from tokens

A value may be an array or a dictionary with further values inside. The arrays and dictionaries that
have begun and not ended are kept as frames, innermost first, so that each token is one step.
-/
namespace PageScript

/-- An array or dictionary under way, in the place where its next value goes. -/
inductive Frame where
  /-- An array with its items so far, the last one first. -/
  | array (items : List Value)
  /-- A dictionary with its entries so far and the key of the next one. -/
  | entry (entries : Dictionary) (key : String)

/-- What the next token has to be: the start of a value, or a key of a dictionary. -/
inductive Nesting where
  | atValue (frames : List Frame)
  | atKey (entries : Dictionary) (frames : List Frame)

def Token.unexpected (t : Token) (expected : String) : ScriptError :=
  if t = .endOfInput then .unexpectedEnd expected else .unexpectedToken expected (.token t)

namespace Nesting

/-- What one token comes to: the whole value, an error, or a step on the way. -/
abbrev Progress := Except (Except ScriptError Value) Nesting

def fail (e : ScriptError) : Progress := .error (.error e)

/-- Puts a finished value into the innermost frame. Without frames it is the whole value. -/
def deliver (v : Value) : List Frame → Progress
  | [] => .error (.ok v)
  | .array items :: frames => .ok (.atValue (.array (v :: items) :: frames))
  | .entry entries key :: frames => .ok (.atKey (entries.put key v) frames)

/-- A keyword inside a value: one of the booleans, or itself. -/
def wordValue (text : String) : Value :=
  if text = "true" then .boolean true
  else if text = "false" then .boolean false
  else .keyword text

/-- A token where a value may start. -/
def startValue (kinds : Table ValueKind) (frames : List Frame) (t : Token) (unterminated : Bool) :
    Progress :=
  match t with
  | .number n => deliver (.number n) frames
  | .string bytes =>
    if unterminated then fail (.unexpectedEnd "end of string") else deliver (.string bytes) frames
  | .name text => deliver (.name text) frames
  | .variable name => deliver (.variable name (kinds.find? name)) frames
  | .keyword text => deliver (wordValue text) frames
  | .arrayStart => .ok (.atValue (.array [] :: frames))
  | .dictionaryStart => .ok (.atKey ∅ frames)
  | .objectReference => fail .objectReference
  | .arrayEnd =>
    match frames with
    | .array items :: frames => deliver (.array items.reverse) frames
    | _ => fail (t.unexpected "value")
  | _ => fail (t.unexpected "value")

/-- A token where a dictionary goes on with a key or ends. -/
def startEntry (entries : Dictionary) (frames : List Frame) (t : Token) : Progress :=
  match t with
  | .dictionaryEnd => deliver (.dictionary entries) frames
  | .name key => .ok (.atValue (.entry entries key :: frames))
  | _ => fail (t.unexpected "dictionary key")

/-- One token. A variable gets the kind it has been declared with so far. -/
def step (kinds : Table ValueKind) (n : Nesting) (t : Token) (unterminated : Bool) : Progress :=
  match n with
  | atValue frames => startValue kinds frames t unterminated
  | atKey entries frames => startEntry entries frames t

def atEnd : Nesting → ScriptError
  | atValue (.array _ :: _) => .unexpectedEnd "end of array"
  | atValue _ => .unexpectedEnd "value"
  | atKey .. => .unexpectedEnd "end of dictionary"

end Nesting

end PageScript
