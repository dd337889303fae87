import PageScript.Reader

/-!
# Declarations

The statements after a `#` that give a name to something.
-/
namespace PageScript.Reader

def variableValue (type : VariableType) : Reading Value := do
  match type, ← token with
  | .number, .number n => pure (.number n)
  | .string, .string bytes => return .string (← terminated bytes)
  | .name, .name text => pure (.name text)
  | .boolean, .keyword "true" => pure (.boolean true)
  | .boolean, .keyword "false" => pure (.boolean false)
  | type, t => throw (t.unexpected (Vocabulary.word type))

/-- `var $name /Type value`, after its first word. -/
def variableDeclaration : Reading Declaration := do
  let name ← match ← token with
    | .variable name => pure name
    | t => throw (t.unexpected "variable name")
  let typeName ← Reader.name "variable type"
  let some type := (Vocabulary.ofName? typeName : Option VariableType)
    | throw (.unsupportedVariableType typeName)
  let value ← variableValue type
  declareVariable name type.kind
  return .variable name type.kind value

/-- `resource /Name /Kind (location)`, after its first word. -/
def resourceDeclaration : Reading Declaration := do
  let name ← Reader.name "resource name"
  let kind ← MonadExcept.ofExcept (Vocabulary.ofName (← Reader.name "resource type"))
  let location ← match ← token with
    | .string bytes => Utf8.decodeLossy <$> terminated bytes
    | t => throw (t.unexpected "resource location")
  declare name
  return .resource ⟨name, kind, location⟩

/-- Up to `n` numbers, as many as there are. The input must not end before the last. -/
def components : Nat → Reading (List Float32)
  | 0 => pure []
  | n + 1 => do
    match ← peek with
    | .number _ => return (← number "colour component") :: (← components n)
    | .endOfInput => throw (.unexpectedEnd "colour component")
    | _ => pure []

/-- The number of numbers ahead that no operator can take, because a `#` or the end of the input
follows them. -/
def surplus : Reading Nat :=
  lexing fun lexer =>
    let step (n : Nat) (t : Token) (_ : Bool) : Except Nat Nat :=
      match t with
      | .number _ => .ok (n + 1)
      | .keyword "#" => .error n
      | _ => .error 0
    let (n, _, lexer) := Lexer.feed step id 0 lexer.save
    (n, lexer.restore)

/-- `color /Name /Space c1 ... cn`, after its first word. -/
def colorDeclaration : Reading Declaration := do
  let name ← Reader.name "colour name"
  let space : ColorSpace ← MonadExcept.ofExcept (Vocabulary.ofName (← Reader.name "colour space"))
  let numbers ← components space.componentCount
  let extra ← surplus
  match Color.ofComponents? space numbers, extra with
  | some color, 0 =>
    declare name
    return .color name color
  | _, _ =>
    throw (.componentCount s!"colour {name}" space.componentCount (numbers.length + extra))

/-- `pattern /Name /Kind /Space << ... >>`, after its first word. -/
def patternDeclaration : Reading Declaration := do
  let name ← Reader.name "pattern name"
  let kind : PatternKind ← MonadExcept.ofExcept (Vocabulary.ofName (← Reader.name "pattern type"))
  let space : ColorSpace ← MonadExcept.ofExcept (Vocabulary.ofName (← Reader.name "colour space"))
  let entries ← match ← token with
    | .dictionaryStart => value (.atKey ∅ [])
    | t => throw (t.unexpected "pattern dictionary")
  let pattern ← MonadExcept.ofExcept (entries.toDictionary >>= Pattern.ofDictionary kind space)
  declare name
  return .pattern name pattern

end PageScript.Reader
