import PageScript.Context.Accept
import PageScript.Lexer
import PageScript.Reader.Nesting
import PageScript.Statement
import PageScript.Step

/-!
# The reader

What is known of a script up to some place in it, and the steps by which a reader moves on. A step
that fails keeps what it has read, so that reading can go on behind an error.
-/
namespace PageScript

structure Reader where
  lexer : Lexer
  /-- The kinds of the variables declared so far. -/
  kinds : Table ValueKind := ∅
  /-- The names of the resources, colours and patterns declared so far. -/
  declared : List String := []
  context : Context := .outside
  /-- Operands that no operator has taken, the last one first. -/
  stack : List Value := []
  /-- Statements found ahead of their turn, such as a page that ends the page before it. -/
  pending : List Statement := []
  /-- A page has begun and not ended. -/
  pageOpen : Bool := false

abbrev Reading := Step Reader

namespace Reader

def ofLexer (lexer : Lexer) : Reader where
  lexer := lexer

def ofBytes (bytes : List UInt8) : Reader := ofLexer (Lexer.ofBytes bytes)

/-- A step of the lexer alone. -/
def lexing {α : Type} (f : Lexer → Except ScriptError α × Lexer) : Reading α :=
  ExceptT.mk fun r =>
    let (a, lexer) := f r.lexer
    (a, { r with lexer := lexer })

def token : Reading Token := lexing Lexer.readSignificant

def peek : Reading Token := lexing Lexer.peekSignificant

/-- The next token, which has to be a name. -/
def name (expected : String) : Reading String := do
  match ← token with
  | .name text => pure text
  | t => throw (t.unexpected expected)

/-- The next token, which has to be a number. -/
def number (expected : String) : Reading Float32 := do
  match ← token with
  | .number n => pure n
  | t => throw (t.unexpected expected)

/-- The bytes of the string just read, which must not have been cut off. -/
def terminated (bytes : List UInt8) : Reading (List UInt8) := do
  if (← get).lexer.unterminated then throw (.unexpectedEnd "end of string")
  pure bytes

def value (nesting : Nesting) : Reading Value := do
  let kinds := (← get).kinds
  let whole ← lexing fun lexer =>
    let (v, _, lexer) :=
      Lexer.feed (Nesting.step kinds) (fun n => .error n.atEnd) nesting lexer
    (v, lexer)
  MonadExcept.ofExcept whole

/-- Enters a name among those of resources, colours and patterns. -/
def declare (name : String) : Reading Unit := do
  if (← get).declared.contains name then throw (.duplicateDeclaration name)
  modify fun r => { r with declared := name :: r.declared }

def declareVariable (name : String) (kind : ValueKind) : Reading Unit := do
  if (← get).kinds.contains name then throw (.duplicateDeclaration name)
  modify fun r => { r with kinds := r.kinds.insert name kind }

def move (next : Context → Except ScriptError Context) : Reading Unit := do
  let context ← MonadExcept.ofExcept (next (← get).context)
  modify fun r => { r with context := context }

end Reader

end PageScript
