import PageScript.Reader.Declaration

/-!
# Statements from a script

Operands are put on a stack until an operator takes them. A `#` starts a declaration, a page or the
end of a page. A page that is still open ends where the next page begins, or with the script.
-/
namespace PageScript

/-- An error with the offset of the statement in which it arose. -/
structure StatementError where
  start : Nat
  cause : ScriptError

namespace StatementError

def place (e : StatementError) : String := s!"in statement starting at byte {e.start}"

end StatementError

namespace Reader

/-- `page /Template` or `page width height`, after the first word. -/
def pageSize : Reading PageSize := do
  match ← token with
  | .name text =>
    match Vocabulary.ofName? text with
    | some template => pure (.template template)
    | none => throw (.unknownPageTemplate text)
  | .number width => return .explicit width (← number "page height")
  | t => throw (t.unexpected "page template or size")

def openPage : Reading Unit :=
  modify fun r => { r with context := .page, pageOpen := true }

def closePage : Reading Unit := do
  move Context.endPage
  modify fun r => { r with pageOpen := false }

/-- Begins a page. If one is open it ends first, and the new page is told of afterwards. -/
def beginPage : Reading Statement := do
  let size ← pageSize
  if (← get).pageOpen then
    closePage
    openPage
    modify fun r => { r with pending := r.pending ++ [.page size] }
    return .endPage
  else
    openPage
    return .page size

def endPage : Reading Statement := do
  if (← get).pageOpen then
    closePage
    return .endPage
  else throw (.notAllowed "endpage" .outside)

def fragment : Reading Statement := do
  let word ← match ← token with
    | .keyword text => pure text
    | t => throw (t.unexpected "fragment keyword")
  match word with
  | "var" => Statement.declaration <$> variableDeclaration
  | "resource" => Statement.declaration <$> resourceDeclaration
  | "color" => Statement.declaration <$> colorDeclaration
  | "pattern" => Statement.declaration <$> patternDeclaration
  | "page" => beginPage
  | "endpage" => endPage
  | _ =>
    throw (.unexpectedToken "var, resource, color, pattern, page or endpage" (.word word))

/-- What ends a run of operands. -/
inductive Stop where
  | operator (symbol : String)
  | fragment
  | endOfInput
  | error (e : ScriptError)

/-- A stack of operands and the value under way above it. -/
structure Operands where
  stack : List Value
  nesting : Nesting := .atValue []

/-- One token of a run of operands. Outside arrays and dictionaries a keyword that is no boolean
ends the run. -/
def Operands.step (kinds : Table ValueKind) (operands : Operands) (t : Token)
    (unterminated : Bool) : Except Stop Operands :=
  match operands.nesting, t with
  | .atValue [], .keyword "#" => .error .fragment
  | .atValue [], .keyword "true" => .ok ⟨.boolean true :: operands.stack, .atValue []⟩
  | .atValue [], .keyword "false" => .ok ⟨.boolean false :: operands.stack, .atValue []⟩
  | .atValue [], .keyword symbol => .error (.operator symbol)
  | nesting, t =>
    match nesting.step kinds t unterminated with
    | .ok next => .ok { operands with nesting := next }
    | .error (.ok v) => .ok ⟨v :: operands.stack, .atValue []⟩
    | .error (.error e) => .error (.error e)

def Operands.atEnd (operands : Operands) : Stop :=
  match operands.nesting with
  | .atValue [] => .endOfInput
  | nesting => .error nesting.atEnd

/-- Puts operands on the stack up to what ends their run. -/
def operands : Reading Stop :=
  ExceptT.mk fun r =>
    let (stop, run, lexer) :=
      Lexer.feed (Operands.step r.kinds) Operands.atEnd ⟨r.stack, .atValue []⟩ r.lexer
    (stop, { r with lexer := lexer, stack := run.stack })

/-- No operand may be left where a statement has to start. -/
def noOperands : Reading Unit := do
  let stack := (← get).stack
  unless stack.isEmpty do throw (.danglingOperands stack.length)

/-- An operator takes its operands off the stack. -/
def graphics (symbol : String) : Reading Statement := do
  let op ← MonadExcept.ofExcept (Operator.ofSymbol symbol)
  let (operation, stack) := Operation.take op (← get).stack
  modify fun r => { r with stack := stack }
  let operation ← MonadExcept.ofExcept operation
  move fun context => context.accept op
  return .graphics operation

/-- The next statement as it stands in the script, or nothing at its end. -/
def nextStatement : Reading (Option Statement) := do
  match ← operands with
  | .operator symbol => some <$> graphics symbol
  | .fragment =>
    noOperands
    some <$> fragment
  | .endOfInput =>
    noOperands
    if (← get).pageOpen then
      closePage
      return some .endPage
    else return none
  | .error e => throw e

/-- The next statement, or nothing once the script has ended. -/
def readStatement (r : Reader) : Except StatementError (Option Statement) × Reader :=
  match r.pending with
  | s :: pending => (.ok (some s), { r with pending := pending })
  | [] =>
    match nextStatement.run r with
    | (.ok s, r') => (.ok s, r')
    | (.error e, r') => (.error ⟨r.lexer.position, e⟩, r')

end Reader

end PageScript
