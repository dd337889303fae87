import PageScript.Operator
import PageScript.Token

/-!
# Errors

Every cause for which a script is refused, and the message of each.
-/
namespace PageScript

inductive Found where
  | token (t : Token)
  | value (v : Value)
  | word (text : String)

inductive ScriptError where
  /-- The input ended in the middle of a statement. -/
  | unexpectedEnd (expected : String)
  | unexpectedToken (expected : String) (found : Found)
  | unknownOperator (symbol : String)
  /-- An operator with one signature found fewer operands than it takes. -/
  | insufficientOperands (operator : Operator) (expected found : Nat)
  | operandKind (operator : Operator) (position : Nat) (expected : ValueKind)
      (found : Option ValueKind)
  /-- No signature of an operator with several of them matched the last operands. -/
  | noSignature (operator : Operator) (found : List (Option ValueKind))
  /-- Operands were left below those of an operator. -/
  | unconsumedOperands (operator : Operator) (count : Nat)
  /-- Operands were left with no operator to take them. -/
  | danglingOperands (count : Nat)
  | notAllowed (symbol : String) (context : Context)
  /-- A page ended inside a path or text object. -/
  | unclosed (context : Context)
  | unsupportedVariableType (found : String)
  | unrecognizedWord (title found : String)
  | componentCount (subject : String) (expected found : Nat)
  | missingKey (key : String)
  | entryKind (key : String) (expected found : ValueKind)
  | undeclaredVariable (name : String)
  | undeclaredResource (name : String)
  | variableKind (name : String) (expected found : ValueKind)
  | duplicateDeclaration (name : String)
  | unknownPageTemplate (found : String)
  | objectReference
  /-- A failure outside the script: of the input, the writer or the font source. -/
  | external (text : String)

def Found.text : Found → String
  | token t => Inspect.token t
  | value v => Inspect.value v
  | word text => text

namespace ScriptError

def kindText : Option ValueKind → String
  | some kind => kind.word
  | none => "unresolved variable"

def message : ScriptError → String
  | unexpectedEnd expected => s!"unexpected end of input, expected {expected}"
  | unexpectedToken expected found => s!"expected {expected}, found {found.text}"
  | unknownOperator symbol => s!"unknown operator {Text.quote symbol}"
  | insufficientOperands op expected found =>
    s!"operator {op.symbol} takes {expected} operands, found {found}"
  | operandKind op position expected found =>
    s!"operand {position} of {op.symbol}: expected {expected.word}, found {kindText found}"
  | noSignature op found =>
    s!"no signature of {op.symbol} matches operands {Inspect.list (found.map kindText)}"
  | unconsumedOperands op count => s!"{count} unconsumed operands left before operator {op.symbol}"
  | danglingOperands count => s!"{count} operands at end of input without an operator"
  | notAllowed symbol context =>
    s!"operator {symbol} is not allowed in the {context.name} context"
  | unclosed context => s!"page ended inside an open {context.name} object"
  | unsupportedVariableType found => s!"unsupported variable type {found}"
  | unrecognizedWord title found => s!"unrecognized {title} {Text.quote found}"
  | componentCount subject expected found =>
    s!"{subject} requires {expected} components, found {found}"
  | missingKey key => s!"missing required key {key}"
  | entryKind key expected found =>
    s!"value of {key}: expected {expected.word}, found {found.word}"
  | undeclaredVariable name => s!"undeclared variable {name}"
  | undeclaredResource name => s!"undeclared resource {name}"
  | variableKind name expected found =>
    s!"variable {name} is declared as {expected.word}, found {found.word}"
  | duplicateDeclaration name => s!"{name} is already declared"
  | unknownPageTemplate found => s!"unknown page template {found}"
  | objectReference => "object references are not supported in scripts"
  | external text => text

end ScriptError

namespace Vocabulary

variable {α : Type} [Vocabulary α]

/-- The value written as `text`; anything else is an unrecognized word. -/
def ofWord (text : String) : Except ScriptError α :=
  match ofWord? text with
  | some a => .ok a
  | none => .error (.unrecognizedWord (title α) text)

def ofName (name : String) : Except ScriptError α :=
  match bare? name with
  | some text => ofWord text
  | none => .error (.unrecognizedWord (title α) name)

end Vocabulary

def Operator.ofSymbol (symbol : String) : Except ScriptError Operator :=
  match Operator.ofSymbol? symbol with
  | some op => .ok op
  | none => .error (.unknownOperator symbol)

end PageScript
