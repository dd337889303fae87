import PageScript.Conversion.Operation
import PageScript.Reader.Document

/-!
# Converted documents

Statements are converted one after the other. At the end of a script every value given from outside
must have found its variable, and the document is complete.
-/
namespace PageScript

/-- Why a script was not converted: it could not be read, or a statement could not be converted. -/
inductive ConversionError where
  | statement (e : StatementError)
  | conversion (cause : ScriptError)

def ConversionError.cause : ConversionError → ScriptError
  | statement e => e.cause
  | conversion cause => cause

namespace Conversion

variable {φ ω : Type} [FontMetrics φ Float32] (env : Environment φ ω)

/-- The value of a declared variable: the one given from outside, if it is of the declared kind. -/
def initialValue (overrides : Overrides) (name : String) (kind : ValueKind) (value : Value) :
    Except ScriptError Value :=
  match overrides.get? name with
  | none => .ok value
  | some given =>
    if given.kind = some kind then .ok given
    else .error (.variableKind name kind (given.kind.getD .keyword))

def declare : Declaration → Conversion φ ω Unit
  | .variable name kind value => do
    let value ← MonadExcept.ofExcept (initialValue (← get).overrides name kind value)
    modify fun s => { s with bindings := s.bindings.insert name value }
  | .resource r => modify fun s => { s with resources := s.resources.insert r.name r }
  | .color name color => modify fun s => { s with colors := s.colors.insert name color }
  | .pattern name pattern => modify fun s => { s with patterns := s.patterns.insert name pattern }

def statement (s : Statement) : Conversion φ ω Unit := do
  modify fun c => { c with report.statements := c.report.statements + 1 }
  match s with
  | .declaration d => declare d
  | .graphics o => operation env o
  | .page size =>
    modify fun c => { c with context := .page, report.pages := c.report.pages + 1 }
    call env (.beginPage size)
  | .endPage =>
    move Context.endPage
    call env .endPage

/-- Converts statements up to the first error, be it in the script or in the conversion. -/
def statements (c : Converter φ ω) :
    List (Except StatementError Statement) → Except ConversionError Unit × Converter φ ω
  | [] => (.ok (), c)
  | .error e :: _ => (.error (.statement e), c)
  | .ok s :: rest =>
    match (statement env s).run c with
    | (.ok (), c) => statements c rest
    | (.error e, c) => (.error (.conversion e), c)

/-- The first name for which a value was given but no variable declared. -/
def undeclared? (c : Converter φ ω) : Option String :=
  c.overrides.keys.find? fun name => !c.bindings.contains name

/-- Completes a document all of whose statements have been converted. -/
def finish : Conversion φ ω Report := do
  if let some name := undeclared? (← get) then throw (.undeclaredVariable name)
  call env .flush
  return (← get).report

def document (c : Converter φ ω) (r : Reader) :
    Except ConversionError Report × Converter φ ω :=
  match statements env c r.document with
  | (.error e, c) => (.error e, c)
  | (.ok (), c) =>
    match (finish env).run c with
    | (.ok report, c) => (.ok report, c)
    | (.error e, c) => (.error (.conversion e), c)

end Conversion

end PageScript
