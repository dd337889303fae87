import PageScript.Conversion.TextFlow

/-!
# Converted operations

Most operators are written as they are. Those that name something are written with its handle, a
declared colour is set by the operator of its colour space, and images and flowed text are written
out.
-/
namespace PageScript.Conversion

variable {φ ω : Type} [FontMetrics φ Float32] (env : Environment φ ω)

/-- An operator whose first operand is a name, written with a handle instead. -/
def writeHandle (op : Operator) (handle : String → Conversion φ ω String) :
    List Value → Conversion φ ω Unit
  | first :: rest => do
    let name ← MonadExcept.ofExcept first.toName
    write env op (.name (← handle name) :: rest)
  | [] => write env op []

/-- `/Image x y width height di`: the image scaled and moved into its place. -/
def drawImage : List Value → Conversion φ ω Unit
  | [name, x, y, width, height] => do
    let name ← MonadExcept.ofExcept name.toName
    let x ← MonadExcept.ofExcept x.toNumber
    let y ← MonadExcept.ofExcept y.toNumber
    let width ← MonadExcept.ofExcept width.toNumber
    let height ← MonadExcept.ofExcept height.toNumber
    let handle ← resourceHandle env name .image
    write env .saveState []
    write env .concatMatrix
      [.number width, .number 0, .number 0, .number height, .number x, .number y]
    write env .paintXObject [.name handle]
    write env .restoreState []
  | _ => pure ()

def setPattern (stroking : Bool) (components : List Value) (name : String) :
    Conversion φ ω Unit := do
  let handle ← patternHandle env name
  write env (if stroking then .setStrokeColorSpace else .setFillColorSpace) [.name "/Pattern"]
  write env (if stroking then .setStrokeColorN else .setFillColorN)
    (components ++ [.name handle])

/-- Sets a colour. A last operand that names a declared colour, standing alone, or else a declared
pattern is replaced; any other operands are written as they are. -/
def setColor (op : Operator) (stroking : Bool) (operands : List Value) : Conversion φ ω Unit := do
  let state ← get
  match operands.getLast? with
  | some (.name name) =>
    match state.colors.find? name, operands.length with
    | some color, 1 => write env (color.setOperator stroking) (color.components.map Value.number)
    | _, _ =>
      if state.patterns.contains name then setPattern env stroking operands.dropLast name
      else write env op operands
  | _ => write env op operands

def writeOperation (op : Operator) (operands : List Value) : Conversion φ ω Unit :=
  match op with
  | .drawImage => drawImage env operands
  | .flowText => flowText env operands
  | .setFont => writeHandle env op (resourceHandle env · .font) operands
  | .paintXObject => writeHandle env op (resourceHandle env · .image) operands
  | .shade => writeHandle env op (patternHandle env) operands
  | .setStrokeColor | .setStrokeColorN => setColor env op true operands
  | .setFillColor | .setFillColorN => setColor env op false operands
  | _ => write env op operands

/-- Converts an operation. Objects of the page are announced before they open and after they
close. -/
def operation (o : Operation) : Conversion φ ω Unit := do
  let operands ← MonadExcept.ofExcept (Value.substituteItems (← get).bindings o.operands)
  let before := (← get).context
  move fun context => context.accept o.operator
  let after := (← get).context
  if before ≠ .path ∧ after = .path then call env .beginPath
  if before ≠ .text ∧ after = .text then call env .beginText
  writeOperation env o.operator operands
  if before = .path ∧ after ≠ .path then call env .endPath
  if before = .text ∧ after ≠ .text then call env .endText

end PageScript.Conversion
