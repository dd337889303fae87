import PageScript.Context.Accept
import PageScript.Conversion.Call
import PageScript.Conversion.Overrides
import PageScript.Conversion.Substitute
import PageScript.Step

/-!
# The state of a conversion

What a conversion knows of the script so far, and the steps it is made of. A step that fails keeps
what was done before it failed.
-/
namespace PageScript

structure Report where
  statements : Nat := 0
  pages : Nat := 0
  /-- Text flows of which not all lines fitted. -/
  overflows : Nat := 0
  deriving DecidableEq, Repr

structure Converter (φ ω : Type) where
  world : ω
  overrides : Overrides := ∅
  context : Context := .outside
  /-- The values of the variables declared so far. -/
  bindings : Table Value := ∅
  resources : Table Resource := ∅
  colors : Table Color := ∅
  patterns : Table Pattern := ∅
  /-- The handles got so far, by declared name. -/
  handles : Table String := ∅
  /-- The fonts loaded so far, by declared name. -/
  fonts : Table φ := ∅
  report : Report := {}

abbrev Conversion (φ ω : Type) := Step (Converter φ ω)

namespace Conversion

variable {φ ω : Type} (env : Environment φ ω)

def call (c : Call) : Conversion φ ω (c.Answer φ) :=
  ExceptT.mk fun s =>
    let (a, world) := env.answer s.world c
    (a, { s with world := world })

def write (op : Operator) (operands : List Value) : Conversion φ ω Unit := do
  operands.forM fun v => call env (.operand v)
  call env (.operator op)

def move (next : Context → Except ScriptError Context) : Conversion φ ω Unit := do
  let context ← MonadExcept.ofExcept (next (← get).context)
  modify fun s => { s with context := context }

def resource (name : String) (kind : ResourceKind) : Conversion φ ω Resource := do
  match (← get).resources.find? name with
  | some r => if r.kind = kind then pure r else throw (.undeclaredResource name)
  | none => throw (.undeclaredResource name)

def keepHandle (name handle : String) : Conversion φ ω Unit :=
  modify fun s => { s with handles := s.handles.insert name handle }

/-- The handle of a resource, asked for once. -/
def resourceHandle (name : String) (kind : ResourceKind) : Conversion φ ω String := do
  match (← get).handles.find? name with
  | some handle => pure handle
  | none =>
    let r ← resource name kind
    let handle ← match kind with
      | .font => call env (.fontHandle r)
      | .image => call env (.imageHandle r)
    keepHandle name handle
    pure handle

/-- The handle of a pattern, asked for once. -/
def patternHandle (name : String) : Conversion φ ω String := do
  match (← get).handles.find? name with
  | some handle => pure handle
  | none =>
    let some pattern := (← get).patterns.find? name | throw (.undeclaredResource name)
    let handle ← call env (.patternHandle name pattern)
    keepHandle name handle
    pure handle

end Conversion

end PageScript
