import PageScript.Value.Extract

/-!
# Rectangles
-/
namespace PageScript

/-- A rectangle with its sides along the axes; `y` grows upward. -/
structure Rectangle (α : Type) where
  left : α
  bottom : α
  width : α
  height : α
  deriving DecidableEq, Repr

namespace Rectangle

variable {α : Type} [Add α]

def right (r : Rectangle α) : α := r.left + r.width

def top (r : Rectangle α) : α := r.bottom + r.height

/-- The rectangle written as left, bottom, width and height. -/
def ofValues (values : List Value) : Except ScriptError (Rectangle Float32) :=
  match Value.toNumbers values, values with
  | .ok [left, bottom, width, height], _ => .ok ⟨left, bottom, width, height⟩
  | .error e, [_, _, _, _] => .error e
  | _, _ => .error (.componentCount "rectangle" 4 values.length)

end Rectangle

end PageScript
