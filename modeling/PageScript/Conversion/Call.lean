import PageScript.Statement

/-!
# Calls to the outside

A conversion calls the writer of the document and the source of its fonts. Each call is answered,
or fails.
-/
namespace PageScript

inductive Call where
  | beginPage (size : PageSize)
  | endPage
  /-- Before the operator that opens a path. -/
  | beginPath
  /-- After the operator that paints or drops a path. -/
  | endPath
  | beginText
  | endText
  | operand (v : Value)
  | operator (op : Operator)
  | fontHandle (r : Resource)
  | imageHandle (r : Resource)
  | patternHandle (name : String) (p : Pattern)
  | loadFont (r : Resource)
  /-- The document is complete. -/
  | flush

/-- What a call is answered with, where fonts are of type `φ`. -/
abbrev Call.Answer (φ : Type) : Call → Type
  | fontHandle _ | imageHandle _ | patternHandle .. => String
  | loadFont _ => φ
  | _ => Unit

/-- What answers the calls, from a state of its own. -/
structure Environment (φ ω : Type) where
  answer : ω → (c : Call) → Except ScriptError (c.Answer φ) × ω

structure Event (φ : Type) where
  call : Call
  answer : Except ScriptError (call.Answer φ)

namespace Environment

variable {φ ω : Type}

/-- The same answers, with the calls kept in order. -/
def recorded (env : Environment φ ω) : Environment φ (ω × Array (Event φ)) where
  answer w c :=
    let (a, next) := env.answer w.1 c
    (a, (next, w.2.push ⟨c, a⟩))

/-- The same answers, but the call before which `n` others have been made fails. -/
def failingAt (env : Environment φ ω) (n : Nat) (e : ScriptError) : Environment φ (ω × Nat) where
  answer w c :=
    let (a, next) := env.answer w.1 c
    (if w.2 = n then .error e else a, (next, w.2 + 1))

end Environment

end PageScript
