import PageScript.Conversion.Substitute
import PageScript.Flow.Options

/-!
# Errors that have nothing to do with contexts

What a conversion takes out of operands can be wrong in many ways. None of them says that a
statement stands in the wrong context.
-/
namespace PageScript

/-- The error says that a statement stands in the wrong context. -/
def ScriptError.OfContext : ScriptError → Prop
  | .notAllowed .. | .unclosed _ => True
  | _ => False

/-- No error is of contexts. -/
def Plain {α : Type} (x : Except ScriptError α) : Prop := ∀ e, x = .error e → ¬ e.OfContext

namespace Plain

variable {α β : Type}

theorem ok (a : α) : Plain (.ok a) := by
  intro e h
  cases h

theorem error {e : ScriptError} (h : ¬ e.OfContext) : Plain (.error e : Except ScriptError α) := by
  intro e' he
  cases he
  exact h

theorem bind {x : Except ScriptError α} {f : α → Except ScriptError β} (hx : Plain x)
    (hf : ∀ a, Plain (f a)) : Plain (x >>= f) := by
  cases x with
  | ok a => exact hf a
  | error e => exact error (hx e rfl)

theorem map {x : Except ScriptError α} (f : α → β) (hx : Plain x) : Plain (f <$> x) := by
  cases x with
  | ok a => exact ok _
  | error e => exact error (hx e rfl)

end Plain

namespace Value

theorem plain_toNumber (v : Value) : Plain v.toNumber := by
  cases v <;> first | exact .ok _ | exact .error id

theorem plain_toName (v : Value) : Plain v.toName := by
  cases v <;> first | exact .ok _ | exact .error id

theorem plain_toBytes (v : Value) : Plain v.toBytes := by
  cases v <;> first | exact .ok _ | exact .error id

theorem plain_toItems (v : Value) : Plain v.toItems := by
  cases v <;> first | exact .ok _ | exact .error id

theorem plain_toDictionary (v : Value) : Plain v.toDictionary := by
  cases v <;> first | exact .ok _ | exact .error id

theorem plain_toBoolean (v : Value) : Plain v.toBoolean := by
  cases v <;> first | exact .ok _ | exact .error id

mutual

theorem plain_substitute (bindings : Table Value) (v : Value) : Plain (v.substitute bindings) := by
  cases v with
  | «variable» x kind =>
    rw [substitute]
    split
    · exact .ok _
    · exact .error id
  | array items => exact (plain_substituteItems bindings items).map _
  | dictionary d => exact (plain_substituteEntries bindings d.sorted).map _
  | number | string | boolean | name | keyword => exact .ok _

theorem plain_substituteItems (bindings : Table Value) (items : List Value) :
    Plain (substituteItems bindings items) := by
  cases items with
  | nil => exact .ok _
  | cons v rest =>
    exact (plain_substitute bindings v).bind fun _ =>
      (plain_substituteItems bindings rest).bind fun _ => .ok _

theorem plain_substituteEntries (bindings : Table Value) {low : Option String}
    (entries : Entries Value low) : Plain (substituteEntries bindings entries) := by
  cases entries with
  | nil => exact .ok _
  | cons key v _ rest =>
    exact (plain_substitute bindings v).bind fun _ =>
      (plain_substituteEntries bindings rest).bind fun _ => .ok _

end

end Value

theorem Dictionary.plain_typed {α : Type} (expected : ValueKind)
    {content : Value → Except ScriptError α} (hc : ∀ v, Plain (content v)) (d : Dictionary)
    (key : String) : Plain (typed? expected content d key) := by
  unfold typed?
  split
  · exact .ok _
  · split
    · exact (hc _).map some
    · exact .error id

theorem Vocabulary.plain_ofName {α : Type} [Vocabulary α] (name : String) :
    Plain (ofName name : Except ScriptError α) := by
  unfold ofName ofWord
  split
  · split
    · exact .ok _
    · exact .error id
  · exact .error id

namespace FlowOptions

theorem plain_named {α : Type} [Vocabulary α] (d : Dictionary) (key : String) :
    Plain (named? (α := α) d key) := by
  refine (Dictionary.plain_typed .name Value.plain_toName d key).bind fun name => ?_
  cases name with
  | none => exact .ok _
  | some name => exact (Vocabulary.plain_ofName name).map some

theorem plain_ofDictionary (d : Dictionary) : Plain (ofDictionary d) := by
  have number (key : String) : Plain (d.number? key) :=
    Dictionary.plain_typed .number Value.plain_toNumber d key
  have boolean (key : String) : Plain (d.boolean? key) :=
    Dictionary.plain_typed .boolean Value.plain_toBoolean d key
  unfold ofDictionary
  refine (plain_named d _).bind fun _ => (boolean _).bind fun _ => (plain_named d _).bind fun _ => ?_
  exact (number _).bind fun _ => (number _).bind fun _ => (number _).bind fun _ => .ok _

end FlowOptions

end PageScript
