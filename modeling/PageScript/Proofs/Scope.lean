import PageScript.Reader.Document

/-!
# Scopes

Where a statement stands in a script: in which context, and behind which declarations. A script is
legal if each of its statements may stand where it does.
-/
namespace PageScript

namespace Context

/-- The context after a statement, if the statement may stand in the context before it. -/
def after? (context : Context) : Statement → Option Context
  | .declaration _ => some context
  | .graphics o => (context.accept o.operator).toOption
  | .page _ => if context = .outside then some .page else none
  | .endPage => if context = .page then some .outside else none

def replay (context : Context) (statements : List Statement) : Option Context :=
  statements.foldlM after? context

end Context

/-- The context in which a statement stands, the kinds of the variables declared before it, and the
names of the resources, colours and patterns declared before it. -/
structure Scope where
  context : Context := .outside
  kinds : Table ValueKind := ∅
  names : List String := []

namespace Scope

def entering (s : Scope) (d : Declaration) : Scope :=
  { s with kinds := d.addKind s.kinds, names := d.addName s.names }

/-- A statement may stand in a scope and leads to another one. -/
inductive Leads (s : Scope) : Statement → Scope → Prop where
  | declaration {d : Declaration} (new : d.New s.kinds s.names) :
      s.Leads (.declaration d) (s.entering d)
  | graphics {o : Operation} {next : Context} (accepted : s.context.accept o.operator = .ok next)
      (resolved : ∀ v ∈ o.operands, v.Resolved s.kinds) :
      s.Leads (.graphics o) { s with context := next }
  | page {size : PageSize} (level : s.context = .outside) :
      s.Leads (.page size) { s with context := .page }
  | endPage (level : s.context = .page) : s.Leads .endPage { s with context := .outside }

/-- Each of some statements may stand where it does, from one scope to another. -/
inductive Legal : Scope → List Statement → Scope → Prop where
  | nil {s : Scope} : Legal s [] s
  | cons {s s' s'' : Scope} {t : Statement} {ts : List Statement} (first : s.Leads t s')
      (rest : Legal s' ts s'') : Legal s (t :: ts) s''

theorem Leads.after? {s s' : Scope} {t : Statement} (h : s.Leads t s') :
    s.context.after? t = some s'.context := by
  cases h with
  | declaration => rfl
  | graphics accepted => simp [Context.after?, accepted, Except.toOption]
  | page level | endPage level => simp [Context.after?, level]

theorem Legal.append {s s' s'' : Scope} {ts us : List Statement} (hs : s.Legal ts s')
    (hu : s'.Legal us s'') : s.Legal (ts ++ us) s'' := by
  induction hs with
  | nil => exact hu
  | cons first _ ih => exact .cons first (ih hu)

theorem Legal.of_append {s s'' : Scope} {ts us : List Statement} (h : s.Legal (ts ++ us) s'') :
    ∃ s', s.Legal ts s' ∧ s'.Legal us s'' := by
  induction ts generalizing s with
  | nil => exact ⟨s, .nil, h⟩
  | cons t ts ih =>
    cases h with
    | cons first rest =>
      obtain ⟨s', hts, hus⟩ := ih rest
      exact ⟨s', .cons first hts, hus⟩

theorem Leads.legal {s s' : Scope} {t : Statement} (h : s.Leads t s') : s.Legal [t] s' :=
  .cons h .nil

theorem Legal.replay {s s' : Scope} {ts : List Statement} (h : s.Legal ts s') :
    s.context.replay ts = some s'.context := by
  induction h with
  | nil => rfl
  | cons first _ ih =>
    rw [Context.replay, List.foldlM_cons, first.after?]
    exact ih

end Scope

end PageScript
