import PageScript.ScriptError

/-!
# Moving between contexts

Pages begin and end, and operators open and close the path and text objects of a page. Objects do
not nest.
-/
namespace PageScript.Context

/-- Where a transition leads; it does nothing where it does not apply. -/
def moved : Context → Option Transition → Context
  | page, some .beginPath => path
  | path, some .endPath => page
  | page, some .beginText => text
  | text, some .endText => page
  | context, _ => context

/-- The context after an operator, which has to be allowed where it stands. -/
def accept (context : Context) (op : Operator) : Except ScriptError Context :=
  if op.rule.contexts.contains context then .ok (context.moved op.rule.transition)
  else .error (.notAllowed op.symbol context)

/-- The context after the end of a page. A path or text object has to be closed before. -/
def endPage : Context → Except ScriptError Context
  | path => .error (.unclosed path)
  | text => .error (.unclosed text)
  | page | outside => .ok outside

theorem accept_eq_ok {context next : Context} {op : Operator} (h : context.accept op = .ok next) :
    op.rule.contexts.contains context = true ∧ next = context.moved op.rule.transition := by
  unfold accept at h
  split at h
  · next ha => exact ⟨ha, (Except.ok.inj h).symm⟩
  · cases h

/-- Operators only stand on pages, and do not leave them. -/
theorem inside_of_accept {context next : Context} {op : Operator}
    (h : context.accept op = .ok next) : context ≠ .outside ∧ next ≠ .outside := by
  obtain ⟨ha, rfl⟩ := accept_eq_ok h
  cases context with
  | outside => cases ha
  | page | path | text => rcases op.rule.transition with _ | _ | _ | _ | _ <;> simp [moved]

/-- Operators that may stand in the same places and lead to the same ones. -/
theorem accept_congr {context next : Context} {op other : Operator}
    (hc : op.rule.contexts = other.rule.contexts)
    (ht : op.rule.transition = other.rule.transition) (h : context.accept op = .ok next) :
    context.accept other = .ok next := by
  obtain ⟨hin, rfl⟩ := accept_eq_ok h
  rw [accept, ← hc, ← ht, if_pos hin]

/-- Operators without a transition stay where they are. -/
theorem eq_of_accept {context next : Context} {op : Operator}
    (h : context.accept op = .ok next) (stays : op.rule.transition = none) : next = context := by
  obtain ⟨-, rfl⟩ := accept_eq_ok h
  rw [stays]
  cases context <;> rfl

theorem eq_page_of_accept {context next : Context} {op : Operator}
    (hc : op.rule.contexts = page.singleton) (ht : op.rule.transition = none)
    (h : context.accept op = .ok next) : context = .page ∧ next = .page := by
  obtain ⟨hin, rfl⟩ := accept_eq_ok h
  rw [hc] at hin
  rw [ht]
  cases context <;> first | exact ⟨rfl, rfl⟩ | cases hin

theorem endPage_ok {context next : Context} (h : context.endPage = .ok next) :
    next = outside ∧ (context = page ∨ context = outside) := by
  cases context <;> cases h <;> simp

end PageScript.Context
