import PageScript.Proofs.Mentions
import PageScript.Proofs.Roles

/-!
# What variables stand for

A declared variable stands for the value given from outside, or else for the one of its declaration.
-/
namespace PageScript

open Step Converter

variable {φ ω : Type}

namespace Value

/-- The value is no variable itself. -/
def Literal (v : Value) : Prop := ∀ x kind, v ≠ .variable x kind

variable {v w : Value} {bindings : Table Value}

/-- The kind of a literal says how it is built. -/
theorem Literal.shape {kind : ValueKind} (h : v.Literal) (hk : v.kind = some kind) :
    match kind with
    | .number => ∃ n, v = .number n
    | .string => ∃ bytes, v = .string bytes
    | .boolean => ∃ b, v = .boolean b
    | .name => ∃ text, v = .name text
    | .array => ∃ items, v = .array items
    | .dictionary => ∃ entries, v = .dictionary entries
    | .keyword => ∃ text, v = .keyword text := by
  cases v with
  | «variable» x kind => exact absurd rfl (h x kind)
  | number | string | boolean | name | array | dictionary | keyword =>
    cases hk
    exact ⟨_, rfl⟩

theorem literal_of_has {type : VariableType} (h : type.Has v) : v.Literal := by
  rintro x kind rfl
  cases type <;> exact h

/-- A literal stays one when the variables in it are replaced, and a variable becomes one if it
stands for one. -/
theorem literal_substitute (h : v.substitute bindings = .ok w)
    (hv : ∀ x kind u, v = .variable x kind → bindings.find? x = some u → u.Literal) :
    w.Literal := by
  rintro y kind rfl
  cases v with
  | «variable» x declared =>
    rw [substitute] at h
    split at h
    · next u hu =>
      cases h
      exact hv x declared _ rfl hu y kind rfl
    · cases h
  | array items =>
    obtain ⟨ws, -, hw⟩ := substitute_array_eq_ok.mp h
    cases hw
  | dictionary entries =>
    obtain ⟨es, -, hw⟩ := substitute_dictionary_eq_ok.mp h
    cases hw
  | number | string | boolean | name | keyword => cases h

/-- Each value that is left comes from one of those that were there. -/
theorem exists_of_mem_substituteItems {items ws : List Value}
    (h : substituteItems bindings items = .ok ws) (hw : w ∈ ws) :
    ∃ v ∈ items, v.substitute bindings = .ok w := by
  induction items generalizing ws with
  | nil =>
    cases h
    cases hw
  | cons v items ih =>
    obtain ⟨w', ws', hv, hrest, rfl⟩ := substituteItems_cons_eq_ok.mp h
    rcases List.mem_cons.mp hw with rfl | hw
    · exact ⟨v, List.mem_cons_self, hv⟩
    · obtain ⟨v', hv', hs⟩ := ih hrest hw
      exact ⟨v', List.mem_cons_of_mem _ hv', hs⟩

/-- Each value that was there has been replaced. -/
theorem exists_of_mem_items {items ws : List Value} (h : substituteItems bindings items = .ok ws)
    (hv : v ∈ items) : ∃ w ∈ ws, v.substitute bindings = .ok w := by
  induction items generalizing ws with
  | nil => cases hv
  | cons v' items ih =>
    obtain ⟨w', ws', hv', hrest, rfl⟩ := substituteItems_cons_eq_ok.mp h
    rcases List.mem_cons.mp hv with rfl | hv
    · exact ⟨w', List.mem_cons_self, hv'⟩
    · obtain ⟨w, hw, hs⟩ := ih hrest hv
      exact ⟨w, List.mem_cons_of_mem _ hw, hs⟩

end Value

namespace Converter

variable {c c' : Converter φ ω} {overrides : Overrides} {done : List Statement}

/-- The variables that have a value are declared by the statements, and each stands for the value
given for it or else for the declared one, which are of the declared kind. -/
structure Binds (c : Converter φ ω) (overrides : Overrides) (done : List Statement) : Prop where
  given : c.overrides = overrides
  bound : ∀ x w, c.bindings.find? x = some w → ∃ (type : VariableType) (v : Value),
    .declaration (.variable x type.kind v) ∈ done ∧ type.Has v ∧ w.kind = some type.kind ∧
      w = (overrides.get? x).getD v

theorem binds_fresh (overrides : Overrides) (world : ω) :
    (fresh overrides world : Recorder φ ω).Binds overrides [] :=
  ⟨rfl, by simp [fresh]⟩

theorem Binds.more (h : c.Binds overrides done) (t : Statement)
    (hs : c'.overrides = c.overrides) (hb : c'.bindings = c.bindings) :
    c'.Binds overrides (done ++ [t]) := by
  refine ⟨hs.trans h.given, fun x w hw => ?_⟩
  obtain ⟨type, v, hm, hv⟩ := h.bound x w (hb ▸ hw)
  exact ⟨type, v, List.mem_append_left _ hm, hv⟩

end Converter

namespace Conversion

variable {env : Environment φ ω} {c : Recorder φ ω} {overrides : Overrides} {done : List Statement}
  {s s' : Scope}

theorem initialValue_eq {x : String} {kind : ValueKind} {v w : Value}
    (h : initialValue overrides x kind v = .ok w) : w = (overrides.get? x).getD v := by
  unfold initialValue at h
  split at h
  · next hn =>
    cases h
    simp [hn]
  · next given hg =>
    split at h
    · cases h
      simp [hg]
    · cases h

theorem binds_declare {d : Declaration} (new : d.New s.kinds s.names)
    (hc : c.Binds overrides done) :
    (declare d).Ensures c (fun _ c' => c'.Binds overrides (done ++ [.declaration d]))
      fun _ _ => True := by
  cases d with
  | resource | color | pattern => exact hc.more _ rfl rfl
  | «variable» x kind v =>
    obtain ⟨-, type, rfl, hv⟩ := new
    simp only [declare, ensures_bind, ensures_get, ensures_ofExcept, ensures_modify]
    refine ⟨fun w hw => ⟨hc.given, fun y u hu => ?_⟩, fun _ _ => trivial⟩
    rw [hc.given] at hw
    simp only [Table.find?_insert] at hu
    split at hu
    · next hy =>
      cases hu
      exact ⟨type, v, by simp [hy], hv, initialValue_kind hw hv.kind_eq,
        hy ▸ initialValue_eq hw⟩
    · exact (hc.more (.declaration (.variable x type.kind v)) rfl rfl).bound y u hu

variable [FontMetrics φ Float32]

theorem binds_statement {t : Statement} (h : s.Leads t s') (hf : c.Follows s)
    (hc : c.Binds overrides done) :
    (statement env.recorded t).Ensures c (fun _ c' => c'.Binds overrides (done ++ [t]))
      fun _ _ => True := by
  refine ensures_bind.mpr (ensures_modify.mpr ?_)
  generalize hc₀ : ({ c with report.statements := c.report.statements + 1 } : Recorder φ ω) = c₀
  have hf₀ : c₀.Follows s := by rw [← hc₀]; exact ⟨hf.context, hf.bound⟩
  have hb₀ : c₀.Binds overrides done := by rw [← hc₀]; exact ⟨hc.given, hc.bound⟩
  clear hc₀
  cases h with
  | declaration new => exact binds_declare new hb₀
  | graphics accepted resolved =>
    refine (ensures_operation (fun _ => accepted_substitute resolved hf₀)
      (hf₀.context ▸ accepted)).mono ?_ fun _ _ _ => trivial
    intro _ c' hp
    exact hb₀.more _ (by rw [hp.same]) (by rw [hp.same])
  | page =>
    refine ensures_bind.mpr (ensures_modify.mpr (ensures_call env (fun _ w => ?_) fun _ _ => trivial))
    exact hb₀.more _ rfl rfl
  | endPage =>
    simp only [move, ensures_bind, ensures_get, ensures_ofExcept, ensures_modify]
    exact ⟨fun next _ => ensures_call env (fun _ w => hb₀.more _ rfl rfl) fun _ _ => trivial,
      fun _ _ => trivial⟩

theorem binds_of_converted {world : ω} (h : Scope.Legal {} done s)
    (converted : (done.forM (statement env.recorded)).run (fresh overrides world) = (.ok (), c)) :
    c.Binds overrides done := by
  have hstep (done : List Statement) (s : Scope) (t : Statement) (s' : Scope) (c : Recorder φ ω)
      (hc : (c.Follows s ∧ c.Shows c.output) ∧ c.Binds overrides done) (ht : s.Leads t s') :
      (statement env.recorded t).Ensures c
        (fun _ c' => (c'.Follows s' ∧ c'.Shows c'.output) ∧ c'.Binds overrides (done ++ [t]))
        fun _ _ => True :=
    ((ensures_statement ht hc.1.1 hc.1.2).and (binds_statement ht hc.1.1 hc.2)).mono
      (fun _ _ h => h) fun _ _ _ => trivial
  exact ((ensures_forM hstep [] h
    ⟨⟨follows_fresh overrides world, rfl⟩, binds_fresh overrides world⟩).ok converted).2

namespace Turn

variable {world : ω} {lx : Lexer} (turn : Turn env overrides world lx)

theorem binds : turn.before.Binds overrides turn.done := by
  obtain ⟨s, hlegal, -⟩ := Reader.document_legal (Reader.behind_ofLexer lx)
  rw [turn.script, Reader.statements_append] at hlegal
  obtain ⟨s₁, hdone, -⟩ := hlegal.of_append
  exact binds_of_converted hdone turn.converted

/-- A variable that is an operand stands for a value of the kind it has there. -/
theorem operand_bound {x : String} {kind : Option ValueKind}
    (hm : .variable x kind ∈ turn.operation.operands) :
    ∃ w, turn.before.bindings.find? x = some w ∧ w.kind = kind := by
  obtain ⟨s, s', hready, hleads⟩ := turn.ready
  cases hleads with
  | graphics accepted resolved =>
    obtain ⟨signature, -, ha⟩ := turn.operation.accepted
    obtain ⟨k, rfl⟩ := ha.kind_of_mem hm
    exact hready.follows.bound x k (resolved _ hm)

end Turn

variable {world : ω} {lx : Lexer}

/-- Behind some statements of the script, operators and operands have been written in turns. -/
theorem exists_turn_of_statements {ts : List Statement}
    {rest : List (Except StatementError Statement)}
    (script : (Reader.ofLexer lx).document = ts.map .ok ++ rest) {k : Call} (writes : k.Writes)
    (hk : k ∈ ((ts.forM (statement env.recorded)).run (fresh overrides world)).2.calls) :
    ∃ turn : Turn env overrides world lx, k ∈ turn.events.map Event.call := by
  induction ts using List.reverseRecOn generalizing rest with
  | nil => cases hk
  | append_singleton ts t ih =>
    have script' : (Reader.ofLexer lx).document = ts.map .ok ++ .ok t :: rest := by
      rw [script, List.map_append, List.append_assoc]
      rfl
    rw [run_forM_concat] at hk
    rcases hrun : (ts.forM (statement env.recorded)).run (fresh overrides world) with ⟨e | _, c⟩
    · rw [hrun] at ih hk
      exact ih script' hk
    · rw [hrun] at ih hk
      have split {es : List (Event φ)} (he : ((statement env.recorded t).run c).2.events =
          c.events ++ es) : k ∈ c.calls ∨ k ∈ es.map Event.call := by
        rwa [calls, he, List.map_append, List.mem_append] at hk
      by_cases ht : ∃ o, t = .graphics o
      · obtain ⟨o, rfl⟩ := ht
        let turn : Turn env overrides world lx := ⟨ts, o, rest, c, script', hrun⟩
        exact (split turn.outcome_events.1).elim (ih script') fun h => ⟨turn, h⟩
      · obtain ⟨es, he, hq⟩ := (ensures_quiet (not_exists.mp ht) c).state
        rcases split he with h | h
        · exact ih script' h
        · obtain ⟨e, hm, rfl⟩ := List.mem_map.mp h
          exact absurd writes (hq e hm)

/-- A conversion writes operators and operands in its turns only. -/
theorem exists_turn {k : Call} (writes : k.Writes)
    (hk : k ∈ (document env.recorded (fresh overrides world) (Reader.ofLexer lx)).2.calls) :
    ∃ turn : Turn env overrides world lx, k ∈ turn.events.map Event.call := by
  obtain ⟨rest, script, -⟩ := (Reader.ofLexer lx).document_eq
  refine exists_turn_of_statements script writes ?_
  rcases document_calls env (Reader.ofLexer lx) rfl with h | h
  · rwa [h] at hk
  · rw [h] at hk
    refine (List.mem_append.mp hk).elim id fun hf => ?_
    obtain rfl := List.mem_singleton.mp hf
    exact writes.elim

end Conversion

end PageScript
