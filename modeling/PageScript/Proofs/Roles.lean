import PageScript.Proofs.Turns

/-!
# Names keep to their roles

A name should only be written for a role in which it was declared, and refused otherwise. That a
handle, once it has been got for one role, is used for any other, lets turns slip.
-/
namespace PageScript

open Step Converter

variable {φ ω : Type}

/-- The event grants the handle for what the statement declares under the name. -/
inductive Statement.Grants (name handle : String) : Role → Statement → Event φ → Prop where
  | font {r : Resource} (names : r.name = name) (kind : r.kind = .font) :
      Grants name handle .font (.declaration (.resource r)) ⟨.fontHandle r, .ok handle⟩
  | image {r : Resource} (names : r.name = name) (kind : r.kind = .image) :
      Grants name handle .image (.declaration (.resource r)) ⟨.imageHandle r, .ok handle⟩
  | pattern {p : Pattern} :
      Grants name handle .pattern (.declaration (.pattern name p)) ⟨.patternHandle name p, .ok handle⟩

theorem Converter.Knows.grants {c : Recorder φ ω} {done : List Statement} {names : List String}
    (hc : c.Knows done names) {name handle : String} {role : Role} {e : Event φ}
    (h : c.Grants name handle role e) : ∃ t ∈ done, t.Grants name handle role e := by
  cases h with
  | font found kind =>
    obtain ⟨hm, hn⟩ := (hc.resources _ _).mp found
    exact ⟨_, hm, .font hn kind⟩
  | image found kind =>
    obtain ⟨hm, hn⟩ := (hc.resources _ _).mp found
    exact ⟨_, hm, .image hn kind⟩
  | pattern found => exact ⟨_, (hc.patterns _ _).mp found, .pattern⟩

namespace Conversion

variable [FontMetrics φ Float32] {env : Environment φ ω} {overrides : Overrides} {world : ω}
  {lx : Lexer}

namespace Turn

variable (turn : Turn env overrides world lx)

/-- The operation takes a name for a role. -/
def Names (role : Role) (name : String) (rest : List Value) : Prop :=
  turn.operation.operator.role? = some role ∧ turn.operands = .ok (.name name :: rest)

/-- The conversion fails because of the name, before anything is called. -/
def Refuses (name : String) : Prop :=
  turn.outcome.1 = .error (.undeclaredResource name) ∧ turn.events = [] ∧
    Conversion.document env.recorded (fresh overrides world) (Reader.ofLexer lx) =
      (.error (.conversion (.undeclaredResource name)), turn.outcome.2)

/-- The handle was granted for something that is declared, before `seen` ended, under a name that
the operation uses in the role. -/
def Rightful (seen : List (Event φ)) (role : Role) (handle : String) : Prop :=
  ∃ operands name, turn.operands = .ok operands ∧ Uses turn.operation.operator operands role name ∧
    ∃ t ∈ turn.done, ∃ e ∈ turn.before.events ++ seen, t.Grants name handle role e

/-- At every moment all names written for a role are rightful, and a name that is not declared for
the role in which it is taken is refused. -/
structure KeepsRoles : Prop where
  written : ∀ seen, seen <+: turn.events → ∀ op handle role,
    (op, handle) ∈ writtenNames (seen.map Event.call) → op.role? = some role →
      turn.Rightful seen role handle
  refused : ∀ role name rest, turn.Names role name rest → ¬ role.DeclaredIn turn.done name →
    turn.Refuses name

/-- A name that is not declared for its role has a handle already, or an image that is not declared
is not placed with numbers. -/
def Slips : Prop :=
  ∃ role name rest, turn.Names role name rest ∧ ¬ role.DeclaredIn turn.done name ∧
    ((∃ role' handle, Granted turn.before.events role' name handle) ∨
      Unplaced turn.operation.operator rest)

variable {turn} {role : Role} {name : String} {rest : List Value}

theorem refuses_iff (names : turn.Names role name rest)
    (undeclared : ¬ role.DeclaredIn turn.done name) :
    turn.Refuses name ↔ ¬ ((∃ role' handle, Granted turn.before.events role' name handle) ∨
      Unplaced turn.operation.operator rest) := by
  obtain ⟨takes, hsub⟩ := names
  obtain ⟨next, hn, haccepted⟩ := turn.accepted
  obtain ⟨declared, hknows⟩ := turn.knows
  have hsignature := haccepted _ hsub
  have hhandle (handle : String) := hknows.traced.handles name handle
  constructor
  · rintro ⟨herror, hevents, -⟩ h
    have hsame : turn.outcome.2.events = turn.before.events := by
      rw [turn.outcome_events.1, hevents, List.append_nil]
    have hrun : (statement env.recorded (.graphics turn.operation)).run turn.before =
        (.error (.undeclaredResource name), turn.outcome.2) := Prod.ext herror rfl
    by_cases hplaced : Unplaced turn.operation.operator rest
    · exact (turn.ensures_outcome (ensures_operation_named takes hn hsub
        (ensures_unplaced hsignature hplaced))).error hrun name rfl
    · obtain ⟨role', handle, hg⟩ := h.resolve_right hplaced
      exact (turn.ensures_outcome (ensures_operation_named takes hn hsub
        (ensures_used takes hsignature hplaced ((hhandle handle).mpr ⟨role', hg⟩)))).error hrun hsame
  · intro h
    obtain ⟨hgranted, hplaced⟩ := not_or.mp h
    have missing : turn.before.handles.find? name = none := by
      cases hf : turn.before.handles.find? name with
      | none => rfl
      | some handle =>
        obtain ⟨role', hg⟩ := (hhandle handle).mp hf
        exact absurd ⟨role', handle, hg⟩ hgranted
    have hrun := turn.ensures_outcome (ensures_operation_named takes hn hsub
      (ensures_refused takes hsignature hplaced missing
        fun h => undeclared ((hknows.counted _).holds_iff.mp h)))
    rcases ho : turn.outcome with ⟨e | _, c'⟩
    · obtain ⟨rfl, hc'⟩ := hrun.error ho
      have herror : turn.outcome.1 = .error (.undeclaredResource name) := by rw [ho]
      refine ⟨herror, ?_, turn.document_error herror⟩
      rw [events, ho, hc']
      exact List.drop_length
    · exact (hrun.ok ho).elim

theorem keepsRoles_iff : turn.KeepsRoles ↔ ¬ turn.Slips := by
  constructor
  · rintro h ⟨role, name, rest, hnames, undeclared, hslips⟩
    exact (refuses_iff hnames undeclared).mp (h.refused role name rest hnames undeclared) hslips
  · intro h
    have refused (role : Role) (name : String) (rest : List Value)
        (hnames : turn.Names role name rest) (undeclared : ¬ role.DeclaredIn turn.done name) :
        turn.Refuses name :=
      (refuses_iff hnames undeclared).mpr fun hslips =>
        h ⟨role, name, rest, hnames, undeclared, hslips⟩
    refine ⟨fun seen hseen op handle role hm hrole => ?_, refused⟩
    obtain ⟨operands, name, role', hsub, huses, hfont, e, he, hgrants⟩ :=
      turn.outcome_events.2 seen hseen op handle role hm hrole
    obtain ⟨names, hknows⟩ := turn.knows
    have hdeclared : role.DeclaredIn turn.done name := by
      cases huses with
      | direct takes hoperands =>
        by_contra undeclared
        obtain ⟨-, hnone, -⟩ := refused role name _ ⟨takes, hoperands ▸ hsub⟩ undeclared
        rw [hnone] at hseen
        obtain rfl := List.prefix_nil.mp hseen
        cases hm
      | font flows => exact hknows.holds_iff.mp (hfont flows)
    obtain rfl := hknows.apart name role role' (hknows.holds_iff.mpr hdeclared) hgrants.holds
    obtain ⟨t, ht, hg⟩ := hknows.grants hgrants
    exact ⟨operands, name, hsub, huses, t, ht, e, he, hg⟩

end Turn

/-- Only operations write operators and their operands. -/
theorem ensures_quiet {t : Statement} (plain : ∀ o, t ≠ .graphics o) (c : Recorder φ ω) :
    (statement env.recorded t).Ensures c
      (fun _ c' => ∃ es, c'.events = c.events ++ es ∧ ∀ e ∈ es, ¬ e.call.Writes)
      fun _ c' => ∃ es, c'.events = c.events ++ es ∧ ∀ e ∈ es, ¬ e.call.Writes := by
  refine ensures_bind.mpr (ensures_modify.mpr ?_)
  have none {c' : Recorder φ ω} (h : c'.world = c.world) :
      ∃ es, c'.events = c.events ++ es ∧ ∀ e ∈ es, ¬ e.call.Writes :=
    ⟨[], by rw [List.append_nil, events, events, h], by simp⟩
  have one {c' : Recorder φ ω} (h : c'.world = c.world) (w : ω) (e : Event φ)
      (hq : ¬ e.call.Writes) :
      ∃ es, (c'.record w e).events = c.events ++ es ∧ ∀ e ∈ es, ¬ e.call.Writes :=
    ⟨[e], by rw [events_record, events, events, h], by simpa using hq⟩
  cases t with
  | declaration d =>
    cases d with
    | resource | color | pattern => exact none rfl
    | «variable» x kind v =>
      simp only [declare, ensures_bind, ensures_get, ensures_ofExcept, ensures_modify]
      exact ⟨fun _ _ => none rfl, fun _ _ => none rfl⟩
  | graphics o => exact absurd rfl (plain o)
  | page size =>
    refine ensures_bind.mpr (ensures_modify.mpr (ensures_call env (fun _ w => ?_) fun _ w => ?_)) <;>
      exact one rfl w _ id
  | endPage =>
    simp only [move, ensures_bind, ensures_get, ensures_ofExcept, ensures_modify]
    refine ⟨fun next _ => ensures_call env (fun _ w => ?_) fun _ w => ?_, fun _ _ => none rfl⟩ <;>
      exact one rfl w _ id

/-- Behind some statements of the script all names have been written in turns. -/
theorem mem_turn_of_statements {ts : List Statement}
    {rest : List (Except StatementError Statement)}
    (script : (Reader.ofLexer lx).document = ts.map .ok ++ rest) {p : Operator × String}
    (hp : p ∈ writtenNames
      ((ts.forM (statement env.recorded)).run (fresh overrides world)).2.calls) :
    ∃ turn : Turn env overrides world lx, p ∈ writtenNames (turn.events.map Event.call) := by
  induction ts using List.reverseRecOn generalizing rest with
  | nil => cases hp
  | append_singleton ts t ih =>
    have script' : (Reader.ofLexer lx).document = ts.map .ok ++ .ok t :: rest := by
      rw [script, List.map_append, List.append_assoc]
      rfl
    rw [run_forM_concat] at hp
    rcases hrun : (ts.forM (statement env.recorded)).run (fresh overrides world) with ⟨e | _, c⟩
    · rw [hrun] at ih hp
      exact ih script' hp
    · rw [hrun] at ih hp
      obtain ⟨s, hlegal, -⟩ := Reader.document_legal (Reader.behind_ofLexer lx)
      rw [script', Reader.statements_append] at hlegal
      obtain ⟨s₁, hdone, -⟩ := hlegal.of_append
      have hclosed : c.calls.foldl operandsAfter [] = [] := (ready_of_converted hdone hrun).closed
      -- The names written behind the statement are those before it and its own.
      have split {es : List (Event φ)} (he : ((statement env.recorded t).run c).2.events =
          c.events ++ es) (hp : p ∈ writtenNames ((statement env.recorded t).run c).2.calls) :
          p ∈ writtenNames c.calls ∨ p ∈ writtenNames (es.map Event.call) := by
        rw [calls, he, List.map_append, writtenNames, namesBehind_append] at hp
        exact (List.mem_append.mp hp).imp_right fun h => by rwa [← calls, hclosed] at h
      by_cases ht : ∃ o, t = .graphics o
      · obtain ⟨o, rfl⟩ := ht
        let turn : Turn env overrides world lx := ⟨ts, o, rest, c, script', hrun⟩
        exact (split turn.outcome_events.1 hp).elim (ih script') fun h => ⟨turn, h⟩
      · obtain ⟨es, he, hq⟩ := (ensures_quiet (not_exists.mp ht) c).state
        rcases split he hp with h | h
        · exact ih script' h
        · rw [writtenNames, (namesBehind_quiet [] (by simpa using hq)).1] at h
          cases h

/-- The conversion writes all names in its turns. A turn keeps to the roles of the names if and only
if it does not slip. -/
theorem keeps_roles_unless_slips (env : Environment φ ω) (overrides : Overrides) (world : ω)
    (lx : Lexer) :
    (∀ p ∈ writtenNames
        (document env.recorded (fresh overrides world) (Reader.ofLexer lx)).2.calls,
      ∃ turn : Turn env overrides world lx, p ∈ writtenNames (turn.events.map Event.call)) ∧
      ∀ turn : Turn env overrides world lx, turn.KeepsRoles ↔ ¬ turn.Slips := by
  refine ⟨fun p hp => ?_, fun turn => Turn.keepsRoles_iff⟩
  obtain ⟨rest, script, -⟩ := (Reader.ofLexer lx).document_eq
  refine mem_turn_of_statements script ?_
  rcases document_calls env (Reader.ofLexer lx) rfl with h | h
  · rwa [h] at hp
  · rw [h, writtenNames, namesBehind_append] at hp
    exact (List.mem_append.mp hp).elim id (by simp [namesBehind])

set_option maxRecDepth 100000 in
/-- An image that has been drawn can be painted with as a pattern. -/
theorem image_as_pattern :
    let r := Reader.ofLexer
      (Lexer.ofBytes "# resource /A /Image (a)\n# page /A4\n/A Do\n/A sh\n".toUTF8.toList)
    let run := document (Environment.willing (FixedWidthFont.monospace 500 0)).recorded
      (fresh ∅ ()) r
    ¬ Role.pattern.DeclaredIn (Reader.statements r.document) "/A" ∧
      run.1.toOption = some ⟨5, 1, 0⟩ ∧
      writtenNames run.2.calls = [(.paintXObject, "/I"), (.shade, "/I")] ∧
      run.2.events.filterMap Event.grant? = [(.image, "/A", "/I")] := by
  decide +kernel

end Conversion

end PageScript
