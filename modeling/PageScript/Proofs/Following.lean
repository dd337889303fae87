import PageScript.Conversion.Document
import PageScript.Proofs.Output
import PageScript.Proofs.Performing
import PageScript.Proofs.Scope

/-!
# The converter follows the reader

A converter that has come to a scope can convert every statement that may stand there, as far as
contexts go, and comes to the scope behind it. All that it writes on the way may be written.
-/
namespace PageScript

open Step Converter

variable {φ ω : Type}

/-- A value put for a variable is of its kind, so that the value as a whole keeps its kind. -/
theorem Value.kind_substitute {bindings : Table Value} {v w : Value}
    (h : v.substitute bindings = .ok w)
    (hv : ∀ x kind, v = .variable x kind → ∃ u, bindings.find? x = some u ∧ u.kind = kind) :
    w.kind = v.kind := by
  cases v with
  | «variable» x kind =>
    obtain ⟨u, hu, hk⟩ := hv x kind rfl
    rw [substitute, hu] at h
    cases h
    exact hk
  | array items =>
    rw [substitute] at h
    cases hi : substituteItems bindings items with
    | ok items' => rw [hi] at h; cases h; rfl
    | error e => rw [hi] at h; cases h
  | dictionary d =>
    rw [substitute] at h
    cases he : substituteEntries bindings d.sorted with
    | ok entries => rw [he] at h; cases h; rfl
    | error e => rw [he] at h; cases h
  | number | string | boolean | name | keyword => cases h; rfl

theorem Accepts.substitute {bindings : Table Value} {signature : List ValueKind}
    {operands values : List Value} (h : Value.substituteItems bindings operands = .ok values)
    (ha : Accepts signature operands)
    (hv : ∀ x kind, .variable x (some kind) ∈ operands →
      ∃ u, bindings.find? x = some u ∧ u.kind = some kind) :
    Accepts signature values := by
  induction operands generalizing signature values with
  | nil =>
    cases h
    exact ha
  | cons v operands ih =>
    rw [Value.substituteItems] at h
    cases hw : v.substitute bindings with
    | error e => rw [hw] at h; cases h
    | ok w =>
      cases hr : Value.substituteItems bindings operands with
      | error e => rw [hw, hr] at h; cases h
      | ok rest =>
        rw [hw, hr] at h
        cases h
        cases signature with
        | nil => cases ha
        | cons kind signature =>
          obtain ⟨_, _, hc, hk, ha⟩ := accepts_cons.mp ha
          cases hc
          refine accepts_cons.mpr ⟨w, rest, rfl, ?_, ih hr ha fun x k hm => ?_⟩
          · rw [Value.kind_substitute hw, hk]
            rintro x _ rfl
            obtain rfl : _ = some kind := hk
            exact hv x kind List.mem_cons_self
          · exact hv x k (List.mem_cons_of_mem _ hm)

namespace Converter

/-- The converter has come to a scope: it is in the same context, and each variable declared so far
has a value of its kind. -/
structure Follows (c : Converter φ ω) (s : Scope) : Prop where
  context : c.context = s.context
  bound : ∀ x kind, s.kinds.find? x = some kind →
    ∃ v, c.bindings.find? x = some v ∧ v.kind = some kind

theorem follows_fresh (overrides : Overrides) (world : ω) :
    (fresh overrides world : Recorder φ ω).Follows {} :=
  ⟨rfl, by simp⟩

/-- The calls made so far may follow each other, and come to an output. -/
def Shows (c : Recorder φ ω) (o : Output) : Prop := Output.replay {} c.calls = some o

def output (c : Converter φ ω) : Output := ⟨c.context, c.context, [], c.report.pages⟩

variable {c c' : Recorder φ ω} {o o' : Output}

theorem Shows.record {e : Event φ} (w : ω) (h : c.Shows o) (he : o.after? e.call = some o') :
    (c.record w e).Shows o' := by
  rw [Shows, calls_record]
  exact Output.replay_then h (by simp [Output.replay_cons, he])

theorem Shows.sent {ks : List Call} (h : c.Shows o) (hk : o.replay ks = some o')
    (hs : c.Sent ks c') : c'.Shows o' := by
  rw [Shows, hs.calls_eq]
  exact Output.replay_then h hk

theorem Shows.of_world (h : c.Shows o) (hw : c'.world = c.world) : c'.Shows o := by
  rwa [Shows, calls, events, hw]

theorem Shows.asked (h : c.Shows o) (ha : c.Asked c') : c'.Shows o := by
  obtain ⟨es, he, hasks⟩ := ha.events
  rw [Shows, calls, he, List.map_append]
  exact Output.replay_then h (Output.replay_asks o (by simpa using hasks))

end Converter

/-- Objects are announced so that they agree with the operators again behind the operation. -/
theorem Context.replay_announced {before after : Context} {op : Operator}
    (h : before.accept op = .ok after) (pages : Nat) :
    ∃ objects, Output.replay ⟨before, before, [], pages⟩ (before.opening after) =
        some ⟨objects, before, [], pages⟩ ∧
      Output.replay ⟨objects, after, [], pages⟩ (before.closing after) =
        some ⟨after, after, [], pages⟩ ∧ (before = after → objects = before) := by
  obtain ⟨-, rfl⟩ := accept_eq_ok h
  cases before <;> rcases op.rule.transition with _ | _ | _ | _ | _ <;>
    exact ⟨_, rfl, rfl, fun h => by cases h <;> rfl⟩

namespace Conversion

variable {env : Environment φ ω} {c c' : Recorder φ ω} {s s' : Scope}

def Stopped (e : ScriptError) (c : Recorder φ ω) : Prop :=
  (e.OfContext → c.Failed e) ∧ ∃ o, c.Shows o

/-- A declared variable gets a value of its kind, whether or not one was given. -/
theorem initialValue_kind {overrides : Overrides} {x : String} {kind : ValueKind} {v w : Value}
    (h : initialValue overrides x kind v = .ok w) (hv : v.kind = some kind) :
    w.kind = some kind := by
  unfold initialValue at h
  split at h
  · cases h
    exact hv
  · split at h
    · next hk => cases h; exact hk
    · cases h

theorem plain_initialValue (overrides : Overrides) (x : String) (kind : ValueKind) (v : Value) :
    Plain (initialValue overrides x kind v) := by
  unfold initialValue
  split
  · exact .ok _
  · split
    · exact .ok _
    · exact .error id

/-- A new declaration enters the tables of the converter, and nothing is called. -/
theorem ensures_declare {d : Declaration} (new : d.New s.kinds s.names) (hf : c.Follows s) :
    (declare d).Ensures c
      (fun _ c' => c'.Follows (s.entering d) ∧ c'.world = c.world ∧ c'.report = c.report)
      fun e c' => ¬ e.OfContext ∧ c'.world = c.world := by
  cases d with
  | resource | color | pattern => exact ⟨⟨hf.context, hf.bound⟩, rfl, rfl⟩
  | «variable» x kind v =>
    obtain ⟨-, type, rfl, hv⟩ := new
    simp only [declare, ensures_bind, ensures_get, ensures_ofExcept, ensures_modify]
    refine ⟨fun w hw => ⟨⟨hf.context, fun y k hk => ?_⟩, trivial, trivial⟩,
      fun e he => ⟨plain_initialValue _ _ _ _ e he, trivial⟩⟩
    have hkind := initialValue_kind hw hv.kind_eq
    simp only [Scope.entering, Declaration.addKind, Table.find?_insert] at hk ⊢
    by_cases hy : y = x
    · rw [if_pos hy] at hk ⊢
      exact ⟨w, rfl, hkind.trans hk⟩
    · rw [if_neg hy] at hk ⊢
      exact hf.bound y k hk

/-- The operands of an operation are still accepted when their variables have been replaced. -/
theorem accepted_substitute {o : Operation} (resolved : ∀ v ∈ o.operands, v.Resolved s.kinds)
    (hf : c.Follows s) {operands : List Value}
    (h : Value.substituteItems c.bindings o.operands = .ok operands) :
    ∃ signature ∈ o.operator.signatures, Accepts signature operands := by
  obtain ⟨signature, hs, ha⟩ := o.accepted
  exact ⟨signature, hs, ha.substitute h fun x kind hm => hf.bound x kind (resolved _ hm)⟩

variable [FontMetrics φ Float32]

theorem ensures_graphics {o : Operation} {next : Context}
    (accepted : s.context.accept o.operator = .ok next)
    (resolved : ∀ v ∈ o.operands, v.Resolved s.kinds) (hf : c.Follows s) (hs : c.Shows c.output) :
    (operation env.recorded o).Ensures c
      (fun _ c' => c'.Follows { s with context := next } ∧ c'.Shows c'.output) Stopped := by
  have hn : c.context.accept o.operator = .ok next := hf.context ▸ accepted
  have hoperands {operands : List Value}
      (h : Value.substituteItems c.bindings o.operands = .ok operands) :=
    accepted_substitute resolved hf h
  obtain ⟨objects, hopen, hclose, hsame⟩ := Context.replay_announced hn c.report.pages
  have hflow : o.operator = .flowText → objects = .page := fun h => by
    obtain ⟨hb, ha⟩ := Context.eq_page_of_accept (by rw [h]; rfl) (by rw [h]; rfl) hn
    rw [hsame (hb.trans ha.symm), hb]
  -- Either way the calls come to an output; a whole operation comes to that of its context.
  have hfull {c₁ : Recorder φ ω} {operands : List Value} {full : List Call}
      (hsub : Value.substituteItems c.bindings o.operands = .ok operands)
      (hx : Expansion c₁ o.operator operands full) :
      Output.replay ⟨objects, c.context, [], c.report.pages⟩ (full ++ c.context.closing next) =
        some ⟨next, next, [], c.report.pages⟩ :=
    Output.replay_then (hx.replay (hoperands hsub) hn hflow _) hclose
  have hs₀ : ({ c with context := next } : Recorder φ ω).Shows c.output := hs
  refine (ensures_operation (fun _ => hoperands) hn).mono ?_ ?_
  · intro _ c' hp
    have hc' := hp.same
    obtain ⟨operands, c₀, c₁, ks, hsub, h₀, ha, ⟨full, hx, rfl⟩, h₁⟩ := hp
    refine ⟨by rw [hc']; exact ⟨rfl, hf.bound⟩, ?_⟩
    have := ((hs₀.sent hopen h₀).asked ha).sent (hfull hsub hx) h₁
    rw [hc'] at this ⊢
    exact this
  · rintro e c' ⟨he, rfl | ⟨first, hfirst, operands, c₀, c₁, ks, hsub, h₀, ha, hk, h₁⟩⟩
    · exact ⟨he, _, hs⟩
    · refine ⟨he, ?_⟩
      rcases hk with rfl | ⟨rfl, full, hx, hk⟩
      · obtain ⟨o', ho'⟩ := Output.replay_prefix hopen hfirst
        exact ⟨o', ((hs₀.sent ho' h₀).asked ha).sent rfl h₁⟩
      · obtain ⟨o', ho'⟩ := Output.replay_prefix (hfull hsub hx) hk
        exact ⟨o', ((hs₀.sent hopen h₀).asked ha).sent ho' h₁⟩

/-- A statement that may stand in the scope is converted, or fails for no reason of contexts. -/
theorem ensures_statement {t : Statement} (h : s.Leads t s') (hf : c.Follows s)
    (hs : c.Shows c.output) :
    (statement env.recorded t).Ensures c
      (fun _ c' => c'.Follows s' ∧ c'.Shows c'.output) Stopped := by
  refine ensures_bind.mpr (ensures_modify.mpr ?_)
  generalize hc₀ : ({ c with report.statements := c.report.statements + 1 } : Recorder φ ω) = c₀
  have hf₀ : c₀.Follows s := by rw [← hc₀]; exact ⟨hf.context, hf.bound⟩
  have hs₀ : c₀.Shows c₀.output := by rw [← hc₀]; exact hs
  cases h with
  | declaration new =>
    refine (ensures_declare new hf₀).mono ?_ ?_
    · rintro _ c' ⟨hf', hw, hr⟩
      refine ⟨hf', ?_⟩
      have houtput : c'.output = c₀.output := by
        have hcontext : c'.context = c₀.context := hf'.context.trans hf₀.context.symm
        rw [output, output, hcontext, hr]
      exact houtput ▸ hs₀.of_world hw
    · rintro e c' ⟨he, hw⟩
      exact ⟨fun h => absurd h he, _, hs₀.of_world hw⟩
  | graphics accepted resolved => exact ensures_graphics accepted resolved hf₀ hs₀
  | @page size level =>
    have hcontext : c₀.context = .outside := hf₀.context.trans level
    rw [output, hcontext] at hs₀
    have hafter : Output.after? ⟨.outside, .outside, [], c₀.report.pages⟩ (.beginPage size) =
        some ⟨.page, .page, [], c₀.report.pages + 1⟩ := rfl
    refine ensures_bind.mpr (ensures_modify.mpr (ensures_call env (fun _ w => ?_) fun e w => ?_))
    · exact ⟨⟨rfl, hf₀.bound⟩, (hs₀.of_world rfl).record w hafter⟩
    · exact ⟨fun _ => .record _ w _ e, _, (hs₀.of_world rfl).record w hafter⟩
  | endPage level =>
    have hcontext : c₀.context = .page := hf₀.context.trans level
    rw [output, hcontext] at hs₀
    have hafter : Output.after? ⟨.page, .page, [], c₀.report.pages⟩ .endPage =
        some ⟨.outside, .outside, [], c₀.report.pages⟩ := rfl
    simp only [move, ensures_bind, ensures_get, ensures_ofExcept, ensures_modify, hcontext]
    refine ⟨fun next hn => ?_, fun e he => by cases he⟩
    cases hn
    refine ensures_call env (fun _ w => ?_) fun e w => ?_
    · exact ⟨⟨rfl, hf₀.bound⟩, (hs₀.of_world rfl).record w hafter⟩
    · exact ⟨fun _ => .record _ w _ e, _, (hs₀.of_world rfl).record w hafter⟩

end Conversion

end PageScript
