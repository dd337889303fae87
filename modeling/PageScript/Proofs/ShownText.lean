import PageScript.Proofs.TextStyle
import PageScript.Proofs.Turns

/-!
# The text that flows show

A flow sets what it does not take for granted. Whether its text is shown in the style in which it
has been measured depends on what the script has set on the page before.
-/
namespace PageScript

open Step Converter Conversion

variable {φ ω : Type}

namespace Typesetter

theorem operands_perform (t : Typesetter) (op : Operator) (values : List Value) :
    (t.perform op values).operands = [] := by
  unfold perform
  split <;> rfl

theorem operands_replay (t : Typesetter) (calls : List Call) :
    (t.replay calls).operands = calls.foldl operandsAfter t.operands := by
  induction calls generalizing t with
  | nil => rfl
  | cons k calls ih =>
    have hk : (t.after k).operands = operandsAfter t.operands k := by
      cases k with
      | operator op => exact operands_perform t op t.operands
      | _ => rfl
    rw [replay, List.foldl_cons, List.foldl_cons, ← hk]
    exact ih (t.after k)

end Typesetter

variable [FontMetrics φ Float32] {env : Environment φ ω}

namespace Conversion

theorem LaysOut.sent {c c' : Recorder φ ω} {ks : List Call} {operands : List Value}
    {options : FlowOptions Float32} {lines : List (Line (LoadedFont φ) Float32)}
    (h : LaysOut c operands options lines) (hs : c.Sent ks c') :
    LaysOut c' operands options lines := by
  rw [hs.1]
  exact h.imp fun _ _ hl => hl

/-- A text flow has asked, and then shown the lines of its operands. If it is not done it has shown
a part of them at most. -/
def Flowed (c : Recorder φ ω) (o : Operation) (done : Prop) (c' : Recorder φ ω) : Prop :=
  ∃ asked ks, c'.calls = c.calls ++ (asked ++ ks) ∧ (∀ k ∈ asked, k.Asks) ∧
    (¬ done ∧ ks = [] ∨ ∃ operands options lines,
      Value.substituteItems c.bindings o.operands = .ok operands ∧
        LaysOut c' operands options lines ∧ ks <+: linesCalls options lines ∧
          (done → ks = linesCalls options lines))

variable {c c₁ c' : Recorder φ ω} {o : Operation}

theorem flowed_of_sent {ks : List Call} {done : Prop} (ha : c.Asked c₁) (hs : c₁.Sent ks c')
    (h : ¬ done ∧ ks = [] ∨ ∃ operands options lines,
      Value.substituteItems c.bindings o.operands = .ok operands ∧
        LaysOut c₁ operands options lines ∧ ks <+: linesCalls options lines ∧
          (done → ks = linesCalls options lines)) : Flowed c o done c' := by
  obtain ⟨asked, hasked, hasks⟩ := ha.calls
  refine ⟨asked, ks, by rw [hs.calls_eq, hasked, List.append_assoc], hasks, ?_⟩
  exact h.imp_right fun ⟨operands, options, lines, hsub, laid, hp⟩ =>
    ⟨operands, options, lines, hsub, laid.sent hs, hp⟩

theorem ensures_flowed {next : Context} (flows : o.operator = .flowText)
    (accepted : ∀ operands, Value.substituteItems c.bindings o.operands = .ok operands →
      ∃ signature ∈ o.operator.signatures, Accepts signature operands)
    (hn : c.context.accept o.operator = .ok next) :
    (operation env.recorded o).Ensures c (fun _ => Flowed c o True) fun _ => Flowed c o False := by
  cases hsub : Value.substituteItems c.bindings o.operands with
  | error e =>
    rw [operation_eq]
    simp only [ensures_bind, ensures_get, ensures_ofExcept, hsub]
    refine ⟨fun _ h => ?_, fun _ _ => ?_⟩
    · cases h
    · exact flowed_of_sent (.refl c) (.refl c) (.inl ⟨id, rfl⟩)
  | ok operands =>
    refine ensures_operation_still (by rw [flows]; rfl) hn hsub ?_
    have ha := accepted operands hsub
    rw [flows] at ha ⊢
    obtain ⟨array, left, bottom, width, height, rest, rfl⟩ := flowText_operands ha
    refine (expands_flow array left bottom width height rest).mono ?_ ?_
    · rintro _ c' ⟨c₁, ks, hasked, ⟨options, lines, laid, rfl⟩, hs⟩
      exact flowed_of_sent hasked hs
        (.inr ⟨_, options, lines, hsub, laid, List.prefix_refl _, fun _ => rfl⟩)
    · rintro e c' ⟨-, c₁, ks, hasked, hs, rfl | ⟨full, ⟨options, lines, laid, rfl⟩, hp⟩⟩
      · exact flowed_of_sent hasked hs (.inl ⟨id, rfl⟩)
      · exact flowed_of_sent hasked hs (.inr ⟨_, options, lines, hsub, laid, hp, False.elim⟩)

namespace Turn

variable {overrides : Overrides} {world : ω} {lx : Lexer} (turn : Turn env overrides world lx)

/-- The page that the turn finds. -/
def page : Typesetter := Typesetter.replay {} turn.before.calls

/-- What the turn shows on its page. -/
def shown : List (TextStyle × List Value) := turn.page.shown (turn.events.map Event.call)

/-- The operands of the turn have been laid out into lines. -/
def LaysOut (options : FlowOptions Float32) (lines : List (Line (LoadedFont φ) Float32)) : Prop :=
  ∃ operands, turn.operands = .ok operands ∧
    Conversion.LaysOut turn.outcome.2 operands options lines

/-- Nothing waits for an operator where a turn begins. -/
theorem page_eq : turn.page = ⟨turn.page.style, turn.page.saved, []⟩ := by
  obtain ⟨s, -, hready, -⟩ := turn.ready
  have hclosed : turn.page.operands = [] := by
    rw [page, Typesetter.operands_replay]
    exact hready.closed
  rw [← hclosed]

theorem map_events {ks : List Call} (h : turn.outcome.2.calls = turn.before.calls ++ ks) :
    turn.events.map Event.call = ks := by
  have hlen : turn.before.events.length = turn.before.calls.length := by simp [calls]
  rw [events, List.map_drop, hlen]
  exact (congrArg _ h).trans List.drop_left

theorem flowed (flows : turn.operation.operator = .flowText) :
    Flowed turn.before turn.operation (turn.outcome.1 = .ok ()) turn.outcome.2 := by
  obtain ⟨next, hn, haccepted⟩ := turn.accepted
  have h := turn.ensures_outcome (ensures_flowed flows haccepted hn)
  cases hr : turn.outcome.1 with
  | ok =>
    have hflowed : Flowed turn.before turn.operation True turn.outcome.2 :=
      h.ok (Prod.ext hr rfl : _ = (Except.ok (), turn.outcome.2))
    simpa using hflowed
  | error e =>
    have hflowed : Flowed turn.before turn.operation False turn.outcome.2 :=
      h.error (Prod.ext hr rfl : _ = (Except.error e, turn.outcome.2))
    simpa using hflowed

/-- What a flow shows is what its lines come to on the page that it finds, or the beginning of it
where the flow is not done. The page is left as it was found. -/
theorem shown_of_flow (flows : turn.operation.operator = .flowText) :
    (turn.outcome.1 = .ok () → Typesetter.replay {} turn.outcome.2.calls = turn.page) ∧
      (turn.outcome.1 = .ok () ∨ turn.shown ≠ [] → ∃ options lines, turn.LaysOut options lines ∧
        turn.shown <+: sightsFrom (turn.page.style.forFlow options) {} (lines.flatMap Line.spans) ∧
          (turn.outcome.1 = .ok () →
            turn.shown = sightsFrom (turn.page.style.forFlow options) {}
              (lines.flatMap Line.spans))) := by
  obtain ⟨asked, ks, hcalls, hasks, hks⟩ := turn.flowed flows
  have hquiet := Typesetter.quiet (t := turn.page) fun k hk =>
    Typesetter.after_of_asks (hasks k hk)
  have hshown : turn.shown = turn.page.shown ks := by
    rw [shown, turn.map_events hcalls, Typesetter.shown_append, hquiet.1, hquiet.2, List.nil_append]
  have hreplay : Typesetter.replay {} turn.outcome.2.calls = turn.page.replay ks := by
    rw [hcalls, Typesetter.replay_append, Typesetter.replay_append]
    exact congrArg (Typesetter.replay · ks) hquiet.1
  -- What has been asked for shows nothing, so the lines begin on the page that the turn finds.
  rcases hks with ⟨failed, rfl⟩ | ⟨operands, options, lines, hsub, laid, hp, hdone⟩
  · refine ⟨fun done => absurd done failed, fun h => absurd hshown (h.resolve_left failed)⟩
  · have hsets := sets_linesCalls turn.page.saved turn.page.style options lines
    refine ⟨fun done => ?_, fun _ => ⟨options, lines, ⟨operands, hsub, laid⟩, ?_, fun done => ?_⟩⟩
    · rw [hreplay, hdone done, turn.page_eq, hsets.replay]
    · rw [hshown, turn.page_eq, ← hsets.shown]
      exact Typesetter.shown_prefix hp
    · rw [hshown, hdone done, turn.page_eq, ← hsets.shown]

end Turn

/-- A flow leaves the page in the style that it has found. Each string that it shows is that of a
line span, in the font of the span, and in the style in which it has been measured if and only if
nothing is set on the page that the flow takes for not set. -/
theorem flows_shown (env : Environment φ ω) (overrides : Overrides) (world : ω) (lx : Lexer) :
    (∀ turn : Turn env overrides world lx, turn.operation.operator = .flowText →
      turn.outcome.1 = .ok () → Typesetter.replay {} turn.outcome.2.calls = turn.page) ∧
    ∀ turn : Turn env overrides world lx, turn.operation.operator = .flowText →
      turn.outcome.1 = .ok () ∨ turn.shown ≠ [] →
        ∃ options lines, turn.LaysOut options lines ∧
          (turn.outcome.1 = .ok () → turn.shown.length = (lines.flatMap Line.spans).length) ∧
            ∀ i p, turn.shown[i]? = some p → ∃ s, (lines.flatMap Line.spans)[i]? = some s ∧
              p.2 = [.string (Latin1.encode s.text)] ∧ p.1.HasFont s ∧
                (p.1.Measures options s ↔
                  turn.page.style.Clear options ((lines.flatMap Line.spans).take (i + 1))) := by
  refine ⟨fun turn flows => (turn.shown_of_flow flows).1, fun turn flows h => ?_⟩
  obtain ⟨options, lines, laid, hp, hdone⟩ := (turn.shown_of_flow flows).2 h
  refine ⟨options, lines, laid, fun done => ?_, fun i p hi => ?_⟩
  · rw [hdone done, length_sightsFrom]
  · obtain ⟨rest, hrest⟩ := hp
    refine TextStyle.measures_iff ?_
    rw [← hrest, List.getElem?_append_left (List.getElem?_eq_some_iff.mp hi).1, hi]

/-- The numbers that the character spacing is where the turn shows strings. -/
def Turn.spacings {overrides : Overrides} {world : ω} {lx : Lexer}
    (turn : Turn env overrides world lx) : List (Option Float32) :=
  turn.shown.map fun p =>
    match p.1.charSpacing with
    | .number n => some n
    | _ => none

theorem Turn.exists_shown_of_mem {overrides : Overrides} {world : ω} {lx : Lexer}
    {turn : Turn env overrides world lx} {n : Float32} (h : some n ∈ turn.spacings) :
    ∃ p ∈ turn.shown, p.1.charSpacing = .number n := by
  obtain ⟨p, hp, hn⟩ := List.mem_map.mp h
  split at hn
  · next m hm => exact ⟨p, hp, by rw [hm, Option.some.inj hn]⟩
  · cases hn

set_option maxRecDepth 100000 in
/-- A flow that does not set a character spacing shows its text with that of the page. -/
theorem flow_spaced :
    let env := Environment.willing (FixedWidthFont.monospace 500 0)
    let lx := Lexer.ofBytes
      "# resource /F /Font (f)\n# page /A4\n5 Tc\n[(a) /F 10] 0 0 100 100 ft\n".toUTF8.toList
    ∃ turn : Turn env ∅ () lx, turn.operation.operator = .flowText ∧ turn.outcome.1 = .ok () ∧
      ∃ lines, turn.LaysOut .standard lines ∧ ∃ i : Nat, ∃ p s, turn.shown[i]? = some p ∧
        (lines.flatMap Line.spans)[i]? = some s ∧ ¬ p.1.Measures .standard s := by
  intro env lx
  have hturn : (turnAt? env ∅ () lx 3).map (fun turn => (turn.operation.operator,
      turn.outcome.1.toOption, turn.operands.toOption.map List.length, turn.spacings)) =
        some (.flowText, some (), some 5, [some 5]) := by
    decide +kernel
  obtain ⟨turn, -, hturn⟩ := Option.map_eq_some_iff.mp hturn
  simp only [Prod.mk.injEq] at hturn
  obtain ⟨flows, hdone, hlength, hspacings⟩ := hturn
  have done : turn.outcome.1 = .ok () := by
    cases hr : turn.outcome.1 with
    | ok => rfl
    | error e =>
      rw [hr] at hdone
      cases hdone
  obtain ⟨options, lines, ⟨operands, hsub, laid⟩, -, hshown⟩ :=
    (turn.shown_of_flow flows).2 (.inl done)
  obtain rfl : options = .standard := by
    rw [hsub] at hlength
    cases laid with
    | @intro items rest _ _ _ _ _ _ read given =>
      obtain rfl : rest = [] := by simpa [Except.toOption] using hlength
      cases given
      rfl
  obtain ⟨p, hp, hn⟩ := turn.exists_shown_of_mem (hspacings ▸ List.mem_singleton_self (some 5))
  obtain ⟨i, hi⟩ := List.getElem?_of_mem hp
  obtain ⟨s, hs, -⟩ := TextStyle.measures_iff (hshown done ▸ hi)
  refine ⟨turn, flows, done, lines, ⟨operands, hsub, laid⟩, i, p, s, hi, hs, fun hm => ?_⟩
  obtain ⟨m, hm, h⟩ := hn ▸ hm.charSpacing
  cases hm
  revert h
  decide +kernel

end Conversion

end PageScript
