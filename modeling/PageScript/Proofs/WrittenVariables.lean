import PageScript.Proofs.Bindings

/-!
# Variables that are written

An operation writes operands that it has been given, with their variables replaced, and others that
it makes up itself. Variables are among them only if they have been given for others.
-/
namespace PageScript

open Step Converter

variable {φ ω : Type}

/-- The operands among the calls are given ones, or have no variables in them. -/
def Quotes (given : List Value) (calls : List Call) : Prop :=
  ∀ v, .operand v ∈ calls → v ∈ given ∨ v.Concrete

namespace Quotes

open Conversion

variable {given : List Value} {calls more : List Call}

theorem append (h : Quotes given calls) (h' : Quotes given more) : Quotes given (calls ++ more) :=
  fun v hv => (List.mem_append.mp hv).elim (h v) (h' v)

theorem quiet (h : ∀ k ∈ calls, ¬ k.Writes) : Quotes given calls :=
  fun v hv => absurd trivial (h (.operand v) hv)

theorem skipped (skip : Bool) (h : Quotes given calls) :
    Quotes given (if skip then [] else calls) := by
  cases skip
  · exact h
  · exact nofun

theorem written {op : Operator} {operands : List Value}
    (h : ∀ v ∈ operands, v ∈ given ∨ v.Concrete) :
    Quotes given (Conversion.written op operands) := by
  intro v hv
  simp only [Conversion.written, List.mem_append, List.mem_map, List.mem_singleton] at hv
  rcases hv with ⟨w, hw, he⟩ | he
  · cases he
    exact h v hw
  · cases he

theorem concrete {op : Operator} {operands : List Value} (h : ∀ v ∈ operands, v.Concrete) :
    Quotes given (Conversion.written op operands) :=
  written fun v hv => .inr (h v hv)

theorem spansCalls (t : TextState) (spans : List (LineSpan (LoadedFont φ) Float32)) :
    Quotes given (spansCalls t spans) := by
  induction spans generalizing t with
  | nil => exact nofun
  | cons s spans ih =>
    refine append ?_ (ih _)
    exact append (skipped _ (concrete (by simp))) <| append (skipped _ (concrete (by simp))) <|
      append (concrete (by simp)) (concrete (by simp))

theorem linesCalls (options : FlowOptions Float32) (lines : List (Line (LoadedFont φ) Float32)) :
    Quotes given (linesCalls options lines) := by
  have announced {k : Call} (hk : ¬ k.Writes) {calls : List Call} (hc : Quotes given calls) :
      Quotes given (k :: calls) := by
    have hself : Quotes given [k] := quiet (by simpa using hk)
    exact hself.append hc
  have text : Quotes given (textCalls options lines) :=
    append (skipped _ (concrete (by simp))) <| append (skipped _ (concrete (by simp))) <|
      spansCalls {} _
  unfold Conversion.linesCalls
  split
  · exact nofun
  · exact append (concrete nofun) <| announced id <| append (concrete nofun) <| append text <|
      append (concrete nofun) <| announced id (concrete nofun)

end Quotes

/-- What an operation writes is quoted from its operands. -/
theorem Expansion.quotes {c : Recorder φ ω} {op : Operator} {operands : List Value}
    {calls : List Call} (h : Expansion c op operands calls) : Quotes operands calls := by
  cases h with
  | plain => exact .written fun v => .inl
  | named takes direct names found =>
    subst names
    refine .written (List.forall_mem_cons.mpr ⟨.inr (by simp), fun v hv => .inl ?_⟩)
    exact List.mem_cons_of_mem _ hv
  | image =>
    exact .append (.concrete nofun) <| .append (.concrete (by simp)) <|
      .append (.concrete (by simp)) (.concrete nofun)
  | color => exact .concrete (by simp)
  | pattern paints names found =>
    subst names
    refine .append (.concrete (by simp)) (.written (List.forall_mem_append.mpr ⟨fun v hv => ?_, ?_⟩))
    · exact .inl (List.mem_append_left _ hv)
    · simp
  | lines options => exact .linesCalls options _

/-- An operator with operands that are written as they are, whatever they are. -/
def Operator.Direct (op : Operator) : Prop :=
  op.role? = none ∧ op.paints? = none ∧ op ≠ .flowText

namespace Conversion

variable {env : Environment φ ω} {c c' : Recorder φ ω}

/-- What an operation has written so far, if it has written anything, is quoted from its operands. -/
def Quoted (c : Recorder φ ω) (o : Operation) (c' : Recorder φ ω) : Prop :=
  c'.events = c.events ∨ ∃ operands es, Value.substituteItems c.bindings o.operands = .ok operands ∧
    c'.events = c.events ++ es ∧ Quotes operands (es.map Event.call)

theorem Performed.quoted {o : Operation} {next : Context} {first : List Call}
    {P : Recorder φ ω → List Value → List Call → Prop} (hp : Performed c o next first P c')
    (hfirst : first <+: c.context.opening next)
    (hP : ∀ c₁ operands ks, P c₁ operands ks → ks = [] ∨
      ∃ full, Expansion c₁ o.operator operands full ∧ ks <+: full ++ c.context.closing next) :
    Quoted c o c' := by
  obtain ⟨operands, c₀, c₁, ks, hsub, ⟨-, es, he, rfl⟩, ha, hks, -, es₁, he₁, rfl⟩ := hp
  obtain ⟨asked, hasked, hasks⟩ := ha.events
  have announced := Context.announcement_quiet c.context next
  refine .inr ⟨operands, es ++ asked ++ es₁, hsub, ?_, ?_⟩
  · rw [he₁, hasked, he, List.append_assoc, List.append_assoc]
    simp [events]
  · simp only [List.map_append]
    refine .append (.append (.quiet fun k hk => ?_) (.quiet fun k hk => ?_)) ?_
    · exact (announced k (List.mem_append_left _ (hfirst.subset hk))).1
    · obtain ⟨e, he, rfl⟩ := List.mem_map.mp hk
      exact (hasks e he).not_writes
    · rcases hP c₁ operands _ hks with hn | ⟨full, hx, hk⟩
      · rw [hn]
        intro v hv
        cases hv
      · have hfull : Quotes operands (full ++ c.context.closing next) :=
          hx.quotes.append (.quiet fun k hk => (announced k (List.mem_append_right _ hk)).1)
        exact fun v hv => hfull v (hk.subset hv)

variable {overrides : Overrides} {world : ω} {lx : Lexer}

/-- A value of a type that variables can have mentions a variable only by being one. -/
theorem eq_variable_of_mentions {type : VariableType} {w : Value} {y : String}
    {kind : Option ValueKind} (hk : w.kind = some type.kind) (hm : w.Mentions y kind) :
    w = .variable y kind := by
  cases hm with
  | self => rfl
  | item => cases type <;> cases hk
  | entry => cases type <;> cases hk

theorem concrete_of_has {type : VariableType} {v : Value} (h : type.Has v) : v.Concrete :=
  fun x kind hm => Value.literal_of_has h x kind (eq_variable_of_mentions h.kind_eq hm)

variable [FontMetrics φ Float32]

namespace Turn

variable (turn : Turn env overrides world lx)

/-- The operation of a turn is performed as a whole, or stops on the way. -/
theorem ensures_performed : ∃ next,
    turn.before.context.accept turn.operation.operator = .ok next ∧
      (statement env.recorded (.graphics turn.operation)).Ensures turn.before
        (fun _ c' => Performed turn.counted turn.operation next (turn.before.context.opening next)
          (fun c₁ operands ks => ∃ full, Expansion c₁ turn.operation.operator operands full ∧
            ks = full ++ turn.before.context.closing next) c')
        fun _ c' => c' = turn.counted ∨ ∃ first, first <+: turn.before.context.opening next ∧
          Performed turn.counted turn.operation next first (fun c₁ operands ks => ks = [] ∨
            first = turn.before.context.opening next ∧
              ∃ full, Expansion c₁ turn.operation.operator operands full ∧
                ks <+: full ++ turn.before.context.closing next) c' := by
  obtain ⟨next, hn, haccepted⟩ := turn.accepted
  have hop : (Conversion.operation env.recorded turn.operation).Ensures turn.counted _ _ :=
    ensures_operation haccepted hn
  exact ⟨next, hn, turn.ensures_outcome (hop.mono (fun _ _ h => h) fun _ _ h => h.2)⟩

theorem quotes : turn.events = [] ∨ ∃ operands, turn.operands = .ok operands ∧
    Quotes operands (turn.events.map Event.call) := by
  obtain ⟨next, -, hop⟩ := turn.ensures_performed
  have course : Quoted turn.counted turn.operation turn.outcome.2 := by
    refine Ensures.state (p := Quoted turn.counted turn.operation) (hop.mono (fun _ c' hp => ?_) ?_)
    · exact hp.quoted (List.prefix_refl _) fun _ _ _ ⟨full, hx, hks⟩ =>
        .inr ⟨full, hx, hks ▸ List.prefix_refl _⟩
    · rintro e c' (rfl | ⟨first, hfirst, hp⟩)
      · exact .inl rfl
      · exact hp.quoted hfirst fun _ _ _ h =>
          h.imp_right fun ⟨_, full, hx, hks⟩ => ⟨full, hx, hks⟩
  rcases course with he | ⟨operands, es, hsub, he, hq⟩
  · left
    rw [events, he]
    exact List.drop_length
  · right
    have hes : turn.events = es := by
      rw [events, he]
      exact List.drop_left
    exact ⟨operands, hsub, hes ▸ hq⟩

/-- A variable among the operands that are left has been given for one that was there. -/
theorem given_of_mentions {operands : List Value} (h : turn.operands = .ok operands) {w : Value}
    (hw : w ∈ operands) {y : String} {kind : Option ValueKind} (hm : w.Mentions y kind) :
    ∃ v ∈ turn.operation.operands, ∃ x declared, v.Mentions x declared ∧
      overrides.get? x = some (.variable y kind) := by
  obtain ⟨v, hv, hs⟩ := Value.exists_of_mem_substituteItems h hw
  obtain ⟨x, declared, u, hx, hu, hy⟩ := Value.mentions_substitute v hs hm
  refine ⟨v, hv, x, declared, hx, ?_⟩
  obtain ⟨type, v₀, -, hv₀, hk, he⟩ := turn.binds.bound x u hu
  cases hg : overrides.get? x with
  | none =>
    rw [hg] at he
    obtain rfl : u = v₀ := he
    exact absurd hy (concrete_of_has hv₀ y kind)
  | some given =>
    rw [hg] at he
    obtain rfl : u = given := he
    rw [eq_variable_of_mentions hk hy]

theorem operand_given {operands : List Value} (h : turn.operands = .ok operands) {x : String}
    {kind : Option ValueKind} (hm : .variable x kind ∈ turn.operation.operands) {w : Value}
    (hg : overrides.get? x = some w) : w ∈ operands := by
  obtain ⟨w', hw', hs⟩ := Value.exists_of_mem_items h hm
  obtain ⟨u, hu, -⟩ := turn.operand_bound hm
  obtain ⟨type, v₀, -, -, -, he⟩ := turn.binds.bound x u hu
  rw [Value.substitute, hu] at hs
  rw [hg] at he
  cases hs
  obtain rfl : w' = w := he
  exact hw'

theorem written_of_direct (direct : turn.operation.operator.Direct)
    (done : turn.outcome.1 = .ok ()) : ∃ operands, turn.operands = .ok operands ∧
      ∀ v ∈ operands, .operand v ∈ turn.events.map Event.call := by
  obtain ⟨own, plain, whole⟩ := direct
  obtain ⟨next, -, hop⟩ := turn.ensures_performed
  obtain ⟨operands, c₀, c₁, ks, hsub, ⟨-, es, he, -⟩, ha, ⟨full, hx, rfl⟩, -, es₁, he₁, hks⟩ :=
    hop.ok (Prod.ext done rfl : _ = (Except.ok (), turn.outcome.2))
  obtain ⟨asked, hasked, -⟩ := ha.events
  refine ⟨operands, hsub, fun v hv => ?_⟩
  have hfull : .operand v ∈ full := by
    cases hx with
    | plain => exact List.mem_append_left _ (List.mem_map_of_mem hv)
    | named takes => cases own.symm.trans takes
    | image draws => rw [draws] at own; cases own
    | color color paints => cases plain.symm.trans paints
    | pattern paints => cases plain.symm.trans paints
    | lines options flows => exact absurd flows whole
  have hevents : turn.outcome.2.events = turn.before.events ++ (es ++ (asked ++ es₁)) := by
    rw [he₁, hasked, he, List.append_assoc, List.append_assoc]
    rfl
  rw [events, hevents, List.drop_left, List.map_append, List.map_append, hks]
  simp [hfull]

end Turn

/-- A variable that is written has been given for a variable of an operand, and variables that have
been given so are written by operators that are written as they are. -/
theorem written_variables_given (env : Environment φ ω) (overrides : Overrides) (world : ω)
    (lx : Lexer) :
    (∀ v y kind, .operand v ∈
        (document env.recorded (fresh overrides world) (Reader.ofLexer lx)).2.calls →
      v.Mentions y kind → ∃ turn : Turn env overrides world lx,
        ∃ u ∈ turn.operation.operands, ∃ x declared, u.Mentions x declared ∧
          overrides.get? x = some (.variable y kind)) ∧
      ∀ turn : Turn env overrides world lx, turn.operation.operator.Direct →
        turn.outcome.1 = .ok () → ∀ x declared y kind,
          .variable x declared ∈ turn.operation.operands →
            overrides.get? x = some (.variable y kind) →
              .operand (.variable y kind) ∈ turn.events.map Event.call := by
  constructor
  · intro v y kind hv hm
    obtain ⟨turn, ht⟩ := exists_turn (k := .operand v) trivial hv
    rcases turn.quotes with hn | ⟨operands, hsub, hq⟩
    · rw [hn] at ht
      cases ht
    · have hmem := (hq v ht).resolve_right fun hc => hc y kind hm
      exact ⟨turn, turn.given_of_mentions hsub hmem hm⟩
  · intro turn direct done x declared y kind hx hg
    obtain ⟨operands, hsub, hw⟩ := turn.written_of_direct direct done
    exact hw _ (turn.operand_given hsub hx hg)

/-- The variables that are written as operands. -/
def writtenVariables (calls : List Call) : List String :=
  calls.filterMap fun
    | .operand (.variable y _) => some y
    | _ => none

theorem not_concrete_of_mem {calls : List Call} {y : String} (h : y ∈ writtenVariables calls) :
    ∃ v, .operand v ∈ calls ∧ ¬ v.Concrete := by
  obtain ⟨k, hk, hy⟩ := List.mem_filterMap.mp h
  split at hy
  · next y kind => exact ⟨_, hk, fun hc => hc y kind .self⟩
  · cases hy

set_option maxRecDepth 100000 in
/-- A variable that has been given for another one is written. -/
theorem variable_written :
    let run := document (Environment.willing (FixedWidthFont.monospace 500 0)).recorded
      (fresh (Overrides.set ∅ "x" (.variable "$y" (some .number))) ()) (Reader.ofLexer
        (Lexer.ofBytes
          "# var $y /Number 3\n# var $x /Number 1\n# page /A4\n$x w\n".toUTF8.toList))
    run.1.toOption = some ⟨5, 1, 0⟩ ∧ ∃ v, .operand v ∈ run.2.calls ∧ ¬ v.Concrete := by
  intro run
  have hrun : run.1.toOption = some ⟨5, 1, 0⟩ ∧ writtenVariables run.2.calls = ["$y"] := by
    decide +kernel
  exact ⟨hrun.1, not_concrete_of_mem (hrun.2 ▸ List.mem_singleton_self "$y")⟩

end Conversion

end PageScript
