import PageScript.Proofs.Brackets
import PageScript.Proofs.Expansion

/-!
# Output followed call by call

What has been opened and written by some calls, as far as each of them may follow the others. The
announced objects and the operators are followed apart, since an object is announced before the
operator that opens it and after the one that closes it.
-/
namespace PageScript

structure Output where
  objects : Context := .outside
  operators : Context := .outside
  operands : List Value := []
  pages : Nat := 0

namespace Output

def bracket? (o : Output) (b : Bracket) : Option Output :=
  (Bracket.follow? o.objects b).map fun context => { o with objects := context }

/-- Writes an operator, which takes all operands and has to be allowed. -/
def operator? (o : Output) (op : Operator) : Option Output :=
  match Operation.take op o.operands.reverse, o.operators.accept op with
  | (.ok _, []), .ok next => some { o with operators := next, operands := [] }
  | _, _ => none

/-- The output after one more call, if it may follow. Nothing may follow but a flush where it
stands, and so it is not part of the output. -/
def after? (o : Output) : Call → Option Output
  | .beginPage _ =>
    (o.bracket? .beginPage).map fun o => { o with operators := .page, pages := o.pages + 1 }
  | .endPage =>
    if o.operators = .page then
      (o.bracket? .endPage).map fun o => { o with operators := .outside }
    else none
  | .beginPath => o.bracket? .beginPath
  | .endPath => o.bracket? .endPath
  | .beginText => o.bracket? .beginText
  | .endText => o.bracket? .endText
  | .operand v => some { o with operands := o.operands ++ [v] }
  | .operator op => o.operator? op
  | .fontHandle _ | .imageHandle _ | .patternHandle .. | .loadFont _ => some o
  | .flush => none

/-- What one more call can do to the output. -/
inductive Next (o : Output) : Call → Output → Prop where
  | beginPage {size : PageSize} (level : o.objects = .outside) :
      o.Next (.beginPage size)
        { o with objects := .page, operators := .page, pages := o.pages + 1 }
  | endPage (level : o.objects = .page) (closed : o.operators = .page) :
      o.Next .endPage { o with objects := .outside, operators := .outside }
  | object {k : Call} {b : Bracket} {context : Context} (announces : k.bracket? = some b)
      (inside : b ≠ .beginPage ∧ b ≠ .endPage) (follows : Bracket.follow? o.objects b = some context) :
      o.Next k { o with objects := context }
  | operand {v : Value} : o.Next (.operand v) { o with operands := o.operands ++ [v] }
  | operator {op : Operator} {operation : Operation} {next : Context}
      (taken : Operation.take op o.operands.reverse = (.ok operation, []))
      (accepted : o.operators.accept op = .ok next) :
      o.Next (.operator op) { o with operators := next, operands := [] }
  | asks {k : Call} (asks : k.Asks) : o.Next k o

theorem next_of_after {o o' : Output} {k : Call} (h : o.after? k = some o') : o.Next k o' := by
  have object {b : Bracket} (hk : k.bracket? = some b) (hb : b ≠ .beginPage ∧ b ≠ .endPage)
      (h : o.bracket? b = some o') : o.Next k o' := by
    obtain ⟨context, hf, rfl⟩ := Option.map_eq_some_iff.mp h
    exact .object hk hb hf
  cases k with
  | beginPage size =>
    obtain ⟨o₁, hb, rfl⟩ := Option.map_eq_some_iff.mp h
    obtain ⟨context, hf, rfl⟩ := Option.map_eq_some_iff.mp hb
    cases hc : o.objects <;> rw [hc] at hf <;> cases hf
    exact .beginPage hc
  | endPage =>
    rw [after?] at h
    split at h
    · next closed =>
      obtain ⟨o₁, hb, rfl⟩ := Option.map_eq_some_iff.mp h
      obtain ⟨context, hf, rfl⟩ := Option.map_eq_some_iff.mp hb
      cases hc : o.objects <;> rw [hc] at hf <;> cases hf
      exact .endPage hc closed
    · cases h
  | beginPath | endPath | beginText | endText => exact object rfl (by decide) h
  | operand v => cases h; exact .operand
  | operator op =>
    rw [after?, operator?] at h
    split at h
    · next taken accepted => cases h; exact .operator taken accepted
    · cases h
  | fontHandle | imageHandle | patternHandle | loadFont => cases h; exact .asks trivial
  | flush => cases h

def replay (o : Output) (calls : List Call) : Option Output := calls.foldlM after? o

@[simp] theorem replay_nil (o : Output) : o.replay [] = some o := rfl

theorem replay_cons (o : Output) (k : Call) (calls : List Call) :
    o.replay (k :: calls) = (o.after? k).bind (·.replay calls) := rfl

theorem replay_append (o : Output) (calls more : List Call) :
    o.replay (calls ++ more) = (o.replay calls).bind (·.replay more) := by
  rw [replay, List.foldlM_append]
  rfl

theorem replay_then {o between o' : Output} {calls more : List Call}
    (h : o.replay calls = some between) (h' : between.replay more = some o') :
    o.replay (calls ++ more) = some o' := by
  rw [replay_append, h]
  exact h'

theorem replay_asks {calls : List Call} (o : Output) (h : ∀ k ∈ calls, k.Asks) :
    o.replay calls = some o := by
  induction calls with
  | nil => rfl
  | cons k calls ih =>
    obtain ⟨hk, hcalls⟩ := List.forall_mem_cons.mp h
    have hafter : o.after? k = some o := by cases k <;> first | rfl | exact hk.elim
    rw [replay_cons, hafter]
    exact ih hcalls

/-- What may be written may also be cut off. -/
theorem replay_prefix {o o' : Output} {calls full : List Call} (h : o.replay full = some o')
    (hp : calls <+: full) : ∃ o'', o.replay calls = some o'' := by
  obtain ⟨more, rfl⟩ := hp
  rw [replay_append] at h
  obtain ⟨o'', h, -⟩ := Option.bind_eq_some_iff.mp h
  exact ⟨o'', h⟩

theorem replay_operands (o : Output) (operands : List Value) :
    o.replay (operands.map .operand) = some { o with operands := o.operands ++ operands } := by
  induction operands generalizing o with
  | nil => simp
  | cons v operands ih =>
    rw [List.map_cons, replay_cons]
    exact (ih _).trans (by simp)

/-- An operator is written with operands of one of its signatures where it is allowed. -/
theorem replay_written {objects operators next : Context} {pages : Nat} {op : Operator}
    {operands : List Value} {signature : List ValueKind} (hs : signature ∈ op.signatures)
    (ha : Accepts signature operands) (hn : operators.accept op = .ok next) :
    replay ⟨objects, operators, [], pages⟩ (Conversion.written op operands) =
      some ⟨objects, next, [], pages⟩ := by
  obtain ⟨o, ho, -⟩ := Operation.take_of_accepts hs ha
  rw [Conversion.written, replay_append, replay_operands]
  simp [replay, after?, operator?, ho, hn]

variable {objects : Context} {pages : Nat}

theorem replay_imageCalls (handle : String) (x y width height : Float32) :
    replay ⟨objects, .page, [], pages⟩ (Conversion.imageCalls handle x y width height) =
      some ⟨objects, .page, [], pages⟩ :=
  replay_then (replay_written (.head _) rfl rfl) <|
    replay_then (replay_written (.head _) rfl rfl) <|
      replay_then (replay_written (.head _) rfl rfl) (replay_written (.head _) rfl rfl)

/-- Colours may be set at the level of a page and inside text, and stay there. -/
theorem paints_rule {op : Operator} {stroking : Bool} (h : op.paints? = some stroking) :
    op.rule.contexts = ContextSet.pageOrText ∧ op.rule.transition = none ∧
      ∀ signature ∈ op.signatures, signature ∈ Operator.patternSignatures := by
  unfold Operator.paints? at h
  split at h
  case h_5 => cases h
  all_goals exact ⟨rfl, rfl, by decide⟩

/-- The operators of device colours may stand where all operators for colours may, and take the
components of the colour. -/
theorem setOperator_rule (color : Color) (stroking : Bool) :
    (color.setOperator stroking).rule.contexts = ContextSet.pageOrText ∧
      (color.setOperator stroking).rule.transition = none ∧
      ∃ signature ∈ (color.setOperator stroking).signatures,
        Accepts signature (color.components.map .number) := by
  cases color <;> cases stroking <;> exact ⟨rfl, rfl, _, .head _, rfl⟩

theorem replay_patternCalls {operators : Context} {stroking : Bool} {components : List Value}
    {handle : String} {signature : List ValueKind}
    (hin : ContextSet.pageOrText.contains operators = true)
    (hs : signature ∈ Operator.patternSignatures)
    (ha : Accepts signature (components ++ [.name handle])) :
    replay ⟨objects, operators, [], pages⟩
      (Conversion.patternCalls stroking components handle) =
      some ⟨objects, operators, [], pages⟩ := by
  have hstays {op : Operator} (hc : op.rule.contexts = ContextSet.pageOrText)
      (ht : op.rule.transition = none) : operators.accept op = .ok operators := by
    rw [Context.accept, hc, ht, if_pos hin]
    cases operators <;> rfl
  cases stroking
  · exact replay_then (replay_written (.head _) rfl (hstays rfl rfl))
      (replay_written hs ha (hstays rfl rfl))
  · exact replay_then (replay_written (.head _) rfl (hstays rfl rfl))
      (replay_written hs ha (hstays rfl rfl))

theorem replay_unless {o : Output} {calls : List Call} (skip : Bool)
    (h : o.replay calls = some o) : o.replay (if skip then [] else calls) = some o := by
  cases skip
  · exact h
  · rfl

variable {φ : Type}

theorem replay_spanCalls (t : Conversion.TextState) (s : LineSpan (LoadedFont φ) Float32) :
    replay ⟨objects, .text, [], pages⟩ (Conversion.spanCalls t s) =
      some ⟨objects, .text, [], pages⟩ :=
  replay_then (replay_unless _ (replay_written (.head _) rfl rfl)) <|
    replay_then (replay_unless _ (replay_written (.head _) rfl rfl)) <|
      replay_then (replay_written (.head _) rfl rfl) (replay_written (.head _) rfl rfl)

theorem replay_spansCalls (t : Conversion.TextState)
    (spans : List (LineSpan (LoadedFont φ) Float32)) :
    replay ⟨objects, .text, [], pages⟩ (Conversion.spansCalls t spans) =
      some ⟨objects, .text, [], pages⟩ := by
  induction spans generalizing t with
  | nil => rfl
  | cons s spans ih => exact replay_then (replay_spanCalls t s) (ih _)

theorem replay_textCalls (options : FlowOptions Float32)
    (lines : List (Line (LoadedFont φ) Float32)) :
    replay ⟨objects, .text, [], pages⟩ (Conversion.textCalls options lines) =
      some ⟨objects, .text, [], pages⟩ :=
  replay_then (replay_unless _ (replay_written (.head _) rfl rfl)) <|
    replay_then (replay_unless _ (replay_written (.head _) rfl rfl)) (replay_spansCalls _ _)

/-- Flowed text is a text object of its own at the level of a page. -/
theorem replay_linesCalls (options : FlowOptions Float32)
    (lines : List (Line (LoadedFont φ) Float32)) :
    replay ⟨.page, .page, [], pages⟩ (Conversion.linesCalls options lines) =
      some ⟨.page, .page, [], pages⟩ := by
  unfold Conversion.linesCalls
  split
  · rfl
  · refine replay_then (replay_written (.head _) rfl rfl) ?_
    have hbegin : replay ⟨.text, .page, [], pages⟩ (Conversion.written .beginText []) =
        some ⟨.text, .text, [], pages⟩ := replay_written (.head _) rfl rfl
    have hend : replay ⟨.text, .text, [], pages⟩ (Conversion.written .endText []) =
        some ⟨.text, .page, [], pages⟩ := replay_written (.head _) rfl rfl
    change replay ⟨.text, .page, [], pages⟩ _ = _
    refine replay_then hbegin (replay_then (replay_textCalls options lines) ?_)
    refine replay_then hend ?_
    change replay ⟨.page, .page, [], pages⟩ _ = _
    exact replay_written (.head _) rfl rfl

end Output

theorem Accepts.rename {signature : List ValueKind} (before after : List Value)
    {name other : String} (h : Accepts signature (before ++ .name name :: after)) :
    Accepts signature (before ++ .name other :: after) := by
  simpa [Accepts, Value.kind] using h

/-- What an operation comes to is written as the operation is read: with operands of signatures,
where it is allowed, and to where it leads. -/
theorem Expansion.replay {φ ω : Type} {c : Recorder φ ω} {op : Operator} {operands : List Value}
    {calls : List Call} (h : Expansion c op operands calls) {objects context next : Context}
    (accepted : ∃ signature ∈ op.signatures, Accepts signature operands)
    (hn : context.accept op = .ok next) (hflow : op = .flowText → objects = .page) (pages : Nat) :
    Output.replay ⟨objects, context, [], pages⟩ calls = some ⟨objects, next, [], pages⟩ := by
  obtain ⟨signature, hs, ha⟩ := accepted
  cases h with
  | plain => exact Output.replay_written hs ha hn
  | named _ _ names =>
    subst names
    exact Output.replay_written hs (.rename [] _ ha) hn
  | image draws =>
    subst draws
    obtain ⟨rfl, rfl⟩ := Context.eq_page_of_accept rfl rfl hn
    exact Output.replay_imageCalls ..
  | color color paints =>
    obtain ⟨hc, ht, -⟩ := Output.paints_rule paints
    obtain ⟨hc', ht', signature', hs', ha'⟩ := Output.setOperator_rule color _
    exact Output.replay_written hs' ha' <|
      Context.accept_congr (hc.trans hc'.symm) (ht.trans ht'.symm) hn
  | pattern paints names =>
    subst names
    obtain ⟨hc, ht, hall⟩ := Output.paints_rule paints
    obtain ⟨hin, rfl⟩ := Context.accept_eq_ok hn
    have hnext : context.moved op.rule.transition = context := by
      rw [ht]
      cases context <;> rfl
    rw [hnext]
    exact Output.replay_patternCalls (hc ▸ hin) (hall _ hs) (.rename _ [] ha)
  | lines options flows =>
    obtain rfl := hflow flows
    subst flows
    obtain ⟨rfl, rfl⟩ := Context.eq_page_of_accept rfl rfl hn
    exact Output.replay_linesCalls ..

end PageScript
