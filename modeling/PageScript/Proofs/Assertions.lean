import PageScript.Proofs.WrittenOperators
import PageScript.Proofs.WrittenVariables

/-!
# What operators ask of their operands

Some operators take names, numbers, arrays or dictionaries out of their operands. Once these hold,
what is left to fail is outside of the operands or deeper inside of them.
-/
namespace PageScript

open Step Converter

variable {φ ω : Type}

/-- What an operator takes out of its operands, in the order in which it does. -/
def Operator.assertions : Operator → List Value → Except ScriptError Unit
  | .setFont, name :: _ | .paintXObject, name :: _ | .shade, name :: _ => discard name.toName
  | .drawImage, [name, x, y, width, height] => do
    discard name.toName
    discard x.toNumber
    discard y.toNumber
    discard width.toNumber
    discard height.toNumber
  | .flowText, array :: left :: bottom :: width :: height :: rest => do
    discard array.toItems
    discard left.toNumber
    discard bottom.toNumber
    discard width.toNumber
    discard height.toNumber
    match rest with
    | [] => pure ()
    | d :: _ => discard d.toDictionary
  | _, _ => pure ()

/-- Operands of the right kinds that are literals hold what the operator takes out of them. -/
theorem assertions_of_accepts {op : Operator} {values : List Value}
    (accepted : ∃ signature ∈ op.signatures, Accepts signature values)
    (literal : ∀ v ∈ values, v.Literal) : op.assertions values = .ok () := by
  obtain ⟨signature, hs, ha⟩ := accepted
  unfold Operator.assertions
  split
  case h_1 | h_2 | h_3 =>
    obtain ⟨kinds, rfl⟩ : ∃ kinds, signature = .name :: kinds :=
      ⟨_, List.mem_singleton.mp hs⟩
    obtain ⟨hname, -⟩ := accepts_cons_cons.mp ha
    obtain ⟨text, rfl⟩ := (literal _ List.mem_cons_self).shape hname
    rfl
  case h_4 name x y width height =>
    obtain rfl : signature = .name :: ValueKind.numbers 4 := List.mem_singleton.mp hs
    simp only [ValueKind.numbers, List.replicate, accepts_cons_cons] at ha
    obtain ⟨hname, hx, hy, hwidth, hheight, -⟩ := ha
    obtain ⟨name, rfl⟩ := (literal name (by simp)).shape hname
    obtain ⟨x, rfl⟩ := (literal x (by simp)).shape hx
    obtain ⟨y, rfl⟩ := (literal y (by simp)).shape hy
    obtain ⟨width, rfl⟩ := (literal width (by simp)).shape hwidth
    obtain ⟨height, rfl⟩ := (literal height (by simp)).shape hheight
    rfl
  case h_5 array left bottom width height rest =>
    obtain ⟨options, rfl, hoptions⟩ : ∃ options,
        signature = .array :: (ValueKind.numbers 4 ++ options) ∧
          (options = [.dictionary] ∨ options = []) := by
      rcases List.mem_cons.mp hs with rfl | hs
      · exact ⟨_, rfl, .inl rfl⟩
      · exact ⟨[], List.mem_singleton.mp hs, .inr rfl⟩
    simp only [ValueKind.numbers, List.replicate, List.cons_append, List.nil_append,
      accepts_cons_cons] at ha
    obtain ⟨harray, hleft, hbottom, hwidth, hheight, hrest⟩ := ha
    obtain ⟨array, rfl⟩ := (literal array (by simp)).shape harray
    obtain ⟨left, rfl⟩ := (literal left (by simp)).shape hleft
    obtain ⟨bottom, rfl⟩ := (literal bottom (by simp)).shape hbottom
    obtain ⟨width, rfl⟩ := (literal width (by simp)).shape hwidth
    obtain ⟨height, rfl⟩ := (literal height (by simp)).shape hheight
    cases rest with
    | nil => rfl
    | cons d rest =>
      rcases hoptions with rfl | rfl
      · obtain ⟨entries, rfl⟩ := (literal d (by simp)).shape (accepts_cons_cons.mp hrest).1
        rfl
      · cases hrest
  case h_6 => rfl

/-- Why an operation fails that has got from its operands all that it takes out of them: the last of
its calls fails, a name has not been declared for what it is used for, or the spans or options of a
text flow are not well formed. -/
inductive Fault (c : Recorder φ ω) (events : List (Event φ)) (op : Operator) (operands : List Value)
    (e : ScriptError) : Prop where
  | outside {before : List (Event φ)} {k : Call} (failed : events = before ++ [⟨k, .error e⟩])
  | undeclared {name : String} {role : Role} (missing : ¬ c.Holds name role)
      (cause : e = .undeclaredResource name)
  | spans {items rest : List Value} (flows : op = .flowText) (spans : operands = .array items :: rest)
      (cause : e = .componentCount "text flow span" 3 (items.length % 3) ∨
        ∃ v ∈ items, v.toBytes = .error e ∨ v.toName = .error e ∨ v.toNumber = .error e)
  | options {entries : Dictionary} (flows : op = .flowText)
      (options : .dictionary entries ∈ operands) (cause : FlowOptions.ofDictionary entries = .error e)

namespace Step

variable {σ α β : Type} {I : σ → Prop} {P : ScriptError → σ → Prop}

/-- Where the invariant holds, the step keeps it or fails as told. -/
def Blames (I : σ → Prop) (P : ScriptError → σ → Prop) (m : Step σ α) : Prop :=
  ∀ s, I s → m.Ensures s (fun _ => I) P

theorem Blames.bind {m : Step σ α} {f : α → Step σ β} (hm : Blames I P m)
    (hf : ∀ a, Blames I P (f a)) : Blames I P (m >>= f) := fun s hs =>
  ensures_bind.mpr ((hm s hs).mono (fun a s' hs' => hf a s' hs') fun _ _ h => h)

theorem Blames.extract {x : Except ScriptError α} {f : α → Step σ β}
    (hx : ∀ e, x = .error e → ∀ s, I s → P e s) (hf : ∀ a, x = .ok a → Blames I P (f a)) :
    Blames I P (MonadExcept.ofExcept x >>= f) := fun s hs =>
  ensures_bind.mpr (ensures_ofExcept.mpr ⟨fun a ha => hf a ha s hs, fun e he => hx e he s hs⟩)

theorem Blames.mono {P' : ScriptError → σ → Prop} {m : Step σ α} (h : Blames I P m)
    (hp : ∀ e s, P e s → P' e s) : Blames I P' m := fun s hs =>
  (h s hs).mono (fun _ _ h => h) hp

theorem blames_pure {a : α} : Blames I P (pure a : Step σ α) := fun _ hs => hs

theorem blames_throw {e : ScriptError} (h : ∀ s, I s → P e s) :
    Blames I P (throw e : Step σ α) := h

theorem blames_get : Blames I P (get : Step σ σ) := fun _ hs => hs

theorem blames_modify {f : σ → σ} (h : ∀ s, I s → I (f s)) :
    Blames I P (modify f : Step σ PUnit) := h

end Step

theorem Value.toDictionary_eq_ok {v : Value} {entries : Dictionary}
    (h : v.toDictionary = .ok entries) : v = .dictionary entries := by
  cases v <;> cases h
  rfl

namespace Converter

/-- More may have been called, and what has been declared is the same. -/
structure Behind (c c' : Recorder φ ω) : Prop where
  events : ∃ es, c'.events = c.events ++ es
  resources : c'.resources = c.resources
  patterns : c'.patterns = c.patterns

/-- A fault has shown itself since an earlier state. -/
def Faulty (c : Recorder φ ω) (op : Operator) (operands : List Value) (e : ScriptError)
    (c' : Recorder φ ω) : Prop :=
  ∃ es, c'.events = c.events ++ es ∧ Fault c es op operands e

namespace Behind

variable {c c' : Recorder φ ω} {op : Operator} {operands : List Value} {e : ScriptError}

theorem faulty (h : c.Behind c') (fault : ∀ es, Fault c es op operands e) :
    c.Faulty op operands e c' := by
  obtain ⟨es, he⟩ := h.events
  exact ⟨es, he, fault es⟩

theorem record (h : c.Behind c') (w : ω) (event : Event φ) : c.Behind (c'.record w event) := by
  obtain ⟨es, he⟩ := h.events
  exact ⟨⟨es ++ [event], by rw [events_record, he, List.append_assoc]⟩, h.resources, h.patterns⟩

/-- A call that fails is the last one. -/
theorem failed (h : c.Behind c') (w : ω) (k : Call) :
    c.Faulty op operands e (c'.record w ⟨k, .error e⟩) := by
  obtain ⟨es, he⟩ := h.events
  exact ⟨es ++ [⟨k, .error e⟩], by rw [events_record, he, List.append_assoc], .outside rfl⟩

theorem undeclared {name : String} {role : Role} (h : c.Behind c') (missing : ¬ c'.Holds name role)
    (cause : e = .undeclaredResource name) : c.Faulty op operands e c' := by
  have same : c'.Holds name role ↔ c.Holds name role := by
    cases role <;> simp only [Holds, h.resources, h.patterns]
  exact h.faulty fun _ => .undeclared (mt same.mpr missing) cause

end Behind

end Converter

namespace Conversion

variable {env : Environment φ ω} {c₀ : Recorder φ ω} {op : Operator} {operands : List Value}

/-- The step fails because of a fault only. -/
abbrev Faults {α : Type} (c₀ : Recorder φ ω) (op : Operator) (operands : List Value)
    (m : Conversion φ (ω × Array (Event φ)) α) : Prop :=
  Blames c₀.Behind (c₀.Faulty op operands) m

theorem faults_call (k : Call) : Faults c₀ op operands (call env.recorded k) := fun _ hc =>
  ensures_call env (fun _ w => hc.record w _) fun _ w => hc.failed w k

theorem faults_send (k : Call) : Faults c₀ op operands (send env.recorded k) := fun c hc =>
  ensures_map.mpr (faults_call k c hc)

theorem faults_sendAll (ks : List Call) : Faults c₀ op operands (sendAll env.recorded ks) := by
  induction ks with
  | nil => exact blames_pure
  | cons k ks ih =>
    rw [sendAll_cons]
    exact (faults_send k).bind fun _ => ih

theorem faults_write (op' : Operator) (values : List Value) :
    Faults c₀ op operands (write env.recorded op' values) := by
  rw [write_eq]
  exact faults_sendAll _

theorem faults_handle {m : Conversion φ (ω × Array (Event φ)) String} {role : Role} {name : String}
    (h : ∀ c, Handled c m role name) : Faults c₀ op operands m := fun c hc =>
  Ensures.mono (h c) (fun _ _ h => by
    rcases h with ⟨-, rfl⟩ | ⟨-, w, event, -, rfl⟩
    · exact hc
    · exact ⟨(hc.record w event).events, hc.resources, hc.patterns⟩) fun _ _ h => by
    rcases h with ⟨-, ⟨he, missing, rfl⟩ | ⟨-, w, k, -, rfl⟩⟩
    · exact hc.undeclared missing he
    · exact hc.failed w k

theorem faults_font (name : String) : Faults c₀ op operands (font env.recorded name) := by
  refine (faults_handle fun c => handled_resourceHandle env c name .font).bind fun handle => ?_
  refine blames_get.bind fun s => ?_
  split
  · exact blames_pure
  · have hresource : Faults c₀ op operands
        (resource name .font : Conversion φ (ω × Array (Event φ)) Resource) := fun c hc =>
      (ensures_resource name .font c).mono (fun _ _ h => h.1 ▸ hc) fun _ _ h =>
        h.1 ▸ hc.undeclared h.2.2 h.2.1
    refine hresource.bind fun r => (faults_call _).bind fun f => ?_
    refine Blames.bind (blames_modify fun _ hc => ?_) fun _ => blames_pure
    exact ⟨hc.events, hc.resources, hc.patterns⟩

/-- Spans fail with what is wrong with one of their items. -/
theorem faults_spansFrom {all rest : List Value} : (items : List Value) → (∀ v ∈ items, v ∈ all) →
    Faults c₀ .flowText (.array all :: rest) (spansFrom env.recorded items)
  | text :: name :: size :: items, hall => by
    have item {v : Value} (hv : v ∈ text :: name :: size :: items) {e : ScriptError}
        (he : v.toBytes = .error e ∨ v.toName = .error e ∨ v.toNumber = .error e)
        (c : Recorder φ ω) (hc : c₀.Behind c) :
        c₀.Faulty .flowText (.array all :: rest) e c :=
      hc.faulty fun _ => .spans rfl rfl (.inr ⟨v, hall v hv, he⟩)
    refine Blames.extract (fun e he => item (v := text) (by simp) (.inl he)) fun bytes _ => ?_
    refine Blames.extract (fun e he => item (v := name) (by simp) (.inr (.inl he))) fun x _ => ?_
    refine (faults_font x).bind fun f => ?_
    refine Blames.extract (fun e he => item (v := size) (by simp) (.inr (.inr he))) fun n _ => ?_
    exact (faults_spansFrom items fun v hv => hall v (by simp [hv])).bind fun _ => blames_pure
  | [], _ | [_], _ | [_, _], _ => blames_pure

theorem faults_spans (items rest : List Value) :
    Faults c₀ .flowText (.array items :: rest) (spans env.recorded items) := by
  unfold spans
  split
  · exact faults_spansFrom items fun _ => id
  · exact blames_throw fun c hc => hc.faulty fun _ => .spans rfl rfl (.inl rfl)

/-- The step fails as the assertions do, or because of a fault. -/
abbrev Checks {α : Type} (c₀ : Recorder φ ω) (op : Operator) (operands : List Value)
    (assertions : Except ScriptError Unit) (m : Conversion φ (ω × Array (Event φ)) α) : Prop :=
  Blames c₀.Behind (fun e c => assertions = .error e ∨ c₀.Faulty op operands e c) m

namespace Checks

variable {α : Type} {x : Except ScriptError α}
  {assertions : Except ScriptError Unit} {f : α → Conversion φ (ω × Array (Event φ)) Unit}

theorem of_faults {m : Conversion φ (ω × Array (Event φ)) α}
    (h : Faults c₀ op operands m) : Checks c₀ op operands assertions m :=
  h.mono fun _ _ => .inr

/-- What is taken out of an operand has been asserted. -/
theorem extract (hf : ∀ a, x = .ok a → Checks c₀ op operands assertions (f a)) :
    Checks c₀ op operands (do discard x; assertions) (MonadExcept.ofExcept x >>= f) := by
  cases x with
  | error e => exact fun _ _ => .inl rfl
  | ok a => exact hf a rfl

theorem last (hf : ∀ a, x = .ok a → Faults c₀ op operands (f a)) :
    Checks c₀ op operands (discard x) (MonadExcept.ofExcept x >>= f) := by
  cases x with
  | error e => exact fun _ _ => .inl rfl
  | ok a => exact of_faults (hf a rfl)

end Checks

theorem checks_writeHandle {first : Value} {rest : List Value}
    {handle : String → Conversion φ (ω × Array (Event φ)) String} {role : Role}
    (hh : ∀ name c, Handled c (handle name) role name) :
    Checks c₀ op operands (discard first.toName)
      (writeHandle env.recorded op handle (first :: rest)) :=
  .last fun name _ => (faults_handle (hh name)).bind fun _ => faults_write _ _

theorem checks_drawImage (name x y width height : Value) :
    Checks c₀ op operands (Operator.drawImage.assertions [name, x, y, width, height])
      (drawImage env.recorded [name, x, y, width, height]) := by
  refine .extract fun name _ => .extract fun x _ => .extract fun y _ => .extract fun width _ => ?_
  refine .last fun height _ => ?_
  refine (faults_handle fun c => handled_resourceHandle env c name .image).bind fun handle => ?_
  exact (faults_write _ _).bind fun _ => (faults_write _ _).bind fun _ =>
    (faults_write _ _).bind fun _ => faults_write _ _

theorem faults_setColor (stroking : Bool) (values : List Value) :
    Faults c₀ op operands (setColor env.recorded op stroking values) := by
  refine blames_get.bind fun s => ?_
  split
  · split
    · exact faults_write _ _
    · split
      · refine (faults_handle fun c => handled_patternHandle env c _).bind fun handle => ?_
        exact (faults_write _ _).bind fun _ => faults_write _ _
      · exact faults_write _ _
  · exact faults_write _ _

variable [FontMetrics φ Float32]

theorem faults_placed (options : FlowOptions Float32)
    (spans : List (Span (LoadedFont φ) Float32)) (rect : Rectangle Float32) :
    Faults c₀ op operands (match Flow.lines options spans rect with
      | .ok lines => writeLines env.recorded options lines
      | .error overflow => do
        countOverflow
        writeLines env.recorded options overflow.lines) := by
  split
  · rw [writeLines_eq]
    exact faults_sendAll _
  · rw [writeLines_eq]
    refine Blames.bind (blames_modify fun _ hc => ?_) fun _ => faults_sendAll _
    exact ⟨hc.events, hc.resources, hc.patterns⟩

theorem checks_flowText (array left bottom width height : Value) (rest : List Value) :
    Checks c₀ .flowText (array :: left :: bottom :: width :: height :: rest)
      (Operator.flowText.assertions (array :: left :: bottom :: width :: height :: rest))
      (flowText env.recorded (array :: left :: bottom :: width :: height :: rest)) := by
  refine Checks.extract fun items hitems => ?_
  obtain rfl := Value.toItems_eq_ok hitems
  refine Blames.bind (Checks.of_faults (faults_spans items _)) fun spans => ?_
  refine Checks.extract fun left _ => Checks.extract fun bottom _ => ?_
  refine Checks.extract fun width _ => Checks.extract fun height _ => ?_
  cases rest with
  | nil => exact Checks.of_faults (faults_placed _ _ _)
  | cons d rest =>
    refine Blames.extract (fun e he c hc => ?_) fun _ _ => Checks.of_faults (faults_placed _ _ _)
    change discard d.toDictionary = .error e ∨ _
    cases hd : d.toDictionary with
    | error e' =>
      rw [hd] at he
      cases he
      exact .inl rfl
    | ok entries =>
      rw [hd] at he
      obtain rfl := Value.toDictionary_eq_ok hd
      exact .inr (hc.faulty fun _ => .options rfl (by simp) he)

/-- An operator is not written unless its operands hold what it takes out of them, and then only a
fault keeps it from being written. -/
theorem checks_writeOperation {op : Operator} {operands : List Value}
    (accepted : ∃ signature ∈ op.signatures, Accepts signature operands) :
    Checks c₀ op operands (op.assertions operands) (writeOperation env.recorded op operands) := by
  unfold writeOperation
  split
  case h_1 =>
    obtain ⟨name, x, y, width, height, rfl⟩ := drawImage_operands accepted
    exact checks_drawImage name x y width height
  case h_2 =>
    obtain ⟨array, left, bottom, width, height, rest, rfl⟩ := flowText_operands accepted
    exact checks_flowText array left bottom width height rest
  case h_3 =>
    obtain ⟨first, rest, rfl, -⟩ := operands_of_role rfl accepted
    exact checks_writeHandle fun name c => handled_resourceHandle env c name .font
  case h_4 =>
    obtain ⟨first, rest, rfl, -⟩ := operands_of_role rfl accepted
    exact checks_writeHandle fun name c => handled_resourceHandle env c name .image
  case h_5 =>
    obtain ⟨first, rest, rfl, -⟩ := operands_of_role rfl accepted
    exact checks_writeHandle fun name c => handled_patternHandle env c name
  case h_6 | h_7 | h_8 | h_9 => exact Checks.of_faults (faults_setColor _ _)
  case h_10 => exact Checks.of_faults (faults_write _ _)

namespace Turn

variable {overrides : Overrides} {world : ω} {lx : Lexer} (turn : Turn env overrides world lx)

/-- A variable that is an operand stands for a literal, if all values given from outside are. -/
theorem bound_literal (literal : ∀ x v, overrides.get? x = some v → v.Literal) {x : String}
    {w : Value} (h : turn.before.bindings.find? x = some w) : w.Literal := by
  obtain ⟨type, v, -, hv, -, rfl⟩ := turn.binds.bound x w h
  cases hg : overrides.get? x with
  | none => exact Value.literal_of_has hv
  | some given => exact literal x given hg

theorem operands_literal (literal : ∀ x v, overrides.get? x = some v → v.Literal)
    {operands : List Value} (h : turn.operands = .ok operands) : ∀ v ∈ operands, v.Literal := by
  intro w hw
  obtain ⟨v, -, hs⟩ := Value.exists_of_mem_substituteItems h hw
  exact Value.literal_substitute hs fun _ _ _ _ hu => turn.bound_literal literal hu

/-- An operand that cannot be replaced mentions a variable that has no value, and is not one. -/
theorem lacks_of_operands {e : ScriptError} (h : turn.operands = .error e) :
    ∃ v ∈ turn.operation.operands, v.Literal ∧ v.Lacks turn.before.bindings e := by
  obtain ⟨v, hv, hlacks⟩ := Value.lacks_of_substituteItems _ h
  refine ⟨v, hv, ?_, hlacks⟩
  rintro x kind rfl
  obtain ⟨w, hw, -⟩ := turn.operand_bound hv
  obtain ⟨y, declared, hm, hnone, -⟩ := hlacks
  obtain ⟨rfl, -⟩ := Value.mentions_variable.mp hm
  cases hw.symm.trans hnone

theorem kinds_eq {operands : List Value} (h : turn.operands = .ok operands) :
    operands.map Value.kind = turn.operation.operands.map Value.kind := by
  obtain ⟨signature, -, ha⟩ := turn.operation.accepted
  refine (ha.substitute h fun x kind hm => ?_ : Accepts signature operands).trans ha.symm
  exact turn.operand_bound hm

/-- A turn whose operands hold what its operator takes out of them fails because of a fault only. -/
theorem fault_of_outcome {operands : List Value} (h : turn.operands = .ok operands)
    (holds : turn.operation.operator.assertions operands = .ok ()) {e : ScriptError}
    (failed : turn.outcome.1 = .error e) :
    Fault turn.before turn.events turn.operation.operator operands e := by
  obtain ⟨next, hn, haccepted⟩ := turn.accepted
  have hop : (Conversion.operation env.recorded turn.operation).Ensures turn.counted
      (fun _ => turn.before.Behind)
      (turn.before.Faulty turn.operation.operator operands) := by
    rw [operation_eq]
    simp only [move, ensures_bind, ensures_get, ensures_ofExcept, ensures_modify]
    refine ⟨fun operands' h' => ⟨fun next' hn' => ?_, fun e he => ?_⟩, fun e he => ?_⟩
    · obtain rfl : operands = operands' := Except.ok.inj (h.symm.trans h')
      have hwrite : Faults turn.before turn.operation.operator operands
          (writeOperation env.recorded turn.operation.operator operands) :=
        (checks_writeOperation (haccepted operands h)).mono fun e _ he =>
          he.resolve_left fun hfail => by cases holds.symm.trans hfail
      simp only [← ensures_bind]
      exact ((faults_sendAll _).bind fun _ => hwrite.bind fun _ => faults_sendAll _) _
        ⟨⟨[], (List.append_nil _).symm⟩, rfl, rfl⟩
    · cases hn.symm.trans he
    · cases h.symm.trans he
  obtain ⟨es, he, fault⟩ := (turn.ensures_outcome hop).error (Prod.ext failed rfl)
  obtain rfl : turn.events = es :=
    List.append_cancel_left (turn.outcome_events.1.symm.trans he)
  exact fault

end Turn

/-- Where the values given from outside are literals, a variable that is an operand has a value, the
operands of an operation keep their kinds, and they hold all that the operator takes out of them. -/
theorem operands_as_matched (env : Environment φ ω) (overrides : Overrides) (world : ω) (lx : Lexer)
    (literal : ∀ x v, overrides.get? x = some v → v.Literal)
    (turn : Turn env overrides world lx) :
    (∀ x kind, .variable x kind ∈ turn.operation.operands →
      ∃ w, (Value.variable x kind).substitute turn.before.bindings = .ok w) ∧
    (∀ e, turn.operands = .error e →
      ∃ v ∈ turn.operation.operands, v.Literal ∧ v.Lacks turn.before.bindings e) ∧
    ∀ operands, turn.operands = .ok operands →
      operands.map Value.kind = turn.operation.operands.map Value.kind ∧
      turn.operation.operator.assertions operands = .ok () ∧
      ∀ e, turn.outcome.1 = .error e →
        Fault turn.before turn.events turn.operation.operator operands e := by
  refine ⟨fun x kind hm => ?_, fun e => turn.lacks_of_operands, fun operands h => ?_⟩
  · obtain ⟨w, hw, -⟩ := turn.operand_bound hm
    exact ⟨w, by rw [Value.substitute, hw]⟩
  · obtain ⟨next, -, accepted⟩ := turn.accepted
    have holds := assertions_of_accepts (accepted operands h) (turn.operands_literal literal h)
    exact ⟨turn.kinds_eq h, holds, fun e => turn.fault_of_outcome h holds⟩

set_option maxRecDepth 100000 in
/-- A script whose font size is given from outside gets to a turn that sets the font. -/
theorem operands_as_matched_resized :
    let env := Environment.willing (FixedWidthFont.monospace 500 0)
    let overrides := Overrides.set ∅ "size" (.number 9)
    let lx := Lexer.ofBytes ("# var $size /Number 12\n# resource /F /Font (f)\n# page /A4\n" ++
      "BT /F $size Tf ET\n").toUTF8.toList
    (∀ x v, overrides.get? x = some v → v.Literal) ∧
      (∃ turn : Turn env overrides () lx, .operator .setFont ∈ turn.events.map Event.call) ∧
      ∀ turn : Turn env overrides () lx, ∀ operands, turn.operands = .ok operands →
        operands.map Value.kind = turn.operation.operands.map Value.kind ∧
        turn.operation.operator.assertions operands = .ok () := by
  intro env overrides lx
  have literal : ∀ x v, overrides.get? x = some v → v.Literal := by
    intro x v h
    have hset : overrides.get? x = if x = "$size" then some (.number 9) else none :=
      Table.find?_insert ..
    rw [hset] at h
    split at h
    · cases h
      exact fun _ _ => nofun
    · cases h
  have hmem : .operator .setFont ∈
      (document env.recorded (fresh overrides ()) (Reader.ofLexer lx)).2.calls := by
    have hwritten : Operator.setFont ∈ writtenOperators
        (document env.recorded (fresh overrides ()) (Reader.ofLexer lx)).2.calls := by
      decide +kernel
    obtain ⟨k, hk, h⟩ := List.mem_filterMap.mp hwritten
    split at h
    · cases h
      exact hk
    · cases h
  refine ⟨literal, exists_turn (k := .operator .setFont) trivial hmem, fun turn operands h => ?_⟩
  obtain ⟨hkinds, holds, -⟩ := (operands_as_matched env overrides () lx literal turn).2.2 operands h
  exact ⟨hkinds, holds⟩

end Conversion

end PageScript
