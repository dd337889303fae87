import PageScript.Proofs.Declared

/-!
# The turns of a conversion

Each operation of a script that a conversion gets to is a turn of it. Where the operator takes a
name for a role, whether the turn is refused depends on the handles that are kept, and on what has
been declared only for names that have none.
-/
namespace PageScript

open Step Converter

variable {φ ω : Type}

/-- Some operand is none of the numbers that an image is placed with. -/
def Unplaced (op : Operator) (rest : List Value) : Prop :=
  op = .drawImage ∧ ∃ v ∈ rest, ∀ n, v ≠ .number n

/-- Operators with a role open and close nothing. -/
theorem Operator.stays_of_role {op : Operator} {role : Role} (takes : op.role? = some role) :
    op.rule.transition = none := by
  unfold role? at takes
  split at takes <;> first | rfl | cases takes

/-- Each statement of a script stands behind those before it. -/
theorem Reader.document_split {r : Reader} {n : Nat} {t : Statement}
    (h : (statements r.document)[n]? = some t) :
    r.document = ((statements r.document).take n).map .ok ++ .ok t :: r.document.drop (n + 1) := by
  obtain ⟨rest, he, -⟩ := r.document_eq
  obtain ⟨hn, ht⟩ := List.getElem?_eq_some_iff.mp h
  generalize statements r.document = ts at he hn ht
  have hlen : n < (ts.map Except.ok ++ rest).length := by
    simp only [List.length_append, List.length_map]
    omega
  have htake : (ts.take n).map .ok = (ts.map Except.ok ++ rest).take n := by
    rw [List.take_append_of_le_length (by simpa using hn.le), List.map_take]
  have hget : .ok t = (ts.map Except.ok ++ rest)[n] := by simp [hn, ht]
  rw [he, htake, hget, ← List.drop_eq_getElem_cons hlen, List.take_append_drop]

namespace Conversion

variable {env : Environment φ ω} {c : Recorder φ ω} {op : Operator} {role : Role} {name : String}
  {rest : List Value}

theorem image_operands (ha : ∃ signature ∈ Operator.drawImage.signatures,
    Accepts signature (.name name :: rest)) : ∃ x y width height, rest = [x, y, width, height] := by
  obtain ⟨_, x, y, width, height, he⟩ := drawImage_operands ha
  exact ⟨x, y, width, height, (List.cons.inj he).2⟩

variable [FontMetrics φ Float32]

variable (env) in
/-- An operator with a role asks for the handle of its name, and is written with it. -/
theorem writeOperation_named (takes : op.role? = some role)
    (accepted : ∃ signature ∈ op.signatures, Accepts signature (.name name :: rest))
    (placed : ¬ Unplaced op rest) :
    ∃ (handle : Conversion φ (ω × Array (Event φ)) String) (calls : String → List Call),
      (∀ c, Handled c handle role name) ∧ (∀ h, calls h ≠ []) ∧
        writeOperation env.recorded op (.name name :: rest) =
          handle >>= fun h => sendAll env.recorded (calls h) := by
  have hwritten (h : String) : written op (.name h :: rest) ≠ [] := by simp [written]
  unfold Operator.role? at takes
  split at takes <;> cases takes
  case h_1 =>
    exact ⟨_, _, fun c => handled_resourceHandle env c name .font, hwritten, writeHandle_eq ..⟩
  case h_2 =>
    obtain ⟨x, y, width, height, rfl⟩ := image_operands accepted
    have number (v : Value) (hv : v ∈ [x, y, width, height]) : ∃ n, v = .number n := by
      by_contra hn
      exact placed ⟨rfl, v, hv, not_exists.mp hn⟩
    obtain ⟨x, rfl⟩ := number x (by simp)
    obtain ⟨y, rfl⟩ := number y (by simp)
    obtain ⟨width, rfl⟩ := number width (by simp)
    obtain ⟨height, rfl⟩ := number height (by simp)
    refine ⟨_, fun h => imageCalls h x y width height,
      fun c => handled_resourceHandle env c name .image, fun h => by simp [imageCalls, written], ?_⟩
    simp only [imageCalls, sendAll_append, ← write_eq]
    rfl
  case h_3 =>
    exact ⟨_, _, fun c => handled_resourceHandle env c name .image, hwritten, writeHandle_eq ..⟩
  case h_4 => exact ⟨_, _, fun c => handled_patternHandle env c name, hwritten, writeHandle_eq ..⟩

/-- An image that is not placed with numbers is not drawn, and its name is not looked up. -/
theorem ensures_unplaced (accepted : ∃ signature ∈ op.signatures,
      Accepts signature (.name name :: rest)) (unplaced : Unplaced op rest) :
    (writeOperation env.recorded op (.name name :: rest)).Ensures c (fun _ _ => False)
      fun e _ => ∀ x, e ≠ .undeclaredResource x := by
  obtain ⟨rfl, v, hv, hn⟩ := unplaced
  obtain ⟨x, y, width, height, rfl⟩ := image_operands accepted
  have mismatch {v : Value} {e : ScriptError} (he : v.toNumber = .error e) (x : String) :
      e ≠ .undeclaredResource x := by
    cases v <;> cases he <;> nofun
  simp only [writeOperation, drawImage, ensures_bind, ensures_ofExcept]
  refine ⟨fun _ _ => ⟨fun x' hx => ⟨fun y' hy => ⟨fun width' hwidth => ⟨fun height' hheight => ?_,
    fun _ => mismatch⟩, fun _ => mismatch⟩, fun _ => mismatch⟩, fun _ => mismatch⟩, fun e he => ?_⟩
  · simp only [List.mem_cons, List.not_mem_nil, or_false] at hv
    rcases hv with rfl | rfl | rfl | rfl
    · exact absurd (Value.toNumber_eq_ok hx) (hn _)
    · exact absurd (Value.toNumber_eq_ok hy) (hn _)
    · exact absurd (Value.toNumber_eq_ok hwidth) (hn _)
    · exact absurd (Value.toNumber_eq_ok hheight) (hn _)
  · cases he

/-- An operation that opens and closes nothing is written out and announces nothing. -/
theorem ensures_operation_still {o : Operation} {next : Context} {operands : List Value}
    {post : Unit → Recorder φ ω → Prop} {fail : ScriptError → Recorder φ ω → Prop}
    (stays : o.operator.rule.transition = none) (hn : c.context.accept o.operator = .ok next)
    (hsub : Value.substituteItems c.bindings o.operands = .ok operands)
    (h : (writeOperation env.recorded o.operator operands).Ensures c post fail) :
    (operation env.recorded o).Ensures c post fail := by
  obtain rfl := Context.eq_of_accept hn stays
  rw [operation_eq]
  simp only [move, ensures_bind, ensures_get, ensures_ofExcept, ensures_modify, hsub, hn]
  refine ⟨fun _ he => ?_, fun e he => by cases he⟩
  cases he
  refine ⟨fun _ he => ?_, fun e he => by cases he⟩
  cases he
  simp only [Context.opening_self, Context.closing_self, sendAll_nil, ensures_pure]
  exact h

theorem ensures_operation_named {o : Operation} {next : Context} {operands : List Value}
    {post : Unit → Recorder φ ω → Prop} {fail : ScriptError → Recorder φ ω → Prop}
    (takes : o.operator.role? = some role) (hn : c.context.accept o.operator = .ok next)
    (hsub : Value.substituteItems c.bindings o.operands = .ok operands)
    (h : (writeOperation env.recorded o.operator operands).Ensures c post fail) :
    (operation env.recorded o).Ensures c post fail :=
  ensures_operation_still (Operator.stays_of_role takes) hn hsub h

/-- A name that has no handle and is not declared for the role is refused, and nothing is called. -/
theorem ensures_refused (takes : op.role? = some role)
    (accepted : ∃ signature ∈ op.signatures, Accepts signature (.name name :: rest))
    (placed : ¬ Unplaced op rest) (missing : c.handles.find? name = none)
    (undeclared : ¬ c.Holds name role) :
    (writeOperation env.recorded op (.name name :: rest)).Ensures c (fun _ _ => False)
      fun e c' => e = .undeclaredResource name ∧ c' = c := by
  obtain ⟨handle, calls, hh, -, heq⟩ := writeOperation_named env takes accepted placed
  have hc := hh c
  unfold Handled at hc
  rw [heq, ensures_bind]
  refine hc.mono ?_ ?_
  · rintro h _ (⟨found, -⟩ | ⟨-, w, e, hg, -⟩)
    · cases missing.symm.trans found
    · exact absurd hg.holds undeclared
  · rintro e _ ⟨-, ⟨rfl, -, rfl⟩ | ⟨hh, -⟩⟩
    · exact ⟨rfl, rfl⟩
    · exact absurd hh undeclared

/-- A name that has a handle is used, whatever it has been declared for. -/
theorem ensures_used {h : String} (takes : op.role? = some role)
    (accepted : ∃ signature ∈ op.signatures, Accepts signature (.name name :: rest))
    (placed : ¬ Unplaced op rest) (found : c.handles.find? name = some h) :
    (writeOperation env.recorded op (.name name :: rest)).Ensures c
      (fun _ c' => c'.events ≠ c.events) fun _ c' => c'.events ≠ c.events := by
  obtain ⟨handle, calls, hh, hcalls, heq⟩ := writeOperation_named env takes accepted placed
  have more {c' : Recorder φ ω} {ks : List Call} (hs : c.Sent ks c') (hk : ks ≠ []) :
      c'.events ≠ c.events := by
    obtain ⟨-, es, he, rfl⟩ := hs
    simpa [he] using hk
  have hc := hh c
  unfold Handled at hc
  rw [heq, ensures_bind]
  refine hc.mono ?_ ?_
  · rintro h' _ (⟨-, rfl⟩ | ⟨missing, -⟩)
    · refine (ensures_sendAll env _ _).mono (fun _ _ hs => more hs (hcalls h')) ?_
      rintro e c' ⟨-, ks, hk, -, hs⟩
      exact more hs hk
    · cases missing.symm.trans found
  · rintro e _ ⟨missing, -⟩
    cases missing.symm.trans found

/-- A conversion has come to an operation of the script, and converts it next. -/
structure Turn (env : Environment φ ω) (overrides : Overrides) (world : ω) (lx : Lexer) where
  done : List Statement
  operation : Operation
  rest : List (Except StatementError Statement)
  before : Recorder φ ω
  script : (Reader.ofLexer lx).document = done.map .ok ++ .ok (.graphics operation) :: rest
  converted : (done.forM (statement env.recorded)).run (fresh overrides world) = (.ok (), before)

/-- The turn of the statement at a position, if it is an operation and the conversion gets to it. -/
def turnAt? (env : Environment φ ω) (overrides : Overrides) (world : ω) (lx : Lexer) (n : Nat) :
    Option (Turn env overrides world lx) :=
  let done := (Reader.statements (Reader.ofLexer lx).document).take n
  match next : (Reader.statements (Reader.ofLexer lx).document)[n]?,
    converted : (done.forM (statement env.recorded)).run (fresh overrides world) with
  | some (.graphics operation), (.ok (), before) =>
    some ⟨done, operation, _, before, Reader.document_split next, converted⟩
  | _, _ => none

namespace Turn

variable {overrides : Overrides} {world : ω} {lx : Lexer} (turn : Turn env overrides world lx)

def outcome : Except ScriptError Unit × Recorder φ ω :=
  (statement env.recorded (.graphics turn.operation)).run turn.before

def events : List (Event φ) := turn.outcome.2.events.drop turn.before.events.length

def operands : Except ScriptError (List Value) :=
  Value.substituteItems turn.before.bindings turn.operation.operands

theorem ready : ∃ s s', turn.before.Ready turn.done s ∧ s.Leads (.graphics turn.operation) s' := by
  obtain ⟨s, hlegal, -⟩ := Reader.document_legal (Reader.behind_ofLexer lx)
  rw [turn.script, Reader.statements_append] at hlegal
  obtain ⟨s₁, hdone, hrest⟩ := hlegal.of_append
  cases hrest with
  | cons first _ => exact ⟨s₁, _, ready_of_converted hdone turn.converted, first⟩

/-- The converter behind the counting of the turn. -/
def counted : Recorder φ ω :=
  { turn.before with report.statements := turn.before.report.statements + 1 }

/-- The turn counts the statement and performs the operation. -/
theorem ensures_outcome {post : Unit → Recorder φ ω → Prop}
    {fail : ScriptError → Recorder φ ω → Prop}
    (h : (Conversion.operation env.recorded turn.operation).Ensures turn.counted post fail) :
    (statement env.recorded (.graphics turn.operation)).Ensures turn.before post fail :=
  ensures_bind.mpr (ensures_modify.mpr h)

theorem accepted : ∃ next, turn.before.context.accept turn.operation.operator = .ok next ∧
    ∀ operands, turn.operands = .ok operands →
      ∃ signature ∈ turn.operation.operator.signatures, Accepts signature operands := by
  obtain ⟨s, s', hready, hleads⟩ := turn.ready
  cases hleads with
  | graphics accepted resolved =>
    exact ⟨_, hready.follows.context ▸ accepted,
      fun operands => accepted_substitute resolved hready.follows⟩

theorem knows : ∃ names, turn.before.Knows turn.done names := by
  obtain ⟨s, -, hready, -⟩ := turn.ready
  exact ⟨s.names, hready.knows⟩

theorem outcome_events : turn.outcome.2.events = turn.before.events ++ turn.events ∧
    NamesGranted turn.before turn.operation turn.events := by
  obtain ⟨next, hn, haccepted⟩ := turn.accepted
  obtain ⟨names, hknows⟩ := turn.knows
  obtain ⟨es, he, hg⟩ := (turn.ensures_outcome (ensures_namesGranted haccepted hn
    (hknows.counted _).traced)).state
  obtain rfl : turn.events = es := by
    rw [events, show turn.outcome.2.events = turn.before.events ++ es from he, List.drop_left]
  refine ⟨he, fun seen hseen op handle role hm hrole => ?_⟩
  obtain ⟨operands, name, role', hsub, huses, hfont, e, hmem, hgrants⟩ :=
    hg seen hseen op handle role hm hrole
  exact ⟨operands, name, role', hsub, huses, hfont, e, hmem,
    hgrants.mono (fun _ _ h => h) fun _ _ h => h⟩

/-- A turn that fails ends the conversion. -/
theorem document_error {e : ScriptError} (h : turn.outcome.1 = .error e) :
    Conversion.document env.recorded (fresh overrides world) (Reader.ofLexer lx) =
      (.error (.conversion e), turn.outcome.2) := by
  have hturn : (statement env.recorded (.graphics turn.operation)).run turn.before =
      (.error e, turn.outcome.2) := Prod.ext h rfl
  unfold Conversion.document
  rw [turn.script, statements_append, turn.converted]
  simp only [statements, hturn]

end Turn

end Conversion

end PageScript
