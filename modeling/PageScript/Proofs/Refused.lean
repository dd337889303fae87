import PageScript.Conversion.Document
import PageScript.Proofs.Performing

/-!
# Refused statements

A statement may be refused for what it says, or because a font cannot be loaded. By then handles
and fonts may have been got for it, but nothing of it has been written, declared or counted.
-/
namespace PageScript

open Step Converter

variable {φ ω α β : Type}

/-- Fonts are loaded from a source of their own. All other calls go to the writer. -/
def Call.OfWriter : Call → Prop
  | .loadFont _ => False
  | _ => True

namespace Converter

/-- The calls made since an earlier state, with their answers. -/
def since (c c' : Recorder φ ω) : List (Event φ) := c'.events.drop c.events.length

/-- A call of the writer has failed with the error. -/
def Broken (c : Recorder φ ω) (e : ScriptError) (c' : Recorder φ ω) : Prop :=
  ∃ es, c'.events = c.events ++ es ∧ ∃ k ∈ es, k.call.OfWriter ∧ k.answer = .error e

/-- Handles and fonts may have been got. All else is as before, but for the count of statements. -/
structure Unwritten (c c' : Recorder φ ω) : Prop where
  events : ∃ es, c'.events = c.events ++ es ∧ ∀ k ∈ es, k.call.Asks
  overrides : c'.overrides = c.overrides
  context : c'.context = c.context
  bindings : c'.bindings = c.bindings
  resources : c'.resources = c.resources
  colors : c'.colors = c.colors
  patterns : c'.patterns = c.patterns
  pages : c'.report.pages = c.report.pages
  overflows : c'.report.overflows = c.report.overflows
  statements : c.report.statements ≤ c'.report.statements
  handles : ∀ name handle, c.handles.find? name = some handle → c'.handles.find? name = some handle
  fonts : ∀ name f, c.fonts.find? name = some f → c'.fonts.find? name = some f

variable {c c₁ c' : Recorder φ ω} {e : ScriptError}

theorem since_eq {es : List (Event φ)} (h : c'.events = c.events ++ es) : c.since c' = es := by
  rw [since, h, List.drop_left]

theorem Broken.after {es : List (Event φ)} (h : c₁.Broken e c')
    (he : c₁.events = c.events ++ es) : c.Broken e c' := by
  obtain ⟨es', hes, k, hk, hw, ha⟩ := h
  exact ⟨es ++ es', by rw [hes, he, List.append_assoc], k, List.mem_append_right es hk, hw, ha⟩

theorem Broken.exists_since (h : c.Broken e c') :
    ∃ k ∈ c.since c', k.call.OfWriter ∧ k.answer = .error e := by
  obtain ⟨es, hes, hk⟩ := h
  rwa [since_eq hes]

theorem Broken.record {k : Call} (w : ω) (hk : k.OfWriter) :
    c.Broken e (c.record w ⟨k, .error e⟩) :=
  ⟨_, events_record c w _, _, List.mem_singleton_self _, hk, rfl⟩

namespace Unwritten

theorem refl (c : Recorder φ ω) : c.Unwritten c :=
  ⟨⟨[], by simp⟩, rfl, rfl, rfl, rfl, rfl, rfl, rfl, rfl, Nat.le_refl _,
    fun _ _ h => h, fun _ _ h => h⟩

theorem trans (h : c.Unwritten c₁) (h' : c₁.Unwritten c') : c.Unwritten c' where
  events := by
    obtain ⟨es, he, ha⟩ := h.events
    obtain ⟨es', he', ha'⟩ := h'.events
    refine ⟨es ++ es', by rw [he', he, List.append_assoc], fun k hk => ?_⟩
    exact (List.mem_append.mp hk).elim (ha k) (ha' k)
  overrides := h'.overrides.trans h.overrides
  context := h'.context.trans h.context
  bindings := h'.bindings.trans h.bindings
  resources := h'.resources.trans h.resources
  colors := h'.colors.trans h.colors
  patterns := h'.patterns.trans h.patterns
  pages := h'.pages.trans h.pages
  overflows := h'.overflows.trans h.overflows
  statements := Nat.le_trans h.statements h'.statements
  handles name handle hn := h'.handles name handle (h.handles name handle hn)
  fonts name f hf := h'.fonts name f (h.fonts name f hf)

theorem counted (c : Recorder φ ω) :
    c.Unwritten { c with report.statements := c.report.statements + 1 } :=
  { refl c with statements := Nat.le_succ _ }

/-- Asking writes nothing, and as long as no overflow is counted it counts nothing. -/
theorem of_asked (h : c.Asked c') (ho : c'.report.overflows = c.report.overflows) :
    c.Unwritten c' where
  events := h.events
  overrides := by rw [h.same]
  context := by rw [h.same]
  bindings := by rw [h.same]
  resources := by rw [h.same]
  colors := by rw [h.same]
  patterns := by rw [h.same]
  pages := by rw [h.same]
  overflows := ho
  statements := Nat.le_of_eq (by rw [h.same])
  handles := h.handles
  fonts := h.fonts

end Unwritten

def SameOverflows (c c' : Recorder φ ω) : Prop := c'.report.overflows = c.report.overflows

instance : Std.Refl (@SameOverflows φ ω) := ⟨fun _ => rfl⟩

instance : Trans (@SameOverflows φ ω) SameOverflows SameOverflows :=
  ⟨fun h h' => Eq.trans h' h⟩

end Converter

namespace Conversion

variable (env : Environment φ ω)

/-! ### Asking counts no overflow -/

theorem keeps_call (k : Call) : Keeps SameOverflows (call env.recorded k) := by
  intro c
  unfold Ensures
  split <;> rfl

theorem keeps_keepHandle (name handle : String) : Keeps SameOverflows (do
    keepHandle name handle
    pure handle : Conversion φ (ω × Array (Event φ)) String) := fun _ => rfl

theorem keeps_resource (name : String) (kind : ResourceKind) :
    Keeps SameOverflows (resource name kind : Conversion φ (ω × Array (Event φ)) Resource) := by
  apply Keeps.get.bind
  intro c
  split
  · split
    · exact Keeps.pure
    · exact Keeps.throw
  · exact Keeps.throw

theorem keeps_resourceHandle (name : String) (kind : ResourceKind) :
    Keeps SameOverflows (resourceHandle env.recorded name kind) := by
  apply Keeps.get.bind
  intro c
  split
  · exact Keeps.pure
  · apply (keeps_resource name kind).bind
    intro r
    cases kind with
    | font => exact (keeps_call env _).bind (keeps_keepHandle name)
    | image => exact (keeps_call env _).bind (keeps_keepHandle name)

theorem keeps_patternHandle (name : String) :
    Keeps SameOverflows (patternHandle env.recorded name) := by
  apply Keeps.get.bind
  intro c
  split
  · exact Keeps.pure
  · apply Keeps.get.bind
    intro c
    split
    · exact (keeps_call env _).bind (keeps_keepHandle name)
    · exact Keeps.throw

theorem keeps_font (name : String) : Keeps SameOverflows (font env.recorded name) := by
  apply (keeps_resourceHandle env name .font).bind
  intro handle
  apply Keeps.get.bind
  intro c
  split
  · exact Keeps.pure
  · apply (keeps_resource name .font).bind
    intro r
    exact (keeps_call env _).bind fun _ _ => rfl

theorem keeps_spansFrom : (items : List Value) → Keeps SameOverflows (spansFrom env.recorded items)
  | text :: name :: size :: rest => by
    apply Keeps.ofExcept.bind
    intro bytes
    apply Keeps.ofExcept.bind
    intro x
    apply (keeps_font env x).bind
    intro f
    apply Keeps.ofExcept.bind
    intro n
    exact (keeps_spansFrom rest).bind fun _ => Keeps.pure
  | [] | [_] | [_, _] => Keeps.pure

theorem keeps_spans (items : List Value) : Keeps SameOverflows (spans env.recorded items) := by
  unfold spans
  split
  · exact keeps_spansFrom env items
  · exact Keeps.throw

/-! ### What each step may fail for -/

/-- Whether or not it fails, the step writes nothing. -/
def Quiet (m : Conversion φ (ω × Array (Event φ)) α) (c : Recorder φ ω) : Prop :=
  m.Ensures c (fun _ c' => c.Unwritten c') fun _ c' => c.Unwritten c'

/-- The step fails only with a call of the writer. -/
def Writing (m : Conversion φ (ω × Array (Event φ)) α) (c : Recorder φ ω) : Prop :=
  m.Ensures c (fun _ _ => True) fun e c' => c.Broken e c'

/-- The step fails before anything is written, or with a call of the writer. -/
def Careful (m : Conversion φ (ω × Array (Event φ)) α) (c : Recorder φ ω) : Prop :=
  m.Ensures c (fun _ _ => True) fun e c' => c.Unwritten c' ∨ c.Broken e c'

variable {env} {c c₁ : Recorder φ ω}

theorem Asking.quiet {m : Conversion φ (ω × Array (Event φ)) α}
    {post : α → Recorder φ ω → Prop} (h : Asking m c post) (hk : Keeps SameOverflows m) :
    Quiet m c :=
  (Ensures.and h (hk c)).mono (fun _ _ h => .of_asked h.1.1 h.2) fun _ _ h => .of_asked h.1.1 h.2

/-- All calls are answered, or the last one made is the one that fails. -/
theorem writing_sendAll (env : Environment φ ω) {ks : List Call} (hw : ∀ k ∈ ks, k.OfWriter)
    (c : Recorder φ ω) : Writing (sendAll env.recorded ks) c := by
  induction ks generalizing c with
  | nil => trivial
  | cons k ks ih =>
    have hk : k.OfWriter := hw k List.mem_cons_self
    have hks : ∀ k ∈ ks, k.OfWriter := fun k hk => hw k (List.mem_cons_of_mem _ hk)
    have hsend : (send env.recorded k).Ensures c
        (fun _ c₁ => ∃ a w, c₁ = c.record w ⟨k, .ok a⟩) fun e c' => c.Broken e c' :=
      ensures_map.mpr <| ensures_call env (fun a w => ⟨a, w, rfl⟩) fun e w => .record w hk
    rw [sendAll_cons]
    apply ensures_bind.mpr
    apply hsend.mono
    · rintro _ _ ⟨a, w, rfl⟩
      apply (ih hks _).mono
      · exact fun _ _ h => h
      · exact fun e c' h => h.after (events_record c w _)
    · exact fun _ _ h => h

theorem written_ofWriter (op : Operator) (operands : List Value) :
    ∀ k ∈ written op operands, k.OfWriter := by
  intro k hk
  simp only [written, List.mem_append, List.mem_map, List.mem_singleton] at hk
  obtain ⟨v, -, rfl⟩ | rfl := hk <;> trivial

theorem writing_write (op : Operator) (operands : List Value) (c : Recorder φ ω) :
    Writing (write env.recorded op operands) c := by
  rw [write_eq]
  exact writing_sendAll env (written_ofWriter op operands) c

theorem writtenUnless_ofWriter (p : Bool) (op : Operator) (operands : List Value) :
    ∀ k ∈ if p then [] else written op operands, k.OfWriter := by
  cases p with
  | true => simp
  | false => exact written_ofWriter op operands

theorem spansCalls_ofWriter (t : TextState) (spans : List (LineSpan (LoadedFont φ) Float32)) :
    ∀ k ∈ spansCalls t spans, k.OfWriter := by
  induction spans generalizing t with
  | nil => simp [spansCalls]
  | cons s spans ih =>
    simp only [spansCalls, spanCalls, List.forall_mem_append]
    exact ⟨⟨writtenUnless_ofWriter _ _ _, writtenUnless_ofWriter _ _ _, written_ofWriter _ _,
      written_ofWriter _ _⟩, ih _⟩

theorem linesCalls_ofWriter (options : FlowOptions Float32)
    (lines : List (Line (LoadedFont φ) Float32)) :
    ∀ k ∈ linesCalls options lines, k.OfWriter := by
  unfold linesCalls textCalls
  split
  · simp
  · simp only [List.forall_mem_append, List.forall_mem_cons]
    exact ⟨written_ofWriter _ _, trivial, written_ofWriter _ _,
      ⟨writtenUnless_ofWriter _ _ _, writtenUnless_ofWriter _ _ _, spansCalls_ofWriter _ _⟩,
      written_ofWriter _ _, trivial, written_ofWriter _ _⟩

theorem announced_ofWriter (before after : Context) :
    (∀ k ∈ before.opening after, k.OfWriter) ∧ ∀ k ∈ before.closing after, k.OfWriter := by
  cases before <;> cases after <;> simp [Context.opening, Context.closing, Call.OfWriter]

theorem Writing.careful {m : Conversion φ (ω × Array (Event φ)) α} (h : Writing m c) :
    Careful m c :=
  Ensures.mono h (fun _ _ h => h) fun _ _ h => .inr h

/-- What has been done before, as long as nothing is written, makes no difference. -/
theorem Careful.after {m : Conversion φ (ω × Array (Event φ)) α} (h : Careful m c₁)
    (hc : c.Unwritten c₁) :
    m.Ensures c₁ (fun _ _ => True) fun e c' => c.Unwritten c' ∨ c.Broken e c' := by
  obtain ⟨es, hes, -⟩ := hc.events
  apply Ensures.mono h
  · exact fun _ _ h => h
  · exact fun e c' he => he.imp hc.trans fun hb => hb.after hes

theorem Quiet.bind {m : Conversion φ (ω × Array (Event φ)) α}
    {f : α → Conversion φ (ω × Array (Event φ)) β} (hm : Quiet m c)
    (hf : ∀ a c₁, c.Unwritten c₁ → Careful (f a) c₁) : Careful (m >>= f) c := by
  apply ensures_bind.mpr
  apply Ensures.mono hm
  · exact fun a c₁ hc => (hf a c₁ hc).after hc
  · exact fun _ _ h => .inl h

theorem Careful.extract {x : Except ScriptError α}
    {f : α → Conversion φ (ω × Array (Event φ)) β} (hf : ∀ a, Careful (f a) c) :
    Careful (MonadExcept.ofExcept x >>= f) c :=
  ensures_bind.mpr <| ensures_ofExcept.mpr ⟨fun a _ => hf a, fun _ _ => .inl (.refl c)⟩

/-! ### Operations and statements -/

theorem careful_writeHandle {role : Role}
    {handle : String → Conversion φ (ω × Array (Event φ)) String}
    (hh : ∀ name, Handled c (handle name) role name)
    (hk : ∀ name, Keeps SameOverflows (handle name)) (op : Operator) (operands : List Value) :
    Careful (writeHandle env.recorded op handle operands) c := by
  cases operands with
  | nil => exact (writing_write op [] c).careful
  | cons first rest =>
    apply Careful.extract
    intro name
    apply Quiet.bind ((hh name).asking.quiet (hk name))
    intro h c₁ _
    exact (writing_write op _ c₁).careful

theorem careful_drawImage (operands : List Value) :
    Careful (drawImage env.recorded operands) c := by
  unfold drawImage
  split
  · apply Careful.extract
    intro name
    iterate 4 (apply Careful.extract; intro _)
    apply Quiet.bind ((handled_resourceHandle env c name .image).asking.quiet
      (keeps_resourceHandle env name .image))
    intro handle c₁ _
    simp only [write_eq, ← sendAll_append]
    apply Writing.careful
    apply writing_sendAll env
    simp only [List.forall_mem_append]
    exact ⟨written_ofWriter _ _, written_ofWriter _ _, written_ofWriter _ _, written_ofWriter _ _⟩
  · trivial

theorem careful_setPattern (stroking : Bool) (components : List Value) (name : String) :
    Careful (setPattern env.recorded stroking components name) c := by
  apply Quiet.bind ((handled_patternHandle env c name).asking.quiet (keeps_patternHandle env name))
  intro handle c₁ _
  simp only [write_eq, ← sendAll_append]
  apply Writing.careful
  apply writing_sendAll env
  simp only [List.forall_mem_append]
  exact ⟨written_ofWriter _ _, written_ofWriter _ _⟩

theorem careful_setColor (op : Operator) (stroking : Bool) (operands : List Value) :
    Careful (setColor env.recorded op stroking operands) c := by
  apply ensures_bind.mpr
  apply ensures_get.mpr
  split
  · split
    · exact (writing_write _ _ c).careful
    · split
      · exact careful_setPattern _ _ _
      · exact (writing_write _ _ c).careful
  · exact (writing_write _ _ c).careful

variable [FontMetrics φ Float32]

/-- An overflow is counted only when nothing but the writer can fail any more. -/
theorem careful_placed (options : FlowOptions Float32)
    (placed : Except (Overflow (LoadedFont φ) Float32) (List (Line (LoadedFont φ) Float32))) :
    Careful (match placed with
      | .ok lines => writeLines env.recorded options lines
      | .error overflow => do
        countOverflow
        writeLines env.recorded options overflow.lines) c := by
  have lines (ls : List (Line (LoadedFont φ) Float32)) (c : Recorder φ ω) :
      Writing (writeLines env.recorded options ls) c := by
    rw [writeLines_eq]
    exact writing_sendAll env (linesCalls_ofWriter options ls) c
  cases placed with
  | ok ls => exact (lines ls c).careful
  | error overflow =>
    apply ensures_bind.mpr
    apply ensures_modify.mpr
    apply Ensures.mono (lines overflow.lines _)
    · exact fun _ _ h => h
    · exact fun e c' h => .inr (h.after (List.append_nil _).symm)

theorem careful_flowText (operands : List Value) :
    Careful (flowText env.recorded operands) c := by
  unfold flowText
  split
  · next array left bottom width height rest =>
    apply Careful.extract
    intro items
    apply Quiet.bind ((asking_spans items).quiet (keeps_spans env items))
    intro spans c₁ _
    iterate 4 (apply Careful.extract; intro _)
    cases rest with
    | nil => exact careful_placed _ _
    | cons d rest =>
      apply Careful.extract
      intro options
      exact careful_placed _ _
  · trivial

/-- Operators that may fail by themselves have no transition. -/
theorem writeOperation_eq_write (env : Environment φ ω) (op : Operator) (operands : List Value) :
    writeOperation env.recorded op operands = write env.recorded op operands ∨
      op.rule.transition = none := by
  cases op <;> first | exact .inl rfl | exact .inr rfl

theorem careful_writeOperation (op : Operator) (operands : List Value) :
    Careful (writeOperation env.recorded op operands) c := by
  unfold writeOperation
  split
  · exact careful_drawImage operands
  · exact careful_flowText operands
  · exact careful_writeHandle (fun name => handled_resourceHandle env c name .font)
      (fun name => keeps_resourceHandle env name .font) _ _
  · exact careful_writeHandle (fun name => handled_resourceHandle env c name .image)
      (fun name => keeps_resourceHandle env name .image) _ _
  · exact careful_writeHandle (handled_patternHandle env c) (keeps_patternHandle env) _ _
  · exact careful_setColor _ _ _
  · exact careful_setColor _ _ _
  · exact careful_setColor _ _ _
  · exact careful_setColor _ _ _
  · exact (writing_write _ _ c).careful

theorem careful_operation (o : Operation) : Careful (operation env.recorded o) c := by
  rw [operation_eq]
  simp only [Careful, move, ensures_bind, ensures_get, ensures_ofExcept, ensures_modify]
  refine ⟨fun operands _ => ⟨fun next hn => ?_, fun _ _ => .inl (.refl c)⟩,
    fun _ _ => .inl (.refl c)⟩
  have hw := announced_ofWriter c.context next
  rcases writeOperation_eq_write env o.operator operands with heq | stays
  · rw [heq, write_eq]
    simp only [← ensures_bind, ← sendAll_append]
    apply Ensures.mono (writing_sendAll env ?_ { c with context := next })
    · exact fun _ _ h => h
    · exact fun e c' h => .inr (h.after (List.append_nil _).symm)
    · simp only [List.forall_mem_append]
      exact ⟨hw.1, written_ofWriter _ _, hw.2⟩
  · obtain rfl := Context.eq_of_accept hn stays
    simp only [Context.opening_self, Context.closing_self, sendAll_nil, ensures_pure]
    exact careful_writeOperation o.operator operands

omit [FontMetrics φ Float32] in
theorem careful_declare (d : Declaration) :
    Careful (declare d : Conversion φ (ω × Array (Event φ)) Unit) c := by
  cases d with
  | resource | color | pattern => trivial
  | «variable» x kind v =>
    simp only [declare, Careful, ensures_bind, ensures_get, ensures_ofExcept, ensures_modify]
    exact ⟨fun _ _ => trivial, fun _ _ => .inl (.refl c)⟩

theorem careful_statement (env : Environment φ ω) (t : Statement) :
    Careful (statement env.recorded t) c := by
  have hcounted := Unwritten.counted c
  apply ensures_bind.mpr
  apply ensures_modify.mpr
  cases t with
  | declaration d => exact (careful_declare d).after hcounted
  | graphics o => exact (careful_operation o).after hcounted
  | page size =>
    apply ensures_bind.mpr
    apply ensures_modify.mpr
    apply ensures_call env
    · exact fun _ _ => trivial
    · exact fun e w => .inr (Broken.after (.record w trivial) (List.append_nil _).symm)
  | endPage =>
    simp only [move, ensures_bind, ensures_get, ensures_ofExcept, ensures_modify]
    refine ⟨fun next _ => ?_, fun _ _ => .inl hcounted⟩
    apply ensures_call env
    · exact fun _ _ => trivial
    · exact fun e w => .inr (Broken.after (.record w trivial) (List.append_nil _).symm)

/-- A statement that fails with an error of which no call of the writer has failed has written
nothing, and has left the context, the tables and the counts of pages and overflows as they were. -/
theorem unwritten_of_refused (env : Environment φ ω) (c : Recorder φ ω) (t : Statement)
    {e : ScriptError} {c' : Recorder φ ω}
    (refused : (statement env.recorded t).run c = (.error e, c'))
    (foreign : ∀ k ∈ c.since c', k.call.OfWriter → k.answer ≠ .error e) : c.Unwritten c' := by
  rcases (careful_statement env t).error refused with h | h
  · exact h
  · obtain ⟨k, hk, hw, ha⟩ := h.exists_since
    exact absurd ha (foreign k hk hw)

/-- A flow whose font cannot be loaded has got a handle, and writes nothing. -/
theorem unwritten_of_missing_font :
    let missing : ScriptError := .external "no such font"
    let env := (Environment.willing (FixedWidthFont.monospace 500 0)).failingAt 2 missing
    let c := (([.declaration (.resource ⟨"/F", .font, "f"⟩), .page (.template .a4)] :
      List Statement).forM (statement env.recorded)).run (fresh ∅ ((), 0))
    let run := (statement env.recorded (.graphics ⟨.flowText,
      [.array [.string [0x61], .name "/F", .number 9], .number 0, .number 0, .number 99,
        .number 99], by decide⟩)).run c.2
    run.1 = .error missing ∧ run.2.handles.find? "/F" = some "/F" ∧
      (∀ k ∈ c.2.since run.2, k.call.OfWriter → k.answer ≠ .error missing) ∧
        c.2.Unwritten run.2 := by
  intro missing env c run
  have refused : run = (.error missing, run.2) := Prod.ext rfl rfl
  have calls : c.2.since run.2 = [⟨.fontHandle ⟨"/F", .font, "f"⟩, .ok "/F"⟩,
    ⟨.loadFont ⟨"/F", .font, "f"⟩, .error missing⟩] := rfl
  have foreign : ∀ k ∈ c.2.since run.2, k.call.OfWriter → k.answer ≠ .error missing := by
    rw [calls]
    simp [Call.OfWriter]
  exact ⟨rfl, rfl, foreign, unwritten_of_refused env c.2 _ refused foreign⟩

end Conversion

end PageScript
