import PageScript.Proofs.Asking
import PageScript.Proofs.FlowFonts
import PageScript.Proofs.Writing

/-!
# What operations come to

An operation asks for what it names and then makes calls that write it out. Either it is written as
it stands, or with a handle for a name, or as something else altogether.
-/
namespace PageScript

open Step Converter

variable {φ ω : Type}

/-- The names of the fonts in a list of spans. -/
def spanNames : List Value → List String
  | _ :: .name name :: _ :: rest => name :: spanNames rest
  | _ => []

namespace Operator

def role? : Operator → Option Role
  | setFont => some .font
  | drawImage | paintXObject => some .image
  | shade => some .pattern
  | _ => none

/-- Whether the operator sets a colour, and if so whether it is that of lines. -/
def paints? : Operator → Option Bool
  | setStrokeColor | setStrokeColorN => some true
  | setFillColor | setFillColorN => some false
  | _ => none

end Operator

section Operands

variable {op : Operator} {operands : List Value}

theorem drawImage_operands
    (accepted : ∃ signature ∈ Operator.drawImage.signatures, Accepts signature operands) :
    ∃ name x y width height, operands = [name, x, y, width, height] := by
  obtain ⟨signature, hs, ha⟩ := accepted
  obtain rfl : signature = .name :: ValueKind.numbers 4 := List.mem_singleton.mp hs
  simp only [ValueKind.numbers, List.replicate, accepts_cons, accepts_nil] at ha
  obtain ⟨name, _, rfl, -, x, _, rfl, -, y, _, rfl, -, width, _, rfl, -, height, _, rfl, -, rfl⟩ := ha
  exact ⟨name, x, y, width, height, rfl⟩

theorem flowText_operands
    (accepted : ∃ signature ∈ Operator.flowText.signatures, Accepts signature operands) :
    ∃ array left bottom width height rest,
      operands = array :: left :: bottom :: width :: height :: rest := by
  obtain ⟨signature, hs, ha⟩ := accepted
  obtain ⟨options, rfl⟩ : ∃ options, signature = .array :: (ValueKind.numbers 4 ++ options) := by
    rcases List.mem_cons.mp hs with rfl | hs
    · exact ⟨_, rfl⟩
    · exact ⟨[], List.mem_singleton.mp hs⟩
  simp only [ValueKind.numbers, List.replicate, List.cons_append, accepts_cons] at ha
  obtain ⟨array, _, rfl, -, left, _, rfl, -, bottom, _, rfl, -, width, _, rfl, -, height, rest,
    rfl, -⟩ := ha
  exact ⟨array, left, bottom, width, height, rest, rfl⟩

/-- The first operand of an operator with a role is a name. -/
theorem operands_of_role {role : Role} (takes : op.role? = some role)
    (accepted : ∃ signature ∈ op.signatures, Accepts signature operands) :
    ∃ first rest, operands = first :: rest ∧ first.kind = some .name := by
  obtain ⟨signature, hs, ha⟩ := accepted
  obtain ⟨kinds, rfl⟩ : ∃ kinds, signature = .name :: kinds := by
    unfold Operator.role? at takes
    split at takes <;> first | exact ⟨_, List.mem_singleton.mp hs⟩ | cases takes
  obtain ⟨first, rest, rfl, hk, -⟩ := accepts_cons.mp ha
  exact ⟨first, rest, rfl, hk⟩

end Operands

/-- The calls that an operation comes to where names have the handles that are kept. -/
inductive Expansion (c : Recorder φ ω) (op : Operator) (operands : List Value) :
    List Call → Prop where
  | plain (own : op.role? = none) (whole : op ≠ .flowText) :
      Expansion c op operands (Conversion.written op operands)
  | named {role : Role} {name handle : String} {rest : List Value} (takes : op.role? = some role)
      (direct : op ≠ .drawImage) (names : operands = .name name :: rest)
      (found : c.handles.find? name = some handle) :
      Expansion c op operands (Conversion.written op (.name handle :: rest))
  | image {name handle : String} {x y width height : Float32} (draws : op = .drawImage)
      (names : operands = [.name name, .number x, .number y, .number width, .number height])
      (found : c.handles.find? name = some handle) :
      Expansion c op operands (Conversion.imageCalls handle x y width height)
  | color {stroking : Bool} (color : Color) (paints : op.paints? = some stroking) :
      Expansion c op operands
        (Conversion.written (color.setOperator stroking) (color.components.map .number))
  | pattern {stroking : Bool} {components : List Value} {name handle : String}
      (paints : op.paints? = some stroking) (names : operands = components ++ [.name name])
      (found : c.handles.find? name = some handle) :
      Expansion c op operands (Conversion.patternCalls stroking components handle)
  | lines {items rest : List Value} (options : FlowOptions Float32)
      {lines : List (Line (LoadedFont φ) Float32)} (flows : op = .flowText)
      (names : operands = .array items :: rest)
      (fonts : ∀ line ∈ lines, line.AllFonts fun f =>
        ∃ name ∈ spanNames items, Conversion.Loaded c name f) :
      Expansion c op operands (Conversion.linesCalls options lines)

namespace Conversion

variable {env : Environment φ ω} {c : Recorder φ ω}

/-- The step asks, and then makes calls that satisfy `P`. If it fails it has made some of them at
most, and a reason of contexts is that of a call. -/
def Expands (m : Conversion φ (ω × Array (Event φ)) Unit) (c : Recorder φ ω)
    (P : Recorder φ ω → List Call → Prop) : Prop :=
  m.Ensures c (fun _ c' => ∃ c₁ ks, c.Asked c₁ ∧ P c₁ ks ∧ c₁.Sent ks c')
    fun e c' => (e.OfContext → c'.Failed e) ∧ ∃ c₁ ks, c.Asked c₁ ∧ c₁.Sent ks c' ∧
      (ks = [] ∨ ∃ full, P c₁ full ∧ ks <+: full)

variable {P : Recorder φ ω → List Call → Prop}

theorem Expands.sendAll {ks : List Call} (h : P c ks) :
    Expands (sendAll env.recorded ks) c P := by
  refine (ensures_sendAll env ks c).mono (fun _ c' hs => ⟨c, ks, .refl c, h, hs⟩) ?_
  rintro e c' ⟨he, ks', -, hp, hs⟩
  exact ⟨fun _ => he, c, ks', .refl c, hs, .inr ⟨ks, h, hp⟩⟩

theorem Expands.bind {α : Type} {m : Conversion φ (ω × Array (Event φ)) α}
    {f : α → Conversion φ (ω × Array (Event φ)) Unit} {post : α → Recorder φ ω → Prop}
    (hm : Asking m c post)
    (hf : ∀ a c₁, c.Asked c₁ → post a c₁ → Expands (f a) c₁ P) :
    Expands (m >>= f) c P := by
  refine ensures_bind.mpr (Ensures.mono hm (fun a c₁ ⟨h, hp⟩ => ?_) fun e c' ⟨h, he⟩ =>
    ⟨he, c', [], h, .refl c', .inl rfl⟩)
  refine Ensures.mono (hf a c₁ h hp) ?_ ?_
  · rintro _ c' ⟨c₂, ks, h', hP, hs⟩
    exact ⟨c₂, ks, h.trans h', hP, hs⟩
  · rintro e c' ⟨he, c₂, ks, h', hs, hP⟩
    exact ⟨he, c₂, ks, h.trans h', hs, hP⟩

theorem Expands.extract {α : Type} {x : Except ScriptError α}
    {f : α → Conversion φ (ω × Array (Event φ)) Unit} (hx : Plain x)
    (hf : ∀ a, x = .ok a → Expands (f a) c P) :
    Expands (MonadExcept.ofExcept x >>= f) c P := by
  refine ensures_bind.mpr (ensures_ofExcept.mpr ⟨hf, fun e he => ?_⟩)
  exact ⟨fun hc => absurd hc (hx e he), c, [], .refl c, .refl c, .inl rfl⟩

theorem Expands.write {op : Operator} {operands : List Value} (h : P c (written op operands)) :
    Expands (write env.recorded op operands) c P := by
  rw [write_eq]
  exact .sendAll h

theorem Expands.imp {m : Conversion φ (ω × Array (Event φ)) Unit}
    {P' : Recorder φ ω → List Call → Prop} (h : Expands m c P)
    (hP : ∀ c' ks, P c' ks → P' c' ks) : Expands m c P' := by
  refine Ensures.mono h ?_ ?_
  · rintro _ c' ⟨c₁, ks, ha, hks, hs⟩
    exact ⟨c₁, ks, ha, hP c₁ ks hks, hs⟩
  · rintro e c' ⟨he, c₁, ks, ha, hs, hks⟩
    exact ⟨he, c₁, ks, ha, hs, hks.imp_right fun ⟨full, hfull, hp⟩ => ⟨full, hP c₁ full hfull, hp⟩⟩

abbrev ExpandsTo (c : Recorder φ ω) (op : Operator) (operands : List Value)
    (m : Conversion φ (ω × Array (Event φ)) Unit) : Prop :=
  Expands m c fun c' ks => Expansion c' op operands ks

theorem expands_writeHandle {op : Operator} {role : Role} {first : Value} {rest : List Value}
    {handle : String → Conversion φ (ω × Array (Event φ)) String} (hrole : op.role? = some role)
    (direct : op ≠ .drawImage) (hh : ∀ name, Handled c (handle name) role name) :
    ExpandsTo c op (first :: rest) (writeHandle env.recorded op handle (first :: rest)) := by
  refine Expands.extract first.plain_toName fun name hn => ?_
  refine Expands.bind (hh name).asking fun h c₁ _ hf => ?_
  exact .write (.named hrole direct (by rw [Value.toName_eq_ok hn]) hf)

theorem expands_drawImage {name x y width height : Value} :
    ExpandsTo c .drawImage [name, x, y, width, height]
      (drawImage env.recorded [name, x, y, width, height]) := by
  refine Expands.extract name.plain_toName fun name' hn => ?_
  refine Expands.extract x.plain_toNumber fun x' hx => ?_
  refine Expands.extract y.plain_toNumber fun y' hy => ?_
  refine Expands.extract width.plain_toNumber fun width' hwidth => ?_
  refine Expands.extract height.plain_toNumber fun height' hheight => ?_
  refine Expands.bind (handled_resourceHandle env c name' .image).asking fun handle c₁ _ hf => ?_
  simp only [write_eq, ← sendAll_append]
  refine Expands.sendAll (.image rfl ?_ hf)
  rw [Value.toName_eq_ok hn, Value.toNumber_eq_ok hx, Value.toNumber_eq_ok hy,
    Value.toNumber_eq_ok hwidth, Value.toNumber_eq_ok hheight]

theorem expands_setPattern {op : Operator} {stroking : Bool} {operands components : List Value}
    {name : String} (paints : op.paints? = some stroking)
    (names : operands = components ++ [.name name]) :
    ExpandsTo c op operands (setPattern env.recorded stroking components name) := by
  refine Expands.bind (handled_patternHandle env c name).asking fun handle c₁ _ hf => ?_
  simp only [write_eq, ← sendAll_append]
  exact .sendAll (.pattern paints names hf)

theorem expands_setColor {op : Operator} {stroking : Bool} {operands : List Value}
    (paints : op.paints? = some stroking) :
    ExpandsTo c op operands (setColor env.recorded op stroking operands) := by
  have hplain : Expansion c op operands (written op operands) := by
    refine .plain ?_ ?_ <;> cases op <;> simp_all [Operator.paints?, Operator.role?]
  refine ensures_bind.mpr (ensures_get.mpr ?_)
  split
  · next name hl =>
    split
    · next color _ _ => exact Expands.write (.color color paints)
    · split
      · refine expands_setPattern paints ?_
        obtain ⟨init, rfl⟩ := List.getLast?_eq_some_iff.mp hl
        simp
      · exact Expands.write hplain
  · exact Expands.write hplain

/-- The spans are those of a list of items, with fonts that have been loaded. -/
inductive Reads (c : Recorder φ ω) : List Value → List (Span (LoadedFont φ) Float32) → Prop where
  | nil : Reads c [] []
  | cons {bytes : List UInt8} {name : String} {size : Float32} {f : LoadedFont φ}
      {rest : List Value} {spans : List (Span (LoadedFont φ) Float32)} (loaded : Loaded c name f)
      (more : Reads c rest spans) :
      Reads c (.string bytes :: .name name :: .number size :: rest)
        (⟨Latin1.decode bytes, f, size⟩ :: spans)

theorem Reads.imp {c' : Recorder φ ω} {items : List Value}
    {spans : List (Span (LoadedFont φ) Float32)} (h : Reads c items spans)
    (keeps : ∀ name f, Loaded c name f → Loaded c' name f) : Reads c' items spans := by
  induction h with
  | nil => exact .nil
  | cons loaded _ ih => exact .cons (keeps _ _ loaded) ih

/-- The font of each span has been loaded under a name among the items. -/
theorem Reads.fonts {items : List Value} {spans : List (Span (LoadedFont φ) Float32)}
    (h : Reads c items spans) : ∀ s ∈ spans, ∃ name ∈ spanNames items, Loaded c name s.font := by
  induction h with
  | nil => exact nofun
  | @cons _ name _ _ _ _ loaded _ ih =>
    refine List.forall_mem_cons.mpr ⟨⟨name, List.mem_cons_self, loaded⟩, fun s hs => ?_⟩
    obtain ⟨y, hy, hf⟩ := ih s hs
    exact ⟨y, List.mem_cons_of_mem _ hy, hf⟩

theorem asking_spansFrom [FontMetrics φ Float32] (c : Recorder φ ω) : (items : List Value) →
    items.length % 3 = 0 →
      Asking (spansFrom env.recorded items) c fun spans c' => Reads c' items spans
  | text :: name :: size :: rest, h => by
    refine Asking.extract text.plain_toBytes fun bytes hbytes => ?_
    refine Asking.extract name.plain_toName fun x hx => ?_
    refine (asking_font x).bind fun f c₁ _ hf => ?_
    refine Asking.extract size.plain_toNumber fun n hn => ?_
    have hrest : rest.length % 3 = 0 := by
      simp only [List.length_cons] at h
      omega
    refine (asking_spansFrom c₁ rest hrest).bind fun spans c₂ h₂ hs => Asking.pure ?_
    rw [Value.toBytes_eq_ok hbytes, Value.toName_eq_ok hx, Value.toNumber_eq_ok hn]
    exact .cons (hf.asked h₂) hs
  | [], _ => Asking.pure .nil

theorem asking_spans [FontMetrics φ Float32] (items : List Value) :
    Asking (spans env.recorded items) c fun spans c' => Reads c' items spans := by
  unfold spans
  split
  · next h => exact asking_spansFrom c items h
  · exact Asking.throw id

/-- The options of a text flow, from the operands behind its rectangle. -/
def optionsFrom : List Value → Except ScriptError (FlowOptions Float32)
  | [] => .ok .standard
  | d :: _ => d.toDictionary >>= FlowOptions.ofDictionary

/-- The operands of a text flow are laid out into lines. Those that do not fit are left out. -/
inductive LaysOut [FontMetrics φ Float32] (c : Recorder φ ω) :
    List Value → FlowOptions Float32 → List (Line (LoadedFont φ) Float32) → Prop where
  | intro {items rest : List Value} {left bottom width height : Float32}
      {options : FlowOptions Float32} {spans : List (Span (LoadedFont φ) Float32)}
      (read : Reads c items spans) (given : optionsFrom rest = .ok options) :
      LaysOut c
        (.array items :: .number left :: .number bottom :: .number width :: .number height :: rest)
        options (Flow.placed (Flow.lines options spans ⟨left, bottom, width, height⟩))

theorem LaysOut.imp [FontMetrics φ Float32] {c' : Recorder φ ω} {operands : List Value}
    {options : FlowOptions Float32} {lines : List (Line (LoadedFont φ) Float32)}
    (h : LaysOut c operands options lines) (keeps : ∀ name f, Loaded c name f → Loaded c' name f) :
    LaysOut c' operands options lines := by
  cases h with
  | intro read given => exact .intro (read.imp keeps) given

/-- The lines are shown, whether or not all of them fit. -/
theorem expands_placed [FontMetrics φ Float32] {operands : List Value}
    {options : FlowOptions Float32} {spans : List (Span (LoadedFont φ) Float32)}
    {rect : Rectangle Float32}
    (laid : LaysOut c operands options (Flow.placed (Flow.lines options spans rect))) :
    Expands (match Flow.lines options spans rect with
      | .ok lines => writeLines env.recorded options lines
      | .error overflow => do
        countOverflow
        writeLines env.recorded options overflow.lines) c
      fun c' ks => ∃ options lines, LaysOut c' operands options lines ∧
        ks = linesCalls options lines := by
  split
  · next lines hl =>
    rw [hl] at laid
    rw [writeLines_eq]
    exact .sendAll ⟨options, lines, laid, rfl⟩
  · next overflow ho =>
    rw [ho] at laid
    have counted : Asking countOverflow c fun _ c' => c.Asked c' :=
      ⟨.overflow _, .overflow _⟩
    refine Expands.bind counted fun _ c' _ ha => ?_
    rw [writeLines_eq]
    exact .sendAll ⟨options, overflow.lines, laid.imp fun _ _ h => h.asked ha, rfl⟩

/-- A text flow is laid out and shown. -/
theorem expands_flow [FontMetrics φ Float32] (array left bottom width height : Value)
    (rest : List Value) :
    Expands (flowText env.recorded (array :: left :: bottom :: width :: height :: rest)) c
      fun c' ks => ∃ options lines,
        LaysOut c' (array :: left :: bottom :: width :: height :: rest) options lines ∧
          ks = linesCalls options lines := by
  refine Expands.extract array.plain_toItems fun items hi => ?_
  refine Expands.bind (asking_spans items) fun spans c₁ _ hs => ?_
  refine Expands.extract left.plain_toNumber fun left' hleft => ?_
  refine Expands.extract bottom.plain_toNumber fun bottom' hbottom => ?_
  refine Expands.extract width.plain_toNumber fun width' hwidth => ?_
  refine Expands.extract height.plain_toNumber fun height' hheight => ?_
  rw [Value.toItems_eq_ok hi, Value.toNumber_eq_ok hleft, Value.toNumber_eq_ok hbottom,
    Value.toNumber_eq_ok hwidth, Value.toNumber_eq_ok hheight]
  cases rest with
  | nil => exact expands_placed (.intro hs rfl)
  | cons d rest =>
    exact Expands.extract (d.plain_toDictionary.bind FlowOptions.plain_ofDictionary)
      fun options hoptions => expands_placed (.intro hs hoptions)

theorem expands_flowText [FontMetrics φ Float32] {array left bottom width height : Value}
    {rest : List Value} :
    ExpandsTo c .flowText (array :: left :: bottom :: width :: height :: rest)
      (flowText env.recorded (array :: left :: bottom :: width :: height :: rest)) := by
  refine (expands_flow array left bottom width height rest).imp ?_
  rintro c' _ ⟨options, lines, ⟨read, given⟩, rfl⟩
  exact .lines options rfl rfl (Flow.allFonts_lines read.fonts)

/-- An operation whose operands its operator accepts expands. -/
theorem expands_writeOperation [FontMetrics φ Float32] {op : Operator} {operands : List Value}
    (accepted : ∃ signature ∈ op.signatures, Accepts signature operands) :
    ExpandsTo c op operands (writeOperation env.recorded op operands) := by
  unfold writeOperation
  split
  case h_1 =>
    obtain ⟨name, x, y, width, height, rfl⟩ := drawImage_operands accepted
    exact expands_drawImage
  case h_2 =>
    obtain ⟨array, left, bottom, width, height, rest, rfl⟩ := flowText_operands accepted
    exact expands_flowText
  case h_3 =>
    obtain ⟨first, rest, rfl, -⟩ := operands_of_role rfl accepted
    exact expands_writeHandle rfl (by decide) fun name => handled_resourceHandle env c name .font
  case h_4 =>
    obtain ⟨first, rest, rfl, -⟩ := operands_of_role rfl accepted
    exact expands_writeHandle rfl (by decide) fun name => handled_resourceHandle env c name .image
  case h_5 =>
    obtain ⟨first, rest, rfl, -⟩ := operands_of_role rfl accepted
    exact expands_writeHandle rfl (by decide) (handled_patternHandle env c)
  case h_6 | h_7 | h_8 | h_9 => exact expands_setColor rfl
  case h_10 =>
    refine Expands.write (.plain ?_ ?_)
    · unfold Operator.role?
      split <;> simp_all
    · assumption

end Conversion

end PageScript
