import PageScript.Proofs.GotOnce
import PageScript.Proofs.Mentions

/-!
# Names keep their handles

A caller gives scripts and statements to one converter, whether or not those before have failed. A
name is written with the same handle by all of them.
-/
namespace PageScript

open Step Converter

variable {φ ω : Type}

theorem Value.length_substituteItems {bindings : Table Value} {items ws : List Value}
    (h : substituteItems bindings items = .ok ws) : ws.length = items.length := by
  induction items generalizing ws with
  | nil =>
    cases h
    rfl
  | cons v items ih =>
    obtain ⟨w, ws', -, hrest, rfl⟩ := substituteItems_cons_eq_ok.mp h
    rw [List.length_cons, List.length_cons, ih hrest]

section Operands

/-- The operation uses a name for which it is written with a handle. -/
inductive Takes (c : Converter φ ω) (op : Operator) (operands : List Value) (x : String) :
    Prop where
  | used {role : Role} (uses : Uses op operands role x) : Takes c op operands x
  | pattern {stroking : Bool} {components : List Value} (paints : op.paints? = some stroking)
      (names : operands = components ++ [.name x]) (declared : c.patterns.contains x)
      (colorless : components = [] → c.colors.find? x = none) : Takes c op operands x

/-- The calls that write the operation, where names that it uses have the handles that are kept.
They may be any calls if it uses none. -/
inductive Spelling [FontMetrics φ Float32] (kept c : Recorder φ ω) (op : Operator)
    (operands : List Value) : List Call → Prop where
  | direct {role : Role} {x handle : String} {rest : List Value} (takes : op.role? = some role)
      (whole : op ≠ .drawImage) (names : operands = .name x :: rest)
      (found : kept.handles.find? x = some handle) :
      Spelling kept c op operands (Conversion.written op (.name handle :: rest))
  | image {x handle : String} {left bottom width height : Float32} (draws : op = .drawImage)
      (names : operands = [.name x, .number left, .number bottom, .number width, .number height])
      (found : kept.handles.find? x = some handle) :
      Spelling kept c op operands (Conversion.imageCalls handle left bottom width height)
  | pattern {stroking : Bool} {components : List Value} {x handle : String}
      (paints : op.paints? = some stroking) (names : operands = components ++ [.name x])
      (found : kept.handles.find? x = some handle) :
      Spelling kept c op operands (Conversion.patternCalls stroking components handle)
  | lines {options : FlowOptions Float32} {lines : List (Line (LoadedFont φ) Float32)}
      (flows : op = .flowText) (laid : Conversion.LaysOut kept operands options lines) :
      Spelling kept c op operands (Conversion.linesCalls options lines)
  | unnamed {calls : List Call} (none : ∀ x, ¬ Takes c op operands x) :
      Spelling kept c op operands calls

variable [FontMetrics φ Float32] {kept kept' c c' : Recorder φ ω} {op : Operator}
  {operands : List Value} {calls : List Call}

/-- Colours and patterns are declared as before, and more handles and fonts may be kept. -/
theorem Spelling.mono (h : Spelling kept c op operands calls)
    (hp : c'.patterns = c.patterns) (hc : c'.colors = c.colors)
    (hh : ∀ x handle, kept.handles.find? x = some handle → kept'.handles.find? x = some handle)
    (hf : ∀ x f, kept.fonts.find? x = some f → kept'.fonts.find? x = some f) :
    Spelling kept' c' op operands calls := by
  cases h with
  | direct takes whole names found => exact .direct takes whole names (hh _ _ found)
  | image draws names found => exact .image draws names (hh _ _ found)
  | pattern paints names found => exact .pattern paints names (hh _ _ found)
  | lines flows laid => exact .lines flows (laid.imp fun x f hl => ⟨hh _ _ hl.1, hf _ _ hl.2⟩)
  | unnamed none =>
    refine .unnamed fun x hx => none x ?_
    cases hx with
    | used uses => exact .used uses
    | pattern paints names declared colorless =>
      exact .pattern paints names (hp ▸ declared) (hc ▸ colorless)

theorem Operator.paints_none_of_role {role : Role} (h : op.role? = some role) :
    op.paints? = none := by
  unfold role? at h
  split at h <;> first | rfl | cases h

/-- An operator that takes a name for a role is written with the handle of the name. -/
theorem Expansion.spelling {role : Role} (h : Expansion kept op operands calls)
    (takes : op.role? = some role) : Spelling kept c op operands calls := by
  have hpaints := Operator.paints_none_of_role takes
  cases h with
  | plain own => cases own.symm.trans takes
  | named takes direct names found => exact .direct takes direct names found
  | image draws names found => exact .image draws names found
  | color color paints => cases hpaints.symm.trans paints
  | pattern paints => cases hpaints.symm.trans paints
  | lines options flows =>
    rw [flows] at takes
    cases takes

/-- An operator that takes a name for a role has operands. -/
theorem first_of_role {role : Role} {signature : List ValueKind} (takes : op.role? = some role)
    (hs : signature ∈ op.signatures) (hlength : operands.length = signature.length) :
    ∃ first rest, operands = first :: rest := by
  have hpos : ∀ signature ∈ op.signatures, 0 < signature.length := by
    unfold Operator.role? at takes
    split at takes <;> first | decide | cases takes
  exact List.exists_cons_of_length_pos (hlength ▸ hpos signature hs)

theorem exists_five (h : 5 ≤ operands.length) :
    ∃ a b c d e rest, operands = a :: b :: c :: d :: e :: rest := by
  match operands, h with
  | a :: b :: c :: d :: e :: rest, _ => exact ⟨a, b, c, d, e, rest, rfl⟩

end Operands

namespace Conversion

section Spelled

variable [FontMetrics φ Float32] {env : Environment φ ω} {c : Recorder φ ω}

/-- A last operand that names a pattern is written with the handle of the pattern. -/
theorem spells_setColor {op : Operator} {stroking : Bool} {operands : List Value}
    (paints : op.paints? = some stroking) :
    Expands (setColor env.recorded op stroking operands) c
      fun c' ks => Spelling c' c op operands ks := by
  have unnamed {calls : List Call} {c' : Recorder φ ω}
      (h : ∀ components x, operands = components ++ [.name x] → c.patterns.contains x →
        ¬ (components = [] → c.colors.find? x = none)) : Spelling c' c op operands calls := by
    refine .unnamed fun x hx => ?_
    cases hx with
    | used uses =>
      cases uses with
      | direct takes => cases (Operator.paints_none_of_role takes).symm.trans paints
      | font flows =>
        rw [flows] at paints
        cases paints
    | pattern _ names declared colorless => exact h _ x names declared colorless
  have last {init components : List Value} {name x : String}
      (h : init ++ [.name name] = components ++ [.name x]) : init = components ∧ name = x := by
    obtain ⟨hinit, hname⟩ := List.append_inj' h rfl
    exact ⟨hinit, by simpa using hname⟩
  apply ensures_bind.mpr
  apply ensures_get.mpr
  split
  · next name hl =>
    obtain ⟨init, rfl⟩ := List.getLast?_eq_some_iff.mp hl
    split
    · next color hcolor hlength =>
      apply Expands.write
      apply unnamed
      intro components x names _ colorless
      obtain ⟨rfl, rfl⟩ := last names
      have hinit : init = [] := by simpa using hlength
      cases hcolor.symm.trans (colorless hinit)
    · split
      · apply Expands.bind (handled_patternHandle env c name).asking
        intro handle c₁ _ found
        simp only [write_eq, ← sendAll_append]
        exact .sendAll (.pattern paints (by simp) found)
      · next undeclared =>
        apply Expands.write
        apply unnamed
        intro components x names declared _
        obtain ⟨-, rfl⟩ := last names
        exact absurd declared undeclared
  · next hl =>
    apply Expands.write
    apply unnamed
    intro components x names _ _
    exact absurd (by simp [names]) (hl x)

theorem spells_writeOperation {op : Operator} {operands : List Value}
    (sized : ∃ signature ∈ op.signatures, operands.length = signature.length) :
    Expands (writeOperation env.recorded op operands) c
      fun c' ks => Spelling c' c op operands ks := by
  obtain ⟨signature, hs, hlength⟩ := sized
  unfold writeOperation
  split
  case h_1 =>
    have hfive : ∀ signature ∈ Operator.drawImage.signatures, signature.length = 5 := by decide
    rw [hfive signature hs] at hlength
    obtain ⟨name, x, y, width, height, rest, rfl⟩ := exists_five hlength.ge
    obtain rfl : rest = [] := by simpa using hlength
    exact expands_drawImage.imp fun _ _ h => h.spelling rfl
  case h_2 =>
    have hfive : ∀ signature ∈ Operator.flowText.signatures, 5 ≤ signature.length := by decide
    obtain ⟨array, left, bottom, width, height, rest, rfl⟩ :=
      exists_five (hlength ▸ hfive signature hs)
    apply (expands_flow array left bottom width height rest).imp
    rintro c' _ ⟨options, lines, laid, rfl⟩
    exact .lines rfl laid
  case h_3 =>
    obtain ⟨first, rest, rfl⟩ := first_of_role rfl hs hlength
    exact (expands_writeHandle rfl (by decide) fun name =>
      handled_resourceHandle env c name .font).imp fun _ _ h => h.spelling rfl
  case h_4 =>
    obtain ⟨first, rest, rfl⟩ := first_of_role rfl hs hlength
    exact (expands_writeHandle rfl (by decide) fun name =>
      handled_resourceHandle env c name .image).imp fun _ _ h => h.spelling rfl
  case h_5 =>
    obtain ⟨first, rest, rfl⟩ := first_of_role rfl hs hlength
    exact (expands_writeHandle rfl (by decide) (handled_patternHandle env c)).imp
      fun _ _ h => h.spelling rfl
  case h_6 | h_7 | h_8 | h_9 => exact spells_setColor rfl
  case h_10 =>
    apply Expands.write
    apply Spelling.unnamed
    rintro x (⟨_ | flows⟩ | paints)
    · next takes _ =>
      unfold Operator.role? at takes
      split at takes <;> simp_all
    · contradiction
    · unfold Operator.paints? at paints
      split at paints <;> simp_all

/-- However far the operation has come, what it has written begins a spelling. All else that it has
called are questions and announcements. -/
def Spelt (kept c c' : Recorder φ ω) (o : Operation) : Prop :=
  ∃ before ks behind, c'.calls = c.calls ++ (before ++ ks ++ behind) ∧
    (∀ k ∈ before ++ behind, ¬ k.Writes) ∧
    (ks = [] ∨ ∃ operands full, Value.substituteItems c.bindings o.operands = .ok operands ∧
      Spelling kept c o.operator operands full ∧ ks <+: full)

theorem Spelt.mono {kept kept' c c₁ c' : Recorder φ ω} {o : Operation} (h : Spelt kept c c' o)
    (hg : kept.Grows kept') (hw : c₁.world = c.world) (hb : c₁.bindings = c.bindings)
    (hp : c₁.patterns = c.patterns) (hc : c₁.colors = c.colors) : Spelt kept' c₁ c' o := by
  obtain ⟨before, ks, behind, hcalls, quiet, hks⟩ := h
  refine ⟨before, ks, behind, ?_, quiet, hks.imp_right ?_⟩
  · rw [hcalls, calls, calls, events, events, hw]
  · rintro ⟨operands, full, hsub, hx, hk⟩
    exact ⟨operands, full, hb ▸ hsub, hx.mono hp hc hg.handles hg.fonts, hk⟩

theorem spelt_of_sent {c₀ c₁ c₂ c' : Recorder φ ω} {o : Operation} {next : Context}
    {operands : List Value} {first ks last : List Call}
    (hsub : Value.substituteItems c.bindings o.operands = .ok operands)
    (h₀ : { c with context := next }.Sent first c₀) (ha : c₀.Asked c₁) (h₁ : c₁.Sent ks c₂)
    (h₂ : c₂.Sent last c') (quiet : ∀ k ∈ first ++ last, ¬ k.Writes)
    (hks : ks = [] ∨ ∃ full, Spelling c₁ c₀ o.operator operands full ∧ ks <+: full) :
    Spelt c' c c' o := by
  obtain ⟨asked, hasked, hasks⟩ := ha.calls
  rw [List.forall_mem_append] at quiet
  refine ⟨first ++ asked, ks, last, ?_, ?_, hks.imp_right ?_⟩
  · rw [h₂.calls_eq, h₁.calls_eq, hasked, h₀.calls_eq]
    simp [calls, events]
  · simp only [List.forall_mem_append]
    exact ⟨⟨quiet.1, fun k hk => (hasks k hk).not_writes⟩, quiet.2⟩
  · rintro ⟨full, hx, hk⟩
    refine ⟨operands, full, hsub, hx.mono ?_ ?_ ?_ ?_, hk⟩
    · rw [h₀.1]
    · rw [h₀.1]
    · rw [h₂.1, h₁.1]
      exact fun _ _ h => h
    · rw [h₂.1, h₁.1]
      exact fun _ _ h => h

theorem spells_operation (o : Operation) :
    (operation env.recorded o).Ensures c (fun _ c' => Spelt c' c c' o) fun _ c' => Spelt c' c c' o := by
  have stopped : Spelt c c c o := ⟨[], [], [], by simp, by simp, .inl rfl⟩
  rw [operation_eq]
  simp only [move, ensures_bind, ensures_get, ensures_ofExcept, ensures_modify]
  refine ⟨fun operands hsub => ⟨fun next _ => ?_, fun _ _ => stopped⟩, fun _ _ => stopped⟩
  have sized : ∃ signature ∈ o.operator.signatures, operands.length = signature.length := by
    obtain ⟨signature, hs, haccepts⟩ := o.accepted
    exact ⟨signature, hs, (Value.length_substituteItems hsub).trans haccepts.length_eq⟩
  have quiet := Context.announcement_quiet c.context next
  apply (ensures_sendAll env _ _).mono
  · intro _ c₀ h₀
    apply (spells_writeOperation sized).mono
    · rintro _ c₂ ⟨c₁, full, ha, hx, h₁⟩
      have written : full = [] ∨ ∃ full', Spelling c₁ c₀ o.operator operands full' ∧
          full <+: full' := .inr ⟨full, hx, List.prefix_refl full⟩
      apply (ensures_sendAll env _ _).mono
      · intro _ c' h₂
        exact spelt_of_sent hsub h₀ ha h₁ h₂ (fun k hk => (quiet k hk).1) written
      · rintro _ c' ⟨-, last, -, hp, h₂⟩
        refine spelt_of_sent hsub h₀ ha h₁ h₂ (fun k hk => (quiet k ?_).1) written
        exact ((List.prefix_append_right_inj _).mpr hp).subset hk
    · rintro _ c' ⟨-, c₁, ks, ha, h₁, hks⟩
      refine spelt_of_sent hsub h₀ ha h₁ (.refl c') (fun k hk => (quiet k ?_).1) hks
      exact List.mem_append_left _ (by simpa using hk)
  · rintro _ c' ⟨-, first, -, hp, h₀⟩
    refine spelt_of_sent hsub h₀ (.refl c') (.refl c') (.refl c') (fun k hk => (quiet k ?_).1)
      (.inl rfl)
    exact List.mem_append_left _ (hp.subset (by simpa using hk))

theorem spelt_statement (env : Environment φ ω) (c : Recorder φ ω) (o : Operation) :
    let c' := ((statement env.recorded (.graphics o)).run c).2
    Spelt c' c c' o := by
  have h : (statement env.recorded (.graphics o)).Ensures c (fun _ c' => Spelt c' c c' o)
      fun _ c' => Spelt c' c c' o :=
    ensures_bind.mpr <| ensures_modify.mpr <| (spells_operation o).mono
      (fun _ c' h => h.mono (Std.Refl.refl c') rfl rfl rfl rfl)
      fun _ c' h => h.mono (Std.Refl.refl c') rfl rfl rfl rfl
  exact h.state

end Spelled

section Sessions

variable [FontMetrics φ Float32] (env : Environment φ ω)

/-- The statements that are converted, up to the first error, each with the converter that it
finds. -/
def visits (c : Converter φ ω) :
    List (Except StatementError Statement) → List (Converter φ ω × Statement)
  | [] => []
  | .error _ :: _ => []
  | .ok t :: rest =>
    (c, t) :: match (statement env t).run c with
      | (.ok (), c') => visits c' rest
      | (.error _, _) => []

end Sessions

end Conversion

/-- What a caller gives to a converter. -/
inductive Request where
  | statement (t : Statement)
  | document (r : Reader)

namespace Request

variable [FontMetrics φ Float32] (env : Environment φ ω)

/-- The converter behind the request, whether or not it has failed. -/
def outcome (c : Converter φ ω) : Request → Converter φ ω
  | statement t => ((Conversion.statement env t).run c).2
  | document r => (Conversion.document env c r).2

def visits (c : Converter φ ω) : Request → List (Converter φ ω × Statement)
  | statement t => [(c, t)]
  | document r => Conversion.visits env c r.document

/-- The converter behind all requests. -/
def lastOutcome (c : Converter φ ω) : List Request → Converter φ ω
  | [] => c
  | q :: rest => lastOutcome (q.outcome env c) rest

/-- The statements that all requests convert. -/
def allVisits (c : Converter φ ω) : List Request → List (Converter φ ω × Statement)
  | [] => []
  | q :: rest => q.visits env c ++ allVisits (q.outcome env c) rest

end Request

section Sessions

variable [FontMetrics φ Float32] (env : Environment φ ω)

namespace Conversion

/-- What has been got behind each statement stays until the last one. -/
theorem grows_statements (c : Recorder φ ω) (ts : List (Except StatementError Statement)) :
    c.Grows (statements env.recorded c ts).2 ∧ ∀ v ∈ visits env.recorded c ts,
      ((statement env.recorded v.2).run v.1).2.Grows (statements env.recorded c ts).2 := by
  induction ts generalizing c with
  | nil => exact ⟨Std.Refl.refl c, List.forall_mem_nil _⟩
  | cons t ts ih =>
    cases t with
    | error e => exact ⟨Std.Refl.refl c, List.forall_mem_nil _⟩
    | ok t =>
      have hfirst : c.Grows ((statement env.recorded t).run c).2 := (grows_statement t c).state
      rw [statements, visits, List.forall_mem_cons]
      rcases hrun : (statement env.recorded t).run c with ⟨e | _, c'⟩
      · rw [hrun] at hfirst
        exact ⟨hfirst, Std.Refl.refl c', List.forall_mem_nil _⟩
      · rw [hrun] at hfirst
        obtain ⟨hrest, hvisits⟩ := ih c'
        exact ⟨Trans.trans hfirst hrest, hrest, hvisits⟩

/-- Completing a document gets nothing more. -/
theorem grows_document (c : Recorder φ ω) (r : Reader) :
    (statements env.recorded c r.document).2.Grows (document env.recorded c r).2 := by
  rw [document]
  rcases statements env.recorded c r.document with ⟨e | _, c'⟩
  · exact Std.Refl.refl c'
  · have hfinish : c'.Grows ((finish env.recorded).run c').2 := (grows_finish c').state
    rcases hrun : (finish env.recorded).run c' with ⟨e | report, c''⟩
    · simpa only [hrun] using hfinish
    · simpa only [hrun] using hfinish

end Conversion

namespace Request

theorem grows_outcome (c : Recorder φ ω) (q : Request) :
    c.Grows (q.outcome env.recorded c) ∧ ∀ v ∈ q.visits env.recorded c,
      ((Conversion.statement env.recorded v.2).run v.1).2.Grows (q.outcome env.recorded c) := by
  cases q with
  | statement t =>
    refine ⟨(Conversion.grows_statement t c).state, ?_⟩
    rw [visits, List.forall_mem_singleton]
    exact Std.Refl.refl _
  | document r =>
    have hdocument := Conversion.grows_document env c r
    obtain ⟨hstatements, hvisits⟩ := Conversion.grows_statements env c r.document
    exact ⟨Trans.trans hstatements hdocument, fun v hv => Trans.trans (hvisits v hv) hdocument⟩

theorem grows_lastOutcome (c : Recorder φ ω) (qs : List Request) :
    c.Grows (lastOutcome env.recorded c qs) ∧ ∀ v ∈ allVisits env.recorded c qs,
      ((Conversion.statement env.recorded v.2).run v.1).2.Grows
        (lastOutcome env.recorded c qs) := by
  induction qs generalizing c with
  | nil => exact ⟨Std.Refl.refl c, List.forall_mem_nil _⟩
  | cons q qs ih =>
    obtain ⟨hfirst, hvisits⟩ := grows_outcome env c q
    obtain ⟨hrest, hmore⟩ := ih (q.outcome env.recorded c)
    rw [allVisits, List.forall_mem_append]
    exact ⟨Trans.trans hfirst hrest, fun v hv => Trans.trans (hvisits v hv) hrest, hmore⟩

/-- Over all requests a handle is granted once for a name, and a font loaded once. The handles kept
in the end are those granted, and all operations have been written with them. -/
theorem handles_kept (overrides : Overrides) (world : ω) (qs : List Request) :
    let last := lastOutcome env.recorded (fresh overrides world) qs
    (last.granted.map Prod.fst).Nodup ∧ last.loaded.Nodup ∧
      (∀ x handle, last.handles.find? x = some handle ↔ (x, handle) ∈ last.granted) ∧
      ∀ c o, (c, .graphics o) ∈ allVisits env.recorded (fresh overrides world) qs →
        Conversion.Spelt last c ((Conversion.statement env.recorded (.graphics o)).run c).2 o := by
  intro last
  obtain ⟨hgrows, hvisits⟩ := grows_lastOutcome env (fresh overrides world) qs
  have hsettled : last.Settled := hgrows.settled (settled_fresh overrides world)
  refine ⟨hsettled.handlesOnce, hsettled.fontsOnce, hsettled.handles, fun c o hv => ?_⟩
  exact (Conversion.spelt_statement env c o).mono (hvisits _ hv) rfl rfl rfl rfl

set_option maxRecDepth 100000 in
-- The font is missing at first. Its handle is not asked for again.
example :
    let missing : ScriptError := .external "no such font"
    let env := (Environment.willing (FixedWidthFont.monospace 500 0)).failingAt 2 missing
    let flow : Statement := .graphics ⟨.flowText,
      [.array [.string [0x61], .name "/F", .number 9], .number 0, .number 0, .number 99,
        .number 99], by decide⟩
    let last := lastOutcome env.recorded (fresh ∅ ((), 0))
      [.statement (.declaration (.resource ⟨"/F", .font, "f"⟩)), .statement (.page (.template .a4)),
        .statement flow, .statement flow]
    last.granted = [("/F", "/F")] ∧ last.loaded = ["/F"] := by
  decide +kernel

end Request

end Sessions

end PageScript
