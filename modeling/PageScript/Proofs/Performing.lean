import PageScript.Proofs.Expansion

/-!
# How operations are performed

An operation announces the object it opens, asks for what it names, is written, and announces the
object it has closed. When it fails it stops on the way.
-/
namespace PageScript

open Step Converter

variable {φ ω : Type}

/-- The calls that announce an object before the operator that opens it. -/
def Context.opening (before after : Context) : List Call :=
  (if before ≠ .path ∧ after = .path then [.beginPath] else []) ++
    if before ≠ .text ∧ after = .text then [.beginText] else []

/-- The calls that announce the end of an object behind the operator that closes it. -/
def Context.closing (before after : Context) : List Call :=
  (if before = .path ∧ after ≠ .path then [.endPath] else []) ++
    if before = .text ∧ after ≠ .text then [.endText] else []

@[simp] theorem Context.opening_self (context : Context) : context.opening context = [] := by
  cases context <;> rfl

@[simp] theorem Context.closing_self (context : Context) : context.closing context = [] := by
  cases context <;> rfl

namespace Conversion

variable (env : Environment φ ω)

theorem call_if {k : Call} {m : Conversion φ ω Unit} (hk : send env k = m) (p : Prop)
    [Decidable p] : (if p then m else pure ()) = sendAll env (if p then [k] else []) := by
  split
  · rw [sendAll_singleton, hk]
  · rfl

theorem call_if_then {k : Call} {m : Conversion φ ω Unit} (hk : send env k = m) (p : Prop)
    [Decidable p] (rest : Conversion φ ω Unit) :
    (if p then (do m; rest) else rest) = (do sendAll env (if p then [k] else []); rest) := by
  split
  · rw [sendAll_singleton, hk]
  · rfl

/-- An operation has been performed: `first` has been called, it has asked, and calls that satisfy
`P` have been made. -/
def Performed (c : Recorder φ ω) (o : Operation) (next : Context) (first : List Call)
    (P : Recorder φ ω → List Value → List Call → Prop) (c' : Recorder φ ω) : Prop :=
  ∃ operands c₀ c₁ ks, Value.substituteItems c.bindings o.operands = .ok operands ∧
    { c with context := next }.Sent first c₀ ∧ c₀.Asked c₁ ∧ P c₁ operands ks ∧
      c₁.Sent ks c'

theorem Performed.same {c c' : Recorder φ ω} {o : Operation} {next : Context} {first : List Call}
    {P : Recorder φ ω → List Value → List Call → Prop} (h : Performed c o next first P c') :
    c' = { c with
      context := next, world := c'.world, handles := c'.handles, fonts := c'.fonts
      report := { c.report with overflows := c'.report.overflows } } := by
  obtain ⟨operands, c₀, c₁, ks, -, h₀, ha, -, h₁⟩ := h
  rw [h₁.1, ha.same, h₀.1]

variable [FontMetrics φ Float32]

theorem operation_eq (o : Operation) :
    operation env o = (do
      let operands ← MonadExcept.ofExcept (Value.substituteItems (← get).bindings o.operands)
      let before := (← get).context
      move fun context => context.accept o.operator
      let after := (← get).context
      sendAll env (before.opening after)
      writeOperation env o.operator operands
      sendAll env (before.closing after)) := by
  have hbp : send env .beginPath = call env .beginPath := discard_unit _
  have hbt : send env .beginText = call env .beginText := discard_unit _
  have hep : send env .endPath = call env .endPath := discard_unit _
  have het : send env .endText = call env .endText := discard_unit _
  simp only [operation, call_if_then env hbp, call_if_then env hbt, call_if_then env hep,
    call_if env het, Context.opening, Context.closing, sendAll_append, bind_assoc]

variable {env} {c : Recorder φ ω}

/-- An operation is performed as a whole, or stops on the way. -/
theorem ensures_operation {o : Operation} {next : Context}
    (accepted : ∀ operands, Value.substituteItems c.bindings o.operands = .ok operands →
      ∃ signature ∈ o.operator.signatures, Accepts signature operands)
    (hn : c.context.accept o.operator = .ok next) :
    (operation env.recorded o).Ensures c
      (fun _ c' => Performed c o next (c.context.opening next) (fun c₁ operands ks =>
        ∃ full, Expansion c₁ o.operator operands full ∧
          ks = full ++ c.context.closing next) c')
      fun e c' => (e.OfContext → c'.Failed e) ∧ (c' = c ∨
        ∃ first, first <+: c.context.opening next ∧
          Performed c o next first (fun c₁ operands ks => ks = [] ∨
            first = c.context.opening next ∧ ∃ full, Expansion c₁ o.operator operands full ∧
              ks <+: full ++ c.context.closing next) c') := by
  rw [operation_eq]
  simp only [move, ensures_bind, ensures_get, ensures_ofExcept, ensures_modify]
  refine ⟨fun operands hs => ⟨fun next' hn' => ?_, fun e he => ?_⟩, fun e he => ?_⟩
  · obtain rfl : next = next' := Except.ok.inj (hn.symm.trans hn')
    refine (ensures_sendAll env _ _).mono (fun _ c₀ h₀ => ?_) ?_
    · refine (expands_writeOperation (accepted operands hs)).mono ?_ ?_
      · rintro _ c₂ ⟨c₁, full, ha, hx, h₂⟩
        refine (ensures_sendAll env _ _).mono (fun _ c' h' => ?_) ?_
        · exact ⟨operands, c₀, c₁, _, hs, h₀, ha, ⟨full, hx, rfl⟩, h₂.trans h'⟩
        · rintro e c' ⟨he, ks, -, hk, h'⟩
          exact ⟨fun _ => he, .inr ⟨_, List.prefix_refl _, operands, c₀, c₁, _, hs, h₀, ha,
            .inr ⟨rfl, full, hx, (List.prefix_append_right_inj full).mpr hk⟩, h₂.trans h'⟩⟩
      · rintro e c' ⟨he, c₁, ks, ha, h', hk⟩
        refine ⟨he, .inr ⟨_, List.prefix_refl _, operands, c₀, c₁, ks, hs, h₀, ha, ?_, h'⟩⟩
        rcases hk with rfl | ⟨full, hx, hk⟩
        · exact .inl rfl
        · exact .inr ⟨rfl, full, hx, hk.trans (List.prefix_append _ _)⟩
    · rintro e c' ⟨he, first, -, hf, h'⟩
      exact ⟨fun _ => he, .inr ⟨first, hf, operands, c', c', [], hs, h', .refl c', .inl rfl,
        .refl c'⟩⟩
  · cases hn.symm.trans he
  · exact ⟨fun hc => absurd hc (Value.plain_substituteItems _ _ e he), .inl trivial⟩

end Conversion

end PageScript
