import PageScript.Proofs.Following
import PageScript.Proofs.Reading

/-!
# Whole conversions

What holds for every statement of a script, one after the other, holds for the script.
-/
namespace PageScript

open Step Converter

/-- Before its end, or the error that cuts it off, a script has only statements. -/
theorem Reader.document_eq (r : Reader) :
    ∃ rest, r.document = (statements r.document).map .ok ++ rest ∧
      (rest = [] ∨ ∃ e, rest = [.error e]) := by
  fun_induction document r with
  | case1 r t r' h _ ih =>
    obtain ⟨rest, he, hrest⟩ := ih
    exact ⟨rest, congrArg (.ok t :: ·) he, hrest⟩
  | case2 r r' h => exact ⟨[], rfl, .inl rfl⟩
  | case3 r e r' h => exact ⟨[.error e], rfl, .inr ⟨e, rfl⟩⟩

variable {φ ω : Type}

namespace Conversion

/-- The document is flushed last, and only if nothing is missing. -/
theorem ensures_finish (env : Environment φ ω) (c : Recorder φ ω) :
    (finish env.recorded).Ensures c
      (fun report c' => report = c.report ∧ c.Sent [.flush] c')
      fun e c' => ¬ e.OfContext ∧ c' = c ∨ c'.Failed e ∧ c.Sent [.flush] c' := by
  refine ensures_bind.mpr (ensures_get.mpr ?_)
  split
  · exact .inl ⟨id, rfl⟩
  · refine ensures_bind.mpr (ensures_call env (fun _ w => ?_) fun e w => ?_)
    · exact ⟨rfl, .record c w _⟩
    · exact .inr ⟨.record c w _ e, .record c w _⟩

theorem run_forM_concat {σ : Type} (f : Statement → Step σ Unit) (ts : List Statement)
    (t : Statement) (s : σ) :
    ((ts ++ [t]).forM f).run s = match (ts.forM f).run s with
      | (.ok _, s') => (f t).run s'
      | (.error e, s') => (.error e, s') := by
  have hconcat : (ts ++ [t]).forM f = ts.forM f >>= fun _ => f t :=
    List.forM_append.trans (by simp)
  rw [hconcat, run_bind]
  rcases (ts.forM f).run s with ⟨_ | _, s'⟩ <;> rfl

variable [FontMetrics φ Float32]

theorem statements_append (env : Environment φ ω) (c : Converter φ ω) (ts : List Statement)
    (rest : List (Except StatementError Statement)) :
    statements env c (ts.map .ok ++ rest) =
      match (ts.forM (statement env)).run c with
      | (.ok _, c') => statements env c' rest
      | (.error e, c') => (.error (.conversion e), c') := by
  induction ts generalizing c with
  | nil => rfl
  | cons t ts ih =>
    change statements env c (.ok t :: (ts.map .ok ++ rest)) = _
    change _ = match (statement env t >>= fun _ => ts.forM (statement env)).run c with
      | (.ok _, c') => statements env c' rest
      | (.error e, c') => (.error (.conversion e), c')
    rw [statements, run_bind]
    rcases (statement env t).run c with ⟨e | _, c'⟩
    · rfl
    · exact ih c'

/-- What each statement of a legal script preserves, all of them preserve. -/
theorem ensures_forM {env : Environment φ ω}
    {P : List Statement → Scope → Converter φ ω → Prop}
    {fail : ScriptError → Converter φ ω → Prop}
    (step : ∀ done s t s' c, P done s c → s.Leads t s' →
      (statement env t).Ensures c (fun _ c' => P (done ++ [t]) s' c') fail)
    (done : List Statement) {ts : List Statement} {s s' : Scope} {c : Converter φ ω} (h : s.Legal ts s')
    (hc : P done s c) :
    (ts.forM (statement env)).Ensures c (fun _ c' => P (done ++ ts) s' c') fail := by
  induction h generalizing done c with
  | nil =>
    rw [List.append_nil]
    exact hc
  | @cons s s₁ s' t ts first _ ih =>
    refine ensures_bind.mpr ((step done s t s₁ c hc first).mono (fun _ c₁ hc₁ => ?_) fun _ _ h => h)
    have := ih _ hc₁
    rwa [List.append_assoc] at this

/-- The calls of a conversion are those of its statements, up to the first that fails, and at the end
the flush. -/
theorem document_calls (env : Environment φ ω) (r : Reader) {c c' : Recorder φ ω}
    {result : Except ScriptError Unit}
    (h : ((Reader.statements r.document).forM (statement env.recorded)).run c = (result, c')) :
    (document env.recorded c r).2.calls = c'.calls ∨
      (document env.recorded c r).2.calls = c'.calls ++ [.flush] := by
  obtain ⟨rest, hdocument, hrest⟩ := r.document_eq
  unfold document
  rw [hdocument, statements_append, h]
  rcases result with e | _
  · exact .inl rfl
  · rcases hrest with rfl | ⟨e, rfl⟩
    · have hfinish := ensures_finish env c'
      dsimp only [statements]
      rcases hd : (finish env.recorded).run c' with ⟨e | report, c''⟩
      · exact (hfinish.error hd).imp (fun h => by rw [h.2]) fun h => h.2.calls_eq
      · exact .inr (hfinish.ok hd).2.calls_eq
    · exact .inl rfl

/-- The conversion has come to an output. Only a conversion that is done or fails in flushing has
flushed, behind all else and outside of all pages. -/
def Flushed (body : List Call) (o : Output) :
    Except ConversionError Report × Recorder φ ω → Prop
  | (.ok report, c) => c.calls = body ++ [.flush] ∧ o = ⟨.outside, .outside, [], report.pages⟩
  | (.error (.statement _), c) => c.calls = body
  | (.error (.conversion e), c) => (e.OfContext → c.Failed e) ∧
    (c.calls = body ∨ c.Failed e ∧ c.calls = body ++ [.flush])

/-- The calls of a conversion may follow each other. -/
theorem document_shows (env : Environment φ ω) (overrides : Overrides) (world : ω) (lx : Lexer) :
    ∃ body o, Output.replay {} body = some o ∧
      Flushed body o (document env.recorded (fresh overrides world) (Reader.ofLexer lx)) := by
  obtain ⟨s, hlegal, hend⟩ := Reader.document_legal (Reader.behind_ofLexer lx)
  obtain ⟨rest, hdocument, hrest⟩ := (Reader.ofLexer lx).document_eq
  have hstep (_ : List Statement) (s : Scope) (t : Statement) (s' : Scope) (c : Recorder φ ω)
      (hc : c.Follows s ∧ c.Shows c.output) (h : s.Leads t s') :
      (statement env.recorded t).Ensures c (fun _ c' => c'.Follows s' ∧ c'.Shows c'.output)
        Stopped := ensures_statement h hc.1 hc.2
  have hrun := ensures_forM hstep [] hlegal ⟨follows_fresh overrides world, rfl⟩
  unfold document
  rw [hdocument, statements_append]
  rcases hm : (List.forM _ (statement env.recorded)).run (fresh overrides world) with ⟨e | _, c⟩
  · obtain ⟨he, o, ho⟩ := hrun.error hm
    exact ⟨c.calls, o, ho, he, .inl rfl⟩
  · obtain ⟨hf, hs⟩ := hrun.ok hm
    refine ⟨c.calls, c.output, hs, ?_⟩
    rcases hrest with rfl | ⟨e, rfl⟩
    · have hcontext : c.context = .outside := by
        refine hf.context.trans (hend fun e he => ?_)
        rw [hdocument, List.append_nil] at he
        obtain ⟨t, -, ht⟩ := List.mem_map.mp he
        cases ht
      have hfinish := ensures_finish env c
      dsimp only [statements]
      rcases hd : (finish env.recorded).run c with ⟨e | report, c'⟩
      · rcases hfinish.error hd with ⟨he, rfl⟩ | ⟨he, hc'⟩
        · exact ⟨fun h => absurd h he, .inl rfl⟩
        · exact ⟨fun _ => he, .inr ⟨he, hc'.calls_eq⟩⟩
      · obtain ⟨rfl, hc'⟩ := hfinish.ok hd
        exact ⟨hc'.calls_eq, by rw [output, hcontext]⟩
    · rfl

end Conversion

end PageScript
