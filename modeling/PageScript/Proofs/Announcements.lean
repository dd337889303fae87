import PageScript.Proofs.Run

/-!
# Pages and objects are announced in order

The calls that announce pages and their objects are nested as in a document. If the calls of a
conversion are answered, everything announced is closed in the end, and the document is flushed
once.
-/
namespace PageScript

open scoped Computability

theorem Call.Asks.bracket_eq_none {k : Call} (h : k.Asks) : k.bracket? = none := by
  cases k <;> first | rfl | exact h.elim

namespace Output

variable {o o' : Output}

/-- A call announces a bracket that may follow, and counts the pages. -/
theorem Next.brackets {k : Call} (h : o.Next k o') :
    Bracket.followAll? o.objects k.bracket?.toList = some o'.objects ∧
      o'.pages = o.pages + k.bracket?.toList.count .beginPage := by
  cases h with
  | beginPage level | endPage level => exact ⟨by simp [Call.bracket?, level, Bracket.follow?], rfl⟩
  | object announces inside follows =>
    rw [announces]
    exact ⟨by simp [follows], by simp [inside.1]⟩
  | operand | operator => exact ⟨rfl, rfl⟩
  | asks asks =>
    rw [asks.bracket_eq_none]
    exact ⟨rfl, rfl⟩

theorem brackets_replay {calls : List Call} (h : o.replay calls = some o') :
    Bracket.followAll? o.objects (brackets calls) = some o'.objects ∧
      o'.pages = o.pages + (brackets calls).count .beginPage := by
  induction calls generalizing o with
  | nil =>
    cases h
    exact ⟨rfl, rfl⟩
  | cons k calls ih =>
    obtain ⟨o₁, hk, hcalls⟩ := Option.bind_eq_some_iff.mp h
    obtain ⟨hb, hp⟩ := (next_of_after hk).brackets
    obtain ⟨hbs, hps⟩ := ih hcalls
    have hcons : brackets (k :: calls) = k.bracket?.toList ++ brackets calls := by
      cases hk' : k.bracket? <;> simp [brackets, hk']
    rw [hcons]
    refine ⟨?_, by rw [List.count_append, hps, hp, Nat.add_assoc]⟩
    rw [Bracket.followAll?, List.foldlM_append, ← Bracket.followAll?, hb]
    exact hbs

theorem flush_notMem_of_replay {calls : List Call} (h : o.replay calls = some o') :
    Call.flush ∉ calls := by
  intro hm
  obtain ⟨before, after, rfl⟩ := List.append_of_mem hm
  rw [replay_append] at h
  obtain ⟨o₁, -, h⟩ := Option.bind_eq_some_iff.mp h
  cases h

end Output

theorem brackets_append_flush (calls : List Call) :
    brackets (calls ++ [.flush]) = brackets calls := by
  rw [brackets, List.filterMap_append]
  exact List.append_nil _

/-- At every moment what is open can be closed. -/
theorem brackets_prefix {body calls : List Call} {o : Output} (h : Output.replay {} body = some o)
    (hp : calls <+: body ++ [.flush]) : ∃ more, brackets calls ++ more ∈ Bracket.documents := by
  have hbody {calls : List Call} (hp : calls <+: body) :
      ∃ more, brackets calls ++ more ∈ Bracket.documents := by
    obtain ⟨o', ho'⟩ := Output.replay_prefix h hp
    exact ⟨_, Bracket.append_closing_mem_documents (Output.brackets_replay ho').1⟩
  rcases List.prefix_concat_iff.mp hp with rfl | hp
  · rw [brackets_append_flush]
    exact hbody (List.prefix_refl body)
  · exact hbody hp

namespace Conversion

variable {φ ω : Type} [FontMetrics φ Float32]

/-- If all calls of a conversion are answered, no statement of its script stands in a wrong context.
The calls that announce pages and objects always begin a document, and are one if the script is
converted. Then they agree with the report and the flush is the last call; else there is no
flush. -/
theorem announced_in_order (env : Environment φ ω) (overrides : Overrides) (world : ω) (lx : Lexer)
    (answered : ∀ event ∈
      (document env.recorded (Converter.fresh overrides world) (Reader.ofLexer lx)).2.events,
        event.Answered) :
    let run := document env.recorded (Converter.fresh overrides world) (Reader.ofLexer lx)
    (∀ e, run.1 = .error (.conversion e) → ¬ e.OfContext) ∧
      (∀ calls, calls <+: run.2.calls →
        ∃ more, brackets calls ++ more ∈ Bracket.documents) ∧
      (∀ report, run.1 = .ok report → brackets run.2.calls ∈ Bracket.documents ∧
        (brackets run.2.calls).count .beginPage = report.pages ∧
        (brackets run.2.calls).count .endPage = report.pages ∧
        ∃ before, run.2.calls = before ++ [.flush] ∧ Call.flush ∉ before) ∧
      ∀ e, run.1 = .error e → Call.flush ∉ run.2.calls := by
  obtain ⟨body, o, ho, hrun⟩ := document_shows env overrides world lx
  obtain ⟨hfollow, hpages⟩ := Output.brackets_replay ho
  intro run
  change Flushed body o run at hrun
  have hnever (e : ScriptError) : ¬ run.2.Failed e := by
    rintro ⟨before, k, he⟩
    cases answered ⟨k, .error e⟩ (he ▸ by simp)
  rcases run with ⟨(e | e) | report, c⟩
  · obtain rfl : c.calls = body := hrun
    exact ⟨fun e h => (by cases h),
      fun calls hp => brackets_prefix ho (hp.trans (List.prefix_append _ _)),
      fun report h => (by cases h), fun _ _ => Output.flush_notMem_of_replay ho⟩
  · obtain ⟨he, hcalls⟩ := hrun
    obtain rfl : c.calls = body := hcalls.resolve_right fun h => hnever e h.1
    refine ⟨fun e' h => ?_, fun calls hp => brackets_prefix ho (hp.trans (List.prefix_append _ _)),
      fun report h => (by cases h), fun _ _ => Output.flush_notMem_of_replay ho⟩
    cases h
    exact fun h => hnever e (he h)
  · obtain ⟨hcalls, rfl⟩ := hrun
    have hbegins (calls : List Call) (hp : calls <+: c.calls) :
        ∃ more, brackets calls ++ more ∈ Bracket.documents := by
      rw [hcalls] at hp
      exact brackets_prefix ho hp
    refine ⟨fun e h => (by cases h), hbegins, fun report' h => ?_, fun e h => by cases h⟩
    cases h
    have hcount := Bracket.count_beginPage hfollow
    simp only [Nat.zero_add, if_true, Nat.add_zero] at hpages hcount
    rw [hcalls, brackets_append_flush]
    exact ⟨Bracket.mem_documents hfollow, hpages.symm, hcount.symm.trans hpages.symm, body, rfl,
      Output.flush_notMem_of_replay ho⟩

set_option maxRecDepth 100000 in
/-- A script with flowed text is announced in order, and so is one that breaks off inside a path. -/
theorem announced_in_order_willing :
    let run (script : String) :=
      document (Environment.willing (FixedWidthFont.monospace 500 0)).recorded
        (Converter.fresh ∅ ()) (Reader.ofLexer (Lexer.ofBytes script.toUTF8.toList))
    let whole := run "# resource /F /Font (f) # page /A4 [(a b) /F 12] 9 9 99 99 ft 1 1 m n"
    let cut := run "# page /A4 BT ET 1 1 m n # page /A5 1 1 m"
    ((∀ event ∈ whole.2.events, event.Answered) ∧ whole.1 = .ok ⟨6, 1, 0⟩ ∧
      brackets whole.2.calls =
        [.beginPage, .beginText, .endText, .beginPath, .endPath, .endPage] ∧
      brackets whole.2.calls ∈ Bracket.documents ∧
      ∃ before, whole.2.calls = before ++ [.flush] ∧ Call.flush ∉ before) ∧
    (∀ event ∈ cut.2.events, event.Answered) ∧ cut.1.toOption = none ∧
      (∀ calls, calls <+: cut.2.calls → ∃ more, brackets calls ++ more ∈ Bracket.documents) ∧
      Call.flush ∉ cut.2.calls := by
  intro run whole cut
  have hwhole : ∀ event ∈ whole.2.events, event.Answered := by decide +kernel
  have hreport : whole.1.toOption = some ⟨6, 1, 0⟩ := by decide +kernel
  have hcut : ∀ event ∈ cut.2.events, event.Answered := by decide +kernel
  have herror : cut.1.toOption = none := by decide +kernel
  have hok : whole.1 = .ok ⟨6, 1, 0⟩ := by
    rcases hr : whole.1 with e | report <;> rw [hr] at hreport <;> cases hreport
    rfl
  obtain ⟨-, -, hdone, -⟩ := announced_in_order _ ∅ () _ hwhole
  obtain ⟨hdocument, -, -, hflush⟩ := hdone _ hok
  obtain ⟨-, hprefix, -, hfailed⟩ := announced_in_order _ ∅ () _ hcut
  refine ⟨⟨hwhole, hok, by decide +kernel, hdocument, hflush⟩, hcut, herror, hprefix, ?_⟩
  rcases hr : cut.1 with e | report
  · exact hfailed e hr
  · rw [hr] at herror
    cases herror

end Conversion

end PageScript
