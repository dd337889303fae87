import PageScript.Proofs.Run

/-!
# What is written can be read

The operators written into a document have operands of their signatures, and follow each other on
each page as the operators of a script have to.
-/
namespace PageScript

/-- The operands written since the last operator, with one more call. -/
def operandsAfter (operands : List Value) : Call → List Value
  | .operand v => operands ++ [v]
  | .operator _ => []
  | _ => operands

def pendingOperands (calls : List Call) : List Value := calls.foldl operandsAfter []

def writtenOperators (calls : List Call) : List Operator :=
  calls.filterMap fun
    | .operator op => some op
    | _ => none

namespace Output

variable {o o' : Output} {k : Call} {calls : List Call}

theorem Next.operands (h : o.Next k o') : o'.operands = operandsAfter o.operands k := by
  cases h with
  | beginPage | endPage | operand | operator => rfl
  | object announces => cases k <;> first | rfl | cases announces
  | asks asks => cases k <;> first | rfl | exact asks.elim

/-- Inside a page no other one begins, and operators are accepted. -/
theorem Next.operators (h : o.Next k o') (hpage : o.objects ≠ .outside) (hend : k ≠ .endPage) :
    o'.objects ≠ .outside ∧
      (writtenOperators [k]).foldlM Context.accept o.operators = .ok o'.operators := by
  cases h with
  | beginPage level => exact absurd level hpage
  | endPage => exact absurd rfl hend
  | object announces inside follows =>
    refine ⟨?_, by cases k <;> first | rfl | cases announces⟩
    rintro rfl
    exact inside.2 (Bracket.eq_endPage_of_follow follows)
  | operand => exact ⟨hpage, rfl⟩
  | operator _ accepted =>
    refine ⟨hpage, ?_⟩
    simpa [writtenOperators] using accepted
  | asks asks => exact ⟨hpage, by cases k <;> first | rfl | exact asks.elim⟩

theorem operands_replay (h : o.replay calls = some o') :
    o'.operands = calls.foldl operandsAfter o.operands := by
  induction calls generalizing o with
  | nil =>
    cases h
    rfl
  | cons k calls ih =>
    obtain ⟨o₁, hk, hcalls⟩ := Option.bind_eq_some_iff.mp h
    rw [ih hcalls, (next_of_after hk).operands]
    rfl

theorem operators_replay (h : o.replay calls = some o') (hpage : o.objects ≠ .outside)
    (hend : Call.endPage ∉ calls) :
    (writtenOperators calls).foldlM Context.accept o.operators = .ok o'.operators := by
  induction calls generalizing o with
  | nil =>
    cases h
    rfl
  | cons k calls ih =>
    obtain ⟨o₁, hk, hcalls⟩ := Option.bind_eq_some_iff.mp h
    obtain ⟨hk', hcalls'⟩ : Call.endPage ≠ k ∧ Call.endPage ∉ calls := by simpa using hend
    obtain ⟨hpage', haccept⟩ := (next_of_after hk).operators hpage (Ne.symm hk')
    have hcons : writtenOperators (k :: calls) = writtenOperators [k] ++ writtenOperators calls :=
      List.filterMap_append (l := [k])
    rw [hcons, List.foldlM_append, haccept]
    exact ih hcalls hpage' hcalls'

/-- Where an operator is written it takes all operands since the last one. -/
theorem operator_of_replay {before after : List Call} {op : Operator}
    (h : o.replay (before ++ .operator op :: after) = some o') :
    ∃ operation, Operation.take op (before.foldl operandsAfter o.operands).reverse =
      (.ok operation, []) := by
  rw [replay_append] at h
  obtain ⟨o₁, hbefore, h⟩ := Option.bind_eq_some_iff.mp h
  obtain ⟨o₂, hop, -⟩ := Option.bind_eq_some_iff.mp h
  rw [← operands_replay hbefore]
  cases next_of_after hop with
  | operator taken => exact ⟨_, taken⟩
  | object announces => cases announces
  | asks asks => exact asks.elim

/-- Behind the beginning of a page the operators start at its level, and they have come back to it
where it ends. -/
theorem page_of_replay {before page after : List Call} {size : PageSize}
    (h : o.replay (before ++ .beginPage size :: (page ++ after)) = some o')
    (hend : Call.endPage ∉ page) :
    ∃ context, (writtenOperators page).foldlM Context.accept .page = .ok context ∧
      (after.head? = some .endPage → context = .page) := by
  rw [replay_append] at h
  obtain ⟨o₁, -, h₁⟩ := Option.bind_eq_some_iff.mp h
  obtain ⟨o₂, hbegin, h₂⟩ := Option.bind_eq_some_iff.mp h₁
  change o₂.replay (page ++ after) = some o' at h₂
  rw [replay_append] at h₂
  obtain ⟨o₃, hpage, h₃⟩ := Option.bind_eq_some_iff.mp h₂
  have hlevel : o₂.objects = .page ∧ o₂.operators = .page := by
    cases next_of_after hbegin with
    | beginPage => exact ⟨rfl, rfl⟩
    | object announces inside => cases announces; exact absurd rfl inside.1
    | asks asks => exact asks.elim
  refine ⟨o₃.operators, hlevel.2 ▸ operators_replay hpage (by simp [hlevel.1]) hend, fun hhead => ?_⟩
  cases after with
  | nil => cases hhead
  | cons k after =>
    cases hhead
    obtain ⟨o₄, hclose, -⟩ := Option.bind_eq_some_iff.mp h₃
    cases next_of_after hclose with
    | endPage level closed => exact closed
    | object announces inside => cases announces; exact absurd rfl inside.2
    | asks asks => exact asks.elim

end Output

namespace Conversion

variable {φ ω : Type} [FontMetrics φ Float32]

theorem calls_of_document (env : Environment φ ω) (overrides : Overrides) (world : ω) (lx : Lexer) :
    ∃ body o, Output.replay {} body = some o ∧
      let run := document env.recorded (Converter.fresh overrides world) (Reader.ofLexer lx)
      (run.2.calls = body ∨ run.2.calls = body ++ [.flush]) := by
  obtain ⟨body, o, ho, hrun⟩ := document_shows env overrides world lx
  refine ⟨body, o, ho, ?_⟩
  dsimp only
  unfold Flushed at hrun
  split at hrun
  · next h => rw [h]; exact .inr hrun.1
  · next h => rw [h]; exact .inl hrun
  · next h => rw [h]; exact hrun.2.imp_right And.right

theorem before_flush {body before rest : List Call} {k : Call}
    (h : body = before ++ k :: rest ∨ body ++ [.flush] = before ++ k :: rest) (hk : k ≠ .flush) :
    ∃ inner, body = before ++ k :: inner ∧ (rest = inner ∨ rest = inner ++ [.flush]) := by
  rcases h with h | h
  · exact ⟨rest, h, .inl rfl⟩
  · rcases List.eq_nil_or_concat rest with rfl | ⟨inner, last, rfl⟩
    · exact absurd (List.append_singleton_inj.mp h).2 (Ne.symm hk)
    · rw [List.concat_eq_append, ← List.cons_append, ← List.append_assoc,
        List.append_singleton_inj] at h
      obtain ⟨rfl, rfl⟩ := h
      exact ⟨inner, rfl, .inr List.concat_eq_append⟩

/-- Each operator is written with operands of one of its signatures and no others, and on each page
the operators can be replayed, back to the level of the page where it ends. -/
theorem written_as_read (env : Environment φ ω) (overrides : Overrides) (world : ω) (lx : Lexer) :
    let calls :=
      (document env.recorded (Converter.fresh overrides world) (Reader.ofLexer lx)).2.calls
    (∀ before op after, calls = before ++ .operator op :: after →
      (∃ signature ∈ op.signatures, Accepts signature (pendingOperands before)) ∧
        ∃ o, Operation.take op (pendingOperands before).reverse = (.ok o, []) ∧ o.operator = op ∧
          o.operands = pendingOperands before) ∧
      ∀ before size page after, calls = before ++ .beginPage size :: (page ++ after) →
        Call.endPage ∉ page →
        ∃ context, (writtenOperators page).foldlM Context.accept .page = .ok context ∧
          (after.head? = some .endPage → context = .page) := by
  intro calls
  obtain ⟨body, o, ho, hcalls⟩ := calls_of_document env overrides world lx
  have split {before rest : List Call} {k : Call} (he : calls = before ++ k :: rest) :
      body = before ++ k :: rest ∨ body ++ [.flush] = before ++ k :: rest :=
    hcalls.imp (·.symm.trans he) (·.symm.trans he)
  refine ⟨fun before op after he => ?_, fun before size page after he hend => ?_⟩
  · obtain ⟨inner, rfl, -⟩ := before_flush (split he) nofun
    obtain ⟨operation, htake⟩ := Output.operator_of_replay ho
    obtain ⟨rfl, hoperands, -⟩ := Operation.take_ok htake
    have hpending : operation.operands = pendingOperands before := by
      rw [hoperands, List.reverse_reverse]
      rfl
    exact ⟨hpending ▸ operation.accepted, operation, htake, rfl, hpending⟩
  · obtain ⟨inner, rfl, rfl | hinner⟩ := before_flush (split he) nofun
    · exact Output.page_of_replay ho hend
    · rcases List.eq_nil_or_concat after with rfl | ⟨more, last, rfl⟩
      · -- The flush is all that follows, and the page has not ended.
        rw [List.append_nil] at hinner
        subst hinner
        rw [← List.append_nil inner] at ho
        obtain ⟨context, hcontext, -⟩ := Output.page_of_replay ho fun h => hend (by simp [h])
        exact ⟨context, by simpa [writtenOperators] using hcontext, nofun⟩
      · rw [List.concat_eq_append, ← List.append_assoc, List.append_singleton_inj] at hinner
        obtain ⟨rfl, rfl⟩ := hinner
        obtain ⟨context, hcontext, hclosed⟩ := Output.page_of_replay ho hend
        refine ⟨context, hcontext, fun hhead => hclosed ?_⟩
        cases more with
        | nil => cases hhead
        | cons k more => exact hhead

end Conversion

end PageScript
