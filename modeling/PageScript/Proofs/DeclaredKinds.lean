import PageScript.Proofs.Mentions
import PageScript.Proofs.Reading

/-!
# Declared kinds

A reader gives a variable the kind under which it has been declared, at any depth of an operand, and
enters no name twice. What it tells of therefore says itself which names stand for what.
-/
namespace PageScript

open Step

namespace Value

/-- Each variable in the value that has a kind has been declared with that kind. -/
def Settled (kinds : Table ValueKind) (v : Value) : Prop :=
  ∀ x kind, v.Mentions x (some kind) → kinds.find? x = some kind

variable {kinds : Table ValueKind}

theorem Concrete.settled {v : Value} (h : v.Concrete) : v.Settled kinds :=
  fun _ _ hm => absurd hm (h _ _)

theorem settled_variable (kinds : Table ValueKind) (x : String) :
    (Value.variable x (kinds.find? x)).Settled kinds := by
  intro y kind h
  obtain ⟨rfl, hk⟩ := mentions_variable.mp h
  exact hk

@[simp] theorem settled_array {items : List Value} :
    (array items).Settled kinds ↔ ∀ v ∈ items, v.Settled kinds := by
  constructor
  · exact fun h v hv x kind hm => h x kind (.item hv hm)
  · intro h x kind hm
    obtain ⟨v, hv, hm⟩ := mentions_array.mp hm
    exact h v hv x kind hm

@[simp] theorem settled_dictionary {entries : Dictionary} :
    (dictionary entries).Settled kinds ↔ ∀ e ∈ entries.entries, e.2.Settled kinds := by
  constructor
  · exact fun h e he x kind hm => h x kind (.entry he hm)
  · intro h x kind hm
    obtain ⟨e, he, hm⟩ := mentions_dictionary.mp hm
    exact h e he x kind hm

end Value

/-- The values in an array or dictionary under way are settled. -/
def Frame.Settled (kinds : Table ValueKind) : Frame → Prop
  | .array items => ∀ v ∈ items, v.Settled kinds
  | .entry entries _ => (Value.dictionary entries).Settled kinds

namespace Nesting

def Settled (kinds : Table ValueKind) : Nesting → Prop
  | atValue frames => ∀ f ∈ frames, f.Settled kinds
  | atKey entries frames => (Value.dictionary entries).Settled kinds ∧ ∀ f ∈ frames, f.Settled kinds

/-- What a token comes to is settled, be it a whole value or a step on the way. -/
def Progress.Settled (kinds : Table ValueKind) : Progress → Prop
  | .ok n => n.Settled kinds
  | .error (.ok v) => v.Settled kinds
  | .error (.error _) => True

variable {kinds : Table ValueKind} {frames : List Frame} {v : Value}

theorem settled_put {entries : Dictionary} {key : String}
    (he : (Value.dictionary entries).Settled kinds) (hv : v.Settled kinds) :
    (Value.dictionary (entries.put key v)).Settled kinds := by
  rw [Value.settled_dictionary] at he ⊢
  intro e hm
  rcases Table.mem_insert hm with rfl | hm
  · exact hv
  · exact he e hm

theorem settled_deliver (hv : v.Settled kinds) (hf : ∀ f ∈ frames, f.Settled kinds) :
    Progress.Settled kinds (deliver v frames) := by
  cases frames with
  | nil => exact hv
  | cons frame frames =>
    obtain ⟨hframe, hrest⟩ := List.forall_mem_cons.mp hf
    cases frame with
    | array items => exact List.forall_mem_cons.mpr ⟨List.forall_mem_cons.mpr ⟨hv, hframe⟩, hrest⟩
    | entry entries key => exact ⟨settled_put hframe hv, hrest⟩

theorem concrete_wordValue (text : String) : (wordValue text).Concrete := by
  unfold wordValue
  split
  · simp
  · split <;> simp

theorem settled_startValue (hf : ∀ f ∈ frames, f.Settled kinds) (t : Token) (u : Bool) :
    Progress.Settled kinds (startValue kinds frames t u) := by
  have delivered {v : Value} (hv : v.Concrete) : Progress.Settled kinds (deliver v frames) :=
    settled_deliver hv.settled hf
  unfold startValue
  split
  · exact delivered (by simp)
  · split
    · trivial
    · exact delivered (by simp)
  · exact delivered (by simp)
  · next x => exact settled_deliver (Value.settled_variable kinds x) hf
  · next text => exact delivered (concrete_wordValue text)
  · exact List.forall_mem_cons.mpr ⟨by simp [Frame.Settled], hf⟩
  · exact ⟨Value.settled_dictionary.mpr nofun, hf⟩
  · trivial
  · split
    · next items frames =>
      obtain ⟨hitems, hrest⟩ := List.forall_mem_cons.mp hf
      refine settled_deliver (Value.settled_array.mpr fun v hv => ?_) hrest
      exact hitems v (List.mem_reverse.mp hv)
    · trivial
  · trivial

theorem settled_step {n : Nesting} (h : n.Settled kinds) (t : Token) (u : Bool) :
    Progress.Settled kinds (n.step kinds t u) := by
  cases n with
  | atValue frames => exact settled_startValue h t u
  | atKey entries frames =>
    obtain ⟨he, hf⟩ := h
    simp only [step, startEntry]
    split
    · exact settled_deliver he hf
    · exact List.forall_mem_cons.mpr ⟨he, hf⟩
    · trivial

end Nesting

namespace Reader

/-- The operands on the stack and the value under way are settled. -/
structure Operands.Settled (kinds : Table ValueKind) (run : Operands) : Prop where
  stack : ∀ v ∈ run.stack, v.Settled kinds
  nesting : run.nesting.Settled kinds

theorem Operands.Settled.push {kinds : Table ValueKind} {run : Operands} (h : run.Settled kinds)
    {v : Value} (hv : v.Settled kinds) : Operands.Settled kinds ⟨v :: run.stack, .atValue []⟩ :=
  ⟨List.forall_mem_cons.mpr ⟨hv, h.stack⟩, nofun⟩

theorem settled_operandsStep {kinds : Table ValueKind} {run next : Operands} {t : Token} {u : Bool}
    (h : run.Settled kinds) (hs : run.step kinds t u = .ok next) : next.Settled kinds := by
  have hstep := Nesting.settled_step h.nesting t u
  unfold Operands.step at hs
  split at hs
  · cases hs
  · cases hs
    exact h.push (Value.concrete_boolean true).settled
  · cases hs
    exact h.push (Value.concrete_boolean false).settled
  · cases hs
  · split at hs
    · next hn =>
      cases hs
      rw [hn] at hstep
      exact ⟨h.stack, hstep⟩
    · next hn =>
      cases hs
      rw [hn] at hstep
      exact h.push hstep
    · cases hs

/-- The operands that no operator has taken are settled. -/
def Settled (r : Reader) : Prop := ∀ v ∈ r.stack, v.Settled r.kinds

theorem settled_operands {r : Reader} (h : r.Settled) :
    operands.Ensures r (fun _ q => q.Settled ∧ q.kinds = r.kinds)
      fun _ q => q.Settled ∧ q.kinds = r.kinds := by
  have hstart : Operands.Settled r.kinds ⟨r.stack, .atValue []⟩ := ⟨h, fun _ => nofun⟩
  have hrun : (operands.run r).2.Settled :=
    (Lexer.feed_invariant Operands.atEnd r.lexer (fun _ _ _ _ => settled_operandsStep) hstart).stack
  have hall : (operands.run r).2.Settled ∧ (operands.run r).2.kinds = r.kinds := ⟨hrun, rfl⟩
  unfold Ensures
  split <;> exact hall

/-- Operands have only been taken, and declared variables have kept their kinds. -/
structure Kept (r r' : Reader) : Prop where
  stack : ∀ v ∈ r'.stack, v ∈ r.stack
  kinds : ∀ x kind, r.kinds.find? x = some kind → r'.kinds.find? x = some kind

theorem Kept.trans {r q r' : Reader} (h : r.Kept q) (h' : q.Kept r') : r.Kept r' :=
  ⟨fun v hv => h.stack v (h'.stack v hv), fun x kind hk => h'.kinds x kind (h.kinds x kind hk)⟩

instance : Std.Refl Kept := ⟨fun _ => ⟨fun _ => id, fun _ _ => id⟩⟩

instance : Trans Kept Kept Kept := ⟨Kept.trans⟩

theorem Kept.settled {r r' : Reader} (h : r.Kept r') (hr : r.Settled) : r'.Settled :=
  fun v hv x kind hm => h.kinds x kind (hr v (h.stack v hv) x kind hm)

theorem ReadOn.kept {r r' : Reader} (h : r.ReadOn r') : r.Kept r' := by
  rw [h.1]
  exact ⟨fun _ => id, fun _ _ => id⟩

theorem Entered.kept {r r' : Reader} {d : Declaration} (h : r.Entered d r') : r.Kept r' := by
  obtain ⟨q, hq, new, rfl⟩ := h
  refine hq.kept.trans ⟨fun _ => id, fun x kind hk => ?_⟩
  cases d with
  | resource | color | pattern => exact hk
  | «variable» y kind' v =>
    have hne : x ≠ y := by
      rintro rfl
      have hnone := new.1
      rw [Table.contains, hk] at hnone
      cases hnone
    simpa [entering, Declaration.addKind, hne] using hk

theorem keeps_declaration {m : Reading Declaration}
    (hm : ∀ r, m.Ensures r (fun d r' => r.Entered d r') fun _ r' => r.ReadOn r') :
    Keeps Kept (Statement.declaration <$> m) :=
  Keeps.map fun r => (hm r).mono (fun _ _ h => h.kept) fun _ _ h => h.kept

theorem kept_closePage : Keeps Kept closePage := fun r =>
  (ensures_closePage r).mono (fun _ _ h => by rw [h.2]; exact ⟨fun _ => id, fun _ _ => id⟩)
    fun _ _ h => h.kept

theorem kept_beginPage : Keeps Kept beginPage := by
  refine (keeps_pageSize.mono fun _ _ h => h.kept).bind fun size => Keeps.get.bind fun r => ?_
  split
  · exact kept_closePage.bind fun _ s => ⟨fun _ => id, fun _ _ => id⟩
  · exact fun s => ⟨fun _ => id, fun _ _ => id⟩

theorem kept_endPage : Keeps Kept endPage := by
  refine Keeps.get.bind fun r => ?_
  split
  · exact kept_closePage.bind fun _ => Keeps.pure
  · exact Keeps.throw

theorem kept_fragment : Keeps Kept fragment := by
  refine (keeps_token.mono fun _ _ h => h.kept).bind fun t => ?_
  split
  · refine Keeps.pure.bind fun word => ?_
    dsimp only
    split
    · exact keeps_declaration ensures_variableDeclaration
    · exact keeps_declaration ensures_resourceDeclaration
    · exact keeps_declaration ensures_colorDeclaration
    · exact keeps_declaration ensures_patternDeclaration
    · exact kept_beginPage
    · exact kept_endPage
    · exact Keeps.throw
  · exact fun r => ⟨fun _ => id, fun _ _ => id⟩

/-- What is told of holds settled operands only. -/
def Tells (kinds : Table ValueKind) : Statement → Prop
  | .graphics o => ∀ v ∈ o.operands, v.Settled kinds
  | _ => True

theorem tells_fragment (r : Reader) (kinds : Table ValueKind) :
    fragment.Ensures r (fun t _ => Tells kinds t) fun _ _ => True := by
  have any {α : Type} {m : Reading α} {r : Reader} {post : α → Reader → Prop}
      (h : ∀ a q, post a q) : m.Ensures r post fun _ _ => True := by
    unfold Ensures
    split
    · exact h _ _
    · trivial
  have declared (m : Reading Declaration) (r : Reader) :
      (Statement.declaration <$> m).Ensures r (fun t _ => Tells kinds t) fun _ _ => True :=
    ensures_map.mpr (any fun _ _ => trivial)
  refine ensures_bind.mpr (any fun t q => ?_)
  split
  · refine ensures_bind.mpr (ensures_pure.mpr ?_)
    dsimp only
    split
    · exact declared ..
    · exact declared ..
    · exact declared ..
    · exact declared ..
    · refine ensures_bind.mpr (any fun size q => ensures_bind.mpr ?_)
      refine ensures_get.mpr ?_
      split
      · exact ensures_bind.mpr (any fun _ _ => trivial)
      · exact ensures_bind.mpr (any fun _ _ => trivial)
    · refine ensures_bind.mpr (ensures_get.mpr ?_)
      split
      · exact ensures_bind.mpr (any fun _ _ => trivial)
      · trivial
    · trivial
  · trivial

theorem settled_graphics {r : Reader} (h : r.Settled) (symbol : String) :
    (graphics symbol).Ensures r (fun t r' => r'.Settled ∧ Tells r.kinds t)
      fun _ r' => r'.Settled := by
  have hfail : (graphics symbol).Ensures r (fun _ _ => True) fun _ r' => r.Kept r' := by
    simp only [graphics, move, ensures_bind, ensures_get, ensures_modify, ensures_ofExcept,
      ensures_pure]
    have taken (op : Operator) : r.Kept { r with stack := (Operation.take op r.stack).2 } :=
      ⟨fun v hv => (Operation.take_suffix op r.stack).subset hv, fun _ _ => id⟩
    exact ⟨fun op _ => ⟨fun _ _ => ⟨fun _ _ => trivial, fun _ _ => taken op⟩, fun _ _ => taken op⟩,
      fun _ _ => Std.Refl.refl r⟩
  refine ((ensures_graphics r symbol).and hfail).mono ?_ fun _ _ hf => hf.2.settled h
  rintro _ _ ⟨⟨o, context, rfl, -, operands, rfl⟩, -⟩
  refine ⟨fun v hv => absurd hv List.not_mem_nil, fun v hv => h v ?_⟩
  rwa [operands, List.mem_reverse] at hv

theorem kept_noOperands : Keeps Kept noOperands := by
  refine Keeps.get.bind fun r => ?_
  dsimp only
  split
  · exact Keeps.pure
  · exact Keeps.throw

theorem settled_nextStatement {r : Reader} (h : r.Settled) :
    nextStatement.Ensures r (fun t r' => r'.Settled ∧ ∀ s ∈ t, Tells r.kinds s)
      fun _ r' => r'.Settled := by
  refine ensures_bind.mpr ((settled_operands h).mono ?_ fun _ _ h => h.1)
  rintro stop q ⟨hq, hk⟩
  have empty_then {m : Reading (Option Statement)}
      (hm : ∀ p : Reader, p.Settled → m.Ensures p
        (fun t r' => r'.Settled ∧ ∀ s ∈ t, Tells r.kinds s) fun _ r' => r'.Settled) :
      (noOperands >>= fun _ => m).Ensures q
        (fun t r' => r'.Settled ∧ ∀ s ∈ t, Tells r.kinds s) fun _ r' => r'.Settled :=
    ensures_bind.mpr ((kept_noOperands q).mono (fun _ p hp => hm p (hp.settled hq))
      fun _ _ hp => hp.settled hq)
  split
  · refine ensures_map.mpr ((settled_graphics hq _).mono ?_ fun _ _ h => h)
    rintro t q' ⟨hq', ht⟩
    exact ⟨hq', by simpa using hk ▸ ht⟩
  · refine empty_then fun p hp => ensures_map.mpr ?_
    refine ((kept_fragment p).and (tells_fragment p r.kinds)).mono ?_ fun _ _ h => h.1.settled hp
    rintro t q' ⟨hq', ht⟩
    exact ⟨hq'.settled hp, by simpa using ht⟩
  · refine empty_then fun p hp => ensures_bind.mpr (ensures_get.mpr ?_)
    split
    · refine ensures_bind.mpr ((kept_closePage p).mono ?_ fun _ _ h => h.settled hp)
      exact fun _ q' hq' => ⟨hq'.settled hp, by simp [Tells]⟩
    · exact ⟨hp, nofun⟩
  · exact hq

theorem settled_readStatement {r : Reader} (h : r.Settled) :
    r.readStatement.2.Settled ∧
      (r.pending = [] → ∀ s ∈ toldBy r.readStatement.1, Tells r.kinds s) := by
  have hn := settled_nextStatement h
  unfold readStatement
  split
  · next s rest hp => exact ⟨h, fun hq => by cases hp.symm.trans hq⟩
  · split
    · next s r' hs => exact ⟨(hn.ok hs).1, fun _ => (hn.ok hs).2⟩
    · next e r' he => exact ⟨hn.error he, fun _ => nofun⟩

theorem settled_after (lx : Lexer) (n : Nat) : ((ofLexer lx).after n).Settled := by
  induction n with
  | zero => exact nofun
  | succ n ih => exact (settled_readStatement ih).1

/-- Operands that are told of are settled by what has been declared before. -/
theorem tells_result {lx : Lexer} {n : Nat} {s : Scope} (hs : ((ofLexer lx).after n).Behind s)
    {o : Operation} (ho : toldBy ((ofLexer lx).result n) = some (.graphics o)) :
    ∀ v ∈ o.operands, v.Settled s.kinds := by
  rcases hs.ahead with ⟨hp, -⟩ | ⟨size, hp, -⟩
  · exact hs.kinds ▸ (settled_readStatement (settled_after lx n)).2 hp _ ho
  · rw [result, readStatement, hp] at ho
    cases ho

/-- What has been told of before a statement was told of by earlier reads. -/
theorem told_split {r : Reader} {n : Nat} {before rest : List Statement} {t : Statement}
    (h : r.told n = before ++ t :: rest) :
    ∃ m, r.told m = before ∧ toldBy (r.result m) = some t := by
  induction n generalizing rest with
  | zero => simp [told] at h
  | succ n ih =>
    rw [told_succ] at h
    cases hn : toldBy (r.result n) with
    | none =>
      rw [hn, Option.toList_none, List.append_nil] at h
      exact ih h
    | some last =>
      rw [hn, Option.toList_some] at h
      rcases rest.eq_nil_or_concat with rfl | ⟨rest, u, rfl⟩
      · obtain ⟨hb, ht⟩ := List.append_inj' h rfl
        cases ht
        exact ⟨n, hb, hn⟩
      · rw [List.concat_eq_append, ← List.cons_append, ← List.append_assoc] at h
        exact ih (List.append_inj' h rfl).1

end Reader

/-- The names of the declared variables. -/
def Statement.variables (statements : List Statement) : List String :=
  statements.filterMap fun
    | .declaration (.variable x _ _) => some x
    | _ => none

/-- The names of the declared resources, colours and patterns. -/
def Statement.names (statements : List Statement) : List String :=
  statements.filterMap fun
    | .declaration (.variable ..) => none
    | .declaration d => some d.name
    | _ => none

namespace Scope

variable {s s' : Scope} {ts : List Statement}

/-- A variable has its kind from before, or from one of the statements. -/
theorem Legal.kind_declared (h : s.Legal ts s') {x : String} {kind : ValueKind}
    (hk : s'.kinds.find? x = some kind) :
    s.kinds.find? x = some kind ∨ ∃ v, .declaration (.variable x kind v) ∈ ts := by
  induction h with
  | nil => exact .inl hk
  | @cons s s₁ s' t ts first _ ih =>
    rcases ih hk with hk | ⟨v, hv⟩
    · cases first with
      | @declaration d new =>
        cases d with
        | resource | color | pattern => exact .inl hk
        | «variable» y kind' v =>
          simp only [entering, Declaration.addKind, Table.find?_insert] at hk
          split at hk
          · next hx =>
            cases hk
            exact .inr ⟨v, hx ▸ List.mem_cons_self⟩
          · exact .inl hk
      | graphics | page | endPage => exact .inl hk
    · exact .inr ⟨v, List.mem_cons_of_mem _ hv⟩

/-- No variable is declared twice, nor one that has been declared before. -/
theorem Legal.nodup_variables (h : s.Legal ts s') :
    (Statement.variables ts).Nodup ∧ ∀ x ∈ Statement.variables ts, s.kinds.contains x = false := by
  induction h with
  | nil => simp [Statement.variables]
  | @cons s s₁ s' t ts first _ ih =>
    cases first with
    | @declaration d new =>
      cases d with
      | resource | color | pattern => exact ih
      | «variable» y kind v =>
        obtain ⟨hnodup, hfresh⟩ := ih
        have hne (x : String) (hx : x ∈ Statement.variables ts) :
            x ≠ y ∧ s.kinds.contains x = false := by
          have := hfresh x hx
          simp only [entering, Declaration.addKind, Table.contains, Table.find?_insert] at this
          split at this
          · cases this
          · next hn => exact ⟨hn, this⟩
        refine ⟨List.nodup_cons.mpr ⟨fun hy => (hne y hy).1 rfl, hnodup⟩, ?_⟩
        exact List.forall_mem_cons.mpr ⟨new.1, fun x hx => (hne x hx).2⟩
    | graphics | page | endPage => exact ih

/-- No resource, colour or pattern is declared under a name that another one has. -/
theorem Legal.nodup_names (h : s.Legal ts s') :
    (Statement.names ts).Nodup ∧ ∀ x ∈ Statement.names ts, x ∉ s.names := by
  induction h with
  | nil => simp [Statement.names]
  | @cons s s₁ s' t ts first _ ih =>
    cases first with
    | @declaration d new =>
      obtain ⟨hnodup, hfresh⟩ := ih
      cases d with
      | «variable» => exact ⟨hnodup, hfresh⟩
      | resource | color | pattern =>
        refine ⟨List.nodup_cons.mpr ⟨fun hm => hfresh _ hm List.mem_cons_self, hnodup⟩, ?_⟩
        exact List.forall_mem_cons.mpr ⟨new, fun x hx hm => hfresh x hx (List.mem_cons_of_mem _ hm)⟩
    | graphics | page | endPage => exact ih

end Scope

namespace Reader

/-- However often a script is read from, also behind errors, what the reads tell of declares no name
twice, and every operation has operands of exactly one signature of its operator, in which each
variable with a kind has been declared before with that kind. -/
theorem told_settled (lx : Lexer) (n : Nat) :
    (Statement.variables ((ofLexer lx).told n)).Nodup ∧
      (Statement.names ((ofLexer lx).told n)).Nodup ∧
      ∀ before o rest, (ofLexer lx).told n = before ++ .graphics o :: rest →
        (∀ v ∈ o.operands, ∀ x kind, v.Mentions x (some kind) →
          ∃ value, .declaration (.variable x kind value) ∈ before) ∧
        (∀ x kind, .variable x kind ∈ o.operands → ∃ k, kind = some k) ∧
        ∃ signature ∈ o.operator.signatures, ∀ signature' ∈ o.operator.signatures,
          Accepts signature' o.operands ↔ signature' = signature := by
  obtain ⟨s, hlegal, -⟩ := told_legal lx n
  refine ⟨hlegal.nodup_variables.1, hlegal.nodup_names.1, fun before o rest h => ?_⟩
  obtain ⟨m, rfl, hm⟩ := told_split h
  obtain ⟨s, hlegal, hbehind⟩ := told_legal lx m
  obtain ⟨signature, hs, ha⟩ := o.accepted
  refine ⟨fun v hv x kind hx => ?_, fun x kind hx => ha.kind_of_mem hx, signature, hs, ?_⟩
  · exact (hlegal.kind_declared (tells_result hbehind hm v hv x kind hx)).resolve_left nofun
  · exact fun signature' _ => ⟨fun h' => h'.unique ha, fun h' => h' ▸ ha⟩

end Reader

end PageScript
