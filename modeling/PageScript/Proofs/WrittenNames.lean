import PageScript.Proofs.WrittenOperators

/-!
# The names that are written

Which names stand among the operands of the operators that are written, and which names of the
script they stand for.
-/
namespace PageScript

def Value.name? : Value → Option String
  | name text => some text
  | _ => none

/-- The names written by some calls, each with its operator, behind some operands. -/
def namesBehind (operands : List Value) : List Call → List (Operator × String)
  | [] => []
  | .operator op :: calls =>
    (operands.filterMap Value.name?).map (op, ·) ++ namesBehind [] calls
  | k :: calls => namesBehind (operandsAfter operands k) calls

def writtenNames (calls : List Call) : List (Operator × String) := namesBehind [] calls

/-- The call writes an operand or an operator. -/
def Call.Writes : Call → Prop
  | .operand _ | .operator _ => True
  | _ => False

theorem Call.Asks.not_writes {k : Call} (h : k.Asks) : ¬ k.Writes := by
  cases k <;> first | exact id | exact h.elim

theorem namesBehind_append (operands : List Value) (calls more : List Call) :
    namesBehind operands (calls ++ more) =
      namesBehind operands calls ++ namesBehind (calls.foldl operandsAfter operands) more := by
  induction calls generalizing operands with
  | nil => rfl
  | cons k calls ih =>
    cases k
    case operator op => simp [namesBehind, ih, operandsAfter]
    all_goals exact ih _

theorem namesBehind_quiet (operands : List Value) {calls : List Call}
    (h : ∀ k ∈ calls, ¬ k.Writes) :
    namesBehind operands calls = [] ∧ calls.foldl operandsAfter operands = operands := by
  induction calls with
  | nil => exact ⟨rfl, rfl⟩
  | cons k calls ih =>
    obtain ⟨hk, hcalls⟩ := List.forall_mem_cons.mp h
    have ih := ih hcalls
    cases k
    case operand | operator => exact absurd trivial hk
    all_goals exact ih

/-- The calls ask for nothing, they leave no operands behind, and the names they write satisfy
`Q`. -/
structure NamesSatisfy (Q : Operator → String → Prop) (calls : List Call) : Prop where
  silent : ∀ k ∈ calls, ¬ k.Asks
  closed : pendingOperands calls = []
  names : ∀ p ∈ writtenNames calls, Q p.1 p.2

namespace NamesSatisfy

variable {Q : Operator → String → Prop} {calls more : List Call}

theorem nil : NamesSatisfy Q [] := ⟨nofun, rfl, nofun⟩

theorem append (h : NamesSatisfy Q calls) (h' : NamesSatisfy Q more) :
    NamesSatisfy Q (calls ++ more) := by
  have hpending : calls.foldl operandsAfter [] = [] := h.closed
  refine ⟨fun k hk => (List.mem_append.mp hk).elim (h.silent k) (h'.silent k), ?_, fun p hp => ?_⟩
  · rw [pendingOperands, List.foldl_append, hpending]
    exact h'.closed
  · rw [writtenNames, namesBehind_append, hpending] at hp
    exact (List.mem_append.mp hp).elim (h.names p) (h'.names p)

theorem quiet (h : ∀ k ∈ calls, ¬ k.Writes) (h' : ∀ k ∈ calls, ¬ k.Asks) :
    NamesSatisfy Q calls := by
  have hnone := namesBehind_quiet [] h
  exact ⟨h', hnone.2, by simp [writtenNames, hnone.1]⟩

theorem skipped (skip : Bool) (h : NamesSatisfy Q calls) :
    NamesSatisfy Q (if skip then [] else calls) := by
  cases skip
  · exact h
  · exact nil

theorem written {op : Operator} {operands : List Value}
    (h : ∀ n, .name n ∈ operands → Q op n) : NamesSatisfy Q (Conversion.written op operands) := by
  have hoperands (before : List Value) :
      namesBehind before (operands.map .operand) = [] ∧
        (operands.map Call.operand).foldl operandsAfter before = before ++ operands := by
    clear h
    induction operands generalizing before with
    | nil => exact ⟨rfl, (List.append_nil before).symm⟩
    | cons v operands ih =>
      obtain ⟨hn, hf⟩ := ih (before ++ [v])
      exact ⟨hn, by rw [List.map_cons, List.foldl_cons]; exact hf.trans (by simp)⟩
  obtain ⟨hn, hf⟩ := hoperands []
  refine ⟨?_, ?_, fun p hp => ?_⟩
  · simp [Conversion.written, Call.Asks, or_imp, forall_and]
  · rw [pendingOperands, Conversion.written, List.foldl_append]
    rfl
  · rw [writtenNames, Conversion.written, namesBehind_append, hn, hf] at hp
    obtain ⟨n, hm, rfl⟩ : ∃ n, n ∈ operands.filterMap Value.name? ∧ (op, n) = p := by
      simpa [namesBehind] using hp
    obtain ⟨v, hv, hname⟩ := List.mem_filterMap.mp hm
    cases v <;> cases hname
    exact h _ hv

theorem of_prefix (h : NamesSatisfy Q more) (hp : calls <+: more) :
    ∀ p ∈ writtenNames calls, Q p.1 p.2 := by
  obtain ⟨rest, rfl⟩ := hp
  intro p hm
  refine h.names p ?_
  rw [writtenNames, namesBehind_append]
  exact List.mem_append_left _ hm

end NamesSatisfy

/-- The operation uses a name in a role. -/
inductive Uses (op : Operator) (operands : List Value) : Role → String → Prop where
  | direct {role : Role} {name : String} {rest : List Value} (takes : op.role? = some role)
      (names : operands = .name name :: rest) : Uses op operands role name
  | font {name : String} {items rest : List Value} (flows : op = .flowText)
      (names : operands = .array items :: rest) (mem : name ∈ spanNames items) :
      Uses op operands .font name

variable {φ ω : Type} {c : Recorder φ ω}

/-- The name is used by the operation, and the handle is the one kept for it. For flowed text the font
has been loaded too. -/
def Stands (c : Recorder φ ω) (op : Operator) (operands : List Value) (role : Role)
    (handle : String) : Prop :=
  ∃ x, Uses op operands role x ∧ c.handles.find? x = some handle ∧
    (op = .flowText → ∃ f, c.fonts.find? x = some f)

/-- Operands of an operator with a role hold no name behind the first. -/
theorem notMem_rest {op : Operator} {role : Role} {first : Value} {rest : List Value}
    {signature : List ValueKind} (takes : op.role? = some role) (hs : signature ∈ op.signatures)
    (ha : Accepts signature (first :: rest)) (n : String) : .name n ∉ rest := by
  have hall : ∀ signature ∈ op.signatures, .name ∉ signature.tail := by
    unfold Operator.role? at takes
    split at takes <;> first | decide | cases takes
  intro hm
  refine hall signature hs ?_
  have htail : rest.map Value.kind = signature.tail.map some := by
    rw [List.map_tail, ← show _ = signature.map some from ha]
    rfl
  have : some ValueKind.name ∈ signature.tail.map some := htail ▸ List.mem_map_of_mem hm
  obtain ⟨kind, hk, he⟩ := List.mem_map.mp this
  exact Option.some.inj he ▸ hk

namespace NamesSatisfy

open Conversion

variable {Q : Operator → String → Prop}

theorem spanCalls (t : TextState) (s : LineSpan (LoadedFont φ) Float32)
    (h : Q .setFont s.font.handle) : NamesSatisfy Q (spanCalls t s) := by
  refine .append (.skipped _ (.written fun n hn => ?_)) <|
    .append (.skipped _ (.written (by simp))) (.append (.written (by simp)) (.written (by simp)))
  obtain rfl : n = s.font.handle := by simpa using hn
  exact h

theorem spansCalls (t : TextState) (spans : List (LineSpan (LoadedFont φ) Float32))
    (h : ∀ s ∈ spans, Q .setFont s.font.handle) : NamesSatisfy Q (spansCalls t spans) := by
  induction spans generalizing t with
  | nil => exact .nil
  | cons s spans ih =>
    obtain ⟨hs, hspans⟩ := List.forall_mem_cons.mp h
    exact .append (.spanCalls t s hs) (ih _ hspans)

/-- Flowed text only names the fonts of its lines. -/
theorem linesCalls (options : FlowOptions Float32) (lines : List (Line (LoadedFont φ) Float32))
    (h : ∀ line ∈ lines, line.AllFonts fun f => Q .setFont f.handle) :
    NamesSatisfy Q (linesCalls options lines) := by
  unfold Conversion.linesCalls
  split
  · exact .nil
  · have announced {k : Call} (hk : ¬ k.Writes ∧ ¬ k.Asks) {calls : List Call}
        (hc : NamesSatisfy Q calls) : NamesSatisfy Q (k :: calls) := by
      have hself : NamesSatisfy Q [k] := .quiet (by simpa using hk.1) (by simpa using hk.2)
      exact append hself hc
    refine .append (.written nofun) <| announced ⟨id, id⟩ <|
      .append (.written nofun) (.append (.append (.skipped _ (.written (by simp))) <|
        .append (.skipped _ (.written (by simp))) (.spansCalls _ _ fun s hs => ?_)) <|
        .append (.written nofun) <| announced ⟨id, id⟩ (.written nofun))
    obtain ⟨line, hl, hs⟩ := List.mem_flatMap.mp hs
    exact h line hl s hs

end NamesSatisfy

/-- The names that an operation writes with a role stand for names that it uses. -/
theorem Expansion.names {op : Operator} {operands : List Value} {calls : List Call}
    (h : Expansion c op operands calls)
    (accepted : ∃ signature ∈ op.signatures, Accepts signature operands) :
    NamesSatisfy (fun op' n => ∀ role, op'.role? = some role → Stands c op operands role n) calls := by
  obtain ⟨signature, hs, ha⟩ := accepted
  cases h with
  | plain own => exact .written fun n _ role hr => absurd (own.symm.trans hr) nofun
  | @named role name handle rest takes direct names found =>
    subst names
    refine .written fun n hn role' hr => ?_
    obtain rfl : role = role' := Option.some.inj (takes.symm.trans hr)
    rcases List.mem_cons.mp hn with he | hn
    · cases he
      exact ⟨name, .direct takes rfl, found, fun h => by rw [h] at takes; cases takes⟩
    · exact absurd hn (notMem_rest takes hs ha n)
  | image draws names found =>
    subst draws names
    refine .append (.written nofun) (.append (.written (by simp)) (.append ?_ (.written nofun)))
    refine .written fun n hn role hr => ?_
    obtain rfl : n = _ := by simpa using hn
    cases hr
    exact ⟨_, .direct rfl rfl, found, nofun⟩
  | color color paints => exact .written (by simp)
  | pattern paints names found =>
    refine .append (.written fun n _ role hr => ?_) (.written fun n _ role hr => ?_) <;>
      split at hr <;> cases hr
  | lines options flows names fonts =>
    refine .linesCalls options _ fun line hl s hs role hr => ?_
    obtain ⟨name, hmem, hhandle, hfont⟩ := fonts line hl s hs
    cases hr
    exact ⟨name, .font flows names hmem, hhandle, fun _ => ⟨_, hfont⟩⟩

theorem Context.announcement_quiet (before after : Context) :
    ∀ k ∈ before.opening after ++ before.closing after, ¬ k.Writes ∧ ¬ k.Asks := by
  simp only [opening, closing, List.mem_append, List.mem_ite_nil_right, List.mem_singleton]
  rintro k ((⟨-, rfl⟩ | ⟨-, rfl⟩) | (⟨-, rfl⟩ | ⟨-, rfl⟩)) <;> exact ⟨id, id⟩

namespace Conversion

/-- However far an operation has been performed, it has asked and then written some of the names
that stand for what it uses. -/
theorem Performed.names {c' : Recorder φ ω} {o : Operation} {next : Context} {first : List Call}
    {P : Recorder φ ω → List Value → List Call → Prop} (hp : Performed c o next first P c')
    (hfirst : first <+: c.context.opening next)
    (hP : ∀ c₁ operands ks, P c₁ operands ks → ks = [] ∨
      ∃ full, Expansion c₁ o.operator operands full ∧ ks <+: full ++ c.context.closing next)
    (accepted : ∀ operands, Value.substituteItems c.bindings o.operands = .ok operands →
      ∃ signature ∈ o.operator.signatures, Accepts signature operands) (hc : c.Traced) :
    ∃ operands c₁, Value.substituteItems c.bindings o.operands = .ok operands ∧
      c₁.Traced ∧ c₁.resources = c.resources ∧ c₁.patterns = c.patterns ∧
      (∃ es, c₁.events = c.events ++ es ∧ ∀ e ∈ es, ¬ e.call.Writes) ∧
      ∃ ks full, c₁.Sent ks c' ∧ ks <+: full ∧ NamesSatisfy
        (fun op n => ∀ role, op.role? = some role → Stands c₁ o.operator operands role n) full := by
  obtain ⟨operands, c₀, c₁, ks, hsub, h₀, ha, hks, h₁⟩ := hp
  have quiet : ∀ k ∈ first, ¬ k.Writes ∧ ¬ k.Asks := fun k hk =>
    Context.announcement_quiet _ _ k (List.mem_append_left _ (hfirst.subset hk))
  have htraced : ({ c with context := next } : Recorder φ ω).Traced :=
    hc.of_world rfl rfl rfl rfl rfl
  have hc₀ : c₀.Traced := htraced.sent h₀ fun k hk => (quiet k hk).2
  have hsame : c₁.resources = c.resources ∧ c₁.patterns = c.patterns := by
    rw [ha.same, h₀.1]
    exact ⟨rfl, rfl⟩
  refine ⟨operands, c₁, hsub, ha.traced hc₀, hsame.1, hsame.2, ?_, ?_⟩
  · obtain ⟨-, es, he, rfl⟩ := h₀
    obtain ⟨es', he', hasks⟩ := ha.events
    refine ⟨es ++ es', by rw [he', he, List.append_assoc]; rfl, fun e hm => ?_⟩
    rcases List.mem_append.mp hm with hm | hm
    · exact (quiet _ (List.mem_map_of_mem hm)).1
    · exact (hasks e hm).not_writes
  · rcases hP c₁ operands ks hks with rfl | ⟨full, hx, hk⟩
    · exact ⟨[], [], h₁, List.prefix_refl _, .nil⟩
    · have hclosing : ∀ k ∈ c.context.closing next, ¬ k.Writes ∧ ¬ k.Asks := fun k hk =>
        Context.announcement_quiet _ _ k (List.mem_append_right _ hk)
      exact ⟨ks, _, h₁, hk, .append (hx.names (accepted operands hsub))
        (.quiet (fun k hk => (hclosing k hk).1) fun k hk => (hclosing k hk).2)⟩

/-- Each name that an operation has written for a role was granted before, to a name that the
operation uses. -/
def NamesGranted (c : Recorder φ ω) (o : Operation) (events : List (Event φ)) : Prop :=
  ∀ seen, seen <+: events → ∀ op handle role,
    (op, handle) ∈ writtenNames (seen.map Event.call) → op.role? = some role →
      ∃ operands name role', Value.substituteItems c.bindings o.operands = .ok operands ∧
        Uses o.operator operands role name ∧ (o.operator = .flowText → c.Holds name .font) ∧
        ∃ e ∈ c.events ++ seen, c.Grants name handle role' e

theorem Performed.namesGranted {c' : Recorder φ ω} {o : Operation} {next : Context}
    {first : List Call} {P : Recorder φ ω → List Value → List Call → Prop}
    (hp : Performed c o next first P c') (hfirst : first <+: c.context.opening next)
    (hP : ∀ c₁ operands ks, P c₁ operands ks → ks = [] ∨
      ∃ full, Expansion c₁ o.operator operands full ∧ ks <+: full ++ c.context.closing next)
    (accepted : ∀ operands, Value.substituteItems c.bindings o.operands = .ok operands →
      ∃ signature ∈ o.operator.signatures, Accepts signature operands) (hc : c.Traced) :
    ∃ es, c'.events = c.events ++ es ∧ NamesGranted c o es := by
  obtain ⟨operands, c₁, hsub, ht, hr, hpat, ⟨asked, hasked, hquiet⟩, ks, full, hs, hk, hfull⟩ :=
    hp.names hfirst hP accepted hc
  obtain ⟨-, writes, hwrites, rfl⟩ := hs
  refine ⟨asked ++ writes, by rw [hwrites, hasked, List.append_assoc],
    fun seen hseen op handle role hm hrole => ?_⟩
  have hnone {es : List (Event φ)} (h : es <+: asked) :
      writtenNames (es.map Event.call) = [] ∧
        (es.map Event.call).foldl operandsAfter [] = [] := by
    refine namesBehind_quiet [] fun k hk => ?_
    obtain ⟨e, he, rfl⟩ := List.mem_map.mp hk
    exact hquiet e (h.subset he)
  rcases List.prefix_or_prefix_of_prefix hseen (List.prefix_append asked writes) with h | ⟨w, rfl⟩
  · rw [(hnone h).1] at hm
    cases hm
  · -- The names stand among what has been written behind all that was asked.
    obtain ⟨hna, hpa⟩ := hnone (List.prefix_refl asked)
    have hw : w.map Event.call <+: full :=
      (((List.prefix_append_right_inj asked).mp hseen).map Event.call).trans hk
    rw [List.map_append, writtenNames, namesBehind_append, hpa] at hm
    have hm : (op, handle) ∈ writtenNames (w.map Event.call) := by
      rcases List.mem_append.mp hm with hm | hm
      · rw [show namesBehind [] (asked.map Event.call) = [] from hna] at hm
        cases hm
      · exact hm
    obtain ⟨name, huses, hfound, hfont⟩ := hfull.of_prefix hw _ hm role hrole
    obtain ⟨role', e, he, hg⟩ := (ht.handles name handle).mp hfound
    have hgrants := ht.grants e he role' name handle hg
    refine ⟨operands, name, role', hsub, huses, fun hflow => ?_, e, ?_,
      hgrants.mono (by simp [hr]) (by simp [hpat])⟩
    · obtain ⟨f, hf⟩ := hfont hflow
      simpa [Converter.Holds, hr] using ht.fonts name f hf
    · rw [← List.append_assoc, ← hasked]
      exact List.mem_append_left _ he

/-- However an operation ends, the names it has written for roles were granted. -/
theorem ensures_namesGranted [FontMetrics φ Float32] {env : Environment φ ω} {o : Operation} {next : Context}
    (accepted : ∀ operands, Value.substituteItems c.bindings o.operands = .ok operands →
      ∃ signature ∈ o.operator.signatures, Accepts signature operands)
    (hn : c.context.accept o.operator = .ok next) (hc : c.Traced) :
    (operation env.recorded o).Ensures c
      (fun _ c' => ∃ es, c'.events = c.events ++ es ∧ NamesGranted c o es)
      fun _ c' => ∃ es, c'.events = c.events ++ es ∧ NamesGranted c o es := by
  refine (ensures_operation accepted hn).mono (fun _ c' hp => ?_) ?_
  · exact hp.namesGranted (List.prefix_refl _)
      (fun _ _ _ ⟨full, hx, hks⟩ => .inr ⟨full, hx, hks ▸ List.prefix_refl _⟩) accepted hc
  · rintro e c' ⟨-, rfl | ⟨first, hfirst, hp⟩⟩
    · refine ⟨[], (List.append_nil _).symm, fun seen hseen op handle role hm => ?_⟩
      obtain rfl := List.prefix_nil.mp hseen
      cases hm
    · exact hp.namesGranted hfirst
        (fun _ _ _ h => h.imp_right fun ⟨_, full, hx, hks⟩ => ⟨full, hx, hks⟩) accepted hc

end Conversion

end PageScript
